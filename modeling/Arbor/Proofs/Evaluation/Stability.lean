import Arbor.Proofs.Scope.Admission

/-!
# Stability of evaluation

Evaluation answers with a datum or with a problem, or it leaves the answer open because something is
only known when the program runs.  The first two are final: whatever the program finds in its slots,
evaluation with that knowledge comes to the same (`Job.evaluate_stable`).
-/

namespace Arbor

open Evaluation Fold

/-- A name that is bound to a datum keeps it, one that is not bound stays so, and one that is stored
may come to anything. -/
lemma Scopes.Admit.namesStand {C : Datum → ValueType → Prop} {ss ss' : Scopes}
    (h : Scopes.Admit C ss ss') {job : Job} {entered : List String} (run : Runner job entered) :
    NamesStand run (fun _ => True) ss ss' := by
  intro name span
  have hname := h.find? name.name
  rw [foldExpr, foldExpr, lookup, lookup]
  generalize Scopes.find? ss name.name = b at hname ⊢
  generalize Scopes.find? ss' name.name = b' at hname ⊢
  cases hname with
  | none => exact .refl _
  | some hb =>
    cases hb with
    | refl b => exact .refl _
    | datum _ _ _ _ => exact stands_failure _

/-- **What evaluation finds out is final.**  Let data, whichever they are, take the place of some of
the stored values in scope.  An expression that evaluates to a datum evaluates to the same datum
then, and one that meets a problem meets the same problem. -/
theorem Job.evaluate_stable (job : Job) (entered : List String) {ss ss' : Scopes}
    (h : Scopes.Admit (fun _ _ => True) ss ss') (e : Expr) :
    (∀ d, job.evaluate ss entered e = .ok (some d) →
      job.evaluate ss' entered e = .ok (some d)) ∧
    ∀ p, job.evaluate ss entered e = .error p → job.evaluate ss' entered e = .error p := by
  have hstands := stands_foldExpr (h.namesStand (foldCall job entered)) e
  exact ⟨fun _ hd => hstands.result hd, fun _ hp => hstands.problem trivial hp⟩

namespace Job

/-- A function with a local that is assigned to in a branch. -/
def ofCap : Job where
  file :=
    ⟨[.function
      { ident := ⟨"cap", .nowhere⟩
        params := [⟨"n", .nowhere⟩]
        body :=
          [.define .var ⟨"r", .nowhere⟩ (.ref ⟨"n", .nowhere⟩ .nowhere),
            .ifThen (.binary .gt (.ref ⟨"r", .nowhere⟩ .nowhere)
                (.literal (.number (.int 3)) .nowhere) .nowhere)
              [.assign ⟨"r", .nowhere⟩ (.literal (.number (.int 3)) .nowhere)],
            .ret (some (.ref ⟨"r", .nowhere⟩ .nowhere))] }], []⟩

/-- The call `cap(5)`. -/
def capCall : Expr :=
  .call ⟨"cap", .nowhere⟩ [.literal (.number (.int 5)) .nowhere] .nowhere .nowhere

/-- The quotient `5 / 0`. -/
def overZero : Expr :=
  .binary .div (.literal (.number (.int 5)) .nowhere) (.literal (.number (.int 0)) .nowhere)
    .nowhere

/-- What is wrong with that quotient. -/
def overZeroProblem : Problem :=
  (Fault.arithmetic "/" [.number (.int 5), .number (.int 0)]).atSpan .nowhere

/-- Scopes that bind `x`. -/
def capScopes (b : Binding) : Scopes := [⟨[("x", b)], none⟩]

/-- A call that folds keeps its result, and a division by zero on the left of a stored name is
reported as it is when the name is known.  On the right of the name it is not met before. -/
theorem evaluate_stable_ofCap :
    Scopes.Admit (fun _ _ => True) (capScopes (.stored (.of .num) 1 true))
        (capScopes (.constant (.number (.int 7)) true)) ∧
      ofCap.evaluate (capScopes (.stored (.of .num) 1 true)) [] capCall
        = .ok (some (.number (.int 3))) ∧
      ofCap.evaluate (capScopes (.constant (.number (.int 7)) true)) [] capCall
        = .ok (some (.number (.int 3))) ∧
      ofCap.evaluate (capScopes (.stored (.of .num) 1 true)) []
        (.binary .add overZero (.ref ⟨"x", .nowhere⟩ .nowhere) .nowhere) = .error overZeroProblem ∧
      ofCap.evaluate (capScopes (.constant (.number (.int 7)) true)) []
        (.binary .add overZero (.ref ⟨"x", .nowhere⟩ .nowhere) .nowhere) = .error overZeroProblem ∧
      ofCap.evaluate (capScopes (.stored (.of .num) 1 true)) []
        (.binary .add (.ref ⟨"x", .nowhere⟩ .nowhere) overZero .nowhere) = .ok none ∧
      ofCap.evaluate (capScopes (.constant (.number (.int 7)) true)) []
        (.binary .add (.ref ⟨"x", .nowhere⟩ .nowhere) overZero .nowhere)
          = .error overZeroProblem := by
  have hscopes : Scopes.Admit (fun _ _ => True) (capScopes (.stored (.of .num) 1 true))
      (capScopes (.constant (.number (.int 7)) true)) :=
    (Scopes.Admit.nil.open_empty (s := {}) (e := {}) rfl rfl).bind "x" (.datum trivial 1 true true)
  have hcall : ofCap.evaluate (capScopes (.stored (.of .num) 1 true)) [] capCall
      = .ok (some (.number (.int 3))) := by
    decide +kernel
  have hquotient : ofCap.evaluate (capScopes (.stored (.of .num) 1 true)) []
      (.binary .add overZero (.ref ⟨"x", .nowhere⟩ .nowhere) .nowhere)
        = .error overZeroProblem := by
    decide +kernel
  refine ⟨hscopes, hcall, (ofCap.evaluate_stable [] hscopes _).1 _ hcall, hquotient,
    (ofCap.evaluate_stable [] hscopes _).2 _ hquotient, ?_, ?_⟩
  · decide +kernel
  · decide +kernel

end Job

end Arbor
