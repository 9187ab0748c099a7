import Arbor.Proofs.Constraint.Faults
import Arbor.Proofs.Emission.Recursion
import Arbor.Proofs.Job.Unrolling

/-!
# Recursive programs

Functions and constraint types may call themselves and each other.  They are expanded in place, and
still every compilation ends: what has been entered is not entered again, so expansions are nested
no deeper than there are names.

`Job.evaluateWithin`, `Job.compileMappingWithin` and `Job.lowerMainWithin` expand to a given depth
and watch the stack of entered names.  `Job.expansion_bounded` says that this makes no difference,
and that a job without recursion is never told that it has some.
-/

namespace Arbor

namespace Job

variable (job : Job)

/-! ## Bounded expansion -/

/-- Evaluation in which functions are run at most `n` deep, on proper stacks. -/
def evaluateWithin
    (beyond : (entered : List String) → Inlinable job entered → List Datum → Fold Datum) (n : Nat)
    (scopes : Scopes) (entered : List String) (e : Expr) : Except Problem (Option Datum) :=
  (Evaluation.foldExpr (job.folding.within beyond n entered) scopes e).run

/-- Compilation of a mapping in which functions are inlined at most `n` deep, on proper stacks. -/
def compileMappingWithin
    (beyond : (entered : List String) → Inlinable job entered → Scope → Emit ValueType) (n : Nat)
    (m : MappingDef) : WithConstants (List UInt8) := fun constants =>
  let emit : Emit (List UInt8) := do
    let _ ← Emission.emitStmts (job.inlining.within beyond n []) m.body
    Emit.finish
  match emit (.start constants) with
  | .ok bytes σ => .ok bytes σ.constants
  | .error p σ => .error p σ.constants

/-- Lowering in which constraint types are expanded at most `n` deep, on proper stacks. -/
def lowerMainWithin
    (beyond : (entered : List String) → Expandable job entered → Scope → WithLabels Tree)
    (n : Nat) : WithLabels Tree := do
  let main ← job.main
  Lowering.lowerGoal (job.lowering.within beyond n []) [{}] (.block main.quantifier main.body)

variable {job} {n : Nat}

lemma evaluate_eq_within
    (beyond : (entered : List String) → Inlinable job entered → List Datum → Fold Datum)
    {entered : List String} (h : Nesting.Proper job.functionNames entered)
    (hn : job.functionNames.dedup.length ≤ entered.length + n) (scopes : Scopes) (e : Expr) :
    job.evaluate scopes entered e = job.evaluateWithin beyond n scopes entered e := by
  rw [evaluateWithin, job.folding.within_eq beyond h hn]
  rfl

lemma compileMapping_eq_within
    (beyond : (entered : List String) → Inlinable job entered → Scope → Emit ValueType)
    (hn : job.functionNames.dedup.length ≤ n) (m : MappingDef) :
    job.compileMapping m = job.compileMappingWithin beyond n m := by
  funext constants
  have hrun : job.emitMapping m (.start constants) =
      (Emission.emitStmts (Emission.emitCall job []) m.body >>= fun _ => Emit.finish)
        (.start constants) :=
    Step.bind_apply_congr rfl
  unfold compileMapping compileMappingWithin
  rw [job.inlining.within_eq beyond Nesting.proper_nil (by simpa using hn), hrun]
  rfl

lemma lowerMain_eq_within
    (beyond : (entered : List String) → Expandable job entered → Scope → WithLabels Tree)
    (hn : job.constraintNames.dedup.length ≤ n) :
    job.lowerMain = job.lowerMainWithin beyond n := by
  rw [lowerMainWithin, job.lowering.within_eq beyond Nesting.proper_nil (by simpa using hn)]
  rfl

/-! ## Reported recursion -/

/-- A problem in which some part of a job ends. -/
inductive Reports (job : Job) (p : Problem) : Prop
  | evaluate (scopes : Scopes) (e : Expr) (h : job.evaluate scopes [] e = .error p)
  | mapping (m : MappingDef) (constants constants' : Pool Constant)
      (h : job.compileMapping m constants = .error p constants')
  | constraint (labels labels' : Pool String) (h : job.lowerMain labels = .error p labels')

/-- Recursion is reported only where there is some. -/
lemma Reports.justified {p : Problem} (h : job.Reports p) : job.Justified p := by
  cases h with
  | evaluate scopes e h =>
    exact raises_evaluate (CallGraph.follows_nil e.callees) scopes (fun _ hc => hc) p h
  | mapping m _ _ h => exact (job.raises_compileMapping m).of_error h
  | constraint _ _ h => exact job.raises_lowerMain.of_error h

/-- **Expansion is bounded, and recursion is reported only where there is some.**  In whatever way a
run would go on when names have been entered twice, when a name that is not defined has been
entered, or when there are more entered names than defined ones: no evaluation, no mapping and no
constraint comes to that.  If no function calls itself, directly or through others, no call is
reported as recursive; and so for constraint types. -/
theorem expansion_bounded (job : Job) :
    (∀ beyond n scopes entered e, Nesting.Proper job.functionNames entered →
      job.functionNames.dedup.length ≤ entered.length + n →
      job.evaluate scopes entered e = job.evaluateWithin beyond n scopes entered e) ∧
    (∀ beyond n m, job.functionNames.dedup.length ≤ n →
      job.compileMapping m = job.compileMappingWithin beyond n m) ∧
    (∀ beyond n, job.constraintNames.dedup.length ≤ n →
      job.lowerMain = job.lowerMainWithin beyond n) ∧
    (¬ job.functionGraph.Cyclic → ∀ span, ¬ job.Reports (.fault .recursiveFunction span)) ∧
    (¬ job.constraintGraph.Cyclic → ∀ span, ¬ job.Reports (.fault .recursiveConstraint span)) := by
  refine ⟨?_, ?_, ?_, ?_, ?_⟩
  · intro beyond n scopes entered e h hn
    exact evaluate_eq_within beyond h hn scopes e
  · intro beyond n m hn
    exact compileMapping_eq_within beyond hn m
  · intro beyond n hn
    exact lowerMain_eq_within beyond hn
  · intro hacyclic span h
    exact hacyclic h.justified
  · intro hacyclic span h
    exact hacyclic h.justified

/-- A function `double` that calls `same`.  The file has a `same` of its own, which hides one of an
included file that calls `double`.  Its constraint applies a type to children, and that one another
type to theirs. -/
def ofHidden : Job where
  file :=
    { definitions :=
        [.function ⟨⟨"double", .nowhere⟩, [⟨"x", .nowhere⟩],
            [.ret (some (.binary .add (.call ⟨"same", .nowhere⟩ [.ref ⟨"x", .nowhere⟩ .nowhere]
              .nowhere .nowhere) (.ref ⟨"x", .nowhere⟩ .nowhere) .nowhere))]⟩,
          .function ⟨⟨"same", .nowhere⟩, [⟨"x", .nowhere⟩],
            [.ret (some (.ref ⟨"x", .nowhere⟩ .nowhere))]⟩,
          .predicate ⟨⟨"some", .nowhere⟩, [], .all, []⟩,
          .constraintType ⟨⟨"Outer", .nowhere⟩, ⟨"Node", .nowhere⟩, [], .all,
            [.apply none ⟨⟨"some", .nowhere⟩, []⟩ ⟨⟨"Inner", .nowhere⟩, []⟩]⟩,
          .constraintType ⟨⟨"Inner", .nowhere⟩, ⟨"Leaf", .nowhere⟩, [], .all, []⟩,
          .main ⟨⟨"main", .nowhere⟩, .all,
            [.apply none ⟨⟨"some", .nowhere⟩, []⟩ ⟨⟨"Outer", .nowhere⟩, []⟩]⟩]
      includes :=
        [{ definitions :=
            [.function ⟨⟨"same", .nowhere⟩, [⟨"x", .nowhere⟩],
              [.ret (some (.call ⟨"double", .nowhere⟩ [.ref ⟨"x", .nowhere⟩ .nowhere]
                .nowhere .nowhere))]⟩]
           includes := [] }] }

lemma not_cyclic_functionGraph_ofHidden : ¬ ofHidden.functionGraph.Cyclic :=
  CallGraph.not_cyclic_of_rank name_of_functionGraph_find? mem_functionNames_of_functionGraph_find?
    (fun name => if name = "double" then 1 else 0) (by decide)

lemma not_cyclic_constraintGraph_ofHidden : ¬ ofHidden.constraintGraph.Cyclic :=
  CallGraph.not_cyclic_of_rank name_of_constraintGraph_find?
    mem_constraintNames_of_constraintGraph_find? (fun name => if name = "Outer" then 1 else 0)
    (by decide)

/-- Two names are as deep as it gets, although there are three functions. -/
theorem expansion_bounded_ofHidden :
    (∀ beyond scopes e,
      ofHidden.evaluate scopes [] e = ofHidden.evaluateWithin beyond 2 scopes [] e) ∧
    (∀ beyond m, ofHidden.compileMapping m = ofHidden.compileMappingWithin beyond 2 m) ∧
    (∀ beyond, ofHidden.lowerMain = ofHidden.lowerMainWithin beyond 2) ∧
    (∀ span, ¬ ofHidden.Reports (.fault .recursiveFunction span)) ∧
    (∀ span, ¬ ofHidden.Reports (.fault .recursiveConstraint span)) ∧
    ofHidden.evaluate [{}] [] (.call ⟨"double", .nowhere⟩ [.literal (.number (.int 4)) .nowhere]
      .nowhere .nowhere) = .ok (some (.number (.int 8))) := by
  have hfunctions : ofHidden.functionNames.dedup.length ≤ 2 := by decide
  have hconstraints : ofHidden.constraintNames.dedup.length ≤ 2 := by decide
  obtain ⟨hevaluate, hmapping, hlower, hfunction, hconstraint⟩ := expansion_bounded ofHidden
  refine ⟨fun beyond scopes e => ?_, fun beyond m => hmapping beyond 2 m hfunctions,
    fun beyond => hlower beyond 2 hconstraints, hfunction not_cyclic_functionGraph_ofHidden,
    hconstraint not_cyclic_constraintGraph_ofHidden, ?_⟩
  · exact hevaluate beyond 2 scopes [] e Nesting.proper_nil hfunctions
  · decide +kernel

end Job

end Arbor
