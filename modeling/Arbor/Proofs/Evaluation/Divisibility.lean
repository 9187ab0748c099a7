import Arbor.Evaluation
import Arbor.Proofs.Number.Checked

/-!
# Evaluated tests for multiples

`a *= b` on integers asks whether `b` divides `a`, and evaluates to the zero test of a checked
remainder.  That has no result by zero, as it should, and none either where the least integer is
divided by minus one: there the quotient does not fit 64 bits, although the remainder is zero and
the answer is known.

* `Job.evaluate_multipleOf_iff`: divisibility is decided exactly for all other operands.
-/

namespace Arbor

/-! ## The operation -/

namespace Operation

variable {a b : Int64}

lemma fold_multipleOf_eq_undefined (h : b = 0 ∨ a = Int64.minValue ∧ b = -1) :
    multipleOf.fold [.number (.int a), .number (.int b)] = .undefined := by
  rw [fold, foldMultipleOf, Checked.remainder?_eq_none_iff.2 h]

lemma fold_multipleOf_eq_value (h : ¬(b = 0 ∨ a = Int64.minValue ∧ b = -1)) :
    multipleOf.fold [.number (.int a), .number (.int b)]
      = .value (.bool (decide (b.toInt ∣ a.toInt))) := by
  obtain ⟨r, hr⟩ := Option.ne_none_iff_exists'.1 (mt Checked.remainder?_eq_none_iff.1 h)
  have hzero : (r == 0) = decide (b.toInt ∣ a.toInt) := by
    rw [Bool.beq_eq_decide_eq]
    exact decide_eq_decide.2 (Checked.eq_zero_iff_dvd_of_remainder? hr)
  rw [fold, foldMultipleOf, hr, ← hzero]

end Operation

/-! ## Applications -/

namespace Overloads

variable {o : Overloads} {builtin : Builtin} {native : Native} {ds : List Datum} {span : Span}

lemma fold_eq_of_value {d : Datum} (hselect : o.select (ds.map Datum.type) span = .ok builtin)
    (hnative : builtin.native = some native) (hfold : native ds = .value d) :
    o.fold ds span = .ok (some d) := by
  simp only [fold, hselect, hnative, hfold, bind, Except.bind]
  rfl

lemma fold_eq_of_undefined (hselect : o.select (ds.map Datum.type) span = .ok builtin)
    (hnative : builtin.native = some native) (hfold : native ds = .undefined) :
    o.fold ds span = .error ((Fault.arithmetic builtin.name ds).atSpan span) := by
  simp only [fold, hselect, hnative, hfold, bind, Except.bind]
  rfl

end Overloads

/-! ## Evaluation -/

/-- The test of whether one integer is a multiple of another. -/
def Expr.multipleOf (a b : Int64) (left right span : Span) : Expr :=
  .binary .multipleOf (.literal (.number (.int a)) left) (.literal (.number (.int b)) right) span

/-- What is wrong with a test for multiples that has no answer. -/
def Problem.noMultiple (a b : Int64) (span : Span) : Problem :=
  (Fault.arithmetic "*=" [.number (.int a), .number (.int b)]).atSpan span

/-- An outcome decides whether `a` is a multiple of `b`: it is an arithmetic problem if `b` is zero
and only then, and otherwise the truth. -/
structure DecidesMultiple (a b : Int64) (outcome : Except Problem (Option Datum)) : Prop where
  undefined : (∃ name operands span, outcome = .error (.fault (.arithmetic name operands) span)) ↔
    b = 0
  decided : b ≠ 0 → ∃ answer : Bool, outcome = .ok (some (.bool answer)) ∧
    (answer = true ↔ ∃ k : ℤ, a.toInt = b.toInt * k)

/-- A reported problem decides nothing but a division by zero. -/
lemma DecidesMultiple.eq_zero_of_error {a b : Int64} {span : Span}
    (h : DecidesMultiple a b (.error (.noMultiple a b span))) : b = 0 :=
  h.undefined.1 ⟨_, _, _, rfl⟩

namespace Job

variable {file : File} {config : Config} {scopes : Scopes} {entered : List String} {a b : Int64}
  {left right span : Span}

/-- The standard builtins have one test for multiples, which takes numbers. -/
lemma exists_select_multipleOf (file : File) (config : Config) (span : Span) (m n : Number) :
    ∃ o builtin, (Job.mk file config .standard).operator BinaryOp.multipleOf.symbol = .ok o ∧
      o.select [Datum.type (.number m), Datum.type (.number n)] span = .ok builtin ∧
      builtin.name = "*=" ∧ builtin.native = some Operation.multipleOf.fold :=
  ⟨_, _, rfl, rfl, rfl, rfl⟩

/-- A binary operator on literals is applied to them. -/
lemma evaluate_binary_literals {job : Job} {op : BinaryOp} {o : Overloads} {x y : Datum}
    (ho : job.operator op.symbol = .ok o) :
    job.evaluate scopes entered (.binary op (.literal x left) (.literal y right) span)
      = o.fold [x, y] span := by
  have happly : job.evaluate scopes entered (.binary op (.literal x left) (.literal y right) span)
      = (do
          let o ← (liftM (job.operator op.symbol) : Fold Overloads)
          OptionT.mk (o.fold [x, y] span)).run := rfl
  rw [happly, ho]
  rfl

lemma evaluate_multipleOf_eq_error (h : b = 0 ∨ a = Int64.minValue ∧ b = -1) :
    (Job.mk file config .standard).evaluate scopes entered (.multipleOf a b left right span)
      = .error (.noMultiple a b span) := by
  obtain ⟨o, builtin, ho, hselect, hname, hnative⟩ :=
    exists_select_multipleOf file config span (.int a) (.int b)
  rw [Expr.multipleOf, evaluate_binary_literals ho,
    Overloads.fold_eq_of_undefined hselect hnative (Operation.fold_multipleOf_eq_undefined h),
    hname, Problem.noMultiple]

lemma evaluate_multipleOf_eq_ok (h : ¬(b = 0 ∨ a = Int64.minValue ∧ b = -1)) :
    (Job.mk file config .standard).evaluate scopes entered (.multipleOf a b left right span)
      = .ok (some (.bool (decide (b.toInt ∣ a.toInt)))) := by
  obtain ⟨o, builtin, ho, hselect, -, hnative⟩ :=
    exists_select_multipleOf file config span (.int a) (.int b)
  rw [Expr.multipleOf, evaluate_binary_literals ho]
  exact Overloads.fold_eq_of_value hselect hnative (Operation.fold_multipleOf_eq_value h)

/-- With the standard builtins, the test for multiples decides divisibility except where the least
integer is divided by minus one.  There it reports a problem. -/
theorem evaluate_multipleOf_iff (file : File) (config : Config) (scopes : Scopes)
    (entered : List String) (left right span : Span) (a b : Int64) :
    (DecidesMultiple a b ((Job.mk file config .standard).evaluate scopes entered
      (.multipleOf a b left right span)) ↔ ¬(a = Int64.minValue ∧ b = -1)) ∧
    (a = Int64.minValue ∧ b = -1 → (Job.mk file config .standard).evaluate scopes entered
      (.multipleOf a b left right span) = .error (.noMultiple a b span)) := by
  refine ⟨⟨?_, ?_⟩, fun hleast => evaluate_multipleOf_eq_error (.inr hleast)⟩
  · rintro hdecides hleast
    rw [evaluate_multipleOf_eq_error (.inr hleast)] at hdecides
    exact absurd (hleast.2.symm.trans hdecides.eq_zero_of_error) (by decide)
  · intro hleast
    by_cases hb : b = 0
    · rw [evaluate_multipleOf_eq_error (.inl hb)]
      exact ⟨iff_of_true ⟨_, _, _, rfl⟩ hb, fun hne => absurd hb hne⟩
    · rw [evaluate_multipleOf_eq_ok (not_or.2 ⟨hb, hleast⟩)]
      refine ⟨iff_of_false (by simp) hb, fun _ => ⟨_, rfl, ?_⟩⟩
      rw [decide_eq_true_iff]
      rfl

/-- The least integer is a multiple of minus one, and the test for it reports a problem. -/
theorem not_decidesMultiple_least :
    (Job.mk ⟨[], []⟩ .optimized .standard).evaluate [] []
        (.multipleOf Int64.minValue (-1) .nowhere .nowhere .nowhere)
      = .error (.noMultiple Int64.minValue (-1) .nowhere) ∧
    (∃ k : ℤ, Int64.minValue.toInt = (-1 : Int64).toInt * k) ∧
    ¬DecidesMultiple Int64.minValue (-1) ((Job.mk ⟨[], []⟩ .optimized .standard).evaluate [] []
        (.multipleOf Int64.minValue (-1) .nowhere .nowhere .nowhere)) := by
  have herror : (Job.mk ⟨[], []⟩ .optimized .standard).evaluate [] []
      (.multipleOf Int64.minValue (-1) .nowhere .nowhere .nowhere)
        = .error (.noMultiple Int64.minValue (-1) .nowhere) :=
    evaluate_multipleOf_eq_error (.inr ⟨rfl, rfl⟩)
  refine ⟨herror, ⟨2 ^ 63, by decide⟩, fun hdecides => ?_⟩
  rw [herror] at hdecides
  exact absurd hdecides.eq_zero_of_error (by decide)

end Job

end Arbor
