import Arbor.Builtin.Operation
import Arbor.Proofs.Number.Checked

/-!
# Folded integer arithmetic

On integers, folding computes what arithmetic says or has no result: a sum, a difference, a product,
a rounded-down quotient or a negation is the exact one if that fits 64 bits.  The test for powers is
a loop that divides while it can; it ends, and what it ends with is one exactly for the powers.

* `Operation.fold_isExact`: exact results of the five operations, and the steps of division.
* `Operation.fold_powerOf_int`: the test for powers and the run of its loop.
-/

namespace Arbor

/-! ## Exact results -/

/-- An outcome is exact for a description of results: it is the integer with the value of a result
if one fits 64 bits, and undefined otherwise. -/
def Folded.IsExact (outcome : Folded) (isResult : ℤ → Prop) : Prop :=
  (∀ n, isResult n → -2 ^ 63 ≤ n ∧ n < 2 ^ 63 →
    ∃ v : Int64, v.toInt = n ∧ outcome = .value (.number (.int v))) ∧
  ((∀ n, isResult n → ¬(-2 ^ 63 ≤ n ∧ n < 2 ^ 63)) → outcome = .undefined)

/-- The outcome of a checked operation on integers. -/
def Folded.ofChecked : Option Int64 → Folded
  | some v => .value (.number (.int v))
  | none => .undefined

lemma Folded.ofChecked_eq_undefined_iff {r : Option Int64} :
    ofChecked r = .undefined ↔ r = none := by
  cases r <;> simp [ofChecked]

/-- A checked operation is exact if its results are the ones described and it has none only where
no result fits. -/
lemma Folded.isExact_ofChecked {r : Option Int64} {isResult : ℤ → Prop}
    (hsome : ∀ v, r = some v → ∀ n, isResult n → v.toInt = n)
    (hnone : r = none → ∀ n, isResult n → ¬(-2 ^ 63 ≤ n ∧ n < 2 ^ 63))
    (hresult : ∀ v, r = some v → isResult v.toInt) : (ofChecked r).IsExact isResult := by
  constructor
  · intro n hn hrange
    cases r with
    | none => exact absurd hrange (hnone rfl n hn)
    | some v => exact ⟨v, hsome v rfl n hn, rfl⟩
  · intro hout
    cases r with
    | none => rfl
    | some v => exact absurd ⟨Int64.le_toInt v, Int64.toInt_lt v⟩ (hout _ (hresult v rfl))

/-- What has one exact value is exact once that value is checked. -/
lemma Folded.isExact_ofInt? (n : ℤ) : (ofChecked (Checked.ofInt? n)).IsExact (· = n) := by
  refine isExact_ofChecked ?_ ?_ ?_
  · rintro v hv _ rfl
    exact Checked.ofInt?_eq_some_iff.1 hv
  · rintro hnone _ rfl
    exact Checked.ofInt?_eq_none_iff.1 hnone
  · intro v hv
    exact Checked.ofInt?_eq_some_iff.1 hv

lemma Folded.isExact_floorDiv? (a b : Int64) :
    (ofChecked (Checked.floorDiv? a b)).IsExact (Checked.IsFloorQuotient a.toInt b.toInt) := by
  refine isExact_ofChecked ?_ ?_ ?_
  · intro v hv n hn
    rw [(Checked.toInt_of_floorDiv? hv).2, (Checked.isFloorQuotient_iff.1 hn).2]
  · intro hnone n hn
    obtain ⟨hb, rfl⟩ := Checked.isFloorQuotient_iff.1 hn
    rcases Checked.floorDiv?_eq_none_iff.1 hnone with rfl | ⟨rfl, rfl⟩
    · exact absurd rfl hb
    · decide
  · intro v hv
    exact Checked.isFloorQuotient_iff.2 (Checked.toInt_of_floorDiv? hv)

namespace Operation

/-! ## Arithmetic on integers -/

lemma arithmetic_int (onInts : Int64 → Int64 → Option Int64)
    (onDoubles : Double → Double → Double) (a b : Int64) :
    arithmetic onInts onDoubles [.number (.int a), .number (.int b)]
      = .ofChecked (onInts a b) := by
  rw [arithmetic]
  cases onInts a b <;> rfl

lemma foldAdd_int (a b : Int64) :
    foldAdd [.number (.int a), .number (.int b)] = .ofChecked (Checked.add? a b) :=
  arithmetic_int Checked.add? Double.add a b

lemma foldNeg_int (a : Int64) :
    foldNeg [.number (.int a)] = .ofChecked (Checked.neg? a) := by
  rw [foldNeg]
  cases Checked.neg? a <;> rfl

/-- Arithmetic on integers is exact or undefined.  A quotient is undefined only by zero, and where
the least integer is divided by minus one; wherever else the steps of a division have results. -/
theorem fold_isExact (a b : Int64) :
    (add.fold [.number (.int a), .number (.int b)]).IsExact (· = a.toInt + b.toInt) ∧
    (sub.fold [.number (.int a), .number (.int b)]).IsExact (· = a.toInt - b.toInt) ∧
    (mul.fold [.number (.int a), .number (.int b)]).IsExact (· = a.toInt * b.toInt) ∧
    (div.fold [.number (.int a), .number (.int b)]).IsExact
      (Checked.IsFloorQuotient a.toInt b.toInt) ∧
    (neg.fold [.number (.int a)]).IsExact (· = -a.toInt) ∧
    (div.fold [.number (.int a), .number (.int b)] = .undefined ↔
      b = 0 ∨ a = Int64.minValue ∧ b = -1) ∧
    (¬(b = 0 ∨ a = Int64.minValue ∧ b = -1) → ∃ q r, Checked.FloorSteps a b q r) := by
  have hdiv : div.fold [.number (.int a), .number (.int b)]
      = .ofChecked (Checked.floorDiv? a b) :=
    arithmetic_int Checked.floorDiv? Double.floorDiv a b
  refine ⟨?_, ?_, ?_, ?_, ?_, ?_, Checked.exists_floorSteps⟩
  · rw [fold, foldAdd_int]
    exact Folded.isExact_ofInt? _
  · rw [fold, arithmetic_int]
    exact Folded.isExact_ofInt? _
  · rw [fold, arithmetic_int]
    exact Folded.isExact_ofInt? _
  · rw [hdiv]
    exact Folded.isExact_floorDiv? a b
  · rw [fold, foldNeg_int]
    exact Folded.isExact_ofInt? _
  · rw [hdiv, Folded.ofChecked_eq_undefined_iff, Checked.floorDiv?_eq_none_iff]

/-! ## Powers -/

/-- A loop that divides `n` by a base while it can ends after `k` passes.  After `j` passes it has
come to `n / base ^ j`. -/
structure DivisionRun (base n k : ℕ) : Prop where
  passes : ∀ j < k, base ∣ n / base ^ j
  stops : ¬base ∣ n / base ^ k

lemma DivisionRun.succ {base n k : ℕ} (hdvd : base ∣ n) (h : DivisionRun base (n / base) k) :
    DivisionRun base n (k + 1) := by
  have hpow : ∀ j, n / base / base ^ j = n / base ^ (j + 1) := by
    intro j
    rw [Nat.div_div_eq_div_mul, ← pow_succ']
  refine ⟨fun j hj => ?_, hpow k ▸ h.stops⟩
  cases j with
  | zero => simpa using hdvd
  | succ j => exact hpow j ▸ h.passes j (by omega)

/-- The division loop ends, and its answer is whether it is left with one. -/
lemma exists_divisionRun {base n : ℕ} (hbase : 2 ≤ base) (hn : 0 < n) :
    ∃ k, DivisionRun base n k ∧ (isPowerOf base n = true ↔ n / base ^ k = 1) := by
  fun_induction isPowerOf base n with
  | case1 n h ih =>
    have hdvd : base ∣ n := Nat.dvd_of_mod_eq_zero h.2.2
    obtain ⟨k, hk, hanswer⟩ := ih (Nat.div_pos (Nat.le_of_dvd hn hdvd) (by omega))
    refine ⟨k + 1, hk.succ hdvd, ?_⟩
    rw [hanswer, Nat.div_div_eq_div_mul, ← pow_succ']
  | case2 n h =>
    have hstop : ¬base ∣ n := fun hdvd => h ⟨hbase, hn, Nat.mod_eq_zero_of_dvd hdvd⟩
    exact ⟨0, ⟨by simp, by simpa using hstop⟩, by simp⟩

/-- What a loop has divided away is a power of the base. -/
lemma DivisionRun.pow_dvd {base n k : ℕ} (h : DivisionRun base n k) : base ^ k ∣ n := by
  have hall : ∀ j ≤ k, base ^ j ∣ n := by
    intro j hj
    induction j with
    | zero => simp
    | succ j ih =>
      rw [pow_succ]
      exact Nat.mul_dvd_of_dvd_div (ih (by omega)) (h.passes j (by omega))
  exact hall k le_rfl

/-- The loop is left with one exactly if it started from a power. -/
lemma DivisionRun.eq_one_iff {base n k : ℕ} (hbase : 2 ≤ base) (h : DivisionRun base n k) :
    n / base ^ k = 1 ↔ ∃ m, n = base ^ m := by
  constructor
  · intro hone
    exact ⟨k, by simpa [hone] using (Nat.div_mul_cancel h.pow_dvd).symm⟩
  · rintro ⟨m, rfl⟩
    have hk : k ≤ m := (Nat.pow_dvd_pow_iff_le_right (by omega)).1 h.pow_dvd
    have hrest : base ^ m / base ^ k = base ^ (m - k) := Nat.pow_div hk (by omega)
    have hm : m - k = 0 := by
      by_contra hne
      exact h.stops (hrest ▸ dvd_pow_self base hne)
    rw [hrest, hm, pow_zero]

lemma toNat_eq_pow_iff {x y : ℤ} {m : ℕ} (hx : 0 ≤ x) (hy : 0 ≤ y) :
    x.toNat = y.toNat ^ m ↔ x = y ^ m := by
  lift x to ℕ using hx
  lift y to ℕ using hy
  norm_cast

/-- Whether an integer is a power of another is undefined below the base two, and from there on is
decided.  The loop is entered for positive integers, and ends. -/
theorem fold_powerOf_int (a b : Int64) :
    (powerOf.fold [.number (.int a), .number (.int b)] = .undefined ↔ b.toInt < 2) ∧
    (2 ≤ b.toInt → ∃ answer : Bool,
      powerOf.fold [.number (.int a), .number (.int b)] = .value (.bool answer) ∧
      (answer = true ↔ ∃ k : ℕ, a.toInt = b.toInt ^ k) ∧
      (a.toInt < 1 → answer = false) ∧ (a.toInt = 1 → answer = true) ∧
      (1 ≤ a.toInt → ∃ k, DivisionRun b.toInt.toNat a.toInt.toNat k ∧
        (answer = true ↔ a.toInt.toNat / b.toInt.toNat ^ k = 1))) := by
  have hfold : powerOf.fold [.number (.int a), .number (.int b)]
      = if b.toInt < 2 then .undefined
        else if a.toInt < 1 then .value (.bool false)
        else .value (.bool (isPowerOf b.toInt.toNat a.toInt.toNat)) := rfl
  constructor
  · rw [hfold]
    split
    · next hb => simp [hb]
    · next hb => split <;> simp [hb]
  · intro hb
    rw [hfold, if_neg (not_lt.2 hb)]
    by_cases ha : a.toInt < 1
    · rw [if_pos ha]
      refine ⟨false, rfl, ?_, fun _ => rfl, by omega, by omega⟩
      simp only [Bool.false_eq_true, false_iff, not_exists]
      intro k hk
      have hpos : 0 < b.toInt ^ k := pow_pos (by omega) k
      omega
    · rw [if_neg ha]
      obtain ⟨k, hk, hanswer⟩ := exists_divisionRun (show 2 ≤ b.toInt.toNat by omega)
        (show 0 < a.toInt.toNat by omega)
      have hpower : isPowerOf b.toInt.toNat a.toInt.toNat = true ↔
          ∃ m : ℕ, a.toInt = b.toInt ^ m := by
        rw [hanswer, hk.eq_one_iff (by omega)]
        exact exists_congr fun m => toNat_eq_pow_iff (by omega) (by omega)
      exact ⟨_, rfl, hpower, fun hlow => absurd hlow ha,
        fun hone => hpower.2 ⟨0, by rw [hone, pow_zero]⟩, fun _ => ⟨k, hk, hanswer⟩⟩

end Operation

end Arbor
