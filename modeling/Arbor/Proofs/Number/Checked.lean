import Arbor.Number.Checked
import Mathlib.Data.Rat.Floor
import Mathlib.Tactic.Lemma

/-!
# Values of checked integers

Checked operations are carried out in steps, and a step has no result where its value does not fit
64 bits.  Here it is said what the results are in terms of values, and where there are none.

* `Checked.quotient?_eq_none_iff`: only two divisions have no quotient, those by zero and that of
  the least integer by minus one.
* `Checked.toInt_of_floorDiv?`: the three steps of rounding down come to the floor of the rational
  quotient.
* `Checked.exists_floorSteps`: of these steps only the first can fail.
-/

namespace Arbor.Checked

variable {a b q r v : Int64}

/-! ## Values in range -/

/-- Values outside of 64 bits are those of no integer. -/
lemma ofInt?_eq_none_iff {n : ℤ} : ofInt? n = none ↔ ¬(-2 ^ 63 ≤ n ∧ n < 2 ^ 63) := by
  rw [Option.eq_none_iff_forall_ne_some]
  constructor
  · rintro hnone ⟨hlow, hhigh⟩
    exact hnone (Int64.ofInt n) (ofInt?_eq_some_iff.2 (Int64.toInt_ofInt_of_le hlow hhigh))
  · intro hrange v hv
    rw [← ofInt?_eq_some_iff.1 hv] at hrange
    exact hrange ⟨Int64.le_toInt v, Int64.toInt_lt v⟩

/-! ## Quotient and remainder -/

lemma toInt_eq_zero_iff : b.toInt = 0 ↔ b = 0 := by
  rw [← Int64.toInt_zero, Int64.toInt_inj]

/-- A quotient leaves the range of its operands in one case only, by one. -/
lemma tdiv_outside_iff {m n : ℤ} (hm : -2 ^ 63 ≤ m ∧ m < 2 ^ 63) :
    ¬(-2 ^ 63 ≤ m.tdiv n ∧ m.tdiv n < 2 ^ 63) ↔ m = -2 ^ 63 ∧ n = -1 := by
  constructor
  · intro hout
    have hsize : (m.tdiv n).natAbs = m.natAbs / n.natAbs := Int.natAbs_tdiv m n
    have hle : m.natAbs / n.natAbs ≤ m.natAbs := Nat.div_le_self _ _
    -- Magnitudes do not grow, so the quotient can only be `2 ^ 63`: all of the dividend.
    have hquot : m.tdiv n = 2 ^ 63 := by omega
    have hmin : m = -2 ^ 63 := by omega
    have hone : n.natAbs = 1 := by
      by_contra hne
      have hlt : m.natAbs / n.natAbs < m.natAbs := by
        rcases Nat.eq_zero_or_pos n.natAbs with hzero | hpos
        · rw [hzero, Nat.div_zero]
          omega
        · exact Nat.div_lt_self (by omega) (by omega)
      omega
    refine ⟨hmin, ?_⟩
    rcases Int.natAbs_eq_iff.1 hone with rfl | rfl
    · rw [Nat.cast_one, Int.tdiv_one] at hquot
      omega
    · rfl
  · rintro ⟨rfl, rfl⟩
    decide

/-- There is no quotient by zero, and none where the quotient is the first value above 64 bits. -/
lemma quotient?_eq_none_iff : quotient? a b = none ↔ b = 0 ∨ a = Int64.minValue ∧ b = -1 := by
  unfold quotient?
  split
  · next hb => simp [hb]
  · next hb =>
    rw [ofInt?_eq_none_iff, tdiv_outside_iff ⟨Int64.le_toInt a, Int64.toInt_lt a⟩,
      or_iff_right hb, ← Int64.toInt_minValue, Int64.toInt_inj, ← Int64.toInt_inj (y := -1)]
    rfl

lemma toInt_of_quotient? (h : quotient? a b = some q) : q.toInt = a.toInt.tdiv b.toInt := by
  unfold quotient? at h
  split at h
  · cases h
  · exact ofInt?_eq_some_iff.1 h

lemma remainder?_eq_none_iff : remainder? a b = none ↔ b = 0 ∨ a = Int64.minValue ∧ b = -1 := by
  rw [remainder?, Option.map_eq_none_iff, quotient?_eq_none_iff]

lemma toInt_of_remainder? (h : remainder? a b = some r) : r.toInt = a.toInt.tmod b.toInt := by
  obtain ⟨-, -, rfl⟩ := Option.map_eq_some_iff.1 h
  exact Int64.toInt_mod a b

/-- A remainder is zero exactly if the divisor divides. -/
lemma eq_zero_iff_dvd_of_remainder? (h : remainder? a b = some r) : r = 0 ↔ b.toInt ∣ a.toInt := by
  rw [← toInt_eq_zero_iff, toInt_of_remainder? h, Int.dvd_iff_tmod_eq_zero]

/-! ## Rounding down -/

/-- The greatest integer that is no more than the rational quotient; there is none by zero. -/
def IsFloorQuotient (a b n : ℤ) : Prop :=
  b ≠ 0 ∧ IsGreatest {q : ℤ | (q : ℚ) ≤ (a : ℚ) / b} n

lemma fdiv_eq_floor (a b : ℤ) : a.fdiv b = ⌊(a : ℚ) / b⌋ := by
  have hnonneg : ∀ (m : ℤ) (n : ℕ), m.fdiv n = ⌊(m : ℚ) / (n : ℤ)⌋ := by
    intro m n
    rw [Int.fdiv_eq_ediv_of_nonneg m (Int.natCast_nonneg n)]
    exact (Rat.floor_intCast_div_natCast m n).symm
  obtain ⟨n, rfl | rfl⟩ := b.eq_nat_or_neg
  · exact hnonneg a n
  · have hneg := hnonneg (-a) n
    rw [← Int.neg_fdiv_neg, neg_neg, hneg, Int.cast_neg, Int.cast_neg, neg_div, div_neg]

/-- Rounding down is the floor of the rational quotient. -/
lemma isFloorQuotient_iff {a b n : ℤ} : IsFloorQuotient a b n ↔ b ≠ 0 ∧ n = a.fdiv b := by
  have hgreatest : IsGreatest {q : ℤ | (q : ℚ) ≤ (a : ℚ) / b} (a.fdiv b) := by
    rw [fdiv_eq_floor]
    exact ⟨Set.mem_ofPred.2 (Int.floor_le _), fun q hq => Int.le_floor.2 hq⟩
  refine and_congr_right fun _ => ⟨fun hn => hn.unique hgreatest, ?_⟩
  rintro rfl
  exact hgreatest

/-- The two roundings of a quotient differ by one where there is a remainder and the signs differ,
and not at all otherwise. -/
lemma fdiv_eq_tdiv_sub {m n : ℤ} (hn : n ≠ 0) :
    m.fdiv n = if m.tmod n ≠ 0 ∧ decide (m < 0) ≠ decide (n < 0) then m.tdiv n - 1
      else m.tdiv n := by
  rw [Int.fdiv_eq_tdiv]
  by_cases hdvd : n ∣ m
  · simp [hdvd, Int.dvd_iff_tmod_eq_zero.1 hdvd]
  · have hrem : m.tmod n ≠ 0 := fun h => hdvd (Int.dvd_iff_tmod_eq_zero.2 h)
    rcases lt_or_gt_of_ne hn with hneg | hpos
    · by_cases hm : m < 0
      · simp [hdvd, hm, hneg, not_le.2 hm, not_le.2 hneg, Int.sign_eq_neg_one_of_neg hneg]
      · simp [hdvd, hrem, hm, hneg, not_lt.1 hm, not_le.2 hneg]
    · by_cases hm : m < 0
      · simp [hdvd, hrem, hm, hpos.le, not_lt.2 hpos.le, not_le.2 hm, Int.sign_eq_one_of_pos hpos]
      · simp [hdvd, hm, hpos.le, not_lt.2 hpos.le, not_lt.1 hm]

/-- The steps of rounding down all have results: a quotient, its remainder, and the decrement if
there is one. -/
structure FloorSteps (a b q r : Int64) : Prop where
  quotient : quotient? a b = some q
  toInt_quotient : q.toInt = a.toInt.tdiv b.toInt
  remainder : remainder? a b = some r
  toInt_remainder : r.toInt = a.toInt.tmod b.toInt
  decrement : r ≠ 0 ∧ decide (a < 0) ≠ decide (b < 0) →
    ∃ p, sub? q 1 = some p ∧ p.toInt = q.toInt - 1

/-- No step of rounding down fails after the first. -/
lemma exists_floorSteps (h : ¬(b = 0 ∨ a = Int64.minValue ∧ b = -1)) :
    ∃ q r, FloorSteps a b q r := by
  obtain ⟨q, hq⟩ := Option.ne_none_iff_exists'.1 (mt quotient?_eq_none_iff.1 h)
  obtain ⟨r, hr⟩ := Option.ne_none_iff_exists'.1 (mt remainder?_eq_none_iff.1 h)
  have hqv := toInt_of_quotient? hq
  have hrv := toInt_of_remainder? hr
  refine ⟨q, r, hq, hqv, hr, hrv, fun ⟨hne, _⟩ => ?_⟩
  -- A remainder means that the divisor is not a unit, so the quotient is at most half of `2 ^ 63`.
  have hunit : 2 ≤ b.toInt.natAbs := by
    by_contra hsmall
    have hb : b.toInt ≠ 0 := fun hb => h (.inl (toInt_eq_zero_iff.1 hb))
    have hone : b.toInt.natAbs = 1 := by omega
    exact hne ((eq_zero_iff_dvd_of_remainder? hr).2 (Int.isUnit_iff_natAbs_eq.2 hone).dvd)
  have hhalf : a.toInt.natAbs / b.toInt.natAbs ≤ a.toInt.natAbs / 2 :=
    Nat.div_le_div_left hunit (by decide)
  have hsize : q.toInt.natAbs = a.toInt.natAbs / b.toInt.natAbs := by
    rw [hqv]
    exact Int.natAbs_tdiv _ _
  have hrange := And.intro (Int64.le_toInt a) (Int64.toInt_lt a)
  cases hp : sub? q 1 with
  | none =>
    have hout := ofInt?_eq_none_iff.1 hp
    rw [Int64.toInt_one] at hout
    omega
  | some p =>
    have hpv := ofInt?_eq_some_iff.1 hp
    rw [Int64.toInt_one] at hpv
    exact ⟨p, rfl, hpv⟩

/-- The steps of rounding down come to the rounded-down quotient. -/
lemma toInt_of_floorDiv? (h : floorDiv? a b = some v) :
    b.toInt ≠ 0 ∧ v.toInt = a.toInt.fdiv b.toInt := by
  unfold floorDiv? at h
  obtain ⟨q, hq, h⟩ := Option.bind_eq_some_iff.1 h
  obtain ⟨r, hr, h⟩ := Option.bind_eq_some_iff.1 h
  have hb : b.toInt ≠ 0 := by
    intro hb
    rw [quotient?_eq_none_iff.2 (.inl (toInt_eq_zero_iff.1 hb))] at hq
    cases hq
  have hcond : (r ≠ 0 ∧ decide (a < 0) ≠ decide (b < 0)) ↔
      (a.toInt.tmod b.toInt ≠ 0 ∧ decide (a.toInt < 0) ≠ decide (b.toInt < 0)) := by
    simp only [← toInt_of_remainder? hr, ne_eq, toInt_eq_zero_iff, Int64.lt_iff_toInt_lt,
      Int64.toInt_zero]
  refine ⟨hb, ?_⟩
  rw [fdiv_eq_tdiv_sub hb, ← toInt_of_quotient? hq]
  simp only [hcond] at h
  split at h
  · next hlow =>
    rw [if_pos hlow, ofInt?_eq_some_iff.1 h, Int64.toInt_one]
  · next hexact =>
    cases h
    rw [if_neg hexact]

/-- A quotient rounded down exists exactly where one rounded toward zero does. -/
lemma floorDiv?_eq_none_iff : floorDiv? a b = none ↔ b = 0 ∨ a = Int64.minValue ∧ b = -1 := by
  constructor
  · intro hnone
    by_contra h
    obtain ⟨q, r, steps⟩ := exists_floorSteps h
    simp only [floorDiv?, steps.quotient, steps.remainder, Option.bind_eq_bind,
      Option.bind_some] at hnone
    split at hnone
    · next hlow =>
      obtain ⟨p, hp, -⟩ := steps.decrement hlow
      rw [hp] at hnone
      cases hnone
    · cases hnone
  · intro h
    simp [floorDiv?, quotient?_eq_none_iff.2 h]

end Arbor.Checked
