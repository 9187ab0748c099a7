import Arbor.Number.Eighths
import Mathlib.Algebra.Order.Field.Power
import Mathlib.Data.Rat.Defs
import Mathlib.Tactic.Lemma
import Mathlib.Tactic.Positivity
import Mathlib.Tactic.Ring

/-!
# Values of doubles

A finite double is told by its sign and its value.  In units of the smallest positive double its
magnitude is a natural number (`Double.ticks`), and the exponent bits of a double tell between which
powers of two that number lies; so the number determines the exponent bits, and with them the
fraction bits.

* `Double.eq_of_toRat?`: finite doubles of the same sign and value are equal.
* `Eighths.decode_eq_iff`: a byte of eighths stands for the double that it was made from, unless
  that is negative zero.
-/

namespace Arbor

namespace Double

variable {x y : Double} {r : ℚ}

/-! ## Bit fields -/

lemma fractionField_lt (x : Double) : x.fractionField < 2 ^ 52 :=
  Nat.mod_lt _ (by decide)

/-- The three fields make up the bits. -/
lemma ext_fields (hsign : x.isNegative = y.isNegative)
    (hexponent : x.exponentField = y.exponentField)
    (hfraction : x.fractionField = y.fractionField) : x = y := by
  have hx := x.bits.toNat_lt
  have hy := y.bits.toNat_lt
  have hbits : x.bits.toNat = y.bits.toNat := by
    simp only [isNegative, exponentField, fractionField, fractionLimit, beq_eq_beq] at *
    omega
  cases x
  cases y
  exact congrArg mk (UInt64.toNat_inj.1 hbits)

/-! ## Magnitudes -/

/-- The magnitude of a finite double in units of the smallest positive one. -/
def ticks (x : Double) : ℕ := x.significand * 2 ^ (x.exponentField - 1)

lemma magnitude_eq_ticks (x : Double) : x.magnitude = x.ticks * (2 : ℚ) ^ (-1074 : ℤ) := by
  have hscale : x.scale = ((x.exponentField - 1 : ℕ) : ℤ) + -1074 := by
    unfold scale
    omega
  rw [magnitude, ticks, hscale, zpow_add₀ (by norm_num), zpow_natCast, Nat.cast_mul, Nat.cast_pow,
    Nat.cast_ofNat, mul_assoc]

lemma ticks_lt (x : Double) : x.ticks < 2 ^ 52 * 2 ^ x.exponentField := by
  have hfraction := x.fractionField_lt
  unfold ticks significand
  split
  · next hzero =>
    rw [hzero]
    simpa using hfraction
  · next hnormal =>
    have hsig : fractionLimit + x.fractionField < 2 ^ 52 * 2 := by
      unfold fractionLimit
      omega
    calc (fractionLimit + x.fractionField) * 2 ^ (x.exponentField - 1)
        < 2 ^ 52 * 2 * 2 ^ (x.exponentField - 1) := by gcongr
      _ = 2 ^ 52 * 2 ^ x.exponentField := by
        rw [mul_assoc, ← pow_succ', Nat.sub_add_cancel (Nat.pos_of_ne_zero hnormal)]

lemma le_ticks (h : x.exponentField ≠ 0) : 2 ^ 52 * 2 ^ (x.exponentField - 1) ≤ x.ticks := by
  rw [ticks, significand, if_neg h]
  exact Nat.mul_le_mul_right _ (Nat.le_add_right _ _)

/-- A double with smaller exponent bits is smaller. -/
lemma ticks_lt_ticks (h : x.exponentField < y.exponentField) : x.ticks < y.ticks :=
  calc x.ticks < 2 ^ 52 * 2 ^ x.exponentField := x.ticks_lt
    _ ≤ 2 ^ 52 * 2 ^ (y.exponentField - 1) := by
      gcongr
      · norm_num
      · omega
    _ ≤ y.ticks := le_ticks (by omega)

lemma fields_eq_of_ticks (h : x.ticks = y.ticks) :
    x.exponentField = y.exponentField ∧ x.fractionField = y.fractionField := by
  have hexponent : x.exponentField = y.exponentField := by
    rcases lt_trichotomy x.exponentField y.exponentField with hlt | heq | hgt
    · exact absurd h (ticks_lt_ticks hlt).ne
    · exact heq
    · exact absurd h (ticks_lt_ticks hgt).ne'
  have hsig : x.significand = y.significand := by
    rw [ticks, ticks, hexponent] at h
    exact Nat.eq_of_mul_eq_mul_right (by positivity) h
  refine ⟨hexponent, ?_⟩
  unfold significand at hsig
  rw [hexponent] at hsig
  split at hsig <;> omega

/-! ## Values -/

lemma magnitude_nonneg (x : Double) : 0 ≤ x.magnitude := by
  rw [magnitude_eq_ticks]
  positivity

lemma eq_of_toRat?_eq_some (h : x.toRat? = some r) :
    r = if x.isNegative then -x.magnitude else x.magnitude := by
  unfold toRat? at h
  split at h
  · exact (Option.some.inj h).symm
  · cases h

/-- Finite doubles of the same sign and value are the same. -/
lemma eq_of_toRat? (hx : x.toRat? = some r) (hy : y.toRat? = some r)
    (hsign : x.isNegative = y.isNegative) : x = y := by
  have hmagnitude : x.magnitude = y.magnitude := by
    have hr := (eq_of_toRat?_eq_some hx).symm.trans (eq_of_toRat?_eq_some hy)
    rw [hsign] at hr
    split at hr
    · exact neg_injective hr
    · exact hr
  have hticks : x.ticks = y.ticks := by
    rw [magnitude_eq_ticks, magnitude_eq_ticks] at hmagnitude
    exact_mod_cast mul_right_cancel₀ (by positivity) hmagnitude
  obtain ⟨hexponent, hfraction⟩ := fields_eq_of_ticks hticks
  exact ext_fields hsign hexponent hfraction

/-- The zero that has its sign bit set. -/
def negativeZero : Double := ⟨0x8000000000000000⟩

lemma toRat?_negativeZero : negativeZero.toRat? = some 0 := by decide +kernel

/-- The only negative double whose value is not negative is negative zero. -/
lemma isNegative_iff_of_nonneg (hx : x.toRat? = some r) (hr : 0 ≤ r) :
    x.isNegative = true ↔ x = negativeZero := by
  constructor
  · intro hneg
    have hvalue := eq_of_toRat?_eq_some hx
    rw [if_pos hneg] at hvalue
    have hzero : r = 0 := le_antisymm (hvalue ▸ neg_nonpos.2 x.magnitude_nonneg) hr
    exact eq_of_toRat? (hzero ▸ hx) toRat?_negativeZero hneg
  · rintro rfl
    rfl

end Double

/-! ## Eighths -/

namespace Eighths

variable {x : Double} {b : UInt8}

/-- Every byte of eighths stands for that many eighths, without a sign. -/
lemma toRat?_decode_table : ∀ n : Fin 256, (decode (UInt8.ofNat n)).toRat? = some (mkRat n 8) ∧
    (decode (UInt8.ofNat n)).isNegative = false := by decide +kernel

lemma toRat?_decode (b : UInt8) :
    (decode b).toRat? = some ((b.toNat : ℚ) / 8) ∧ (decode b).isNegative = false := by
  have hentry := toRat?_decode_table ⟨b.toNat, b.toNat_lt⟩
  have hvalue : mkRat b.toNat 8 = (b.toNat : ℚ) / 8 := Rat.mkRat_eq_div _ _
  rwa [UInt8.ofNat_toNat, hvalue] at hentry

/-- A double has a byte of eighths exactly if it has the value of that many eighths. -/
lemma encode_eq_some_iff : encode x = some b ↔ x.toRat? = some ((b.toNat : ℚ) / 8) := by
  constructor
  · intro h
    obtain ⟨r, hr, hb⟩ := Option.bind_eq_some_iff.1 h
    dsimp only at hb
    split at hb
    · next hbyte =>
      obtain ⟨hden, hnonneg, hlt⟩ := hbyte
      have hnum : (b.toNat : ℤ) = (r * 8).num := by
        rw [← Option.some.inj hb, UInt8.toNat_ofNat', Nat.mod_eq_of_lt (by omega)]
        omega
      have hvalue : r * 8 = (b.toNat : ℚ) := by
        rw [← (Rat.den_eq_one_iff _).1 hden, ← hnum, Int.cast_natCast]
      rw [hr, ← hvalue, mul_div_cancel_right₀ _ (by norm_num)]
    · cases hb
  · intro h
    have hlt := b.toNat_lt
    have hvalue : (b.toNat : ℚ) / 8 * 8 = (b.toNat : ℚ) := div_mul_cancel₀ _ (by norm_num)
    simp only [encode, h, Option.bind_some, hvalue, Rat.den_natCast, Rat.num_natCast,
      Int.toNat_natCast, UInt8.ofNat_toNat]
    exact if_pos ⟨trivial, by omega, by omega⟩

/-- A byte of eighths stands for the double it was made from, except for negative zero. -/
lemma decode_eq_iff (h : encode x = some b) : decode b = x ↔ x ≠ Double.negativeZero := by
  have hx := encode_eq_some_iff.1 h
  obtain ⟨hvalue, hsign⟩ := toRat?_decode b
  have hnegative := Double.isNegative_iff_of_nonneg hx (by positivity)
  rw [← not_iff_not, not_ne_iff, ← hnegative]
  constructor
  · intro hne
    by_contra hpositive
    exact hne (Double.eq_of_toRat? hvalue hx (by simp [hsign, hpositive]))
  · rintro hneg rfl
    simp [hsign] at hneg

end Eighths

end Arbor
