/-!
# Checked integers

The integers of the language have 64 bits and never wrap.  An operation on them is carried out on
their values, and has a result only where the value of the result fits 64 bits again.
-/

namespace Arbor.Checked

/-- The integer with a given value, if the value fits 64 bits. -/
def ofInt? (n : Int) : Option Int64 :=
  if Int64.minValue.toInt ≤ n ∧ n ≤ Int64.maxValue.toInt then some (Int64.ofInt n) else none

/-- The sum. -/
def add? (a b : Int64) : Option Int64 := ofInt? (a.toInt + b.toInt)

/-- The difference. -/
def sub? (a b : Int64) : Option Int64 := ofInt? (a.toInt - b.toInt)

/-- The product. -/
def mul? (a b : Int64) : Option Int64 := ofInt? (a.toInt * b.toInt)

/-- The negation. -/
def neg? (a : Int64) : Option Int64 := ofInt? (-a.toInt)

/-- The quotient rounded toward zero; there is none by zero. -/
def quotient? (a b : Int64) : Option Int64 :=
  if b = 0 then none else ofInt? (a.toInt.tdiv b.toInt)

/-- The remainder, which has the sign of `a`.  It exists only where the quotient does. -/
def remainder? (a b : Int64) : Option Int64 := (quotient? a b).map fun _ => a % b

/-- The quotient rounded down: one less than the quotient rounded toward zero if that leaves a
remainder and the signs of the operands differ. -/
def floorDiv? (a b : Int64) : Option Int64 := do
  let q ← quotient? a b
  let r ← remainder? a b
  if r ≠ 0 ∧ decide (a < 0) ≠ decide (b < 0) then sub? q 1 else some q

/-- A value fits 64 bits exactly if it is the value of some integer. -/
theorem ofInt?_eq_some_iff {n : Int} {v : Int64} : ofInt? n = some v ↔ v.toInt = n := by
  unfold ofInt?
  constructor
  · intro h
    split at h
    · next hn =>
      cases h
      rw [Int64.toInt_minValue, Int64.toInt_maxValue] at hn
      exact Int64.toInt_ofInt_of_le hn.1 (by omega)
    · cases h
  · rintro rfl
    rw [if_pos ⟨Int64.minValue_le_toInt v, Int64.toInt_le v⟩, Int64.ofInt_toInt]

end Arbor.Checked
