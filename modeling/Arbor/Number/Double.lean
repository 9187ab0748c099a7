/-!
# Doubles

A `Double` is a 64-bit floating-point number identified by its bit pattern, so two doubles are
equal exactly when their bits are: `0.0` and `-0.0` differ, and a NaN equals itself.

Two views are offered.  `Double.toFloat` is the machine number, on which sums, products and
comparisons are rounded and ordered as usual.  `Double.toRat?` is the exact rational a finite
double stands for; everything that asks about integrality, divisibility or decimal digits is said
on that view, where arithmetic is exact.
-/

namespace Arbor

/-- A 64-bit floating-point number, told apart from others by its bits alone. -/
structure Double where
  bits : UInt64
deriving DecidableEq, Hashable, Inhabited, Repr

namespace Double

/-- The machine number with these bits. -/
def toFloat (x : Double) : Float := Float.ofBits x.bits

/-- The bits of a machine number. -/
def ofFloat (f : Float) : Double := ⟨f.toBits⟩

/-! ## The fields of the bit pattern -/

/-- The first number that needs more than the fifty-two fraction bits. -/
def fractionLimit : Nat := 0x10000000000000

/-- Whether the sign bit is set; it is set for `-0.0` as well. -/
def isNegative (x : Double) : Bool := x.bits.toNat / fractionLimit / 2048 == 1

/-- The eleven exponent bits. -/
def exponentField (x : Double) : Nat := x.bits.toNat / fractionLimit % 2048

/-- The fifty-two fraction bits. -/
def fractionField (x : Double) : Nat := x.bits.toNat % fractionLimit

/-- Neither an infinity nor a NaN: those have every exponent bit set. -/
def isFinite (x : Double) : Bool := x.exponentField != 2047

/-- A NaN has every exponent bit set and some fraction bit. -/
def isNaN (x : Double) : Bool := x.exponentField == 2047 && x.fractionField != 0

/-- The integer `m` of the magnitude `m · 2 ^ scale`: normal numbers carry a leading one that is
not stored. -/
def significand (x : Double) : Nat :=
  if x.exponentField = 0 then x.fractionField else fractionLimit + x.fractionField

/-- The power of two that the significand counts.  Subnormal numbers share the scale of the
smallest normal ones. -/
def scale (x : Double) : Int := (max x.exponentField 1 : Nat) - 1075

/-! ## The exact value -/

/-- The absolute value of a finite double. -/
def magnitude (x : Double) : Rat := (x.significand : Rat) * (2 : Rat) ^ x.scale

/-- The rational number a finite double stands for. -/
def toRat? (x : Double) : Option Rat :=
  if x.isFinite then some (if x.isNegative then -x.magnitude else x.magnitude) else none

/-- The integer a double stands for, if it stands for one. -/
def toInt? (x : Double) : Option Int :=
  x.toRat?.bind fun r => if r.den = 1 then some r.num else none

/-- Whether dividing `x` by a non-zero `y` leaves no remainder.  Nothing infinite is a multiple;
of an infinity only zero is. -/
def isMultipleOf (x y : Double) : Bool :=
  match x.toRat?, y.toRat? with
  | some a, some b => (a / b).den == 1
  | some a, none => !y.isNaN && a == 0
  | none, _ => false

/-! ## Machine operations -/

/-- The double with the opposite sign bit; it negates NaN and zero too. -/
def neg (x : Double) : Double := ⟨x.bits ^^^ 0x8000000000000000⟩

/-- The rounded sum. -/
def add (x y : Double) : Double := ofFloat (x.toFloat + y.toFloat)

/-- The rounded difference. -/
def sub (x y : Double) : Double := ofFloat (x.toFloat - y.toFloat)

/-- The rounded product. -/
def mul (x y : Double) : Double := ofFloat (x.toFloat * y.toFloat)

/-- The greatest integral double below the rounded quotient. -/
def floorDiv (x y : Double) : Double := ofFloat (x.toFloat / y.toFloat).floor

/-- Equality of numbers: the two zeros are equal and a NaN equals nothing. -/
def numericEq (x y : Double) : Bool := x.toFloat == y.toFloat

/-- The order of two numbers; a NaN has none. -/
def compare? (x y : Double) : Option Ordering :=
  if x.toFloat < y.toFloat then some .lt
  else if x.toFloat == y.toFloat then some .eq
  else if y.toFloat < x.toFloat then some .gt
  else none

end Double

end Arbor
