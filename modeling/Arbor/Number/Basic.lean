import Arbor.Number.Decimal

/-!
# Numbers of the language

A number is a 64-bit integer or a double.  The two never coincide as data: `Number.int 2` and the
double `2.0` are different entries of a constant pool.  As quantities they compare through
`Number.numericEq` and `Number.compare?`, exactly between integers and as doubles otherwise.
-/

namespace Arbor

/-- A number literal or a folded number. -/
inductive Number where
  | int (value : Int64)
  | float (value : Double)
deriving DecidableEq, Hashable, Repr

namespace Number

/-- Numbers are written positionally from `0.0001` up to sixteen places before the point, and a
double without fraction keeps `.0`, which sets it apart from an integer. -/
def format : DecimalFormat where
  isPositional e := decide (-4 ≤ e ∧ e ≤ 15)
  keepsPointZero := true

/-- The text of a number. -/
def text : Number → String
  | .int v => toString v.toInt
  | .float x => x.text format

/-- The nearest double. -/
def toDouble : Number → Double
  | .int v => .ofFloat v.toFloat
  | .float x => x

/-- The integer a number stands for.  Doubles of magnitude `9 · 10 ^ 15` and more are not taken for
integers: about there they stop telling neighbouring integers apart. -/
def toInt? : Number → Option Int
  | .int v => some v.toInt
  | .float x => x.toInt?.bind fun n => if n.natAbs < 9000000000000000 then some n else none

/-- Equality as quantities. -/
def numericEq : Number → Number → Bool
  | .int a, .int b => a == b
  | a, b => a.toDouble.numericEq b.toDouble

/-- Order as quantities; none when a NaN is involved. -/
def compare? : Number → Number → Option Ordering
  | .int a, .int b => some (compare a.toInt b.toInt)
  | a, b => a.toDouble.compare? b.toDouble

@[simp] theorem toInt?_int (v : Int64) : (Number.int v).toInt? = some v.toInt := rfl

@[simp] theorem numericEq_int (a b : Int64) : numericEq (.int a) (.int b) = (a == b) := rfl

end Number

end Arbor
