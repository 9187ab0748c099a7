import Arbor.Number.Checked
import Arbor.Value.Type

/-!
# Operations on constant data

What the builtins compute when their operands are known.  Integer arithmetic is exact: a result
outside 64 bits is undefined, never wrapped.  One double among the operands makes an operation one
on doubles, whose result must be finite.  Operands of another shape are declined, and left to the
running program.
-/

namespace Arbor

/-- An operation that can be carried out at compile time. -/
inductive Operation where
  | add
  | sub
  | mul
  | div
  | neg
  | eq
  | ne
  | lt
  | le
  | gt
  | ge
  | multipleOf
  | powerOf
  | and
  | or
  | not
deriving DecidableEq, Repr

/-- What comes of an operation on constant data. -/
inductive Folded where
  | value (datum : Datum)
  /-- The operation says nothing about these operands. -/
  | declined
  /-- The operation has no result on these operands. -/
  | undefined
deriving DecidableEq, Repr

namespace Operation

/-! ## Arithmetic -/

/-- Arithmetic on two numbers, exact on integers and rounded once a double is involved. -/
def arithmetic (onInts : Int64 → Int64 → Option Int64) (onDoubles : Double → Double → Double) :
    List Datum → Folded
  | [.number (.int a), .number (.int b)] =>
    match onInts a b with
    | some n => .value (.number (.int n))
    | none => .undefined
  | [.number a, .number b] =>
    let r := onDoubles a.toDouble b.toDouble
    if r.isFinite then .value (.number (.float r)) else .undefined
  | _ => .declined

/-- The sum of two numbers, or two strings joined. -/
def foldAdd : List Datum → Folded
  | [.str a, .str b] => .value (.str (a ++ b))
  | args => arithmetic Checked.add? Double.add args

/-- The negation of a number. -/
def foldNeg : List Datum → Folded
  | [.number (.int a)] =>
    match Checked.neg? a with
    | some n => .value (.number (.int n))
    | none => .undefined
  | [.number (.float x)] => .value (.number (.float x.neg))
  | _ => .declined

/-! ## Comparison -/

/-- Whether two data are equal: numbers as quantities, all else as data. -/
def equal? : List Datum → Option Bool
  | [.number a, .number b] => some (a.numericEq b)
  | [a, b] => some (a == b)
  | _ => none

/-- A comparison of two numbers by their order; it fails where they have none. -/
def ordered (accept : Ordering → Bool) : List Datum → Folded
  | [.number a, .number b] => .value (.bool ((a.compare? b).any accept))
  | _ => .declined

/-- Whether a number is a multiple of another.  Of zero there are none, and an integer remainder
exists only where the quotient does. -/
def foldMultipleOf : List Datum → Folded
  | [.number (.int a), .number (.int b)] =>
    match Checked.remainder? a b with
    | some r => .value (.bool (r == 0))
    | none => .undefined
  | [.number a, .number b] =>
    if b.toDouble.numericEq ⟨0⟩ then .undefined
    else .value (.bool (a.toDouble.isMultipleOf b.toDouble))
  | _ => .declined

/-- Whether repeated division by `base` leads from `n` to one. -/
def isPowerOf (base n : Nat) : Bool :=
  if 2 ≤ base ∧ 0 < n ∧ n % base = 0 then isPowerOf base (n / base) else n == 1
termination_by n
decreasing_by
  rename_i h
  exact Nat.div_lt_self h.2.1 h.1

/-- Whether a number is a power of another.  It is asked of integers only, and of a base of at
least two. -/
def foldPowerOf : List Datum → Folded
  | [.number a, .number b] =>
    match a.toInt?, b.toInt? with
    | some n, some base =>
      if base < 2 then .undefined
      else if n < 1 then .value (.bool false)
      else .value (.bool (isPowerOf base.toNat n.toNat))
    | _, _ => .declined
  | _ => .declined

/-! ## Logic -/

/-- An operation on two booleans. -/
def logical (f : Bool → Bool → Bool) : List Datum → Folded
  | [.bool a, .bool b] => .value (.bool (f a b))
  | _ => .declined

/-- The negation of a boolean. -/
def foldNot : List Datum → Folded
  | [.bool a] => .value (.bool !a)
  | _ => .declined

/-! ## All operations -/

/-- A result that may be missing, as a boolean datum. -/
def ofBool? : Option Bool → Folded
  | some b => .value (.bool b)
  | none => .declined

/-- Carries out an operation. -/
def fold : Operation → List Datum → Folded
  | .add, args => foldAdd args
  | .sub, args => arithmetic Checked.sub? Double.sub args
  | .mul, args => arithmetic Checked.mul? Double.mul args
  | .div, args => arithmetic Checked.floorDiv? Double.floorDiv args
  | .neg, args => foldNeg args
  | .eq, args => ofBool? (equal? args)
  | .ne, args => ofBool? ((equal? args).map (! ·))
  | .lt, args => ordered Ordering.isLT args
  | .le, args => ordered Ordering.isLE args
  | .gt, args => ordered Ordering.isGT args
  | .ge, args => ordered Ordering.isGE args
  | .multipleOf, args => foldMultipleOf args
  | .powerOf, args => foldPowerOf args
  | .and, args => logical (· && ·) args
  | .or, args => logical (· || ·) args
  | .not, args => foldNot args

end Operation

end Arbor
