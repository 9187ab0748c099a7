import Arbor.Number.Double

/-!
# The decimal text of a double

`Decimal.shortest` finds, for a positive finite double, the decimal with the fewest digits that
rounds back to it, and of those with that many digits the nearest one; when two are equally near
the larger is taken.  The search runs over decimal grids with one, two, … seventeen digits.  On
each grid only the two neighbours of the value can be nearest, so only those are tested.

How digits are laid out is a separate decision, held by a `DecimalFormat`.
-/

namespace Arbor

/-- The decimal number `digits · 10 ^ exponent`. -/
structure Decimal where
  digits : Nat
  exponent : Int
deriving DecidableEq, Repr

namespace Decimal

/-- The number a decimal stands for. -/
def toRat (d : Decimal) : Rat := (d.digits : Rat) * (10 : Rat) ^ d.exponent

/-- The distance from a double up to the midpoint with its successor. -/
def gapAbove (x : Double) : Rat := (2 : Rat) ^ (x.scale - 1)

/-- The distance from a double down to the midpoint with its predecessor.  Below a power of two
doubles lie twice as dense. -/
def gapBelow (x : Double) : Rat :=
  if x.fractionField = 0 ∧ 1 < x.exponentField then gapAbove x / 2 else gapAbove x

/-- Whether a positive number rounds to the magnitude of `x`: it lies between the two midpoints,
and a midpoint itself goes to the even significand. -/
def roundsTo (x : Double) (r : Rat) : Bool :=
  let low := x.magnitude - gapBelow x
  let high := x.magnitude + gapAbove x
  (decide (low < r) && decide (r < high)) ||
    (x.significand % 2 == 0 && (r == low || r == high))

/-- The number of decimal digits of `n`; zero has one. -/
def digitCount (n : Nat) : Nat := (Nat.toDigits 10 n).length

/-- The number of places `k` before the point: the least `k` with `r < 10 ^ k`, for positive `r`.
Below one it counts, negatively, the zeros that follow the point. -/
def places (r : Rat) : Int :=
  if 1 ≤ r then digitCount r.floor.toNat
  else
    let k := digitCount (1 / r).floor.toNat
    if r = (10 : Rat) ^ (1 - k : Int) then 2 - k else 1 - k

/-- Moves trailing zeros of the digits into the exponent. -/
def normalize (d : Decimal) : Decimal :=
  if h : 0 < d.digits ∧ d.digits % 10 = 0 then normalize ⟨d.digits / 10, d.exponent + 1⟩ else d
termination_by d.digits
decreasing_by exact Nat.div_lt_self h.1 (by decide)

/-- The decimal with at most `n` digits nearest to `x` that rounds to it, if there is one.  Of two
equally near the larger is taken. -/
def onGrid? (x : Double) (n : Nat) : Option Decimal :=
  let exponent := places x.magnitude - n
  let step : Rat := (10 : Rat) ^ exponent
  let t := (x.magnitude / step).floor.toNat
  let below : Decimal := ⟨t, exponent⟩
  let above : Decimal := ⟨t + 1, exponent⟩
  match roundsTo x below.toRat, roundsTo x above.toRat with
  | true, true =>
    if x.magnitude - below.toRat < above.toRat - x.magnitude then some below else some above
  | true, false => some below
  | false, true => some above
  | false, false => none

/-- The finite decimal expansion of a magnitude, every digit kept. -/
def exact (x : Double) : Decimal :=
  if 0 ≤ x.scale then ⟨x.significand * Nat.pow 2 x.scale.toNat, 0⟩
  else ⟨x.significand * Nat.pow 5 (-x.scale).toNat, x.scale⟩

/-- The shortest decimal that rounds to the magnitude of a finite double.  Seventeen digits always
suffice. -/
def shortest (x : Double) : Decimal :=
  if x.significand = 0 then ⟨0, 0⟩
  else normalize (((List.range' 1 17).findSome? (onGrid? x)).getD (exact x))

end Decimal

/-! ## Layout -/

/-- The choices a text form of doubles makes. -/
structure DecimalFormat where
  /-- Whether a number whose first digit counts `10 ^ e` is written positionally rather than with
  an exponent. -/
  isPositional : Int → Bool
  /-- Whether a positional number without fraction ends in `.0`. -/
  keepsPointZero : Bool

namespace Decimal

/-- Digits around the point: zeros fill the places on either side that no digit takes. -/
def positional (fmt : DecimalFormat) (ds : List Char) (places : Int) : List Char :=
  if places ≤ 0 then '0' :: '.' :: (List.replicate (-places).toNat '0' ++ ds)
  else if places < ds.length then
    ds.take places.toNat ++ '.' :: ds.drop places.toNat
  else
    ds ++ List.replicate (places - ds.length).toNat '0' ++
      (if fmt.keepsPointZero then ['.', '0'] else [])

/-- First digit, point, the others, and the power of ten that the first digit counts. -/
def scientific (ds : List Char) (exponent : Int) : List Char :=
  let mantissa :=
    match ds with
    | [] => []
    | [d] => [d]
    | d :: rest => d :: '.' :: rest
  mantissa ++ 'e' :: (toString exponent).toList

/-- The text of a decimal. -/
def text (fmt : DecimalFormat) (d : Decimal) : List Char :=
  let ds := Nat.toDigits 10 d.digits
  let places : Int := ds.length + d.exponent
  if fmt.isPositional (places - 1) then positional fmt ds places else scientific ds (places - 1)

end Decimal

/-- The text of a double.  A NaN shows no sign; zero does. -/
def Double.text (fmt : DecimalFormat) (x : Double) : String :=
  if x.isNaN then "NaN"
  else
    let sign := if x.isNegative then ['-'] else []
    let body := if x.isFinite then (Decimal.shortest x).text fmt else ['i', 'n', 'f']
    String.ofList (sign ++ body)

end Arbor
