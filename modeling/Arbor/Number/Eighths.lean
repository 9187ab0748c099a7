import Arbor.Number.Basic

/-!
# Eighths

One byte holds a number of eighths, from `0` to `31.875`.  It is the operand of the instruction
that loads a small double without a pool entry.
-/

namespace Arbor.Eighths

/-- The byte for a double that is a whole number of eighths in range. -/
def encode (x : Double) : Option UInt8 :=
  x.toRat?.bind fun r =>
    let e := r * 8
    if e.den = 1 ∧ 0 ≤ e.num ∧ e.num < 256 then some (UInt8.ofNat e.num.toNat) else none

/-- The double a byte of eighths stands for. -/
def decode (b : UInt8) : Double := .ofFloat (b.toFloat / 8)

/-- Eighths are listed positionally, and without a fraction when there is none. -/
def format : DecimalFormat where
  isPositional _ := true
  keepsPointZero := false

end Arbor.Eighths
