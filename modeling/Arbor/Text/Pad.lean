/-!
# Columns of fixed width

Listings align their columns by filling a cell up to a width.  A cell that is too long is kept
whole.
-/

namespace Arbor.Text

/-- Fills up a cell on the left, so that its text stands at the right. -/
def padLeft (width : Nat) (fill : Char) (s : String) : String :=
  String.ofList (List.replicate (width - s.length) fill) ++ s

/-- Fills up a cell on the right, so that its text stands at the left. -/
def padRight (width : Nat) (fill : Char) (s : String) : String :=
  s ++ String.ofList (List.replicate (width - s.length) fill)

/-- A byte as two upper-case hexadecimal digits. -/
def hexByte (b : UInt8) : String :=
  String.ofList ((Nat.toDigits 16 b.toNat).map Char.toUpper) |> padLeft 2 '0'

end Arbor.Text
