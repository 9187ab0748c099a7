import Arbor.Number.Basic
import Arbor.Object.Pool
import Arbor.Text.Pad

/-!
# Pool constants

Code refers to numbers and strings through a constant pool.  The strings are also the names of
kinds and attributes.
-/

namespace Arbor

/-- An entry of the constant pool. -/
inductive Constant where
  | number (value : Number)
  | str (text : String)
deriving DecidableEq, Repr

namespace Constant

/-- A constant as it is written in a program. -/
def text : Constant → String
  | .number n => n.text
  | .str s => "'" ++ s ++ "'"

/-- A constant as it is listed, without quotes. -/
def bare : Constant → String
  | .number n => n.text
  | .str s => s

/-- The listing of a pool: a line for each entry, with its index. -/
def listing (pool : List Constant) : String :=
  String.join (pool.mapIdx fun i c =>
    Text.padLeft 3 '0' (toString i) ++ ": " ++ c.bare ++ "\n")

end Constant

end Arbor
