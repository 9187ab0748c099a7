import Arbor.Code.Opcode
import Arbor.Number.Eighths
import Arbor.Text.Pad

/-!
# The listing of code

One line per instruction: its index, its name and its operand.  A jump also shows the index it
leads to, and a double the number its operand stands for.  Bytes that encode no instruction are
shown as they are.
-/

namespace Arbor.Code

/-- The index that an encoded jump leads to; a jump back past the start leads nowhere. -/
def targetOf (op : Opcode) (index : Nat) (operand : UInt8) : Option Nat :=
  match op with
  | .jump | .jumpUnless => some (index + 1 + operand.toNat)
  | .jumpBack =>
    if operand.toNat ≤ index + 1 then some (index + 1 - operand.toNat) else none
  | _ => none

/-- The remark after an instruction. -/
def remark (op : Opcode) (index : Nat) (operand : UInt8) : String :=
  match targetOf op index operand with
  | some target => " = (" ++ toString target ++ ")"
  | none =>
    if op = .pushFloat then " = " ++ (Eighths.decode operand).text Eighths.format else ""

/-- The line for one instruction. -/
def listLine (index : Nat) (opcode operand : UInt8) : String :=
  let number := Text.padLeft 3 '0' (toString index) ++ ": "
  let cell := " " ++ Text.padLeft 3 ' ' (toString operand.toNat)
  match Opcode.ofByte? opcode with
  | none => number ++ "??? 0x" ++ Text.hexByte opcode ++ cell ++ "\n"
  | some op =>
    number ++ Text.padRight 8 ' ' op.mnemonic ++ cell ++ remark op index operand ++ "\n"

/-- The lines for bytes whose first instruction has a given index.  A last byte without operand is
read as if the operand were zero. -/
def listFrom : (index : Nat) → List UInt8 → List String
  | _, [] => []
  | index, [op] => [listLine index op 0]
  | index, op :: operand :: rest => listLine index op operand :: listFrom (index + 1) rest

/-- The listing of a byte string. -/
def listing (bytes : List UInt8) : String := String.join (listFrom 0 bytes)

end Arbor.Code
