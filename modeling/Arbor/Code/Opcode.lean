/-!
# Opcodes

The instruction set of the stack machine that runs mappings.  An instruction is two bytes, an
opcode and an operand; an instruction without operand carries zero.  Jump operands are distances in
instructions, counted from the instruction after the jump.
-/

namespace Arbor

/-- What an instruction does. -/
inductive Opcode where
  /-- Push a pool constant. -/
  | const
  /-- Pop into a slot. -/
  | store
  /-- Push the value of a slot. -/
  | load
  /-- Push the kind that a pool string names. -/
  | kind
  /-- Replace a node by its attribute that a pool string names. -/
  | attr
  /-- Replace a node by its kind. -/
  | kindOf
  /-- Replace a list by an iterator over it. -/
  | iter
  /-- Push an empty list. -/
  | list
  /-- Pop an item and append it to the list below. -/
  | append
  /-- Pop. -/
  | drop
  /-- Pop a message and stop with it. -/
  | fail
  | add
  | sub
  | mul
  | div
  | and
  | or
  | neg
  | not
  | eq
  | ne
  | lt
  | le
  | gt
  | ge
  /-- Whether a number is a multiple of another. -/
  | multipleOf
  /-- Whether a number is a power of another. -/
  | powerOf
  | pushTrue
  | pushFalse
  /-- Push the operand as an integer. -/
  | pushInt
  /-- Push the operand as a number of eighths. -/
  | pushFloat
  | pushNone
  /-- Jump forward. -/
  | jump
  /-- Pop a condition and jump forward unless it holds. -/
  | jumpUnless
  /-- Jump backward. -/
  | jumpBack
  /-- Push the next item of the iterator in a slot. -/
  | next
  /-- Push whether the iterator in a slot has another item. -/
  | hasNext
  /-- Replace two numbers by the list of the integers between them. -/
  | range
deriving DecidableEq, Repr

namespace Opcode

/-- Every opcode, by increasing byte. -/
def all : List Opcode :=
  [.const, .store, .load, .kind, .attr, .kindOf, .iter, .list, .append, .drop, .fail,
   .add, .sub, .mul, .div, .and, .or, .neg, .not, .eq, .ne, .lt, .le, .gt, .ge,
   .multipleOf, .powerOf, .pushTrue, .pushFalse, .pushInt, .pushFloat, .pushNone,
   .jump, .jumpUnless, .jumpBack, .next, .hasNext, .range]

/-- The byte that encodes an opcode. -/
def byte : Opcode → UInt8
  | .const => 0x00
  | .store => 0x01
  | .load => 0x02
  | .kind => 0x03
  | .attr => 0x04
  | .kindOf => 0x05
  | .iter => 0x06
  | .list => 0x07
  | .append => 0x08
  | .drop => 0x09
  | .fail => 0x0A
  | .add => 0x10
  | .sub => 0x11
  | .mul => 0x12
  | .div => 0x13
  | .and => 0x15
  | .or => 0x16
  | .neg => 0x17
  | .not => 0x18
  | .eq => 0x19
  | .ne => 0x1A
  | .lt => 0x1B
  | .le => 0x1C
  | .gt => 0x1D
  | .ge => 0x1E
  | .multipleOf => 0x1F
  | .powerOf => 0x20
  | .pushTrue => 0x30
  | .pushFalse => 0x31
  | .pushInt => 0x32
  | .pushFloat => 0x33
  | .pushNone => 0x34
  | .jump => 0x40
  | .jumpUnless => 0x41
  | .jumpBack => 0x42
  | .next => 0x50
  | .hasNext => 0x51
  | .range => 0x52

/-- The name of an opcode in listings. -/
def mnemonic : Opcode → String
  | .const => "CONST"
  | .store => "STORE"
  | .load => "LOAD"
  | .kind => "KIND"
  | .attr => "ATTR"
  | .kindOf => "KIND_OF"
  | .iter => "ITER"
  | .list => "LIST"
  | .append => "APPEND"
  | .drop => "DROP"
  | .fail => "FAIL"
  | .add => "ADD"
  | .sub => "SUB"
  | .mul => "MUL"
  | .div => "DIV"
  | .and => "AND"
  | .or => "OR"
  | .neg => "NEG"
  | .not => "NOT"
  | .eq => "EQL"
  | .ne => "NEQ"
  | .lt => "LES"
  | .le => "LEQ"
  | .gt => "GRE"
  | .ge => "GEQ"
  | .multipleOf => "MUT"
  | .powerOf => "POW"
  | .pushTrue => "TRUE"
  | .pushFalse => "FALSE"
  | .pushInt => "INT"
  | .pushFloat => "FLOAT"
  | .pushNone => "NONE"
  | .jump => "JMP_F"
  | .jumpUnless => "JMP_FF"
  | .jumpBack => "JMP_B"
  | .next => "NEXT"
  | .hasNext => "HAS_NEXT"
  | .range => "RANGE"

/-- The opcode that a byte encodes. -/
def ofByte? (b : UInt8) : Option Opcode := all.find? (·.byte == b)

/-- The opcode with a name. -/
def ofMnemonic? (s : String) : Option Opcode := all.find? (·.mnemonic == s)

/-- Whether an opcode jumps forward, with or without a condition. -/
def isForwardJump : Opcode → Bool
  | .jump | .jumpUnless => true
  | _ => false

/-- Whether an opcode jumps. -/
def isJump : Opcode → Bool
  | .jump | .jumpUnless | .jumpBack => true
  | _ => false

@[simp] theorem ofByte?_byte (op : Opcode) : ofByte? op.byte = some op := by
  cases op <;> rfl

theorem isJump_of_isForwardJump {op : Opcode} (h : op.isForwardJump = true) :
    op.isJump = true := by
  cases op <;> simp_all [isForwardJump, isJump]

end Opcode

end Arbor
