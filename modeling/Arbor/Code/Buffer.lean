import Arbor.Problem.Step

/-!
# Code under construction

`Code` is the list of instructions emitted so far.  A forward jump is reserved before its target is
known; `Code.reserve` returns an anchor for it, and `Assemble.patch` later points the jump at the
end the code has then.  Steps that can end in a problem change the code in place (`Assemble`).

A jump over nothing is not kept.  `Code.elide` removes it, or turns it into a plain `drop` when it
has a condition to pop.  Removing the last instruction moves the end, so the jumps that led there
are shortened by one; that may leave another jump over nothing, which goes the same way.
-/

namespace Arbor

/-- The operand of an instruction. -/
inductive Operand where
  | byte (value : UInt8)
  /-- A forward jump that still waits for its target. -/
  | pending
deriving DecidableEq, Repr

/-- An opcode with its operand. -/
structure Instruction where
  opcode : Opcode
  operand : Operand
deriving DecidableEq, Repr

/-- A reserved forward jump, by its index. -/
structure Anchor where
  index : Nat
deriving DecidableEq, Repr

/-- The target of a later backward jump, by its index. -/
structure LoopHead where
  index : Nat
deriving DecidableEq, Repr

/-- The instructions emitted so far. -/
structure Code where
  instructions : List Instruction := []
deriving DecidableEq, Repr

/-- The index that a resolved forward jump at a given index leads to. -/
def Instruction.target? (i : Instruction) (index : Nat) : Option Nat :=
  if i.opcode.isForwardJump then
    match i.operand with
    | .byte distance => some (index + 1 + distance.toNat)
    | .pending => none
  else none

/-- The instruction with its distance shortened by one. -/
def Instruction.shorten (i : Instruction) : Instruction :=
  match i.operand with
  | .byte distance => { i with operand := .byte (distance - 1) }
  | .pending => i

namespace Code

/-- The number of instructions. -/
def size (c : Code) : Nat := c.instructions.length

/-- Adds an instruction. -/
def push (c : Code) (op : Opcode) (operand : UInt8 := 0) : Code :=
  ⟨c.instructions ++ [⟨op, .byte operand⟩]⟩

/-! ## Forward jumps -/

/-- Adds a forward jump whose target is not known yet. -/
def reserve (c : Code) (op : Opcode) : Anchor × Code :=
  (⟨c.size⟩, ⟨c.instructions ++ [⟨op, .pending⟩]⟩)

/-- Shortens every forward jump that leads to a given index. -/
def retarget (stop : Nat) (is : List Instruction) : List Instruction :=
  is.mapIdx fun index i => if i.target? index = some stop then i.shorten else i

@[simp] theorem length_retarget (stop : Nat) (is : List Instruction) :
    (retarget stop is).length = is.length := by
  simp [retarget]

/-- Takes away a jump over nothing at the end of the code.  One with a condition becomes `drop`.
Any other is removed, and with it, in turn, the jump before it if that now leads nowhere. -/
def elide (is : List Instruction) : List Instruction :=
  match is.getLast? with
  | none => is
  | some last =>
    if last.opcode = .jumpUnless then is.dropLast ++ [⟨.drop, .byte 0⟩]
    else
      let rest := is.dropLast
      if rest.getLast?.any (fun i => i.target? (rest.length - 1) = some is.length) then
        elide (retarget is.length rest)
      else retarget is.length rest
termination_by is.length
decreasing_by
  cases is with
  | nil => simp_all [rest]
  | cons => simp

/-! ## Backward jumps -/

/-- Remembers the end of the code as the head of a loop. -/
def head (c : Code) : LoopHead := ⟨c.size⟩

/-! ## Encoding -/

/-- Encodes instructions, two bytes for each.  The first is counted as `index`. -/
def encode : (index : Nat) → List Instruction → Except Problem (List UInt8)
  | _, [] => pure []
  | index, ⟨op, .byte operand⟩ :: is => do
    let bytes ← encode (index + 1) is
    pure (op.byte :: operand :: bytes)
  | index, ⟨op, .pending⟩ :: _ => throw (.defect (.unresolvedJump op index))

/-- The bytes of the code; every jump must have been patched. -/
def build (c : Code) : Except Problem (List UInt8) := encode 0 c.instructions

@[simp] theorem instructions_push (c : Code) (op : Opcode) (b : UInt8) :
    (c.push op b).instructions = c.instructions ++ [⟨op, .byte b⟩] := rfl

@[simp] theorem instructions_reserve (c : Code) (op : Opcode) :
    (c.reserve op).2.instructions = c.instructions ++ [⟨op, .pending⟩] := rfl

@[simp] theorem size_push (c : Code) (op : Opcode) (b : UInt8) :
    (c.push op b).size = c.size + 1 := by
  simp [push, size]

@[simp] theorem size_reserve (c : Code) (op : Opcode) : (c.reserve op).2.size = c.size + 1 := by
  simp [reserve, size]

end Code

/-! ## Steps -/

/-- Steps of code under construction. -/
abbrev Assemble := Step Code

namespace Assemble

/-- Adds an instruction whose operand is an index, which has to fit one byte. -/
def pushIndex (op : Opcode) (what : String) (index : Nat) : Assemble Unit :=
  if index < 256 then modify (·.push op (UInt8.ofNat index))
  else throw (.defect (.indexTooLarge what index))

/-- Points a reserved jump at the end of the code. -/
def patch (anchor : Anchor) : Assemble Unit := do
  let c ← get
  if anchor.index + 1 = c.size then set (Code.mk (Code.elide c.instructions))
  else
    let distance := c.size - (anchor.index + 1)
    if 256 ≤ distance then throw (.defect (.jumpTooFar distance))
    else
      match c.instructions[anchor.index]? with
      | some ⟨op, .pending⟩ =>
        set (Code.mk (c.instructions.set anchor.index ⟨op, .byte (UInt8.ofNat distance)⟩))
      | _ => throw (.defect .staleAnchor)

/-- Adds a jump back to the head of a loop. -/
def jumpBack (head : LoopHead) : Assemble Unit := do
  let distance := (← get).size + 1 - head.index
  if 256 ≤ distance then throw (.defect (.jumpTooFar distance))
  else modify (·.push .jumpBack (UInt8.ofNat distance))

end Assemble

end Arbor
