import Arbor.Code.Buffer
import Arbor.Number.Eighths
import Arbor.Object.Constant
import Arbor.Problem.Step
import Arbor.Scope.Basic

/-!
# The state of emission

While the body of a mapping is emitted, code grows, slots are handed out, constants are interned
and names are bound.  `Emit` is the monad of such steps.  A step that ends in a problem keeps what
it had done to the state; only the nesting of scopes, of frames and of inlined functions is put
back, by `inChild` and `inFrame`.

Every operation here that changes the code adds to its end or patches a jump reserved before.
-/

namespace Arbor

/-- What is known of the returns of a body being emitted, the latest first. -/
structure Frame where
  /-- The types of the values returned. -/
  returns : List ValueType := []
  /-- The jumps to the end of the body. -/
  exits : List Anchor := []
deriving DecidableEq, Repr

/-- The frame after one more return. -/
def Frame.record (f : Frame) (type : ValueType) (exit : Anchor) : Frame where
  returns := type :: f.returns
  exits := exit :: f.exits

/-- The state of emission. -/
structure EmitState where
  code : Code := {}
  slots : Slots := {}
  scopes : Scopes := []
  /-- The frames of the mapping and of the calls being inlined, the innermost last. -/
  frames : List Frame := []
  /-- The names of the functions being inlined, the innermost first. -/
  inlining : List String := []
  constants : Pool Constant := {}
deriving DecidableEq

/-- Steps of emission. -/
abbrev Emit := Step EmitState

namespace Emit

/-! ## Code -/

/-- A step on the code. -/
def onCode {α : Type} (step : Assemble α) : Emit α :=
  Step.within EmitState.code (fun c σ => { σ with code := c }) step

/-- Adds an instruction. -/
def push (op : Opcode) (operand : UInt8 := 0) : Emit Unit :=
  modify fun σ => { σ with code := σ.code.push op operand }

@[simp] theorem push_apply (op : Opcode) (b : UInt8) (σ : EmitState) :
    push op b σ = .ok () { σ with code := σ.code.push op b } := rfl

/-- Adds an instruction whose operand is the index of a constant. -/
def pushConstant (op : Opcode) (c : Constant) : Emit Unit := do
  let (index, constants) := (← get).constants.intern c
  modify fun σ => { σ with constants := constants }
  onCode (.pushIndex op "constant" index)

/-- Reserves a forward jump. -/
def reserve (op : Opcode) : Emit Anchor := do
  let (anchor, code) := (← get).code.reserve op
  modify fun σ => { σ with code := code }
  pure anchor

@[simp] theorem reserve_apply (op : Opcode) (σ : EmitState) :
    reserve op σ = .ok ⟨σ.code.size⟩ { σ with code := (σ.code.reserve op).2 } := rfl

/-- Points a reserved jump at the end of the code. -/
def patch (anchor : Anchor) : Emit Unit := onCode (.patch anchor)

/-- Points reserved jumps at the end of the code, the latest first: a jump that is taken away
because it leads nowhere then shifts no other that still waits. -/
def patchAll : List Anchor → Emit Unit
  | [] => pure ()
  | a :: as => do
    patch a
    patchAll as

/-! ## Constants -/

/-- Adds the instruction that pushes a number: small ones are operands, others pool entries. -/
def loadNumber : Number → Emit Unit
  | .int v =>
    if 0 ≤ v.toInt ∧ v.toInt < 256 then push .pushInt (UInt8.ofNat v.toInt.toNat)
    else pushConstant .const (.number (.int v))
  | .float x =>
    match Eighths.encode x with
    | some b => push .pushFloat b
    | none => pushConstant .const (.number (.float x))

/-- Adds the instruction that pushes a scalar. -/
def loadScalar : Datum → Emit Unit
  | .none => push .pushNone
  | .bool true => push .pushTrue
  | .bool false => push .pushFalse
  | .number n => loadNumber n
  | .str text => pushConstant .const (.str text)
  | .kind name => pushConstant .kind (.str name)
  | .list _ => throw (.defect .nestedListLoaded)

/-- Adds code that appends scalars to the list on the stack. -/
def appendAll : List Datum → Emit Unit
  | [] => pure ()
  | d :: ds => do
    loadScalar d
    push .append
    appendAll ds

/-- Adds code that pushes a datum. -/
def loadDatum : Datum → Emit Unit
  | .list items => do
    push .list
    appendAll items
  | d => loadScalar d

/-! ## Slots and scopes -/

/-- Hands out a slot. -/
def alloc : Emit UInt8 :=
  Step.within EmitState.slots (fun slots σ => { σ with slots := slots }) Slots.alloc

/-- The innermost binding of an identifier. -/
def lookup (name : Ident) : Emit Binding := do
  Scopes.lookup (← get).scopes name

/-- Binds a name in the innermost scope. -/
def define (name : Ident) (b : Binding) : Emit Unit := do
  let scopes ← Scopes.define (← get).scopes name b
  modify fun σ => { σ with scopes := scopes }

/-- Assigns to the innermost binding of an identifier. -/
def assign (name : Ident) (value : Value) : Emit Assignment := do
  let σ ← get
  let (outcome, scopes) ← Scopes.assign σ.scopes name value σ.slots.fresh
  let slots :=
    match outcome with
    | .widened _ => σ.slots.advance
    | _ => σ.slots
  modify fun σ => { σ with scopes := scopes, slots := slots }
  pure outcome

/-- Records a return of a value of the given type, by a jump that waits for the end of the body
whose frame it leaves. -/
def leave (type : ValueType) : Emit Unit := do
  match Scopes.frame? (← get).scopes with
  | none => throw (.defect .returnOutsideFrame)
  | some id => do
    let exit ← reserve .jump
    match (← get).frames[id]? with
    | none => throw (.defect .returnIntoClosedFrame)
    | some frame =>
      modify fun σ => { σ with frames := σ.frames.set id (frame.record type exit) }

/-! ## Nesting -/

/-- Runs a step with one more scope, which is closed afterwards, also after a problem. -/
def inChild {α : Type} (scope : Scope) (step : Emit α) : Emit α := fun σ =>
  match step { σ with scopes := scope :: σ.scopes } with
  | .ok a σ' => .ok a { σ' with scopes := σ'.scopes.tail }
  | .error p σ' => .error p { σ' with scopes := σ'.scopes.tail }

/-- Closes the innermost frame, which must be there. -/
def closeFrame (missing : Defect) : Emit Frame := fun σ =>
  match σ.frames.getLast? with
  | some frame => .ok frame { σ with frames := σ.frames.dropLast }
  | none => .error (.defect missing) σ

/-- Runs a step that inlines a function, in a frame of its own, which sees one scope only.  The
frame is closed and returned, the function is left, and the scopes are then those from before, also
after a problem. -/
def inFrame {α : Type} (name : String) (scope : Scope) (step : Emit α) :
    Emit (α × Frame) := fun σ =>
  match step { σ with
      scopes := [scope], frames := σ.frames ++ [{}], inlining := name :: σ.inlining } with
  | .ok a σ' =>
    (do
      let frame ← closeFrame .callFrameMissing
      pure (a, frame)) { σ' with scopes := σ.scopes, inlining := σ'.inlining.tail }
  | .error p σ' =>
    (do
      let _ ← closeFrame .callFrameMissing
      throw p) { σ' with scopes := σ.scopes, inlining := σ'.inlining.tail }

end Emit

end Arbor
