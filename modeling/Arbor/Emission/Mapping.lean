import Arbor.Emission.Body
import Arbor.Object.Mapping

/-!
# Emission of mappings

The body of a mapping runs on a node, which the name `root` is bound to in the first slot.  Returns
of the body jump to the end of the code.  Mappings share the constant pool, so compiling one is a
step on that pool.
-/

namespace Arbor

/-- Steps that intern constants. -/
abbrev WithConstants := Step (Pool Constant)

/-- The state in which the body of a mapping is emitted. -/
def EmitState.start (constants : Pool Constant) : EmitState where
  slots := ⟨1⟩
  scopes := [⟨[("root", .stored (.of .node) 0 true)], some (.root 0)⟩]
  frames := [{}]
  constants := constants

namespace Job

variable (job : Job)

/-- Folds or emits an expression, inside the functions that are being inlined. -/
def acceptExpr (load : Bool) (e : Expr) : Emit Value := fun σ =>
  Emission.acceptExpr (Emission.emitCall job σ.inlining) load e σ

/-- Emits statements, inside the functions that are being inlined, and tells whether every path
through them returns. -/
def emitStmts (body : List Stmt) : Emit Bool := fun σ =>
  Emission.emitStmts (Emission.emitCall job σ.inlining) body σ

end Job

/-- Points the returns of a mapping's body at the end, and encodes the code. -/
def Emit.finish : Emit (List UInt8) := do
  let frame ← Emit.closeFrame .mappingFrameMissing
  if (← get).frames.isEmpty then
    Emit.patchAll frame.exits
    (← get).code.build
  else throw (.defect .callFrameLeftOpen)

namespace Job

variable (job : Job)

/-- The code of a mapping. -/
def emitMapping (m : MappingDef) : Emit (List UInt8) := do
  let _ ← job.emitStmts m.body
  Emit.finish

/-- Compiles the body of a mapping.  Constants interned before a problem stay in the pool. -/
def compileMapping (m : MappingDef) : WithConstants (List UInt8) := fun constants =>
  match job.emitMapping m (.start constants) with
  | .ok bytes σ => .ok bytes σ.constants
  | .error p σ => .error p σ.constants

/-- The index of an activation label, which the constraint must declare. -/
def label (labels : Pool String) (name : Ident) : Except Problem Nat :=
  match labels.idxOf? name.name with
  | some i => pure i
  | none => throw (Fault.undefinedIdentifier.atSpan name.span)

/-- The indices of activation labels. -/
def labelIndices (labels : Pool String) : List Ident → Except Problem (List Nat)
  | [] => pure []
  | name :: names => do
    let i ← label labels name
    let is ← labelIndices labels names
    pure (i :: is)

/-- Compiles mappings in order; the labels of each are resolved before its body is compiled. -/
def compileEach (labels : Pool String) : List MappingDef → WithConstants (List Mapping)
  | [] => pure []
  | m :: ms => do
    let indices ← labelIndices labels m.labels
    let code ← job.compileMapping m
    let rest ← compileEach labels ms
    pure (⟨m.ident.name, indices, code⟩ :: rest)

/-- Compiles all mappings of the file.  There must be one, and one without labels. -/
def compileMappings (labels : Pool String) : WithConstants (List Mapping) :=
  let mappings := job.file.mappings
  if mappings.isEmpty then throw Fault.noMapping.overall
  else if mappings.all fun m => !m.labels.isEmpty then throw Fault.noUnconditionalMapping.overall
  else job.compileEach labels mappings

end Job

end Arbor
