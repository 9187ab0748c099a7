import Arbor.Emission.State
import Arbor.Evaluation

/-!
# Emission of bodies

Every expression is first given to the evaluator; code is emitted only for what it cannot fold.
User functions are inlined where they are called: arguments that are known stay known in the body,
others are stored into fresh slots, and a return jumps to the end of the inlined body.

As in evaluation, `emitExpr` and `emitStmt` follow the structure of the program with the meaning of
calls left open, and `emitCall` closes the recursion.  The functions being inlined, which the state
lists, are passed along as `entered`, so that the recursion is seen to end.

* `Emission.accept` folds an expression or else emits it.
* `Emission.emitStmts` emits statements, and tells whether every path through them returns.
-/

namespace Arbor.Emission

open Emit

variable {job : Job} {entered : List String}

/-- The meaning of calls: how the body of an admitted function is inlined, given the scope that
binds its parameters. -/
abbrev Inliner (job : Job) (entered : List String) := Inlinable job entered → Scope → Emit ValueType

/-- Folds an expression, or else emits it by the given step.  With `load`, a folded value is pushed;
an emitted one always is. -/
def accept (job : Job) (entered : List String) (load : Bool) (e : Expr)
    (emit : Emit ValueType) : Emit Value := do
  match ← job.evaluate (← get).scopes entered e with
  | some d => do
    if load then loadDatum d
    pure (.known d)
  | none => do
    let type ← emit
    pure (.runtime type)

/-! ## Expressions -/

mutual
/-- Emits code that pushes the value of an expression, and returns its type. -/
def emitExpr (inline : Inliner job entered) : Expr → Emit ValueType
  | .literal d _ => do
    loadDatum d
    pure d.type
  | .ref name _ => do
    match ← lookup name with
    | .stored type slot _ => do
      push .load slot
      pure type
    | .constant d _ => do
      loadDatum d
      pure d.type
  | .attr target field _ => do
    let b ← lookup target
    Check.compatible b.type (.of .node) target.span
    match b.slot? with
    | some slot => do
      push .load slot
      pushConstant .attr (.str field.name)
      pure .any
    | none => throw (.defect .nodeWithoutStorage)
  | .unary op operand span => do
    let a ← accept job entered true operand (emitExpr inline operand)
    let overloads ← job.operator op.symbol
    let (type, opcode) ← overloads.infer [a.type] span
    push opcode
    pure type
  | .binary op left right span => do
    let a ← accept job entered true left (emitExpr inline left)
    let b ← accept job entered true right (emitExpr inline right)
    let overloads ← job.operator op.symbol
    let (type, opcode) ← overloads.infer [a.type, b.type] span
    push opcode
    pure type
  | .call name args site _ => do
    match ← job.callee name with
    | .builtin overloads => do
      overloads.checkArity args.length name.span
      let types ← emitArgs inline args
      let (type, opcode) ← overloads.infer types site
      push opcode
      pure type
    | .function d mem => do
      Check.argumentCount d.params.length args.length site
      let g ← Job.enterFunction d mem name.span
      let frame := (← get).frames.length
      let scope ← emitParams inline { role := some (.function frame) } d.params args
      inline g scope
  | .list items _ => do
    push .list
    let types ← emitItems inline items
    pure (if types.isEmpty then .anyList else (ValueType.joinAll types).asList)

/-- Emits code that pushes arguments from left to right, and returns their types. -/
def emitArgs (inline : Inliner job entered) : List Expr → Emit (List ValueType)
  | [] => pure []
  | e :: es => do
    let a ← accept job entered true e (emitExpr inline e)
    let types ← emitArgs inline es
    pure (a.type :: types)

/-- Emits code that appends items to the list on the stack, and returns their types.  None may be a
list. -/
def emitItems (inline : Inliner job entered) : List Expr → Emit (List ValueType)
  | [] => pure []
  | e :: es => do
    let a ← accept job entered true e (emitExpr inline e)
    Check.listItem a.type e.span
    push .append
    let types ← emitItems inline es
    pure (a.type :: types)

/-- Binds parameters to arguments, one after the other, for an inlined body.  A known argument is
bound as it is; any other is stored. -/
def emitParams (inline : Inliner job entered) :
    Scope → List Ident → List Expr → Emit Scope
  | scope, p :: ps, e :: es => do
    match ← accept job entered false e (emitExpr inline e) with
    | .known d => do
      let scope ← scope.define p (.constant d true)
      emitParams inline scope ps es
    | .runtime type => do
      let slot ← alloc
      let scope ← scope.define p (.stored type slot true)
      push .store slot
      emitParams inline scope ps es
  | scope, _, _ => pure scope
end

/-! ## Statements -/

/-- Folds or emits an expression of a statement. -/
def acceptExpr (inline : Inliner job entered) (load : Bool) (e : Expr) : Emit Value :=
  accept job entered load e (emitExpr inline e)

/-- Emits a condition, which must be a boolean, and a jump that is taken unless it holds. -/
def emitCond (inline : Inliner job entered) (cond : Expr) : Emit Anchor := do
  let c ← acceptExpr inline true cond
  Check.compatible c.type (.of .bool) cond.span
  reserve .jumpUnless

mutual
/-- Emits a statement, and tells whether every path through it returns or fails. -/
def emitStmt (inline : Inliner job entered) : Stmt → Emit Bool
  | .block body => inChild {} (emitStmts inline body)
  | .define .const name value => do
    match ← acceptExpr inline false value with
    | .known d => do
      define name (.constant d true)
      pure false
    | .runtime _ => throw (Fault.runtimeConstant.atSpan name.span)
  | .define qualifier name value => do
    let v ← acceptExpr inline true value
    let slot ← alloc
    define name (.stored v.type slot qualifier.isFinal)
    push .store slot
    pure false
  | .assign name value => do
    let v ← acceptExpr inline true value
    match ← assign name v with
    | .store slot | .widened slot => do
      push .store slot
      pure false
    | .replaced => throw (.defect .constantReassigned)
  | .ret none => do
    push .pushNone
    leave .void
    pure true
  | .ret (some value) => do
    let v ← acceptExpr inline true value
    leave v.type
    pure true
  | .ifThen cond yes => do
    let skip ← emitCond inline cond
    let _ ← inChild {} (emitStmts inline yes)
    patch skip
    pure false
  | .ifElse cond yes no => do
    let skip ← emitCond inline cond
    let yesReturns ← inChild {} (emitStmts inline yes)
    let done ← reserve .jump
    patch skip
    let noReturns ← inChild {} (emitStmts inline no)
    patch done
    pure (yesReturns && noReturns)
  | .loop name items body => do
    let list ← acceptExpr inline true items
    Check.compatible list.type .anyList items.span
    let iter ← alloc
    push .iter
    push .store iter
    let head := (← get).code.head
    push .hasNext iter
    let exit ← reserve .jumpUnless
    push .next iter
    let item ← alloc
    push .store item
    let scope ← Scope.define { role := some .loop } name (.stored list.type.asScalar item true)
    let _ ← inChild scope (emitStmts inline body)
    onCode (.jumpBack head)
    patch exit
    pure false
  | .fail message _ => do
    let m ← acceptExpr inline true message
    Check.compatible m.type (.of .str) message.span
    push .fail
    pure true
  | .expr value => do
    match ← acceptExpr inline false value with
    | .known _ => pure false
    | .runtime _ => do
      push .drop
      pure false

/-- Emits statements, all of them, and tells whether every path through them returns or fails. -/
def emitStmts (inline : Inliner job entered) : List Stmt → Emit Bool
  | [] => pure false
  | s :: ss => do
    let returns ← emitStmt inline s
    let rest ← emitStmts inline ss
    pure (returns || rest)
end

/-! ## Calls -/

/-- Inlines the body of a function.  Where its end can be reached without a return it yields none,
which has no type; the type of the call is the join of the types of all returns. -/
def emitCall (job : Job) (entered : List String) (g : Inlinable job entered) (scope : Scope) :
    Emit ValueType := do
  let (returns, frame) ←
    inFrame g.name scope (emitStmts (emitCall job (g.name :: entered)) g.definition.body)
  let types ←
    if returns then pure frame.returns
    else do
      push .pushNone
      pure (.void :: frame.returns)
  patchAll frame.exits
  pure (ValueType.joinAll types)
termination_by Nesting.remaining job.functionNames entered
decreasing_by exact Inlinable.remaining_lt _

end Arbor.Emission
