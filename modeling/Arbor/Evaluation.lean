import Arbor.Job.Basic
import Arbor.Scope.Basic

/-!
# Compile-time evaluation

Folding an expression has three outcomes, which the monad `Fold` keeps apart: a datum, a problem,
or the finding that the value depends on something only the running program knows.  The last is no
problem; whoever asked emits code for the expression instead.  Attributes, stored bindings, loops
and builtins that only exist while the program runs are such dependencies.

User functions are run on known arguments.  Their bodies fold like any other code, in a scope of
their own, and a function is not entered again while it runs.  Expressions and statements are folded
by recursion on their structure with the meaning of calls left open (`foldExpr`, `foldStmt`);
`foldCall` closes the recursion, which ends because each nested call enters a new name.

* `Job.evaluate` folds an expression in given scopes.
-/

namespace Arbor

/-- Folding: a problem, a result, or none as long as the program does not run. -/
abbrev Fold := OptionT (Except Problem)

/-- How a list of statements ends. -/
inductive Flow where
  /-- At its end. -/
  | through
  /-- At a return, with a value unless bare. -/
  | returned (value : Option Datum)
deriving DecidableEq, Repr

/-- Binds parameters to data, in order. -/
def Scope.bindAll : Scope → List Ident → List Datum → Except Problem Scope
  | s, p :: ps, d :: ds => do
    let s ← s.define p (.constant d true)
    bindAll s ps ds
  | s, _, _ => pure s

namespace Evaluation

variable {job : Job} {entered : List String}

/-- The meaning of calls: how an admitted function is run on known arguments. -/
abbrev Runner (job : Job) (entered : List String) := Inlinable job entered → List Datum → Fold Datum

/-! ## Expressions -/

mutual
/-- Folds an expression.  Operands are folded from left to right. -/
def foldExpr (run : Runner job entered) (scopes : Scopes) : Expr → Fold Datum
  | .literal d _ => pure d
  | .ref name _ => do
    match ← scopes.lookup name with
    | .constant d _ => pure d
    | .stored _ _ _ => failure
  | .attr _ _ _ => failure
  | .unary op operand span => do
    let a ← foldExpr run scopes operand
    let overloads ← job.operator op.symbol
    OptionT.mk (overloads.fold [a] span)
  | .binary op left right span => do
    let a ← foldExpr run scopes left
    let b ← foldExpr run scopes right
    let overloads ← job.operator op.symbol
    OptionT.mk (overloads.fold [a, b] span)
  | .call name args site _ => do
    match ← job.callee name with
    | .builtin overloads => do
      overloads.checkArity args.length name.span
      let data ← foldArgs run scopes args
      OptionT.mk (overloads.fold data site)
    | .function d mem => do
      Check.arguments d.params.length args.length name.span
      let g ← Job.enterFunction d mem name.span
      let data ← foldArgs run scopes args
      run g data
  | .list items _ => do
    let data ← foldItems run scopes items
    pure (.list data)

/-- Folds arguments from left to right. -/
def foldArgs (run : Runner job entered) (scopes : Scopes) : List Expr → Fold (List Datum)
  | [] => pure []
  | e :: es => do
    let d ← foldExpr run scopes e
    let ds ← foldArgs run scopes es
    pure (d :: ds)

/-- Folds the items of a list, none of which may be a list. -/
def foldItems (run : Runner job entered) (scopes : Scopes) : List Expr → Fold (List Datum)
  | [] => pure []
  | e :: es => do
    let d ← foldExpr run scopes e
    Check.listItem d.type e.span
    let ds ← foldItems run scopes es
    pure (d :: ds)
end

/-! ## Statements -/

/-- Folds a condition, which must be a boolean. -/
def foldCond (run : Runner job entered) (scopes : Scopes) (cond : Expr) : Fold Bool := do
  let d ← foldExpr run scopes cond
  Check.compatible d.type (.of .bool) cond.span
  match d.toBool? with
  | some b => pure b
  | none => throwThe Problem (.defect .booleanMissing)

mutual
/-- Runs a statement, and returns how it ends and the scopes after it. -/
def foldStmt (run : Runner job entered) (scopes : Scopes) : Stmt → Fold (Flow × Scopes)
  | .block body => do
    let (flow, inner) ← foldStmts run ({} :: scopes) body
    pure (flow, inner.tail)
  | .define qualifier name value => do
    let d ← foldExpr run scopes value
    let scopes ← scopes.define name (.constant d qualifier.isFinal)
    pure (.through, scopes)
  | .assign name value => do
    let d ← foldExpr run scopes value
    let (_, scopes) ← scopes.assign name (.known d) (throw (.defect .storageMissing))
    pure (.through, scopes)
  | .ret none => pure (.returned none, scopes)
  | .ret (some value) => do
    let d ← foldExpr run scopes value
    pure (.returned (some d), scopes)
  | .ifThen cond yes => do
    if ← foldCond run scopes cond then
      let (flow, inner) ← foldStmts run ({} :: scopes) yes
      pure (flow, inner.tail)
    else pure (.through, scopes)
  | .ifElse cond yes no => do
    if ← foldCond run scopes cond then
      let (flow, inner) ← foldStmts run ({} :: scopes) yes
      pure (flow, inner.tail)
    else
      let (flow, inner) ← foldStmts run ({} :: scopes) no
      pure (flow, inner.tail)
  | .loop _ _ _ => failure
  | .fail message span => do
    match ← foldExpr run scopes message with
    | .str text => throwThe Problem ((Fault.failed text).atSpan span)
    | d => throwThe Problem ((Fault.notCompatible d.type (.of .str)).atSpan message.span)
  | .expr value => do
    let _ ← foldExpr run scopes value
    pure (.through, scopes)

/-- Runs statements up to the first return. -/
def foldStmts (run : Runner job entered) (scopes : Scopes) : List Stmt → Fold (Flow × Scopes)
  | [] => pure (.through, scopes)
  | s :: ss => do
    match ← foldStmt run scopes s with
    | (.through, scopes) => foldStmts run scopes ss
    | (.returned value, scopes) => pure (.returned value, scopes)
end

/-! ## Calls -/

/-- Runs a function on known arguments.  A function that ends without a value has none to fold
to. -/
def foldCall (job : Job) (entered : List String) (g : Inlinable job entered)
    (args : List Datum) : Fold Datum := do
  let scope ← Scope.bindAll {} g.definition.params args
  match ← foldStmts (foldCall job (g.name :: entered)) [scope] g.definition.body with
  | (.returned (some d), _) => pure d
  | _ => failure
termination_by Nesting.remaining job.functionNames entered
decreasing_by exact Inlinable.remaining_lt _

end Evaluation

/-- Folds an expression in given scopes, inside the bodies of the functions `entered`.  There is no
datum if it depends on what only the running program knows. -/
def Job.evaluate (job : Job) (scopes : Scopes) (entered : List String) (e : Expr) :
    Except Problem (Option Datum) :=
  (Evaluation.foldExpr (Evaluation.foldCall job entered) scopes e).run

namespace Job

@[simp] theorem evaluate_literal (job : Job) (scopes : Scopes) (entered : List String)
    (d : Datum) (span : Span) :
    job.evaluate scopes entered (.literal d span) = .ok (some d) := rfl

@[simp] theorem evaluate_attr (job : Job) (scopes : Scopes) (entered : List String)
    (target field : Ident) (span : Span) :
    job.evaluate scopes entered (.attr target field span) = .ok none := rfl

end Job

end Arbor
