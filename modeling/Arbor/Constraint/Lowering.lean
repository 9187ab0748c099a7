import Arbor.Constraint.Tree
import Arbor.Evaluation
import Arbor.Object.Pool
import Arbor.Problem.Step

/-!
# Lowering of constraints

The main constraint becomes a tree.  Predicates and constraint types are expanded in place, each in
a scope of its own that binds its parameters, and every value must be known at compile time.
Activation labels are numbered in the order in which their statements are met.

As in evaluation, `lowerGoal` follows the structure of a constraint with the meaning of constraint
types left open, and `expandConstraint` closes the recursion.
-/

namespace Arbor

/-- Steps that intern activation labels. -/
abbrev WithLabels := Step (Pool String)

namespace Lowering

/-! ## Values -/

/-- The value of an expression of a constraint. -/
def value (job : Job) (scopes : Scopes) (e : Expr) : Except Problem Datum := do
  match ← job.evaluate scopes [] e with
  | some d => pure d
  | none => throw (Fault.notKnown.atSpan e.span)

/-- Binds parameters to the values of arguments, one after the other. -/
def bindValues (job : Job) (scopes : Scopes) :
    Scope → List Ident → List Expr → Except Problem Scope
  | scope, p :: ps, e :: es => do
    let d ← value job scopes e
    let scope ← scope.define p (.constant d true)
    bindValues job scopes scope ps es
  | scope, _, _ => pure scope

/-- The scope of an expanded definition: its parameters bound to the arguments. -/
def argumentScope (job : Job) (scopes : Scopes) (a : Application) (params : List Ident) :
    Except Problem Scope := do
  Check.arguments params.length a.args.length a.callee.span
  bindValues job scopes {} params a.args

/-- The tree that compares a subject with the value of an expression. -/
def comparison (job : Job) (scopes : Scopes) (c : Comparison) (subject : Tree) (e : Expr) :
    Except Problem Tree := do
  let d ← value job scopes e
  pure (.compare c subject d)

/-! ## Predicates -/

mutual
/-- The tree of a predicate statement. -/
def lowerTest (job : Job) (scopes : Scopes) : Test → Except Problem Tree
  | .block q body => do
    let ts ← lowerTests job scopes body
    pure (.quantified job.config.redundantQuantifier q ts)
  | .measure m c e => comparison job scopes c (.ofMeasure m) e

/-- The trees of predicate statements. -/
def lowerTests (job : Job) (scopes : Scopes) : List Test → Except Problem (List Tree)
  | [] => pure []
  | t :: ts => do
    let tree ← lowerTest job scopes t
    let trees ← lowerTests job scopes ts
    pure (tree :: trees)
end

/-- The tree of an applied predicate. -/
def lowerPredicate (job : Job) (scopes : Scopes) (a : Application) : Except Problem Tree := do
  let d ← job.predicate a.callee
  let scope ← argumentScope job scopes a d.params
  lowerTest job [scope] (.block d.quantifier d.body)

/-! ## Constraints -/

/-- Interns an activation label. -/
def internLabel : Option Ident → WithLabels (Option Nat)
  | some name => fun labels =>
    let (i, labels) := labels.intern name.name
    .ok (some i) labels
  | none => pure none

/-- The meaning of constraint types: how an admitted one is expanded, given the scope that binds its
parameters. -/
abbrev Expander (job : Job) (entered : List String) :=
  Expandable job entered → Scope → WithLabels Tree

variable {job : Job} {entered : List String}

mutual
/-- The tree of a goal. -/
def lowerGoal (expand : Expander job entered) (scopes : Scopes) : Goal → WithLabels Tree
  | .block q body => do
    let ts ← lowerGoals expand scopes body
    pure (.quantified job.config.redundantQuantifier q ts)
  | .attr field c e => comparison job scopes c (.attr field.name) e
  | .measure m c e => comparison job scopes c (.ofMeasure m) e
  | .select label predicate kind => do
    let label ← internLabel label
    let test ← lowerPredicate job scopes predicate
    pure (.labelled label (.node .select [.leaf (.str kind.name), test]))
  | .within label predicate kind q body => do
    let label ← internLabel label
    let test ← lowerPredicate job scopes predicate
    let ts ← lowerGoals expand scopes body
    let block := Tree.quantified job.config.redundantQuantifier q ts
    pure (.labelled label (.node .select [.leaf (.str kind.name), test, block]))
  | .apply label predicate target => do
    let label ← internLabel label
    let d ← job.constraintType target.callee
    let g ← Job.enterConstraint d.1 d.2 target.callee.span
    let scope ← argumentScope job scopes target d.1.params
    let test ← lowerPredicate job scopes predicate
    let block ← expand g scope
    pure (.labelled label (.node .select [.leaf (.str d.1.kind.name), test, block]))

/-- The trees of goals. -/
def lowerGoals (expand : Expander job entered) (scopes : Scopes) :
    List Goal → WithLabels (List Tree)
  | [] => pure []
  | g :: gs => do
    let tree ← lowerGoal expand scopes g
    let trees ← lowerGoals expand scopes gs
    pure (tree :: trees)
end

/-- Expands a constraint type in the scope that binds its parameters. -/
def expandConstraint (job : Job) (entered : List String) (g : Expandable job entered)
    (scope : Scope) : WithLabels Tree :=
  lowerGoal (expandConstraint job (g.name :: entered)) [scope]
    (.block g.definition.quantifier g.definition.body)
termination_by Nesting.remaining job.constraintNames entered
decreasing_by exact Expandable.remaining_lt _

end Lowering

/-- The tree of the main constraint. -/
def Job.lowerMain (job : Job) : WithLabels Tree := do
  let main ← job.main
  Lowering.lowerGoal (Lowering.expandConstraint job []) [{}] (.block main.quantifier main.body)

end Arbor
