import Arbor.Program.Expr

/-!
# Constraints and predicates

A constraint describes the node trees that mappings accept.  It is built from goals, which compare
attributes and measures of a node with values and select children that must meet further goals.  A
predicate tests a set of selected children by measures alone.
-/

namespace Arbor

/-- How a goal compares a quantity with a value. -/
inductive Comparison where
  | equal
  | notEqual
  | less
  | lessEqual
  | greater
  | greaterEqual
  | multiple
  | power
deriving DecidableEq, Repr

namespace Comparison

/-- The symbol of a comparison. -/
def symbol : Comparison → String
  | .equal => "=="
  | .notEqual => "!="
  | .less => "<"
  | .lessEqual => "<="
  | .greater => ">"
  | .greaterEqual => ">="
  | .multiple => "*="
  | .power => "**="

/-- Every comparison. -/
def all : List Comparison :=
  [.equal, .notEqual, .less, .lessEqual, .greater, .greaterEqual, .multiple, .power]

/-- The comparison with a symbol. -/
def ofSymbol? (s : String) : Option Comparison := all.find? (·.symbol == s)

end Comparison

/-- How many of the goals of a block must hold. -/
inductive Quantifier where
  | all
  | any
  /-- Exactly one. -/
  | one
deriving DecidableEq, Repr

/-- How the attributes of several nodes become one number. -/
inductive Aggregate where
  | min
  | max
  | sum
  | avg
deriving DecidableEq, Repr

/-- A quantity of a set of children. -/
inductive Measure where
  /-- Their number. -/
  | size
  /-- A number made from those of one kind. -/
  | aggregate (how : Aggregate) (kind : Ident)
deriving DecidableEq, Repr

/-- A predicate or constraint type with arguments. -/
structure Application where
  callee : Ident
  args : List Expr
deriving Repr

/-- A statement of a predicate. -/
inductive Test where
  | block (quantifier : Quantifier) (body : List Test)
  | measure (measure : Measure) (comparison : Comparison) (value : Expr)
deriving Repr

/-- A statement of a constraint. -/
inductive Goal where
  | block (quantifier : Quantifier) (body : List Goal)
  /-- Compares an attribute of the node. -/
  | attr (field : Ident) (comparison : Comparison) (value : Expr)
  | measure (measure : Measure) (comparison : Comparison) (value : Expr)
  /-- Some children of a kind satisfy a predicate. -/
  | select (label : Option Ident) (predicate : Application) (kind : Ident)
  /-- The children of a kind that satisfy a predicate meet further goals. -/
  | within (label : Option Ident) (predicate : Application) (kind : Ident)
      (quantifier : Quantifier) (body : List Goal)
  /-- Applies a named constraint type to the children that satisfy a predicate. -/
  | apply (label : Option Ident) (predicate target : Application)
deriving Repr

end Arbor
