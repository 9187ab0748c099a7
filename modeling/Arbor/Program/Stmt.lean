import Arbor.Program.Expr

/-!
# Statements

The statements of mapping and function bodies.
-/

namespace Arbor

/-- How a name is defined. -/
inductive Qualifier where
  /-- The name may be assigned to. -/
  | var
  /-- The name keeps its value. -/
  | final
  /-- The name keeps its value, which must be known at compile time. -/
  | const
deriving DecidableEq, Repr

/-- Whether a name so defined keeps its value. -/
def Qualifier.isFinal : Qualifier → Bool
  | .var => false
  | .final | .const => true

/-- A statement. -/
inductive Stmt where
  | block (body : List Stmt)
  | define (qualifier : Qualifier) (name : Ident) (value : Expr)
  | assign (name : Ident) (value : Expr)
  /-- Leaves the body, with a value unless bare. -/
  | ret (value : Option Expr)
  | ifThen (cond : Expr) (yes : List Stmt)
  | ifElse (cond : Expr) (yes no : List Stmt)
  /-- Runs the body for each item of a list. -/
  | loop (name : Ident) (items : Expr) (body : List Stmt)
  /-- Stops with a message. -/
  | fail (message : Expr) (span : Span)
  | expr (value : Expr)
deriving Repr

end Arbor
