import Arbor.Source.Span
import Arbor.Value.Datum

/-!
# Expressions

The expressions of mapping bodies, functions and constraint values.  Each carries its span, and a
call has a second one for itself, which stays when the expression around it is moved.
-/

namespace Arbor

/-- Operators with one operand. -/
inductive UnaryOp where
  | neg
  | not
deriving DecidableEq, Repr

/-- The symbol under which the overloads of an operator are registered. -/
def UnaryOp.symbol : UnaryOp → String
  | .neg => "-"
  | .not => "!"

/-- Operators with two operands. -/
inductive BinaryOp where
  | add
  | sub
  | mul
  | div
  | eq
  | ne
  | lt
  | le
  | gt
  | ge
  | multipleOf
  | powerOf
  | and
  | or
deriving DecidableEq, Repr

namespace BinaryOp

/-- The symbol under which the overloads of an operator are registered. -/
def symbol : BinaryOp → String
  | .add => "+"
  | .sub => "-"
  | .mul => "*"
  | .div => "/"
  | .eq => "=="
  | .ne => "!="
  | .lt => "<"
  | .le => "<="
  | .gt => ">"
  | .ge => ">="
  | .multipleOf => "*="
  | .powerOf => "**="
  | .and => "&&"
  | .or => "||"

/-- Every binary operator. -/
def all : List BinaryOp :=
  [.add, .sub, .mul, .div, .eq, .ne, .lt, .le, .gt, .ge, .multipleOf, .powerOf, .and, .or]

/-- The operator with a symbol. -/
def ofSymbol? (s : String) : Option BinaryOp := all.find? (·.symbol == s)

end BinaryOp

/-- The operator with a symbol. -/
def UnaryOp.ofSymbol? (s : String) : Option UnaryOp :=
  [UnaryOp.neg, .not].find? (·.symbol == s)

/-- An expression. -/
inductive Expr where
  | literal (datum : Datum) (span : Span)
  | ref (name : Ident) (span : Span)
  /-- An attribute of the node that a name is bound to. -/
  | attr (target field : Ident) (span : Span)
  | unary (op : UnaryOp) (operand : Expr) (span : Span)
  | binary (op : BinaryOp) (left right : Expr) (span : Span)
  /-- A call of a builtin or of a user function.  The call itself stands at `site`. -/
  | call (callee : Ident) (args : List Expr) (site span : Span)
  | list (items : List Expr) (span : Span)
deriving Repr

/-- Where an expression stands. -/
def Expr.span : Expr → Span
  | .literal _ s | .ref _ s | .attr _ _ s | .unary _ _ s | .binary _ _ _ s | .call _ _ _ s
  | .list _ s => s

end Arbor
