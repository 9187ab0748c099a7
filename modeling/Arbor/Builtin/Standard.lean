import Arbor.Builtin.Overload

/-!
# The standard builtins

The operators of the language, each with an operation that folds it, and two functions that only
exist while the program runs: `range` and `kind`.
-/

namespace Arbor.Builtins

/-- An operator on operands of one scalar type. -/
private def operator (name : String) (operands : List Tag) (result : Tag) (opcode : Opcode)
    (operation : Operation) : Builtin where
  name := name
  params := operands.map ValueType.of
  returns := ValueType.of result
  opcode := opcode
  native := some operation.fold

/-- The builtins of the language. -/
def standard : Builtins where
  entries :=
    [operator "+" [.num, .num] .num .add .add,
     operator "+" [.str, .str] .str .add .add,
     operator "-" [.num, .num] .num .sub .sub,
     operator "*" [.num, .num] .num .mul .mul,
     operator "/" [.num, .num] .num .div .div,
     operator "-" [.num] .num .neg .neg] ++
    [Tag.num, .str, .bool, .kind, .none].flatMap (fun t =>
      [operator "==" [t, t] .bool .eq .eq, operator "!=" [t, t] .bool .ne .ne]) ++
    [operator "<" [.num, .num] .bool .lt .lt,
     operator "<=" [.num, .num] .bool .le .le,
     operator ">" [.num, .num] .bool .gt .gt,
     operator ">=" [.num, .num] .bool .ge .ge,
     operator "*=" [.num, .num] .bool .multipleOf .multipleOf,
     operator "**=" [.num, .num] .bool .powerOf .powerOf,
     operator "&&" [.bool, .bool] .bool .and .and,
     operator "||" [.bool, .bool] .bool .or .or,
     operator "!" [.bool] .bool .not .not,
     { name := "range"
       params := [.of .num, .of .num]
       returns := .list (.single .num)
       opcode := .range
       native := none },
     { name := "kind"
       params := [.of .node]
       returns := .of .kind
       opcode := .kindOf
       native := none }]

end Arbor.Builtins
