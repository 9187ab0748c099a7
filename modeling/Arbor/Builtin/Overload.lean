import Arbor.Builtin.Operation
import Arbor.Problem.Basic

/-!
# Overloads

A builtin has fixed parameter types, a return type, the one opcode that stands for it in code and,
if it can be folded, a function that folds it.  Several builtins may share a name.

Overloads are resolved in two ways.  `Overloads.infer` serves emitted code, where types are only
bounds: it joins the return types of all overloads that fit.  `Overloads.select` serves folding,
where the types are those of data: exactly one overload must fit.
-/

namespace Arbor

/-- What a builtin computes when its arguments are known. -/
abbrev Native := List Datum → Folded

/-- One overload of a builtin. -/
structure Builtin where
  name : String
  params : List ValueType
  returns : ValueType
  opcode : Opcode
  /-- None for what only exists while the program runs. -/
  native : Option Native

namespace Builtin

/-- The number of parameters. -/
def arity (b : Builtin) : Nat := b.params.length

/-- Whether each argument type is compatible with its parameter. -/
def acceptsAll : (params args : List ValueType) → Bool
  | [], [] => true
  | p :: ps, a :: as => p.compatible a && acceptsAll ps as
  | _, _ => false

/-- Whether the parameters fit the argument types. -/
def accepts (b : Builtin) (args : List ValueType) : Bool := acceptsAll b.params args

end Builtin

/-- The overloads that share a name, in order of registration. -/
structure Overloads where
  name : String
  candidates : List Builtin

namespace Overloads

/-- Some overload has the given number of parameters. -/
def checkArity (o : Overloads) (arity : Nat) (span : Span) : Except Problem Unit :=
  if o.candidates.any (·.arity == arity) then pure ()
  else throw ((Fault.expectedArguments ((o.candidates.head?.map Builtin.arity).getD 0)).atSpan span)

/-- The return type and opcode of an application whose argument types are bounds: the join over all
overloads that fit, which must share their opcode. -/
def infer (o : Overloads) (args : List ValueType) (span : Span) :
    Except Problem (ValueType × Opcode) :=
  match o.candidates.filter (·.accepts args) with
  | [] => throw ((Fault.noOverload o.name args).atSpan span)
  | b :: others =>
    if others.all (·.opcode == b.opcode) then
      pure ((others.map Builtin.returns).foldl ValueType.join b.returns, b.opcode)
    else throw (.defect (.opcodesDisagree o.name))

/-- The one overload that fits the types of known arguments. -/
def select (o : Overloads) (args : List ValueType) (span : Span) : Except Problem Builtin :=
  match o.candidates.filter (·.accepts args) with
  | [] => throw ((Fault.noOverload o.name args).atSpan span)
  | [b] => pure b
  | _ => throw (.defect (.ambiguousOverload o.name args))

/-- Folds an application to known arguments.  There is no result yet if the overload can only run
later, or declines its arguments. -/
def fold (o : Overloads) (args : List Datum) (span : Span) : Except Problem (Option Datum) := do
  let b ← o.select (args.map Datum.type) span
  match b.native with
  | none => pure none
  | some native =>
    match native args with
    | .value d => pure (some d)
    | .declined => pure none
    | .undefined => throw ((Fault.arithmetic b.name args).atSpan span)

end Overloads

/-- All builtins of a compilation, in order of registration. -/
structure Builtins where
  entries : List Builtin := []

namespace Builtins

/-- Adds an overload after those of its name. -/
def register (t : Builtins) (b : Builtin) : Builtins := ⟨t.entries ++ [b]⟩

/-- The overloads with a name, if there are any. -/
def overloads? (t : Builtins) (name : String) : Option Overloads :=
  match t.entries.filter (·.name == name) with
  | [] => none
  | b :: bs => some ⟨name, b :: bs⟩

end Builtins

end Arbor
