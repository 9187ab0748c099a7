import Arbor.Problem.Basic

/-!
# Checks

Conditions that several phases of compilation ask for, each with the fault raised when it fails.
-/

namespace Arbor.Check

/-- A call of a user definition has as many arguments as there are parameters. -/
def arguments (params args : Nat) (span : Span) : Except Problem Unit :=
  if args < params then throw (Fault.notEnoughArguments.atSpan span)
  else if params < args then throw (Fault.tooManyArguments.atSpan span)
  else pure ()

/-- A call that is inlined has as many arguments as there are parameters. -/
def argumentCount (params args : Nat) (span : Span) : Except Problem Unit :=
  if args = params then pure () else throw ((Fault.expectedArguments params).atSpan span)

/-- A value is used where its type fits. -/
def compatible (actual expected : ValueType) (span : Span) : Except Problem Unit :=
  if actual.compatible expected then pure ()
  else throw ((Fault.notCompatible actual expected).atSpan span)

/-- Lists hold scalars only. -/
def listItem (type : ValueType) (span : Span) : Except Problem Unit :=
  if type.isList then throw (Fault.nestedList.atSpan span) else pure ()

theorem arguments_eq_ok_iff {params args : Nat} {span : Span} :
    arguments params args span = .ok () ↔ args = params := by
  unfold arguments
  split
  · simp [throw, throwThe, MonadExceptOf.throw]; omega
  · split
    · simp [throw, throwThe, MonadExceptOf.throw]; omega
    · simp [pure, Except.pure]; omega

theorem argumentCount_eq_ok_iff {params args : Nat} {span : Span} :
    argumentCount params args span = .ok () ↔ args = params := by
  unfold argumentCount
  split
  · simp [pure, Except.pure, *]
  · simp [throw, throwThe, MonadExceptOf.throw, *]

end Arbor.Check
