import Arbor.Code.Opcode
import Arbor.Source.Span
import Arbor.Text.Alphabetic
import Arbor.Value.Type

/-!
# Problems

Compilation stops at the first problem.  A `Fault` is a mistake in the program being compiled and
may point at the place of it; a `Defect` is a limit or a broken promise of the compiler itself.
Both are causes; their wording is in `Fault.message` and `Defect.message`.
-/

namespace Arbor

/-! ## Applications in messages -/

/-- Whether a builtin's name is an operator symbol: it does not start with a letter. -/
def isOperatorName (name : String) : Bool :=
  match name.toList with
  | [] => true
  | c :: _ => !Text.isAlphabetic c

/-- The shape of an application with symbols around or before its operands. -/
def operatorForm (name : String) : List String → String
  | [a] => name ++ a
  | [a, b] => a ++ " " ++ name ++ " " ++ b
  | args => name ++ "(" ++ String.intercalate ", " args ++ ")"

/-- The shape of a function call. -/
def callForm (name : String) (args : List String) : String :=
  name ++ "(" ++ String.intercalate ", " args ++ ")"

/-- An application to arguments of given types, written as the name suggests. -/
def describeApplication (name : String) (args : List ValueType) : String :=
  let args := args.map ValueType.text
  if isOperatorName name then operatorForm name args else callForm name args

/-! ## Causes -/

/-- A mistake in the program being compiled. -/
inductive Fault where
  | undefinedIdentifier
  | undefinedMain
  | noMapping
  /-- Every mapping waits for some label. -/
  | noUnconditionalMapping
  | unknownOptimization (name : String)
  | notEnoughArguments
  | tooManyArguments
  | expectedArguments (count : Nat)
  | notCompatible (actual expected : ValueType)
  | nestedList
  | voidDefinition
  | alreadyDefined
  | finalAssignment
  | assignmentMismatch (value binding : ValueType)
  | noOverload (name : String) (args : List ValueType)
  | recursiveFunction
  | recursiveConstraint
  /-- A folded operation has no result on these operands. -/
  | arithmetic (name : String) (operands : List Datum)
  /-- The program itself failed while it was folded. -/
  | failed (text : String)
  /-- A constant was defined by a value that is not known yet. -/
  | runtimeConstant
  /-- A constraint needs a value that is not known yet. -/
  | notKnown
deriving DecidableEq, Repr

/-- A limit of the object format, or a promise of the compiler that was broken. -/
inductive Defect where
  | indexTooLarge (what : String) (index : Nat)
  | jumpTooFar (distance : Nat)
  | outOfSlots
  | unregisteredOperator (symbol : String)
  | opcodesDisagree (name : String)
  | ambiguousOverload (name : String) (args : List ValueType)
  /-- A condition has the type of a boolean and no truth value. -/
  | booleanMissing
  | nestedListLoaded
  /-- A name has the type of a node and no slot. -/
  | nodeWithoutStorage
  | constantReassigned
  | storageMissing
  | returnOutsideFrame
  | returnIntoClosedFrame
  | mappingFrameMissing
  | callFrameMissing
  | callFrameLeftOpen
  | unresolvedJump (opcode : Opcode) (index : Nat)
  | staleAnchor
deriving DecidableEq, Repr

/-- Why compilation stopped. -/
inductive Problem where
  | fault (cause : Fault) (span : Option Span)
  | defect (cause : Defect)
deriving DecidableEq, Repr

/-! ## Wording -/

/-- The message for a mistake. -/
def Fault.message : Fault → String
  | .undefinedIdentifier => "undefined identifier"
  | .undefinedMain => "undefined main constraint"
  | .noMapping => "no mapping"
  | .noUnconditionalMapping => "no unconditional mapping"
  | .unknownOptimization name => "unknown optimization " ++ name
  | .notEnoughArguments => "not enough arguments"
  | .tooManyArguments => "too many arguments"
  | .expectedArguments n => "expected " ++ toString n ++ " arguments"
  | .notCompatible actual expected =>
    "argument " ++ actual.text ++ " not compatible with " ++ expected.text
  | .nestedList => "nested lists are not supported"
  | .voidDefinition => "cannot define void value"
  | .alreadyDefined => "identifier is already defined"
  | .finalAssignment => "cannot assign to final identifier"
  | .assignmentMismatch value binding =>
    "cannot assign " ++ value.text ++ " to " ++ binding.text ++ " identifier"
  | .noOverload name args =>
    (if isOperatorName name then "undefined operator " else "undefined function ") ++
      describeApplication name args
  | .recursiveFunction => "recursive function call"
  | .recursiveConstraint => "recursive constraint"
  | .arithmetic name operands =>
    "arithmetic error: " ++ operatorForm name (operands.map Datum.text)
  | .failed text => text
  | .runtimeConstant => "cannot assign runtime value"
  | .notKnown => "expression is not known at compile time"

/-- The message for a limit or a broken promise. -/
def Defect.message : Defect → String
  | .indexTooLarge what index => what ++ " index " ++ toString index ++ " exceeds one byte"
  | .jumpTooFar distance => "jump offset " ++ toString distance ++ " exceeds one byte"
  | .outOfSlots => "storage slot index exceeds one byte"
  | .unregisteredOperator symbol => "operator '" ++ symbol ++ "' is not registered"
  | .opcodesDisagree name => "overloads of '" ++ name ++ "' disagree on their opcode"
  | .ambiguousOverload name args => "ambiguous overload " ++ describeApplication name args
  | .booleanMissing => "boolean value without boolean data"
  | .nestedListLoaded => "nested list reached the emitter"
  | .nodeWithoutStorage => "node binding without storage"
  | .constantReassigned => "constant binding reassigned in emitted code"
  | .storageMissing => "runtime value assigned to a constant binding without storage"
  | .returnOutsideFrame => "return outside of a frame"
  | .returnIntoClosedFrame => "return into a closed frame"
  | .mappingFrameMissing => "mapping frame is missing"
  | .callFrameMissing => "inlined call frame is missing"
  | .callFrameLeftOpen => "inlined call frame left open"
  | .unresolvedJump op index =>
    "unresolved " ++ op.mnemonic ++ " at instruction " ++ toString index
  | .staleAnchor => "jump anchor does not refer to a reserved jump"

/-! ## Raising -/

/-- A fault at a place. -/
def Fault.atSpan (cause : Fault) (span : Span) : Problem := .fault cause (some span)

/-- A fault of the program as a whole. -/
def Fault.overall (cause : Fault) : Problem := .fault cause none

end Arbor
