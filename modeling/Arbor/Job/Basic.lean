import Arbor.Builtin.Standard
import Arbor.Job.Config
import Arbor.Job.Nesting
import Arbor.Problem.Check
import Arbor.Program.File

/-!
# Compilation jobs

A job is what does not change while a file is compiled: the file itself, the settings and the
builtins.  Names of the program are resolved against it.  A function that may be expanded is given
out as an `Inlinable`, which records that it belongs to the job and is not being expanded already;
a constraint type likewise as an `Expandable`.
-/

namespace Arbor

/-- What a compilation works from. -/
structure Job where
  file : File
  config : Config := .optimized
  builtins : Builtins := .standard

/-- What a call refers to. -/
inductive Callee (job : Job) where
  | builtin (overloads : Overloads)
  | function (definition : FunctionDef) (mem : definition ∈ job.file.functions)

/-- A function of the job that may be expanded while those in `entered` are being expanded. -/
structure Inlinable (job : Job) (entered : List String) where
  definition : FunctionDef
  mem : definition ∈ job.file.functions
  notEntered : definition.ident.name ∉ entered

/-- A constraint type of the job that may be expanded while those in `entered` are being
expanded. -/
structure Expandable (job : Job) (entered : List String) where
  definition : ConstraintType
  mem : definition ∈ job.file.constraintTypes
  notEntered : definition.ident.name ∉ entered

namespace Job

variable (job : Job)

/-- The names of the functions of a job. -/
def functionNames : List String := job.file.functions.map (·.ident.name)

/-- The names of the constraint types of a job. -/
def constraintNames : List String := job.file.constraintTypes.map (·.ident.name)

/-! ## Resolution -/

/-- What a call refers to: a builtin or else a function. -/
def callee (name : Ident) : Except Problem (Callee job) :=
  match job.builtins.overloads? name.name with
  | some o => pure (.builtin o)
  | none =>
    match h : job.file.function? name.name with
    | some d => pure (.function d (File.mem_functions_of_function? h))
    | none => throw (Fault.undefinedIdentifier.atSpan name.span)

/-- The overloads of an operator symbol. -/
def operator (symbol : String) : Except Problem Overloads :=
  match job.builtins.overloads? symbol with
  | some o => pure o
  | none => throw (.defect (.unregisteredOperator symbol))

/-- The main constraint. -/
def main : Except Problem MainDef :=
  match job.file.main? with
  | some d => pure d
  | none => throw Fault.undefinedMain.overall

/-- The predicate an identifier refers to. -/
def predicate (name : Ident) : Except Problem PredicateDef :=
  match job.file.predicate? name.name with
  | some d => pure d
  | none => throw (Fault.undefinedIdentifier.atSpan name.span)

/-- The constraint type an identifier refers to. -/
def constraintType (name : Ident) :
    Except Problem { d : ConstraintType // d ∈ job.file.constraintTypes } :=
  match h : job.file.constraintType? name.name with
  | some d => pure ⟨d, File.mem_constraintTypes_of_constraintType? h⟩
  | none => throw (Fault.undefinedIdentifier.atSpan name.span)

/-! ## Expansion -/

variable {job} {entered : List String}

/-- Admits a function for expansion, unless it is being expanded. -/
def enterFunction (d : FunctionDef) (mem : d ∈ job.file.functions) (span : Span) :
    Except Problem (Inlinable job entered) :=
  if h : d.ident.name ∈ entered then throw (Fault.recursiveFunction.atSpan span)
  else pure ⟨d, mem, h⟩

/-- Admits a constraint type for expansion, unless it is being expanded. -/
def enterConstraint (d : ConstraintType) (mem : d ∈ job.file.constraintTypes) (span : Span) :
    Except Problem (Expandable job entered) :=
  if h : d.ident.name ∈ entered then throw (Fault.recursiveConstraint.atSpan span)
  else pure ⟨d, mem, h⟩

end Job

namespace Inlinable

variable {job : Job} {entered : List String}

/-- The name under which a function is entered. -/
def name (g : Inlinable job entered) : String := g.definition.ident.name

theorem remaining_lt (g : Inlinable job entered) :
    Nesting.remaining job.functionNames (g.name :: entered)
      < Nesting.remaining job.functionNames entered :=
  Nesting.remaining_cons_lt (List.mem_map_of_mem g.mem) g.notEntered

end Inlinable

namespace Expandable

variable {job : Job} {entered : List String}

/-- The name under which a constraint type is entered. -/
def name (g : Expandable job entered) : String := g.definition.ident.name

theorem remaining_lt (g : Expandable job entered) :
    Nesting.remaining job.constraintNames (g.name :: entered)
      < Nesting.remaining job.constraintNames entered :=
  Nesting.remaining_cons_lt (List.mem_map_of_mem g.mem) g.notEntered

end Expandable

end Arbor
