import Arbor.Problem.Basic
import Arbor.Text.Blank

/-!
# Settings

Optimizations are switched by flags that apply from left to right, starting with everything on:
`all` and `none` switch all of them, a name switches one on and `no-` before a name switches it
off.  Blank flags say nothing.
-/

namespace Arbor

/-- An optional transformation of what is compiled. -/
inductive Optimization where
  /-- A constraint block with a single goal is replaced by that goal. -/
  | redundantQuantifier
deriving DecidableEq, Repr

namespace Optimization

/-- Every optimization. -/
def all : List Optimization := [.redundantQuantifier]

/-- The name of an optimization in flags. -/
def name : Optimization → String
  | .redundantQuantifier => "redundant-quantifier"

/-- The optimization with a name. -/
def ofName? (s : String) : Option Optimization := all.find? (·.name == s)

end Optimization

/-- The settings of a compilation. -/
structure Config where
  redundantQuantifier : Bool
deriving DecidableEq, Repr

namespace Config

/-- Everything on. -/
def optimized : Config := ⟨true⟩

/-- Everything off. -/
def unoptimized : Config := ⟨false⟩

instance : Inhabited Config := ⟨optimized⟩

/-- Whether an optimization is on. -/
def isEnabled (c : Config) : Optimization → Bool
  | .redundantQuantifier => c.redundantQuantifier

/-- Switches an optimization. -/
def set (c : Config) (o : Optimization) (on : Bool) : Config :=
  match o with
  | .redundantQuantifier => { c with redundantQuantifier := on }

@[simp] theorem isEnabled_set (c : Config) (o : Optimization) (on : Bool) :
    (c.set o on).isEnabled o = on := by
  cases o; rfl

/-- The optimization a flag names, and whether the flag switches it on. -/
def readFlag (flag : String) : String × Bool :=
  match flag.toList with
  | 'n' :: 'o' :: '-' :: name => (String.ofList name, false)
  | _ => (flag, true)

/-- Applies one flag. -/
def applyFlag (c : Config) (flag : String) : Except Problem Config :=
  let flag := Text.trimBlanks flag
  if flag = "" then pure c
  else if flag = "all" then pure optimized
  else if flag = "none" then pure unoptimized
  else
    let (name, on) := readFlag flag
    match Optimization.ofName? name with
    | some o => pure (c.set o on)
    | none => throw (Fault.unknownOptimization name).overall

/-- The settings that flags ask for. -/
def ofFlags (flags : List String) : Except Problem Config := flags.foldlM applyFlag optimized

end Config

end Arbor
