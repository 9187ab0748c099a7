import Arbor.Code.Listing
import Arbor.Constraint.Tree
import Arbor.Object.Constant
import Arbor.Object.Mapping

/-!
# Objects

An object is what a file is compiled to: the version of the format, the tree of the main constraint,
the constants that the code refers to, and the mappings.  `Object.listing` is the text of all of it.
-/

namespace Arbor

/-- The version of the format to which files are compiled. -/
def Object.currentVersion : String := "0.4.0"

/-- What a file is compiled to. -/
structure Object where
  version : String
  constraint : Tree
  constants : List Constant
  mappings : List Mapping
deriving DecidableEq, Repr

namespace Object

/-- The first mapping with a name. -/
def mapping? (o : Object) (name : String) : Option Mapping := o.mappings.find? (·.name == name)

/-- The text of a list of indices. -/
def listIndices (is : List Nat) : String :=
  "[" ++ String.intercalate ", " (is.map toString) ++ "]"

/-- The listing of a mapping. -/
def listMapping (m : Mapping) : String :=
  "\nmapping " ++ m.name ++ " " ++ listIndices m.labels ++ "\n" ++ Code.listing m.code

/-- The listing of an object: constraint, constants and mappings. -/
def listing (o : Object) : String :=
  "version " ++ o.version ++ "\n" ++
    "constraint " ++ o.constraint.text ++ "\n" ++
    "\nconstants\n" ++ Constant.listing o.constants ++
    String.join (o.mappings.map listMapping)

end Object

end Arbor
