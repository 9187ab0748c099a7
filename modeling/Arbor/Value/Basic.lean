import Arbor.Value.Type

/-!
# Values

While it compiles, the compiler knows of a value either the datum itself or only the type it will
have when the program runs.
-/

namespace Arbor

/-- What is known of a value at compile time. -/
inductive Value where
  /-- The datum is known. -/
  | known (datum : Datum)
  /-- Only the type is known. -/
  | runtime (type : ValueType)
deriving DecidableEq, Repr

namespace Value

/-- The type of a value. -/
def type : Value → ValueType
  | .known d => d.type
  | .runtime t => t

@[simp] theorem type_known (d : Datum) : (Value.known d).type = d.type := rfl

@[simp] theorem type_runtime (t : ValueType) : (Value.runtime t).type = t := rfl

/-- The text of a value: a datum with its type, or the type alone. -/
def text : Value → String
  | .known d => d.text ++ ": " ++ d.type.text
  | .runtime t => t.text

end Value

end Arbor
