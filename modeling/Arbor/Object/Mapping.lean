/-!
# Compiled mappings

A mapping of an object is the code that runs on a node, together with its activation labels.
-/

namespace Arbor

/-- A compiled mapping. -/
structure Mapping where
  name : String
  /-- The activation labels, by their index in the constraint; none if unconditional. -/
  labels : List Nat
  /-- The instructions, two bytes each. -/
  code : List UInt8
deriving DecidableEq, Repr

end Arbor
