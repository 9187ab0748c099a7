/-!
# Spans and identifiers

A span names a stretch of a source file by byte offsets.  Identifiers carry the span at which they
occur, for problems to point at.
-/

namespace Arbor

/-- The bytes from `start` up to and without `stop` of the source with number `source`. -/
structure Span where
  source : Nat
  start : Nat
  stop : Nat
deriving DecidableEq, Repr

namespace Span

/-- The span of what no source text holds. -/
def nowhere : Span := ⟨0, 0, 0⟩

instance : Inhabited Span := ⟨nowhere⟩

/-- The text of a span. -/
def text (s : Span) : String :=
  toString s.source ++ ":" ++ toString s.start ++ ".." ++ toString s.stop

end Span

/-- One occurrence of a name. -/
structure Ident where
  name : String
  span : Span := .nowhere
deriving DecidableEq, Inhabited, Repr

end Arbor
