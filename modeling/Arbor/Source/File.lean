import Arbor.Source.Span

/-!
# Source files

Spans count bytes; people count lines and columns.  A file keeps the offsets at which its lines
start.  `SourceFile.position` finds the line of an offset by bisection of that table, and counts the
characters up to the offset in its line, so that a marker drawn under a line stands where the text
stands.  `SourceFile.line?` cuts a line out of the text.
-/

namespace Arbor

/-- A place in a text, both counts from zero. -/
structure Position where
  line : Nat
  column : Nat
deriving DecidableEq, Repr

namespace SourceFile

/-- The offsets behind the line ends of a text that starts at a given offset. -/
def lineEnds : (offset : Nat) → List Char → List Nat
  | _, [] => []
  | offset, c :: cs =>
    let next := offset + c.utf8Size
    if c = '\n' then next :: lineEnds next cs else lineEnds next cs

/-- The offsets at which the lines of a text start. -/
def lineTable (text : String) : Array Nat := (0 :: lineEnds 0 text.toList).toArray

end SourceFile

/-- A file's path and text, and the offsets at which its lines start. -/
structure SourceFile where
  path : String
  text : String
  lineStarts : Array Nat
  lineStarts_eq : lineStarts = SourceFile.lineTable text
deriving DecidableEq, Repr

/-- The files of a compilation; a file's index is the source number of its spans. -/
abbrev Sources := List SourceFile

namespace SourceFile

/-- A file with its table of lines. -/
def ofText (path text : String) : SourceFile := ⟨path, text, lineTable text, rfl⟩

/-- Searches an ascending table between two indices.  The answer is the index of the entry, or else
the one at which it belongs. -/
def bisect (table : Array Nat) (x lo hi : Nat) (hhi : hi ≤ table.size) : Except Nat Nat :=
  if hlt : lo < hi then
    let mid := (lo + hi) / 2
    have hmid : mid < hi := by omega
    match compare table[mid] x with
    | .eq => .ok mid
    | .lt => bisect table x (mid + 1) hi hhi
    | .gt => bisect table x lo mid (by omega)
  else .error lo
termination_by hi - lo

/-- The text between two offsets, if they are in order and both lie between characters. -/
def slice? (text : String) (start stop : Nat) : Option String :=
  if start ≤ stop ∧ String.Pos.Raw.IsValid text ⟨start⟩ ∧ String.Pos.Raw.IsValid text ⟨stop⟩ then
    some (String.Pos.Raw.extract text ⟨start⟩ ⟨stop⟩)
  else none

/-- Drops the carriage returns at the end of a line. -/
def dropReturns (cs : List Char) : List Char := (cs.reverse.dropWhile (· == '\r')).reverse

/-- The number of the line in which an offset lies. -/
def lineOf (f : SourceFile) (offset : Nat) : Nat :=
  match bisect f.lineStarts offset 0 f.lineStarts.size (Nat.le_refl _) with
  | .ok line => line
  | .error next => next - 1

/-- The place of a byte offset.  An offset past the end is taken for the end.  An offset inside a
character has no column in characters, and is given its distance from the start of the line in
bytes. -/
def position (f : SourceFile) (offset : Nat) : Position :=
  let offset := min offset f.text.utf8ByteSize
  let line := f.lineOf offset
  let start := f.lineStarts[line]?.getD 0
  match slice? f.text start offset with
  | some before => ⟨line, before.length⟩
  | none => ⟨line, offset - start⟩

/-- The offset of the end of a line. -/
def lineStop (f : SourceFile) (n : Nat) : Nat :=
  match f.lineStarts[n + 1]? with
  | some next => next - 1
  | none => f.text.utf8ByteSize

/-- The text of a line without its end, counting from zero. -/
def line? (f : SourceFile) (n : Nat) : Option String := do
  let start ← f.lineStarts[n]?
  let line ← slice? f.text start (f.lineStop n)
  return String.ofList (dropReturns line.toList)

end SourceFile

end Arbor
