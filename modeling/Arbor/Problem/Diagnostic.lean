import Arbor.Problem.Basic
import Arbor.Source.File

/-!
# Diagnostics

A diagnostic is a problem as it is shown: its message and the places it points at.  Each place is
shown by a header with path and line number, the line, and a marker under the spanned columns:

    main.src @ line 3
    >>     x = y + 1;
    >>         ^
    fatal problem: undefined identifier

A span that goes on past its first line is marked to the end of that line, which is then followed
by dots.  A marker is never empty.
-/

namespace Arbor

/-- A problem as it is shown. -/
inductive Diagnostic where
  | fatal (message : String) (spans : List Span)
  | internal (message : String)
deriving DecidableEq, Repr

namespace Diagnostic

/-- The bare message. -/
def message : Diagnostic → String
  | .fatal m _ => m
  | .internal m => m

/-- The places pointed at. -/
def spans : Diagnostic → List Span
  | .fatal _ ss => ss
  | .internal _ => []

/-- The message with its severity. -/
def headline : Diagnostic → String
  | .fatal m _ => "fatal problem: " ++ m
  | .internal m => "internal problem: " ++ m

/-- How many columns the marker of a span covers, on a line of the given width. -/
def markerWidth (start stop : Position) (lineWidth : Nat) : Nat :=
  max ((if stop.line = start.line then stop.column else lineWidth) - start.column) 1

/-- The excerpt of a file that shows a span. -/
def excerpt (f : SourceFile) (span : Span) : String :=
  let start := f.position span.start
  let stop := f.position span.stop
  let line := (f.line? start.line).getD ""
  let dots := if stop.line = start.line then "" else "..."
  let marker := List.replicate start.column ' ' ++
    List.replicate (markerWidth start stop line.length) '^'
  f.path ++ " @ line " ++ toString (start.line + 1) ++ "\n" ++
    ">> " ++ line ++ dots ++ "\n" ++
    ">> " ++ String.ofList marker ++ "\n"

/-- What is shown for one span. -/
def locate (sources : Sources) (span : Span) : String :=
  match sources[span.source]? with
  | some f => excerpt f span
  | none => "<unknown source> @ byte " ++ toString span.start ++ "\n"

/-- The whole text of a diagnostic. -/
def render (sources : Sources) (d : Diagnostic) : String :=
  String.join (d.spans.map (locate sources)) ++ d.headline

end Diagnostic

/-- A problem as it is shown. -/
def Problem.diagnostic : Problem → Diagnostic
  | .fault cause span => .fatal cause.message span.toList
  | .defect cause => .internal cause.message

end Arbor
