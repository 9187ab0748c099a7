import Arbor.Problem.Diagnostic
import Arbor.Proofs.Source.Table
import Mathlib.Data.List.Forall2

/-!
# What a diagnostic underlines

A diagnostic shows each of its spans by three lines: a header, the line of the file in which the
span starts, and a marker under it.  Spans count bytes, markers stand under characters.  If a span
is made up of whole characters, then the carets stand under just these, or, if the span goes on in
the next line, under the rest of its first line.

* `Span.Location`: where a span lies in the text of a file.
* `Span.Location.Underlined`: what carets have to stand under.
* `Diagnostic.render_underlines`: the carets of a diagnostic do.
-/

namespace Arbor

namespace Span

/-- A span of whole characters of a file, at least one. -/
structure Proper (span : Span) (f : SourceFile) : Prop where
  start_lt_stop : span.start < span.stop
  isValid_start : String.Pos.Raw.IsValid f.text ⟨span.start⟩
  isValid_stop : String.Pos.Raw.IsValid f.text ⟨span.stop⟩

/-- Where a span lies in the text of a file. -/
structure Location (span : Span) (f : SourceFile) where
  /-- The place at which the span starts. -/
  place : Place
  /-- The text of the span. -/
  spanned : List Char
  /-- The text after the span. -/
  behind : List Char
  text_eq : f.text.toList = place.before ++ place.after
  after_eq : place.after = spanned ++ behind
  start_eq : (String.ofList place.before).utf8ByteSize = span.start
  stop_eq : (String.ofList (place.before ++ spanned)).utf8ByteSize = span.stop

namespace Location

variable {span : Span} {f : SourceFile}

/-- The dots that follow a line in which the span does not end. -/
def dots (l : Location span f) : String := if '\n' ∈ l.spanned then "..." else ""

/-- The line in which the span starts, as it is shown. -/
def shown (l : Location span f) : String := String.ofList l.place.line ++ l.dots

/-- A number of carets, from where the span starts, stand under what is spanned in the line. -/
structure Underlined (l : Location span f) (carets : Nat) : Prop where
  /-- They stand under a span that does not leave its line. -/
  inside : '\n' ∉ l.spanned → carets = l.spanned.length ∧
    (l.shown.toList.drop l.place.head.length).take carets = l.spanned
  /-- They stand under what is left of the line, if the span leaves it. -/
  across : '\n' ∈ l.spanned → l.place.rest ≠ [] → carets = l.place.rest.length ∧
    (l.shown.toList.drop l.place.head.length).take carets = l.place.rest
  /-- If nothing is left of the line, there is one. -/
  atEnd : '\n' ∈ l.spanned → l.place.rest = [] → carets = 1

/-- The three lines that show a span. -/
def excerpt (l : Location span f) (carets : Nat) : String :=
  f.path ++ " @ line " ++ toString (1 + l.place.before.count '\n') ++ "\n" ++
    ">> " ++ l.shown ++ "\n" ++
    ">> " ++ String.ofList (List.replicate l.place.head.length ' ' ++ List.replicate carets '^') ++
      "\n"

/-! ### Positions -/

variable (l : Location span f)

lemma position_start :
    f.position span.start = ⟨l.place.before.count '\n', l.place.head.length⟩ := by
  rw [← l.start_eq, l.place.position_eq l.text_eq]

lemma position_stop :
    f.position span.stop = l.spanned.foldl Position.next (f.position span.start) := by
  have htext : f.text.toList = (l.place.before ++ l.spanned) ++ l.behind := by
    rw [l.text_eq, l.after_eq, List.append_assoc]
  rw [← l.stop_eq, SourceFile.position_eq_foldl htext, List.foldl_append, ← l.start_eq,
    SourceFile.position_eq_foldl l.text_eq]

/-- The span ends in the line in which it starts unless it spans a line end. -/
lemma line_stop_eq_iff : (f.position span.stop).line = (f.position span.start).line ↔
    '\n' ∉ l.spanned := by
  rw [l.position_stop, Position.line_foldl_next, Nat.add_eq_left, List.count_eq_zero]

lemma column_stop (h : '\n' ∉ l.spanned) :
    (f.position span.stop).column = l.place.head.length + l.spanned.length := by
  rw [l.position_stop, Position.column_foldl_next _ h, l.position_start]

lemma spanned_ne_nil (h : span.start < span.stop) : l.spanned ≠ [] := by
  intro hnil
  have hstop := l.stop_eq
  rw [hnil, List.append_nil, l.start_eq] at hstop
  omega

/-! ### The marker -/

/-- How many carets there are in the marker of the span. -/
def carets : Nat :=
  Diagnostic.markerWidth (f.position span.start) (f.position span.stop) l.place.line.length

lemma carets_of_not_mem (h : '\n' ∉ l.spanned) (hspan : span.start < span.stop) :
    l.carets = l.spanned.length := by
  have hpos := List.length_pos_iff.2 (l.spanned_ne_nil hspan)
  rw [carets, Diagnostic.markerWidth, if_pos (l.line_stop_eq_iff.2 h), l.column_stop h,
    l.position_start, Nat.add_sub_cancel_left]
  omega

lemma carets_of_mem (h : '\n' ∈ l.spanned) : l.carets = max l.place.rest.length 1 := by
  have hlines : (f.position span.stop).line ≠ (f.position span.start).line :=
    fun heq => l.line_stop_eq_iff.1 heq h
  rw [carets, Diagnostic.markerWidth, if_neg hlines, l.position_start, Place.line,
    List.length_append, Nat.add_sub_cancel_left]

lemma drop_shown : l.shown.toList.drop l.place.head.length = l.place.rest ++ l.dots.toList := by
  simp [shown, Place.line]

lemma underlined_carets (hspan : span.start < span.stop) : l.Underlined l.carets where
  inside h := by
    obtain ⟨more, hmore⟩ := l.place.isPrefix_rest h (l.after_eq ▸ List.prefix_append _ _)
    rw [l.carets_of_not_mem h hspan, drop_shown, ← hmore]
    simp
  across h hrest := by
    have hpos := List.length_pos_iff.2 hrest
    have hcarets : l.carets = l.place.rest.length := by
      rw [l.carets_of_mem h]
      omega
    rw [hcarets, drop_shown]
    simp
  atEnd h hrest := by
    rw [l.carets_of_mem h, hrest]
    rfl

/-- The excerpt that shows a span of a file without carriage returns. -/
lemma excerpt_eq (hreturn : '\r' ∉ f.text.toList) :
    Diagnostic.excerpt f span = l.excerpt l.carets := by
  have hline : f.line? (f.position span.start).line = some (String.ofList l.place.line) := by
    rw [l.position_start, l.place.line?_eq l.text_eq hreturn]
  have hdots : (if (f.position span.stop).line = (f.position span.start).line then "" else "...")
      = l.dots := by
    rw [dots]
    by_cases h : '\n' ∈ l.spanned
    · rw [if_pos h, if_neg fun heq => l.line_stop_eq_iff.1 heq h]
    · rw [if_neg h, if_pos (l.line_stop_eq_iff.2 h)]
  rw [Diagnostic.excerpt, excerpt]
  simp only [hline, hdots, Option.getD_some, String.length_ofList]
  simp only [carets, shown, l.position_start, String.append_assoc, Nat.add_comm 1]

end Location

/-- A span of whole characters lies somewhere in the text. -/
lemma Proper.nonempty_location {span : Span} {f : SourceFile} (h : span.Proper f) :
    Nonempty (Location span f) := by
  obtain ⟨s₁, s₂, hs, hstart⟩ := String.Pos.Raw.isValid_iff_exists_append.1 h.isValid_start
  obtain ⟨t₁, t₂, ht, hstop⟩ := String.Pos.Raw.isValid_iff_exists_append.1 h.isValid_stop
  have hsize₁ : span.start = s₁.utf8ByteSize := congrArg String.Pos.Raw.byteIdx hstart
  have hsize₂ : span.stop = t₁.utf8ByteSize := congrArg String.Pos.Raw.byteIdx hstop
  have hsplit : s₁.toList ++ s₂.toList = t₁.toList ++ t₂.toList := by
    rw [← String.toList_append, ← String.toList_append, ← hs, ← ht]
  rcases List.append_eq_append_iff.1 hsplit with ⟨spanned, hspanned, hs₂⟩ | ⟨more, hmore, -⟩
  · obtain ⟨p, hbefore, hafter⟩ := Place.exists_place s₁.toList s₂.toList
    refine ⟨⟨p, spanned, t₂.toList, ?_, hafter.trans hs₂, ?_, ?_⟩⟩
    · rw [hbefore, hafter, hs, String.toList_append]
    · rw [hbefore, String.ofList_toList, hsize₁]
    · rw [hbefore, ← hspanned, String.ofList_toList, hsize₂]
  · -- The text before the span cannot be longer than the text up to its end.
    have hle : t₁.utf8ByteSize ≤ s₁.utf8ByteSize := by
      rw [← String.ofList_toList (s := s₁), hmore, String.ofList_append, String.ofList_toList,
        String.utf8ByteSize_append]
      exact Nat.le_add_right _ _
    have hlt := h.start_lt_stop
    omega

end Span

namespace Diagnostic

/-- A span of one of the files is shown by a text, with carets under what is spanned. -/
def Shows (sources : Sources) (span : Span) (text : String) : Prop :=
  ∃ f, sources[span.source]? = some f ∧
    ∃ (l : span.Location f) (carets : Nat), l.Underlined carets ∧ text = l.excerpt carets

lemma shows_locate {sources : Sources} {span : Span} {f : SourceFile}
    (hf : sources[span.source]? = some f) (hspan : span.Proper f)
    (hreturn : '\r' ∉ f.text.toList) : Shows sources span (locate sources span) := by
  obtain ⟨l⟩ := hspan.nonempty_location
  refine ⟨f, hf, l, l.carets, l.underlined_carets hspan.start_lt_stop, ?_⟩
  rw [locate, hf]
  exact l.excerpt_eq hreturn

/-- **A diagnostic underlines what is spanned.**  Where its spans are made up of whole characters of
files without carriage returns, it shows each of them by an excerpt of the file.  The excerpt gives
the number of the line in which the span starts, which is one more than the number of line ends
before it; then the line, with dots if the span does not end there; and then, behind as many blanks
as there are characters in the line before the span, carets under what is spanned. -/
theorem render_underlines (sources : Sources) (message : String) (spans : List Span)
    (h : ∀ span ∈ spans, ∃ f, sources[span.source]? = some f ∧ span.Proper f ∧
      '\r' ∉ f.text.toList) :
    ∃ texts, List.Forall₂ (Shows sources) spans texts ∧
      (Diagnostic.fatal message spans).render sources =
        String.join texts ++ ("fatal problem: " ++ message) := by
  refine ⟨spans.map (locate sources), ?_, rfl⟩
  rw [List.forall₂_map_right_iff, List.forall₂_same]
  intro span hspan
  obtain ⟨f, hf, hproper, hreturn⟩ := h span hspan
  exact shows_locate hf hproper hreturn

/-- A file of two lines, with characters of two bytes. -/
def sizeFile : SourceFile := .ofText "main.src" "größe = x\n  + y;"

/-- The first span lies in the first line, the second goes on in the second line, and the third is
the end of the first line. -/
def sizeSpans : List Span := [⟨0, 2, 6⟩, ⟨0, 10, 15⟩, ⟨0, 11, 12⟩]

/-- What is shown of these spans. -/
theorem render_underlines_sizeSpans :
    (∀ span ∈ sizeSpans, ∃ f, [sizeFile][span.source]? = some f ∧ span.Proper f ∧
      '\r' ∉ f.text.toList) ∧
    ∃ texts, List.Forall₂ (Shows [sizeFile]) sizeSpans texts ∧
      String.join texts ++ ("fatal problem: " ++ "unknown size") =
        "main.src @ line 1\n>> größe = x\n>>   ^^\n" ++
        "main.src @ line 1\n>> größe = x...\n>>         ^\n" ++
        "main.src @ line 1\n>> größe = x...\n>>          ^\n" ++
        "fatal problem: unknown size" := by
  have hspans : ∀ span ∈ sizeSpans, ∃ f, [sizeFile][span.source]? = some f ∧ span.Proper f ∧
      '\r' ∉ f.text.toList := by
    intro span hspan
    simp only [sizeSpans, List.mem_cons, List.not_mem_nil, or_false] at hspan
    rcases hspan with rfl | rfl | rfl
    all_goals
      exact ⟨sizeFile, rfl, ⟨by decide, by decide +kernel, by decide +kernel⟩, by decide +kernel⟩
  obtain ⟨texts, hshown, hrender⟩ := render_underlines [sizeFile] "unknown size" sizeSpans hspans
  refine ⟨hspans, texts, hshown, hrender.symm.trans ?_⟩
  decide +kernel

end Diagnostic

end Arbor
