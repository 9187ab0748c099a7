import Arbor.Source.File
import Mathlib.Data.List.Induction
import Mathlib.Data.String.Basic

/-!
# Lines and places

A place divides a text into what comes before it and what comes after it.  `Place` keeps these parts
together with the line in which the place lies: each of them is divided once more, where the line
starts and where it ends.

Positions and lines have a plain meaning.  To get to an offset one walks over the text, character by
character (`SourceFile.walk`), and the lines of a text are what is left when it is split at its line
ends (`SourceFile.splitLines`).  In terms of places, the walk leads to a line whose number is the
number of line ends before the place, and to a column that is the number of characters before it in
its line (`Place.walk_eq`).  The line with that number is the line in which the place lies
(`Place.getElem?_splitLines`).
-/

namespace Arbor

/-! ## Places -/

/-- A place in a text. -/
structure Place where
  /-- The lines above, with their ends. -/
  above : List Char
  /-- What the line has before the place. -/
  head : List Char
  /-- What the line has after the place. -/
  rest : List Char
  /-- The end of the line, and the lines below. -/
  below : List Char
  above_ends : above = [] ∨ ∃ lines, above = lines ++ ['\n']
  below_starts : below = [] ∨ ∃ lines, below = '\n' :: lines
  not_mem_head : '\n' ∉ head
  not_mem_rest : '\n' ∉ rest

namespace Place

/-- The text before the place. -/
def before (p : Place) : List Char := p.above ++ p.head

/-- The text after the place. -/
def after (p : Place) : List Char := p.rest ++ p.below

/-- The line in which the place lies. -/
def line (p : Place) : List Char := p.head ++ p.rest

lemma text_eq (p : Place) : p.before ++ p.after = p.above ++ p.line ++ p.below := by
  simp [before, after, line]

lemma not_mem_line (p : Place) : '\n' ∉ p.line := by
  simp [line, p.not_mem_head, p.not_mem_rest]

/-- The last line of a text starts after the last line end. -/
lemma exists_head (before : List Char) :
    ∃ above head, before = above ++ head ∧ (above = [] ∨ ∃ lines, above = lines ++ ['\n']) ∧
      '\n' ∉ head := by
  induction before using List.reverseRecOn with
  | nil => exact ⟨[], [], rfl, .inl rfl, List.not_mem_nil⟩
  | append_singleton cs c ih =>
    by_cases hc : c = '\n'
    · exact ⟨cs ++ [c], [], by simp, .inr ⟨cs, by rw [hc]⟩, List.not_mem_nil⟩
    · obtain ⟨above, head, rfl, habove, hhead⟩ := ih
      exact ⟨above, head ++ [c], by simp, habove, by simp [hhead, Ne.symm hc]⟩

/-- The first line of a text ends before the first line end. -/
lemma exists_rest (after : List Char) :
    ∃ rest below, after = rest ++ below ∧ (below = [] ∨ ∃ lines, below = '\n' :: lines) ∧
      '\n' ∉ rest := by
  induction after with
  | nil => exact ⟨[], [], rfl, .inl rfl, List.not_mem_nil⟩
  | cons c cs ih =>
    by_cases hc : c = '\n'
    · exact ⟨[], c :: cs, rfl, .inr ⟨cs, by rw [hc]⟩, List.not_mem_nil⟩
    · obtain ⟨rest, below, rfl, hbelow, hrest⟩ := ih
      exact ⟨c :: rest, below, rfl, hbelow, by simp [hrest, Ne.symm hc]⟩

/-- A text can be divided anywhere. -/
lemma exists_place (before after : List Char) :
    ∃ p : Place, p.before = before ∧ p.after = after := by
  obtain ⟨above, head, hbefore, habove, hhead⟩ := exists_head before
  obtain ⟨rest, below, hafter, hbelow, hrest⟩ := exists_rest after
  exact ⟨⟨above, head, rest, below, habove, hbelow, hhead, hrest⟩, hbefore.symm, hafter.symm⟩

/-- What comes after the place without a line end is in the line of the place. -/
lemma isPrefix_rest (p : Place) {cs : List Char} (h : '\n' ∉ cs) (hafter : cs <+: p.after) :
    cs <+: p.rest := by
  rcases List.prefix_or_prefix_of_prefix hafter (List.prefix_append p.rest p.below) with hcs | hcs
  · exact hcs
  · -- What is left over after the line would start with the end of the line.
    obtain ⟨more, rfl⟩ := hcs
    cases more with
    | nil => simp
    | cons c more =>
      have hbelow : c :: more <+: p.below := (List.prefix_append_right_inj _).1 hafter
      rcases p.below_starts with hnil | ⟨lines, hlines⟩
      · simp [hnil] at hbelow
      · rw [hlines, List.cons_prefix_cons] at hbelow
        simp [hbelow.1] at h

end Place

/-! ## Positions -/

namespace Position

/-- The position behind one more character. -/
def next (p : Position) (c : Char) : Position :=
  if c = '\n' then ⟨p.line + 1, 0⟩ else ⟨p.line, p.column + 1⟩

lemma line_foldl_next (p : Position) (cs : List Char) :
    (cs.foldl next p).line = p.line + cs.count '\n' := by
  induction cs generalizing p with
  | nil => rfl
  | cons c cs ih =>
    rw [List.foldl_cons, ih, List.count_cons, next]
    by_cases hc : c = '\n'
    · simp [hc]
      omega
    · simp [hc]

lemma column_foldl_next (p : Position) {cs : List Char} (h : '\n' ∉ cs) :
    (cs.foldl next p).column = p.column + cs.length := by
  induction cs generalizing p with
  | nil => rfl
  | cons c cs ih =>
    obtain ⟨hc, hcs⟩ := List.ne_and_not_mem_of_not_mem_cons h
    rw [List.foldl_cons, ih _ hcs, next, if_neg hc.symm, List.length_cons, Nat.add_right_comm,
      Nat.add_assoc]

end Position

namespace SourceFile

/-! ## Walking -/

/-- Walks `offset` bytes further from a place that is `bytes` bytes after the start of its line.
The walk ends with the text.  An offset inside a character has no column in characters, and is
given its distance from the start of the line in bytes. -/
def walk : List Char → (offset : Nat) → (bytes : Nat) → Position → Position
  | [], _, _, p => p
  | c :: cs, offset, bytes, p =>
    if offset = 0 then p
    else if offset < c.utf8Size then ⟨p.line, bytes + offset⟩
    else if c = '\n' then walk cs (offset - c.utf8Size) 0 ⟨p.line + 1, 0⟩
    else walk cs (offset - c.utf8Size) (bytes + c.utf8Size) ⟨p.line, p.column + 1⟩

/-- The bytes from the start of the line, behind one more character. -/
def nextBytes (bytes : Nat) (c : Char) : Nat := if c = '\n' then 0 else bytes + c.utf8Size

lemma foldl_nextBytes (bytes : Nat) {cs : List Char} (h : '\n' ∉ cs) :
    cs.foldl nextBytes bytes = bytes + String.utf8Len cs := by
  induction cs generalizing bytes with
  | nil => rfl
  | cons c cs ih =>
    obtain ⟨hc, hcs⟩ := List.ne_and_not_mem_of_not_mem_cons h
    rw [List.foldl_cons, ih _ hcs, nextBytes, if_neg hc.symm, String.utf8Len_cons]
    omega

lemma walk_zero (cs : List Char) (bytes : Nat) (p : Position) : walk cs 0 bytes p = p := by
  cases cs <;> rfl

/-- A walk over whole characters goes on behind them. -/
lemma walk_append (cs rest : List Char) (n bytes : Nat) (p : Position) :
    walk (cs ++ rest) (String.utf8Len cs + n) bytes p =
      walk rest n (cs.foldl nextBytes bytes) (cs.foldl Position.next p) := by
  induction cs generalizing bytes p with
  | nil => simp
  | cons c cs ih =>
    have hpos := c.utf8Size_pos
    have hleft : String.utf8Len (c :: cs) + n - c.utf8Size = String.utf8Len cs + n := by
      rw [String.utf8Len_cons]
      omega
    rw [List.cons_append, walk, hleft, if_neg (by simp; omega), if_neg (by simp; omega),
      List.foldl_cons, List.foldl_cons, Position.next, nextBytes]
    by_cases hc : c = '\n'
    · rw [if_pos hc, if_pos hc, if_pos hc, ih]
    · rw [if_neg hc, if_neg hc, if_neg hc, ih]

/-- A walk past the end of the text ends with the text. -/
lemma walk_min (cs : List Char) (offset bytes : Nat) (p : Position) :
    walk cs (min offset (String.utf8Len cs)) bytes p = walk cs offset bytes p := by
  rcases Nat.le_total offset (String.utf8Len cs) with h | h
  · rw [Nat.min_eq_left h]
  · obtain ⟨n, rfl⟩ := Nat.exists_eq_add_of_le h
    have hpast := walk_append cs [] n bytes p
    have hend := walk_append cs [] 0 bytes p
    rw [List.append_nil] at hpast hend
    rw [Nat.min_eq_right h, hpast, ← Nat.add_zero (String.utf8Len cs), hend, walk, walk]

/-! ## Lines -/

/-- Splits a text at its line ends. -/
def splitLines : List Char → List (List Char)
  | [] => [[]]
  | c :: cs =>
    if c = '\n' then [] :: splitLines cs
    else
      match splitLines cs with
      | [] => [[c]]
      | l :: ls => (c :: l) :: ls

lemma splitLines_ne_nil (cs : List Char) : splitLines cs ≠ [] := by
  cases cs with
  | nil => simp [splitLines]
  | cons c cs =>
    simp only [splitLines]
    split
    · simp
    · split <;> simp

/-- There is one line more than there are line ends. -/
lemma length_splitLines (cs : List Char) : (splitLines cs).length = cs.count '\n' + 1 := by
  induction cs with
  | nil => rfl
  | cons c cs ih =>
    rw [splitLines, List.count_cons]
    by_cases hc : c = '\n'
    · simp [hc, ih]
    · cases hsplit : splitLines cs with
      | nil => exact absurd hsplit (splitLines_ne_nil cs)
      | cons l ls =>
        rw [hsplit] at ih
        simpa [hc] using ih

/-- The first line ends before the first line end. -/
lemma getElem?_splitLines_zero {line below : List Char} (hline : '\n' ∉ line)
    (hbelow : below = [] ∨ ∃ lines, below = '\n' :: lines) :
    (splitLines (line ++ below))[0]? = some line := by
  induction line with
  | nil => rcases hbelow with rfl | ⟨lines, rfl⟩ <;> simp [splitLines]
  | cons c line ih =>
    obtain ⟨hc, hline⟩ := List.ne_and_not_mem_of_not_mem_cons hline
    have hfirst := ih hline
    rw [List.cons_append, splitLines, if_neg hc.symm]
    cases hsplit : splitLines (line ++ below) with
    | nil => exact absurd hsplit (splitLines_ne_nil _)
    | cons l ls =>
      rw [hsplit] at hfirst
      obtain rfl : l = line := by simpa using hfirst
      rfl

/-- The lines after a line end are counted from there. -/
lemma getElem?_splitLines_succ (lines rest : List Char) (n : Nat) :
    (splitLines (lines ++ '\n' :: rest))[lines.count '\n' + n + 1]? = (splitLines rest)[n]? := by
  induction lines with
  | nil => simp [splitLines]
  | cons c lines ih =>
    rw [List.cons_append, splitLines, List.count_cons, ← ih]
    by_cases hc : c = '\n'
    · rw [if_pos hc, if_pos (by simpa using hc), Nat.add_right_comm _ 1, List.getElem?_cons_succ]
    · rw [if_neg hc, if_neg (by simpa using hc), Nat.add_zero]
      cases hsplit : splitLines (lines ++ '\n' :: rest) with
      | nil => exact absurd hsplit (splitLines_ne_nil _)
      | cons l ls => rfl

end SourceFile

namespace Place

variable (p : Place)

lemma count_before : p.before.count '\n' = p.above.count '\n' := by
  rw [before, List.count_append, List.count_eq_zero.2 p.not_mem_head, Nat.add_zero]

lemma foldl_next : p.before.foldl Position.next ⟨0, 0⟩ = ⟨p.before.count '\n', p.head.length⟩ := by
  have hline := Position.line_foldl_next ⟨0, 0⟩ p.before
  have hcolumn : (p.before.foldl Position.next ⟨0, 0⟩).column = p.head.length := by
    rw [before, List.foldl_append, Position.column_foldl_next _ p.not_mem_head]
    rcases p.above_ends with habove | ⟨lines, habove⟩
    · simp [habove]
    · simp [habove, Position.next]
  rw [Nat.zero_add] at hline
  rw [← hline, ← hcolumn]

lemma foldl_nextBytes : p.before.foldl SourceFile.nextBytes 0 = String.utf8Len p.head := by
  rw [before, List.foldl_append, SourceFile.foldl_nextBytes _ p.not_mem_head]
  rcases p.above_ends with habove | ⟨lines, habove⟩
  · simp [habove]
  · simp [habove, SourceFile.nextBytes]

/-- The walk to a place, and on from there. -/
lemma walk_eq (n : Nat) : SourceFile.walk (p.before ++ p.after) (String.utf8Len p.before + n) 0
    ⟨0, 0⟩ = SourceFile.walk p.after n (String.utf8Len p.head)
      ⟨p.before.count '\n', p.head.length⟩ := by
  rw [SourceFile.walk_append, p.foldl_next, p.foldl_nextBytes]

/-- The line with the number of the place. -/
lemma getElem?_splitLines :
    (SourceFile.splitLines (p.before ++ p.after))[p.before.count '\n']? = some p.line := by
  have hfirst := SourceFile.getElem?_splitLines_zero p.not_mem_line p.below_starts
  rw [p.text_eq, List.append_assoc, count_before]
  rcases p.above_ends with habove | ⟨lines, habove⟩
  · rw [habove]
    exact hfirst
  · rw [habove, List.append_assoc, List.singleton_append, List.count_append,
      List.count_singleton_self, SourceFile.getElem?_splitLines_succ _ _ 0]
    exact hfirst

end Place

end Arbor
