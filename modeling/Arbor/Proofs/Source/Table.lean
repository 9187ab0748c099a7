import Arbor.Proofs.Source.Lines

/-!
# The table of lines

A file finds positions and lines by way of its table.  Bisection keeps a window of the table: what
lies to the left of it is smaller than what is sought, and what lies to the right is greater
(`SourceFile.Window`).  So it ends at the one line that holds an offset (`SourceFile.HoldsAt`).

* `SourceFile.position_eq_walk`: positions are what a walk over the text leads to.
* `SourceFile.line?_eq_splitLines`: lines are what the text is split into.
-/

namespace Arbor

namespace SourceFile

/-! ## Bisection -/

/-- What is sought lies in the window from `lo` up to `hi`, if it is in the table at all. -/
structure Window (table : Array Nat) (x lo hi : Nat) : Prop where
  below : ∀ i y, i < lo → table[i]? = some y → y < x
  above : ∀ i y, hi ≤ i → table[i]? = some y → x < y

variable {table : Array Nat} {x lo hi : Nat}

lemma lt_of_pairwise (hasc : table.toList.Pairwise (· < ·)) {i j y z : Nat} (hij : i < j)
    (hy : table[i]? = some y) (hz : table[j]? = some z) : y < z := by
  obtain ⟨hi, rfl⟩ := Array.getElem?_eq_some_iff.1 hy
  obtain ⟨hj, rfl⟩ := Array.getElem?_eq_some_iff.1 hz
  exact List.pairwise_iff_getElem.1 hasc i j hi hj hij

lemma Window.all (table : Array Nat) (x : Nat) : Window table x 0 table.size where
  below i _ hi _ := absurd hi (Nat.not_lt_zero i)
  above i y hi hy := by simp [Array.getElem?_eq_none hi] at hy

lemma Window.right (h : Window table x lo hi) (hasc : table.toList.Pairwise (· < ·)) {mid y : Nat}
    (hmid : table[mid]? = some y) (hlt : y < x) : Window table x (mid + 1) hi where
  below i z hi hz := by
    rcases Nat.lt_succ_iff_lt_or_eq.1 hi with hi | rfl
    · exact (lt_of_pairwise hasc hi hz hmid).trans hlt
    · rw [hmid] at hz
      cases hz
      exact hlt
  above := h.above

lemma Window.left (h : Window table x lo hi) (hasc : table.toList.Pairwise (· < ·)) {mid y : Nat}
    (hmid : table[mid]? = some y) (hlt : x < y) : Window table x lo mid where
  below := h.below
  above i z hi hz := by
    rcases Nat.lt_or_eq_of_le hi with hi | rfl
    · exact hlt.trans (lt_of_pairwise hasc hi hmid hz)
    · rw [hmid] at hz
      cases hz
      exact hlt

/-- What the answer of a search says about the table. -/
def Found (table : Array Nat) (x : Nat) : Except Nat Nat → Prop
  | .ok i => table[i]? = some x
  | .error i => i ≤ table.size ∧ Window table x i i

/-- Bisection finds what is in the table, and the place of what is not. -/
lemma found_bisect (hasc : table.toList.Pairwise (· < ·)) (hhi : hi ≤ table.size) (hle : lo ≤ hi)
    (hwin : Window table x lo hi) : Found table x (bisect table x lo hi hhi) := by
  fun_induction bisect table x lo hi hhi with
  | case1 lo hi hhi hlt mid hmid heq =>
    rw [Nat.compare_eq_eq] at heq
    exact heq ▸ Array.getElem?_eq_getElem _
  | case2 lo hi hhi hlt mid hmid hcmp ih =>
    rw [Nat.compare_eq_lt] at hcmp
    exact ih hmid (hwin.right hasc (Array.getElem?_eq_getElem _) hcmp)
  | case3 lo hi hhi hlt mid hmid hcmp ih =>
    rw [Nat.compare_eq_gt] at hcmp
    exact ih (by omega) (hwin.left hasc (Array.getElem?_eq_getElem _) hcmp)
  | case4 lo hi hhi hge =>
    obtain rfl : lo = hi := by omega
    exact ⟨hhi, hwin⟩

/-! ## The line of an offset -/

/-- The line with number `line` starts at or before an offset, and the next one starts behind it. -/
structure HoldsAt (table : Array Nat) (line start offset : Nat) : Prop where
  start_eq : table[line]? = some start
  le : start ≤ offset
  lt_next : ∀ next, table[line + 1]? = some next → offset < next

/-- An offset lies in one line only. -/
lemma HoldsAt.unique (hasc : table.toList.Pairwise (· < ·)) {line line' start start' offset : Nat}
    (h : HoldsAt table line start offset) (h' : HoldsAt table line' start' offset) :
    line = line' := by
  have hnot {i j a b : Nat} (hi : HoldsAt table i a offset) (hj : HoldsAt table j b offset) :
      ¬ i < j := by
    intro hij
    have hsize := (Array.getElem?_eq_some_iff.1 hj.start_eq).1
    have hnext : table[i + 1]? = some table[i + 1] := Array.getElem?_eq_getElem (by omega)
    have hlt := hi.lt_next _ hnext
    have hle := hj.le
    rcases Nat.lt_or_eq_of_le (Nat.succ_le_of_lt hij) with hlt' | rfl
    · have := lt_of_pairwise hasc hlt' hnext hj.start_eq
      omega
    · rw [hj.start_eq] at hnext
      cases hnext
      omega
  have := hnot h h'
  have := hnot h' h
  omega

/-- In a table that starts with zero, each offset has a line. -/
lemma exists_holdsAt (f : SourceFile) (hasc : f.lineStarts.toList.Pairwise (· < ·))
    (hzero : f.lineStarts[0]? = some 0) (offset : Nat) :
    ∃ start, HoldsAt f.lineStarts (f.lineOf offset) start offset := by
  have hfound := found_bisect hasc (Nat.le_refl _) (Nat.zero_le _) (.all f.lineStarts offset)
  rw [lineOf]
  cases hsearch : bisect f.lineStarts offset 0 f.lineStarts.size (Nat.le_refl _) with
  | ok line =>
    rw [hsearch] at hfound
    exact ⟨offset, hfound, Nat.le_refl _, fun next hnext =>
      lt_of_pairwise hasc (Nat.lt_succ_self line) hfound hnext⟩
  | error next =>
    rw [hsearch] at hfound
    obtain ⟨hsize, hwin⟩ := hfound
    cases next with
    | zero => exact absurd (hwin.above 0 0 (Nat.le_refl _) hzero) (Nat.not_lt_zero offset)
    | succ line =>
      have hstart : f.lineStarts[line]? = some f.lineStarts[line] :=
        Array.getElem?_eq_getElem hsize
      exact ⟨_, hstart, (hwin.below line _ (Nat.lt_succ_self line) hstart).le, fun next hnext =>
        hwin.above (line + 1) next (Nat.le_refl _) hnext⟩

/-! ## The table of a text -/

lemma utf8Size_newline : '\n'.utf8Size = 1 := by decide

lemma lt_of_mem_lineEnds {offset n : Nat} {cs : List Char} (h : n ∈ lineEnds offset cs) :
    offset < n := by
  induction cs generalizing offset with
  | nil => simp [lineEnds] at h
  | cons c cs ih =>
    have hpos := c.utf8Size_pos
    have hrest : n ∈ lineEnds (offset + c.utf8Size) cs → offset < n := fun hn => by
      have := ih hn
      omega
    rw [lineEnds] at h
    split at h
    · rcases List.mem_cons.1 h with rfl | h
      · omega
      · exact hrest h
    · exact hrest h

lemma pairwise_lineEnds (offset : Nat) (cs : List Char) :
    (lineEnds offset cs).Pairwise (· < ·) := by
  induction cs generalizing offset with
  | nil => exact .nil
  | cons c cs ih =>
    rw [lineEnds]
    split
    · exact .cons (fun n hn => lt_of_mem_lineEnds hn) (ih _)
    · exact ih _

lemma length_lineEnds (offset : Nat) (cs : List Char) :
    (lineEnds offset cs).length = cs.count '\n' := by
  induction cs generalizing offset with
  | nil => rfl
  | cons c cs ih =>
    rw [lineEnds, List.count_cons]
    by_cases hc : c = '\n' <;> simp [hc, ih]

lemma lineEnds_append (offset : Nat) (cs rest : List Char) :
    lineEnds offset (cs ++ rest) =
      lineEnds offset cs ++ lineEnds (offset + String.utf8Len cs) rest := by
  induction cs generalizing offset with
  | nil => simp [lineEnds]
  | cons c cs ih =>
    have hsize : offset + String.utf8Len (c :: cs) = offset + c.utf8Size + String.utf8Len cs := by
      rw [String.utf8Len_cons]
      omega
    rw [List.cons_append, lineEnds, lineEnds, ih, hsize]
    split <;> simp

lemma lineEnds_eq_nil {offset : Nat} {cs : List Char} (h : '\n' ∉ cs) :
    lineEnds offset cs = [] := by
  rw [← List.length_eq_zero_iff, length_lineEnds, List.count_eq_zero.2 h]

variable {f : SourceFile}

lemma pairwise_lineStarts (f : SourceFile) : f.lineStarts.toList.Pairwise (· < ·) := by
  rw [f.lineStarts_eq, lineTable]
  exact .cons (fun n hn => lt_of_mem_lineEnds hn) (pairwise_lineEnds 0 _)

lemma getElem?_lineStarts (f : SourceFile) (n : Nat) :
    f.lineStarts[n]? = (0 :: lineEnds 0 f.text.toList)[n]? := by
  rw [f.lineStarts_eq, lineTable, List.getElem?_toArray]

/-! ## Slices -/

variable {text : String}

lemma isValid_of_append {cs rest : List Char} (h : text.toList = cs ++ rest) :
    String.Pos.Raw.IsValid text ⟨String.utf8Len cs⟩ := by
  refine String.Pos.Raw.isValid_iff_exists_append.2 ⟨.ofList cs, .ofList rest, ?_, ?_⟩
  · rw [← String.ofList_append, ← h, String.ofList_toList]
  · rw [String.rawEndPos, String.utf8ByteSize_ofList]

/-- No character ends inside another one. -/
lemma not_isValid_inside {cs rest : List Char} {c : Char} (h : text.toList = cs ++ c :: rest)
    {k : Nat} (hpos : 0 < k) (hlt : k < c.utf8Size) :
    ¬ String.Pos.Raw.IsValid text ⟨String.utf8Len cs + k⟩ := by
  intro hvalid
  obtain ⟨s₁, s₂, hs, hoffset⟩ := String.Pos.Raw.isValid_iff_exists_append.1 hvalid
  have hsize : String.utf8Len cs + k = String.utf8Len s₁.toList := by
    rw [String.utf8Len_toList]
    exact congrArg String.Pos.Raw.byteIdx hoffset
  rw [hs, String.toList_append] at h
  rcases List.append_eq_append_iff.1 h with ⟨more, hmore, -⟩ | ⟨more, hmore, hrest⟩
  · rw [hmore, String.utf8Len_append] at hsize
    omega
  · rw [hmore, String.utf8Len_append] at hsize
    cases more with
    | nil => simp at hsize; omega
    | cons d more =>
      cases hrest
      rw [String.utf8Len_cons] at hsize
      omega

lemma slice?_eq_some {cs mid rest : List Char} (h : text.toList = cs ++ mid ++ rest) :
    slice? text (String.utf8Len cs) (String.utf8Len cs + String.utf8Len mid) =
      some (String.ofList mid) := by
  have hstart : String.Pos.Raw.IsValid text ⟨String.utf8Len cs⟩ :=
    isValid_of_append (h.trans (List.append_assoc _ _ _))
  have hstop := isValid_of_append h
  rw [String.utf8Len_append] at hstop
  rw [slice?, if_pos ⟨Nat.le_add_right _ _, hstart, hstop⟩, ← String.ofList_toList (s := text), h,
    String.extract_of_valid]

lemma slice?_inside {cs rest : List Char} {c : Char} (h : text.toList = cs ++ c :: rest)
    (start : Nat) {k : Nat} (hpos : 0 < k) (hlt : k < c.utf8Size) :
    slice? text start (String.utf8Len cs + k) = none := by
  rw [slice?, if_neg fun hs => not_isValid_inside h hpos hlt hs.2.2]

end SourceFile

/-! ## Places in the table -/

namespace Place

open SourceFile

variable {f : SourceFile} (p : Place)

lemma utf8Len_before :
    String.utf8Len p.before = String.utf8Len p.above + String.utf8Len p.head := by
  rw [before, String.utf8Len_append]

lemma utf8Len_line : String.utf8Len p.line = String.utf8Len p.head + String.utf8Len p.rest := by
  rw [line, String.utf8Len_append]

/-- The line of a place starts behind the lines above it. -/
lemma getElem?_lineStarts (hf : f.text.toList = p.before ++ p.after) :
    f.lineStarts[p.before.count '\n']? = some (String.utf8Len p.above) := by
  rw [SourceFile.getElem?_lineStarts, hf, count_before, before, List.append_assoc,
    lineEnds_append]
  rcases p.above_ends with habove | ⟨lines, habove⟩
  · simp [habove]
  · simp [habove, lineEnds_append, lineEnds, length_lineEnds, utf8Size_newline]

/-- The next line starts behind the end of the line. -/
lemma getElem?_lineStarts_succ (hf : f.text.toList = p.before ++ p.after) :
    f.lineStarts[p.before.count '\n' + 1]? =
      p.below.head?.map fun _ => String.utf8Len p.above + String.utf8Len p.line + 1 := by
  rw [SourceFile.getElem?_lineStarts, hf, p.text_eq, List.append_assoc, count_before,
    List.getElem?_cons_succ, lineEnds_append, lineEnds_append, lineEnds_eq_nil p.not_mem_line,
    List.nil_append, ← length_lineEnds 0, List.getElem?_append_right (Nat.le_refl _), Nat.sub_self]
  rcases p.below_starts with hbelow | ⟨lines, hbelow⟩
  · simp [hbelow, lineEnds]
  · simp [hbelow, lineEnds, utf8Size_newline]

lemma lineStop_eq (hf : f.text.toList = p.before ++ p.after) :
    f.lineStop (p.before.count '\n') = String.utf8Len p.above + String.utf8Len p.line := by
  rw [lineStop, p.getElem?_lineStarts_succ hf]
  rcases p.below_starts with hbelow | ⟨lines, hbelow⟩
  · rw [hbelow, ← String.utf8Len_toList, hf, p.text_eq, hbelow]
    simp
  · rw [hbelow]
    rfl

/-- The offsets from the start to the end of the line of a place lie in that line. -/
lemma lineOf_eq (hf : f.text.toList = p.before ++ p.after) {offset : Nat}
    (hge : String.utf8Len p.above ≤ offset)
    (hle : offset ≤ String.utf8Len p.above + String.utf8Len p.line) :
    f.lineOf offset = p.before.count '\n' := by
  have hzero : f.lineStarts[0]? = some 0 := by
    rw [SourceFile.getElem?_lineStarts, List.getElem?_cons_zero]
  obtain ⟨start, hfound⟩ := f.exists_holdsAt f.pairwise_lineStarts hzero offset
  refine hfound.unique f.pairwise_lineStarts ⟨p.getElem?_lineStarts hf, hge, fun next hnext => ?_⟩
  rw [p.getElem?_lineStarts_succ hf] at hnext
  obtain ⟨-, -, rfl⟩ := Option.map_eq_some_iff.1 hnext
  omega

/-- A character that is no line end, behind a place, lies in the line of the place. -/
lemma utf8Size_le_rest {c : Char} {more : List Char} (hafter : p.after = c :: more)
    (hc : c ≠ '\n') : c.utf8Size ≤ String.utf8Len p.rest := by
  have hrest : [c] <+: p.rest := by
    refine p.isPrefix_rest (by simpa using hc.symm) ?_
    rw [hafter]
    exact List.prefix_append [c] more
  simpa using String.utf8Len_le_of_prefix hrest

/-- There is a place in each line. -/
lemma exists_of_le_count {cs : List Char} {n : Nat} (h : n ≤ cs.count '\n') :
    ∃ p : Place, cs = p.before ++ p.after ∧ p.before.count '\n' = n := by
  induction n with
  | zero =>
    obtain ⟨p, hbefore, rfl⟩ := exists_place [] cs
    exact ⟨p, by simp [hbefore], by simp [hbefore]⟩
  | succ n ih =>
    obtain ⟨p, rfl, hcount⟩ := ih (Nat.le_of_succ_le h)
    have hrest := List.count_eq_zero.2 p.not_mem_rest
    rcases p.below_starts with hbelow | ⟨lines, hbelow⟩
    · simp [after, hbelow, hcount, hrest] at h
    · -- The next line starts behind the end of this one.
      obtain ⟨q, hbefore, hafter⟩ := exists_place (p.before ++ p.rest ++ ['\n']) lines
      refine ⟨q, ?_, by simp [hbefore, hcount, hrest]⟩
      rw [hafter, hbefore]
      simp [after, hbelow]

end Place

namespace SourceFile

/-- An offset in a text lies between two characters or inside one. -/
lemma exists_split {cs : List Char} {offset : Nat} (h : offset ≤ String.utf8Len cs) :
    ∃ before after, cs = before ++ after ∧ (offset = String.utf8Len before ∨
      ∃ c rest k, after = c :: rest ∧ 0 < k ∧ k < c.utf8Size ∧
        offset = String.utf8Len before + k) := by
  induction cs generalizing offset with
  | nil => exact ⟨[], [], rfl, .inl (Nat.le_zero.1 h)⟩
  | cons c cs ih =>
    rcases Nat.eq_zero_or_pos offset with rfl | hpos
    · exact ⟨[], c :: cs, rfl, .inl rfl⟩
    · rcases Nat.lt_or_ge offset c.utf8Size with hlt | hge
      · exact ⟨[], c :: cs, rfl, .inr ⟨c, cs, offset, rfl, hpos, hlt, by simp⟩⟩
      · obtain ⟨n, rfl⟩ := Nat.exists_eq_add_of_le' hge
        have hn : n ≤ String.utf8Len cs := by
          rw [String.utf8Len_cons] at h
          omega
        obtain ⟨before, after, rfl, hoffset⟩ := ih hn
        refine ⟨c :: before, after, rfl, ?_⟩
        rcases hoffset with rfl | ⟨d, rest, k, hafter, hk, hlt, rfl⟩
        · exact .inl (String.utf8Len_cons _ _).symm
        · refine .inr ⟨d, rest, k, hafter, hk, hlt, ?_⟩
          rw [String.utf8Len_cons]
          omega

/-- **Positions are what a walk leads to.** -/
theorem position_eq_walk (f : SourceFile) (offset : Nat) :
    f.position offset = walk f.text.toList offset 0 ⟨0, 0⟩ := by
  rw [← walk_min, position, String.utf8Len_toList]
  have hle := Nat.min_le_right offset f.text.utf8ByteSize
  generalize min offset f.text.utf8ByteSize = offset at hle
  rw [← String.utf8Len_toList] at hle
  obtain ⟨before, after, htext, hoffset⟩ := exists_split hle
  obtain ⟨p, rfl, rfl⟩ := Place.exists_place before after
  have hbefore := p.utf8Len_before
  have hsize := p.utf8Len_line
  rcases hoffset with rfl | ⟨c, rest, k, hafter, hpos, hlt, rfl⟩
  · have hline : f.lineOf (String.utf8Len p.before) = p.before.count '\n' :=
      p.lineOf_eq htext (by omega) (by omega)
    have hslice : slice? f.text (String.utf8Len p.above) (String.utf8Len p.before) =
        some (String.ofList p.head) := by
      rw [hbefore]
      exact slice?_eq_some htext
    simp only [hline, p.getElem?_lineStarts htext, Option.getD_some, hslice]
    rw [htext, ← Nat.add_zero (String.utf8Len p.before), p.walk_eq, walk_zero, String.length_ofList]
  · -- The character is none of the line ends, which have one byte.
    have hc : c ≠ '\n' := by
      rintro rfl
      rw [utf8Size_newline] at hlt
      omega
    have hrest := p.utf8Size_le_rest hafter hc
    have hline : f.lineOf (String.utf8Len p.before + k) = p.before.count '\n' :=
      p.lineOf_eq htext (by omega) (by omega)
    have hslice : slice? f.text (String.utf8Len p.above) (String.utf8Len p.before + k) = none :=
      slice?_inside (hafter ▸ htext) _ hpos hlt
    simp only [hline, p.getElem?_lineStarts htext, Option.getD_some, hslice]
    rw [htext, p.walk_eq, hafter, walk, if_neg (by omega), if_pos hlt, hbefore]
    congr 1
    omega

/-- **Lines are what the text is split into**, without the carriage returns at their ends. -/
theorem line?_eq_splitLines (f : SourceFile) (n : Nat) :
    f.line? n = (splitLines f.text.toList)[n]?.map fun cs => String.ofList (dropReturns cs) := by
  rcases Nat.lt_or_ge (f.text.toList.count '\n') n with hlt | hge
  · have hsplit : (splitLines f.text.toList)[n]? = none := by
      rw [List.getElem?_eq_none_iff, length_splitLines]
      exact hlt
    have hstart : f.lineStarts[n]? = none := by
      rw [getElem?_lineStarts, List.getElem?_eq_none_iff, List.length_cons, length_lineEnds]
      exact hlt
    rw [line?, hsplit, hstart]
    rfl
  · obtain ⟨p, htext, rfl⟩ := Place.exists_of_le_count hge
    have hsplit : f.text.toList = p.above ++ p.line ++ p.below := by
      rw [htext, p.text_eq]
    rw [line?, p.getElem?_lineStarts htext, p.lineStop_eq htext, Option.bind_eq_bind,
      Option.bind_some, slice?_eq_some hsplit, htext, p.getElem?_splitLines]
    simp

lemma position_eq_foldl {f : SourceFile} {cs rest : List Char} (hf : f.text.toList = cs ++ rest) :
    f.position (String.ofList cs).utf8ByteSize = cs.foldl Position.next ⟨0, 0⟩ := by
  rw [position_eq_walk, hf, String.utf8ByteSize_ofList, ← Nat.add_zero (String.utf8Len cs),
    walk_append, walk_zero]

lemma dropReturns_eq_self {cs : List Char} (h : '\r' ∉ cs) : dropReturns cs = cs := by
  obtain rfl | ⟨init, c, rfl⟩ := cs.eq_nil_or_concat'
  · rfl
  · have hc : c ≠ '\r' := fun hc => h (by simp [hc])
    simp [dropReturns, hc]

end SourceFile

namespace Place

variable {f : SourceFile} (p : Place)

/-- The position of the place. -/
lemma position_eq (hf : f.text.toList = p.before ++ p.after) :
    f.position (String.ofList p.before).utf8ByteSize = ⟨p.before.count '\n', p.head.length⟩ := by
  rw [SourceFile.position_eq_foldl hf, p.foldl_next]

/-- The line with the number of the place, if no line ends in carriage returns. -/
lemma line?_eq (hf : f.text.toList = p.before ++ p.after) (hreturn : '\r' ∉ f.text.toList) :
    f.line? (p.before.count '\n') = some (String.ofList p.line) := by
  have hclean : '\r' ∉ p.line := by
    intro hmem
    rw [hf] at hreturn
    simp only [before, after, line, List.mem_append] at hmem hreturn
    tauto
  rw [SourceFile.line?_eq_splitLines, hf, p.getElem?_splitLines, Option.map_some,
    SourceFile.dropReturns_eq_self hclean]

end Place

end Arbor
