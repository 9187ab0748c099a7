import Arbor.Code.Listing
import Arbor.Proofs.Code.Patch

/-!
# Loops in code

A jump back closes a loop.  The loop starts with the test whether its iterator has another item, a
jump out of the loop that is taken if it has none, and the two instructions that store the next
item.  The only way into a loop is through its first instruction, from the instruction before it: no
jump from outside leads into it.

* `Code.IsLoop lo is h j` says that the instructions from `h` to `j` are such a loop, as far as
  jumps from `lo` on are concerned.
* `Code.Looped lo is` says that every jump back from `lo` on closes a loop.

Code is looped part by part.  `Looped.trans` puts parts together, `Looped.patch` points a jump at
the end, and `Looped.close` makes a loop of its head and its body.  The bound `lo` is what makes
parts independent: a loop starts after the first instruction of the part it belongs to, and jumps
from before that part lead at most to that instruction.
-/

namespace Arbor

/-! ## Where jumps land -/

lemma Code.targetOf_eq_none {op : Opcode} (hop : op.isJump = false) (k : Nat) (b : UInt8) :
    targetOf op k b = none := by
  cases op <;> first | rfl | cases hop

/-- The instruction at an index is a resolved jump, forward or backward, to a given index. -/
def Instruction.Lands (inst : Instruction) (index target : Nat) : Prop :=
  ∃ b, inst.operand = .byte b ∧ Code.targetOf inst.opcode index b = some target

namespace Instruction

variable {inst : Instruction} {k t : Nat}

/-- A jump lands where a resolved forward jump leads, or else it is a jump back. -/
lemma Lands.target?_or_jumpBack (h : inst.Lands k t) :
    inst.target? k = some t ∨ ∃ b : UInt8, inst = ⟨.jumpBack, .byte b⟩ ∧ t + b.toNat = k + 1 := by
  obtain ⟨op, operand⟩ := inst
  obtain ⟨b, rfl, ht⟩ := h
  by_cases hop : op.isForwardJump = true
  · left
    rw [target?_byte hop, ← ht]
    cases op <;> first | rfl | cases hop
  · right
    have hback : op = .jumpBack := by
      cases op <;> first | rfl | exact absurd rfl hop | cases ht
    subst hback
    dsimp only [Code.targetOf] at ht
    split at ht
    · next hle =>
      rw [Option.some.injEq] at ht
      exact ⟨b, rfl, by omega⟩
    · cases ht

/-- A resolved forward jump lands where it leads. -/
lemma lands_of_target? (h : inst.target? k = some t) : inst.Lands k t := by
  obtain ⟨hop, b, hb, rfl⟩ := target?_eq_some_iff.1 h
  refine ⟨b, hb, ?_⟩
  obtain ⟨op, operand⟩ := inst
  cases op <;> first | rfl | cases hop

end Instruction

namespace Code

variable {lo a h j : Nat} {is is' : List Instruction}

/-! ## Loops -/

/-- The instructions from `h` to `j` are a loop, into which no jump from `lo` on leads that is not
part of the loop. -/
structure IsLoop (lo : Nat) (is : List Instruction) (h j : Nat) : Prop where
  lt : lo < h
  back : ∃ b : UInt8, is[j]? = some ⟨.jumpBack, .byte b⟩ ∧ h + b.toNat = j + 1
  test : ∃ s : UInt8, is[h]? = some ⟨.hasNext, .byte s⟩ ∧ is[h + 2]? = some ⟨.next, .byte s⟩
  exit : ∃ b : UInt8, is[h + 1]? = some ⟨.jumpUnless, .byte b⟩ ∧ h + 2 + b.toNat = j + 1
  item : ∃ s : UInt8, is[h + 3]? = some ⟨.store, .byte s⟩
  entry : ∀ {k t : Nat} {inst : Instruction}, lo ≤ k → is[k]? = some inst → inst.Lands k t →
    h ≤ t → t ≤ j → h ≤ k ∧ k ≤ j

/-- Every jump back from `lo` on closes a loop. -/
def Looped (lo : Nat) (is : List Instruction) : Prop :=
  ∀ (j : Nat) (b : UInt8), lo ≤ j → is[j]? = some ⟨.jumpBack, .byte b⟩ → ∃ h, IsLoop lo is h j

lemma IsLoop.lt_length (hloop : IsLoop lo is h j) : j < is.length := by
  obtain ⟨b, hb, -⟩ := hloop.back
  exact (List.getElem?_eq_some_iff.1 hb).1

/-- The rest of the code may grow, if what is added does not jump into the loop. -/
lemma IsLoop.of_isPrefix (hloop : IsLoop lo is h j) (hpre : is <+: is')
    (houtside : ∀ {k t : Nat} {inst : Instruction}, is.length ≤ k → is'[k]? = some inst →
      inst.Lands k t → t < h ∨ j < t) : IsLoop lo is' h j := by
  obtain ⟨hlt, ⟨b, hb, hdist⟩, ⟨s, hs, hs'⟩, ⟨e, he, hexit⟩, ⟨i, hi⟩, hentry⟩ := hloop
  refine ⟨hlt, ⟨b, getElem?_of_isPrefix hpre hb, hdist⟩,
    ⟨s, getElem?_of_isPrefix hpre hs, getElem?_of_isPrefix hpre hs'⟩,
    ⟨e, getElem?_of_isPrefix hpre he, hexit⟩, ⟨i, getElem?_of_isPrefix hpre hi⟩, ?_⟩
  intro k t inst hk hinst hlands hht htj
  by_cases hold : k < is.length
  · have hinst' : is[k]? = some inst := by
      rw [← hinst, List.getElem?_eq_getElem hold]
      exact (getElem?_of_isPrefix hpre (List.getElem?_eq_getElem hold)).symm
    exact hentry hk hinst' hlands hht htj
  · exfalso
    rcases houtside (Nat.le_of_not_lt hold) hinst hlands with hlow | hhigh <;> omega

/-- A loop stays a loop when a jump is pointed at the end.  Its jump back is not clipped off, so
neither is anything before it. -/
lemma IsLoop.clip (hloop : IsLoop lo is h j) (hclip : Clips a is is') : IsLoop lo is' h j := by
  have hj := hloop.lt_length
  obtain ⟨hlt, ⟨b, hb, hdist⟩, ⟨s, hs, hs'⟩, ⟨e, he, hexit⟩, ⟨i, hi⟩, hentry⟩ := hloop
  have hb' := hclip.plain hb rfl
  have hj' := (List.getElem?_eq_some_iff.1 hb').1
  have hnext := hclip.plain hs' rfl
  have hnext' := (List.getElem?_eq_some_iff.1 hnext).1
  have hleads : Leads is a (h + 1) .jumpUnless (j + 1) := ⟨rfl, .inl ⟨e, he, hexit⟩⟩
  have hexit' : ∃ c : UInt8, is'[h + 1]? = some ⟨.jumpUnless, .byte c⟩ ∧
      h + 2 + c.toNat = j + 1 := by
    rcases hclip.jump hleads with ⟨hno, -⟩ | ⟨-, hend, -⟩ | ⟨c, hc, hdist', -⟩
    · cases hno
    · omega
    · exact ⟨c, hc, by omega⟩
  refine ⟨hlt, ⟨b, hb', hdist⟩, ⟨s, hclip.plain hs rfl, hnext⟩, hexit', ⟨i, hclip.plain hi rfl⟩, ?_⟩
  intro k t inst hk hinst hlands hht htj
  rcases hclip.cases_getElem? hinst with ⟨hold, -⟩ | ⟨op, t', hlead, ⟨-, -, rfl⟩ | ⟨c, rfl, hc, -⟩⟩
  · exact hentry hk hold hlands hht htj
  · obtain ⟨_, _, hno⟩ := hlands
    cases hno
  · have htarget : t = k + 1 + c.toNat := by
      rcases hlands.target?_or_jumpBack with htarget | ⟨_, heq, -⟩
      · rw [Instruction.target?_byte hlead.1, Option.some.injEq] at htarget
        exact htarget.symm
      · cases heq
        cases hlead.1
    -- The jump leads before the end, so it led there already.
    obtain ⟨hop, ⟨d, hd, hdist'⟩ | ⟨-, -, hend⟩⟩ := hlead
    · refine hentry hk hd (Instruction.lands_of_target? ?_) hht htj
      rw [Instruction.target?_byte hop, Option.some.injEq]
      omega
    · omega

/-! ## Parts of code -/

lemma looped_nil (is : List Instruction) : Looped is.length is := by
  intro j b hj hb
  have := (List.getElem?_eq_some_iff.1 hb).1
  omega

/-- One more instruction that does not jump anywhere yet. -/
lemma Looped.snoc (h : Looped lo is) {inst : Instruction} (hstay : ∀ {k t}, ¬ inst.Lands k t) :
    Looped lo (is ++ [inst]) := by
  intro j b hj hb
  rcases getElem?_snoc_eq_some_iff.1 hb with hb | ⟨-, rfl⟩
  · obtain ⟨start, hloop⟩ := h j b hj hb
    refine ⟨start, hloop.of_isPrefix (List.prefix_append _ _) fun {k t inst'} hk hinst hlands => ?_⟩
    rcases getElem?_snoc_eq_some_iff.1 hinst with hold | ⟨-, rfl⟩
    · have := (List.getElem?_eq_some_iff.1 hold).1
      omega
    · exact absurd hlands hstay
  · have hzero : (Instruction.mk .jumpBack (.byte b)).Lands (b.toNat) 1 :=
      ⟨b, rfl, by simp [targetOf]⟩
    exact absurd hzero hstay

lemma Looped.push (h : Looped lo is) (op : Opcode) (hop : op.isJump = false) (b : UInt8) :
    Looped lo (is ++ [⟨op, .byte b⟩]) := by
  refine h.snoc ?_
  rintro k t ⟨c, -, hland⟩
  rw [targetOf_eq_none hop] at hland
  cases hland

lemma Looped.reserve (h : Looped lo is) (op : Opcode) : Looped lo (is ++ [⟨op, .pending⟩]) := by
  refine h.snoc ?_
  rintro k t ⟨c, hc, -⟩
  cases hc

/-- Code and then more code. -/
lemma Looped.trans (h : Looped lo is) (h' : Looped is.length is') (hlo : lo ≤ is.length)
    (hpre : is <+: is') (hlink : Linked is) (hlink' : Linked is') : Looped lo is' := by
  have hget : ∀ {i : Nat}, i < is.length → is'[i]? = is[i]? := by
    intro i hi
    obtain ⟨rest, rfl⟩ := hpre
    exact List.getElem?_append_left hi
  intro j b hj hb
  by_cases hfirst : j < is.length
  · -- A loop of the first part: jumps back in the second part stay there.
    rw [hget hfirst] at hb
    obtain ⟨start, hloop⟩ := h j b hj hb
    have hj := hloop.lt_length
    refine ⟨start, hloop.of_isPrefix hpre fun {k t inst} hk hinst hlands => .inr ?_⟩
    rcases hlands.target?_or_jumpBack with htarget | ⟨c, rfl, hc⟩
    · have := (hlink'.target hinst htarget).1
      omega
    · obtain ⟨start', hloop'⟩ := h' k c hk hinst
      obtain ⟨c', hc', hdist'⟩ := hloop'.back
      rw [hinst] at hc'
      cases hc'
      have := hloop'.lt
      omega
  · -- A loop of the second part: jumps of the first part lead at most to its end.
    obtain ⟨start, hloop⟩ := h' j b (Nat.le_of_not_lt hfirst) hb
    have hstart := hloop.lt
    refine ⟨start, by omega, hloop.back, hloop.test, hloop.exit, hloop.item, ?_⟩
    intro k t inst hk hinst hlands hht htj
    by_cases hsecond : is.length ≤ k
    · exact hloop.entry hsecond hinst hlands hht htj
    · exfalso
      rw [hget (Nat.lt_of_not_le hsecond)] at hinst
      rcases hlands.target?_or_jumpBack with htarget | ⟨c, rfl, hc⟩
      · have := (hlink.target hinst htarget).2
        omega
      · omega

/-- Pointing a jump at the end. -/
lemma Looped.patch (h : Looped lo is) (hclip : Clips a is is') : Looped lo is' := by
  intro j b hj hb
  rcases hclip.cases_getElem? hb with ⟨hold, -⟩ | ⟨op, t, hleads, ⟨-, -, hno⟩ | ⟨c, heq, -⟩⟩
  · obtain ⟨start, hloop⟩ := h j b hj hold
    exact ⟨start, hloop.clip hclip⟩
  · cases hno
  · cases heq
    cases hleads.1

/-! ## Closing a loop -/

section Close

variable {iter item b : UInt8}

/-- The code up to the body of a loop, in which the jump out of the loop waits. -/
def loopStart (is : List Instruction) (iter item : UInt8) : List Instruction :=
  is ++ [⟨.iter, .byte 0⟩] ++ [⟨.store, .byte iter⟩] ++ [⟨.hasNext, .byte iter⟩] ++
    [⟨.jumpUnless, .pending⟩] ++ [⟨.next, .byte iter⟩] ++ [⟨.store, .byte item⟩]

@[simp] lemma length_loopStart (is : List Instruction) (iter item : UInt8) :
    (loopStart is iter item).length = is.length + 6 := by
  simp [loopStart]

lemma isPrefix_loopStart (is : List Instruction) (iter item : UInt8) :
    is <+: loopStart is iter item := by
  simp only [loopStart, List.append_assoc]
  exact List.prefix_append _ _

lemma getElem?_loopStart (is : List Instruction) (iter item : UInt8) :
    (loopStart is iter item)[is.length + 2]? = some ⟨.hasNext, .byte iter⟩ ∧
      (loopStart is iter item)[is.length + 3]? = some ⟨.jumpUnless, .pending⟩ ∧
      (loopStart is iter item)[is.length + 4]? = some ⟨.next, .byte iter⟩ ∧
      (loopStart is iter item)[is.length + 5]? = some ⟨.store, .byte item⟩ := by
  simp [loopStart]

/-- What is found in the code up to the body of a loop, apart from what was there before, does not
jump back, and only one instruction of it jumps at all. -/
lemma opcode_of_getElem?_loopStart {k : Nat} {inst : Instruction} (hk : is.length ≤ k)
    (h : (loopStart is iter item)[k]? = some inst) :
    inst.opcode ≠ .jumpBack ∧ (inst.opcode.isForwardJump = true → k = is.length + 3) := by
  unfold loopStart at h
  simp only [getElem?_snoc_eq_some_iff, List.length_append, List.length_singleton] at h
  rcases h with
    (((((h | ⟨rfl, rfl⟩) | ⟨rfl, rfl⟩) | ⟨rfl, rfl⟩) | ⟨rfl, rfl⟩) | ⟨rfl, rfl⟩) | ⟨rfl, rfl⟩
  · have := (List.getElem?_eq_some_iff.1 h).1
    omega
  all_goals simp [Opcode.isForwardJump]

lemma linked_loopStart (h : Linked is) (iter item : UInt8) : Linked (loopStart is iter item) :=
  ((((h.push rfl 0).push rfl iter).push rfl iter).reserve rfl |>.push rfl iter).push rfl item

lemma looped_loopStart (h : Looped lo is) (iter item : UInt8) :
    Looped lo (loopStart is iter item) := by
  have hhead := ((h.push .iter rfl 0).push .store rfl iter).push .hasNext rfl iter
  exact ((hhead.reserve .jumpUnless).push .next rfl iter).push .store rfl item

/-- Loops before the head of another, and loops in its body, stay what they are when its jump back
is added: it leads to the head, which is in none of them. -/
lemma IsLoop.snoc_jumpBack {is₁ : List Instruction} {start : Nat} (hloop : IsLoop lo is₁ start j)
    (hbody : Looped (is.length + 6) is₁) (hpre : loopStart is iter item <+: is₁)
    (hb : is.length + 2 + b.toNat = is₁.length + 1) :
    IsLoop lo (is₁ ++ [⟨.jumpBack, .byte b⟩]) start j := by
  obtain ⟨c, hc, hdist⟩ := hloop.back
  have houtside : is.length + 2 < start ∨ j < is.length + 2 := by
    by_cases hinner : is.length + 6 ≤ j
    · left
      obtain ⟨start', hloop'⟩ := hbody j c hinner hc
      obtain ⟨c', hc', hdist'⟩ := hloop'.back
      rw [hc] at hc'
      cases hc'
      have := hloop'.lt
      omega
    · right
      by_contra hhead
      have hj : j < (loopStart is iter item).length := by
        rw [length_loopStart]
        omega
      have hget := List.getElem?_eq_getElem hj
      have hsame := (getElem?_of_isPrefix hpre hget).symm.trans hc
      rw [hsame] at hget
      exact (opcode_of_getElem?_loopStart (by omega) hget).1 rfl
  refine hloop.of_isPrefix (List.prefix_append _ _) fun {k t inst} hk hinst hlands => ?_
  rcases getElem?_snoc_eq_some_iff.1 hinst with hold | ⟨rfl, rfl⟩
  · have := (List.getElem?_eq_some_iff.1 hold).1
    omega
  · rcases hlands.target?_or_jumpBack with htarget | ⟨d, heq, hd⟩
    · cases htarget
    · cases heq
      omega

/-- The head, the body and the jump back of a loop are one, once the jump out of it is pointed at
the end of the code. -/
lemma isLoop_close {is₁ : List Instruction} (hlo : lo ≤ is.length) (hlink : Linked is)
    (hpre : loopStart is iter item <+: is₁) (hb : is.length + 2 + b.toNat = is₁.length + 1)
    (hclip : Clips (is.length + 3) (is₁ ++ [⟨.jumpBack, .byte b⟩]) is') :
    IsLoop lo is' (is.length + 2) is₁.length := by
  have hpre' := hpre.trans (List.prefix_append is₁ [⟨.jumpBack, .byte b⟩])
  obtain ⟨htest, hexit, hnext, hitem⟩ := getElem?_loopStart is iter item
  have hback : is'[is₁.length]? = some ⟨.jumpBack, .byte b⟩ := hclip.plain (by simp) rfl
  have hlength : is'.length = is₁.length + 1 := by
    have hle := hclip.length_le
    rw [List.length_append, List.length_singleton] at hle
    have := (List.getElem?_eq_some_iff.1 hback).1
    omega
  have hnext' := hclip.plain (getElem?_of_isPrefix hpre' hnext) rfl
  have hleads : Leads (is₁ ++ [⟨.jumpBack, .byte b⟩]) (is.length + 3) (is.length + 3) .jumpUnless
      (is₁.length + 1) :=
    ⟨rfl, .inr ⟨rfl, getElem?_of_isPrefix hpre' hexit, by simp⟩⟩
  have hexit' : ∃ c : UInt8, is'[is.length + 3]? = some ⟨.jumpUnless, .byte c⟩ ∧
      is.length + 4 + c.toNat = is₁.length + 1 := by
    rcases hclip.jump hleads with ⟨hno, -⟩ | ⟨-, hend, -⟩ | ⟨c, hc, hdist, -⟩
    · cases hno
    · have := (List.getElem?_eq_some_iff.1 hnext').1
      omega
    · exact ⟨c, hc, by omega⟩
  have htest' := hclip.plain (getElem?_of_isPrefix hpre' htest) rfl
  refine ⟨by omega, ⟨b, hback, hb⟩, ⟨iter, htest', hnext'⟩, hexit',
    ⟨item, hclip.plain (getElem?_of_isPrefix hpre' hitem) rfl⟩, ?_⟩
  intro k t inst hk hinst hlands hht htj
  have hklt := (List.getElem?_eq_some_iff.1 hinst).1
  refine ⟨?_, by omega⟩
  by_contra hbefore
  have hkstart : k < (loopStart is iter item).length := by
    rw [length_loopStart]
    omega
  have hget := List.getElem?_eq_getElem hkstart
  -- The two instructions right before the head do not jump.
  have hold : k < is.length := by
    by_contra hnew
    obtain ⟨hback', hforward⟩ := opcode_of_getElem?_loopStart (Nat.le_of_not_lt hnew) hget
    have hno : (loopStart is iter item)[k].opcode.isForwardJump = false := by
      by_contra hjump
      have := hforward (by simpa using hjump)
      omega
    have hsame := hinst.symm.trans (hclip.plain (getElem?_of_isPrefix hpre' hget) hno)
    rw [Option.some.injEq] at hsame
    subst hsame
    rcases hlands.target?_or_jumpBack with htarget | ⟨c, hc, -⟩
    · simp [Instruction.target?, hno] at htarget
    · exact hback' (congrArg Instruction.opcode hc)
  -- Jumps before them lead at most to where the list of the items has been computed.
  rcases hlands.target?_or_jumpBack with htarget | ⟨c, -, hc⟩
  · rcases hclip.cases_getElem? hinst with ⟨-, hno | ⟨hpending, -⟩⟩ | ⟨op, t', hlead, hfate⟩
    · simp [Instruction.target?, hno] at htarget
    · simp [Instruction.target?, hpending] at htarget
    · obtain ⟨hop, ⟨d, hd, rfl⟩ | ⟨rfl, -⟩⟩ := hlead
      · have hin : is[k]? = some ⟨op, .byte d⟩ := by
          rw [← hd, List.getElem?_eq_getElem hold]
          exact (getElem?_of_isPrefix ((isPrefix_loopStart is iter item).trans hpre')
            (List.getElem?_eq_getElem hold)).symm
        have := (hlink.target hin (Instruction.target?_byte hop d k)).2
        rcases hfate with ⟨-, -, rfl⟩ | ⟨e, rfl, hdist, -⟩
        · cases htarget
        · rw [Instruction.target?_byte hop, Option.some.injEq] at htarget
          omega
      · omega
  · omega

/-- **A head, a body and a jump back make a loop,** and loops in the body and before it stay what
they are. -/
lemma Looped.close {is₁ : List Instruction} (h : Looped lo is) (hlo : lo ≤ is.length)
    (hlink : Linked is) (hbody : Looped (is.length + 6) is₁)
    (hpre : loopStart is iter item <+: is₁) (hb : is.length + 2 + b.toNat = is₁.length + 1)
    (hlink₁ : Linked is₁)
    (hclip : Clips (is.length + 3) (is₁ ++ [⟨.jumpBack, .byte b⟩]) is') : Looped lo is' := by
  have hall : Looped lo is₁ := by
    refine (looped_loopStart h iter item).trans ?_ ?_ hpre (linked_loopStart hlink iter item)
      hlink₁
    · rwa [length_loopStart]
    · rw [length_loopStart]
      omega
  intro j c hj hc
  rcases hclip.cases_getElem? hc with ⟨hold, -⟩ | ⟨op, t, hleads, ⟨-, -, hno⟩ | ⟨c', heq, -⟩⟩
  · rcases getElem?_snoc_eq_some_iff.1 hold with hold | ⟨rfl, -⟩
    · obtain ⟨start, hloop⟩ := hall j c hj hold
      exact ⟨start, (hloop.snoc_jumpBack hbody hpre hb).clip hclip⟩
    · exact ⟨_, isLoop_close hlo hlink hpre hb hclip⟩
  · cases hno
  · cases heq
    cases hleads.1

end Close

end Code

end Arbor
