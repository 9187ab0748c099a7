import Arbor.Proofs.Code.Patch
import Mathlib.Data.List.Nodup

/-!
# Code that grows

While code is emitted it only grows: what was there stays, instruction by instruction, although
elision does take away instructions.  It takes away none from before, because jumps from before do
not lead into what was added.

`Code.Grown is is' new` says that `is'` continues `is` and that the jumps which wait for a target in
the added part are those at the anchors in `new`.  Every operation on code has a lemma that says how
growth goes on: adding an instruction, reserving a jump, patching one or several of the jumps in
`new`.
-/

namespace Arbor.Code

variable {is is' is₁ is₂ : List Instruction} {new new₁ new₂ : List Anchor}

/-- Code `is'` continues `is`, and `new` lists the jumps of the added part that wait. -/
structure Grown (is is' : List Instruction) (new : List Anchor) : Prop where
  isPrefix : is <+: is'
  linked : Linked is'
  mem_iff : ∀ {a : Anchor}, a ∈ new ↔ is.length ≤ a.index ∧ IsPending is' a.index
  nodup : new.Nodup

lemma isPending_snoc_iff {inst : Instruction} {i : Nat} :
    IsPending (is ++ [inst]) i ↔ IsPending is i ∨ (i = is.length ∧ inst.operand = .pending) := by
  unfold IsPending
  constructor
  · rintro ⟨op, hop⟩
    rcases getElem?_snoc_eq_some_iff.1 hop with hop | ⟨hi, rfl⟩
    · exact .inl ⟨op, hop⟩
    · exact .inr ⟨hi, rfl⟩
  · rintro (⟨op, hop⟩ | ⟨hi, hpending⟩)
    · exact ⟨op, getElem?_snoc_eq_some_iff.2 (.inl hop)⟩
    · refine ⟨inst.opcode, getElem?_snoc_eq_some_iff.2 (.inr ⟨hi, ?_⟩)⟩
      rw [← hpending]

/-- Patching a jump leaves the others that wait, and only those, waiting. -/
lemma Clips.isPending_iff {a i : Nat} (h : Clips a is is') (hlink : Linked is) :
    IsPending is' i ↔ IsPending is i ∧ i ≠ a := by
  constructor
  · rintro ⟨op, hop⟩
    rcases h.cases_getElem? hop with ⟨hold, hno | ⟨-, hne⟩⟩ | ⟨_, _, -, ⟨-, -, hbad⟩ | ⟨b, hbad, -⟩⟩
    · exact absurd (hlink.pending hold) (by simp [hno])
    · exact ⟨⟨op, hold⟩, hne⟩
    · cases hbad
    · cases hbad
  · rintro ⟨⟨op, hop⟩, hne⟩
    exact ⟨op, h.pending hop hne⟩

/-- A jump back is one more instruction, whose operand is the distance to the head. -/
lemma exists_of_jumpBack {c c' : Code} {head : LoopHead} (h : c.jumpBack head = .ok c') :
    ∃ b : UInt8, c' = c.push .jumpBack b ∧ b.toNat = c.size + 1 - head.index := by
  rw [jumpBack_eq] at h
  split at h
  · cases h
  · next hnear =>
    cases h
    refine ⟨_, rfl, ?_⟩
    rw [UInt8.toNat_ofNat']
    omega

namespace Grown

lemma length_le (h : Grown is is' new) : is.length ≤ is'.length := h.isPrefix.length_le

lemma isPending {a : Anchor} {before after : List Anchor}
    (h : Grown is is' (before ++ a :: after)) : IsPending is' a.index :=
  (h.mem_iff.1 (List.mem_append_right before (List.mem_cons_self ..))).2

lemma refl (h : Linked is) : Grown is is [] where
  isPrefix := List.prefix_rfl
  linked := h
  mem_iff := by
    intro a
    simp only [List.not_mem_nil, false_iff, not_and]
    intro hle hpending
    exact absurd hpending.lt (by omega)
  nodup := List.nodup_nil

/-- What is found at an index of the old code is found there in the new code. -/
lemma getElem?_eq (h : Grown is is' new) {i : Nat} (hi : i < is.length) : is'[i]? = is[i]? := by
  obtain ⟨rest, rfl⟩ := h.isPrefix
  exact List.getElem?_append_left hi

lemma isPending_iff (h : Grown is is' new) {i : Nat} (hi : i < is.length) :
    IsPending is' i ↔ IsPending is i := by
  unfold IsPending
  rw [h.getElem?_eq hi]

lemma trans (h₁ : Grown is is₁ new₁) (h₂ : Grown is₁ is₂ new₂) : Grown is is₂ (new₂ ++ new₁) where
  isPrefix := h₁.isPrefix.trans h₂.isPrefix
  linked := h₂.linked
  mem_iff := by
    intro a
    have hle := h₁.length_le
    rw [List.mem_append, h₁.mem_iff, h₂.mem_iff]
    constructor
    · rintro (⟨hlo, hpending⟩ | ⟨hlo, hpending⟩)
      · exact ⟨by omega, hpending⟩
      · exact ⟨hlo, (h₂.isPending_iff hpending.lt).2 hpending⟩
    · rintro ⟨hlo, hpending⟩
      by_cases hi : a.index < is₁.length
      · exact .inr ⟨hlo, (h₂.isPending_iff hi).1 hpending⟩
      · exact .inl ⟨by omega, hpending⟩
  nodup := by
    refine List.nodup_append.2 ⟨h₂.nodup, h₁.nodup, ?_⟩
    rintro a ha b hb rfl
    have := (h₂.mem_iff.1 ha).1
    have := (h₁.mem_iff.1 hb).2.lt
    omega

/-- Adding an instruction that does not jump forward. -/
lemma push (h : Grown is is' new) {op : Opcode} (hop : op.isForwardJump = false) (b : UInt8) :
    Grown is (is' ++ [⟨op, .byte b⟩]) new where
  isPrefix := h.isPrefix.trans (List.prefix_append _ _)
  linked := h.linked.push hop b
  mem_iff := by
    intro a
    rw [h.mem_iff, isPending_snoc_iff]
    simp
  nodup := h.nodup

/-- Reserving a jump. -/
lemma reserve (h : Grown is is' new) {op : Opcode} (hop : op.isForwardJump = true) :
    Grown is (is' ++ [⟨op, .pending⟩]) (⟨is'.length⟩ :: new) where
  isPrefix := h.isPrefix.trans (List.prefix_append _ _)
  linked := h.linked.reserve hop
  mem_iff := by
    rintro ⟨i⟩
    have hle := h.length_le
    rw [List.mem_cons, h.mem_iff, isPending_snoc_iff]
    simp only [Anchor.mk.injEq, and_true]
    constructor
    · rintro (rfl | ⟨hlo, hpending⟩)
      · exact ⟨hle, .inr rfl⟩
      · exact ⟨hlo, .inl hpending⟩
    · rintro ⟨hlo, hpending | rfl⟩
      · exact .inr ⟨hlo, hpending⟩
      · exact .inl rfl
  nodup := by
    refine List.nodup_cons.2 ⟨fun hmem => ?_, h.nodup⟩
    exact absurd (h.mem_iff.1 hmem).2.lt (Nat.lt_irrefl _)

/-- Patching one of the jumps that wait. -/
lemma patch {before after : List Anchor} {a : Anchor} (h : Grown is is' (before ++ a :: after))
    (hlink : Linked is) (hclip : Clips a.index is' is₂) : Grown is is₂ (before ++ after) where
  isPrefix := by
    obtain ⟨rest, rfl⟩ := h.isPrefix
    have ha := (h.mem_iff.1 (List.mem_append_right before (List.mem_cons_self ..))).1
    obtain ⟨rest', rfl⟩ := hclip.exists_append hlink h.linked ha
    exact List.prefix_append _ _
  linked := hclip.linked h.linked
  mem_iff := by
    rintro ⟨i⟩
    have hmem := h.mem_iff (a := ⟨i⟩)
    have hnodup := List.nodup_middle.1 h.nodup
    have hne : (⟨i⟩ : Anchor) ∈ before ++ after → i ≠ a.index := by
      rintro hi rfl
      exact (List.nodup_cons.1 hnodup).1 hi
    have hmid : (⟨i⟩ : Anchor) ∈ before ++ a :: after ↔
        i = a.index ∨ (⟨i⟩ : Anchor) ∈ before ++ after := by
      obtain ⟨j⟩ := a
      simp only [List.mem_append, List.mem_cons, Anchor.mk.injEq]
      tauto
    rw [hclip.isPending_iff h.linked]
    rw [hmid] at hmem
    tauto
  nodup := (List.nodup_cons.1 (List.nodup_middle.1 h.nodup)).2

end Grown

end Arbor.Code
