import Arbor.Proofs.Code.Patch

/-!
# Jumps that stay inside

Code is contained (`Code.Contained`) if no resolved forward jump leads beyond its end.  This is less
than `Code.Linked`: a jump may lead to the next instruction, and any opcode may be one that jumps.
So it holds of code whatever the builtins are and wherever emission is given up.  It is enough for
code to be safe from what comes after it: where a jump behind the end of contained code is patched,
that code is still there (`Code.isPrefix_of_patch`).
-/

namespace Arbor.Code

/-- Resolved forward jumps lead no further than to the end of the code. -/
structure Contained (is : List Instruction) : Prop where
  target : ∀ {i : Nat} {inst : Instruction} {t : Nat},
    is[i]? = some inst → inst.target? i = some t → t ≤ is.length

lemma Linked.contained {is : List Instruction} (h : Linked is) : Contained is :=
  ⟨fun hi ht => (h.target hi ht).2⟩

variable {is pre : List Instruction}

/-! ## Adding instructions -/

/-- An instruction that leads nowhere, or just behind itself, is added. -/
lemma Contained.snoc (h : Contained is) {inst : Instruction}
    (htarget : ∀ t, inst.target? is.length = some t → t = is.length + 1) :
    Contained (is ++ [inst]) := by
  refine ⟨fun {i inst' t} hi ht => ?_⟩
  rw [List.length_append, List.length_singleton]
  rcases getElem?_snoc_eq_some_iff.1 hi with hi | ⟨rfl, rfl⟩
  · exact Nat.le_succ_of_le (h.target hi ht)
  · exact Nat.le_of_eq (htarget t ht)

/-- Instructions are added that do not jump, or that jump over nothing. -/
lemma Contained.push (h : Contained is) {op : Opcode} {b : UInt8}
    (hop : op.isForwardJump = false ∨ b = 0) : Contained (is ++ [⟨op, .byte b⟩]) := by
  refine h.snoc fun t ht => ?_
  obtain ⟨hjump, c, hc, rfl⟩ := Instruction.target?_eq_some_iff.1 ht
  cases hc
  rcases hop with hplain | rfl
  · rw [hplain] at hjump
    cases hjump
  · rfl

lemma Contained.reserve (h : Contained is) (op : Opcode) : Contained (is ++ [⟨op, .pending⟩]) :=
  h.snoc fun t ht => by simp at ht

/-! ## Taking jumps away -/

/-- The jumps to the old end, where one instruction has been taken away, lead to the new one. -/
lemma Contained.retarget {last : Instruction} (h : Contained (is ++ [last])) :
    Contained (retarget (is.length + 1) is) := by
  refine ⟨fun {i inst t} hi ht => ?_⟩
  rw [length_retarget]
  rw [getElem?_retarget] at hi
  obtain ⟨old, hold, rfl⟩ := Option.map_eq_some_iff.1 hi
  have hlt := (List.getElem?_eq_some_iff.1 hold).1
  split at ht
  · next hstop =>
    obtain ⟨b, hb, hdist⟩ := Instruction.exists_shorten_eq hstop (by omega)
    rw [hb] at ht
    obtain ⟨-, c, hc, rfl⟩ := Instruction.target?_eq_some_iff.1 ht
    cases hc
    omega
  · next hstop =>
    have hle := h.target (getElem?_snoc_eq_some_iff.2 (.inl hold)) ht
    rw [List.length_append, List.length_singleton] at hle
    have hne : t ≠ is.length + 1 := fun heq => hstop (heq ▸ ht)
    omega

/-- Contained code is left alone when jumps to an index behind its end are shortened. -/
lemma isPrefix_retarget (hpre : Contained pre) (h : pre <+: is) {stop : Nat}
    (hstop : pre.length < stop) : pre <+: retarget stop is := by
  rw [List.prefix_iff_getElem?]
  intro i hi
  have hget : pre[i]? = some pre[i] := List.getElem?_eq_getElem hi
  refine getElem?_retarget_of_ne (getElem?_of_isPrefix h hget) fun ht => ?_
  exact Nat.not_le_of_lt hstop (hpre.target hget ht)

/-- Elision keeps code contained, and does not reach into contained code before the jump at the end.
The induction is on the length: a cascade goes on with the code that is left. -/
lemma contained_elide (is : List Instruction) (last : Instruction)
    (h : Contained (is ++ [last])) :
    Contained (elide (is ++ [last])) ∧
      ∀ pre, Contained pre → pre <+: is → pre <+: elide (is ++ [last]) := by
  induction hn : is.length using Nat.strongRecOn generalizing is last with
  | ind n ih =>
    subst hn
    obtain ⟨op, operand⟩ := last
    have hrest : Contained (Code.retarget (is.length + 1) is) := h.retarget
    have hbefore : ∀ pre, Contained pre → pre <+: is →
        pre <+: Code.retarget (is.length + 1) is := fun pre hpre hle =>
      isPrefix_retarget hpre hle (Nat.lt_succ_of_le hle.length_le)
    rw [elide_snoc]
    split
    · -- a condition is popped instead
      refine ⟨⟨fun {i inst t} hi ht => ?_⟩, fun pre _ hle => hle.trans (List.prefix_append _ _)⟩
      rw [List.length_append, List.length_singleton]
      rcases getElem?_snoc_eq_some_iff.1 hi with hi | ⟨-, rfl⟩
      · simpa using h.target (getElem?_snoc_eq_some_iff.2 (.inl hi)) ht
      · cases ht
    · split
      · next hany =>
        obtain ⟨init, op', b, c, rfl, hop', hretarget⟩ := exists_cascade hany
        rw [hretarget] at hrest ⊢
        obtain ⟨hcontained, hkeeps⟩ := ih init.length (by simp) _ _ hrest (length_retarget _ _)
        refine ⟨hcontained, fun pre hpre hle => hkeeps pre hpre ?_⟩
        have htarget : (⟨op', .byte b⟩ : Instruction).target? init.length
            = some (init.length + 2) := by
          simpa using hany
        rcases List.prefix_concat_iff.1 hle with rfl | hinit
        · -- the jump at the end leads beyond it, so it is not in code that is contained
          have hfar := hpre.target (i := init.length) (by simp) htarget
          simp at hfar
        · have hle := hinit.length_le
          exact isPrefix_retarget hpre hinit (by omega)
      · exact ⟨hrest, hbefore⟩

/-! ## Patching -/

/-- A jump that is pointed at the end leads there. -/
lemma Contained.set (h : Contained is) {a : Nat} {op : Opcode} (ha : a < is.length)
    (hfit : is.length - (a + 1) < 256) :
    Contained (is.set a ⟨op, .byte (UInt8.ofNat (is.length - (a + 1)))⟩) := by
  refine ⟨fun {i inst t} hi ht => ?_⟩
  rw [List.length_set]
  by_cases hia : a = i
  · subst hia
    rw [List.getElem?_set_self ha, Option.some_inj] at hi
    subst hi
    obtain ⟨-, b, hb, rfl⟩ := Instruction.target?_eq_some_iff.1 ht
    cases hb
    rw [UInt8.toNat_ofNat_of_lt' hfit]
    omega
  · rw [List.getElem?_set_ne hia] at hi
    exact h.target hi ht

/-- What is patched is contained, and contained code before the jump is still there. -/
lemma isPrefix_of_patch {c c' : Code} {a : Anchor} (h : Contained c.instructions)
    (hpatch : c.patch a = .ok c') :
    Contained c'.instructions ∧ ∀ pre, Contained pre → pre <+: c.instructions →
      pre.length ≤ a.index → pre <+: c'.instructions := by
  rw [patch_eq] at hpatch
  split at hpatch
  · next hlast =>
    cases hpatch
    obtain hnil | ⟨init, last, heq⟩ := c.instructions.eq_nil_or_concat'
    · simp [size, hnil] at hlast
    · rw [heq] at h ⊢
      obtain ⟨hcontained, hkeeps⟩ := contained_elide init last h
      refine ⟨hcontained, fun pre hpre hle hindex => hkeeps pre hpre ?_⟩
      refine List.prefix_of_prefix_length_le hle (List.prefix_append _ _) ?_
      rw [size, heq, List.length_append, List.length_singleton] at hlast
      omega
  · split at hpatch
    · cases hpatch
    · next hfit =>
      split at hpatch
      · next op hget =>
        cases hpatch
        have hlt := (List.getElem?_eq_some_iff.1 hget).1
        refine ⟨h.set hlt (Nat.lt_of_not_le hfit), fun pre _ hle hindex => ?_⟩
        obtain ⟨rest, hrest⟩ := hle
        rw [← hrest, List.set_append_right _ _ hindex]
        exact List.prefix_append _ _
      · cases hpatch

end Arbor.Code
