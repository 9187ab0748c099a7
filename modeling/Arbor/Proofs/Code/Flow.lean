import Arbor.Proofs.Code.Typing

/-!
# Control flow

A walk goes from instruction to instruction wherever control may go, both ways at a conditional
jump.  A jump that waits leads nowhere yet.  To speak of what will become of it, walks may be let
take some of the jumps that wait to the end of the code.

* `Code.Walk`: the ways through code.
* `Code.Types.walk_lt`: where code is typed such that nothing meets the condition at its end, no
  walk gets there.
* `Code.Clips.walk_iff`: when a jump is patched, the ways to the end of the code are those from
  before and those that take that jump.
-/

namespace Arbor.Code

open Opcode

/-- Control may get from the index `lo` to the index `t` by way of the instructions in `visited`.
Of the jumps that wait, those in `taken` lead to the end of the code and the others nowhere. -/
inductive Walk (is : List Instruction) (taken : Set Nat) (lo : Nat) : List Nat → Nat → Prop
  | start : Walk is taken lo [] lo
  | step {visited : List Nat} {i t : Nat} {inst : Instruction} (h : Walk is taken lo visited i)
      (hi : is[i]? = some inst) (ht : t ∈ inst.successors i) : Walk is taken lo (visited ++ [i]) t
  | take {visited : List Nat} {i : Nat} {op : Opcode} (h : Walk is taken lo visited i)
      (hi : is[i]? = some ⟨op, .pending⟩) (htaken : i ∈ taken) :
      Walk is taken lo (visited ++ [i]) is.length

/-- Control that comes in at the index `lo` stays behind it and never gets to the end. -/
def NeverEnds (lo : Nat) (is : List Instruction) : Prop :=
  ∀ visited t, Walk is ∅ lo visited t → lo ≤ t ∧ t < is.length

/-- Control gets from the index `lo` to the end of the code `is'` just as it gets to one of the
jumps `exits` in the code `is` and takes it.  Instructions that are no longer there are passed
over. -/
def EndsBy (exits : List Anchor) (lo : Nat) (is is' : List Instruction) : Prop :=
  ∀ visited, Walk is' ∅ lo visited is'.length ↔
    ∃ a ∈ exits, ∃ before, Walk is ∅ lo before a.index ∧
      visited = (before ++ [a.index]).filter (· < is'.length)

variable {is is' : List Instruction} {taken : Set Nat} {lo i t : Nat} {visited : List Nat}

/-! ## Where walks get to -/

/-- Where nothing can meet the condition at the end, control stays in front of it. -/
lemma Types.walk_lt {A : Annotation} {s : Shape} {X : Nat → Shape → Prop}
    (hA : Types A lo s is (fun _ => False) X) (h : Walk is ∅ lo visited t) :
    lo ≤ t ∧ t < is.length ∧ ∃ u, A t = some u := by
  have harrives : ∀ {t : Nat} {u : Shape}, Arrives lo A (fun _ => False) is.length t u →
      lo ≤ t ∧ t < is.length ∧ ∃ u, A t = some u := by
    rintro t u (⟨-, hfalse⟩ | ⟨hlo, hlt, u', hu', -⟩)
    · exact hfalse.elim
    · exact ⟨hlo, hlt, u', hu'⟩
  induction h with
  | start => exact harrives (hA.entry s.fits_refl)
  | step _ hi ht ih =>
    obtain ⟨hlo, -, u, hu⟩ := ih
    exact harrives (hA.arrives hlo hi hu _ ht)
  | take _ _ htaken => exact htaken.elim

/-- Where a forward jump leads, if it leads anywhere once the jump at `a` is patched. -/
lemma exists_leads {a : Nat} {inst : Instruction} (hi : is[i]? = some inst)
    (hop : inst.opcode.isForwardJump = true) (hknown : inst.operand = .pending → i = a)
    (ht : t ∈ inst.successors i) :
    ∃ t', Leads is a i inst.opcode t' ∧ (t = t' ∨ inst.opcode = .jumpUnless ∧ t = i + 1) := by
  obtain ⟨op, operand⟩ := inst
  cases operand with
  | pending =>
    refine ⟨is.length, ⟨hop, .inr ⟨hknown rfl, hi, rfl⟩⟩, .inr ?_⟩
    rcases eq_of_isForwardJump hop with rfl | rfl
    · cases ht
    · exact ⟨rfl, List.mem_singleton.1 ht⟩
  | byte b =>
    refine ⟨i + 1 + b.toNat, ⟨hop, .inl ⟨b, hi, rfl⟩⟩, ?_⟩
    rcases eq_of_isForwardJump hop with rfl | rfl <;>
      simpa [Instruction.successors, Opcode.successors, targetOf, or_comm] using ht

/-- Control stays in linked code. -/
lemma Walk.le_length (h : Walk is taken lo visited t) (hlink : Linked is)
    (hlo : lo ≤ is.length) : t ≤ is.length := by
  cases h with
  | start => exact hlo
  | @step _ i _ inst _ hi ht =>
    have hlt := (List.getElem?_eq_some_iff.1 hi).1
    by_cases hop : inst.opcode.isForwardJump = true
    · obtain ⟨t', hleads, hnext⟩ := exists_leads (a := i) hi hop (fun _ => rfl) ht
      have := hlink.lt_of_leads hleads
      omega
    · have := Instruction.successors_le (.inl (Bool.eq_false_iff.2 hop)) ht
      omega
  | take => exact Nat.le_refl _

/-- Jumps that are taken to the end come last, so a walk that is not at the end has taken none. -/
lemma Walk.of_lt (h : Walk is taken lo visited t) (hlt : t < is.length) :
    Walk is ∅ lo visited t := by
  induction h with
  | start => exact .start
  | step _ hi ht ih => exact .step (ih (List.getElem?_eq_some_iff.1 hi).1) hi ht
  | take => exact absurd hlt (Nat.lt_irrefl _)

/-- A walk that takes no jump that waits may be let take some. -/
lemma Walk.weaken (h : Walk is ∅ lo visited t) (taken : Set Nat) : Walk is taken lo visited t := by
  induction h with
  | start => exact .start
  | step _ hi ht ih => exact .step ih hi ht
  | take _ _ htaken => exact htaken.elim

/-- Walks visit instructions of the code. -/
lemma Walk.lt_of_mem (h : Walk is taken lo visited t) (hi : i ∈ visited) : i < is.length := by
  induction h with
  | start => cases hi
  | step _ hinst _ ih | take _ hinst _ ih =>
    rcases List.mem_append.1 hi with hi | hi
    · exact ih hi
    · rw [List.mem_singleton.1 hi]
      exact (List.getElem?_eq_some_iff.1 hinst).1

/-- Where control does not get to the end by itself, it does by a jump that is taken there. -/
lemma NeverEnds.walk_iff (h : NeverEnds lo is) :
    Walk is taken lo visited is.length ↔
      ∃ i ∈ taken, IsPending is i ∧ ∃ before, Walk is ∅ lo before i ∧ visited = before ++ [i] := by
  constructor
  · generalize hend : is.length = n
    intro hwalk
    cases hwalk with
    | start => exact absurd (h _ _ .start).2 (by omega)
    | step hbefore hi ht =>
      have hlt := (List.getElem?_eq_some_iff.1 hi).1
      exact absurd (h _ _ (.step (hbefore.of_lt hlt) hi ht)).2 (by omega)
    | take hbefore hi htaken =>
      have hlt := (List.getElem?_eq_some_iff.1 hi).1
      exact ⟨_, htaken, ⟨_, hi⟩, _, hbefore.of_lt hlt, rfl⟩
  · rintro ⟨i, htaken, ⟨op, hi⟩, before, hwalk, rfl⟩
    exact .take (hwalk.weaken taken) hi htaken

/-! ## Patching -/

section Patching

variable {a : Nat} {op : Opcode}

/-- A walk goes on where a jump leads once the jump at `a` is patched. -/
lemma Walk.jump (h : Walk is taken lo visited i) (hleads : Leads is a i op t) (ha : a ∈ taken) :
    Walk is taken lo (visited ++ [i]) t := by
  obtain ⟨hop, ⟨b, hinst, rfl⟩ | ⟨rfl, hinst, rfl⟩⟩ := hleads
  · refine .step h hinst ?_
    rcases eq_of_isForwardJump hop with rfl | rfl <;>
      simp [Instruction.successors, Opcode.successors, targetOf]
  · exact .take h hinst ha

/-- A walk may go past a conditional jump. -/
lemma Walk.pass (h : Walk is taken lo visited i) (hleads : Leads is a i .jumpUnless t) :
    Walk is taken lo (visited ++ [i]) (i + 1) := by
  obtain ⟨-, ⟨b, hinst, -⟩ | ⟨-, hinst, -⟩⟩ := hleads
  · exact .step h hinst (List.mem_cons_self ..)
  · exact .step h hinst (List.mem_singleton_self _)

lemma filter_snoc_of_lt {n : Nat} (h : i < n) (visited : List Nat) :
    (visited ++ [i]).filter (· < n) = visited.filter (· < n) ++ [i] := by
  simp [h]

namespace Clips

/-- An instruction that is left of a jump leads to what the target of the jump has become, or past
the jump if that had a condition. -/
lemma mem_successors_iff (hclip : Clips a is is') (hlink : Linked is) (hleads : Leads is a i op t)
    {inst : Instruction} (hi : is'[i]? = some inst) {t' : Nat} :
    t' ∈ inst.successors i ↔ t' = min t is'.length ∨ (op = .jumpUnless ∧ t' = i + 1) := by
  have hlt := (List.getElem?_eq_some_iff.1 hi).1
  have hfar := (hlink.lt_of_leads hleads).1
  rcases hclip.jump hleads with ⟨-, hgone⟩ | ⟨rfl, hend, hdrop⟩ | ⟨b, hb, hdist, -⟩
  · omega
  · rw [hi, Option.some.injEq] at hdrop
    subst hdrop
    have hmin : min t is'.length = i + 1 := by omega
    simp [Instruction.successors, Opcode.successors, hmin]
  · rw [hi, Option.some.injEq] at hb
    subst hb
    rw [← hdist]
    rcases eq_of_isForwardJump hleads.1 with rfl | rfl <;>
      simp [Instruction.successors, Opcode.successors, targetOf, or_comm]

/-- Walks in clipped code are walks in the code it was, which may go where there is nothing left. -/
lemma exists_walk (hclip : Clips a is is') (hlink : Linked is) (hlo : lo ≤ is'.length)
    (h : Walk is' taken lo visited t) :
    ∃ before t', Walk is (insert a taken) lo before t' ∧ t = min t' is'.length ∧
      visited = before.filter (· < is'.length) := by
  have hle := hclip.length_le
  induction h with
  | start => exact ⟨[], lo, .start, by omega, rfl⟩
  | @step visited i t inst _ hi ht ih =>
    obtain ⟨before, i', hwalk, hmin, rfl⟩ := ih
    have hlt := (List.getElem?_eq_some_iff.1 hi).1
    obtain rfl : i' = i := by omega
    rw [← filter_snoc_of_lt hlt]
    rcases hclip.cases_getElem? hi with ⟨hold, hkind⟩ | ⟨op, t', hleads, -⟩
    · have htle : t ≤ i' + 1 := inst.successors_le (hkind.imp_right And.left) ht
      exact ⟨_, t, .step hwalk hold ht, by omega, rfl⟩
    · rcases (hclip.mem_successors_iff hlink hleads hi).1 ht with rfl | ⟨rfl, rfl⟩
      · exact ⟨_, t', hwalk.jump hleads (Set.mem_insert a taken), rfl, rfl⟩
      · exact ⟨_, i' + 1, hwalk.pass hleads, by omega, rfl⟩
  | @take visited i op _ hi htaken ih =>
    obtain ⟨before, i', hwalk, hmin, rfl⟩ := ih
    have hlt := (List.getElem?_eq_some_iff.1 hi).1
    obtain rfl : i' = i := by omega
    have hold := ((hclip.cases_getElem? hi).resolve_right (by
      rintro ⟨_, _, -, ⟨-, -, hbad⟩ | ⟨b, hbad, -⟩⟩ <;> cases hbad)).1
    rw [← filter_snoc_of_lt hlt]
    exact ⟨_, is.length, .take hwalk hold (Set.mem_insert_of_mem a htaken), by omega, rfl⟩

/-- What is clipped off are jumps, by which control gets to the end. -/
lemma exists_walk_end (hclip : Clips a is is') (hlink : Linked is) (ha : a ∈ taken)
    (h : Walk is taken lo visited t) (ht : is'.length ≤ t) (htle : t ≤ is.length) :
    ∃ more, Walk is taken lo (visited ++ more) is.length ∧ ∀ i ∈ more, is'.length ≤ i := by
  -- The induction is on how far the end is.
  induction hk : is.length - t using Nat.strongRecOn generalizing t visited with
  | ind k ih =>
    rcases Nat.eq_or_lt_of_le htle with rfl | hlt
    · exact ⟨[], by simpa using h, by simp⟩
    · obtain ⟨t', hleads⟩ := hclip.leads_of_length_le (List.getElem?_eq_getElem hlt) ht
      have hfar := hlink.lt_of_leads hleads
      obtain ⟨more, hmore, hgone⟩ :=
        ih (is.length - t') (by omega) (h.jump hleads ha) (by omega) (by omega) rfl
      refine ⟨t :: more, by simpa using hmore, fun i hi => ?_⟩
      rcases List.mem_cons.1 hi with rfl | hi
      · exact ht
      · exact hgone i hi

/-- A walk goes on in clipped code from a jump, or stays at the end if the jump is gone. -/
lemma walk_jump (hclip : Clips a is is') (hlink : Linked is) {t' : Nat}
    (h : Walk is' taken lo (visited.filter (· < is'.length)) (min i is'.length))
    (hleads : Leads is a i op t) (hnext : t' = t ∨ (op = .jumpUnless ∧ t' = i + 1)) :
    Walk is' taken lo ((visited ++ [i]).filter (· < is'.length)) (min t' is'.length) := by
  have hfar := (hlink.lt_of_leads hleads).1
  by_cases hlt : i < is'.length
  · rw [Nat.min_eq_left (Nat.le_of_lt hlt)] at h
    rw [filter_snoc_of_lt hlt]
    refine .step h (List.getElem?_eq_getElem hlt) ?_
    rw [hclip.mem_successors_iff hlink hleads (List.getElem?_eq_getElem hlt)]
    rcases hnext with rfl | ⟨hop, rfl⟩
    · exact .inl rfl
    · exact .inr ⟨hop, by omega⟩
  · have hgone : [i].filter (· < is'.length) = [] := by simp [Nat.le_of_not_lt hlt]
    have hend : min t' is'.length = min i is'.length := by omega
    rw [List.filter_append, hgone, List.append_nil, hend]
    exact h

/-- Walks in code are walks in what is left of it when it is clipped. -/
lemma walk (hclip : Clips a is is') (hlink : Linked is) (hlo : lo ≤ is'.length)
    (h : Walk is (insert a taken) lo visited t) :
    Walk is' taken lo (visited.filter (· < is'.length)) (min t is'.length) := by
  induction h with
  | start =>
    rw [Nat.min_eq_left hlo]
    exact .start
  | @step visited i t inst _ hi ht ih =>
    by_cases hsame : inst.opcode.isForwardJump = false ∨ (inst.operand = .pending ∧ i ≠ a)
    · have hi' : is'[i]? = some inst := by
        rcases hsame with hop | ⟨hpending, hia⟩
        · exact hclip.plain hi hop
        · obtain ⟨op, operand⟩ := inst
          obtain rfl : operand = .pending := hpending
          exact hclip.pending hi hia
      have hlt := (List.getElem?_eq_some_iff.1 hi').1
      have htle : t ≤ i + 1 := inst.successors_le (hsame.imp_right And.left) ht
      rw [Nat.min_eq_left (Nat.le_of_lt hlt)] at ih
      rw [filter_snoc_of_lt hlt, Nat.min_eq_left (by omega)]
      exact .step ih hi' ht
    · rw [not_or, Bool.not_eq_false, not_and, not_not] at hsame
      obtain ⟨t', hleads, hnext⟩ := exists_leads hi hsame.1 hsame.2 ht
      exact hclip.walk_jump hlink ih hleads hnext
  | @take visited i op _ hi htaken ih =>
    by_cases hia : i = a
    · exact hclip.walk_jump hlink ih ⟨hlink.pending hi, .inr ⟨hia, hi, rfl⟩⟩ (.inl rfl)
    · have hi' := hclip.pending hi hia
      have hlt := (List.getElem?_eq_some_iff.1 hi').1
      rw [Nat.min_eq_left (Nat.le_of_lt hlt)] at ih
      rw [filter_snoc_of_lt hlt, Nat.min_eq_right hclip.length_le]
      exact .take ih hi' (htaken.resolve_left hia)

/-- When a jump is patched, the ways to the end are those from before and those that take it. -/
lemma walk_iff (hclip : Clips a is is') (hlink : Linked is) (hlo : lo ≤ is'.length) :
    Walk is' taken lo visited is'.length ↔
      ∃ before, Walk is (insert a taken) lo before is.length ∧
        visited = before.filter (· < is'.length) := by
  have hle := hclip.length_le
  constructor
  · intro h
    obtain ⟨before, t, hwalk, hmin, rfl⟩ := hclip.exists_walk hlink hlo h
    obtain ⟨more, hmore, hgone⟩ := hclip.exists_walk_end hlink (Set.mem_insert a taken) hwalk
      (by omega) (hwalk.le_length hlink (by omega))
    have hnone : more.filter (· < is'.length) = [] := by
      simpa [List.filter_eq_nil_iff] using hgone
    exact ⟨before ++ more, hmore, by rw [List.filter_append, hnone, List.append_nil]⟩
  · rintro ⟨before, hwalk, rfl⟩
    have hclipped := hclip.walk hlink hlo hwalk
    rwa [Nat.min_eq_right hle] at hclipped

end Clips

end Patching

end Arbor.Code
