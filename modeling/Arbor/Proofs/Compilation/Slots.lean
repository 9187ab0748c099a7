import Arbor.Proofs.Compilation.Structure
import Arbor.Proofs.Emission.Locals
import Mathlib.Tactic.IntervalCases

/-!
# The slots of mappings

Slots are never used again: everything that a mapping keeps has a slot of its own, from its first
instruction to its last.  And whatever path is taken through the code, a slot is written before it
is read, except for that of the root, which is written before the code is run.

* `Job.Makes`: the locals of a mapping.
* `Code.Path`: the paths through encoded code.
* `Job.slots_of_compileMapping`: both facts.
-/

namespace Arbor

namespace Code

/-- A path through the code from its first instruction: it has run the instructions in `visited`, in
this order, and goes on at an index. -/
inductive Path (bytes : List UInt8) : List Nat → Nat → Prop
  | start : Path bytes [] 0
  | step {visited : List Nat} {i t : Nat} {op : Opcode} {operand : UInt8} (h : Path bytes visited i)
      (hfetch : fetch? bytes i = some (op, operand)) (ht : t ∈ op.successors i operand) :
      Path bytes (visited ++ [i]) t

/-- The path that runs the first instructions one after the other, if none of them has to jump. -/
lemma path_range {bytes : List UInt8} {i : Nat}
    (h : ∀ k < i, ∃ op b, fetch? bytes k = some (op, b) ∧ k + 1 ∈ op.successors k b) :
    Path bytes (List.range i) i := by
  induction i with
  | zero => exact .start
  | succ i ih =>
    obtain ⟨op, b, hfetch, hnext⟩ := h i (Nat.lt_succ_self i)
    rw [List.range_succ]
    exact (ih fun k hk => h k (Nat.lt_succ_of_lt hk)).step hfetch hnext

/-- On a path, a slot has been written. -/
def Stored (bytes : List UInt8) (visited : List Nat) (slot : UInt8) : Prop :=
  ∃ k ∈ visited, fetch? bytes k = some (.store, slot)

variable {is : List Instruction} {bytes : List UInt8} {n : Nat}

/-- What an instruction writes is written on the path that has run it. -/
lemma stored_of_mem_after {visited : List Nat} {i : Nat} {op : Opcode} {b slot : UInt8} {u : Shape}
    (hwritten : ∀ s ∈ u.written, s = 0 ∨ Stored bytes visited s)
    (hfetch : fetch? bytes i = some (op, b)) (hslot : slot ∈ (u.after op b).written) :
    slot = 0 ∨ Stored bytes (visited ++ [i]) slot := by
  by_cases hnew : op = .store ∧ slot = b
  · obtain ⟨rfl, rfl⟩ := hnew
    exact .inr ⟨i, by simp, hfetch⟩
  · have hold : slot ∈ u.written := by
      unfold Shape.after at hslot
      by_cases hop : op = .store
      · rw [if_pos hop] at hslot
        exact (Set.mem_insert_iff.1 hslot).resolve_left fun heq => hnew ⟨hop, heq⟩
      · rwa [if_neg hop] at hslot
    rcases hwritten slot hold with hzero | ⟨k, hk, hstore⟩
    · exact .inl hzero
    · exact .inr ⟨k, List.mem_append_left _ hk, hstore⟩

/-- Every path through typed code meets the annotation, with no more slots written than those it has
stored into. -/
lemma Path.arrives {A : Annotation} {E : Shape → Prop} {X : Nat → Shape → Prop}
    (hbytes : encode n is = .ok bytes) (hA : Types A 0 ⟨0, {0}⟩ is E X) {visited : List Nat}
    {i : Nat} (h : Path bytes visited i) :
    ∃ u : Shape, (∀ s ∈ u.written, s = 0 ∨ Stored bytes visited s) ∧
      Arrives 0 A E is.length i u := by
  induction h with
  | start => exact ⟨⟨0, {0}⟩, fun s hs => .inl hs, hA.entry (Shape.fits_refl _)⟩
  | @step visited i t op b _ hfetch ht ih =>
    have hinst := (fetch?_eq_some_iff hbytes).1 hfetch
    obtain ⟨u, hwritten, ⟨rfl, -⟩ | ⟨hlo, -, u', hu', hfits⟩⟩ := ih
    · rw [fetch?_length_encode hbytes] at hfetch
      cases hfetch
    · refine ⟨_, fun s hs => ?_, hA.arrives hlo hinst hu' t ht⟩
      exact stored_of_mem_after (fun r hr => hwritten r (hfits.2 hr)) hfetch hs

/-- A path through typed code reads no slot but that of the root before it has stored into it. -/
lemma Path.stored_of_reads {A : Annotation} {E : Shape → Prop} {X : Nat → Shape → Prop}
    (hbytes : encode n is = .ok bytes) (hA : Types A 0 ⟨0, {0}⟩ is E X) {visited : List Nat}
    {i : Nat} (h : Path bytes visited i) {op : Opcode} {slot : UInt8}
    (hfetch : fetch? bytes i = some (op, slot)) (hreads : op.readsSlot = true) (hslot : slot ≠ 0) :
    Stored bytes visited slot := by
  have hinst := (fetch?_eq_some_iff hbytes).1 hfetch
  obtain ⟨u, hwritten, ⟨rfl, -⟩ | ⟨hlo, -, u', hu', hfits⟩⟩ := h.arrives hbytes hA
  · rw [fetch?_length_encode hbytes] at hfetch
    cases hfetch
  · have hread : slot ∈ u'.written := (hA.enables hlo hinst hu').2 hreads
    exact (hwritten slot (hfits.2 hread)).resolve_left hslot

end Code

open Code

namespace Job

variable {job : Job}

/-- The locals of a mapping: the root, which has the first slot, and those that its body makes when
it is emitted. -/
inductive Makes (job : Job) (m : MappingDef) (constants : Pool Constant) : List Local → Prop
  | mk {returns : Bool} {σ : EmitState} {ls : List Local}
      (hrun : job.emitStmts m.body (.start constants) = .ok returns σ)
      (hbody : Emits job [] (.stmts m.body returns) (.start constants) σ)
      (hlocals : hbody.Locals ls) : Makes job m constants (⟨.root, 0⟩ :: ls)

/-- The locals of a mapping have different slots. -/
lemma Makes.pairwise {m : MappingDef} {constants : Pool Constant} {ls : List Local}
    (h : job.Makes m constants ls) : ls.Pairwise (·.slot ≠ ·.slot) := by
  obtain @⟨returns, σ, made, -, hbody, hlocals⟩ := h
  have hslots : made.map (·.slot.toNat) = List.range' 1 made.length := hlocals.numbered.slots
  have hnodup : ((⟨.root, 0⟩ :: made : List Local).map (·.slot.toNat)).Nodup := by
    rw [List.map_cons, hslots]
    refine List.nodup_cons.2 ⟨fun hmem => ?_, List.nodup_range'⟩
    have hpos := (List.mem_range'_1.1 hmem).1
    simp at hpos
  refine (List.pairwise_map.1 hnodup).imp fun hne heq => hne ?_
  rw [heq]

/-- A mapping that compiles makes locals. -/
lemma exists_makes (hstd : job.builtins = .standard) {m : MappingDef}
    {constants constants' : Pool Constant} {bytes : List UInt8}
    (h : job.compileMapping m constants = .ok bytes constants') :
    ∃ ls, job.Makes m constants ls := by
  cases hrun : job.emitStmts m.body (.start constants) with
  | error p σ =>
    have hemit : job.emitMapping m (.start constants) = .error p σ := Step.bind_of_error hrun
    rw [compileMapping, hemit] at h
    cases h
  | ok returns σ =>
    have hinline := Emission.derives_emitCall hstd []
    have hbody := (Emission.derives_emitStmts hstd hinline m.body
      (EmitState.sound_start constants)).of_ok hrun
    obtain ⟨ls, hlocals⟩ := hbody.exists_locals
    exact ⟨_, .mk hrun hbody hlocals⟩

/-- **Slots are never shared, and written before they are read.**  Any two of the locals that a
mapping makes, the root among them, have different slots.  Every path that gets to an instruction
which reads a slot has stored into that slot, unless it is that of the root. -/
theorem slots_of_compileMapping (hstd : job.builtins = .standard) {m : MappingDef}
    {constants constants' : Pool Constant} {bytes : List UInt8}
    (h : job.compileMapping m constants = .ok bytes constants') :
    (∃ ls, job.Makes m constants ls) ∧
      (∀ ls, job.Makes m constants ls → ls.Pairwise (·.slot ≠ ·.slot)) ∧
      ∀ {visited : List Nat} {i : Nat} {op : Opcode} {slot : UInt8}, Path bytes visited i →
        fetch? bytes i = some (op, slot) → op = .load ∨ op = .next ∨ op = .hasNext → slot ≠ 0 →
        ∃ k ∈ visited, fetch? bytes k = some (.store, slot) := by
  refine ⟨exists_makes hstd h, fun ls hls => hls.pairwise, ?_⟩
  intro visited i op slot hpath hfetch hop hslot
  obtain ⟨σ, hemits⟩ := emitsMapping_of_compileMapping hstd h
  obtain ⟨X, A, hA⟩ := hemits.typed_start hstd
  obtain ⟨-, -, -, hbuild⟩ := hemits
  have hreads : op.readsSlot = true := by
    rcases hop with rfl | rfl | rfl <;> rfl
  exact hpath.stored_of_reads hbuild hA hfetch hreads hslot

/-- In the loop of a mapping, the slot of the item is read after it has been written. -/
theorem slots_ofCheck :
    ∃ bytes constants, ofCheck.compileMapping checkMapping {} = .ok bytes constants ∧
      Path bytes [0, 1, 2, 3, 4, 5, 6, 7, 8, 9] 10 ∧ fetch? bytes 10 = some (.load, 2) ∧
      (∃ ls, ofCheck.Makes checkMapping {} ls ∧ ls.Pairwise (·.slot ≠ ·.slot)) ∧
      ∃ k ∈ [0, 1, 2, 3, 4, 5, 6, 7, 8, 9], fetch? bytes k = some (.store, 2) := by
  have hpath : Path checkCode (List.range 10) 10 := by
    refine path_range fun k hk => ?_
    interval_cases k <;> exact ⟨_, _, rfl, by decide⟩
  obtain ⟨⟨ls, hls⟩, hpairwise, hstored⟩ := slots_of_compileMapping rfl compileMapping_ofCheck
  exact ⟨_, _, compileMapping_ofCheck, hpath, rfl, ⟨ls, hls, hpairwise ls hls⟩,
    hstored hpath rfl (.inl rfl) (by decide)⟩

end Job

end Arbor
