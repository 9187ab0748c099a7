import Arbor.Proofs.Code.Correspondence
import Arbor.Proofs.Compilation.Discipline
import Arbor.Proofs.Emission.Renaming

/-!
# Mappings are compiled independently

Mappings share a pool of constants, and what earlier mappings left there is all that one mapping can
see of another.  It shows in the indices of constants only: from any two pools, a mapping is
compiled to the same instructions with the same constants, unless one of the pools runs out of
indices.

* `concord_correspondingOutput`: code over two pools is written on alike.
* `Job.compileMapping_of_pools`: a mapping from two pools.
-/

namespace Arbor

open Step

/-- A constant has no index of one byte. -/
def Problem.ExceedsConstants (p : Problem) : Prop :=
  ∃ n cause, p = .defect cause ∧ cause = .indexTooLarge "constant" n ∧
    cause.message = "constant index " ++ toString n ++ " exceeds one byte"

/-- The instructions correspond over the two pools. -/
def CorrespondingOutput (c : Code) (p : Pool Constant) (c' : Code) (p' : Pool Constant) : Prop :=
  Code.Correspond p p' c.instructions c'.instructions

lemma concord_correspondingOutput :
    Concord CorrespondingOutput Problem.ExceedsConstants fun op => op.readsConstant = false where
  size_eq h := h.length_eq
  plain_of_readsConstant hop := hop
  push b hop h := h.snoc (.refl hop)
  reserve hop h := h.snoc (.refl_of_isForwardJump hop)
  patch a h := h.patch a
  build h := h.encode 0
  refer {c c' p p' op k} hop h hlt hlt' := by
    refine (h.mono (Pool.entries_isPrefix_intern p k) (Pool.entries_isPrefix_intern p' k)).snoc ?_
    refine ⟨rfl, fun hplain => absurd hop (by simp [hplain]), fun _ => ⟨_, _, k, rfl, rfl, ?_, ?_⟩⟩
    · rw [UInt8.toNat_ofNat_of_lt' hlt]
      exact p.getElem?_intern k
    · rw [UInt8.toNat_ofNat_of_lt' hlt']
      exact p'.getElem?_intern k
  exceed _ _ := .inr fun n => ⟨n, _, rfl, rfl, rfl⟩

/-- Two byte strings with the same instructions over two pools.  Only where a constant is referred
to may operands differ, and they lead to the same constant then. -/
structure Code.SameOver (pool pool' : List Constant) (bytes bytes' : List UInt8) : Prop where
  length_eq : bytes'.length = bytes.length
  fetch : ∀ i < bytes.length / 2, ∃ op b b',
    fetch? bytes i = some (op, b) ∧ fetch? bytes' i = some (op, b') ∧
      (op.readsConstant = false → b' = b) ∧
      (op.readsConstant = true → ∃ c, pool[b.toNat]? = some c ∧ pool'[b'.toNat]? = some c)

lemma Code.Correspond.sameOver {pool pool' : Pool Constant} {is is' : List Instruction}
    (h : Code.Correspond pool pool' is is') {n : Nat} {bytes bytes' : List UInt8}
    (hbytes : Code.encode n is = .ok bytes) (hbytes' : Code.encode n is' = .ok bytes') :
    Code.SameOver pool.entries pool'.entries bytes bytes' where
  length_eq := by rw [length_encode hbytes, length_encode hbytes', h.length_eq]
  fetch := by
    intro i hi
    have hlength := length_encode hbytes
    have hinst := List.getElem?_eq_getElem (show i < is.length by omega)
    obtain ⟨inst', hinst', hcorr⟩ := h.exists_getElem? hinst
    obtain ⟨b, hb, hfetch⟩ := fetch?_encode hbytes hinst
    obtain ⟨b', hb', hfetch'⟩ := fetch?_encode hbytes' hinst'
    rw [hcorr.opcode_eq] at hfetch'
    refine ⟨_, b, b', hfetch, hfetch', fun hop => ?_, fun hop => ?_⟩
    · have heq := hcorr.operand_eq hop
      rw [hb, hb'] at heq
      exact Operand.byte.inj heq
    · obtain ⟨a, a', c, ha, ha', hc, hc'⟩ := hcorr.constant_eq hop
      rw [hb] at ha
      rw [hb'] at ha'
      cases ha
      cases ha'
      exact ⟨c, hc, hc'⟩

/-- A mapping is emitted alike from any two pools. -/
lemma Job.ends_emitMapping {job : Job}
    (hplain : ∀ b ∈ job.builtins.entries, b.opcode.readsConstant = false) (m : MappingDef)
    (pool pool' : Pool Constant) :
    Ends (fun _ => 0) (EmitState.Mirrors CorrespondingOutput id) Problem.ExceedsConstants
      (fun _ _ => True) (.start pool) (.start pool') (job.emitMapping m (.start pool))
      (job.emitMapping m (.start pool')) := by
  have hjob : job.EmitsAlike CorrespondingOutput Problem.ExceedsConstants
      (fun op => op.readsConstant = false) job :=
    ⟨concord_correspondingOutput, .refl job, hplain⟩
  have hends := hjob.parallel_emitMapping Function.injective_id m (.start pool) (.start pool')
    (EmitState.mirrors_start rfl .nil)
  rwa [MappingDef.rename_id] at hends

/-- **Mappings are compiled independently.**  If builtins refer to no constants, then compiling a
mapping with two pools of constants yields the same instructions with the same constants, or the
same fault, unless the second pool runs out of indices. -/
theorem Job.compileMapping_of_pools (job : Job)
    (hplain : ∀ b ∈ job.builtins.entries, b.opcode.readsConstant = false) (m : MappingDef)
    (pool pool' : Pool Constant) :
    (∀ bytes final, job.compileMapping m pool = .ok bytes final →
        (∃ p final', job.compileMapping m pool' = .error p final' ∧ p.ExceedsConstants) ∨
        ∃ bytes' final', job.compileMapping m pool' = .ok bytes' final' ∧
          Code.SameOver final.entries final'.entries bytes bytes') ∧
      ∀ cause span final, job.compileMapping m pool = .error (.fault cause span) final →
        ∃ p final', job.compileMapping m pool' = .error p final' ∧
          (p = .fault cause span ∨ p.ExceedsConstants) := by
  have hends := job.ends_emitMapping hplain m pool pool'
  unfold compileMapping
  generalize hleft : job.emitMapping m (.start pool) = r at hends ⊢
  generalize hright : job.emitMapping m (.start pool') = r' at hends ⊢
  cases hends with
  | ok _ hmirror _ _ =>
    refine ⟨fun bytes final h => .inr ?_, fun _ _ _ h => by cases h⟩
    cases h
    exact ⟨_, _, rfl, hmirror.output.sameOver (Job.build_of_emitMapping hleft)
      (Job.build_of_emitMapping hright)⟩
  | error p hmirror _ _ =>
    refine ⟨fun _ _ h => (by cases h), fun cause span final h => ?_⟩
    cases h
    exact ⟨_, _, rfl, .inl rfl⟩
  | strayLeft hstray _ =>
    refine ⟨fun _ _ h => (by cases h), fun cause span final h => ?_⟩
    cases h
    obtain ⟨_, _, hdefect, -⟩ := hstray
    cases hdefect
  | strayRight hstray _ =>
    exact ⟨fun _ _ _ => .inl ⟨_, _, rfl, hstray⟩, fun _ _ _ _ => ⟨_, _, rfl, .inr hstray⟩⟩

/-- A mapping that refers to two attributes and a string. -/
def MappingDef.ofAttributes : MappingDef where
  ident := ⟨"weigh", .nowhere⟩
  labels := []
  body :=
    [.ifThen (.binary .eq (.attr ⟨"root", .nowhere⟩ ⟨"flag", .nowhere⟩ .nowhere)
          (.literal (.bool true) .nowhere) .nowhere)
        [.ret (some (.literal (.str "light") .nowhere))],
      .ret (some (.attr ⟨"root", .nowhere⟩ ⟨"weight", .nowhere⟩ .nowhere))]

/-- The second pool knows one of the attributes already, so all indices differ. -/
theorem Job.compileMapping_of_pools_ofAttributes :
    (∀ b ∈ Builtins.standard.entries, b.opcode.readsConstant = false) ∧
      (⟨⟨[], []⟩, .optimized, .standard⟩ : Job).compileMapping .ofAttributes {}
        = .ok [2, 0, 4, 0, 48, 0, 25, 0, 65, 2, 0, 1, 64, 2, 2, 0, 4, 2]
          ⟨[.str "flag", .str "light", .str "weight"], by decide⟩ ∧
      Code.SameOver [.str "flag", .str "light", .str "weight"]
        [.str "height", .str "weight", .str "flag", .str "light"]
        [2, 0, 4, 0, 48, 0, 25, 0, 65, 2, 0, 1, 64, 2, 2, 0, 4, 2]
        [2, 0, 4, 2, 48, 0, 25, 0, 65, 2, 0, 3, 64, 2, 2, 0, 4, 1] := by
  have hplain : ∀ b ∈ Builtins.standard.entries, b.opcode.readsConstant = false := by decide
  have hfirst : (⟨⟨[], []⟩, .optimized, .standard⟩ : Job).compileMapping .ofAttributes {}
      = .ok [2, 0, 4, 0, 48, 0, 25, 0, 65, 2, 0, 1, 64, 2, 2, 0, 4, 2]
        ⟨[.str "flag", .str "light", .str "weight"], by decide⟩ := by
    decide +kernel
  have hsecond : (⟨⟨[], []⟩, .optimized, .standard⟩ : Job).compileMapping .ofAttributes
        ⟨[.str "height", .str "weight"], by decide⟩
      = .ok [2, 0, 4, 2, 48, 0, 25, 0, 65, 2, 0, 3, 64, 2, 2, 0, 4, 1]
        ⟨[.str "height", .str "weight", .str "flag", .str "light"], by decide⟩ := by
    decide +kernel
  have hsame := (Job.compileMapping_of_pools _ hplain .ofAttributes {}
    ⟨[.str "height", .str "weight"], by decide⟩).1 _ _ hfirst
  rw [hsecond] at hsame
  refine ⟨hplain, hfirst, ?_⟩
  rcases hsame with ⟨_, _, herror, -⟩ | ⟨_, _, hok, hsame⟩
  · cases herror
  · cases hok
    exact hsame

end Arbor
