import Arbor.Emission.Mapping
import Arbor.Proofs.Code.Encoding
import Arbor.Proofs.Emission.Bodies

/-!
# Outcomes of mappings

The body of a mapping is emitted from a sound state with nothing in it but the root.  When it has
been emitted there is one frame, the jumps that still wait are the returns recorded in it, and they
are pointed at the end of the code.  So no jump waits when the code is encoded.

* `EmitsMapping`: a derivation of the body of a mapping, and what comes after it.
* `Job.ensures_emitMapping`: mappings are emitted with such a derivation, or end in an expected
  problem.
-/

namespace Arbor

open Code Step

/-! ## Where a mapping starts and ends -/

/-- Emission of a mapping starts from a sound state. -/
lemma EmitState.sound_start (constants : Pool Constant) : (EmitState.start constants).Sound where
  linked := linked_nil
  settled := by
    have hopened : Scopes.Settled 0 [({ role := some (.root 0) } : Scope)] :=
      Scopes.Settled.nil.open_empty rfl
    have hslot : (0 : UInt8).toNat = 0 := rfl
    exact hopened.bind_stored rfl hslot (.of .node) true
  framed := ⟨0, rfl, rfl⟩

/-- Nothing is known where a mapping starts. -/
lemma EmitState.holds_start (P : Datum → Prop) (constants : Pool Constant) :
    (EmitState.start constants).scopes.Holds P :=
  Scopes.Holds.bind_stored (s := { role := some (.root 0) })
    (Scopes.Holds.nil.open_empty rfl) _ _ _ _

/-- The code of a mapping: its body, with the returns pointed at the end. -/
inductive EmitsMapping (job : Job) (m : MappingDef) (constants : Pool Constant)
    (bytes : List UInt8) (σ' : EmitState) : Prop
  | mk {returns : Bool} {σ : EmitState} {frame : Frame}
      (hbody : Emits job [] (.stmts m.body returns) (.start constants) σ)
      (hframe : σ.frames = [frame])
      (hpatch : Emit.patchAll frame.exits { σ with frames := [] } = .ok () σ')
      (hbuild : σ'.code.build = .ok bytes)

/-- When the only frame is closed, the returns recorded in it are the jumps that wait. -/
lemma EmitState.Proceeds.exists_single {constants : Pool Constant} {σ : EmitState}
    (h : (EmitState.start constants).Proceeds σ) :
    ∃ frame, σ.frames = [frame] ∧
      Grown [] { σ with frames := [] }.code.instructions (frame.exits ++ []) := by
  obtain ⟨new, hext⟩ := h.extend
  obtain ⟨before, top, top', hstart, hframes, hexits⟩ := hext.frames
  have hsingle : [] ++ [Frame.mk [] []] = before ++ [top] := hstart
  obtain ⟨rfl, rfl⟩ := List.append_singleton_inj.1 hsingle
  refine ⟨top', hframes, ?_⟩
  have hnew : top'.exits = new := by simpa using hexits
  rw [List.append_nil, hnew]
  exact hext.code

/-- The code of a mapping is linked, and none of its jumps waits. -/
lemma EmitsMapping.grown {job : Job} (hstd : job.builtins = .standard) {m : MappingDef}
    {constants : Pool Constant} {bytes : List UInt8} {σ : EmitState}
    (h : EmitsMapping job m constants bytes σ) : Grown [] σ.code.instructions [] := by
  obtain ⟨hbody, hframe, hpatch, -⟩ := h
  have hproceeds : EmitState.Proceeds _ _ :=
    hbody.effect hstd (EmitState.sound_start constants) trivial
  obtain ⟨frame', hframe', hgrown⟩ := hproceeds.exists_single
  obtain rfl : frame' = _ := List.singleton_inj.1 (hframe'.symm.trans hframe)
  exact (Emit.grown_patchAll hgrown linked_nil hpatch).1

namespace Emit

/-- Closing the only frame and encoding the code. -/
lemma ensures_finish {σ : EmitState} {frame : Frame} {Q : List UInt8 → EmitState → Prop}
    (hframe : σ.frames = [frame])
    (hgrown : Grown [] { σ with frames := [] }.code.instructions (frame.exits ++ []))
    (hok : ∀ bytes σ', patchAll frame.exits { σ with frames := [] } = .ok () σ' →
      σ'.code.build = .ok bytes → Q bytes σ') :
    Ensures finish σ Q fun p _ => p.IsExpected := by
  have hclose : closeFrame .mappingFrameMissing σ = .ok frame { σ with frames := [] } := by
    simp [closeFrame, hframe]
  unfold finish
  refine ensures_bind_of_ok hclose (ensures_get_bind ?_)
  have hpatched : Ensures (patchAll frame.exits >>= fun _ => do (← get).code.build : Emit _)
      { σ with frames := [] } Q (EmitState.Fails True { σ with frames := [] }) := by
    refine ensures_patchAll_bind hgrown linked_nil rfl fun σ' hpatch => ensures_get_bind ?_
    have hrest := (grown_patchAll hgrown linked_nil hpatch).1
    -- Every jump that waited has been patched.
    have hnone : ∀ i, ¬ IsPending σ'.code.instructions i := fun i hi =>
      List.not_mem_nil (hrest.mem_iff.2 ⟨Nat.zero_le i, hi⟩)
    obtain ⟨bytes, hbytes⟩ := exists_encode_eq_ok hnone 0
    have hbuild : σ'.code.build = .ok bytes := hbytes
    refine ensures_lift (fun p hp => ?_) fun b hb => hok b σ' hpatch hb
    rw [hbuild] at hp
    cases hp
  exact hpatched.mono (fun _ _ h => h) fun _ _ hfail => hfail.2 trivial

end Emit

namespace Job

variable {job : Job}

/-- A mapping is emitted with a derivation.  If all data that the program writes are flat, only
expected problems keep it from being emitted. -/
lemma ensures_emitMapping (hstd : job.builtins = .standard) (m : MappingDef)
    (constants : Pool Constant) :
    Ensures (job.emitMapping m) (.start constants)
      (fun bytes σ' => EmitsMapping job m constants bytes σ')
      (fun p _ => job.Preserves Datum.IsFlat → (∀ d ∈ Stmt.literalsAll m.body, d.IsFlat) →
        p.IsExpected) := by
  have hsound := EmitState.sound_start constants
  have hinline := Emission.derives_emitCall hstd []
  have hrun : Ensures (job.emitStmts m.body) (.start constants) _ _ :=
    (Emission.derives_emitStmts hstd hinline m.body hsound).congr rfl
  refine hrun.bind (fun p σ' hfail hjob hlit => ?_) fun returns σ hbody => ?_
  · exact hfail.2 ⟨hjob, EmitState.holds_start _ _, hlit⟩
  · have hproceeds : EmitState.Proceeds _ _ := hbody.effect hstd hsound trivial
    obtain ⟨frame, hframe, hgrown⟩ := hproceeds.exists_single
    have hfinish := Emit.ensures_finish hframe hgrown (Q := EmitsMapping job m constants)
      fun bytes σ' hpatch hbuild => .mk hbody hframe hpatch hbuild
    exact hfinish.mono (fun _ _ h => h) fun _ _ h _ _ => h

/-- A mapping that compiles has a derivation, which ends with the constants of the outcome. -/
lemma exists_emitsMapping (hstd : job.builtins = .standard) {m : MappingDef}
    {constants constants' : Pool Constant} {bytes : List UInt8}
    (h : job.compileMapping m constants = .ok bytes constants') :
    ∃ σ, EmitsMapping job m constants bytes σ ∧ σ.constants = constants' := by
  unfold compileMapping at h
  cases hemit : job.emitMapping m (.start constants) with
  | error p σ =>
    rw [hemit] at h
    cases h
  | ok bytes' σ =>
    rw [hemit] at h
    cases h
    exact ⟨σ, (ensures_emitMapping hstd m constants).of_ok hemit, rfl⟩

/-- The code of a mapping that compiles has a derivation. -/
lemma emitsMapping_of_compileMapping (hstd : job.builtins = .standard) {m : MappingDef}
    {constants constants' : Pool Constant} {bytes : List UInt8}
    (h : job.compileMapping m constants = .ok bytes constants') :
    ∃ σ, EmitsMapping job m constants bytes σ := by
  obtain ⟨σ, hemits, -⟩ := exists_emitsMapping hstd h
  exact ⟨σ, hemits⟩

/-- A mapping of flat data fails to compile for an expected reason. -/
lemma isExpected_of_compileMapping (hjob : job.Preserves Datum.IsFlat) {m : MappingDef}
    (hlit : ∀ d ∈ Stmt.literalsAll m.body, d.IsFlat) {constants constants' : Pool Constant}
    {p : Problem} (h : job.compileMapping m constants = .error p constants') : p.IsExpected := by
  unfold compileMapping at h
  cases hemit : job.emitMapping m (.start constants) with
  | ok bytes σ =>
    rw [hemit] at h
    cases h
  | error p' σ =>
    rw [hemit] at h
    cases h
    exact (ensures_emitMapping hjob.standard m constants).of_error hemit hjob hlit

end Job

end Arbor
