import Arbor.Proofs.Code.Loops
import Arbor.Proofs.Code.References
import Arbor.Proofs.Emission.Mappings

/-!
# What is put together piece by piece

Emission writes instructions and interns constants.  It does so in few ways: it adds an instruction,
with or without a constant, it reserves a jump and points it at the end later, and it closes loops.
A relation between outputs that is kept in all these ways (`Additive`) holds between the output
before and after every piece (`Emits.additive`), so that facts about instructions and constants need
no induction over derivations of their own.
-/

namespace Arbor

open Code

/-- What emission writes: instructions, and the constants they refer to. -/
structure Output where
  instructions : List Instruction
  constants : Pool Constant

/-- What has been written so far. -/
def EmitState.output (σ : EmitState) : Output := ⟨σ.code.instructions, σ.constants⟩

/-- A relation between an output and what becomes of it that is kept in all the ways of writing. -/
structure Additive (P : Output → Output → Prop) : Prop where
  refl : ∀ o, P o o
  trans : ∀ {o o₁ o' : Output}, o.instructions <+: o₁.instructions →
    o₁.instructions <+: o'.instructions → Linked o₁.instructions → Linked o'.instructions →
    P o o₁ → P o₁ o' → P o o'
  /-- An instruction that does not jump and refers to no constant. -/
  add : ∀ {o : Output} {is : List Instruction} {pool : Pool Constant} {op : Opcode} (b : UInt8),
    op.isJump = false → op.readsConstant = false → P o ⟨is, pool⟩ →
    P o ⟨is ++ [⟨op, .byte b⟩], pool⟩
  /-- An instruction that refers to a constant. -/
  addConstant : ∀ {o : Output} {is : List Instruction} {pool : Pool Constant} {op : Opcode}
    {c : Constant}, op.readsConstant = true → (op.readsName = true → ∃ text, c = .str text) →
    (pool.intern c).1 < 256 → P o ⟨is, pool⟩ →
    P o ⟨is ++ [⟨op, .byte (UInt8.ofNat (pool.intern c).1)⟩], (pool.intern c).2⟩
  /-- A jump that waits for its target. -/
  hold : ∀ {o : Output} {is : List Instruction} {pool : Pool Constant} {op : Opcode},
    op.isForwardJump = true → P o ⟨is, pool⟩ → P o ⟨is ++ [⟨op, .pending⟩], pool⟩
  /-- A jump that gets its target. -/
  patch : ∀ {o : Output} {is is' : List Instruction} {pool : Pool Constant} {a : Nat},
    Clips a is is' → P o ⟨is, pool⟩ → P o ⟨is', pool⟩
  /-- A loop whose body has been written. -/
  close : ∀ {o : Output} {is is₁ is' : List Instruction} {pool pool₁ : Pool Constant}
    {iter item b : UInt8}, o.instructions.length ≤ is.length → Linked is → P o ⟨is, pool⟩ →
    P ⟨loopStart is iter item, pool⟩ ⟨is₁, pool₁⟩ → loopStart is iter item <+: is₁ → Linked is₁ →
    is.length + 2 + b.toNat = is₁.length + 1 →
    Clips (is.length + 3) (is₁ ++ [⟨.jumpBack, .byte b⟩]) is' → P o ⟨is', pool₁⟩

/-! ## Opcodes -/

lemma Datum.plain_of_immediate? {d : Datum} {op : Opcode} {b : UInt8}
    (h : d.immediate? = some (op, b)) : op.isJump = false ∧ op.readsConstant = false := by
  unfold immediate? at h
  split at h
  · cases h; decide
  · cases h; decide
  · cases h; decide
  · split at h
    · cases h; decide
    · cases h
  · obtain ⟨x, -, hx⟩ := Option.map_eq_some_iff.1 h
    cases hx; decide
  · cases h

/-- Scalars that are not pushed by themselves are constants, and the name of a kind is a string. -/
lemma Datum.reads_of_pooled? {d : Datum} {op : Opcode} {c : Constant}
    (h : d.pooled? = some (op, c)) :
    op.readsConstant = true ∧ (op.readsName = true → ∃ text, c = .str text) := by
  unfold pooled? at h
  split at h
  · cases h; simp [Opcode.readsConstant, Opcode.readsName]
  · cases h; simp [Opcode.readsConstant, Opcode.readsName]
  · cases h; simp [Opcode.readsConstant]
  · cases h

lemma Builtins.standard_readsConstant :
    ∀ b ∈ standard.entries, b.opcode.readsConstant = false := by
  decide +kernel

lemma Overloads.Standard.plain_of_infer {o : Overloads} (h : o.Standard) {types : List ValueType}
    {span : Span} {t : ValueType} {op : Opcode} (hinfer : o.infer types span = .ok (t, op)) :
    op.isJump = false ∧ op.readsConstant = false := by
  obtain ⟨b, hb, -, rfl⟩ := infer_eq_ok hinfer
  have hmem := (h.mem_candidates hb).1
  exact ⟨Builtins.standard_isJump b hmem, Builtins.standard_readsConstant b hmem⟩

/-! ## States -/

namespace Additive

variable {P : Output → Output → Prop} {σ σ₁ σ' : EmitState} {new new' exits exits' : List Anchor}

lemma comp (hP : Additive P) (hext : σ.Extends σ₁ new exits) (hext' : σ₁.Extends σ' new' exits')
    (h : P σ.output σ₁.output) (h' : P σ₁.output σ'.output) : P σ.output σ'.output := by
  have hfirst : σ.output.instructions <+: σ₁.output.instructions := hext.code.isPrefix
  have hrest : σ₁.output.instructions <+: σ'.output.instructions := hext'.code.isPrefix
  exact hP.trans hfirst hrest hext.code.linked hext'.code.linked h h'

/-- Patching jumps that wait, one after the other. -/
lemma patchAll (hP : Additive P) {o : Output} {is : List Instruction} {as rest : List Anchor}
    (hgrown : Grown is σ.code.instructions (as ++ rest)) (hlink : Linked is)
    (hpatch : Emit.patchAll as σ = .ok () σ') (h : P o σ.output) : P o σ'.output := by
  induction as generalizing σ with
  | nil =>
    cases hpatch
    exact h
  | cons a as ih =>
    obtain ⟨c, hc, hrest⟩ := Emit.patchAll_cons_eq_ok hpatch
    have hmiddle : Grown is σ.code.instructions ([] ++ a :: (as ++ rest)) := hgrown
    have hclip := clips_of_patch hgrown.linked hmiddle.isPending hc
    exact ih (hmiddle.patch hlink hclip) hrest (hP.patch hclip h)

end Additive

/-! ## The induction -/

variable {job : Job} {entered : List String} {piece : Piece} {σ σ' : EmitState}

/-- **Emission keeps what is kept in all the ways of writing.** -/
theorem Emits.additive {P : Output → Output → Prop} (hP : Additive P)
    (hstd : job.builtins = .standard) (h : Emits job entered piece σ σ') (hσ : σ.Sound)
    (hready : piece.Ready σ) : P σ.output σ'.output := by
  induction h with
  | immediate hd =>
    obtain ⟨hjump, hconst⟩ := Datum.plain_of_immediate? hd
    exact hP.add _ hjump hconst (hP.refl _)
  | pooled _ hd hindex =>
    obtain ⟨hop, hname⟩ := Datum.reads_of_pooled? hd
    exact hP.addConstant hop hname hindex (hP.refl _)
  | appendedNil => exact hP.refl _
  | appendedCons hd hds ihd ihds =>
    have hpush := (hd.effect hstd hσ trivial : EmitState.Pushes _ _).add .append rfl 0
    obtain ⟨_, _, hext⟩ := hds.exists_extends hstd (hpush.sound hσ) trivial
    exact hP.comp hpush.extend hext (hP.add 0 rfl rfl (ihd hσ trivial))
      (ihds (hpush.sound hσ) trivial)
  | scalar _ ih => exact ih hσ trivial
  | listDatum hds ih =>
    have hpush := hσ.pushes_refl.add .list rfl 0
    obtain ⟨_, _, hext⟩ := hds.exists_extends hstd (hpush.sound hσ) trivial
    exact hP.comp hpush.extend hext (hP.add 0 rfl rfl (hP.refl _)) (ih (hpush.sound hσ) trivial)
  | folded _ _ ih => exact ih hσ trivial
  | emitted _ _ ih => exact ih hσ trivial
  | stored _ => exact hP.add _ rfl rfl (hP.refl _)
  | attr _ _ hindex =>
    exact hP.addConstant rfl (fun _ => ⟨_, rfl⟩) hindex (hP.add _ rfl rfl (hP.refl _))
  | application happ _ hinfer ih =>
    obtain ⟨hjump, hconst⟩ := (happ.standard hstd).plain_of_infer hinfer
    exact hP.add 0 hjump hconst (ih hσ trivial)
  | inlined _ _ _ hparams hcall ihparams ihcall =>
    obtain ⟨hpush, hready'⟩ := hparams.ready_call hstd hσ
    obtain ⟨_, _, hext⟩ := hcall.exists_extends hstd (hpush.sound hσ) hready'
    exact hP.comp hpush.extend hext (ihparams hσ (Scopes.Settled.nil.open_empty rfl))
      (ihcall (hpush.sound hσ) hready')
  | list hes ih =>
    have hpush := hσ.pushes_refl.add .list rfl 0
    obtain ⟨_, _, hext⟩ := hes.exists_extends hstd (hpush.sound hσ) trivial
    exact hP.comp hpush.extend hext (hP.add 0 rfl rfl (hP.refl _)) (ih (hpush.sound hσ) trivial)
  | argsNil => exact hP.refl _
  | argsCons he hes ihe ihes =>
    have hpush : EmitState.Pushes _ _ := he.effect hstd hσ trivial
    obtain ⟨_, _, hext⟩ := hes.exists_extends hstd (hpush.sound hσ) trivial
    exact hP.comp hpush.extend hext (ihe hσ trivial) (ihes (hpush.sound hσ) trivial)
  | itemsNil => exact hP.refl _
  | itemsCons he _ hes ihe ihes =>
    have hpush := (he.effect hstd hσ trivial : EmitState.Pushes _ _).add .append rfl 0
    obtain ⟨_, _, hext⟩ := hes.exists_extends hstd (hpush.sound hσ) trivial
    exact hP.comp hpush.extend hext (hP.add 0 rfl rfl (ihe hσ trivial))
      (ihes (hpush.sound hσ) trivial)
  | paramsNil _ => exact hP.refl _
  | paramsKnown _ hdef _ ih =>
    obtain ⟨-, hnone, rfl⟩ := Scope.define_eq_ok_iff.1 hdef
    exact ih hσ (Scopes.Settled.bind_constant hready hnone _)
  | @paramsStored _ _ _ _ _ _ _ _ _ _ _ t slot _ he hslot hdef hes ihe ihes =>
    obtain ⟨-, hnone, rfl⟩ := Scope.define_eq_ok_iff.1 hdef
    have hpush : EmitState.Pushes _ _ := he.effect hstd hσ trivial
    have hstore := hpush.store_fresh hslot
    have hready' := (Scopes.Settled.mono hready hpush.extend.slots).bind_stored hnone
      (Slots.toNat_of_fresh hslot) t true
    obtain ⟨_, _, hext⟩ := hes.exists_extends hstd (hstore.sound hσ) hready'
    exact hP.comp hstore.extend hext (hP.add slot rfl rfl (ihe hσ trivial))
      (ihes (hstore.sound hσ) hready')
  | @call _ σ σ₁ _ d _ returns frame _ _ hbody hframe hpatch ih =>
    have hopen := hσ.openFrame d.ident.name hready.1 hready.2
    have hproceeds : EmitState.Proceeds _ _ := hbody.effect hstd hopen trivial
    obtain ⟨frame', hframe', hend⟩ := hproceeds.exists_frame hσ returns
    obtain ⟨-, rfl⟩ := List.append_singleton_inj.1 (hframe.symm.trans hframe')
    refine hP.patchAll hend.code hσ.linked hpatch ?_
    have hinner : P σ.output σ₁.output := ih hopen trivial
    cases returns with
    | true => exact hinner
    | false => exact hP.add 0 rfl rfl hinner
  | block _ ih => exact ih hσ.enter_empty trivial
  | constant _ _ _ => exact hP.refl _
  | define _ _ _ _ _ ih => exact hP.add _ rfl rfl (ih hσ trivial)
  | assign _ _ _ ih => exact hP.add _ rfl rfl (ih hσ trivial)
  | returnNone _ => exact hP.hold rfl (hP.add 0 rfl rfl (hP.refl _))
  | returnValue _ _ ih => exact hP.hold rfl (ih hσ trivial)
  | @ifThen _ σ σ₁ σ₂ _ _ _ _ _ hcond _ hyes hpatch ihcond ihyes =>
    have hpush : EmitState.Pushes _ _ := hcond.effect hstd hσ trivial
    have hsound := ((hpush.sound hσ).hold .jumpUnless rfl).enter_empty
    have hproceeds : EmitState.Proceeds _ _ := hyes.effect hstd hsound trivial
    obtain ⟨new, hext⟩ := hproceeds.extend
    have hheld : P σ.output ((σ₁.hold .jumpUnless).enter {}).output :=
      hP.hold rfl (ihcond hσ trivial)
    have hbranch : P σ.output σ₂.output :=
      hP.comp ((hpush.extend.hold .jumpUnless rfl).withScopes _) hext hheld (ihyes hsound trivial)
    exact hP.patch (hσ.clips_ifThen hpush hproceeds hpatch).2.1 hbranch
  | @ifElse _ σ σ₁ σ₂ σ₃ _ _ _ _ _ _ c c' hcond _ hyes hskip hno hdone ihcond ihyes ihno =>
    have hpush : EmitState.Pushes _ _ := hcond.effect hstd hσ trivial
    have hsound := ((hpush.sound hσ).hold .jumpUnless rfl).enter_empty
    have hyes' : EmitState.Proceeds _ _ := hyes.effect hstd hsound trivial
    obtain ⟨new, hext⟩ := hyes'.extend
    obtain ⟨⟨new', hfirst⟩, hsound', -⟩ := hσ.sound_alternative hpush hyes' hskip
    have hno' : EmitState.Proceeds _ _ := hno.effect hstd hsound'.enter_empty trivial
    obtain ⟨new'', hext'⟩ := hno'.extend
    have hheld : P σ.output ((σ₁.hold .jumpUnless).enter {}).output :=
      hP.hold rfl (ihcond hσ trivial)
    have hbranch : P σ.output σ₂.output :=
      hP.comp ((hpush.extend.hold .jumpUnless rfl).withScopes _) hext hheld (ihyes hsound trivial)
    have hskipped : P σ.output ({ σ₂.exit with code := c }.enter {}).output :=
      hP.patch (hσ.clips_skip hpush hyes' hskip).2.1 (hP.hold rfl hbranch)
    have hboth : P σ.output σ₃.output :=
      hP.comp (hfirst.withScopes _) hext' hskipped (ihno hsound'.enter_empty trivial)
    exact hP.patch (hσ.clips_ifElse hpush hyes' hskip hno' hdone).2.1 hboth
  | @loop _ σ σ₁ σ₂ _ _ _ _ iter item scope _ _ _ hitems _ _ hitem hdef hbody hback hexit ihitems
      ihbody =>
    have hpush : EmitState.Pushes _ _ := hitems.effect hstd hσ trivial
    have hsound := (hpush.sound hσ).loopBody iter hitem hdef
    have hproceeds : EmitState.Proceeds _ _ := hbody.effect hstd hsound trivial
    obtain ⟨new, hext⟩ := hproceeds.extend
    have hall := (hpush.extends_loopBody iter item scope).trans hext
    obtain ⟨b, rfl, hb⟩ := Code.exists_of_jumpBack hback
    have hjump := hall.add .jumpBack rfl b
    have hpre : loopStart σ₁.code.instructions iter item <+: σ₂.code.instructions :=
      hext.code.isPrefix
    have hle := hpre.length_le
    rw [length_loopStart] at hle
    refine hP.close hpush.extend.code.length_le hpush.extend.code.linked (ihitems hσ trivial)
      (ihbody hsound trivial) hpre hall.code.linked ?_
      (clips_of_patch hjump.code.linked hjump.code.isPending hexit)
    simp only [Code.size] at hb
    omega
  | fail _ _ ih => exact hP.add 0 rfl rfl (ih hσ trivial)
  | exprKnown _ => exact hP.refl _
  | exprDropped _ _ ih => exact hP.add 0 rfl rfl (ih hσ trivial)
  | stmtsNil => exact hP.refl _
  | stmtsCons hs hss ihs ihss =>
    have hproceeds : EmitState.Proceeds _ _ := hs.effect hstd hσ trivial
    obtain ⟨new, hext⟩ := hproceeds.extend
    obtain ⟨_, _, hext'⟩ := hss.exists_extends hstd hproceeds.sound trivial
    exact hP.comp hext hext' (ihs hσ trivial) (ihss hproceeds.sound trivial)

/-- The code of a mapping is written from nothing, on top of the constants there are. -/
lemma EmitsMapping.additive {P : Output → Output → Prop} (hP : Additive P)
    (hstd : job.builtins = .standard) {m : MappingDef} {constants : Pool Constant}
    {bytes : List UInt8} (h : EmitsMapping job m constants bytes σ) :
    P ⟨[], constants⟩ σ.output := by
  obtain ⟨hbody, hframe, hpatch, -⟩ := h
  have hsound := EmitState.sound_start constants
  have hproceeds : EmitState.Proceeds _ _ := hbody.effect hstd hsound trivial
  obtain ⟨frame', hframe', hgrown⟩ := hproceeds.exists_single
  obtain rfl : frame' = _ := List.singleton_inj.1 (hframe'.symm.trans hframe)
  exact hP.patchAll hgrown linked_nil hpatch (hbody.additive hP hstd hsound trivial)

end Arbor
