import Arbor.Proofs.Code.Typing
import Arbor.Proofs.Emission.Effect

/-!
# Emitted code is typed

Code that is emitted for an expression leaves one more value on the stack, whatever path is taken
through it, and code for statements leaves the stack as it was.  A return takes one value with it,
and where statements are known to return, no run gets to their end.  Slots are written before they
are read, since a name is in scope only where code that stores into its slot has been run.

* `Emits.shaped`: every derivation yields typed code, by one induction.
-/

namespace Arbor

open Code

/-! ## Slots in scope -/

/-- The slots of all bindings have been written. -/
abbrev Shape.Covers (s : Shape) (ss : Scopes) : Prop := Scopes.SlotsAll (· ∈ s.written) ss

namespace Shape

variable {s s₁ : Shape} {ss outer : Scopes} {scope : Scope}

lemma Fits.covers (h : s.Fits s₁) (hcovers : s₁.Covers ss) : s.Covers ss :=
  hcovers.mono fun _ hslot => h.2 hslot

lemma Covers.write_bind (h : s.Covers (scope :: outer)) (name : String) (t : ValueType)
    (slot : UInt8) (f : Bool) :
    (s.write slot).Covers (scope.bind name (.stored t slot f) :: outer) :=
  ((s.write_fits slot).covers h).bind_stored (Set.mem_insert _ _) name t f

end Shape

/-! ## Opcodes -/

/-- Instructions for scalars push one value. -/
lemma Datum.pushes_of_immediate? {d : Datum} {op : Opcode} {b : UInt8}
    (h : d.immediate? = some (op, b)) : op.pops = 0 ∧ op.pushes = 1 ∧ op.readsSlot = false := by
  unfold immediate? at h
  split at h
  · cases h; decide
  · cases h; decide
  · cases h; decide
  · split at h
    · cases h; decide
    · cases h
  · obtain ⟨x, -, hx⟩ := Option.map_eq_some_iff.1 h
    cases hx; decide
  · cases h

lemma Datum.pushes_of_pooled? {d : Datum} {op : Opcode} {c : Constant}
    (h : d.pooled? = some (op, c)) : op.pops = 0 ∧ op.pushes = 1 ∧ op.readsSlot = false := by
  unfold pooled? at h
  split at h
  · cases h; decide
  · cases h; decide
  · cases h; decide
  · cases h

/-- The opcode of a builtin replaces its arguments by one value. -/
lemma Builtins.standard_effect : ∀ b ∈ standard.entries,
    b.opcode.pops = b.params.length ∧ b.opcode.pushes = 1 ∧ b.opcode.readsSlot = false := by
  decide +kernel

lemma Overloads.Standard.effect_of_infer {o : Overloads} (h : o.Standard) {types : List ValueType}
    {span : Span} {t : ValueType} {op : Opcode} (hinfer : o.infer types span = .ok (t, op)) :
    op.pops = types.length ∧ op.pushes = 1 ∧ op.readsSlot = false := by
  obtain ⟨b, hb, haccepts, rfl⟩ := infer_eq_ok hinfer
  have heffect := Builtins.standard_effect b (h.mem_candidates hb).1
  rwa [← Builtin.length_of_acceptsAll haccepts] at heffect

/-! ## Bodies and branches -/

variable {s s₁ : Shape} {X : Nat → Shape → Prop} {is : List Instruction} {E : Shape → Prop}

/-- Where a body starts from a shape, its returns take one value with them. -/
def Shape.Returns (s : Shape) : Nat → Shape → Prop := fun _ t => t.Fits (s.grow 1)

lemma Shape.Fits.returns (h : s.Fits s₁) {i : Nat} {t : Shape} (ht : s.Returns i t) :
    s₁.Returns i t :=
  ht.trans (h.grow 1)

/-- Where nothing waits, nothing need be said about it. -/
lemma Code.Typed.of_no_pending {lo : Nat} (h : Typed lo s is E X)
    (hnone : ∀ i, lo ≤ i → ¬ IsPending is i) (X' : Nat → Shape → Prop) : Typed lo s is E X' := by
  obtain ⟨A, hA⟩ := h
  exact ⟨A, hA.entry, hA.enables, hA.arrives, fun hlo hi _ => absurd ⟨_, hi⟩ (hnone _ hlo)⟩

/-- Patching jumps that wait, one after the other. -/
lemma Emit.typed_patchAll {as rest : List Anchor} {σ σ' : EmitState}
    (hgrown : Grown is σ.code.instructions (as ++ rest)) (hlink : Linked is)
    (hpatch : patchAll as σ = .ok () σ') (h : Typed is.length s σ.code.instructions E X)
    (hE : ∀ u u', u.Fits u' → E u' → E u) (hX : ∀ i t, X i t → E t) :
    Typed is.length s σ'.code.instructions E X := by
  induction as generalizing σ with
  | nil =>
    cases hpatch
    exact h
  | cons a as ih =>
    obtain ⟨c, hc, hrest⟩ := patchAll_cons_eq_ok hpatch
    have hmiddle : Grown is σ.code.instructions ([] ++ a :: (as ++ rest)) := hgrown
    have hclip := clips_of_patch hgrown.linked hmiddle.isPending hc
    have hpatched := hmiddle.patch hlink hclip
    exact ih hpatched hrest
      (h.patch hgrown.linked hclip hpatched.length_le hE (hX a.index) fun _ _ _ ht => ht)

/-- Code that continues statements has to be typed only if runs get to the end of the statements. -/
lemma Code.Typed.of_returns {lo : Nat} {is' : List Instruction} {returns : Bool}
    (h : Typed lo s is (fun t => returns = false ∧ t.Fits s₁) X) (hpre : is <+: is')
    (hlive : returns = false → Typed lo s is (·.Fits s₁) X → Typed lo s is' E X) :
    Typed lo s is' E X := by
  cases returns with
  | true =>
    have hdead : Typed lo s is (fun _ => False) X :=
      h.mono (fun _ ht => absurd ht.1 (by simp)) fun _ _ _ _ hX => hX
    exact (hdead.append_dead hpre).mono (fun _ => False.elim) fun _ _ _ _ hX => hX
  | false => exact hlive rfl (h.mono (fun _ ht => ht.2) fun _ _ _ _ hX => hX)

section Branches

variable {is₁ is₂ is₃ is₄ is' : List Instruction} {s₂ : Shape}

/-- A branch without an alternative. -/
lemma typed_ifThen {returns : Bool}
    (hcond : ∀ X, Typed is.length s is₁ (·.Fits (s.grow 1)) X)
    (hyes : Typed (is₁.length + 1) s is₂ (fun t => returns = false ∧ t.Fits s₁) s.Returns)
    (hs₁ : s₁.Fits s) (hpre : is₁ ++ [⟨.jumpUnless, .pending⟩] <+: is₂) (hlink : Linked is₂)
    (hclip : Clips is₁.length is₂ is') (hle : is.length ≤ is'.length) :
    Typed is.length s is' (·.Fits s) s.Returns := by
  -- The jump over the branch takes the shape of the start with it.
  let X : Nat → Shape → Prop := fun i t => if i = is₁.length then t.Fits s else s.Returns i t
  have hheld := (hcond X).reserve_jumpUnless (by simpa [X] using s.fits_refl)
  have hbranch :
      Typed (is₁ ++ [Instruction.mk .jumpUnless .pending]).length s is₂ (·.Fits s) X := by
    rw [List.length_append, List.length_singleton]
    refine hyes.mono (fun t ht => ht.2.trans hs₁) fun i t hi _ ht => ?_
    simpa [X, show i ≠ is₁.length by omega] using ht
  refine (hheld.trans hbranch hpre).patch hlink hclip hle (fun _ _ h h' => h.trans h') ?_ ?_
  · intro t ht
    simpa [X] using ht
  · intro i t hi ht
    simpa [X, hi] using ht

/-- A branch with an alternative.  The jump over the alternative is got to only if the branch can be
left at its end. -/
lemma typed_ifElse {yesReturns noReturns : Bool}
    (hcond : ∀ X, Typed is.length s is₁ (·.Fits (s.grow 1)) X)
    (hyes : Typed (is₁.length + 1) s is₂ (fun t => yesReturns = false ∧ t.Fits s₁) s.Returns)
    (hs₁ : s₁.Fits s) (hpre : is₁ ++ [⟨.jumpUnless, .pending⟩] <+: is₂)
    (hlink : Linked (is₂ ++ [⟨.jump, .pending⟩]))
    (hskip : Clips is₁.length (is₂ ++ [⟨.jump, .pending⟩]) is₃) (hle : is.length ≤ is₃.length)
    (hlt : is₂.length < is₃.length)
    (hno : Typed is₃.length s is₄ (fun t => noReturns = false ∧ t.Fits s₂) s.Returns)
    (hs₂ : s₂.Fits s) (hpre' : is₃ <+: is₄) (hlink' : Linked is₄) (hdone : Clips is₂.length is₄ is')
    (hle' : is.length ≤ is'.length) :
    Typed is.length s is' (fun t => (yesReturns && noReturns) = false ∧ t.Fits s) s.Returns := by
  have hlength : is₁.length < is₂.length := by
    have := hpre.length_le
    simp only [List.length_append, List.length_singleton] at this
    omega
  let X : Nat → Shape → Prop := fun i t =>
    if i = is₂.length then yesReturns = false ∧ t.Fits s else s.Returns i t
  let X₁ : Nat → Shape → Prop := fun i t => if i = is₁.length then t.Fits s else X i t
  have hheld := (hcond X₁).reserve_jumpUnless (by simpa [X₁] using s.fits_refl)
  have hbranch : Typed (is₁ ++ [Instruction.mk .jumpUnless .pending]).length s
      (is₂ ++ [⟨.jump, .pending⟩]) (fun _ => False) X₁ := by
    rw [List.length_append, List.length_singleton]
    have hyes' : Typed (is₁.length + 1) s is₂ (fun t => yesReturns = false ∧ t.Fits s) X₁ := by
      refine hyes.mono (fun t ht => ⟨ht.1, ht.2.trans hs₁⟩) fun i t hi hlt' ht => ?_
      simpa [X₁, X, show i ≠ is₁.length by omega, Nat.ne_of_lt hlt'] using ht
    refine hyes'.of_returns (List.prefix_append _ _) fun hlive htyped => htyped.reserve_jump ?_
    simpa [X₁, X, Nat.ne_of_gt hlength] using ⟨hlive, s.fits_refl⟩
  have hskipped : Typed is.length s is₃ (·.Fits s) X := by
    have hall := hheld.trans hbranch (hpre.trans (List.prefix_append _ _))
    have hend : Typed is.length s (is₂ ++ [⟨.jump, .pending⟩]) (·.Fits s) X₁ :=
      hall.mono (fun _ => False.elim) fun _ _ _ _ hX => hX
    refine hend.patch hlink hskip hle (fun _ _ h h' => h.trans h') ?_ ?_
    · intro t ht
      simpa [X₁] using ht
    · intro i t hi ht
      simpa [X₁, hi] using ht
  have halternative : Typed is₃.length s is₄
      (fun t => (yesReturns && noReturns) = false ∧ t.Fits s) X := by
    refine hno.mono (fun t ht => ⟨by simp [ht.1], ht.2.trans hs₂⟩) fun i t hi _ ht => ?_
    simpa [X, show i ≠ is₂.length by omega] using ht
  refine (hskipped.trans halternative hpre').patch hlink' hdone hle'
    (fun _ _ h h' => ⟨h'.1, h.trans h'.2⟩) ?_ ?_
  · intro t ht
    have ht' : yesReturns = false ∧ t.Fits s := by simpa [X] using ht
    exact ⟨by simp [ht'.1], ht'.2⟩
  · intro i t hi ht
    simpa [X, hi] using ht

/-- The code of a loop.  Its head has the shape of the start with the slot of the iterator written,
and so has what jumps back to it. -/
lemma typed_loop {iter item b : UInt8} {returns : Bool}
    (hitems : ∀ X, Typed is.length s is₁ (·.Fits (s.grow 1)) X)
    (hhead : is₂ = is₁ ++ [⟨.iter, .byte 0⟩] ++ [⟨.store, .byte iter⟩])
    (hstart : is₃ = is₂ ++ [⟨.hasNext, .byte iter⟩] ++ [⟨.jumpUnless, .pending⟩] ++
      [⟨.next, .byte iter⟩] ++ [⟨.store, .byte item⟩])
    (hbody : Typed is₃.length ((s.write iter).write item) is₄
      (fun t => returns = false ∧ t.Fits s₁) ((s.write iter).write item).Returns)
    (hs₁ : s₁.Fits ((s.write iter).write item)) (hpre : is₃ <+: is₄)
    (hb : b.toNat = is₄.length + 1 - (is₁.length + 2))
    (hlink : Linked (is₄ ++ [⟨.jumpBack, .byte b⟩]))
    (hclip : Clips (is₁.length + 3) (is₄ ++ [⟨.jumpBack, .byte b⟩]) is')
    (hle : is.length ≤ is'.length) : Typed is.length s is' (·.Fits s) s.Returns := by
  let X : Nat → Shape → Prop := fun i t =>
    if i = is₁.length + 3 then t.Fits (s.write iter) else s.Returns i t
  have hsize : is₂.length = is₁.length + 2 := by simp [hhead]
  have hmem : iter ∈ (s.write iter).written := Set.mem_insert _ _
  have hbefore : Typed is.length s is₂ (·.Fits (s.write iter)) X := by
    rw [hhead]
    exact ((hitems X).replace .iter rfl rfl (.inl rfl)).store iter
  have henter : Typed is₂.length (s.write iter) is₃ (·.Fits ((s.write iter).write item)) X := by
    have htest := (typed_nil (s.write iter) is₂ X).replace .hasNext rfl rfl (.inr hmem)
    have hexit := htest.reserve_jumpUnless (by simpa [X, hsize] using (s.write iter).fits_refl)
    have hnext := hexit.replace .next rfl rfl (.inr hmem)
    rw [hstart]
    exact hnext.store item
  have hround : Typed is₂.length (s.write iter) is₄ (fun t => returns = false ∧ t.Fits s₁) X := by
    refine henter.trans (hbody.mono (fun _ ht => ht) fun i t hi _ ht => ?_) hpre
    have hne : i ≠ is₁.length + 3 := by
      have := congrArg List.length hstart
      simp only [List.length_append, List.length_singleton] at this
      omega
    simpa [X, hne] using (((s.write iter).write_fits item).trans (s.write_fits iter)).returns ht
  have hlength : is₂.length ≤ is₄.length := by
    have := hpre.length_le
    rw [hstart] at this
    simp only [List.length_append, List.length_singleton] at this
    omega
  have hback : Typed is₂.length (s.write iter) (is₄ ++ [⟨.jumpBack, .byte b⟩]) (fun _ => False) X :=
    hround.of_returns (List.prefix_append _ _) fun _ htyped =>
      htyped.jumpBack hlength (hs₁.trans ((s.write iter).write_fits item)) (hsize ▸ hb)
  have hend : Typed is₂.length (s.write iter) (is₄ ++ [⟨.jumpBack, .byte b⟩]) (·.Fits s) X :=
    hback.mono (fun _ => False.elim) fun _ _ _ _ hX => hX
  have hpre' : is₂ <+: is₄ ++ [⟨.jumpBack, .byte b⟩] := by
    refine List.IsPrefix.trans ?_ (hpre.trans (List.prefix_append _ _))
    rw [hstart]
    simp only [List.append_assoc]
    exact List.prefix_append _ _
  refine (hbefore.trans hend hpre').patch hlink hclip hle (fun _ _ h h' => h.trans h') ?_ ?_
  · intro t ht
    have ht' : t.Fits (s.write iter) := by simpa [X] using ht
    exact ht'.trans (s.write_fits iter)
  · intro i t hi ht
    simpa [X, hi] using ht

end Branches

/-! ## The induction -/

/-- The code between two states is typed. -/
abbrev EmitState.Shapes (σ σ' : EmitState) (s : Shape) (E : Shape → Prop)
    (X : Nat → Shape → Prop) : Prop :=
  Typed σ.code.instructions.length s σ'.code.instructions E X

/-- How the code of a piece is typed, from any shape in which the slots in scope are written. -/
def Piece.Shaped (σ σ' : EmitState) : Piece → Prop
  | .scalar _ | .datum _ | .value _ _ | .expr _ _ => ∀ (s : Shape) X, s.Covers σ.scopes →
    σ.Shapes σ' s (·.Fits (s.grow 1)) X
  | .appended _ | .items _ _ => ∀ (s : Shape) X, s.Covers σ.scopes →
    σ.Shapes σ' (s.grow 1) (·.Fits (s.grow 1)) X
  | .args _ types => ∀ (s : Shape) X, s.Covers σ.scopes →
    σ.Shapes σ' s (·.Fits (s.grow types.length)) X
  | .params scope _ _ scope' => ∀ s : Shape, s.Covers σ.scopes → s.Covers [scope] →
    ∃ s' : Shape, s'.Fits s ∧ s'.Covers [scope'] ∧ ∀ X, σ.Shapes σ' s (·.Fits s') X
  | .call _ scope _ => ∀ (s : Shape) X, s.Covers [scope] → σ.Shapes σ' s (·.Fits (s.grow 1)) X
  | .stmt _ returns | .stmts _ returns => ∀ s : Shape, s.Covers σ.scopes →
    ∃ s' : Shape, s'.Fits s ∧ s'.Covers σ'.scopes ∧
      σ.Shapes σ' s (fun t => returns = false ∧ t.Fits s') s.Returns

variable {job : Job} {entered : List String} {piece : Piece} {σ σ' : EmitState}

/-- **Emitted code is typed.**  An expression leaves one more value on the stack; statements leave
the stack as it was, or return with one more value. -/
theorem Emits.shaped (hstd : job.builtins = .standard) (h : Emits job entered piece σ σ')
    (hσ : σ.Sound) (hready : piece.Ready σ) : piece.Shaped σ σ' := by
  induction h with
  | immediate hd =>
    intro s X _
    obtain ⟨hpops, hone, hreads⟩ := Datum.pushes_of_immediate? hd
    exact (typed_nil s _ X).replace _ hpops hone (.inl hreads)
  | pooled _ hd _ =>
    intro s X _
    obtain ⟨hpops, hone, hreads⟩ := Datum.pushes_of_pooled? hd
    exact (typed_nil s _ X).replace _ hpops hone (.inl hreads)
  | appendedNil => exact fun s X _ => typed_nil _ _ X
  | @appendedCons _ σ _ _ _ _ hd hds ihd ihds =>
    intro s X hs
    have hpush := (hd.effect hstd hσ trivial : EmitState.Pushes _ _).add .append rfl 0
    have hscalar : σ.Shapes _ _ (·.Fits (s.grow 2)) X := ihd hσ trivial (s.grow 1) X hs
    have hrest := ihds (hpush.sound hσ) trivial s X (hs.of_eq hpush.scopes)
    exact (hscalar.replace .append rfl rfl (.inl rfl)).trans hrest
      (hds.isPrefix hstd (hpush.sound hσ) trivial)
  | scalar _ ih => exact ih hσ trivial
  | @listDatum _ σ _ _ hds ih =>
    intro s X hs
    have hpush := hσ.pushes_refl.add .list rfl 0
    have hlist := (typed_nil s σ.code.instructions X).replace .list (b := 0) rfl rfl (.inl rfl)
    exact hlist.trans (ih (hpush.sound hσ) trivial s X hs)
      (hds.isPrefix hstd (hpush.sound hσ) trivial)
  | folded _ _ ih => exact ih hσ trivial
  | emitted _ _ ih => exact ih hσ trivial
  | stored hfind =>
    intro s X hs
    exact (typed_nil s _ X).replace .load rfl rfl (.inr (hs.of_find? hfind))
  | @attr _ σ _ _ _ _ _ _ hfind _ _ =>
    intro s X hs
    have hload := (typed_nil s σ.code.instructions X).replace .load rfl rfl
      (.inr (hs.of_find? hfind))
    exact hload.replace .attr rfl rfl (.inl rfl)
  | application happ _ hinfer ih =>
    intro s X hs
    obtain ⟨hpops, hone, hreads⟩ := (happ.standard hstd).effect_of_infer hinfer
    exact (ih hσ trivial s X hs).replace _ hpops hone (.inl hreads)
  | inlined _ _ _ hparams hcall ihparams ihcall =>
    intro s X hs
    obtain ⟨hpush, hready'⟩ := hparams.ready_call hstd hσ
    obtain ⟨s', hfits, hcovers, hbound⟩ := ihparams hσ (Scopes.Settled.nil.open_empty rfl) s hs
      (Scopes.SlotsAll.nil.open_empty rfl)
    have hbody := (ihcall (hpush.sound hσ) hready' s' X hcovers).mono
      (fun _ ht => Shape.Fits.trans ht (hfits.grow 1)) fun _ _ _ _ hX => hX
    exact (hbound X).trans hbody (hcall.isPrefix hstd (hpush.sound hσ) hready')
  | @list _ σ _ _ _ _ hes ih =>
    intro s X hs
    have hpush := hσ.pushes_refl.add .list rfl 0
    have hlist := (typed_nil s σ.code.instructions X).replace .list (b := 0) rfl rfl (.inl rfl)
    exact hlist.trans (ih (hpush.sound hσ) trivial s X hs)
      (hes.isPrefix hstd (hpush.sound hσ) trivial)
  | argsNil => exact fun s X _ => typed_nil s _ X
  | @argsCons _ σ _ _ _ _ _ types he hes ihe ihes =>
    intro s X hs
    have hpush : EmitState.Pushes _ _ := he.effect hstd hσ trivial
    have hrest : EmitState.Shapes _ _ _ (·.Fits ((s.grow 1).grow types.length)) X :=
      ihes (hpush.sound hσ) trivial (s.grow 1) X (hs.of_eq hpush.scopes)
    have hall : σ.Shapes _ s _ X :=
      (ihe hσ trivial s X hs).trans hrest (hes.isPrefix hstd (hpush.sound hσ) trivial)
    refine hall.mono (fun t ht => ht.trans ⟨?_, subset_rfl⟩) fun _ _ _ _ hX => hX
    simp only [Shape.grow, List.length_cons]
    omega
  | itemsNil => exact fun s X _ => typed_nil _ _ X
  | @itemsCons _ σ _ _ _ _ _ _ he _ hes ihe ihes =>
    intro s X hs
    have hpush := (he.effect hstd hσ trivial : EmitState.Pushes _ _).add .append rfl 0
    have hvalue : σ.Shapes _ _ (·.Fits (s.grow 2)) X := ihe hσ trivial (s.grow 1) X hs
    have hrest := ihes (hpush.sound hσ) trivial s X (hs.of_eq hpush.scopes)
    exact (hvalue.replace .append rfl rfl (.inl rfl)).trans hrest
      (hes.isPrefix hstd (hpush.sound hσ) trivial)
  | paramsNil _ => exact fun s _ hscope => ⟨s, s.fits_refl, hscope, fun X => typed_nil s _ X⟩
  | paramsKnown _ hdef _ ih =>
    obtain ⟨-, hnone, rfl⟩ := Scope.define_eq_ok_iff.1 hdef
    intro s hs hscope
    exact ih hσ (Scopes.Settled.bind_constant hready hnone _) s hs (hscope.bind_constant _ _ _)
  | @paramsStored _ _ _ _ _ _ _ _ _ _ _ t slot _ he hslot hdef hes ihe ihes =>
    obtain ⟨-, hnone, rfl⟩ := Scope.define_eq_ok_iff.1 hdef
    intro s hs hscope
    have hpush : EmitState.Pushes _ _ := he.effect hstd hσ trivial
    have hstore := hpush.store_fresh hslot
    have hready' := (Scopes.Settled.mono hready hpush.extend.slots).bind_stored hnone
      (Slots.toNat_of_fresh hslot) t true
    obtain ⟨s', hfits, hcovers, hrest⟩ := ihes (hstore.sound hσ) hready' (s.write slot)
      ((s.write_fits slot).covers (hs.of_eq hstore.scopes))
      (Shape.Covers.write_bind hscope _ t slot true)
    refine ⟨s', hfits.trans (s.write_fits slot), hcovers, fun X => ?_⟩
    exact ((ihe hσ trivial s X hs).store slot).trans (hrest X)
      (hes.isPrefix hstd (hstore.sound hσ) hready')
  | @call _ σ σ₁ σ' d scope returns frame _ _ hbody hframe hpatch ih =>
    intro s X hs
    have hopen := hσ.openFrame d.ident.name hready.1 hready.2
    obtain ⟨s', hfits, -, htyped⟩ := ih hopen trivial s hs
    have hproceeds : EmitState.Proceeds _ _ := hbody.effect hstd hopen trivial
    obtain ⟨frame', hframe', hend⟩ := hproceeds.exists_frame hσ returns
    obtain ⟨-, rfl⟩ := List.append_singleton_inj.1 (hframe.symm.trans hframe')
    -- The end of the body has the shape that returns bring there.
    have hbottom : σ.Shapes ((σ₁.leaveFrame σ.scopes σ.frames).endBody returns) s
        (·.Fits (s.grow 1)) s.Returns := by
      cases returns with
      | true => exact htyped.of_returns List.prefix_rfl (by simp)
      | false =>
        refine htyped.of_returns (List.prefix_append _ _) fun _ hlive => ?_
        have hnone := hlive.replace .pushNone (b := 0) rfl rfl (.inl rfl)
        exact hnone.mono (fun _ ht => Shape.Fits.trans ht (hfits.grow 1)) fun _ _ _ _ hX => hX
    have hpatched := Emit.typed_patchAll hend.code hσ.linked hpatch hbottom
      (fun _ _ h h' => h.trans h') fun _ _ ht => ht
    have hgrown := (Emit.grown_patchAll hend.code hσ.linked hpatch).1
    refine hpatched.of_no_pending (fun i hi hpending => ?_) X
    exact absurd (hgrown.mem_iff.2 ⟨hi, hpending⟩ : (⟨i⟩ : Anchor) ∈ []) List.not_mem_nil
  | block hbody ih =>
    intro s hs
    obtain ⟨s', hfits, -, htyped⟩ := ih hσ.enter_empty trivial s (hs.open_empty rfl)
    have hproceeds : EmitState.Proceeds _ _ := hbody.effect hstd hσ.enter_empty trivial
    refine ⟨s, s.fits_refl, hs.of_eq hproceeds.scopes.tail_eq, ?_⟩
    exact htyped.mono (fun _ ht => ⟨ht.1, ht.2.trans hfits⟩) fun _ _ _ _ hX => hX
  | constant _ hscopes hdef =>
    obtain ⟨-, -, rfl⟩ := Scope.define_eq_ok_iff.1 hdef
    intro s hs
    refine ⟨s, s.fits_refl, (hs.of_eq hscopes.symm).bind_constant _ _ _, ?_⟩
    exact (typed_nil s _ s.Returns).mono (fun _ ht => ⟨rfl, ht⟩) fun _ _ _ _ hX => hX
  | @define _ _ _ q _ _ v slot _ _ _ _ he hslot hscopes hdef ih =>
    obtain ⟨-, -, rfl⟩ := Scope.define_eq_ok_iff.1 hdef
    intro s hs
    have hpush : EmitState.Pushes _ _ := he.effect hstd hσ trivial
    have hcovers := hs.of_eq (hscopes.symm.trans hpush.scopes)
    refine ⟨s.write slot, s.write_fits slot,
      Shape.Covers.write_bind hcovers _ v.type slot q.isFinal, ?_⟩
    exact ((ih hσ trivial s s.Returns hs).store slot).mono (fun _ ht => ⟨rfl, ht⟩)
      fun _ _ _ _ hX => hX
  | @assign _ _ _ _ _ _ _ slot he _ _ ih =>
    intro s hs
    have hpush : EmitState.Pushes _ _ := he.effect hstd hσ trivial
    refine ⟨s.write slot, s.write_fits slot, (s.write_fits slot).covers (hs.of_eq hpush.scopes), ?_⟩
    exact ((ih hσ trivial s s.Returns hs).store slot).mono (fun _ ht => ⟨rfl, ht⟩)
      fun _ _ _ _ hX => hX
  | @returnNone _ σ _ _ _ =>
    intro s hs
    have hnone := (typed_nil s σ.code.instructions s.Returns).replace .pushNone (b := 0) rfl rfl
      (.inl rfl)
    refine ⟨s, s.fits_refl, hs, ?_⟩
    exact (hnone.reserve_jump (s.grow 1).fits_refl).mono (fun _ => False.elim) fun _ _ _ _ hX => hX
  | returnValue he _ ih =>
    intro s hs
    have hpush : EmitState.Pushes _ _ := he.effect hstd hσ trivial
    refine ⟨s, s.fits_refl, hs.of_eq hpush.scopes, ?_⟩
    exact ((ih hσ trivial s s.Returns hs).reserve_jump (s.grow 1).fits_refl).mono
      (fun _ => False.elim) fun _ _ _ _ hX => hX
  | @ifThen _ σ σ₁ σ₂ _ _ _ returns c hcond _ hyes hpatch ihcond ihyes =>
    intro s hs
    have hpush : EmitState.Pushes _ _ := hcond.effect hstd hσ trivial
    have hsound := ((hpush.sound hσ).hold .jumpUnless rfl).enter_empty
    have hproceeds : EmitState.Proceeds _ _ := hyes.effect hstd hsound trivial
    obtain ⟨hlinked, hclip, hle⟩ := hσ.clips_ifThen hpush hproceeds hpatch
    obtain ⟨s₁, hfits, -, hbranch⟩ :=
      ihyes hsound trivial s ((hs.of_eq hpush.scopes).open_empty rfl)
    have hlength : ((σ₁.hold .jumpUnless).enter {}).code.instructions.length
        = σ₁.code.instructions.length + 1 := List.length_append
    rw [EmitState.Shapes, hlength] at hbranch
    have htyped := typed_ifThen (fun X => ihcond hσ trivial s X hs) hbranch hfits
      (hyes.isPrefix hstd hsound trivial) hlinked hclip hle
    exact ⟨s, s.fits_refl, hs.of_eq (hproceeds.scopes.tail_eq.trans hpush.scopes),
      htyped.mono (fun _ ht => ⟨rfl, ht⟩) fun _ _ _ _ hX => hX⟩
  | @ifElse _ σ σ₁ σ₂ σ₃ _ _ _ _ yesReturns noReturns c c' hcond _ hyes hskip hno hdone ihcond ihyes
      ihno =>
    intro s hs
    have hpush : EmitState.Pushes _ _ := hcond.effect hstd hσ trivial
    have hsound := ((hpush.sound hσ).hold .jumpUnless rfl).enter_empty
    have hyes' : EmitState.Proceeds _ _ := hyes.effect hstd hsound trivial
    obtain ⟨-, hsound', hexit⟩ := hσ.sound_alternative hpush hyes' hskip
    have hno' : EmitState.Proceeds _ _ := hno.effect hstd hsound'.enter_empty trivial
    obtain ⟨hlinked, hclip, hle, hlt⟩ := hσ.clips_skip hpush hyes' hskip
    obtain ⟨hlinked', hclip', hle'⟩ := hσ.clips_ifElse hpush hyes' hskip hno' hdone
    obtain ⟨s₁, hfits₁, -, hfirst⟩ :=
      ihyes hsound trivial s ((hs.of_eq hpush.scopes).open_empty rfl)
    obtain ⟨s₂, hfits₂, -, hsecond⟩ :=
      ihno hsound'.enter_empty trivial s ((hs.of_eq hexit).open_empty rfl)
    have hlength : ((σ₁.hold .jumpUnless).enter {}).code.instructions.length
        = σ₁.code.instructions.length + 1 := List.length_append
    rw [EmitState.Shapes, hlength] at hfirst
    have htyped := typed_ifElse (fun X => ihcond hσ trivial s X hs) hfirst hfits₁
      (hyes.isPrefix hstd hsound trivial) hlinked hclip hle hlt hsecond hfits₂
      (hno.isPrefix hstd hsound'.enter_empty trivial) hlinked' hclip' hle'
    exact ⟨s, s.fits_refl, hs.of_eq (hno'.scopes.tail_eq.trans hexit), htyped⟩
  | @loop _ σ σ₁ σ₂ name _ _ v iter item scope returns c c' hitems _ hiter hitem hdef hbody hback
      hexit ihitems ihbody =>
    intro s hs
    have hpush : EmitState.Pushes _ _ := hitems.effect hstd hσ trivial
    have hsound := (hpush.sound hσ).loopBody iter hitem hdef
    have hproceeds : EmitState.Proceeds _ _ := hbody.effect hstd hsound trivial
    obtain ⟨new, hext⟩ := hproceeds.extend
    have hall := (hpush.extends_loopBody iter item scope).trans hext
    obtain ⟨b, rfl, hb⟩ := Code.exists_of_jumpBack hback
    have hjump := hall.add .jumpBack rfl b
    obtain ⟨-, -, rfl⟩ := Scope.define_eq_ok_iff.1 hdef
    have hcovers : ((s.write iter).write item).Covers (Scope.bind { role := some .loop } name.name
        (.stored v.type.asScalar item true) :: σ₁.scopes) :=
      Shape.Covers.write_bind (((s.write_fits iter).covers (hs.of_eq hpush.scopes)).open_empty rfl)
        _ _ _ _
    obtain ⟨s₁, hfits, -, hround⟩ := ihbody hsound trivial ((s.write iter).write item) hcovers
    have htyped := typed_loop (fun X => ihitems hσ trivial s X hs) rfl rfl hround hfits
      (hbody.isPrefix hstd hsound trivial) hb hjump.code.linked
      (clips_of_patch hjump.code.linked hjump.code.isPending hexit)
      (hjump.patch hσ.linked hexit).code.length_le
    exact ⟨s, s.fits_refl, hs.of_eq (hproceeds.scopes.tail_eq.trans hpush.scopes),
      htyped.mono (fun _ ht => ⟨rfl, ht⟩) fun _ _ _ _ hX => hX⟩
  | fail hmessage _ ih =>
    intro s hs
    have hpush : EmitState.Pushes _ _ := hmessage.effect hstd hσ trivial
    refine ⟨s, s.fits_refl, hs.of_eq hpush.scopes, ?_⟩
    exact ((ih hσ trivial s s.Returns hs).fail 0).mono (fun _ => False.elim) fun _ _ _ _ hX => hX
  | exprKnown _ =>
    intro s hs
    refine ⟨s, s.fits_refl, hs, ?_⟩
    exact (typed_nil s _ s.Returns).mono (fun _ ht => ⟨rfl, ht⟩) fun _ _ _ _ hX => hX
  | exprDropped _ he ih =>
    intro s hs
    have hpush : EmitState.Pushes _ _ := he.effect hstd hσ trivial
    refine ⟨s, s.fits_refl, hs.of_eq hpush.scopes, ?_⟩
    exact ((ih hσ trivial s s.Returns hs).drop 0).mono (fun _ ht => ⟨rfl, ht⟩) fun _ _ _ _ hX => hX
  | stmtsNil =>
    intro s hs
    refine ⟨s, s.fits_refl, hs, ?_⟩
    exact (typed_nil s _ s.Returns).mono (fun _ ht => ⟨rfl, ht⟩) fun _ _ _ _ hX => hX
  | stmtsCons hs hss ihs ihss =>
    intro s hcovers
    have hproceeds : EmitState.Proceeds _ _ := hs.effect hstd hσ trivial
    obtain ⟨s₁, hfits₁, hcovers₁, hfirst⟩ := ihs hσ trivial s hcovers
    obtain ⟨s₂, hfits₂, hcovers₂, hrest⟩ := ihss hproceeds.sound trivial s₁ hcovers₁
    refine ⟨s₂, hfits₂.trans hfits₁, hcovers₂, ?_⟩
    have hpre := hss.isPrefix hstd hproceeds.sound trivial
    refine hfirst.of_returns hpre fun hlive htyped => htyped.trans (hrest.mono ?_ ?_) hpre
    · exact fun t ht => ⟨by simp [hlive, ht.1], ht.2⟩
    · exact fun i t _ _ ht => hfits₁.returns ht

end Arbor
