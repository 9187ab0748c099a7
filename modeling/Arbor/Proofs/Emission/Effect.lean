import Arbor.Proofs.Emission.Invariant

/-!
# The effect of emission

Expressions only push code, so scopes and frames are the same after it (`EmitState.Pushes`).
Statements may bind names in the innermost scope and record returns in the innermost frame
(`EmitState.Proceeds`).  `Emits.effect` proves both of every derivation, by one induction.
-/

namespace Arbor

open Code

/-- What a piece asks of the state besides soundness: scopes that bind parameters are settled, and
the scope of a body belongs to the frame that is opened for it. -/
def Piece.Ready (σ : EmitState) : Piece → Prop
  | .params scope _ _ _ => Scopes.Settled σ.slots.next [scope]
  | .call _ scope _ =>
    Scopes.Settled σ.slots.next [scope] ∧ scope.role = some (.function σ.frames.length)
  | _ => True

/-- Code was added that leaves scopes and frames alone. -/
structure EmitState.Pushes (σ σ' : EmitState) : Prop where
  extend : σ.Extends σ' [] []
  scopes : σ'.scopes = σ.scopes
  frames : σ'.frames = σ.frames

/-- Code of statements was added: the jumps in it that wait are the returns recorded for it. -/
structure EmitState.Proceeds (σ σ' : EmitState) : Prop where
  extend : ∃ new, σ.Extends σ' new new
  scopes : Scopes.Extend σ.scopes σ'.scopes
  sound : σ'.Sound

/-- What emitting a piece does to the state. -/
def Piece.Effect (σ σ' : EmitState) : Piece → Prop
  | .stmt _ _ | .stmts _ _ => σ.Proceeds σ'
  | .params scope _ _ scope' =>
    σ.Pushes σ' ∧ Scopes.Settled σ'.slots.next [scope'] ∧ scope'.role = scope.role
  | _ => σ.Pushes σ'

namespace EmitState

variable {σ σ₁ σ' : EmitState}

lemma Pushes.trans (h : σ.Pushes σ₁) (h' : σ₁.Pushes σ') : σ.Pushes σ' :=
  ⟨h.extend.trans h'.extend, h'.scopes.trans h.scopes, h'.frames.trans h.frames⟩

lemma Pushes.sound (h : σ.Pushes σ') (hσ : σ.Sound) : σ'.Sound where
  linked := h.extend.code.linked
  settled := by
    rw [h.scopes]
    exact hσ.settled.mono h.extend.slots
  framed := by
    rw [h.scopes, h.frames]
    exact hσ.framed

lemma Pushes.add (h : σ.Pushes σ') (op : Opcode) (hop : op.isForwardJump = false) (b : UInt8) :
    σ.Pushes (σ'.add op b) :=
  ⟨h.extend.add op hop b, h.scopes, h.frames⟩

lemma Pushes.addConstant (h : σ.Pushes σ') (op : Opcode) (hop : op.isForwardJump = false)
    (c : Constant) : σ.Pushes (σ'.addConstant op c) :=
  ⟨h.extend.addConstant op hop c, h.scopes, h.frames⟩

lemma Sound.pushes_refl (h : σ.Sound) : σ.Pushes σ := ⟨h.extends_refl, rfl, rfl⟩

/-- Code that leaves scopes and frames alone does what statements may do. -/
lemma Pushes.proceeds (h : σ.Pushes σ') (hσ : σ.Sound) : σ.Proceeds σ' where
  extend := ⟨[], h.extend⟩
  scopes := by
    obtain ⟨n, hframe, -⟩ := hσ.framed
    rw [h.scopes]
    exact Scopes.extend_refl_of_frame? hframe
  sound := h.sound hσ

lemma Proceeds.trans (h : σ.Proceeds σ₁) (h' : σ₁.Proceeds σ') : σ.Proceeds σ' where
  extend := by
    obtain ⟨new, hnew⟩ := h.extend
    obtain ⟨new', hnew'⟩ := h'.extend
    exact ⟨_, hnew.trans hnew'⟩
  scopes := h.scopes.trans h'.scopes
  sound := h'.sound

/-- Statements that bind nothing in the end proceed if their code does. -/
lemma Extends.proceeds {new : List Anchor} (h : σ.Extends σ' new new)
    (hscopes : σ'.scopes = σ.scopes) (hσ : σ.Sound) : σ.Proceeds σ' where
  extend := ⟨new, h⟩
  scopes := by
    obtain ⟨n, hframe, -⟩ := hσ.framed
    rw [hscopes]
    exact Scopes.extend_refl_of_frame? hframe
  sound := by
    refine ⟨h.code.linked, ?_, ?_⟩
    · rw [hscopes]
      exact hσ.settled.mono h.slots
    · obtain ⟨n, hframe, hlen⟩ := hσ.framed
      exact ⟨n, hscopes ▸ hframe, h.frames.length_eq.trans hlen⟩

end EmitState

/-! ## Opcodes -/

lemma Datum.isForwardJump_of_immediate? {d : Datum} {op : Opcode} {b : UInt8}
    (h : d.immediate? = some (op, b)) : op.isForwardJump = false := by
  unfold immediate? at h
  split at h
  · cases h; rfl
  · cases h; rfl
  · cases h; rfl
  · split at h
    · cases h; rfl
    · cases h
  · obtain ⟨x, -, hx⟩ := Option.map_eq_some_iff.1 h
    cases hx; rfl
  · cases h

lemma Datum.isForwardJump_of_pooled? {d : Datum} {op : Opcode} {c : Constant}
    (h : d.pooled? = some (op, c)) : op.isForwardJump = false := by
  unfold pooled? at h
  split at h
  · cases h; rfl
  · cases h; rfl
  · cases h; rfl
  · cases h

/-- Overloads that an expression applies are those of the table. -/
lemma Applies.standard {job : Job} (hstd : job.builtins = .standard) {e : Expr} {o : Overloads}
    {es : List Expr} (h : Applies job e o es) : o.Standard := by
  cases h with
  | unary ho => exact Job.standard_of_operator hstd ho
  | binary ho => exact Job.standard_of_operator hstd ho
  | call ho _ => exact Job.standard_of_callee hstd ho

lemma Overloads.Standard.isForwardJump_of_infer {o : Overloads} (h : o.Standard)
    {types : List ValueType} {span : Span} {t : ValueType} {op : Opcode}
    (hinfer : o.infer types span = .ok (t, op)) : op.isForwardJump = false := by
  obtain ⟨b, hb, -, rfl⟩ := infer_eq_ok hinfer
  have hjump := Builtins.standard_isJump b (h.mem_candidates hb).1
  by_contra hne
  rw [Bool.not_eq_false] at hne
  rw [Opcode.isJump_of_isForwardJump hne] at hjump
  cases hjump

/-! ## Statements and bodies -/

namespace EmitState

variable {σ σ₁ σ₂ σ₃ σ' : EmitState}

/-- The returns of a body, which are recorded in its frame, are the jumps that wait. -/
lemma Proceeds.exists_exits {name : String} {scope : Scope}
    (h : (σ.openFrame name scope).Proceeds σ₁) :
    ∃ frame, σ₁.frames = σ.frames ++ [frame] ∧
      (σ.openFrame name scope).Extends σ₁ frame.exits frame.exits := by
  obtain ⟨new, hext⟩ := h.extend
  obtain ⟨before, top, top', hopened, hframes, hexits⟩ := hext.frames
  obtain ⟨rfl, rfl⟩ := List.append_singleton_inj.1 (hopened : σ.frames ++ [{}] = before ++ [top])
  refine ⟨top', hframes, ?_⟩
  rw [show top'.exits = new by simpa using hexits]
  exact hext

/-- The end of a body that is inlined: its frame has been closed, and the returns recorded there are
the jumps that wait. -/
lemma Proceeds.exists_frame {name : String} {scope : Scope}
    (h : (σ.openFrame name scope).Proceeds σ₁) (hσ : σ.Sound) (returns : Bool) :
    ∃ frame, σ₁.frames = σ.frames ++ [frame] ∧
      σ.Extends ((σ₁.leaveFrame σ.scopes σ.frames).endBody returns) (frame.exits ++ []) [] := by
  obtain ⟨frame, hframe, hext⟩ := h.exists_exits
  obtain ⟨fs, top, hfs, -⟩ := hσ.placed.exists_top
  have hclosed : σ.Extends (σ₁.leaveFrame σ.scopes σ.frames) frame.exits [] :=
    ⟨hext.code, Frame.extend_refl (by simp [hfs]), hext.slots, hext.constants⟩
  refine ⟨frame, hframe, ?_⟩
  rw [List.append_nil]
  cases returns with
  | true => exact hclosed
  | false => exact hclosed.add .pushNone rfl 0

/-- A body that is inlined leaves scopes and frames alone, once its returns are patched. -/
lemma Sound.pushes_call (hσ : σ.Sound) {name : String} {scope : Scope} {frame : Frame}
    (returns : Bool) (hbody : (σ.openFrame name scope).Proceeds σ₁)
    (hframe : σ₁.frames = σ.frames ++ [frame])
    (hpatch : Emit.patchAll frame.exits
      ((σ₁.leaveFrame σ.scopes σ.frames).endBody returns) = .ok () σ') :
    σ.Pushes σ' := by
  obtain ⟨frame', hframe', hend⟩ := hbody.exists_frame hσ returns
  obtain ⟨-, rfl⟩ := List.append_singleton_inj.1 (hframe.symm.trans hframe')
  have hkeep : ∀ τ : EmitState, (τ.endBody returns).scopes = τ.scopes ∧
      (τ.endBody returns).frames = τ.frames := by
    intro τ
    cases returns <;> exact ⟨rfl, rfl⟩
  have hpatched := hend.patchAll hσ.linked hpatch
  have heq := (Emit.grown_patchAll hend.code hσ.linked hpatch).2
  refine ⟨hpatched, ?_, ?_⟩
  · rw [heq]
    exact (hkeep _).1
  · rw [heq]
    exact (hkeep _).2

/-- Statements under a condition, up to where the jump over them is patched. -/
lemma Pushes.extends_branch (h : σ.Pushes σ₁) {op : Opcode} (hop : op.isForwardJump = true)
    {scope : Scope} (hbody : ((σ₁.hold op).enter scope).Proceeds σ₂) :
    (∃ new, σ.Extends σ₂ (new ++ [⟨σ₁.code.size⟩]) new) ∧ σ₂.scopes.tail = σ.scopes := by
  obtain ⟨new, hext⟩ := hbody.extend
  refine ⟨⟨new, ?_⟩, hbody.scopes.tail_eq.trans h.scopes⟩
  have hall := ((h.extend.hold op hop).withScopes _).trans hext
  rwa [List.append_nil] at hall

/-- A branch without an alternative. -/
lemma Sound.proceeds_ifThen (hσ : σ.Sound) (hcond : σ.Pushes σ₁)
    (hyes : ((σ₁.hold .jumpUnless).enter {}).Proceeds σ₂) {c : Code}
    (hpatch : σ₂.code.patch ⟨σ₁.code.size⟩ = .ok c) :
    σ.Proceeds { σ₂.exit with code := c } := by
  obtain ⟨⟨new, hext⟩, hscopes⟩ := hcond.extends_branch rfl hyes
  have hdone := hext.patch hσ.linked hpatch
  rw [List.append_nil] at hdone
  exact (hdone.withScopes σ₂.scopes.tail).proceeds hscopes hσ

/-- The jump over the alternative waits, and the jump over the branch is to be patched. -/
lemma Pushes.extends_skip (h : σ.Pushes σ₁) (hyes : ((σ₁.hold .jumpUnless).enter {}).Proceeds σ₂) :
    ∃ new, σ.Extends (σ₂.hold .jump) ((⟨σ₂.code.size⟩ :: new) ++ [⟨σ₁.code.size⟩]) new := by
  obtain ⟨⟨new, hext⟩, -⟩ := h.extends_branch rfl hyes
  exact ⟨new, hext.hold .jump rfl⟩

/-- A branch with an alternative, where the alternative starts. -/
lemma Sound.sound_alternative (hσ : σ.Sound) (hcond : σ.Pushes σ₁)
    (hyes : ((σ₁.hold .jumpUnless).enter {}).Proceeds σ₂) {c : Code}
    (hskip : (σ₂.hold .jump).code.patch ⟨σ₁.code.size⟩ = .ok c) :
    (∃ new, σ.Extends { σ₂.exit with code := c } (⟨σ₂.code.size⟩ :: new) new) ∧
      { σ₂.exit with code := c }.Sound ∧ σ₂.exit.scopes = σ.scopes := by
  obtain ⟨new, hheld⟩ := hcond.extends_skip hyes
  have hskipped := hheld.patch hσ.linked hskip
  rw [List.append_nil] at hskipped
  have hexit : σ₂.exit.scopes = σ.scopes := (hcond.extends_branch rfl hyes).2
  refine ⟨⟨new, hskipped.withScopes _⟩, ⟨hskipped.code.linked, ?_, ?_⟩, hexit⟩
  · exact hexit ▸ hσ.settled.mono hheld.slots
  · obtain ⟨n, hframe, hlen⟩ := hσ.framed
    exact ⟨n, hexit ▸ hframe, hheld.frames.length_eq.trans hlen⟩

lemma Sound.proceeds_ifElse (hσ : σ.Sound) (hcond : σ.Pushes σ₁)
    (hyes : ((σ₁.hold .jumpUnless).enter {}).Proceeds σ₂) {c c' : Code}
    (hskip : (σ₂.hold .jump).code.patch ⟨σ₁.code.size⟩ = .ok c)
    (hno : ({ σ₂.exit with code := c }.enter {}).Proceeds σ₃)
    (hdone : σ₃.code.patch ⟨σ₂.code.size⟩ = .ok c') :
    σ.Proceeds { σ₃.exit with code := c' } := by
  obtain ⟨⟨new, hext⟩, -, hexit⟩ := hσ.sound_alternative hcond hyes hskip
  obtain ⟨new', hext'⟩ := hno.extend
  have hall := (hext.withScopes _).trans hext'
  have hpatched := hall.patch hσ.linked hdone
  refine (hpatched.withScopes σ₃.scopes.tail).proceeds ?_ hσ
  exact hno.scopes.tail_eq.trans hexit

/-! Where jumps over branches are patched, code is clipped. -/

lemma Sound.clips_ifThen (hσ : σ.Sound) (hcond : σ.Pushes σ₁)
    (hyes : ((σ₁.hold .jumpUnless).enter {}).Proceeds σ₂) {c : Code}
    (hpatch : σ₂.code.patch ⟨σ₁.code.size⟩ = .ok c) :
    Linked σ₂.code.instructions ∧
      Clips σ₁.code.instructions.length σ₂.code.instructions c.instructions ∧
      σ.code.instructions.length ≤ c.instructions.length := by
  obtain ⟨⟨new, hext⟩, -⟩ := hcond.extends_branch rfl hyes
  exact ⟨hext.code.linked, clips_of_patch hext.code.linked hext.code.isPending hpatch,
    (hext.patch hσ.linked hpatch).code.length_le⟩

lemma Sound.clips_skip (hσ : σ.Sound) (hcond : σ.Pushes σ₁)
    (hyes : ((σ₁.hold .jumpUnless).enter {}).Proceeds σ₂) {c : Code}
    (hskip : (σ₂.hold .jump).code.patch ⟨σ₁.code.size⟩ = .ok c) :
    Linked (σ₂.hold .jump).code.instructions ∧
      Clips σ₁.code.instructions.length (σ₂.hold .jump).code.instructions c.instructions ∧
      σ.code.instructions.length ≤ c.instructions.length ∧
      σ₂.code.instructions.length < c.instructions.length := by
  obtain ⟨_, hheld⟩ := hcond.extends_skip hyes
  obtain ⟨⟨new, hext⟩, -, -⟩ := hσ.sound_alternative hcond hyes hskip
  have hwaits : Grown σ.code.instructions c.instructions ([] ++ ⟨σ₂.code.size⟩ :: new) := hext.code
  exact ⟨hheld.code.linked, clips_of_patch hheld.code.linked hheld.code.isPending hskip,
    hext.code.length_le, hwaits.isPending.lt⟩

lemma Sound.clips_ifElse (hσ : σ.Sound) (hcond : σ.Pushes σ₁)
    (hyes : ((σ₁.hold .jumpUnless).enter {}).Proceeds σ₂) {c c' : Code}
    (hskip : (σ₂.hold .jump).code.patch ⟨σ₁.code.size⟩ = .ok c)
    (hno : ({ σ₂.exit with code := c }.enter {}).Proceeds σ₃)
    (hdone : σ₃.code.patch ⟨σ₂.code.size⟩ = .ok c') :
    Linked σ₃.code.instructions ∧
      Clips σ₂.code.instructions.length σ₃.code.instructions c'.instructions ∧
      σ.code.instructions.length ≤ c'.instructions.length := by
  obtain ⟨⟨new, hext⟩, -, -⟩ := hσ.sound_alternative hcond hyes hskip
  obtain ⟨new', hext'⟩ := hno.extend
  have hall := (hext.withScopes _).trans hext'
  exact ⟨hall.code.linked, clips_of_patch hall.code.linked hall.code.isPending hdone,
    (hall.patch hσ.linked hdone).code.length_le⟩

/-- The jump out of a loop waits while the body is emitted. -/
lemma Pushes.extends_loopBody (h : σ.Pushes σ₁) (iter item : UInt8) (scope : Scope) :
    σ.Extends (σ₁.loopBody iter item scope) [⟨σ₁.code.size + 3⟩] [] := by
  have hhead := ((h.extend.advance.add .iter rfl 0).add .store rfl iter).add .hasNext rfl iter
  have hexit := hhead.hold .jumpUnless rfl
  have hbody := ((hexit.add .next rfl iter).advance.add .store rfl item).withScopes
    (scope :: σ₁.scopes)
  have hsize : (((σ₁.advance.add .iter).add .store iter).add .hasNext iter).code.size
      = σ₁.code.size + 3 := by
    simp
  rw [hsize] at hbody
  exact hbody

lemma Placed.loopBody (hσ : σ.Placed) (iter : UInt8) {item : UInt8} {name : Ident} {t : ValueType}
    {scope : Scope} (hitem : σ.slots.advance.fresh = .ok item)
    (hdef : Scope.define { role := some .loop } name (.stored t item true) = .ok scope) :
    (σ.loopBody iter item scope).Placed := by
  obtain ⟨-, hnone, rfl⟩ := Scope.define_eq_ok_iff.1 hdef
  refine ⟨?_, ?_⟩
  · have hopened := (hσ.settled.mono (Nat.le_succ _)).open_empty (s := { role := some .loop }) rfl
    exact hopened.bind_stored hnone (Slots.toNat_of_fresh hitem) t true
  · obtain ⟨n, hframe, hlen⟩ := hσ.framed
    refine ⟨n, ?_, hlen⟩
    change Scopes.frame? (_ :: σ.scopes) = some n
    rw [Scopes.frame?_cons, hframe]
    rfl

lemma Sound.loopBody (hσ : σ.Sound) (iter : UInt8) {item : UInt8} {name : Ident} {t : ValueType}
    {scope : Scope} (hitem : σ.slots.advance.fresh = .ok item)
    (hdef : Scope.define { role := some .loop } name (.stored t item true) = .ok scope) :
    (σ.loopBody iter item scope).Sound := by
  have hplaced := hσ.placed.loopBody iter hitem hdef
  have hext := hσ.pushes_refl.extends_loopBody iter item scope
  exact ⟨hext.code.linked, hplaced.settled, hplaced.framed⟩

lemma Sound.proceeds_loop (hσ : σ.Sound) (hitems : σ.Pushes σ₁) {iter item : UInt8} {scope : Scope}
    (hbody : (σ₁.loopBody iter item scope).Proceeds σ₂) {c c' : Code}
    (hback : σ₂.code.jumpBack ⟨σ₁.code.size + 2⟩ = .ok c)
    (hexit : c.patch ⟨σ₁.code.size + 3⟩ = .ok c') : σ.Proceeds { σ₂.exit with code := c' } := by
  obtain ⟨new, hext⟩ := hbody.extend
  have hall := (hitems.extends_loopBody iter item scope).trans hext
  rw [List.append_nil] at hall
  obtain ⟨b, rfl, -⟩ := Code.exists_of_jumpBack hback
  have hpatched := (hall.add .jumpBack rfl b).patch hσ.linked hexit
  rw [List.append_nil] at hpatched
  refine (hpatched.withScopes σ₂.scopes.tail).proceeds ?_ hσ
  exact hbody.scopes.tail_eq.trans hitems.scopes

/-- The value on the stack was stored into a fresh slot. -/
lemma Pushes.store_fresh (h : σ.Pushes σ') {slot : UInt8} (_ : σ'.slots.fresh = .ok slot) :
    σ.Pushes (σ'.advance.add .store slot) :=
  ⟨h.extend.advance.add .store rfl slot, h.scopes, h.frames⟩

/-- A return was recorded: the jump that waits is the new exit of the innermost frame. -/
lemma Pushes.proceeds_leave (h : σ.Pushes σ₁) (hσ : σ.Sound) {fs : List Frame} {top : Frame}
    (hframes : σ₁.frames = fs ++ [top]) (t : ValueType) :
    σ.Proceeds { σ₁.hold .jump with frames := fs ++ [top.record t ⟨σ₁.code.size⟩] } := by
  have hheld := h.extend.hold .jump rfl
  have hleft : σ.Extends { σ₁.hold .jump with frames := fs ++ [top.record t ⟨σ₁.code.size⟩] }
      [⟨σ₁.code.size⟩] [⟨σ₁.code.size⟩] :=
    ⟨hheld.code, ⟨fs, top, _, h.frames ▸ hframes, rfl, rfl⟩, hheld.slots, hheld.constants⟩
  exact hleft.proceeds h.scopes hσ

/-- A name was bound in the innermost scope. -/
lemma Pushes.proceeds_bind (h : σ.Pushes σ₁) (hσ : σ.Sound) {scope : Scope} {outer : Scopes}
    {name : String} {b : Binding} (hscopes : σ₁.scopes = scope :: outer)
    (hext : σ.Extends σ' [] [])
    (hscopes' : σ'.scopes = scope.bind name b :: outer)
    (hsettled : Scopes.Settled σ'.slots.next σ'.scopes) : σ.Proceeds σ' := by
  have hextend : Scopes.Extend σ.scopes σ'.scopes :=
    ⟨scope, scope.bind name b, outer, h.scopes ▸ hscopes, hscopes', rfl, List.suffix_cons ..⟩
  refine ⟨⟨[], hext⟩, hextend, ⟨hext.code.linked, hsettled, ?_⟩⟩
  obtain ⟨n, hframe, hlen⟩ := hσ.framed
  exact ⟨n, hextend.frame?_eq.trans hframe, hext.frames.length_eq.trans hlen⟩

end EmitState

/-! ## The induction -/

variable {job : Job} {entered : List String} {piece : Piece} {σ σ' : EmitState}

/-- **Emission keeps states sound.**  Expressions leave scopes and frames alone; statements bind
names in the innermost scope, and the jumps they leave waiting are the returns they record. -/
theorem Emits.effect (hstd : job.builtins = .standard) (h : Emits job entered piece σ σ')
    (hσ : σ.Sound) (hready : piece.Ready σ) : piece.Effect σ σ' := by
  induction h with
  | immediate hd => exact hσ.pushes_refl.add _ (Datum.isForwardJump_of_immediate? hd) _
  | pooled _ hd _ => exact hσ.pushes_refl.addConstant _ (Datum.isForwardJump_of_pooled? hd) _
  | appendedNil => exact hσ.pushes_refl
  | appendedCons _ _ ihd ihds =>
    have hitem := (ihd hσ trivial : EmitState.Pushes _ _).add .append rfl 0
    exact hitem.trans (ihds (hitem.sound hσ) trivial)
  | scalar _ ih => exact ih hσ trivial
  | listDatum _ ih =>
    have hlist := hσ.pushes_refl.add .list rfl 0
    exact hlist.trans (ih (hlist.sound hσ) trivial)
  | folded _ _ ih => exact ih hσ trivial
  | emitted _ _ ih => exact ih hσ trivial
  | stored _ => exact hσ.pushes_refl.add .load rfl _
  | attr _ _ _ => exact (hσ.pushes_refl.add .load rfl _).addConstant .attr rfl _
  | application happ _ hinfer ih =>
    exact (ih hσ trivial).add _ ((happ.standard hstd).isForwardJump_of_infer hinfer) 0
  | inlined _ _ _ _ _ ihparams ihcall =>
    obtain ⟨hpush, hsettled, hrole⟩ := ihparams hσ (Scopes.Settled.nil.open_empty rfl)
    have hcall : EmitState.Pushes _ _ :=
      ihcall (hpush.sound hσ) ⟨hsettled, by rw [hrole, hpush.frames]⟩
    exact hpush.trans hcall
  | list _ ih =>
    have hlist := hσ.pushes_refl.add .list rfl 0
    exact hlist.trans (ih (hlist.sound hσ) trivial)
  | argsNil => exact hσ.pushes_refl
  | argsCons _ _ ihe ihes =>
    have hpush : EmitState.Pushes _ _ := ihe hσ trivial
    exact hpush.trans (ihes (hpush.sound hσ) trivial)
  | itemsNil => exact hσ.pushes_refl
  | itemsCons _ _ _ ihe ihes =>
    have hpush := (ihe hσ trivial : EmitState.Pushes _ _).add .append rfl 0
    exact hpush.trans (ihes (hpush.sound hσ) trivial)
  | paramsNil _ => exact ⟨hσ.pushes_refl, hready, rfl⟩
  | paramsKnown _ hdef _ ih =>
    obtain ⟨-, hnone, rfl⟩ := Scope.define_eq_ok_iff.1 hdef
    exact ih hσ (Scopes.Settled.bind_constant hready hnone _)
  | paramsStored _ _ hslot hdef _ ihe ihes =>
    obtain ⟨-, hnone, rfl⟩ := Scope.define_eq_ok_iff.1 hdef
    have hpush : EmitState.Pushes _ _ := ihe hσ trivial
    have hstore := hpush.store_fresh hslot
    have hscope := Scopes.Settled.mono hready hpush.extend.slots
    obtain ⟨hrest, hsettled, hrole⟩ := ihes (hstore.sound hσ)
      (hscope.bind_stored hnone (Slots.toNat_of_fresh hslot) _ true)
    exact ⟨hstore.trans hrest, hsettled, hrole⟩
  | call _ _ _ hframe hpatch ih =>
    exact hσ.pushes_call _ (ih (hσ.openFrame _ hready.1 hready.2) trivial) hframe hpatch
  | block _ ih =>
    have hbody : EmitState.Proceeds _ _ := ih hσ.enter_empty trivial
    obtain ⟨new, hext⟩ := hbody.extend
    exact EmitState.Extends.proceeds ⟨hext.code, hext.frames, hext.slots, hext.constants⟩
      hbody.scopes.tail_eq hσ
  | constant _ hscopes hdef =>
    obtain ⟨-, hnone, rfl⟩ := Scope.define_eq_ok_iff.1 hdef
    exact hσ.pushes_refl.proceeds_bind hσ hscopes (hσ.extends_refl.withScopes _) rfl
      (Scopes.Settled.bind_constant (hscopes ▸ hσ.settled) hnone _)
  | define _ _ hslot hscopes hdef ih =>
    obtain ⟨-, hnone, rfl⟩ := Scope.define_eq_ok_iff.1 hdef
    have hpush : EmitState.Pushes _ _ := ih hσ trivial
    exact hpush.proceeds_bind hσ hscopes ((hpush.extend.advance.withScopes _).add .store rfl _) rfl
      (Scopes.Settled.bind_stored (hscopes ▸ (hpush.sound hσ).settled) hnone
        (Slots.toNat_of_fresh hslot) _ _)
  | assign _ _ _ ih => exact ((ih hσ trivial : EmitState.Pushes _ _).add .store rfl _).proceeds hσ
  | returnNone hframes =>
    have hleave := (hσ.pushes_refl.add .pushNone rfl 0).proceeds_leave hσ hframes .void
    rwa [EmitState.add_code, Code.size_push] at hleave
  | returnValue _ hframes ih =>
    exact (ih hσ trivial : EmitState.Pushes _ _).proceeds_leave hσ hframes _
  | ifThen _ _ _ hpatch ihcond ihyes =>
    have hcond : EmitState.Pushes _ _ := ihcond hσ trivial
    have hyes := ihyes ((hcond.sound hσ).hold .jumpUnless rfl).enter_empty trivial
    exact hσ.proceeds_ifThen hcond hyes hpatch
  | ifElse _ _ _ hskip _ hdone ihcond ihyes ihno =>
    have hcond : EmitState.Pushes _ _ := ihcond hσ trivial
    have hyes := ihyes ((hcond.sound hσ).hold .jumpUnless rfl).enter_empty trivial
    have hno := ihno (hσ.sound_alternative hcond hyes hskip).2.1.enter_empty trivial
    exact hσ.proceeds_ifElse hcond hyes hskip hno hdone
  | loop _ _ _ hitem hdef _ hback hexit ihitems ihbody =>
    have hitems : EmitState.Pushes _ _ := ihitems hσ trivial
    have hbody := ihbody ((hitems.sound hσ).loopBody _ hitem hdef) trivial
    exact hσ.proceeds_loop hitems hbody hback hexit
  | fail _ _ ih => exact ((ih hσ trivial : EmitState.Pushes _ _).add .fail rfl 0).proceeds hσ
  | exprKnown _ => exact hσ.pushes_refl.proceeds hσ
  | exprDropped _ _ ih => exact ((ih hσ trivial : EmitState.Pushes _ _).add .drop rfl 0).proceeds hσ
  | stmtsNil => exact hσ.pushes_refl.proceeds hσ
  | stmtsCons _ _ ihs ihss =>
    have hs : EmitState.Proceeds _ _ := ihs hσ trivial
    exact hs.trans (ihss hs.sound trivial)

/-- Emission only adds, to the code and to the constants. -/
lemma Emits.exists_extends (hstd : job.builtins = .standard) (h : Emits job entered piece σ σ')
    (hσ : σ.Sound) (hready : piece.Ready σ) : ∃ new exits, σ.Extends σ' new exits := by
  have heffect := h.effect hstd hσ hready
  cases piece with
  | stmt _ _ | stmts _ _ =>
    obtain ⟨new, hext⟩ := EmitState.Proceeds.extend heffect
    exact ⟨new, new, hext⟩
  | params _ _ _ _ => exact ⟨[], [], heffect.1.extend⟩
  | _ => exact ⟨[], [], EmitState.Pushes.extend heffect⟩

lemma Emits.isPrefix (hstd : job.builtins = .standard) (h : Emits job entered piece σ σ')
    (hσ : σ.Sound) (hready : piece.Ready σ) : σ.code.instructions <+: σ'.code.instructions := by
  obtain ⟨_, _, hext⟩ := h.exists_extends hstd hσ hready
  exact hext.code.isPrefix

lemma Emits.constants_isPrefix (hstd : job.builtins = .standard) (h : Emits job entered piece σ σ')
    (hσ : σ.Sound) (hready : piece.Ready σ) : σ.constants.entries <+: σ'.constants.entries := by
  obtain ⟨_, _, hext⟩ := h.exists_extends hstd hσ hready
  exact hext.constants

/-- When the parameters of a function have been bound, its body may be inlined. -/
lemma Emits.ready_call (hstd : job.builtins = .standard) {ps : List Ident} {es : List Expr}
    {scope : Scope} (hσ : σ.Sound)
    (h : Emits job entered (.params { role := some (.function σ.frames.length) } ps es scope) σ
      σ') :
    σ.Pushes σ' ∧ Scopes.Settled σ'.slots.next [scope] ∧
      scope.role = some (.function σ'.frames.length) := by
  obtain ⟨hpush, hsettled, hrole⟩ := h.effect hstd hσ (Scopes.Settled.nil.open_empty rfl)
  exact ⟨hpush, hsettled, by rw [hrole, hpush.frames]⟩

end Arbor
