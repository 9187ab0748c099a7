import Arbor.Proofs.Code.Containment
import Arbor.Proofs.Emission.Bodies

/-!
# What emission leaves behind

Emission that ends in a problem keeps what it has written.  Whether it ends so or not, and whatever
the builtins are, it has added to the code, the slots and the constants there were, and scopes,
frames and inlined functions are nested as before.

* `EmitState.Tidy` is the invariant, which is kept in the case of a problem as well.
* `EmitState.Appends` says what expressions do, `EmitState.Continues` what statements do.
* `Emission.appendOnly_emitExpr` and `Emission.orderly_emitStmts` prove it along the text of
  emission, with the meaning of calls left open, and `Emission.appendOnly_emitCall` closes the
  recursion.
-/

namespace Arbor

open Code Step

/-! ## States -/

namespace EmitState

/-- The invariant of emission that may fail. -/
structure Tidy (σ : EmitState) : Prop where
  contained : Contained σ.code.instructions
  placed : σ.Placed

/-- Code, slots and constants have grown. -/
structure Grows (σ σ' : EmitState) : Prop where
  code : σ.code.instructions <+: σ'.code.instructions
  contained : Contained σ'.code.instructions
  slots : σ.slots.next ≤ σ'.slots.next
  constants : σ.constants.entries <+: σ'.constants.entries

/-- What expressions do: scopes and frames are as they were, and so are the functions being
inlined. -/
structure Appends (σ σ' : EmitState) : Prop where
  grows : σ.Grows σ'
  scopes : σ'.scopes = σ.scopes
  frames : σ'.frames = σ.frames
  inlining : σ'.inlining = σ.inlining

/-- What statements do: bindings may have been added to the innermost scope, and returns to the
innermost frame.  These jump from where the code has grown.  The functions being inlined are as they
were. -/
structure Continues (σ σ' : EmitState) : Prop where
  grows : σ.Grows σ'
  scopes : Scopes.Extend σ.scopes σ'.scopes
  settled : Scopes.Settled σ'.slots.next σ'.scopes
  frames : ∃ exits, Frame.Extend exits σ.frames σ'.frames ∧ ∀ a ∈ exits, σ.code.size ≤ a.index
  inlining : σ'.inlining = σ.inlining

variable {σ σ₁ σ' : EmitState}

lemma Sound.tidy (h : σ.Sound) : σ.Tidy := ⟨h.linked.contained, h.placed⟩

/-! ### Growth -/

namespace Grows

lemma refl (h : Contained σ.code.instructions) : σ.Grows σ :=
  ⟨List.prefix_rfl, h, Nat.le_refl _, List.prefix_rfl⟩

lemma trans (h : σ.Grows σ₁) (h' : σ₁.Grows σ') : σ.Grows σ' :=
  ⟨h.code.trans h'.code, h'.contained, Nat.le_trans h.slots h'.slots,
    h.constants.trans h'.constants⟩

lemma size_le (h : σ.Grows σ') : σ.code.size ≤ σ'.code.size := h.code.length_le

/-- An instruction that does not jump forward, or jumps over nothing. -/
lemma add (h : σ.Grows σ') (op : Opcode) (b : UInt8) (hop : op.isForwardJump = false ∨ b = 0) :
    σ.Grows (σ'.add op b) :=
  ⟨h.code.trans (List.prefix_append _ _), h.contained.push hop, h.slots, h.constants⟩

lemma hold (h : σ.Grows σ') (op : Opcode) : σ.Grows (σ'.hold op) :=
  ⟨h.code.trans (List.prefix_append _ _), h.contained.reserve op, h.slots, h.constants⟩

lemma advance (h : σ.Grows σ') : σ.Grows σ'.advance :=
  ⟨h.code, h.contained, Nat.le_succ_of_le h.slots, h.constants⟩

/-- A constant was interned, perhaps for nothing. -/
lemma intern (h : σ.Grows σ') (c : Constant) :
    σ.Grows { σ' with constants := (σ'.constants.intern c).2 } :=
  ⟨h.code, h.contained, h.slots, h.constants.trans (Pool.entries_isPrefix_intern _ _)⟩

/-- A jump was patched that had not been there. -/
lemma patch (h : σ.Grows σ') (hσ : Contained σ.code.instructions) {a : Anchor} {c : Code}
    (ha : σ.code.size ≤ a.index) (hpatch : σ'.code.patch a = .ok c) :
    σ.Grows { σ' with code := c } := by
  obtain ⟨hcontained, hkeeps⟩ := isPrefix_of_patch h.contained hpatch
  exact ⟨hkeeps _ hσ h.code ha, hcontained, h.slots, h.constants⟩

end Grows

/-! ### Expressions -/

namespace Appends

lemma refl (h : Contained σ.code.instructions) : σ.Appends σ := ⟨.refl h, rfl, rfl, rfl⟩

lemma trans (h : σ.Appends σ₁) (h' : σ₁.Appends σ') : σ.Appends σ' :=
  ⟨h.grows.trans h'.grows, h'.scopes.trans h.scopes, h'.frames.trans h.frames,
    h'.inlining.trans h.inlining⟩

lemma tidy (h : σ.Appends σ') (hσ : σ.Tidy) : σ'.Tidy where
  contained := h.grows.contained
  placed := by
    refine ⟨?_, ?_⟩
    · rw [h.scopes]
      exact hσ.placed.settled.mono h.grows.slots
    · rw [h.scopes, h.frames]
      exact hσ.placed.framed

lemma add (h : σ.Appends σ') (op : Opcode) (b : UInt8) (hop : op.isForwardJump = false ∨ b = 0) :
    σ.Appends (σ'.add op b) :=
  ⟨h.grows.add op b hop, h.scopes, h.frames, h.inlining⟩

lemma advance (h : σ.Appends σ') : σ.Appends σ'.advance :=
  ⟨h.grows.advance, h.scopes, h.frames, h.inlining⟩

end Appends

/-! ### Statements -/

namespace Continues

lemma tidy (h : σ.Continues σ') (hσ : σ.Tidy) : σ'.Tidy where
  contained := h.grows.contained
  placed := by
    refine ⟨h.settled, ?_⟩
    obtain ⟨n, hframe, hlen⟩ := hσ.placed.framed
    obtain ⟨exits, hframes, -⟩ := h.frames
    exact ⟨n, h.scopes.frame?_eq.trans hframe, hframes.length_eq.trans hlen⟩

lemma trans (h : σ.Continues σ₁) (h' : σ₁.Continues σ') : σ.Continues σ' where
  grows := h.grows.trans h'.grows
  scopes := h.scopes.trans h'.scopes
  settled := h'.settled
  frames := by
    obtain ⟨exits, hframes, hexits⟩ := h.frames
    obtain ⟨exits', hframes', hexits'⟩ := h'.frames
    refine ⟨exits' ++ exits, hframes.trans hframes', fun a ha => ?_⟩
    rcases List.mem_append.1 ha with ha | ha
    · exact Nat.le_trans h.grows.size_le (hexits' a ha)
    · exact hexits a ha
  inlining := h'.inlining.trans h.inlining

end Continues

lemma Appends.continues (h : σ.Appends σ') (hσ : σ.Tidy) : σ.Continues σ' where
  grows := h.grows
  scopes := by
    obtain ⟨n, hframe, -⟩ := hσ.placed.framed
    rw [h.scopes]
    exact Scopes.extend_refl_of_frame? hframe
  settled := (h.tidy hσ).placed.settled
  frames := by
    obtain ⟨fs, top, hfs, -⟩ := hσ.placed.exists_top
    refine ⟨[], ?_, by simp⟩
    rw [h.frames]
    exact Frame.extend_refl (by simp [hfs])
  inlining := h.inlining

lemma Tidy.continues_refl (h : σ.Tidy) : σ.Continues σ := (Appends.refl h.contained).continues h

namespace Continues

/-- The code has been replaced by other code that has grown. -/
lemma withCode {c : Code} (h : σ.Continues σ') (hc : σ.Grows { σ' with code := c }) :
    σ.Continues { σ' with code := c } :=
  ⟨hc, h.scopes, h.settled, h.frames, h.inlining⟩

lemma add (h : σ.Continues σ') (op : Opcode) (b : UInt8)
    (hop : op.isForwardJump = false ∨ b = 0) : σ.Continues (σ'.add op b) :=
  h.withCode (h.grows.add op b hop)

lemma hold (h : σ.Continues σ') (op : Opcode) : σ.Continues (σ'.hold op) :=
  h.withCode (h.grows.hold op)

lemma advance (h : σ.Continues σ') : σ.Continues σ'.advance :=
  ⟨h.grows.advance, h.scopes, h.settled.mono (Nat.le_succ _), h.frames, h.inlining⟩

/-- A scope was opened and closed again. -/
lemma exit {scope : Scope} (h : σ.Continues σ₁) (hσ : σ.Tidy)
    (hbody : (σ₁.enter scope).Continues σ') : σ.Continues σ'.exit := by
  have hscopes : σ'.scopes.tail = σ₁.scopes := hbody.scopes.tail_eq
  have hinner : σ₁.Continues σ'.exit := by
    obtain ⟨hcode, hcontained, hslots, hconstants⟩ := hbody.grows
    refine ⟨⟨hcode, hcontained, hslots, hconstants⟩, ?_, ?_, hbody.frames, hbody.inlining⟩
    · rw [EmitState.exit_scopes, hscopes]
      exact (h.tidy hσ).continues_refl.scopes
    · rw [EmitState.exit_scopes, hscopes]
      exact h.settled.mono hslots
  exact h.trans hinner

/-- A name was bound in the innermost scope. -/
lemma bind (h : σ.Continues σ') {scope : Scope} {outer : Scopes} {name : String} {b : Binding}
    (hscopes : σ'.scopes = scope :: outer)
    (hsettled : Scopes.Settled σ'.slots.next (scope.bind name b :: outer)) :
    σ.Continues { σ' with scopes := scope.bind name b :: outer } where
  grows := ⟨h.grows.code, h.grows.contained, h.grows.slots, h.grows.constants⟩
  scopes := h.scopes.trans
    ⟨scope, scope.bind name b, outer, hscopes, rfl, rfl, List.suffix_cons _ _⟩
  settled := hsettled
  frames := h.frames
  inlining := h.inlining

/-- A return was recorded. -/
lemma record (h : σ.Continues σ') {fs : List Frame} {top : Frame}
    (hframes : σ'.frames = fs ++ [top]) (t : ValueType) :
    σ.Continues { σ'.hold .jump with frames := fs ++ [top.record t ⟨σ'.code.size⟩] } where
  grows := by
    obtain ⟨hcode, hcontained, hslots, hconstants⟩ := h.grows.hold .jump
    exact ⟨hcode, hcontained, hslots, hconstants⟩
  scopes := h.scopes
  settled := h.settled
  frames := by
    obtain ⟨exits, hextend, hexits⟩ := h.frames
    refine ⟨[⟨σ'.code.size⟩] ++ exits, hextend.trans ⟨fs, top, _, hframes, rfl, rfl⟩, ?_⟩
    intro a ha
    rcases List.mem_cons.1 ha with rfl | ha
    · exact h.grows.size_le
    · exact hexits a ha
  inlining := h.inlining

/-- The names that were bound in the innermost scope are bound as before. -/
lemma exists_scopes (h : σ.Continues σ') :
    ∃ s s' outer, σ.scopes = s :: outer ∧ σ'.scopes = s' :: outer ∧ s'.role = s.role ∧
      s.bindings <:+ s'.bindings ∧ ∀ x b, s.find? x = some b → s'.find? x = some b := by
  obtain ⟨s, s', outer, hs, hs', hrole, hsub⟩ := h.scopes
  refine ⟨s, s', outer, hs, hs', hrole, hsub, fun x b hx => ?_⟩
  have hnames : (s'.bindings.map Prod.fst).Nodup := h.settled.names (hs' ▸ List.mem_cons_self)
  exact Scope.find?_eq_some_of_mem hnames (hsub.subset (Scope.mem_bindings_of_find? hx))

end Continues

/-! ### Where emission goes on -/

lemma Tidy.enter_empty (hσ : σ.Tidy) : (σ.enter {}).Tidy :=
  ⟨hσ.contained, hσ.placed.enter_empty⟩

lemma Tidy.openFrame (hσ : σ.Tidy) (name : String) {scope : Scope}
    (hsettled : Scopes.Settled σ.slots.next [scope])
    (hrole : scope.role = some (.function σ.frames.length)) : (σ.openFrame name scope).Tidy :=
  ⟨hσ.contained, placed_openFrame hsettled hrole⟩

/-- A loop up to its jump out. -/
lemma Tidy.continues_head (hσ : σ.Tidy) (iter : UInt8) :
    σ.Continues (((σ.advance.add .iter).add .store iter).add .hasNext iter) :=
  ((hσ.continues_refl.advance.add .iter 0 (.inl rfl)).add .store iter (.inl rfl)).add .hasNext iter
    (.inl rfl)

/-- A loop up to where its item is stored. -/
lemma Tidy.continues_next (hσ : σ.Tidy) (iter : UInt8) :
    σ.Continues (((((σ.advance.add .iter).add .store iter).add .hasNext iter).hold .jumpUnless).add
      .next iter) :=
  ((hσ.continues_head iter).hold .jumpUnless).add .next iter (.inl rfl)

lemma Tidy.loopBody (hσ : σ.Tidy) (iter : UInt8) {item : UInt8} {name : Ident} {t : ValueType}
    {scope : Scope} (hitem : σ.slots.advance.fresh = .ok item)
    (hdef : Scope.define { role := some .loop } name (.stored t item true) = .ok scope) :
    (σ.loopBody iter item scope).Tidy :=
  ⟨((hσ.continues_next iter).advance.add .store item (.inl rfl)).grows.contained,
    hσ.placed.loopBody iter hitem hdef⟩

end EmitState

/-! ## Single steps -/

namespace Emit

variable {α β : Type}

/-- However it ends, a step only appends. -/
def AppendOnly (x : Emit α) : Prop := ∀ σ : EmitState, σ.Tidy → Leaves x σ σ.Appends

/-- However it ends, a step does what statements may do. -/
def Orderly (x : Emit α) : Prop := ∀ σ : EmitState, σ.Tidy → Leaves x σ σ.Continues

variable {x : Emit α} {f : α → Emit β} {σ σ₁ : EmitState}

/-- A step that only appends, further on. -/
lemma AppendOnly.leaves (h : AppendOnly x) (hσ : σ.Tidy) (h₁ : σ.Appends σ₁) :
    Leaves x σ₁ σ.Appends :=
  (h σ₁ (h₁.tidy hσ)).mono fun _ h' => h₁.trans h'

lemma AppendOnly.bind (hx : AppendOnly x) (hf : ∀ a, AppendOnly (f a)) : AppendOnly (x >>= f) :=
  fun σ hσ => (hx σ hσ).bind fun a _ h => (hf a).leaves hσ h

lemma appendOnly_pure (a : α) : AppendOnly (pure a) := fun _ hσ => .refl hσ.contained

lemma appendOnly_throw (p : Problem) : AppendOnly (throw p : Emit α) :=
  fun _ hσ => leaves_throw (.refl hσ.contained)

lemma appendOnly_lift (e : Except Problem α) : AppendOnly (liftM e) :=
  fun _ hσ => leaves_lift (.refl hσ.contained)

lemma appendOnly_get : AppendOnly get := fun _ hσ => .refl hσ.contained

lemma appendOnly_lookup (name : Ident) : AppendOnly (lookup name) :=
  appendOnly_get.bind fun _ => appendOnly_lift _

lemma appendOnly_push {op : Opcode} {b : UInt8} (hop : op.isForwardJump = false ∨ b = 0) :
    AppendOnly (push op b) :=
  fun _ hσ => (EmitState.Appends.refl hσ.contained).add op b hop

lemma appendOnly_pushConstant {op : Opcode} (hop : op.isForwardJump = false) (c : Constant) :
    AppendOnly (pushConstant op c) := by
  intro σ hσ
  have hinterned := (EmitState.Grows.refl hσ.contained).intern c
  exact ensures_pushConstant (fun _ => ⟨hinterned.add op _ (.inl hop), rfl, rfl, rfl⟩)
    fun _ => ⟨hinterned, rfl, rfl, rfl⟩

lemma appendOnly_loadNumber (n : Number) : AppendOnly (loadNumber n) := by
  cases n with
  | int v =>
    rw [loadNumber]
    split
    · exact appendOnly_push (.inl rfl)
    · exact appendOnly_pushConstant rfl _
  | float x =>
    rw [loadNumber]
    split
    · exact appendOnly_push (.inl rfl)
    · exact appendOnly_pushConstant rfl _

lemma appendOnly_loadScalar (d : Datum) : AppendOnly (loadScalar d) := by
  cases d with
  | none => exact appendOnly_push (.inl rfl)
  | bool b => cases b <;> exact appendOnly_push (.inl rfl)
  | number n => exact appendOnly_loadNumber n
  | str text => exact appendOnly_pushConstant rfl _
  | kind name => exact appendOnly_pushConstant rfl _
  | list items => exact appendOnly_throw _

lemma appendOnly_appendAll (ds : List Datum) : AppendOnly (appendAll ds) := by
  induction ds with
  | nil => exact appendOnly_pure ()
  | cons d ds ih =>
    exact (appendOnly_loadScalar d).bind fun _ => (appendOnly_push (.inl rfl)).bind fun _ => ih

lemma appendOnly_loadDatum (d : Datum) : AppendOnly (loadDatum d) := by
  have hscalar := appendOnly_loadScalar d
  cases d with
  | list items => exact (appendOnly_push (.inl rfl)).bind fun _ => appendOnly_appendAll items
  | _ => exact hscalar

/-- Jumps that had not been there are patched, as far as that goes. -/
lemma leaves_patchAll {as : List Anchor} (hσ : σ.Tidy) (h : σ.Appends σ₁)
    (has : ∀ a ∈ as, σ.code.size ≤ a.index) : Leaves (patchAll as) σ₁ σ.Appends := by
  induction as generalizing σ₁ with
  | nil => exact leaves_pure h
  | cons a as ih =>
    refine ensures_onCode_bind (Assemble.atomic_patch a) (fun _ _ => h) fun c hc => ?_
    refine ih ?_ fun b hb => has b (List.mem_cons_of_mem a hb)
    exact ⟨h.grows.patch hσ.contained (has a List.mem_cons_self) hc, h.scopes, h.frames, h.inlining⟩

/-! ### Statements -/

lemma Orderly.leaves (h : Orderly x) (hσ : σ.Tidy) (h₁ : σ.Continues σ₁) :
    Leaves x σ₁ σ.Continues :=
  (h σ₁ (h₁.tidy hσ)).mono fun _ h' => h₁.trans h'

lemma Orderly.bind (hx : Orderly x) (hf : ∀ a, Orderly (f a)) : Orderly (x >>= f) :=
  fun σ hσ => (hx σ hσ).bind fun a _ h => (hf a).leaves hσ h

lemma AppendOnly.orderly (h : AppendOnly x) : Orderly x :=
  fun σ hσ => (h σ hσ).mono fun _ h' => h'.continues hσ

lemma orderly_pure (a : α) : Orderly (pure a) := (appendOnly_pure a).orderly

lemma orderly_push {op : Opcode} {b : UInt8} (hop : op.isForwardJump = false ∨ b = 0) :
    Orderly (push op b) := (appendOnly_push hop).orderly

lemma orderly_leave (t : ValueType) : Orderly (leave t) := by
  intro σ hσ
  obtain ⟨fs, top, hframes, -⟩ := hσ.placed.exists_top
  unfold Leaves Ensures
  rw [leave_apply hσ.placed hframes]
  exact hσ.continues_refl.record hframes t

/-- A datum is bound for good. -/
lemma orderly_define_constant (name : Ident) (d : Datum) :
    Orderly (define name (.constant d true)) := by
  intro σ hσ
  rw [← bind_pure (define _ _)]
  refine ensures_define_bind (fun _ _ => hσ.continues_refl) fun ss hdef => ?_
  obtain ⟨scope, scope', outer, hscopes, hscope', rfl⟩ := hσ.placed.define_eq_ok hdef
  obtain ⟨-, hnone, rfl⟩ := Scope.define_eq_ok_iff.1 hscope'
  have hsettled := hσ.placed.settled
  rw [hscopes] at hsettled
  exact leaves_pure (hσ.continues_refl.bind hscopes (hsettled.bind_constant hnone d))

/-- A value that is on the stack is bound to a slot of its own and stored there. -/
lemma orderly_define_stored (name : Ident) (t : ValueType) (isFinal : Bool) :
    Orderly (do
      let slot ← alloc
      define name (.stored t slot isFinal)
      push .store slot
      pure false) := by
  intro σ hσ
  refine ensures_alloc_bind hσ.continues_refl fun slot hslot => ?_
  have hadvance := hσ.continues_refl.advance
  refine ensures_define_bind (fun _ _ => hadvance) fun ss hdef => ?_
  obtain ⟨scope, scope', outer, hscopes, hscope', rfl⟩ :=
    (hadvance.tidy hσ).placed.define_eq_ok hdef
  obtain ⟨-, hnone, rfl⟩ := Scope.define_eq_ok_iff.1 hscope'
  have hsettled := hσ.placed.settled
  rw [show σ.scopes = scope :: outer from hscopes] at hsettled
  have hbound := hadvance.bind hscopes
    (hsettled.bind_stored hnone (Slots.toNat_of_fresh hslot) t isFinal)
  exact ensures_push_bind (ensures_pure (hbound.add .store slot (.inl rfl)))

/-- A scope of its own, which is closed again. -/
lemma leaves_inChild_bind {scope : Scope} (hσ : σ.Tidy) (h : σ.Continues σ₁)
    (hx : Leaves x (σ₁.enter scope) (σ₁.enter scope).Continues)
    (hf : ∀ a σ', σ.Continues σ' → Leaves (f a) σ' σ.Continues) :
    Leaves (inChild scope x >>= f) σ₁ σ.Continues :=
  ensures_inChild_bind
    (Ensures.mono hx (fun a _ h' => hf a _ (h.exit hσ h')) fun _ _ h' => h.exit hσ h')

/-- A scope without names of its own may be opened anywhere. -/
lemma Orderly.leaves_block_bind (hx : Orderly x) (hσ : σ.Tidy) (h : σ.Continues σ₁)
    (hf : ∀ a σ', σ.Continues σ' → Leaves (f a) σ' σ.Continues) :
    Leaves (inChild {} x >>= f) σ₁ σ.Continues :=
  leaves_inChild_bind hσ h (hx _ (h.tidy hσ).enter_empty) hf

/-- A jump that had not been there is patched. -/
lemma leaves_patch_bind {a : Anchor} {f : Unit → Emit β} (hσ : σ.Tidy) (h : σ.Continues σ₁)
    (ha : σ.code.size ≤ a.index)
    (hf : ∀ σ', σ.Continues σ' → Leaves (f ()) σ' σ.Continues) :
    Leaves (patch a >>= f) σ₁ σ.Continues :=
  ensures_onCode_bind (Assemble.atomic_patch a) (fun _ _ => h) fun _ hc =>
    hf _ (h.withCode (h.grows.patch hσ.contained ha hc))

end Emit

/-! ## Expressions -/

namespace Emission

open Emit

variable {job : Job} {entered : List String} {inline : Inliner job entered}

lemma appendOnly_accept (load : Bool) (e : Expr) {emit : Emit ValueType} (hemit : AppendOnly emit) :
    AppendOnly (accept job entered load e emit) := by
  refine appendOnly_get.bind fun _ => (appendOnly_lift _).bind fun r => ?_
  cases r with
  | some d =>
    cases load with
    | true => exact (appendOnly_loadDatum d).bind fun _ => appendOnly_pure _
    | false => exact appendOnly_pure _
  | none => exact hemit.bind fun _ => appendOnly_pure _

/-- Inlining a body only appends, if the scope of the body is prepared for it. -/
def Inliner.AppendOnly (inline : Inliner job entered) : Prop :=
  ∀ (g : Inlinable job entered) (scope : Scope) (σ : EmitState), σ.Tidy →
    Scopes.Settled σ.slots.next [scope] → scope.role = some (.function σ.frames.length) →
    Leaves (inline g scope) σ σ.Appends

/-- The operator or builtin that is applied to what is on the stack. -/
lemma appendOnly_apply (o : Overloads) (types : List ValueType) (span : Span) :
    AppendOnly (do
      let (type, opcode) ← o.infer types span
      push opcode
      pure type) :=
  (appendOnly_lift _).bind fun _ => (appendOnly_push (.inr rfl)).bind fun _ => appendOnly_pure _

mutual
lemma appendOnly_emitExpr (hinline : inline.AppendOnly) (e : Expr) :
    AppendOnly (emitExpr inline e) := by
  match e with
  | .literal d span =>
    rw [emitExpr]
    exact (appendOnly_loadDatum d).bind fun _ => appendOnly_pure _
  | .ref name span =>
    rw [emitExpr]
    refine (appendOnly_lookup name).bind fun b => ?_
    cases b with
    | stored t slot f => exact (appendOnly_push (.inl rfl)).bind fun _ => appendOnly_pure _
    | constant d f => exact (appendOnly_loadDatum d).bind fun _ => appendOnly_pure _
  | .attr target field span =>
    rw [emitExpr]
    refine (appendOnly_lookup target).bind fun b => (appendOnly_lift _).bind fun _ => ?_
    cases b with
    | stored t slot f =>
      exact (appendOnly_push (.inl rfl)).bind fun _ =>
        (appendOnly_pushConstant rfl _).bind fun _ => appendOnly_pure _
    | constant d f => exact appendOnly_throw _
  | .unary op operand span =>
    rw [emitExpr]
    exact (appendOnly_accept true operand (appendOnly_emitExpr hinline operand)).bind fun _ =>
      (appendOnly_lift _).bind fun o => appendOnly_apply o _ span
  | .binary op left right span =>
    rw [emitExpr]
    exact (appendOnly_accept true left (appendOnly_emitExpr hinline left)).bind fun _ =>
      (appendOnly_accept true right (appendOnly_emitExpr hinline right)).bind fun _ =>
        (appendOnly_lift _).bind fun o => appendOnly_apply o _ span
  | .call name args site span =>
    rw [emitExpr]
    refine (appendOnly_lift _).bind fun callee => ?_
    cases callee with
    | builtin o =>
      exact (appendOnly_lift _).bind fun _ => (appendOnly_emitArgs hinline args).bind fun types =>
        appendOnly_apply o types site
    | function d mem =>
      refine (appendOnly_lift _).bind fun _ => (appendOnly_lift _).bind fun g => ?_
      intro σ hσ
      have hempty : Scopes.Settled σ.slots.next
          [({ role := some (.function σ.frames.length) } : Scope)] :=
        Scopes.Settled.nil.open_empty rfl
      refine ensures_get_bind (Ensures.bind (ensures_emitParams hinline d.params args hσ hempty)
        (fun _ _ h => h) ?_)
      rintro scope σ₁ ⟨happend, hsettled, hrole⟩
      rw [← happend.frames] at hrole
      exact (hinline g scope σ₁ (happend.tidy hσ) hsettled hrole).mono fun _ h => happend.trans h
  | .list items span =>
    rw [emitExpr]
    exact (appendOnly_push (.inl rfl)).bind fun _ =>
      (appendOnly_emitItems hinline items).bind fun _ => appendOnly_pure _

lemma appendOnly_emitArgs (hinline : inline.AppendOnly) (es : List Expr) :
    AppendOnly (emitArgs inline es) := by
  match es with
  | [] =>
    rw [emitArgs]
    exact appendOnly_pure _
  | e :: es =>
    rw [emitArgs]
    exact (appendOnly_accept true e (appendOnly_emitExpr hinline e)).bind fun _ =>
      (appendOnly_emitArgs hinline es).bind fun _ => appendOnly_pure _

lemma appendOnly_emitItems (hinline : inline.AppendOnly) (es : List Expr) :
    AppendOnly (emitItems inline es) := by
  match es with
  | [] =>
    rw [emitItems]
    exact appendOnly_pure _
  | e :: es =>
    rw [emitItems]
    exact (appendOnly_accept true e (appendOnly_emitExpr hinline e)).bind fun _ =>
      (appendOnly_lift _).bind fun _ => (appendOnly_push (.inl rfl)).bind fun _ =>
        (appendOnly_emitItems hinline es).bind fun _ => appendOnly_pure _

/-- Parameters are bound in a scope that is not yet among those of the state. -/
lemma ensures_emitParams (hinline : inline.AppendOnly) (ps : List Ident) (es : List Expr)
    {scope : Scope} {σ : EmitState} (hσ : σ.Tidy)
    (hscope : Scopes.Settled σ.slots.next [scope]) :
    Ensures (emitParams inline scope ps es) σ
      (fun scope' σ' => σ.Appends σ' ∧ Scopes.Settled σ'.slots.next [scope'] ∧
        scope'.role = scope.role)
      fun _ σ' => σ.Appends σ' := by
  match ps, es with
  | [], es =>
    rw [emitParams.eq_def]
    exact ensures_pure ⟨.refl hσ.contained, hscope, rfl⟩
  | p :: ps, [] =>
    rw [emitParams.eq_def]
    exact ensures_pure ⟨.refl hσ.contained, hscope, rfl⟩
  | p :: ps, e :: es =>
    rw [emitParams]
    refine Ensures.bind (appendOnly_accept false e (appendOnly_emitExpr hinline e) σ hσ)
      (fun _ _ h => h) fun v σ₁ h₁ => ?_
    have hσ₁ := h₁.tidy hσ
    have hscope₁ := hscope.mono h₁.grows.slots
    cases v with
    | known d =>
      refine ensures_lift_bind (fun _ _ => h₁) fun scope₁ hdef => ?_
      obtain ⟨-, hnone, rfl⟩ := Scope.define_eq_ok_iff.1 hdef
      exact (ensures_emitParams hinline ps es hσ₁ (hscope₁.bind_constant hnone d)).mono
        (fun _ _ h => ⟨h₁.trans h.1, h.2⟩) fun _ _ h => h₁.trans h
    | runtime t =>
      -- The slot is taken even if the name turns out to be bound already.
      refine ensures_alloc_bind h₁ fun slot hslot => ?_
      have hadvance := (EmitState.Appends.refl hσ₁.contained).advance
      refine ensures_lift_bind (fun _ _ => h₁.trans hadvance) fun scope₁ hdef => ?_
      obtain ⟨-, hnone, rfl⟩ := Scope.define_eq_ok_iff.1 hdef
      have hstore := hadvance.add .store slot (.inl rfl)
      have hsettled := hscope₁.bind_stored hnone (Slots.toNat_of_fresh hslot) t true
      exact ensures_push_bind ((ensures_emitParams hinline ps es (hstore.tidy hσ₁) hsettled).mono
        (fun _ _ h => ⟨(h₁.trans hstore).trans h.1, h.2⟩) fun _ _ h => (h₁.trans hstore).trans h)
end

lemma appendOnly_acceptExpr (hinline : inline.AppendOnly) (load : Bool) (e : Expr) :
    AppendOnly (acceptExpr inline load e) :=
  appendOnly_accept load e (appendOnly_emitExpr hinline e)

/-! ## Statements -/

lemma orderly_acceptExpr (hinline : inline.AppendOnly) (load : Bool) (e : Expr) :
    Orderly (acceptExpr inline load e) :=
  (appendOnly_acceptExpr hinline load e).orderly

/-- A definition whose value is stored. -/
lemma orderly_define (hinline : inline.AppendOnly) {q : Qualifier} (hq : q ≠ .const) (name : Ident)
    (value : Expr) : Orderly (emitStmt inline (.define q name value)) := by
  have hstep : emitStmt inline (.define q name value) = (do
      let v ← acceptExpr inline true value
      let slot ← alloc
      define name (.stored v.type slot q.isFinal)
      push .store slot
      pure false) := by
    rw [emitStmt]
    exact hq
  rw [hstep]
  exact (orderly_acceptExpr hinline true value).bind fun v =>
    orderly_define_stored name v.type q.isFinal

/-- Whatever is emitted between the jump of a condition and the patch of that jump is orderly. -/
lemma orderly_emitCond_bind {α : Type} (hinline : inline.AppendOnly) (cond : Expr)
    {f : Anchor → Emit α}
    (hf : ∀ σ : EmitState, σ.Tidy → Leaves (f ⟨σ.code.size⟩) (σ.hold .jumpUnless) σ.Continues) :
    Orderly (emitCond inline cond >>= f) := by
  unfold emitCond
  rw [bind_assoc]
  refine (orderly_acceptExpr hinline true cond).bind fun c => ?_
  rw [bind_assoc]
  refine (appendOnly_lift _).orderly.bind fun _ σ hσ => ?_
  exact ensures_reserve_bind (hf σ hσ)

mutual
lemma orderly_emitStmt (hinline : inline.AppendOnly) (s : Stmt) : Orderly (emitStmt inline s) := by
  match s with
  | .block body =>
    rw [emitStmt, ← bind_pure (inChild _ _)]
    exact fun σ hσ => (orderly_emitStmts hinline body).leaves_block_bind hσ hσ.continues_refl
      fun _ _ h => leaves_pure h
  | .define .const name value =>
    rw [emitStmt]
    refine (orderly_acceptExpr hinline false value).bind fun v => ?_
    cases v with
    | known d => exact (orderly_define_constant name d).bind fun _ => orderly_pure _
    | runtime t => exact (appendOnly_throw _).orderly
  | .define .var name value => exact orderly_define hinline (by decide) name value
  | .define .final name value => exact orderly_define hinline (by decide) name value
  | .assign name value =>
    rw [emitStmt]
    refine (orderly_acceptExpr hinline true value).bind fun v σ hσ => ?_
    -- What is known is final, so assigning only stores and changes no binding.
    exact ensures_assign_bind hσ.placed (fun _ _ => hσ.continues_refl) fun t slot _ _ =>
      ensures_push_bind (ensures_pure (hσ.continues_refl.add .store slot (.inl rfl)))
  | .ret none =>
    rw [emitStmt]
    exact (orderly_push (.inl rfl)).bind fun _ => (orderly_leave _).bind fun _ => orderly_pure _
  | .ret (some value) =>
    rw [emitStmt]
    exact (orderly_acceptExpr hinline true value).bind fun v =>
      (orderly_leave v.type).bind fun _ => orderly_pure _
  | .ifThen cond yes =>
    rw [emitStmt]
    refine orderly_emitCond_bind hinline cond fun σ hσ => ?_
    refine (orderly_emitStmts hinline yes).leaves_block_bind hσ (hσ.continues_refl.hold _)
      fun _ σ₁ h₁ => ?_
    exact leaves_patch_bind hσ h₁ (Nat.le_refl _) fun _ h => leaves_pure h
  | .ifElse cond yes no =>
    rw [emitStmt]
    refine orderly_emitCond_bind hinline cond fun σ hσ => ?_
    refine (orderly_emitStmts hinline yes).leaves_block_bind hσ (hσ.continues_refl.hold _)
      fun _ σ₁ h₁ => ?_
    -- Both jumps lie behind the condition, so patching them leaves alone what was before it.
    refine ensures_reserve_bind (leaves_patch_bind hσ (h₁.hold .jump) (Nat.le_refl _)
      fun σ₂ h₂ => ?_)
    refine (orderly_emitStmts hinline no).leaves_block_bind hσ h₂ fun _ σ₃ h₃ => ?_
    exact leaves_patch_bind hσ h₃ h₁.grows.size_le fun _ h => leaves_pure h
  | .loop name items body =>
    rw [emitStmt]
    refine (orderly_acceptExpr hinline true items).bind fun v => ?_
    refine (appendOnly_lift _).orderly.bind fun _ σ hσ => ?_
    refine ensures_alloc_bind hσ.continues_refl fun iter hiter => ?_
    have hnext := hσ.continues_next iter
    refine ensures_push_bind (ensures_push_bind (ensures_get_bind (ensures_push_bind
      (ensures_reserve_bind (ensures_push_bind (ensures_alloc_bind hnext fun item hitem => ?_))))))
    have hitems := hnext.advance.add .store item (.inl rfl)
    refine ensures_push_bind (ensures_lift_bind (fun _ _ => hitems) fun scope hdef => ?_)
    refine leaves_inChild_bind hσ hitems
      (orderly_emitStmts hinline body _ (hσ.loopBody iter hitem hdef)) fun _ σ₁ h₁ => ?_
    refine ensures_onCode_bind (Assemble.atomic_jumpBack _) (fun _ _ => h₁) fun c hc => ?_
    obtain ⟨b, rfl, -⟩ := Code.exists_of_jumpBack hc
    exact leaves_patch_bind hσ (h₁.add .jumpBack b (.inl rfl))
      (hσ.continues_head iter).grows.size_le fun _ h => leaves_pure h
  | .fail message span =>
    rw [emitStmt]
    exact (orderly_acceptExpr hinline true message).bind fun _ =>
      (appendOnly_lift _).orderly.bind fun _ =>
        (orderly_push (.inl rfl)).bind fun _ => orderly_pure _
  | .expr value =>
    rw [emitStmt]
    refine (orderly_acceptExpr hinline false value).bind fun v => ?_
    cases v with
    | known d => exact orderly_pure _
    | runtime t => exact (orderly_push (.inl rfl)).bind fun _ => orderly_pure _

lemma orderly_emitStmts (hinline : inline.AppendOnly) (ss : List Stmt) :
    Orderly (emitStmts inline ss) := by
  match ss with
  | [] =>
    rw [emitStmts]
    exact orderly_pure _
  | s :: ss =>
    rw [emitStmts]
    exact (orderly_emitStmt hinline s).bind fun _ =>
      (orderly_emitStmts hinline ss).bind fun _ => orderly_pure _
end

/-! ## Calls -/

/-- The frame of a body, with the returns recorded in it, is the last one when it is closed. -/
lemma exists_frame_of_continues {σ σ₁ : EmitState} {name : String} {scope : Scope}
    (h : (σ.openFrame name scope).Continues σ₁) :
    ∃ frame, σ₁.frames = σ.frames ++ [frame] ∧ (∀ a ∈ frame.exits, σ.code.size ≤ a.index) ∧
      σ.Appends (σ₁.leaveFrame σ.scopes σ.frames) := by
  obtain ⟨exits, ⟨before, top, top', hopened, hframes, hexits⟩, hbound⟩ := h.frames
  obtain ⟨rfl, rfl⟩ := List.append_singleton_inj.1 (hopened : σ.frames ++ [{}] = before ++ [top])
  obtain ⟨hcode, hcontained, hslots, hconstants⟩ := h.grows
  refine ⟨top', hframes, ?_, ⟨⟨hcode, hcontained, hslots, hconstants⟩, rfl, rfl, ?_⟩⟩
  · rw [show top'.exits = exits by simpa using hexits]
    exact hbound
  · -- What was put in front of the list when the body was entered is taken away again.
    rw [EmitState.leaveFrame_inlining, h.inlining, EmitState.openFrame_inlining, List.tail_cons]

/-- Inlined bodies, one inside the other, only append. -/
lemma appendOnly_emitCall (job : Job) (entered : List String) :
    Inliner.AppendOnly (emitCall job entered) := by
  intro g scope σ hσ hsettled hrole
  have hinline := appendOnly_emitCall job (g.name :: entered)
  have hopen := hσ.openFrame g.name hsettled hrole
  rw [emitCall]
  refine ensures_inFrame_bind (Ensures.mono (orderly_emitStmts hinline g.definition.body _ hopen)
    (fun returns σ₁ h => ?_) fun p σ₁ h => ?_)
  · obtain ⟨frame, hframes, hexits, happend⟩ := exists_frame_of_continues h
    refine ⟨frame, hframes, ?_⟩
    cases returns with
    | true => exact (leaves_patchAll hσ happend hexits).bind fun _ _ h => leaves_pure h
    | false =>
      exact ensures_push_bind ((leaves_patchAll hσ (happend.add .pushNone 0 (.inl rfl)) hexits).bind
        fun _ _ h => leaves_pure h)
  · -- The frame is closed after a problem, too; the returns recorded in it wait for ever.
    obtain ⟨frame, hframes, -, happend⟩ := exists_frame_of_continues h
    rw [hframes]
    exact ⟨by simp, by simpa using happend⟩
termination_by Nesting.remaining job.functionNames entered
decreasing_by exact Inlinable.remaining_lt _

end Emission

end Arbor
