import Arbor.Proofs.Builtin.Resolution
import Arbor.Proofs.Code.Growth
import Arbor.Proofs.Emission.Derivation
import Arbor.Proofs.Scope.Settled

/-!
# What emission preserves

A state of emission is sound (`EmitState.Sound`) if the jumps of its code stay inside it, its scopes
are settled and its innermost scopes belong to the innermost frame.  Emission keeps states sound.
What it does besides is described by `EmitState.Extends`: code, slots and constants only grow, and
the jumps that statements leave waiting are the returns they record in the innermost frame.  The
theorem that says so is in `Arbor.Proofs.Emission.Effect`.
-/

namespace Arbor

open Code

/-! ## Frames of scopes -/

namespace Scopes

lemma frame?_cons (s : Scope) (ss : Scopes) :
    frame? (s :: ss) = (s.role.bind ScopeRole.frame?).or (frame? ss) := by
  unfold frame? findRole
  cases hrole : s.role with
  | none => simp [hrole]
  | some r => cases r <;> simp [hrole, ScopeRole.frame?, Option.filter]

/-- The innermost scope may have got more bindings, the others are the same. -/
def Extend (ss ss' : Scopes) : Prop :=
  ∃ s s' outer, ss = s :: outer ∧ ss' = s' :: outer ∧ s'.role = s.role ∧ s.bindings <:+ s'.bindings

variable {ss ss₁ ss' : Scopes}

lemma Extend.trans (h : Extend ss ss₁) (h' : Extend ss₁ ss') : Extend ss ss' := by
  obtain ⟨s, s₁, outer, rfl, rfl, hrole, hsub⟩ := h
  obtain ⟨_, s', _, heq, rfl, hrole', hsub'⟩ := h'
  cases heq
  exact ⟨s, s', outer, rfl, rfl, hrole'.trans hrole, hsub.trans hsub'⟩

lemma Extend.frame?_eq (h : Extend ss ss') : frame? ss' = frame? ss := by
  obtain ⟨s, s', outer, rfl, rfl, hrole, -⟩ := h
  rw [frame?_cons, frame?_cons, hrole]

lemma Extend.tail_eq (h : Extend ss ss') : ss'.tail = ss.tail := by
  obtain ⟨s, s', outer, rfl, rfl, -⟩ := h
  rfl

lemma extend_refl_of_frame? {n : Nat} (h : frame? ss = some n) : Extend ss ss := by
  cases ss with
  | nil => simp [frame?, findRole] at h
  | cons s outer => exact ⟨s, s, outer, rfl, rfl, rfl, List.suffix_rfl⟩

end Scopes

/-! ## Frames -/

/-- The innermost frame has more exits, the others are the same. -/
def Frame.Extend (exits : List Anchor) (fs fs' : List Frame) : Prop :=
  ∃ before top top', fs = before ++ [top] ∧ fs' = before ++ [top'] ∧ top'.exits = exits ++ top.exits

namespace Frame

variable {fs fs₁ fs' : List Frame} {exits exits' : List Anchor}

lemma Extend.trans (h : Extend exits fs fs₁) (h' : Extend exits' fs₁ fs') :
    Extend (exits' ++ exits) fs fs' := by
  obtain ⟨before, top, top₁, rfl, rfl, hexits⟩ := h
  obtain ⟨_, _, top', heq, rfl, hexits'⟩ := h'
  obtain ⟨rfl, rfl⟩ := List.append_singleton_inj.1 heq
  exact ⟨_, top, top', rfl, rfl, by rw [hexits', hexits, List.append_assoc]⟩

lemma Extend.length_eq (h : Extend exits fs fs') : fs'.length = fs.length := by
  obtain ⟨before, top, top', rfl, rfl, -⟩ := h
  simp

lemma extend_refl (h : fs ≠ []) : Extend [] fs fs := by
  obtain ⟨before, top, rfl⟩ := List.eq_nil_or_concat' fs |>.resolve_left h
  exact ⟨before, top, top, rfl, rfl, rfl⟩

end Frame

/-! ## Patching several jumps -/

namespace Emit

lemma onCode_apply {step : Assemble Unit} (hatomic : Step.Atomic step) (σ : EmitState) :
    onCode step σ = match Step.outcome step σ.code with
      | .ok c => .ok () { σ with code := c }
      | .error p => .error p σ := by
  rw [onCode, Step.within, hatomic.apply]
  cases Step.outcome step σ.code <;> rfl

lemma pushConstant_apply (op : Opcode) (c : Constant) (σ : EmitState) :
    pushConstant op c σ =
      match σ.code.pushIndex op "constant" (σ.constants.intern c).1 with
      | .ok code => .ok () { σ with constants := (σ.constants.intern c).2, code := code }
      | .error p => .error p { σ with constants := (σ.constants.intern c).2 } :=
  onCode_apply (Assemble.atomic_pushIndex op "constant" _)
    { σ with constants := (σ.constants.intern c).2 }

lemma patch_apply (a : Anchor) (σ : EmitState) :
    patch a σ = match σ.code.patch a with
      | .ok c => .ok () { σ with code := c }
      | .error p => .error p σ :=
  onCode_apply (Assemble.atomic_patch a) σ

lemma patchAll_cons_eq_ok {a : Anchor} {as : List Anchor} {σ σ' : EmitState}
    (h : patchAll (a :: as) σ = .ok () σ') :
    ∃ c, σ.code.patch a = .ok c ∧ patchAll as { σ with code := c } = .ok () σ' := by
  rw [patchAll] at h
  simp only [bind, EStateM.bind, patch_apply] at h
  cases hc : σ.code.patch a with
  | error p => simp [hc] at h
  | ok c => exact ⟨c, rfl, by simpa [hc] using h⟩

/-- Patching jumps that wait, one after the other, changes the code only. -/
lemma grown_patchAll {is : List Instruction} {as rest : List Anchor} {σ σ' : EmitState}
    (h : Grown is σ.code.instructions (as ++ rest)) (hlink : Linked is)
    (hpatch : patchAll as σ = .ok () σ') :
    Grown is σ'.code.instructions rest ∧ σ' = { σ with code := σ'.code } := by
  induction as generalizing σ with
  | nil =>
    cases hpatch
    exact ⟨h, rfl⟩
  | cons a as ih =>
    obtain ⟨c, hc, hrest⟩ := patchAll_cons_eq_ok hpatch
    have hmiddle : Grown is σ.code.instructions ([] ++ a :: (as ++ rest)) := h
    obtain ⟨hgrown, heq⟩ :=
      ih (hmiddle.patch hlink (clips_of_patch h.linked hmiddle.isPending hc)) hrest
    exact ⟨hgrown, heq⟩

end Emit

/-! ## Sound states -/

namespace EmitState

/-- The scopes are settled, and the innermost of them belong to the innermost frame. -/
structure Placed (σ : EmitState) : Prop where
  settled : Scopes.Settled σ.slots.next σ.scopes
  framed : ∃ n, Scopes.frame? σ.scopes = some n ∧ σ.frames.length = n + 1

/-- The invariant of emission. -/
structure Sound (σ : EmitState) : Prop where
  linked : Linked σ.code.instructions
  settled : Scopes.Settled σ.slots.next σ.scopes
  framed : ∃ n, Scopes.frame? σ.scopes = some n ∧ σ.frames.length = n + 1

variable {σ σ₁ σ' : EmitState}

lemma Sound.placed (h : σ.Sound) : σ.Placed := ⟨h.settled, h.framed⟩

lemma Placed.exists_top (h : σ.Placed) :
    ∃ fs top, σ.frames = fs ++ [top] ∧ Scopes.frame? σ.scopes = some fs.length := by
  obtain ⟨n, hframe, hlen⟩ := h.framed
  have hne : σ.frames ≠ [] := by
    intro hnil
    simp [hnil] at hlen
  obtain ⟨fs, top, heq⟩ := List.eq_nil_or_concat' σ.frames |>.resolve_left hne
  refine ⟨fs, top, heq, ?_⟩
  rw [hframe, show n = fs.length by simpa [heq] using hlen.symm]

lemma Placed.exists_scope (h : σ.Placed) : ∃ scope outer, σ.scopes = scope :: outer := by
  obtain ⟨n, hframe, -⟩ := h.framed
  obtain ⟨s, -, outer, hscopes, -⟩ := Scopes.extend_refl_of_frame? hframe
  exact ⟨s, outer, hscopes⟩

lemma Placed.define_eq_ok (h : σ.Placed) {name : Ident} {b : Binding} {ss : Scopes}
    (hdef : Scopes.define σ.scopes name b = .ok ss) :
    ∃ scope scope' outer, σ.scopes = scope :: outer ∧ scope.define name b = .ok scope' ∧
      ss = scope' :: outer := by
  obtain ⟨scope, outer, hscopes⟩ := h.exists_scope
  obtain ⟨scope', hscope', rfl⟩ := Scopes.define_eq_ok hdef
  rw [hscopes] at hscope' ⊢
  exact ⟨scope, scope', outer, rfl, hscope', rfl⟩

/-- A scope that belongs to no body may be opened. -/
lemma Placed.enter (h : σ.Placed) {scope : Scope}
    (hsettled : Scopes.Settled σ.slots.next (scope :: σ.scopes))
    (hrole : scope.role.bind ScopeRole.frame? = none) : (σ.enter scope).Placed where
  settled := hsettled
  framed := by
    obtain ⟨n, hframe, hlen⟩ := h.framed
    refine ⟨n, ?_, hlen⟩
    change Scopes.frame? (scope :: σ.scopes) = some n
    rw [Scopes.frame?_cons, hrole, Option.none_or, hframe]

lemma Placed.enter_empty (h : σ.Placed) : (σ.enter {}).Placed :=
  h.enter (h.settled.open_empty rfl) rfl

/-- A body starts with a frame of its own and a scope that belongs to it. -/
lemma placed_openFrame {name : String} {scope : Scope}
    (hsettled : Scopes.Settled σ.slots.next [scope])
    (hrole : scope.role = some (.function σ.frames.length)) : (σ.openFrame name scope).Placed where
  settled := hsettled
  framed := by
    refine ⟨σ.frames.length, ?_, by simp [EmitState.openFrame]⟩
    change Scopes.frame? [scope] = _
    rw [Scopes.frame?_cons, hrole]
    rfl

/-- Code, slots and constants have grown.  The jumps in `new` wait for their targets, those in
`exits` have been recorded as returns. -/
structure Extends (σ σ' : EmitState) (new exits : List Anchor) : Prop where
  code : Grown σ.code.instructions σ'.code.instructions new
  frames : Frame.Extend exits σ.frames σ'.frames
  slots : σ.slots.next ≤ σ'.slots.next
  constants : σ.constants.entries <+: σ'.constants.entries

variable {new new' exits exits' : List Anchor}

lemma Sound.extends_refl (h : σ.Sound) : Extends σ σ [] [] where
  code := .refl h.linked
  frames := by
    obtain ⟨fs, top, heq, -⟩ := h.placed.exists_top
    exact Frame.extend_refl (by simp [heq])
  slots := Nat.le_refl _
  constants := List.prefix_rfl

namespace Extends

lemma trans (h : Extends σ σ₁ new exits) (h' : Extends σ₁ σ' new' exits') :
    Extends σ σ' (new' ++ new) (exits' ++ exits) where
  code := h.code.trans h'.code
  frames := h.frames.trans h'.frames
  slots := Nat.le_trans h.slots h'.slots
  constants := h.constants.trans h'.constants

lemma add (h : Extends σ σ' new exits) (op : Opcode) (hop : op.isForwardJump = false) (b : UInt8) :
    Extends σ (σ'.add op b) new exits where
  code := h.code.push hop b
  frames := h.frames
  slots := h.slots
  constants := h.constants

lemma addConstant (h : Extends σ σ' new exits) (op : Opcode) (hop : op.isForwardJump = false)
    (c : Constant) : Extends σ (σ'.addConstant op c) new exits where
  code := h.code.push hop _
  frames := h.frames
  slots := h.slots
  constants := h.constants.trans (Pool.entries_isPrefix_intern _ _)

lemma hold (h : Extends σ σ' new exits) (op : Opcode) (hop : op.isForwardJump = true) :
    Extends σ (σ'.hold op) (⟨σ'.code.size⟩ :: new) exits where
  code := h.code.reserve hop
  frames := h.frames
  slots := h.slots
  constants := h.constants

lemma advance (h : Extends σ σ' new exits) : Extends σ σ'.advance new exits where
  code := h.code
  frames := h.frames
  slots := Nat.le_succ_of_le h.slots
  constants := h.constants

/-- Scopes do not matter. -/
lemma withScopes (h : Extends σ σ' new exits) (ss : Scopes) :
    Extends σ { σ' with scopes := ss } new exits :=
  ⟨h.code, h.frames, h.slots, h.constants⟩

/-- Patching a jump that waits. -/
lemma patch {before after : List Anchor} {a : Anchor} {c : Code}
    (h : Extends σ σ' (before ++ a :: after) exits) (hlink : Linked σ.code.instructions)
    (hpatch : σ'.code.patch a = .ok c) :
    Extends σ { σ' with code := c } (before ++ after) exits where
  code := h.code.patch hlink (clips_of_patch h.code.linked h.code.isPending hpatch)
  frames := h.frames
  slots := h.slots
  constants := h.constants

/-- Patching jumps that wait, one after the other. -/
lemma patchAll {as rest exits : List Anchor} {σ σ' σ'' : EmitState}
    (h : σ.Extends σ' (as ++ rest) exits) (hlink : Linked σ.code.instructions)
    (hpatch : Emit.patchAll as σ' = .ok () σ'') : σ.Extends σ'' rest exits := by
  obtain ⟨hcode, heq⟩ := Emit.grown_patchAll h.code hlink hpatch
  rw [heq]
  exact ⟨hcode, h.frames, h.slots, h.constants⟩

end Extends

/-! ## Sound states stay sound -/

lemma Sound.hold (h : σ.Sound) (op : Opcode) (hop : op.isForwardJump = true) : (σ.hold op).Sound :=
  ⟨h.linked.reserve hop, h.settled, h.framed⟩

lemma Sound.enter_empty (h : σ.Sound) : (σ.enter {}).Sound :=
  ⟨h.linked, h.placed.enter_empty.settled, h.placed.enter_empty.framed⟩

lemma Sound.openFrame (h : σ.Sound) (name : String) {scope : Scope}
    (hsettled : Scopes.Settled σ.slots.next [scope])
    (hrole : scope.role = some (.function σ.frames.length)) : (σ.openFrame name scope).Sound :=
  ⟨h.linked, hsettled, (placed_openFrame hsettled hrole).framed⟩

end EmitState

end Arbor
