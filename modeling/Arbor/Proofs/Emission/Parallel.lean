import Arbor.Emission.Mapping
import Arbor.Proofs.Code.References
import Arbor.Proofs.Emission.Invariant
import Arbor.Proofs.Evaluation.Renaming

/-!
# Emissions in parallel

Two emissions run in parallel, from states that differ in the local names that are bound and in what
has been written so far.  What they write depends on the state in few ways only, so a relation
between outputs that is kept in these ways (`Concord`) is kept by whole emissions.

* `EmitState.Mirrors K ρ`: two states, the second with its names changed and its output related.
* `Emission.parallel_emitCall`: bodies of functions are inlined alike.
* `Job.Mirrors.parallel_emitMapping`: mappings are emitted alike.
-/

namespace Arbor

open Step

/-- A relation between two outputs, code with constants, that is kept however they are written on.
Builtins may use the opcodes in `plain`.  Where one side runs out of constants and the other does
not, this is a stray problem. -/
structure Concord (K : Code → Pool Constant → Code → Pool Constant → Prop)
    (stray : Problem → Prop) (plain : Opcode → Prop) : Prop where
  size_eq : ∀ {c c' : Code} {p p' : Pool Constant}, K c p c' p' → c'.size = c.size
  plain_of_readsConstant : ∀ {op : Opcode}, op.readsConstant = false → plain op
  push : ∀ {c c' : Code} {p p' : Pool Constant} {op : Opcode} (b : UInt8), plain op →
    K c p c' p' → K (c.push op b) p (c'.push op b) p'
  reserve : ∀ {c c' : Code} {p p' : Pool Constant} {op : Opcode}, op.isForwardJump = true →
    K c p c' p' → K (c.reserve op).2 p (c'.reserve op).2 p'
  patch : ∀ {c c' : Code} {p p' : Pool Constant} (a : Anchor), K c p c' p' →
    Alike (fun d d' => K d p d' p') (c.patch a) (c'.patch a)
  build : ∀ {c c' : Code} {p p' : Pool Constant}, K c p c' p' →
    Alike (fun _ _ => True) c.build c'.build
  /-- Both sides refer to a constant. -/
  refer : ∀ {c c' : Code} {p p' : Pool Constant} {op : Opcode} {k : Constant},
    op.readsConstant = true → K c p c' p' → (p.intern k).1 < 256 → (p'.intern k).1 < 256 →
    K (c.push op (UInt8.ofNat (p.intern k).1)) (p.intern k).2
      (c'.push op (UInt8.ofNat (p'.intern k).1)) (p'.intern k).2
  /-- One of the sides has no index left for a constant. -/
  exceed : ∀ {c c' : Code} {p p' : Pool Constant} {k : Constant}, K c p c' p' →
    ¬ (p.intern k).1 < 256 ∨ ¬ (p'.intern k).1 < 256 →
    ((p'.intern k).1 = (p.intern k).1 ∧ K c (p.intern k).2 c' (p'.intern k).2) ∨
      ∀ n, stray (.defect (.indexTooLarge "constant" n))

/-- Two states of emission, the second with other names and a related output. -/
structure EmitState.Mirrors (K : Code → Pool Constant → Code → Pool Constant → Prop)
    (ρ : String → String) (σ σ' : EmitState) : Prop where
  scopes : σ'.scopes = σ.scopes.rename ρ
  slots : σ'.slots = σ.slots
  frames : σ'.frames = σ.frames
  inlining : σ'.inlining = σ.inlining
  output : K σ.code σ.constants σ'.code σ'.constants

variable {K : Code → Pool Constant → Code → Pool Constant → Prop} {stray : Problem → Prop}
  {plain : Opcode → Prop} {ρ : String → String}

namespace Emit

/-- Two steps of emission in parallel.  They open as many frames as they close. -/
abbrev Parallel {α β : Type} (K : Code → Pool Constant → Code → Pool Constant → Prop)
    (stray : Problem → Prop) (ρ : String → String) (V : α → β → Prop) (x : Emit α) (y : Emit β) :
    Prop :=
  Step.Parallel (fun σ => σ.frames.length) (EmitState.Mirrors K ρ) stray V x y

/-! ## Code and constants -/

lemma parallel_push (hK : Concord K stray plain) {op : Opcode} (hop : plain op) (b : UInt8) :
    Parallel K stray ρ Eq (push op b) (push op b) :=
  fun _ _ h => .ok rfl { h with output := hK.push b hop h.output } rfl rfl

/-- An instruction of the compiler itself that refers to no constant. -/
lemma parallel_push_plain (hK : Concord K stray plain) {op : Opcode} (b : UInt8)
    (hop : op.readsConstant = false) :
    Parallel K stray ρ Eq (push op b) (push op b) :=
  parallel_push hK (hK.plain_of_readsConstant hop) b

lemma parallel_reserve (hK : Concord K stray plain) {op : Opcode} (hop : op.isForwardJump = true) :
    Parallel K stray ρ Eq (reserve op) (reserve op) := by
  intro σ σ' h
  have hanchor : (⟨σ'.code.size⟩ : Anchor) = ⟨σ.code.size⟩ := congrArg _ (hK.size_eq h.output)
  exact .ok hanchor.symm { h with output := hK.reserve hop h.output } rfl rfl

lemma parallel_onCode {step : Assemble Unit} (hatomic : Step.Atomic step)
    (hstep : ∀ {c c' p p'}, K c p c' p' →
      Alike (fun d d' => K d p d' p') (Step.outcome step c) (Step.outcome step c')) :
    Parallel K stray ρ Eq (onCode step) (onCode step) := by
  intro σ σ' h
  have halike := hstep h.output
  rw [onCode_apply hatomic, onCode_apply hatomic]
  generalize Step.outcome step σ.code = r at halike ⊢
  generalize Step.outcome step σ'.code = r' at halike ⊢
  cases halike with
  | ok hcode => exact .ok rfl { h with output := hcode } rfl rfl
  | error p => exact .error p h rfl rfl

lemma parallel_patch (hK : Concord K stray plain) (a : Anchor) :
    Parallel K stray ρ Eq (patch a) (patch a) :=
  parallel_onCode (Assemble.atomic_patch a) fun h => hK.patch a h

lemma parallel_patchAll (hK : Concord K stray plain) (as : List Anchor) :
    Parallel K stray ρ Eq (patchAll as) (patchAll as) := by
  induction as with
  | nil => exact parallel_pure rfl
  | cons a as ih => exact (parallel_patch hK a).bind fun _ _ _ => ih

/-- A jump back is as long on both sides. -/
lemma parallel_jumpBack (hK : Concord K stray plain) (head : LoopHead) :
    Parallel K stray ρ Eq (onCode (.jumpBack head)) (onCode (.jumpBack head)) := by
  refine parallel_onCode (Assemble.atomic_jumpBack head) fun {c c' p p'} h => ?_
  rw [← Code.jumpBack, ← Code.jumpBack, Code.jumpBack_eq, Code.jumpBack_eq, hK.size_eq h]
  split
  · exact .error _
  · exact .ok (hK.push _ (hK.plain_of_readsConstant rfl) h)

lemma parallel_pushConstant (hK : Concord K stray plain) {op : Opcode}
    (hop : op.readsConstant = true) (k : Constant) :
    Parallel K stray ρ Eq (pushConstant op k) (pushConstant op k) := by
  intro σ σ' h
  rw [pushConstant_apply, pushConstant_apply, Code.pushIndex_eq, Code.pushIndex_eq]
  by_cases hi : (σ.constants.intern k).1 < 256
  · by_cases hi' : (σ'.constants.intern k).1 < 256
    · rw [if_pos hi, if_pos hi']
      exact .ok rfl { h with output := hK.refer hop h.output hi hi' } rfl rfl
    · rw [if_pos hi, if_neg hi']
      rcases hK.exceed h.output (.inr hi') with ⟨heq, -⟩ | hstray
      · exact absurd (heq ▸ hi) hi'
      · exact .strayRight (hstray _) rfl
  · rw [if_neg hi]
    rcases hK.exceed h.output (.inl hi) with ⟨heq, houtput⟩ | hstray
    · rw [if_neg (heq ▸ hi), heq]
      exact .error _ { h with output := houtput } rfl rfl
    · exact .strayLeft (hstray _) rfl

/-! ## Loading of data -/

lemma parallel_loadScalar (hK : Concord K stray plain) (d : Datum) :
    Parallel K stray ρ Eq (loadScalar d) (loadScalar d) := by
  cases d with
  | none => exact parallel_push_plain hK 0 rfl
  | bool b => cases b <;> exact parallel_push_plain hK 0 rfl
  | str text => exact parallel_pushConstant hK rfl _
  | kind name => exact parallel_pushConstant hK rfl _
  | list items => exact parallel_throw _
  | number n =>
    cases n with
    | int v =>
      rw [loadScalar, loadNumber]
      split
      · exact parallel_push_plain hK _ rfl
      · exact parallel_pushConstant hK rfl _
    | float x =>
      rw [loadScalar, loadNumber]
      split
      · exact parallel_push_plain hK _ rfl
      · exact parallel_pushConstant hK rfl _

lemma parallel_appendAll (hK : Concord K stray plain) (ds : List Datum) :
    Parallel K stray ρ Eq (appendAll ds) (appendAll ds) := by
  induction ds with
  | nil => exact parallel_pure rfl
  | cons d ds ih =>
    refine (parallel_loadScalar hK d).bind fun _ _ _ => ?_
    exact (parallel_push_plain hK 0 rfl).bind fun _ _ _ => ih

lemma parallel_loadDatum (hK : Concord K stray plain) (d : Datum) :
    Parallel K stray ρ Eq (loadDatum d) (loadDatum d) := by
  cases d with
  | list items =>
    exact (parallel_push_plain hK 0 rfl).bind fun _ _ _ => parallel_appendAll hK items
  | none => exact parallel_loadScalar hK .none
  | bool b => exact parallel_loadScalar hK (.bool b)
  | number n => exact parallel_loadScalar hK (.number n)
  | str text => exact parallel_loadScalar hK (.str text)
  | kind name => exact parallel_loadScalar hK (.kind name)

/-! ## Slots and scopes -/

lemma parallel_alloc : Parallel K stray ρ Eq alloc alloc := by
  intro σ σ' h
  rw [alloc, Step.within, Step.within, Slots.alloc_apply, Slots.alloc_apply, h.slots]
  cases σ.slots.fresh with
  | ok slot => exact .ok rfl { h with slots := rfl } rfl rfl
  | error p => exact .error p { h with slots := rfl } rfl rfl

lemma parallel_lookup (hρ : Function.Injective ρ) (name : Ident) :
    Parallel K stray ρ Eq (lookup name) (lookup (name.rename ρ)) := by
  refine parallel_get_bind fun σ σ' h => ?_
  rw [h.scopes, Scopes.lookup_rename hρ]
  exact parallel_lift (Alike.refl _)

lemma parallel_define (hρ : Function.Injective ρ) (name : Ident) (b : Binding) :
    Parallel K stray ρ Eq (define name b) (define (name.rename ρ) b) := by
  refine parallel_get_bind fun σ σ' h => ?_
  rw [h.scopes, Scopes.define_rename hρ]
  refine parallel_lift_bind (Alike.map _ _) fun ss ss' hss => ?_
  refine parallel_modify (fun τ τ' hτ => ?_) (fun _ => rfl) fun _ => rfl
  exact { hτ with scopes := hss }

lemma parallel_assign (hρ : Function.Injective ρ) (name : Ident) (v : Value) :
    Parallel K stray ρ Eq (assign name v) (assign (name.rename ρ) v) := by
  refine parallel_get_bind fun σ σ' h => ?_
  rw [h.scopes, h.slots, Scopes.assign_rename hρ]
  refine parallel_lift_bind (Alike.map _ _) fun r r' hr => ?_
  subst hr
  refine Parallel.bind (parallel_modify (fun τ τ' hτ => ?_) (fun _ => rfl) fun _ => rfl)
    fun _ _ _ => parallel_pure rfl
  exact { hτ with scopes := rfl, slots := rfl }

lemma parallel_leave (hK : Concord K stray plain) (t : ValueType) :
    Parallel K stray ρ Eq (leave t) (leave t) := by
  refine parallel_get_bind fun σ σ' h => ?_
  rw [h.scopes, Scopes.frame?_rename]
  cases Scopes.frame? σ.scopes with
  | none => exact parallel_throw _
  | some id =>
    refine (parallel_reserve hK rfl).bind fun exit exit' hexit => ?_
    subst hexit
    refine parallel_get_bind fun τ τ' hτ => ?_
    rw [hτ.frames]
    cases τ.frames[id]? with
    | none => exact parallel_throw _
    | some frame =>
      refine parallel_modify (fun υ υ' hυ => ?_) (fun _ => List.length_set) fun _ =>
        List.length_set
      exact { hυ with frames := by rw [hυ.frames] }

/-! ## Nesting -/

variable {α β : Type} {V : α → β → Prop}

lemma parallel_inChild {x : Emit α} {y : Emit β}
    (hx : Parallel K stray ρ V x y) (scope : Scope) :
    Parallel K stray ρ V (inChild scope x) (inChild (scope.rename ρ) y) := by
  intro σ σ' h
  have hends := hx { σ with scopes := scope :: σ.scopes }
    { σ' with scopes := scope.rename ρ :: σ'.scopes }
    { h with scopes := by rw [h.scopes, Scopes.rename_cons] }
  have hexit : ∀ {τ τ' : EmitState}, EmitState.Mirrors K ρ τ τ' →
      EmitState.Mirrors K ρ { τ with scopes := τ.scopes.tail }
        { τ' with scopes := τ'.scopes.tail } :=
    fun hτ => { hτ with scopes := by rw [hτ.scopes, Scopes.tail_rename] }
  unfold inChild
  generalize x { σ with scopes := scope :: σ.scopes } = r at hends ⊢
  generalize y { σ' with scopes := scope.rename ρ :: σ'.scopes } = r' at hends ⊢
  cases hends with
  | ok hV hR hs ht => exact .ok hV (hexit hR) hs ht
  | error p hR hs ht => exact .error p (hexit hR) hs ht
  | strayLeft hstray hs => exact .strayLeft hstray hs
  | strayRight hstray ht => exact .strayRight hstray ht

/-- With a frame more than before, there is one to close. -/
lemma closeFrame_eq_ok {n : Nat} {σ : EmitState} (h : σ.frames.length = n + 1) (missing : Defect) :
    ∃ frame, σ.frames.getLast? = some frame ∧
      closeFrame missing σ = .ok frame { σ with frames := σ.frames.dropLast } := by
  have hne : σ.frames ≠ [] := by
    intro hnil
    simp [hnil] at h
  refine ⟨σ.frames.getLast hne, List.getLast?_eq_some_getLast hne, ?_⟩
  simp [closeFrame, List.getLast?_eq_some_getLast hne]

/-- A body that has been run, and its frame closed. -/
lemma inFrame_eq_ok {x : Emit α} {name : String} {scope : Scope} {a : α} {σ υ : EmitState}
    (hx : x (σ.openFrame name scope) = .ok a υ) (hlen : υ.frames.length = σ.frames.length + 1) :
    ∃ frame, υ.frames.getLast? = some frame ∧ inFrame name scope x σ
      = .ok (a, frame) (υ.leaveFrame σ.scopes υ.frames.dropLast) := by
  obtain ⟨frame, hlast, hclose⟩ :=
    closeFrame_eq_ok (σ := { υ with scopes := σ.scopes, inlining := υ.inlining.tail }) hlen
      .callFrameMissing
  refine ⟨frame, hlast, ?_⟩
  unfold inFrame
  rw [← EmitState.openFrame, hx]
  exact bind_of_ok hclose

/-- A body that ends in a problem, and its frame closed. -/
lemma inFrame_eq_error {x : Emit α} {name : String} {scope : Scope} {p : Problem} {σ υ : EmitState}
    (hx : x (σ.openFrame name scope) = .error p υ) (hlen : υ.frames.length = σ.frames.length + 1) :
    inFrame name scope x σ = .error p (υ.leaveFrame σ.scopes υ.frames.dropLast) := by
  obtain ⟨frame, -, hclose⟩ :=
    closeFrame_eq_ok (σ := { υ with scopes := σ.scopes, inlining := υ.inlining.tail }) hlen
      .callFrameMissing
  unfold inFrame
  rw [← EmitState.openFrame, hx]
  exact bind_of_ok hclose

/-- Inside a frame of their own, both sides may use names of their own. -/
lemma parallel_inFrame {τ : String → String} {x : Emit α} {y : Emit β}
    (hx : Parallel K stray τ V x y) (name : String) (scope : Scope) :
    Parallel K stray ρ (fun a b => V a.1 b.1 ∧ a.2 = b.2) (inFrame name scope x)
      (inFrame name (scope.rename τ) y) := by
  intro σ σ' h
  have hends := hx (σ.openFrame name scope) (σ'.openFrame name (scope.rename τ))
    { h with
      scopes := rfl
      frames := congrArg (· ++ _) h.frames
      inlining := congrArg (name :: ·) h.inlining }
  have hopen : ∀ (υ : EmitState) (s : Scope),
      (υ.openFrame name s).frames.length = υ.frames.length + 1 :=
    fun υ s => List.length_append
  have hclosed : ∀ {υ : EmitState} {n : Nat}, υ.frames.length = n + 1 →
      υ.frames.dropLast.length = n := fun hυ => by simp [hυ]
  have hback : ∀ {υ υ' : EmitState}, EmitState.Mirrors K τ υ υ' → EmitState.Mirrors K ρ
      (υ.leaveFrame σ.scopes υ.frames.dropLast)
      (υ'.leaveFrame σ'.scopes υ'.frames.dropLast) :=
    fun hυ => { hυ with
      scopes := h.scopes
      frames := congrArg List.dropLast hυ.frames
      inlining := congrArg List.tail hυ.inlining }
  generalize hleft : x (σ.openFrame name scope) = r at hends
  generalize hright : y (σ'.openFrame name (scope.rename τ)) = r' at hends
  cases hends with
  | ok hV hR hs ht =>
    have hlen := hs.trans (hopen σ scope)
    have hlen' := ht.trans (hopen σ' (scope.rename τ))
    obtain ⟨frame, hlast, hrun⟩ := inFrame_eq_ok hleft hlen
    obtain ⟨frame', hlast', hrun'⟩ := inFrame_eq_ok hright hlen'
    rw [hR.frames, hlast] at hlast'
    rw [hrun, hrun']
    exact .ok ⟨hV, Option.some_inj.1 hlast'⟩ (hback hR) (hclosed hlen) (hclosed hlen')
  | error p hR hs ht =>
    have hlen := hs.trans (hopen σ scope)
    have hlen' := ht.trans (hopen σ' (scope.rename τ))
    rw [inFrame_eq_error hleft hlen, inFrame_eq_error hright hlen']
    exact .error p (hback hR) (hclosed hlen) (hclosed hlen')
  | strayLeft hstray hs =>
    have hlen := hs.trans (hopen σ scope)
    rw [inFrame_eq_error hleft hlen]
    exact .strayLeft hstray (hclosed hlen)
  | strayRight hstray ht =>
    have hlen' := ht.trans (hopen σ' (scope.rename τ))
    rw [inFrame_eq_error hright hlen']
    exact .strayRight hstray (hclosed hlen')

end Emit

end Arbor
