import Arbor.Proofs.Emission.Known

/-!
# Outcomes of emission

From a sound state, emission succeeds with a derivation or ends in a problem that is to be expected:
a mistake of the program, or a limit of the object format.  All else that could go wrong is ruled
out by what emission knows of its own state, provided that the data it loads are flat
(`Datum.IsFlat`), which they are in programs that write no nested lists.

* `Problem.IsExpected`: faults, and indices and distances that do not fit one byte.
* `Emission.derives_emitExpr`, `Emission.derives_value`: expressions, with calls inlined.
-/

namespace Arbor

open Code Step

/-! ## Expected problems -/

/-- A limit of the object format: something does not fit one byte. -/
def Defect.IsLimit : Defect → Prop
  | .indexTooLarge what index => what = "constant" ∧ 256 ≤ index
  | .jumpTooFar distance => 256 ≤ distance
  | .outOfSlots => True
  | _ => False

/-- A mistake of the program or a limit of the object format. -/
def Problem.IsExpected : Problem → Prop
  | .fault _ _ => True
  | .defect d => d.IsLimit

lemma Problem.IsFault.isExpected {p : Problem} (h : p.IsFault) : p.IsExpected := by
  cases p with
  | fault _ _ => trivial
  | defect _ => exact h.elim

lemma Slots.eq_outOfSlots {s : Slots} {p : Problem} (h : s.fresh = .error p) :
    p = .defect .outOfSlots := by
  unfold fresh at h
  split at h <;> cases h
  rfl

/-! ## Failed emission -/

/-- What is left of a state after a problem.  Under a condition the problem is an expected one. -/
def EmitState.Fails (H : Prop) (σ : EmitState) (p : Problem) (σ' : EmitState) : Prop :=
  σ'.frames.length = σ.frames.length ∧ (H → p.IsExpected)

lemma EmitState.Fails.mono {H H' : Prop} {σ σ₁ σ' : EmitState} {p : Problem}
    (h : EmitState.Fails H σ₁ p σ') (hlen : σ₁.frames.length = σ.frames.length) (hH : H' → H) :
    EmitState.Fails H' σ p σ' :=
  ⟨h.1.trans hlen, fun h' => h.2 (hH h')⟩

lemma EmitState.fails_of_isFault {H : Prop} {σ σ' : EmitState} {p : Problem} (h : p.IsFault)
    (hlen : σ'.frames.length = σ.frames.length) : EmitState.Fails H σ p σ' :=
  ⟨hlen, fun _ => h.isExpected⟩

namespace Emit

variable {α : Type} {σ : EmitState} {Q : α → EmitState → Prop} {E : Problem → EmitState → Prop}

/-! ## Single steps -/

lemma ensures_push_bind {op : Opcode} {b : UInt8} {f : Unit → Emit α}
    (h : Ensures (f ()) (σ.add op b) Q E) : Ensures (push op b >>= f) σ Q E :=
  ensures_bind_of_ok rfl h

lemma ensures_reserve_bind {op : Opcode} {f : Anchor → Emit α}
    (h : Ensures (f ⟨σ.code.size⟩) (σ.hold op) Q E) : Ensures (reserve op >>= f) σ Q E :=
  ensures_bind_of_ok rfl h

lemma ensures_get_bind {f : EmitState → Emit α} (h : Ensures (f σ) σ Q E) :
    Ensures (get >>= f) σ Q E :=
  ensures_bind_of_ok rfl h

lemma ensures_lookup_bind {name : Ident} {f : Binding → Emit α}
    (herr : ∀ p, p.IsFault → E p σ)
    (hok : ∀ b, Scopes.find? σ.scopes name.name = some b → Ensures (f b) σ Q E) :
    Ensures (lookup name >>= f) σ Q E := by
  have hstep : Ensures (liftM (Scopes.lookup σ.scopes name) >>= f) σ Q E :=
    ensures_lift_bind (fun p hp => herr p (Scopes.isFault_of_lookup hp))
      fun b hb => hok b (Scopes.lookup_eq_ok_iff.1 hb)
  exact hstep

lemma alloc_apply (σ : EmitState) :
    alloc σ = match σ.slots.fresh with
      | .ok slot => .ok slot σ.advance
      | .error p => .error p σ := by
  rw [alloc, within, Slots.alloc_apply]
  cases σ.slots.fresh <;> rfl

lemma ensures_alloc_bind {f : UInt8 → Emit α} (herr : E (.defect .outOfSlots) σ)
    (hok : ∀ slot, σ.slots.fresh = .ok slot → Ensures (f slot) σ.advance Q E) :
    Ensures (alloc >>= f) σ Q E := by
  cases hslot : σ.slots.fresh with
  | error p =>
    unfold Ensures
    simp only [bind, EStateM.bind, alloc_apply, hslot]
    rw [Slots.eq_outOfSlots hslot]
    exact herr
  | ok slot => exact ensures_bind_of_ok (by rw [alloc_apply, hslot]) (hok slot hslot)

lemma ensures_define_bind {name : Ident} {b : Binding} {f : Unit → Emit α}
    (herr : ∀ p, p.IsFault → E p σ)
    (hok : ∀ ss, Scopes.define σ.scopes name b = .ok ss →
      Ensures (f ()) { σ with scopes := ss } Q E) :
    Ensures (define name b >>= f) σ Q E := by
  have hstep : (define name b >>= f) σ = ((liftM (Scopes.define σ.scopes name b) >>= fun ss =>
      modify fun σ => { σ with scopes := ss }) >>= f : Emit α) σ := rfl
  unfold Ensures
  rw [hstep]
  cases hss : Scopes.define σ.scopes name b with
  | error p => exact herr p (Scopes.isFault_of_define hss)
  | ok ss => exact hok ss hss

/-- An instruction that refers to a constant.  The constant is interned in any case. -/
lemma ensures_pushConstant {op : Opcode} {c : Constant} {Q : Unit → EmitState → Prop}
    (hok : (σ.constants.intern c).1 < 256 → Q () (σ.addConstant op c))
    (herr : 256 ≤ (σ.constants.intern c).1 →
      E (.defect (.indexTooLarge "constant" (σ.constants.intern c).1))
        { σ with constants := (σ.constants.intern c).2 }) :
    Ensures (pushConstant op c) σ Q E := by
  unfold Ensures
  rw [pushConstant_apply, Code.pushIndex_eq]
  by_cases hlt : (σ.constants.intern c).1 < 256
  · rw [if_pos hlt]
    exact hok hlt
  · rw [if_neg hlt]
    exact herr (Nat.le_of_not_lt hlt)

lemma ensures_pushConstant_fails {op : Opcode} {c : Constant} {Q : Unit → EmitState → Prop}
    {H : Prop} (hok : (σ.constants.intern c).1 < 256 → Q () (σ.addConstant op c)) :
    Ensures (pushConstant op c) σ Q (σ.Fails H) :=
  ensures_pushConstant hok fun hlarge => ⟨rfl, fun _ => ⟨rfl, hlarge⟩⟩

lemma ensures_pushConstant_bind {op : Opcode} {c : Constant} {f : Unit → Emit α} {H : Prop}
    {σ₀ : EmitState} (hlen : σ.frames.length = σ₀.frames.length)
    (hok : (σ.constants.intern c).1 < 256 → Ensures (f ()) (σ.addConstant op c) Q (σ₀.Fails H)) :
    Ensures (pushConstant op c >>= f) σ Q (σ₀.Fails H) := by
  have hpush : Ensures (pushConstant op c) σ
      (fun _ σ' => (σ.constants.intern c).1 < 256 ∧ σ' = σ.addConstant op c) (σ.Fails H) :=
    ensures_pushConstant_fails fun hindex => ⟨hindex, rfl⟩
  refine hpush.bind (fun p σ' hfail => hfail.mono hlen id) ?_
  rintro _ _ ⟨hindex, rfl⟩
  exact hok hindex

/-- A step on the code that does all or nothing. -/
lemma ensures_onCode_bind {step : Assemble Unit} (hatomic : Atomic step) {f : Unit → Emit α}
    (herr : ∀ p, outcome step σ.code = .error p → E p σ)
    (hok : ∀ c, outcome step σ.code = .ok c → Ensures (f ()) { σ with code := c } Q E) :
    Ensures (onCode step >>= f) σ Q E := by
  cases hstep : outcome step σ.code with
  | error p => exact ensures_bind_of_error (by rw [onCode_apply hatomic, hstep]) (herr p hstep)
  | ok c => exact ensures_bind_of_ok (by rw [onCode_apply hatomic, hstep]) (hok c hstep)

end Emit

/-! ## Loading of data -/

/-- From a state, a step emits a piece or ends in a problem, which is an expected one under a
condition. -/
def Emission.Derives {α : Type} (job : Job) (entered : List String) (x : Emit α) (piece : α → Piece)
    (H : Prop) (σ : EmitState) : Prop :=
  Ensures x σ (fun a σ' => Emits job entered (piece a) σ σ') (σ.Fails H)

namespace Emission

open Emit

variable {job : Job} {entered : List String} {σ : EmitState}

lemma derives_loadScalar (d : Datum) :
    Derives job entered (loadScalar d) (fun _ => .scalar d) (d.isList = false) σ := by
  cases d with
  | none => exact .immediate rfl
  | bool b => cases b <;> exact .immediate rfl
  | str text => exact ensures_pushConstant_fails fun hindex => .pooled rfl rfl hindex
  | kind name => exact ensures_pushConstant_fails fun hindex => .pooled rfl rfl hindex
  | list items => exact ⟨rfl, nofun⟩
  | number n =>
    cases n with
    | int v =>
      unfold Derives
      by_cases hsmall : 0 ≤ v.toInt ∧ v.toInt < 256
      · rw [loadScalar, loadNumber, if_pos hsmall]
        exact .immediate (by simp [Datum.immediate?, hsmall])
      · rw [loadScalar, loadNumber, if_neg hsmall]
        exact ensures_pushConstant_fails fun hindex =>
          .pooled (by simp [Datum.immediate?, hsmall]) rfl hindex
    | float x =>
      unfold Derives
      rw [loadScalar, loadNumber]
      cases hx : Eighths.encode x with
      | some b => exact .immediate (by simp [Datum.immediate?, hx])
      | none =>
        refine ensures_pushConstant_fails fun hindex => .pooled ?_ rfl hindex
        simp [Datum.immediate?, hx]

/-- One derivation after another.  The second starts from what the first leaves, in which the frames
are as many as before. -/
lemma Derives.bind {α β : Type} {x : Emit α} {f : α → Emit β} {piece : α → Piece} {H H' : Prop}
    {Q : β → EmitState → Prop} (h : Derives job entered x piece H σ) (hH : H' → H)
    (hf : ∀ a σ₁, Emits job entered (piece a) σ σ₁ → Ensures (f a) σ₁ Q (σ.Fails H')) :
    Ensures (x >>= f) σ Q (σ.Fails H') :=
  Ensures.bind h (fun _ _ hfail => hfail.mono rfl hH) hf

/-- A derivation further on. -/
lemma Derives.later {α : Type} {x : Emit α} {piece : α → Piece} {H H' : Prop} {σ₀ : EmitState}
    {Q : α → EmitState → Prop} (h : Derives job entered x piece H σ)
    (hlen : σ.frames.length = σ₀.frames.length) (hH : H' → H)
    (hQ : ∀ a σ', Emits job entered (piece a) σ σ' → Q a σ') :
    Ensures x σ Q (σ₀.Fails H') :=
  h.mono hQ fun _ _ hfail => hfail.mono hlen hH

lemma derives_appendAll (entered : List String) (hstd : job.builtins = .standard) (hσ : σ.Sound)
    (ds : List Datum) :
    Derives job entered (appendAll ds) (fun _ => .appended ds) (∀ d ∈ ds, d.isList = false) σ := by
  induction ds generalizing σ with
  | nil => exact ensures_pure .appendedNil
  | cons d ds ih =>
    have hscalar : Derives job entered (loadScalar d) (fun _ => .scalar d) _ σ :=
      derives_loadScalar d
    refine hscalar.bind (fun h => h d (List.mem_cons_self ..)) fun _ σ₁ hd => ?_
    have hpush : σ.Pushes (σ₁.add .append) := (hd.effect hstd hσ trivial).add .append rfl 0
    refine ensures_push_bind ((ih (hpush.sound hσ)).later (congrArg _ hpush.frames)
      (fun h x hx => h x (List.mem_cons_of_mem _ hx)) ?_)
    exact fun _ σ' hds => .appendedCons hd hds

lemma derives_loadDatum (entered : List String) (hstd : job.builtins = .standard) (hσ : σ.Sound)
    (d : Datum) :
    Derives job entered (loadDatum d) (fun _ => .datum d) d.IsFlat σ := by
  have hscalar : d.isList = false →
      Derives job entered (loadScalar d) (fun _ => .datum d) d.IsFlat σ := fun h =>
    (derives_loadScalar d).later rfl (fun _ => h) fun _ _ hd => .scalar hd
  cases d with
  | list items =>
    have hpush : σ.Pushes (σ.add .list) := hσ.pushes_refl.add .list rfl 0
    refine ensures_push_bind
      ((derives_appendAll entered hstd (hpush.sound hσ) items).later rfl id ?_)
    exact fun _ σ' hds => .listDatum hds
  | none => exact hscalar rfl
  | bool b => exact hscalar rfl
  | number n => exact hscalar rfl
  | str text => exact hscalar rfl
  | kind name => exact hscalar rfl

/-! ## Expressions -/

/-- The data that functions write, that are known and that are written here are flat. -/
structure Flat (job : Job) (σ : EmitState) (ds : List Datum) : Prop where
  job : job.Preserves Datum.IsFlat
  scopes : σ.scopes.Holds Datum.IsFlat
  data : ∀ d ∈ ds, d.IsFlat

lemma Flat.of_pushes {σ₁ : EmitState} {ds ds' : List Datum} (h : Flat job σ ds)
    (hpush : σ.Pushes σ₁) (hsub : ds' ⊆ ds) : Flat job σ₁ ds' :=
  ⟨h.job, hpush.scopes ▸ h.scopes, fun d hd => h.data d (hsub hd)⟩

lemma Flat.of_subset {ds ds' : List Datum} (h : Flat job σ ds) (hsub : ds' ⊆ ds) :
    Flat job σ ds' :=
  ⟨h.job, h.scopes, fun d hd => h.data d (hsub hd)⟩

/-- Evaluation fails because the program is wrong. -/
lemma isFault_of_evaluate (hstd : job.builtins = .standard) {ss : Scopes} {e : Expr} {p : Problem}
    (h : job.evaluate ss entered e = .error p) : p.IsFault := by
  have hjob : job.Preserves fun _ => True := ⟨hstd, Datum.closed_true, fun _ _ _ _ => trivial⟩
  exact (job.evaluate_ensures hjob (fun _ _ _ _ _ _ => trivial) entered fun _ _ => trivial).2 p h

/-- An expression whose value is pushed. -/
lemma derives_accept (hstd : job.builtins = .standard) (hσ : σ.Sound) {e : Expr}
    {emit : Emit ValueType} (hemit : job.evaluate σ.scopes entered e = .ok none →
      Derives job entered emit (.expr e) (Flat job σ e.literals) σ) :
    Derives job entered (accept job entered true e emit) (.value e) (Flat job σ e.literals) σ := by
  refine ensures_get_bind (ensures_lift_bind (fun p hp => ?_) fun r heval => ?_)
  · exact EmitState.fails_of_isFault (isFault_of_evaluate hstd hp) rfl
  · cases r with
    | some d =>
      have hflat : Flat job σ e.literals → d.IsFlat := fun h =>
        (job.evaluate_ensures h.job h.scopes entered h.data).1 d heval
      refine (derives_loadDatum entered hstd hσ d).bind hflat fun _ σ' hd => ?_
      exact ensures_pure (.folded heval hd)
    | none => exact (hemit heval).bind id fun t σ' he => ensures_pure (.emitted heval he)

/-- An expression whose value is not needed if it is known. -/
lemma ensures_accept_false {α : Type} (hstd : job.builtins = .standard) {e : Expr}
    {emit : Emit ValueType} {f : Value → Emit α} {Q : α → EmitState → Prop} {H : Prop}
    (hemit : job.evaluate σ.scopes entered e = .ok none →
      Derives job entered emit (.expr e) (Flat job σ e.literals) σ)
    (hH : H → Flat job σ e.literals)
    (hknown : ∀ d, job.evaluate σ.scopes entered e = .ok (some d) →
      Ensures (f (.known d)) σ Q (σ.Fails H))
    (hruntime : ∀ t σ₁, job.evaluate σ.scopes entered e = .ok none →
      Emits job entered (.expr e t) σ σ₁ → Ensures (f (.runtime t)) σ₁ Q (σ.Fails H)) :
    Ensures (accept job entered false e emit >>= f) σ Q (σ.Fails H) := by
  unfold accept
  rw [bind_assoc]
  refine ensures_get_bind ?_
  rw [bind_assoc]
  refine ensures_lift_bind (fun p hp => ?_) fun r heval => ?_
  · exact EmitState.fails_of_isFault (isFault_of_evaluate hstd hp) rfl
  · cases r with
    | some d => exact hknown d heval
    | none =>
      dsimp only
      rw [bind_assoc]
      exact (hemit heval).bind hH fun t σ₁ he => hruntime t σ₁ heval he

/-- Inlining a body has a derivation, if the scope of the body is prepared for it. -/
def Inliner.Derives (inline : Inliner job entered) : Prop :=
  ∀ (g : Inlinable job entered) (scope : Scope) (σ : EmitState), σ.Sound →
    Scopes.Settled σ.slots.next [scope] → scope.role = some (.function σ.frames.length) →
    Emission.Derives job entered (inline g scope) (.call g.definition scope)
      (job.Preserves Datum.IsFlat ∧ Scopes.Holds Datum.IsFlat [scope]) σ

variable {inline : Inliner job entered}

/-- The operator of an application, after its operands. -/
lemma ensures_application {e : Expr} {o : Overloads} {es : List Expr} {types : List ValueType}
    {σ₁ : EmitState} {H : Prop} (hstd : job.builtins = .standard) (happ : Applies job e o es)
    (hpush : σ.Pushes σ₁) (hes : Emits job entered (.args es types) σ σ₁) :
    Ensures (do
      let (type, opcode) ← o.infer types e.site
      push opcode
      pure type) σ₁ (fun t σ' => Emits job entered (.expr e t) σ σ') (σ.Fails H) := by
  refine ensures_lift_bind (fun p hp => ?_) fun r hinfer => ?_
  · exact EmitState.fails_of_isFault ((happ.standard hstd).isFault_of_infer hp)
      (congrArg _ hpush.frames)
  · exact ensures_push_bind (ensures_pure (.application happ hes hinfer))

mutual
lemma derives_emitExpr (hstd : job.builtins = .standard) (hinline : inline.Derives) (e : Expr)
    {σ : EmitState} (hσ : σ.Sound) (heval : job.evaluate σ.scopes entered e = .ok none) :
    Derives job entered (emitExpr inline e) (.expr e) (Flat job σ e.literals) σ := by
  match e with
  | .literal d span => cases heval
  | .ref name span =>
    rw [emitExpr]
    refine ensures_lookup_bind (fun p hp => EmitState.fails_of_isFault hp rfl) fun b hb => ?_
    cases b with
    | stored t slot f => exact ensures_push_bind (ensures_pure (.stored hb))
    | constant d f =>
      -- Such a name folds, so it is not emitted.
      have hyields : (Evaluation.foldExpr (Evaluation.foldCall job entered) σ.scopes
          (.ref name span)).Yields d := Evaluation.yields_ref_iff.2 ⟨f, hb⟩
      have hne := hyields.symm.trans heval
      cases hne
  | .attr target field span =>
    rw [emitExpr]
    refine ensures_lookup_bind (fun p hp => EmitState.fails_of_isFault hp rfl) fun b hb => ?_
    refine ensures_lift_bind
      (fun p hp => EmitState.fails_of_isFault (Check.isFault_of_compatible hp) rfl)
      fun _ hnode => ?_
    have hfits := Check.compatible_eq_ok_iff.1 hnode
    cases b with
    | stored t slot f =>
      exact ensures_push_bind (ensures_pushConstant_bind rfl fun hindex =>
        ensures_pure (.attr hb hfits hindex))
    | constant d f =>
      exact absurd hfits (by simp [Binding.type, Binding.value, Datum.not_compatible_node])
  | .unary op operand span =>
    rw [emitExpr]
    refine (derives_value hstd hinline operand hσ).bind id fun a σ₁ ha => ?_
    refine ensures_lift_bind (fun p hp => absurd hp (Job.not_error_of_unary hstd)) fun o ho => ?_
    exact ensures_application hstd (.unary ho) (ha.effect hstd hσ trivial) (.argsCons ha .argsNil)
  | .binary op left right span =>
    rw [emitExpr]
    refine (derives_value hstd hinline left hσ).bind
      (fun h => h.of_subset (List.subset_append_left _ _)) fun a σ₁ ha => ?_
    have hpush : σ.Pushes σ₁ := ha.effect hstd hσ trivial
    refine Ensures.bind (derives_value hstd hinline right (hpush.sound hσ)) (fun p σ' hfail =>
      hfail.mono (congrArg _ hpush.frames) fun h =>
        h.of_pushes hpush (List.subset_append_right _ _))
      fun b σ₂ hb => ?_
    have hpush₂ : σ.Pushes σ₂ := hpush.trans (hb.effect hstd (hpush.sound hσ) trivial)
    refine ensures_lift_bind (fun p hp => absurd hp (Job.not_error_of_binary hstd)) fun o ho => ?_
    exact ensures_application hstd (.binary ho) hpush₂ (.argsCons ha (.argsCons hb .argsNil))
  | .call name args site span =>
    rw [emitExpr]
    refine ensures_lift_bind
      (fun p hp => EmitState.fails_of_isFault (Job.isFault_of_callee hp) rfl)
      fun callee hcallee => ?_
    cases callee with
    | builtin o =>
      refine ensures_lift_bind (fun p hp =>
        EmitState.fails_of_isFault (Overloads.isFault_of_checkArity hp) rfl) fun _ harity => ?_
      refine (derives_emitArgs hstd hinline args hσ).bind id fun types σ₁ htypes => ?_
      exact ensures_application hstd (.call hcallee harity) (htypes.effect hstd hσ trivial) htypes
    | function d mem =>
      refine ensures_lift_bind (fun p hp =>
        EmitState.fails_of_isFault (Check.isFault_of_argumentCount hp) rfl) fun _ hcount => ?_
      refine ensures_lift_bind (fun p hp =>
        EmitState.fails_of_isFault (Job.isFault_of_enterFunction hp) rfl) fun g hg => ?_
      obtain ⟨hnew, rfl⟩ := Job.enterFunction_eq_ok hg
      have hempty : Scopes.Settled σ.slots.next
          [({ role := some (.function σ.frames.length) } : Scope)] :=
        Scopes.Settled.nil.open_empty rfl
      refine ensures_get_bind ((derives_emitParams hstd hinline d.params args hσ hempty).bind
        (fun h => ⟨h, Scopes.Holds.nil.open_empty rfl⟩) fun scope σ₁ hparams => ?_)
      obtain ⟨hpush, hsettled, hrole⟩ := hparams.ready_call hstd hσ
      refine (hinline ⟨d, mem, hnew⟩ scope σ₁ (hpush.sound hσ) hsettled hrole).later
        (congrArg _ hpush.frames) (fun h => ⟨h.job, ?_⟩) fun t σ' hcall => ?_
      · exact hparams.holds h.job hσ hempty h.scopes ⟨h.data, Scopes.Holds.nil.open_empty rfl⟩
      · exact .inlined hcallee (Check.argumentCount_eq_ok_iff.1 hcount) hnew hparams hcall
  | .list items span =>
    rw [emitExpr]
    have hpush : σ.Pushes (σ.add .list) := hσ.pushes_refl.add .list rfl 0
    refine ensures_push_bind (Ensures.bind (derives_emitItems hstd hinline items (hpush.sound hσ))
      (fun p σ' hfail => hfail.mono rfl fun h => h.of_pushes hpush (List.Subset.refl _)) ?_)
    exact fun types σ' htypes => ensures_pure (.list htypes)

lemma derives_value (hstd : job.builtins = .standard) (hinline : inline.Derives) (e : Expr)
    {σ : EmitState} (hσ : σ.Sound) :
    Derives job entered (accept job entered true e (emitExpr inline e)) (.value e)
      (Flat job σ e.literals) σ :=
  derives_accept hstd hσ fun heval => derives_emitExpr hstd hinline e hσ heval

lemma derives_emitArgs (hstd : job.builtins = .standard) (hinline : inline.Derives)
    (es : List Expr) {σ : EmitState} (hσ : σ.Sound) :
    Derives job entered (emitArgs inline es) (.args es) (Flat job σ (Expr.literalsAll es)) σ := by
  match es with
  | [] =>
    rw [emitArgs]
    exact ensures_pure .argsNil
  | e :: es =>
    rw [emitArgs]
    refine (derives_value hstd hinline e hσ).bind
      (fun h => h.of_subset (List.subset_append_left _ _)) fun a σ₁ ha => ?_
    have hpush : σ.Pushes σ₁ := ha.effect hstd hσ trivial
    refine Ensures.bind (derives_emitArgs hstd hinline es (hpush.sound hσ)) (fun p σ' hfail =>
      hfail.mono (congrArg _ hpush.frames) fun h =>
        h.of_pushes hpush (List.subset_append_right _ _))
      fun types σ₂ htypes => ?_
    exact ensures_pure (.argsCons ha htypes)

lemma derives_emitItems (hstd : job.builtins = .standard) (hinline : inline.Derives)
    (es : List Expr) {σ : EmitState} (hσ : σ.Sound) :
    Derives job entered (emitItems inline es) (.items es) (Flat job σ (Expr.literalsAll es)) σ := by
  match es with
  | [] =>
    rw [emitItems]
    exact ensures_pure .itemsNil
  | e :: es =>
    rw [emitItems]
    refine (derives_value hstd hinline e hσ).bind
      (fun h => h.of_subset (List.subset_append_left _ _)) fun a σ₁ ha => ?_
    have hpush : σ.Pushes σ₁ := ha.effect hstd hσ trivial
    refine ensures_lift_bind (fun p hp => EmitState.fails_of_isFault (Check.isFault_of_listItem hp)
      (congrArg _ hpush.frames)) fun _ hitem => ?_
    have hpush' := hpush.add .append rfl 0
    refine ensures_push_bind (Ensures.bind (derives_emitItems hstd hinline es (hpush'.sound hσ))
      (fun p σ' hfail => hfail.mono (congrArg _ hpush.frames) fun h =>
        h.of_pushes hpush' (List.subset_append_right _ _)) fun types σ₂ htypes => ?_)
    exact ensures_pure (.itemsCons ha (Check.listItem_eq_ok_iff.1 hitem) htypes)

lemma derives_emitParams (hstd : job.builtins = .standard) (hinline : inline.Derives)
    (ps : List Ident) (es : List Expr) {scope : Scope} {σ : EmitState} (hσ : σ.Sound)
    (hscope : Scopes.Settled σ.slots.next [scope]) :
    Derives job entered (emitParams inline scope ps es) (.params scope ps es)
      (Flat job σ (Expr.literalsAll es) ∧ Scopes.Holds Datum.IsFlat [scope]) σ := by
  match ps, es with
  | [], es =>
    rw [emitParams.eq_def]
    exact ensures_pure (.paramsNil (.inl rfl))
  | p :: ps, [] =>
    rw [emitParams.eq_def]
    exact ensures_pure (.paramsNil (.inr rfl))
  | p :: ps, e :: es =>
    rw [emitParams]
    refine ensures_accept_false hstd (fun heval => derives_emitExpr hstd hinline e hσ heval)
      (fun h => h.1.of_subset (List.subset_append_left _ _)) (fun d heval => ?_)
      fun t σ₁ heval he => ?_
    · refine ensures_lift_bind
        (fun q hq => EmitState.fails_of_isFault (Scope.isFault_of_define hq) rfl)
        fun scope₁ hdef => ?_
      obtain ⟨-, hnone, rfl⟩ := Scope.define_eq_ok_iff.1 hdef
      refine (derives_emitParams hstd hinline ps es hσ (hscope.bind_constant hnone d)).later rfl
        (fun h => ⟨h.1.of_subset (List.subset_append_right _ _), h.2.bind_constant _ ?_ true⟩)
        fun scope' σ' hrest => .paramsKnown heval hdef hrest
      exact (job.evaluate_ensures h.1.job h.1.scopes entered
        (h.1.of_subset (List.subset_append_left _ _)).data).1 d heval
    · have hpush : σ.Pushes σ₁ := he.effect hstd hσ trivial
      refine ensures_alloc_bind ⟨congrArg _ hpush.frames, fun _ => trivial⟩ fun slot hslot => ?_
      refine ensures_lift_bind (fun q hq => EmitState.fails_of_isFault (Scope.isFault_of_define hq)
        (congrArg _ hpush.frames)) fun scope₁ hdef => ?_
      have hstore := hpush.store_fresh hslot
      obtain ⟨-, hnone, rfl⟩ := Scope.define_eq_ok_iff.1 hdef
      have hsettled := (hscope.mono hpush.extend.slots).bind_stored hnone
        (Slots.toNat_of_fresh hslot) t true
      refine ensures_push_bind ((derives_emitParams hstd hinline ps es (hstore.sound hσ)
        hsettled).later (congrArg _ hstore.frames) (fun h => ⟨?_, h.2.bind_stored _ _ _ _⟩)
        fun scope' σ' hrest => .paramsStored heval he hslot hdef hrest)
      exact h.1.of_pushes hstore (List.subset_append_right _ _)
end

end Emission

end Arbor
