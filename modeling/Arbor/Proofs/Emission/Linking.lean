import Arbor.Proofs.Emission.AppendOnly

/-!
# Emission keeps code linked

Jumps of emitted code lead forward into it or to its end, also where emission has been given up.
Two things are needed for that.  Patching keeps code linked whatever anchor it is given, even one
that went stale with a problem, and the instructions of operators and builtins are no jumps.

* `Emit.KeepsLinked`: a step keeps code linked, however it ends.
* `Emission.keepsLinked_emitStmts` proves it along the text of emission, with the meaning of calls
  left open, and `Emission.keepsLinked_emitCall` closes the recursion.
* `Emission.Visited.sound`: emission with the standard builtins works in sound states only.
-/

namespace Arbor

open Code Step

/-! ## Patching -/

namespace Code

/-- The instruction at the end may be replaced by a jump that waits. -/
lemma Linked.replace_last {is : List Instruction} {last : Instruction}
    (h : Linked (is ++ [last])) {op : Opcode} (hop : op.isForwardJump = true) :
    Linked (is ++ [⟨op, .pending⟩]) where
  target := by
    intro i inst t hi ht
    rcases getElem?_snoc_eq_some_iff.1 hi with hi | ⟨-, rfl⟩
    · simpa using h.target (getElem?_snoc_eq_some_iff.2 (.inl hi)) ht
    · simp at ht
  pending := by
    intro i op' hi
    rcases getElem?_snoc_eq_some_iff.1 hi with hi | ⟨-, heq⟩
    · exact h.pending (getElem?_snoc_eq_some_iff.2 (.inl hi))
    · cases heq
      exact hop

/-- Elision looks at the instruction at the end only to tell whether it has a condition, so that one
may be taken for a reserved jump. -/
lemma Linked.elide {is : List Instruction} (h : Linked is) : Linked (Code.elide is) := by
  obtain rfl | ⟨init, ⟨op, operand⟩, rfl⟩ := is.eq_nil_or_concat'
  · rw [Code.elide]
    exact h
  · by_cases hop : op = .jumpUnless
    · have hlink : Linked (init ++ [⟨.jumpUnless, .pending⟩]) := h.replace_last rfl
      rw [hop, elide_congr _ _ operand .pending]
      exact (clips_elide init _ hlink).linked hlink
    · have hlink : Linked (init ++ [⟨.jump, .pending⟩]) := h.replace_last rfl
      have helide : Code.elide (init ++ [⟨op, operand⟩]) =
          Code.elide (init ++ [⟨.jump, .pending⟩]) := by
        rw [elide_snoc, if_neg hop, elide_snoc, if_neg (by decide : Opcode.jump ≠ .jumpUnless)]
      rw [helide]
      exact (clips_elide init _ hlink).linked hlink

/-- Patching keeps code linked, whether or not the anchor is that of a jump that waits. -/
lemma Linked.of_patch {c c' : Code} {a : Anchor} (h : Linked c.instructions)
    (hpatch : c.patch a = .ok c') : Linked c'.instructions := by
  by_cases hlast : a.index + 1 = c.size
  · rw [patch_eq, if_pos hlast] at hpatch
    cases hpatch
    exact h.elide
  · have hpending : IsPending c.instructions a.index := by
      rw [patch_eq, if_neg hlast] at hpatch
      split at hpatch
      · cases hpatch
      · split at hpatch
        · next op hop => exact ⟨op, hop⟩
        · cases hpatch
    exact (clips_of_patch h hpending hpatch).linked h

end Code

/-! ## Single steps -/

namespace Emit

variable {α β : Type}

/-- However it ends, a step keeps code linked. -/
def KeepsLinked (x : Emit α) : Prop :=
  ∀ σ : EmitState, Linked σ.code.instructions → Leaves x σ fun σ' => Linked σ'.code.instructions

variable {x : Emit α} {f : α → Emit β}

lemma KeepsLinked.bind (hx : KeepsLinked x) (hf : ∀ a, KeepsLinked (f a)) :
    KeepsLinked (x >>= f) :=
  fun σ hσ => (hx σ hσ).bind fun a => hf a

lemma keepsLinked_pure (a : α) : KeepsLinked (pure a) := fun _ hσ => leaves_pure hσ

lemma keepsLinked_throw (p : Problem) : KeepsLinked (throw p : Emit α) :=
  fun _ hσ => leaves_throw hσ

lemma keepsLinked_lift_bind {e : Except Problem α} (hf : ∀ a, e = .ok a → KeepsLinked (f a)) :
    KeepsLinked (liftM e >>= f) :=
  fun σ hσ => ensures_lift_bind (fun _ _ => hσ) fun a ha => hf a ha σ hσ

lemma keepsLinked_lift (e : Except Problem α) : KeepsLinked (liftM e) :=
  fun _ hσ => leaves_lift hσ

lemma keepsLinked_get : KeepsLinked get := fun _ hσ => hσ

/-- A step that leaves the code alone. -/
lemma keepsLinked_modify {g : EmitState → EmitState} (hg : ∀ σ, (g σ).code = σ.code) :
    KeepsLinked (modify g) := by
  intro σ hσ
  change Linked (g σ).code.instructions
  rwa [hg]

lemma keepsLinked_onCode {step : Assemble Unit} (hatomic : Atomic step)
    (hstep : ∀ c c', Linked c.instructions → outcome step c = .ok c' → Linked c'.instructions) :
    KeepsLinked (onCode step) := by
  intro σ hσ
  rw [← bind_pure (onCode step)]
  exact ensures_onCode_bind hatomic (fun _ _ => hσ) fun c hc => leaves_pure (hstep _ c hσ hc)

lemma keepsLinked_push {op : Opcode} (hop : op.isForwardJump = false) (b : UInt8) :
    KeepsLinked (push op b) :=
  fun _ hσ => hσ.push hop b

lemma keepsLinked_reserve {op : Opcode} (hop : op.isForwardJump = true) :
    KeepsLinked (reserve op) :=
  fun _ hσ => hσ.reserve hop

lemma keepsLinked_patch (a : Anchor) : KeepsLinked (patch a) :=
  keepsLinked_onCode (Assemble.atomic_patch a) fun _ _ h hc => h.of_patch hc

lemma keepsLinked_patchAll (as : List Anchor) : KeepsLinked (patchAll as) := by
  induction as with
  | nil => exact keepsLinked_pure ()
  | cons a as ih => exact (keepsLinked_patch a).bind fun _ => ih

lemma keepsLinked_jumpBack (head : LoopHead) : KeepsLinked (onCode (.jumpBack head)) := by
  refine keepsLinked_onCode (Assemble.atomic_jumpBack head) fun c c' h hc => ?_
  obtain ⟨b, rfl, -⟩ := exists_of_jumpBack hc
  exact h.push rfl b

/-! ### Loading of data -/

lemma keepsLinked_pushConstant {op : Opcode} (hop : op.isForwardJump = false) (c : Constant) :
    KeepsLinked (pushConstant op c) :=
  fun _ hσ => ensures_pushConstant (fun _ => hσ.push hop _) fun _ => hσ

lemma keepsLinked_loadNumber (n : Number) : KeepsLinked (loadNumber n) := by
  cases n with
  | int v =>
    rw [loadNumber]
    split
    · exact keepsLinked_push rfl _
    · exact keepsLinked_pushConstant rfl _
  | float x =>
    rw [loadNumber]
    split
    · exact keepsLinked_push rfl _
    · exact keepsLinked_pushConstant rfl _

lemma keepsLinked_loadScalar (d : Datum) : KeepsLinked (loadScalar d) := by
  cases d with
  | none => exact keepsLinked_push rfl _
  | bool b => cases b <;> exact keepsLinked_push rfl _
  | number n => exact keepsLinked_loadNumber n
  | str text => exact keepsLinked_pushConstant rfl _
  | kind name => exact keepsLinked_pushConstant rfl _
  | list items => exact keepsLinked_throw _

lemma keepsLinked_appendAll (ds : List Datum) : KeepsLinked (appendAll ds) := by
  induction ds with
  | nil => exact keepsLinked_pure ()
  | cons d ds ih =>
    exact (keepsLinked_loadScalar d).bind fun _ => (keepsLinked_push rfl _).bind fun _ => ih

lemma keepsLinked_loadDatum (d : Datum) : KeepsLinked (loadDatum d) := by
  have hscalar := keepsLinked_loadScalar d
  cases d with
  | list items => exact (keepsLinked_push rfl _).bind fun _ => keepsLinked_appendAll items
  | _ => exact hscalar

/-! ### Names, slots and frames -/

lemma keepsLinked_lookup (name : Ident) : KeepsLinked (lookup name) :=
  keepsLinked_get.bind fun _ => keepsLinked_lift _

lemma keepsLinked_alloc : KeepsLinked alloc := by
  intro σ hσ
  rw [← bind_pure alloc]
  exact ensures_alloc_bind hσ fun _ _ => leaves_pure hσ

lemma keepsLinked_define (name : Ident) (b : Binding) : KeepsLinked (define name b) :=
  keepsLinked_get.bind fun _ => (keepsLinked_lift _).bind fun _ =>
    keepsLinked_modify fun _ => rfl

lemma keepsLinked_assign (name : Ident) (v : Value) : KeepsLinked (assign name v) := by
  refine keepsLinked_get.bind fun _ => (keepsLinked_lift _).bind fun r => ?_
  exact KeepsLinked.bind (keepsLinked_modify fun _ => rfl) fun _ => keepsLinked_pure r.1

lemma keepsLinked_leave (t : ValueType) : KeepsLinked (leave t) := by
  refine keepsLinked_get.bind fun σ => ?_
  cases Scopes.frame? σ.scopes with
  | none => exact keepsLinked_throw _
  | some id =>
    refine (keepsLinked_reserve rfl).bind fun exit => keepsLinked_get.bind fun σ => ?_
    cases σ.frames[id]? with
    | none => exact keepsLinked_throw _
    | some frame => exact keepsLinked_modify fun _ => rfl

lemma keepsLinked_inChild (hx : KeepsLinked x) (scope : Scope) :
    KeepsLinked (inChild scope x) := by
  intro σ hσ
  rw [← bind_pure (inChild _ _)]
  exact ensures_inChild_bind ((hx (σ.enter scope) hσ).mono fun _ h => h)

lemma keepsLinked_closeFrame (missing : Defect) : KeepsLinked (closeFrame missing) := by
  intro σ hσ
  unfold Leaves Ensures closeFrame
  cases σ.frames.getLast? with
  | none => exact hσ
  | some frame => exact hσ

lemma keepsLinked_inFrame (hx : KeepsLinked x) (name : String) (scope : Scope) :
    KeepsLinked (inFrame name scope x) := by
  intro σ hσ
  have hbody : Leaves x (σ.openFrame name scope) _ := hx _ hσ
  unfold Leaves Ensures at hbody
  unfold Leaves Ensures inFrame
  rw [← EmitState.openFrame]
  -- The frame is closed in both cases.
  cases hrun : x (σ.openFrame name scope) with
  | ok a σ' =>
    rw [hrun] at hbody
    exact (keepsLinked_closeFrame _).bind (fun frame => keepsLinked_pure (a, frame))
      { σ' with scopes := σ.scopes, inlining := σ'.inlining.tail } hbody
  | error p σ' =>
    rw [hrun] at hbody
    exact (keepsLinked_closeFrame _).bind (fun _ => keepsLinked_throw p)
      { σ' with scopes := σ.scopes, inlining := σ'.inlining.tail } hbody

end Emit

/-! ## Expressions -/

namespace Emission

open Emit

variable {job : Job} {entered : List String} {inline : Inliner job entered}

/-- Inlining a body keeps code linked. -/
def Inliner.KeepsLinked (inline : Inliner job entered) : Prop :=
  ∀ g scope, Emit.KeepsLinked (inline g scope)

lemma keepsLinked_accept (load : Bool) (e : Expr) {emit : Emit ValueType}
    (hemit : KeepsLinked emit) : KeepsLinked (accept job entered load e emit) := by
  refine keepsLinked_get.bind fun _ => (keepsLinked_lift _).bind fun r => ?_
  cases r with
  | some d =>
    cases load with
    | true => exact (keepsLinked_loadDatum d).bind fun _ => keepsLinked_pure _
    | false => exact keepsLinked_pure _
  | none => exact hemit.bind fun _ => keepsLinked_pure _

/-- The operator or builtin that is applied to what is on the stack. -/
lemma keepsLinked_apply {o : Overloads} (ho : o.Standard) (types : List ValueType) (span : Span) :
    KeepsLinked (do
      let (type, opcode) ← o.infer types span
      push opcode
      pure type) :=
  keepsLinked_lift_bind fun _ hinfer =>
    (keepsLinked_push (ho.isForwardJump_of_infer hinfer) _).bind fun _ => keepsLinked_pure _

mutual
lemma keepsLinked_emitExpr (hstd : job.builtins = .standard) (hinline : inline.KeepsLinked)
    (e : Expr) : KeepsLinked (emitExpr inline e) := by
  match e with
  | .literal d span =>
    rw [emitExpr]
    exact (keepsLinked_loadDatum d).bind fun _ => keepsLinked_pure _
  | .ref name span =>
    rw [emitExpr]
    refine (keepsLinked_lookup name).bind fun b => ?_
    cases b with
    | stored t slot f => exact (keepsLinked_push rfl _).bind fun _ => keepsLinked_pure _
    | constant d f => exact (keepsLinked_loadDatum d).bind fun _ => keepsLinked_pure _
  | .attr target field span =>
    rw [emitExpr]
    refine (keepsLinked_lookup target).bind fun b => (keepsLinked_lift _).bind fun _ => ?_
    cases b with
    | stored t slot f =>
      exact (keepsLinked_push rfl _).bind fun _ =>
        (keepsLinked_pushConstant rfl _).bind fun _ => keepsLinked_pure _
    | constant d f => exact keepsLinked_throw _
  | .unary op operand span =>
    rw [emitExpr]
    exact (keepsLinked_accept true operand (keepsLinked_emitExpr hstd hinline operand)).bind
      fun _ => keepsLinked_lift_bind fun o ho =>
        keepsLinked_apply (Job.standard_of_operator hstd ho) _ span
  | .binary op left right span =>
    rw [emitExpr]
    exact (keepsLinked_accept true left (keepsLinked_emitExpr hstd hinline left)).bind fun _ =>
      (keepsLinked_accept true right (keepsLinked_emitExpr hstd hinline right)).bind fun _ =>
        keepsLinked_lift_bind fun o ho =>
          keepsLinked_apply (Job.standard_of_operator hstd ho) _ span
  | .call name args site span =>
    rw [emitExpr]
    refine keepsLinked_lift_bind fun callee hcallee => ?_
    cases callee with
    | builtin o =>
      exact (keepsLinked_lift _).bind fun _ =>
        (keepsLinked_emitArgs hstd hinline args).bind fun types =>
          keepsLinked_apply (Job.standard_of_callee hstd hcallee) types site
    | function d mem =>
      exact (keepsLinked_lift _).bind fun _ => (keepsLinked_lift _).bind fun g =>
        keepsLinked_get.bind fun _ =>
          (keepsLinked_emitParams hstd hinline _ d.params args).bind fun scope => hinline g scope
  | .list items span =>
    rw [emitExpr]
    exact (keepsLinked_push rfl _).bind fun _ =>
      (keepsLinked_emitItems hstd hinline items).bind fun _ => keepsLinked_pure _

lemma keepsLinked_emitArgs (hstd : job.builtins = .standard) (hinline : inline.KeepsLinked)
    (es : List Expr) : KeepsLinked (emitArgs inline es) := by
  match es with
  | [] =>
    rw [emitArgs]
    exact keepsLinked_pure _
  | e :: es =>
    rw [emitArgs]
    exact (keepsLinked_accept true e (keepsLinked_emitExpr hstd hinline e)).bind fun _ =>
      (keepsLinked_emitArgs hstd hinline es).bind fun _ => keepsLinked_pure _

lemma keepsLinked_emitItems (hstd : job.builtins = .standard) (hinline : inline.KeepsLinked)
    (es : List Expr) : KeepsLinked (emitItems inline es) := by
  match es with
  | [] =>
    rw [emitItems]
    exact keepsLinked_pure _
  | e :: es =>
    rw [emitItems]
    exact (keepsLinked_accept true e (keepsLinked_emitExpr hstd hinline e)).bind fun _ =>
      (keepsLinked_lift _).bind fun _ => (keepsLinked_push rfl _).bind fun _ =>
        (keepsLinked_emitItems hstd hinline es).bind fun _ => keepsLinked_pure _

lemma keepsLinked_emitParams (hstd : job.builtins = .standard) (hinline : inline.KeepsLinked)
    (scope : Scope) (ps : List Ident) (es : List Expr) :
    KeepsLinked (emitParams inline scope ps es) := by
  match ps, es with
  | [], es =>
    rw [emitParams.eq_def]
    exact keepsLinked_pure _
  | p :: ps, [] =>
    rw [emitParams.eq_def]
    exact keepsLinked_pure _
  | p :: ps, e :: es =>
    rw [emitParams]
    refine (keepsLinked_accept false e (keepsLinked_emitExpr hstd hinline e)).bind fun v => ?_
    cases v with
    | known d =>
      exact (keepsLinked_lift _).bind fun scope' =>
        keepsLinked_emitParams hstd hinline scope' ps es
    | runtime t =>
      exact keepsLinked_alloc.bind fun _ => (keepsLinked_lift _).bind fun scope' =>
        (keepsLinked_push rfl _).bind fun _ => keepsLinked_emitParams hstd hinline scope' ps es
end

lemma keepsLinked_acceptExpr (hstd : job.builtins = .standard) (hinline : inline.KeepsLinked)
    (load : Bool) (e : Expr) : KeepsLinked (acceptExpr inline load e) :=
  keepsLinked_accept load e (keepsLinked_emitExpr hstd hinline e)

/-! ## Statements -/

lemma keepsLinked_emitCond (hstd : job.builtins = .standard) (hinline : inline.KeepsLinked)
    (cond : Expr) : KeepsLinked (emitCond inline cond) :=
  (keepsLinked_acceptExpr hstd hinline true cond).bind fun _ => (keepsLinked_lift _).bind fun _ =>
    keepsLinked_reserve rfl

/-- A definition whose value is stored. -/
lemma keepsLinked_emitStmt_define (hstd : job.builtins = .standard) (hinline : inline.KeepsLinked)
    {q : Qualifier} (hq : q ≠ .const) (name : Ident) (value : Expr) :
    KeepsLinked (emitStmt inline (.define q name value)) := by
  rw [emitStmt]
  · exact (keepsLinked_acceptExpr hstd hinline true value).bind fun _ =>
      keepsLinked_alloc.bind fun _ => (keepsLinked_define _ _).bind fun _ =>
        (keepsLinked_push rfl _).bind fun _ => keepsLinked_pure _
  · exact hq

mutual
lemma keepsLinked_emitStmt (hstd : job.builtins = .standard) (hinline : inline.KeepsLinked)
    (s : Stmt) : KeepsLinked (emitStmt inline s) := by
  match s with
  | .block body =>
    rw [emitStmt]
    exact keepsLinked_inChild (keepsLinked_emitStmts hstd hinline body) _
  | .define .const name value =>
    rw [emitStmt]
    refine (keepsLinked_acceptExpr hstd hinline false value).bind fun v => ?_
    cases v with
    | known d => exact (keepsLinked_define _ _).bind fun _ => keepsLinked_pure _
    | runtime t => exact keepsLinked_throw _
  | .define .var name value => exact keepsLinked_emitStmt_define hstd hinline (by decide) name value
  | .define .final name value =>
    exact keepsLinked_emitStmt_define hstd hinline (by decide) name value
  | .assign name value =>
    rw [emitStmt]
    refine (keepsLinked_acceptExpr hstd hinline true value).bind fun v =>
      (keepsLinked_assign name v).bind fun outcome => ?_
    cases outcome with
    | store slot => exact (keepsLinked_push rfl _).bind fun _ => keepsLinked_pure _
    | widened slot => exact (keepsLinked_push rfl _).bind fun _ => keepsLinked_pure _
    | replaced => exact keepsLinked_throw _
  | .ret none =>
    rw [emitStmt]
    exact (keepsLinked_push rfl _).bind fun _ => (keepsLinked_leave _).bind fun _ =>
      keepsLinked_pure _
  | .ret (some value) =>
    rw [emitStmt]
    exact (keepsLinked_acceptExpr hstd hinline true value).bind fun v =>
      (keepsLinked_leave v.type).bind fun _ => keepsLinked_pure _
  | .ifThen cond yes =>
    rw [emitStmt]
    exact (keepsLinked_emitCond hstd hinline cond).bind fun skip =>
      (keepsLinked_inChild (keepsLinked_emitStmts hstd hinline yes) _).bind fun _ =>
        (keepsLinked_patch skip).bind fun _ => keepsLinked_pure _
  | .ifElse cond yes no =>
    rw [emitStmt]
    exact (keepsLinked_emitCond hstd hinline cond).bind fun skip =>
      (keepsLinked_inChild (keepsLinked_emitStmts hstd hinline yes) _).bind fun _ =>
        (keepsLinked_reserve rfl).bind fun done => (keepsLinked_patch skip).bind fun _ =>
          (keepsLinked_inChild (keepsLinked_emitStmts hstd hinline no) _).bind fun _ =>
            (keepsLinked_patch done).bind fun _ => keepsLinked_pure _
  | .loop name items body =>
    rw [emitStmt]
    refine (keepsLinked_acceptExpr hstd hinline true items).bind fun _ =>
      (keepsLinked_lift _).bind fun _ => keepsLinked_alloc.bind fun _ => ?_
    refine (keepsLinked_push rfl _).bind fun _ => (keepsLinked_push rfl _).bind fun _ =>
      keepsLinked_get.bind fun _ => (keepsLinked_push rfl _).bind fun _ => ?_
    refine (keepsLinked_reserve rfl).bind fun exit => (keepsLinked_push rfl _).bind fun _ => ?_
    refine keepsLinked_alloc.bind fun _ => (keepsLinked_push rfl _).bind fun _ =>
      (keepsLinked_lift _).bind fun scope => ?_
    exact (keepsLinked_inChild (keepsLinked_emitStmts hstd hinline body) scope).bind fun _ =>
      (keepsLinked_jumpBack _).bind fun _ => (keepsLinked_patch exit).bind fun _ =>
        keepsLinked_pure _
  | .fail message span =>
    rw [emitStmt]
    exact (keepsLinked_acceptExpr hstd hinline true message).bind fun _ =>
      (keepsLinked_lift _).bind fun _ => (keepsLinked_push rfl _).bind fun _ => keepsLinked_pure _
  | .expr value =>
    rw [emitStmt]
    refine (keepsLinked_acceptExpr hstd hinline false value).bind fun v => ?_
    cases v with
    | known d => exact keepsLinked_pure _
    | runtime t => exact (keepsLinked_push rfl _).bind fun _ => keepsLinked_pure _

lemma keepsLinked_emitStmts (hstd : job.builtins = .standard) (hinline : inline.KeepsLinked)
    (ss : List Stmt) : KeepsLinked (emitStmts inline ss) := by
  match ss with
  | [] =>
    rw [emitStmts]
    exact keepsLinked_pure _
  | s :: ss =>
    rw [emitStmts]
    exact (keepsLinked_emitStmt hstd hinline s).bind fun _ =>
      (keepsLinked_emitStmts hstd hinline ss).bind fun _ => keepsLinked_pure _
end

/-! ## Calls -/

/-- Inlined bodies, one inside the other, keep code linked. -/
lemma keepsLinked_emitCall (hstd : job.builtins = .standard) (entered : List String) :
    Inliner.KeepsLinked (emitCall job entered) := by
  intro g scope
  have hbody := keepsLinked_emitStmts hstd (keepsLinked_emitCall hstd (g.name :: entered))
    g.definition.body
  rw [emitCall]
  refine (keepsLinked_inFrame hbody g.name scope).bind fun r => ?_
  obtain ⟨returns, frame⟩ := r
  cases returns with
  | true => exact (keepsLinked_patchAll _).bind fun _ => keepsLinked_pure _
  | false =>
    exact (keepsLinked_push rfl _).bind fun _ => (keepsLinked_patchAll _).bind fun _ =>
      keepsLinked_pure _
termination_by Nesting.remaining job.functionNames entered
decreasing_by exact Inlinable.remaining_lt _

/-! ## States -/

variable {σ : EmitState}

lemma Visited.linked (hstd : job.builtins = .standard) (h : Visited job σ) :
    Linked σ.code.instructions := by
  induction h with
  | start constants => exact linked_nil
  | @value σ _ load e ih =>
    exact Leaves.after (x := job.acceptExpr load e)
      ((keepsLinked_acceptExpr hstd (keepsLinked_emitCall hstd σ.inlining) load e σ ih).congr rfl)
  | @stmts σ _ body ih =>
    exact Leaves.after (x := job.emitStmts body)
      ((keepsLinked_emitStmts hstd (keepsLinked_emitCall hstd σ.inlining) body σ ih).congr rfl)
  | list _ ih => exact ih.push rfl _
  | item _ ih => exact ih.push rfl _
  | param _ _ ih => exact ih.push rfl _
  | @body σ _ f args _ _ _ _ h ih =>
    have hparams := (keepsLinked_emitParams hstd (keepsLinked_emitCall hstd σ.inlining) _ f.params
      args σ ih).of_ok h
    exact hparams
  | block _ ih => exact ih
  | branch _ ih => exact ih.reserve rfl
  | @alternative σ _ yes _ _ _ h hskip ih =>
    have hyes := (keepsLinked_emitStmts hstd (keepsLinked_emitCall hstd σ.inlining) yes _
      (ih.reserve rfl)).of_ok h
    exact (hyes.reserve rfl).of_patch hskip
  | loop _ _ _ _ ih =>
    exact ((((((ih.push rfl _).push rfl _).push rfl _).reserve rfl).push rfl _).push rfl _)

/-- Emission with the standard builtins works in sound states only. -/
lemma Visited.sound (hstd : job.builtins = .standard) (h : Visited job σ) : σ.Sound :=
  ⟨h.linked hstd, h.tidy.placed.settled, h.tidy.placed.framed⟩

end Emission

end Arbor
