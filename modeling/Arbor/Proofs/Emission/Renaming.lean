import Arbor.Proofs.Emission.Parallel

/-!
# Emission and local names

Two jobs that mirror each other emit alike: expressions, statements and calls, from states that
mirror each other.  Each function may have names of its own, so the renaming changes where a body is
inlined and is the old one again after it.

* `Emission.parallel_emitStmts`: statements.
* `Emission.parallel_emitCall`: inlined bodies.
* `Job.EmitsAlike.parallel_emitMapping`: mappings.
-/

namespace Arbor

open Step Emit

variable {K : Code → Pool Constant → Code → Pool Constant → Prop} {stray : Problem → Prop}
  {plain : Opcode → Prop} {ρ : String → String}

/-- Two jobs that mirror each other, and a relation between outputs that all they write keeps. -/
structure Job.EmitsAlike (K : Code → Pool Constant → Code → Pool Constant → Prop)
    (stray : Problem → Prop) (plain : Opcode → Prop) (job job' : Job) : Prop where
  concord : Concord K stray plain
  mirrors : job.Mirrors job'
  builtins : ∀ b ∈ job.builtins.entries, plain b.opcode

namespace Emission

variable {job job' : Job} {entered : List String} {inline : Inliner job entered}
  {inline' : Inliner job' entered}

/-- Functions that mirror each other are inlined alike, whatever the names around them. -/
def Inliner.Parallel (K : Code → Pool Constant → Code → Pool Constant → Prop)
    (stray : Problem → Prop) (inline : Inliner job entered) (inline' : Inliner job' entered) :
    Prop :=
  ∀ (ρ : String → String) {τ : String → String} (g : Inlinable job entered)
    (g' : Inlinable job' entered) (scope : Scope), Function.Injective τ →
    g'.definition = g.definition.rename τ →
    Emit.Parallel K stray ρ Eq (inline g scope) (inline' g' (scope.rename τ))

lemma parallel_accept (hjob : job.EmitsAlike K stray plain job') (hρ : Function.Injective ρ)
    (load : Bool) (e : Expr) {emit emit' : Emit ValueType}
    (hemit : Emit.Parallel K stray ρ Eq emit emit') :
    Emit.Parallel K stray ρ Eq (accept job entered load e emit)
      (accept job' entered load (e.rename ρ) emit') := by
  refine parallel_get_bind fun σ σ' h => ?_
  rw [h.scopes, hjob.mirrors.evaluate_rename hρ]
  refine parallel_check_bind fun r _ => ?_
  cases r with
  | some d =>
    cases load with
    | true =>
      exact (parallel_loadDatum hjob.concord d).bind fun _ _ _ => parallel_pure rfl
    | false => exact parallel_pure rfl
  | none =>
    refine hemit.bind fun t t' ht => ?_
    exact parallel_pure (congrArg Value.runtime ht)

/-- The builtin that fits the types of its arguments is applied. -/
lemma parallel_apply (hjob : job.EmitsAlike K stray plain job') {o : Overloads}
    (ho : o.candidates ⊆ job.builtins.entries) (types : List ValueType) (span : Span) :
    Emit.Parallel K stray ρ Eq
      (do
        let (type, opcode) ← o.infer types span
        push opcode
        pure type)
      (do
        let (type, opcode) ← o.infer types span
        push opcode
        pure type) := by
  refine parallel_check_bind fun r hr => ?_
  obtain ⟨b, hb, -, hop⟩ := Overloads.infer_eq_ok hr
  have hplain : plain r.2 := hop ▸ hjob.builtins b (ho hb)
  exact (parallel_push hjob.concord hplain 0).bind fun _ _ _ => parallel_pure rfl

/-! ## Expressions -/

mutual
lemma parallel_emitExpr (hjob : job.EmitsAlike K stray plain job')
    (hinline : inline.Parallel K stray inline') (hρ : Function.Injective ρ) (e : Expr) :
    Emit.Parallel K stray ρ Eq (emitExpr inline e) (emitExpr inline' (e.rename ρ)) := by
  match e with
  | .literal d span =>
    rw [Expr.rename, emitExpr, emitExpr]
    exact (parallel_loadDatum hjob.concord d).bind fun _ _ _ => parallel_pure rfl
  | .ref name span =>
    rw [Expr.rename, emitExpr, emitExpr]
    refine (parallel_lookup hρ name).bind fun b b' hb => ?_
    subst hb
    cases b with
    | stored t slot final =>
      exact (parallel_push_plain hjob.concord slot rfl).bind fun _ _ _ => parallel_pure rfl
    | constant d final =>
      exact (parallel_loadDatum hjob.concord d).bind fun _ _ _ => parallel_pure rfl
  | .attr target field span =>
    rw [Expr.rename, emitExpr, emitExpr]
    refine (parallel_lookup hρ target).bind fun b b' hb => ?_
    subst hb
    refine parallel_check_bind fun _ _ => ?_
    cases b.slot? with
    | none => exact parallel_throw _
    | some slot =>
      refine (parallel_push_plain hjob.concord slot rfl).bind fun _ _ _ => ?_
      exact (parallel_pushConstant hjob.concord rfl _).bind fun _ _ _ => parallel_pure rfl
  | .unary op operand span =>
    rw [Expr.rename, emitExpr, emitExpr, hjob.mirrors.operator]
    have hoperand := parallel_emitExpr hjob hinline hρ operand
    refine (parallel_accept hjob hρ true operand hoperand).bind fun a a' ha => ?_
    subst ha
    refine parallel_check_bind fun o ho => ?_
    exact parallel_apply hjob (Job.subset_of_operator ho) _ span
  | .binary op left right span =>
    rw [Expr.rename, emitExpr, emitExpr, hjob.mirrors.operator]
    have hleft := parallel_emitExpr hjob hinline hρ left
    have hright := parallel_emitExpr hjob hinline hρ right
    refine (parallel_accept hjob hρ true left hleft).bind fun a a' ha => ?_
    subst ha
    refine (parallel_accept hjob hρ true right hright).bind fun b b' hb => ?_
    subst hb
    refine parallel_check_bind fun o ho => ?_
    exact parallel_apply hjob (Job.subset_of_operator ho) _ span
  | .call name args site span =>
    rw [Expr.rename, emitExpr, emitExpr]
    refine parallel_lift_bind (hjob.mirrors.callee name) fun callee callee' hcallee => ?_
    cases hcallee with
    | builtin ho =>
      dsimp only
      rw [Expr.length_renameAll]
      refine parallel_check_bind fun _ _ => ?_
      refine (parallel_emitArgs hjob hinline hρ args).bind fun types types' htypes => ?_
      subst htypes
      exact parallel_apply hjob ho types site
    | @function d d' mem mem' hmirror =>
      dsimp only
      rw [Expr.length_renameAll, hmirror.length_params]
      refine parallel_check_bind fun _ _ => ?_
      refine parallel_lift_bind (Job.alike_enterFunction hmirror mem mem' name.span) ?_
      rintro g g' ⟨rfl, rfl⟩
      refine parallel_get_bind fun σ σ' h => ?_
      rw [h.frames]
      obtain ⟨τ, hτ, hdef⟩ := hmirror
      rw [hdef]
      refine (parallel_emitParams hjob hinline hρ hτ _ g.definition.params args).bind ?_
      rintro scope _ rfl
      exact hinline ρ g g' scope hτ hdef
  | .list items span =>
    rw [Expr.rename, emitExpr, emitExpr]
    refine (parallel_push_plain hjob.concord 0 rfl).bind fun _ _ _ => ?_
    refine (parallel_emitItems hjob hinline hρ items).bind fun types types' htypes => ?_
    subst htypes
    exact parallel_pure rfl

lemma parallel_emitArgs (hjob : job.EmitsAlike K stray plain job')
    (hinline : inline.Parallel K stray inline') (hρ : Function.Injective ρ) (es : List Expr) :
    Emit.Parallel K stray ρ Eq (emitArgs inline es) (emitArgs inline' (Expr.renameAll ρ es)) := by
  match es with
  | [] =>
    rw [Expr.renameAll, emitArgs, emitArgs]
    exact parallel_pure rfl
  | e :: es =>
    rw [Expr.renameAll, emitArgs, emitArgs]
    have he := parallel_emitExpr hjob hinline hρ e
    refine (parallel_accept hjob hρ true e he).bind fun a a' ha => ?_
    refine (parallel_emitArgs hjob hinline hρ es).bind fun types types' htypes => ?_
    subst ha htypes
    exact parallel_pure rfl

lemma parallel_emitItems (hjob : job.EmitsAlike K stray plain job')
    (hinline : inline.Parallel K stray inline') (hρ : Function.Injective ρ) (es : List Expr) :
    Emit.Parallel K stray ρ Eq (emitItems inline es) (emitItems inline' (Expr.renameAll ρ es)) := by
  match es with
  | [] =>
    rw [Expr.renameAll, emitItems, emitItems]
    exact parallel_pure rfl
  | e :: es =>
    rw [Expr.renameAll, emitItems, emitItems, Expr.span_rename]
    have he := parallel_emitExpr hjob hinline hρ e
    refine (parallel_accept hjob hρ true e he).bind fun a a' ha => ?_
    subst ha
    refine parallel_check_bind fun _ _ => ?_
    refine (parallel_push_plain hjob.concord 0 rfl).bind fun _ _ _ => ?_
    refine (parallel_emitItems hjob hinline hρ es).bind fun types types' htypes => ?_
    subst htypes
    exact parallel_pure rfl

lemma parallel_emitParams {τ : String → String} (hjob : job.EmitsAlike K stray plain job')
    (hinline : inline.Parallel K stray inline') (hρ : Function.Injective ρ)
    (hτ : Function.Injective τ) (scope : Scope) (ps : List Ident) (es : List Expr) :
    Emit.Parallel K stray ρ (fun s s' => s' = s.rename τ) (emitParams inline scope ps es)
      (emitParams inline' (scope.rename τ) (ps.map (Ident.rename τ)) (Expr.renameAll ρ es)) := by
  match ps, es with
  | [], es =>
    rw [List.map_nil, emitParams, emitParams]
    · exact parallel_pure rfl
    all_goals simp
  | p :: ps, [] =>
    rw [Expr.renameAll, emitParams, emitParams]
    · exact parallel_pure rfl
    all_goals simp
  | p :: ps, e :: es =>
    rw [List.map_cons, Expr.renameAll, emitParams, emitParams]
    have he := parallel_emitExpr hjob hinline hρ e
    refine (parallel_accept hjob hρ false e he).bind fun a a' ha => ?_
    subst ha
    cases a with
    | known d =>
      dsimp only
      rw [Scope.define_rename hτ]
      refine parallel_lift_bind (Alike.map _ _) ?_
      rintro s _ rfl
      exact parallel_emitParams hjob hinline hρ hτ s ps es
    | runtime t =>
      refine parallel_alloc.bind fun slot slot' hslot => ?_
      subst hslot
      rw [Scope.define_rename hτ]
      refine parallel_lift_bind (Alike.map _ _) ?_
      rintro s _ rfl
      refine (parallel_push_plain hjob.concord slot rfl).bind fun _ _ _ => ?_
      exact parallel_emitParams hjob hinline hρ hτ s ps es
end

/-! ## Statements -/

lemma parallel_acceptExpr (hjob : job.EmitsAlike K stray plain job')
    (hinline : inline.Parallel K stray inline') (hρ : Function.Injective ρ) (load : Bool)
    (e : Expr) :
    Emit.Parallel K stray ρ Eq (acceptExpr inline load e) (acceptExpr inline' load (e.rename ρ)) :=
  parallel_accept hjob hρ load e (parallel_emitExpr hjob hinline hρ e)

lemma parallel_emitCond (hjob : job.EmitsAlike K stray plain job')
    (hinline : inline.Parallel K stray inline') (hρ : Function.Injective ρ) (cond : Expr) :
    Emit.Parallel K stray ρ Eq (emitCond inline cond) (emitCond inline' (cond.rename ρ)) := by
  rw [emitCond, emitCond, Expr.span_rename]
  refine (parallel_acceptExpr hjob hinline hρ true cond).bind fun a a' ha => ?_
  subst ha
  exact parallel_check_bind fun _ _ => parallel_reserve hjob.concord rfl

/-- A definition whose value is stored. -/
lemma parallel_define_stored (hjob : job.EmitsAlike K stray plain job')
    (hinline : inline.Parallel K stray inline') (hρ : Function.Injective ρ) {q : Qualifier}
    (hq : q ≠ .const) (name : Ident) (value : Expr) :
    Emit.Parallel K stray ρ Eq (emitStmt inline (.define q name value))
      (emitStmt inline' (.define q (name.rename ρ) (value.rename ρ))) := by
  rw [emitStmt, emitStmt]
  · refine (parallel_acceptExpr hjob hinline hρ true value).bind fun v v' hv => ?_
    subst hv
    refine parallel_alloc.bind fun slot slot' hslot => ?_
    subst hslot
    refine (Emit.parallel_define hρ name _).bind fun _ _ _ => ?_
    exact (parallel_push_plain hjob.concord slot rfl).bind fun _ _ _ => parallel_pure rfl
  all_goals exact hq

/-- A loop, whose body sees the item under its name. -/
lemma parallel_loop (hjob : job.EmitsAlike K stray plain job')
    (hinline : inline.Parallel K stray inline') (hρ : Function.Injective ρ) (name : Ident)
    (items : Expr) {body body' : List Stmt}
    (hbody : Emit.Parallel K stray ρ Eq (emitStmts inline body) (emitStmts inline' body')) :
    Emit.Parallel K stray ρ Eq (emitStmt inline (.loop name items body))
      (emitStmt inline' (.loop (name.rename ρ) (items.rename ρ) body')) := by
  have hplain : ∀ {op : Opcode} (b : UInt8), op.readsConstant = false →
      Emit.Parallel K stray ρ Eq (push op b) (push op b) :=
    fun b => parallel_push_plain hjob.concord b
  have hempty : Scope.define { role := some .loop } (name.rename ρ)
      = fun b => Scope.rename ρ <$> Scope.define { role := some .loop } name b :=
    funext fun b => Scope.define_rename hρ { role := some .loop } name b
  rw [emitStmt, emitStmt, Expr.span_rename, hempty]
  refine (parallel_acceptExpr hjob hinline hρ true items).bind fun list list' hlist => ?_
  subst hlist
  refine parallel_check_bind fun _ _ => parallel_alloc.bind fun iter iter' hiter => ?_
  subst hiter
  refine (hplain 0 rfl).bind fun _ _ _ => (hplain iter rfl).bind fun _ _ _ => ?_
  refine parallel_get_bind fun σ σ' h => ?_
  have hhead : σ'.code.head = σ.code.head := congrArg LoopHead.mk (hjob.concord.size_eq h.output)
  rw [hhead]
  refine (hplain iter rfl).bind fun _ _ _ => ?_
  refine (parallel_reserve hjob.concord rfl).bind fun exit exit' hexit => ?_
  subst hexit
  refine (hplain iter rfl).bind fun _ _ _ => parallel_alloc.bind fun item item' hitem => ?_
  subst hitem
  refine (hplain item rfl).bind fun _ _ _ => ?_
  refine parallel_lift_bind (Alike.map _ _) ?_
  rintro scope _ rfl
  refine (parallel_inChild hbody scope).bind fun _ _ _ => ?_
  refine (parallel_jumpBack hjob.concord σ.code.head).bind fun _ _ _ => ?_
  exact (parallel_patch hjob.concord exit).bind fun _ _ _ => parallel_pure rfl

mutual
lemma parallel_emitStmt (hjob : job.EmitsAlike K stray plain job')
    (hinline : inline.Parallel K stray inline') (hρ : Function.Injective ρ) (s : Stmt) :
    Emit.Parallel K stray ρ Eq (emitStmt inline s) (emitStmt inline' (s.rename ρ)) := by
  match s with
  | .block body =>
    rw [Stmt.rename, emitStmt, emitStmt]
    exact parallel_inChild (parallel_emitStmts hjob hinline hρ body) {}
  | .define qualifier name value =>
    rw [Stmt.rename]
    by_cases hq : qualifier = .const
    · subst hq
      rw [emitStmt, emitStmt]
      refine (parallel_acceptExpr hjob hinline hρ false value).bind fun v v' hv => ?_
      subst hv
      cases v with
      | known d => exact (Emit.parallel_define hρ name _).bind fun _ _ _ => parallel_pure rfl
      | runtime t => exact parallel_throw _
    · exact parallel_define_stored hjob hinline hρ hq name value
  | .assign name value =>
    rw [Stmt.rename, emitStmt, emitStmt]
    refine (parallel_acceptExpr hjob hinline hρ true value).bind fun v v' hv => ?_
    subst hv
    refine (parallel_assign hρ name v).bind fun outcome outcome' houtcome => ?_
    subst houtcome
    cases outcome with
    | replaced => exact parallel_throw _
    | store slot =>
      exact (parallel_push_plain hjob.concord slot rfl).bind fun _ _ _ => parallel_pure rfl
    | widened slot =>
      exact (parallel_push_plain hjob.concord slot rfl).bind fun _ _ _ => parallel_pure rfl
  | .ret none =>
    rw [Stmt.rename, emitStmt]
    refine (parallel_push_plain hjob.concord 0 rfl).bind fun _ _ _ => ?_
    exact (parallel_leave hjob.concord _).bind fun _ _ _ => parallel_pure rfl
  | .ret (some value) =>
    rw [Stmt.rename, emitStmt, emitStmt]
    refine (parallel_acceptExpr hjob hinline hρ true value).bind fun v v' hv => ?_
    subst hv
    exact (parallel_leave hjob.concord _).bind fun _ _ _ => parallel_pure rfl
  | .ifThen cond yes =>
    rw [Stmt.rename, emitStmt, emitStmt]
    refine (parallel_emitCond hjob hinline hρ cond).bind fun skip skip' hskip => ?_
    subst hskip
    refine (parallel_inChild (parallel_emitStmts hjob hinline hρ yes) {}).bind fun _ _ _ => ?_
    exact (parallel_patch hjob.concord skip).bind fun _ _ _ => parallel_pure rfl
  | .ifElse cond yes no =>
    rw [Stmt.rename, emitStmt, emitStmt]
    refine (parallel_emitCond hjob hinline hρ cond).bind fun skip skip' hskip => ?_
    subst hskip
    refine (parallel_inChild (parallel_emitStmts hjob hinline hρ yes) {}).bind fun y y' hy => ?_
    refine (parallel_reserve hjob.concord rfl).bind fun done done' hdone => ?_
    subst hdone
    refine (parallel_patch hjob.concord skip).bind fun _ _ _ => ?_
    refine (parallel_inChild (parallel_emitStmts hjob hinline hρ no) {}).bind fun n n' hn => ?_
    refine (parallel_patch hjob.concord done).bind fun _ _ _ => ?_
    subst hy hn
    exact parallel_pure rfl
  | .loop name items body =>
    rw [Stmt.rename]
    exact parallel_loop hjob hinline hρ name items (parallel_emitStmts hjob hinline hρ body)
  | .fail message span =>
    rw [Stmt.rename, emitStmt, emitStmt, Expr.span_rename]
    refine (parallel_acceptExpr hjob hinline hρ true message).bind fun v v' hv => ?_
    subst hv
    refine parallel_check_bind fun _ _ => ?_
    exact (parallel_push_plain hjob.concord 0 rfl).bind fun _ _ _ => parallel_pure rfl
  | .expr value =>
    rw [Stmt.rename, emitStmt, emitStmt]
    refine (parallel_acceptExpr hjob hinline hρ false value).bind fun v v' hv => ?_
    subst hv
    cases v with
    | known d => exact parallel_pure rfl
    | runtime t =>
      exact (parallel_push_plain hjob.concord 0 rfl).bind fun _ _ _ => parallel_pure rfl

lemma parallel_emitStmts (hjob : job.EmitsAlike K stray plain job')
    (hinline : inline.Parallel K stray inline') (hρ : Function.Injective ρ) (body : List Stmt) :
    Emit.Parallel K stray ρ Eq (emitStmts inline body)
      (emitStmts inline' (Stmt.renameAll ρ body)) := by
  match body with
  | [] =>
    rw [Stmt.renameAll, emitStmts, emitStmts]
    exact parallel_pure rfl
  | s :: ss =>
    rw [Stmt.renameAll, emitStmts, emitStmts]
    refine (parallel_emitStmt hjob hinline hρ s).bind fun r r' hr => ?_
    refine (parallel_emitStmts hjob hinline hρ ss).bind fun rest rest' hrest => ?_
    subst hr hrest
    exact parallel_pure rfl
end

/-! ## Calls -/

/-- What follows an inlined body: its end, and the returns that lead there. -/
lemma parallel_endBody (hK : Concord K stray plain) (returns : Bool) (frame : Frame) :
    Emit.Parallel K stray ρ Eq
      (do
        let types ←
          if returns then pure frame.returns
          else do
            push .pushNone
            pure (.void :: frame.returns)
        patchAll frame.exits
        pure (ValueType.joinAll types))
      (do
        let types ←
          if returns then pure frame.returns
          else do
            push .pushNone
            pure (.void :: frame.returns)
        patchAll frame.exits
        pure (ValueType.joinAll types)) := by
  cases returns with
  | true => exact (parallel_patchAll hK frame.exits).bind fun _ _ _ => parallel_pure rfl
  | false =>
    refine (parallel_push_plain hK 0 rfl).bind fun _ _ _ => ?_
    exact (parallel_patchAll hK frame.exits).bind fun _ _ _ => parallel_pure rfl

lemma parallel_emitCall (hjob : job.EmitsAlike K stray plain job') (entered : List String) :
    Inliner.Parallel K stray (emitCall job entered) (emitCall job' entered) := by
  intro ρ τ g g' scope hτ hdef
  have hname : g'.name = g.name := by
    rw [Inlinable.name, hdef]
    rfl
  have hbody := parallel_emitStmts hjob (parallel_emitCall hjob (g.name :: entered)) hτ
    g.definition.body
  rw [emitCall, emitCall, hdef, hname]
  refine (parallel_inFrame hbody g.name scope).bind ?_
  rintro ⟨returns, frame⟩ ⟨_, _⟩ ⟨rfl, rfl⟩
  exact parallel_endBody hjob.concord returns frame
termination_by Nesting.remaining job.functionNames entered
decreasing_by exact Inlinable.remaining_lt _

end Emission

/-! ## Mappings -/

/-- The only frame is closed, the returns get their target and the code is encoded. -/
lemma Emit.parallel_finish (hK : Concord K stray plain) :
    Step.Parallel (fun _ => 0) (EmitState.Mirrors K ρ) stray (fun _ _ => True) finish finish := by
  have hclose : Step.Parallel (fun _ => 0) (EmitState.Mirrors K ρ) stray Eq
      (closeFrame .mappingFrameMissing) (closeFrame .mappingFrameMissing) := by
    intro σ σ' h
    unfold closeFrame
    rw [h.frames]
    split
    · exact .ok rfl { h with frames := rfl } rfl rfl
    · exact .error _ h rfl rfl
  refine hclose.bind fun frame frame' hframe => ?_
  subst hframe
  refine parallel_get_bind fun σ σ' h => ?_
  rw [h.frames]
  split
  · refine (parallel_patchAll hK frame.exits).forget.bind fun _ _ _ => ?_
    exact parallel_get_bind fun τ τ' hτ => parallel_lift (hK.build hτ.output)
  · exact parallel_throw _

/-- Mappings are emitted alike. -/
lemma Job.EmitsAlike.parallel_emitMapping {job job' : Job}
    (hjob : job.EmitsAlike K stray plain job') (hρ : Function.Injective ρ) (m : MappingDef) :
    Step.Parallel (fun _ => 0) (EmitState.Mirrors K ρ) stray (fun _ _ => True)
      (job.emitMapping m) (job'.emitMapping (m.rename ρ)) := by
  have hbody : Emit.Parallel K stray ρ Eq (job.emitStmts m.body)
      (job'.emitStmts (m.rename ρ).body) := by
    intro σ σ' h
    rw [Job.emitStmts, Job.emitStmts, h.inlining]
    exact Emission.parallel_emitStmts hjob (Emission.parallel_emitCall hjob σ.inlining) hρ m.body
      σ σ' h
  exact hbody.forget.bind fun _ _ _ => parallel_finish hjob.concord

/-- The node of a mapping has the same name on both sides. -/
lemma EmitState.mirrors_start {p p' : Pool Constant} (hroot : ρ "root" = "root")
    (h : K {} p {} p') : (EmitState.start p).Mirrors K ρ (.start p') where
  scopes := by simp [EmitState.start, Scopes.rename, Scope.rename, hroot]
  slots := rfl
  frames := rfl
  inlining := rfl
  output := h

/-- The bytes of a mapping are those of the code in the end. -/
lemma Job.build_of_emitMapping {job : Job} {m : MappingDef} {σ σ' : EmitState} {bytes : List UInt8}
    (h : job.emitMapping m σ = .ok bytes σ') : σ'.code.build = .ok bytes := by
  have hensures : Ensures (job.emitMapping m) σ (fun bytes σ' => σ'.code.build = .ok bytes)
      fun _ _ => True := by
    refine ensures_any_bind (fun _ _ => trivial) fun _ σ₁ => ?_
    refine ensures_any_bind (fun _ _ => trivial) fun frame σ₂ => ?_
    refine ensures_bind_of_ok rfl ?_
    split
    · refine ensures_any_bind (fun _ _ => trivial) fun _ σ₃ => ?_
      exact ensures_bind_of_ok rfl (ensures_lift (fun _ _ => trivial) fun _ hbytes => hbytes)
    · exact ensures_throw trivial
  exact hensures.of_ok h

end Arbor
