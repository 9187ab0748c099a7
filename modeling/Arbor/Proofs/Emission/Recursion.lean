import Arbor.Emission.Mapping
import Arbor.Proofs.Evaluation.Recursion

/-!
# Recursion met by emission

The problems of emission are followed along the text of a program, as those of evaluation are.  An
expression is first evaluated, inside the same functions, so both report recursion for the same
reason.

* `Emission.Inliner.Raising`: what calls from some code may raise.
* `Emission.raises_emitExpr`, `Emission.raises_emitStmts`: then the code raises no more.
* `Job.raises_compileMapping`: recursion is reported only where there is some.
-/

namespace Arbor

open Step

/-! ## Plain problems -/

namespace Assemble

lemma raises_pushIndex (op : Opcode) (what : String) (index : Nat) :
    Raises Problem.IsPlain (pushIndex op what index) := by
  unfold pushIndex
  split
  · exact raises_modify _
  · exact raises_throw trivial

lemma raises_patch (a : Anchor) : Raises Problem.IsPlain (patch a) := by
  refine raises_get.bind fun c => ?_
  split
  · exact raises_set _
  · dsimp only
    split
    · exact raises_throw trivial
    · split
      · exact raises_set _
      · exact raises_throw trivial

lemma raises_jumpBack (head : LoopHead) : Raises Problem.IsPlain (jumpBack head) := by
  refine raises_get.bind fun c => ?_
  dsimp only
  split
  · exact raises_throw trivial
  · exact raises_modify _

end Assemble

namespace Code

lemma raises_encode (n : Nat) (is : List Instruction) :
    Check.Raises Problem.IsPlain (encode n is) := by
  induction is generalizing n with
  | nil => exact Check.raises_ok []
  | cons inst is ih =>
    obtain ⟨op, operand⟩ := inst
    cases operand with
    | byte b => exact (ih (n + 1)).bind fun bytes _ => Check.raises_ok _
    | pending => exact Check.raises_throw trivial

end Code

lemma Slots.raises_fresh (s : Slots) : Check.Raises Problem.IsPlain s.fresh := by
  unfold fresh
  split
  · exact Check.raises_ok _
  · exact Check.raises_throw trivial

lemma Slots.raises_alloc : Raises Problem.IsPlain alloc :=
  raises_get.bind fun s => (raises_lift s.raises_fresh).bind fun _ =>
    (raises_modify _).bind fun _ => raises_pure _

namespace Emit

variable {α : Type} {E : Problem → Prop}

section Plain

variable (hE : ∀ p : Problem, p.IsPlain → E p)
include hE

lemma raises_onCode {step : Assemble α} (h : Raises Problem.IsPlain step) :
    Raises E (onCode step) :=
  (h.within _ _).mono hE

lemma raises_pushConstant (op : Opcode) (c : Constant) : Raises E (pushConstant op c) :=
  raises_get.bind fun _ => (raises_modify _).bind fun _ =>
    raises_onCode hE (Assemble.raises_pushIndex op _ _)

lemma raises_patch (a : Anchor) : Raises E (patch a) :=
  raises_onCode hE (Assemble.raises_patch a)

lemma raises_patchAll (as : List Anchor) : Raises E (patchAll as) := by
  induction as with
  | nil => exact raises_pure ()
  | cons a as ih => exact (raises_patch hE a).bind fun _ => ih

lemma raises_loadNumber (n : Number) : Raises E (loadNumber n) := by
  cases n with
  | int v =>
    rw [loadNumber]
    split
    · exact raises_modify _
    · exact raises_pushConstant hE _ _
  | float x =>
    rw [loadNumber]
    split
    · exact raises_modify _
    · exact raises_pushConstant hE _ _

lemma raises_loadScalar (d : Datum) : Raises E (loadScalar d) := by
  cases d with
  | none => exact raises_modify _
  | bool b => cases b <;> exact raises_modify _
  | number n => exact raises_loadNumber hE n
  | str text => exact raises_pushConstant hE _ _
  | kind name => exact raises_pushConstant hE _ _
  | list ds => exact raises_throw (hE _ trivial)

lemma raises_appendAll (ds : List Datum) : Raises E (appendAll ds) := by
  induction ds with
  | nil => exact raises_pure ()
  | cons d ds ih =>
    exact (raises_loadScalar hE d).bind fun _ => (raises_modify _).bind fun _ => ih

lemma raises_loadDatum (d : Datum) : Raises E (loadDatum d) := by
  unfold loadDatum
  split
  · exact (raises_modify _).bind fun _ => raises_appendAll hE _
  · exact raises_loadScalar hE d

lemma raises_alloc : Raises E alloc :=
  (Slots.raises_alloc.within _ _).mono hE

lemma raises_lookup (name : Ident) : Raises E (lookup name) :=
  raises_get.bind fun σ => raises_lift ((σ.scopes.raises_lookup name).mono hE)

lemma raises_define (name : Ident) (b : Binding) : Raises E (define name b) :=
  raises_get.bind fun σ =>
    (raises_lift ((σ.scopes.raises_define name b).mono hE)).bind fun _ => raises_modify _

lemma raises_assign (name : Ident) (v : Value) : Raises E (assign name v) :=
  raises_get.bind fun σ =>
    (raises_lift ((σ.scopes.raises_assign name v σ.slots.raises_fresh).mono hE)).bind fun _ =>
      (raises_modify _).bind fun _ => raises_pure _

lemma raises_leave (type : ValueType) : Raises E (leave type) := by
  refine raises_get.bind fun σ => ?_
  split
  · exact raises_throw (hE _ trivial)
  · refine Raises.bind (fun _ => trivial) fun exit => raises_get.bind fun σ' => ?_
    split
    · exact raises_throw (hE _ trivial)
    · exact raises_modify _

lemma raises_closeFrame (missing : Defect) : Raises E (closeFrame missing) := by
  intro σ
  unfold Ensures closeFrame
  cases σ.frames.getLast? with
  | none => exact hE _ trivial
  | some frame => trivial

/-- A step in a frame of its own raises what it raises anywhere, unless the frame is missing. -/
lemma raises_inFrame (name : String) (scope : Scope) {step : Emit α} (h : Raises E step) :
    Raises E (inFrame name scope step) := by
  intro σ
  unfold Ensures inFrame
  have hstep := h { σ with
    scopes := [scope], frames := σ.frames ++ [{}], inlining := name :: σ.inlining }
  unfold Ensures at hstep
  split at hstep
  · next hx =>
    rw [hx]
    exact (raises_closeFrame hE .callFrameMissing).bind (fun frame => raises_pure _) _
  · next hx =>
    rw [hx]
    exact (raises_closeFrame hE .callFrameMissing).bind (fun frame => raises_throw hstep) _

end Plain

lemma raises_inChild (scope : Scope) {step : Emit α} (h : Raises E step) :
    Raises E (inChild scope step) := by
  intro σ
  have hstep := h { σ with scopes := scope :: σ.scopes }
  unfold Ensures at hstep ⊢
  unfold inChild
  split at hstep
  · next hx =>
    rw [hx]
    trivial
  · next hx =>
    rw [hx]
    exact hstep

end Emit

namespace Emission

open Emit

variable {job : Job} {entered called : List String} {E : Problem → Prop}
  {inline : Inliner job entered}

/-- Evaluating and inlining calls of the names `called` raises problems in `E` only, which plain
problems are in. -/
structure Inliner.Raising (inline : Inliner job entered) (E : Problem → Prop)
    (called : List String) : Prop where
  plain : ∀ p : Problem, p.IsPlain → E p
  enter : job.Entering E entered called
  evaluate : ∀ (ss : Scopes) {e : Expr}, (∀ c ∈ e.callees, c ∈ called) →
    Check.Raises E (job.evaluate ss entered e)
  inline : ∀ {c : String} {g : Inlinable job entered} (scope : Scope), c ∈ called →
    job.functionGraph.find? c = some g.definition → Raises E (inline g scope)

/-! ## Expressions -/

lemma raises_accept (h : inline.Raising E called) (load : Bool) {e : Expr}
    (he : ∀ c ∈ e.callees, c ∈ called) {emit : Emit ValueType} (hemit : Raises E emit) :
    Raises E (accept job entered load e emit) := by
  refine raises_get.bind fun σ => (raises_lift (h.evaluate σ.scopes he)).bind fun r => ?_
  cases r with
  | none => exact hemit.bind fun _ => raises_pure _
  | some d =>
    cases load with
    | false => exact raises_pure _
    | true => exact (raises_loadDatum h.plain d).bind fun _ => raises_pure _

/-- The overloads of an operator are looked up and applied to the types of its operands. -/
lemma raises_operator (h : inline.Raising E called) (symbol : String) (types : List ValueType)
    (span : Span) :
    Raises E (do
      let overloads ← job.operator symbol
      let (type, opcode) ← overloads.infer types span
      push opcode
      pure type : Emit ValueType) :=
  (raises_lift ((job.raises_operator symbol).mono h.plain)).bind fun o =>
    (raises_lift ((o.raises_infer span types).mono h.plain)).bind fun _ =>
      (raises_modify _).bind fun _ => raises_pure _

mutual
lemma raises_emitExpr (h : inline.Raising E called) (e : Expr)
    (he : ∀ c ∈ e.callees, c ∈ called) : Raises E (emitExpr inline e) := by
  match e with
  | .literal d _ =>
    rw [emitExpr]
    exact (raises_loadDatum h.plain d).bind fun _ => raises_pure _
  | .ref name span =>
    rw [emitExpr]
    refine (raises_lookup h.plain name).bind fun b => ?_
    cases b with
    | stored t slot f => exact (raises_modify _).bind fun _ => raises_pure _
    | constant d f => exact (raises_loadDatum h.plain d).bind fun _ => raises_pure _
  | .attr target field span =>
    rw [emitExpr]
    refine (raises_lookup h.plain target).bind fun b => ?_
    refine (raises_lift ((Check.raises_compatible _ _ _).mono h.plain)).bind fun _ => ?_
    cases b.slot? with
    | none => exact raises_throw (h.plain _ trivial)
    | some slot =>
      exact (raises_modify _).bind fun _ => (raises_pushConstant h.plain _ _).bind fun _ =>
        raises_pure _
  | .unary op operand span =>
    rw [emitExpr]
    rw [Expr.callees] at he
    refine (raises_accept h true he (raises_emitExpr h operand he)).bind fun a => ?_
    exact raises_operator h _ _ span
  | .binary op left right span =>
    rw [emitExpr]
    rw [Expr.callees, List.forall_mem_append] at he
    refine (raises_accept h true he.1 (raises_emitExpr h left he.1)).bind fun a => ?_
    refine (raises_accept h true he.2 (raises_emitExpr h right he.2)).bind fun b => ?_
    exact raises_operator h _ _ span
  | .call name args site span =>
    rw [emitExpr]
    rw [Expr.callees, List.forall_mem_cons] at he
    refine raises_lift_bind ((job.raises_callee name).mono h.plain) fun callee hcallee => ?_
    cases callee with
    | builtin o =>
      refine (raises_lift ((o.raises_checkArity _ _).mono h.plain)).bind fun _ => ?_
      refine (raises_emitArgs h args he.2).bind fun types => ?_
      exact (raises_lift ((o.raises_infer site types).mono h.plain)).bind fun _ =>
        (raises_modify _).bind fun _ => raises_pure _
    | function d mem =>
      refine (raises_lift ((Check.raises_argumentCount _ _ _).mono h.plain)).bind fun _ => ?_
      refine raises_lift_bind (h.enter.raises he.1 hcallee _) fun g hg => ?_
      obtain ⟨-, rfl⟩ := Job.enterFunction_eq_ok hg
      refine raises_get.bind fun σ => ?_
      refine (raises_emitParams h _ d.params args he.2).bind fun scope => ?_
      exact h.inline scope he.1 (Job.functionGraph_find?_of_callee hcallee)
  | .list items span =>
    rw [emitExpr]
    rw [Expr.callees] at he
    exact (raises_modify _).bind fun _ => (raises_emitItems h items he).bind fun _ => raises_pure _

lemma raises_emitArgs (h : inline.Raising E called) (es : List Expr)
    (he : ∀ c ∈ Expr.calleesAll es, c ∈ called) : Raises E (emitArgs inline es) := by
  match es with
  | [] =>
    rw [emitArgs]
    exact raises_pure _
  | e :: es =>
    rw [emitArgs]
    rw [Expr.calleesAll, List.forall_mem_append] at he
    refine (raises_accept h true he.1 (raises_emitExpr h e he.1)).bind fun a => ?_
    exact (raises_emitArgs h es he.2).bind fun _ => raises_pure _

lemma raises_emitItems (h : inline.Raising E called) (es : List Expr)
    (he : ∀ c ∈ Expr.calleesAll es, c ∈ called) : Raises E (emitItems inline es) := by
  match es with
  | [] =>
    rw [emitItems]
    exact raises_pure _
  | e :: es =>
    rw [emitItems]
    rw [Expr.calleesAll, List.forall_mem_append] at he
    refine (raises_accept h true he.1 (raises_emitExpr h e he.1)).bind fun a => ?_
    refine (raises_lift ((Check.raises_listItem _ _).mono h.plain)).bind fun _ => ?_
    refine (raises_modify _).bind fun _ => ?_
    exact (raises_emitItems h es he.2).bind fun _ => raises_pure _

lemma raises_emitParams (h : inline.Raising E called) (scope : Scope) (ps : List Ident)
    (es : List Expr) (he : ∀ c ∈ Expr.calleesAll es, c ∈ called) :
    Raises E (emitParams inline scope ps es) := by
  match ps, es with
  | [], _ =>
    rw [emitParams]
    · exact raises_pure _
    · simp
  | _ :: _, [] =>
    rw [emitParams]
    · exact raises_pure _
    · simp
  | p :: ps, e :: es =>
    rw [emitParams]
    rw [Expr.calleesAll, List.forall_mem_append] at he
    refine (raises_accept h false he.1 (raises_emitExpr h e he.1)).bind fun a => ?_
    cases a with
    | known d =>
      refine (raises_lift ((scope.raises_define p _).mono h.plain)).bind fun scope' => ?_
      exact raises_emitParams h scope' ps es he.2
    | runtime t =>
      refine (raises_alloc h.plain).bind fun slot => ?_
      refine (raises_lift ((scope.raises_define p _).mono h.plain)).bind fun scope' => ?_
      exact (raises_modify _).bind fun _ => raises_emitParams h scope' ps es he.2
end

/-! ## Statements -/

lemma raises_acceptExpr (h : inline.Raising E called) (load : Bool) {e : Expr}
    (he : ∀ c ∈ e.callees, c ∈ called) : Raises E (acceptExpr inline load e) :=
  raises_accept h load he (raises_emitExpr h e he)

lemma raises_emitCond (h : inline.Raising E called) {e : Expr}
    (he : ∀ c ∈ e.callees, c ∈ called) : Raises E (emitCond inline e) :=
  (raises_acceptExpr h true he).bind fun _ =>
    (raises_lift ((Check.raises_compatible _ _ _).mono h.plain)).bind fun _ _ => trivial

mutual
lemma raises_emitStmt (h : inline.Raising E called) (s : Stmt)
    (hs : ∀ c ∈ s.callees, c ∈ called) : Raises E (emitStmt inline s) := by
  match s with
  | .block body =>
    rw [emitStmt]
    rw [Stmt.callees] at hs
    exact raises_inChild _ (raises_emitStmts h body hs)
  | .define .const name value =>
    rw [emitStmt]
    rw [Stmt.callees] at hs
    refine (raises_acceptExpr h false hs).bind fun v => ?_
    cases v with
    | known d => exact (raises_define h.plain name _).bind fun _ => raises_pure _
    | runtime t => exact raises_throw (h.plain _ trivial)
  | .define .var name value | .define .final name value =>
    rw [emitStmt]
    · rw [Stmt.callees] at hs
      refine (raises_acceptExpr h true hs).bind fun v => (raises_alloc h.plain).bind fun slot => ?_
      exact (raises_define h.plain name _).bind fun _ => (raises_modify _).bind fun _ =>
        raises_pure _
    · simp
  | .assign name value =>
    rw [emitStmt]
    rw [Stmt.callees] at hs
    refine (raises_acceptExpr h true hs).bind fun v => ?_
    refine (raises_assign h.plain name v).bind fun outcome => ?_
    cases outcome with
    | replaced => exact raises_throw (h.plain _ trivial)
    | store slot => exact (raises_modify _).bind fun _ => raises_pure _
    | widened slot => exact (raises_modify _).bind fun _ => raises_pure _
  | .ret none =>
    rw [emitStmt]
    exact (raises_modify _).bind fun _ => (raises_leave h.plain _).bind fun _ => raises_pure _
  | .ret (some value) =>
    rw [emitStmt]
    rw [Stmt.callees] at hs
    exact (raises_acceptExpr h true hs).bind fun v =>
      (raises_leave h.plain _).bind fun _ => raises_pure _
  | .ifThen cond yes =>
    rw [emitStmt]
    rw [Stmt.callees, List.forall_mem_append] at hs
    refine (raises_emitCond h hs.1).bind fun skip => ?_
    refine (raises_inChild _ (raises_emitStmts h yes hs.2)).bind fun _ => ?_
    exact (raises_patch h.plain skip).bind fun _ => raises_pure _
  | .ifElse cond yes no =>
    rw [emitStmt]
    rw [Stmt.callees, List.forall_mem_append, List.forall_mem_append] at hs
    refine (raises_emitCond h hs.1).bind fun skip => ?_
    refine (raises_inChild _ (raises_emitStmts h yes hs.2.1)).bind fun _ => ?_
    refine Raises.bind (fun _ => trivial) fun done => (raises_patch h.plain skip).bind fun _ => ?_
    refine (raises_inChild _ (raises_emitStmts h no hs.2.2)).bind fun _ => ?_
    exact (raises_patch h.plain done).bind fun _ => raises_pure _
  | .loop name items body =>
    rw [emitStmt]
    rw [Stmt.callees, List.forall_mem_append] at hs
    refine (raises_acceptExpr h true hs.1).bind fun list => ?_
    refine (raises_lift ((Check.raises_compatible _ _ _).mono h.plain)).bind fun _ => ?_
    refine (raises_alloc h.plain).bind fun iter => (raises_modify _).bind fun _ => ?_
    refine (raises_modify _).bind fun _ => raises_get.bind fun σ => ?_
    refine (raises_modify _).bind fun _ => ?_
    refine Raises.bind (fun _ => trivial) fun exit => (raises_modify _).bind fun _ => ?_
    refine (raises_alloc h.plain).bind fun item => (raises_modify _).bind fun _ => ?_
    refine (raises_lift ((Scope.raises_define _ name _).mono h.plain)).bind fun scope => ?_
    refine (raises_inChild _ (raises_emitStmts h body hs.2)).bind fun _ => ?_
    refine (raises_onCode h.plain (Assemble.raises_jumpBack _)).bind fun _ => ?_
    exact (raises_patch h.plain exit).bind fun _ => raises_pure _
  | .fail message span =>
    rw [emitStmt]
    rw [Stmt.callees] at hs
    refine (raises_acceptExpr h true hs).bind fun m => ?_
    refine (raises_lift ((Check.raises_compatible _ _ _).mono h.plain)).bind fun _ => ?_
    exact (raises_modify _).bind fun _ => raises_pure _
  | .expr value =>
    rw [emitStmt]
    rw [Stmt.callees] at hs
    refine (raises_acceptExpr h false hs).bind fun v => ?_
    cases v with
    | known d => exact raises_pure _
    | runtime t => exact (raises_modify _).bind fun _ => raises_pure _

lemma raises_emitStmts (h : inline.Raising E called) (body : List Stmt)
    (hs : ∀ c ∈ Stmt.calleesAll body, c ∈ called) : Raises E (emitStmts inline body) := by
  match body with
  | [] =>
    rw [emitStmts]
    exact raises_pure _
  | s :: rest =>
    rw [emitStmts]
    rw [Stmt.calleesAll, List.forall_mem_append] at hs
    refine (raises_emitStmt h s hs.1).bind fun _ => ?_
    exact (raises_emitStmts h rest hs.2).bind fun _ => raises_pure _
end

/-! ## Recursion -/

/-- Functions are inlined one inside the other, each entered by a call from the body of the last. -/
lemma raising_emitCall {job : Job} (entered : List String) {called : List String}
    (h : job.functionGraph.Follows entered called) :
    Inliner.Raising (emitCall job entered) job.Justified called := by
  refine ⟨fun _ => Job.justified_of_isPlain, Job.entering_of_follows h,
    fun ss _ he => Job.raises_evaluate h ss he, fun {c g} scope hc hg => ?_⟩
  have hname : g.name = c := Job.name_of_functionGraph_find? hg
  have hbody := raising_emitCall (g.name :: entered) (hname ▸ h.enter hc hg)
  rw [emitCall]
  refine (raises_inFrame hbody.plain g.name scope
    (raises_emitStmts hbody g.definition.body fun c hc => hc)).bind fun r => ?_
  obtain ⟨returns, frame⟩ := r
  have hend : ∀ types, Raises job.Justified (do
      patchAll frame.exits
      pure (ValueType.joinAll types) : Emit ValueType) :=
    fun types => (raises_patchAll hbody.plain _).bind fun _ => raises_pure _
  cases returns with
  | true => exact (raises_pure _).bind hend
  | false => exact (raises_modify _).bind fun _ => (raises_pure _).bind hend
termination_by Nesting.remaining job.functionNames entered
decreasing_by exact Inlinable.remaining_lt _

end Emission

/-- Compiling a mapping reports recursion only where there is some. -/
lemma Job.raises_compileMapping (job : Job) (m : MappingDef) :
    Raises job.Justified (job.compileMapping m) := by
  have hplain : ∀ p : Problem, p.IsPlain → job.Justified p := fun _ => justified_of_isPlain
  have hfinish : Raises job.Justified Emit.finish := by
    refine (Emit.raises_closeFrame hplain _).bind fun frame => raises_get.bind fun σ => ?_
    split
    · refine (Emit.raises_patchAll hplain _).bind fun _ => raises_get.bind fun σ' => ?_
      exact raises_lift ((Code.raises_encode 0 _).mono hplain)
    · exact raises_throw (hplain _ trivial)
  have hbody : Raises job.Justified (Emission.emitStmts (Emission.emitCall job []) m.body) :=
    Emission.raises_emitStmts (Emission.raising_emitCall [] (CallGraph.follows_nil _)) m.body
      fun _ hc => hc
  intro constants
  have hrun : Ensures (job.emitStmts m.body) (.start constants) _ _ :=
    (hbody (.start constants)).congr rfl
  have hstart : Ensures (job.emitMapping m) (.start constants) _ _ :=
    hrun.bind (fun _ _ hp => hp) fun _ σ _ => hfinish σ
  unfold Ensures at hstart ⊢
  unfold compileMapping
  split at hstart
  · next hx =>
    rw [hx]
    trivial
  · next hx =>
    rw [hx]
    exact hstart

end Arbor
