import Arbor.Proofs.Builtin.Resolution
import Arbor.Proofs.Evaluation.Outcome
import Arbor.Proofs.Job.CallGraph

/-!
# Recursion met by evaluation

The problems of evaluation are followed along the text of a program.  The operations that folding is
made of raise plain problems, and only a call can report recursion.

* `Evaluation.Runner.Raising`: what calls from some code may raise.
* `Evaluation.raises_foldExpr`, `Evaluation.raises_foldStmts`: then the code raises no more.
* `Job.raises_evaluate`: recursion is reported only where there is some.
-/

namespace Arbor

open Check Fold

/-! ## Plain problems -/

lemma Scope.raises_define (s : Scope) (name : Ident) (b : Binding) :
    Raises Problem.IsPlain (s.define name b) := by
  rw [define_eq]
  split
  · exact raises_throw trivial
  · split
    · exact raises_throw trivial
    · exact raises_ok _

lemma Scope.raises_bindAll (s : Scope) (ps : List Ident) (ds : List Datum) :
    Raises Problem.IsPlain (s.bindAll ps ds) := by
  induction ps generalizing s ds with
  | nil => exact raises_ok s
  | cons p ps ih =>
    cases ds with
    | nil => exact raises_ok s
    | cons d ds => exact (s.raises_define p _).bind fun s' _ => ih s' ds

lemma Scopes.raises_define (ss : Scopes) (name : Ident) (b : Binding) :
    Raises Problem.IsPlain (ss.define name b) := by
  cases ss with
  | nil => exact (Scope.raises_define {} name b).bind fun s _ => raises_ok [s]
  | cons s outer => exact (s.raises_define name b).bind fun s' _ => raises_ok (s' :: outer)

lemma Scopes.raises_lookup (ss : Scopes) (name : Ident) :
    Raises Problem.IsPlain (ss.lookup name) := by
  unfold lookup
  split
  · exact raises_ok _
  · exact raises_throw trivial

lemma Binding.raises_assign (b : Binding) (name : Ident) (v : Value)
    {fresh : Except Problem UInt8} (hfresh : Raises Problem.IsPlain fresh) :
    Raises Problem.IsPlain (b.assign name v fresh) := by
  unfold assign
  split
  · exact raises_throw trivial
  · split
    · exact raises_throw trivial
    · split
      · exact raises_ok _
      · exact raises_ok _
      · exact hfresh.bind fun slot _ => raises_ok _

lemma Scopes.raises_assign (ss : Scopes) (name : Ident) (v : Value)
    {fresh : Except Problem UInt8} (hfresh : Raises Problem.IsPlain fresh) :
    Raises Problem.IsPlain (ss.assign name v fresh) :=
  (ss.raises_lookup name).bind fun b _ =>
    (b.raises_assign name v hfresh).bind fun _ _ => raises_ok _

namespace Overloads

variable (o : Overloads) (span : Span)

lemma raises_checkArity (n : Nat) : Raises Problem.IsPlain (o.checkArity n span) := by
  unfold checkArity
  split
  · exact raises_ok ()
  · exact raises_throw trivial

lemma raises_infer (types : List ValueType) : Raises Problem.IsPlain (o.infer types span) := by
  unfold infer
  split
  · exact raises_throw trivial
  · split
    · exact raises_ok _
    · exact raises_throw trivial

lemma raises_select (types : List ValueType) : Raises Problem.IsPlain (o.select types span) := by
  unfold select
  split
  · exact raises_throw trivial
  · exact raises_ok _
  · exact raises_throw trivial

lemma raises_fold (ds : List Datum) : Raises Problem.IsPlain (o.fold ds span) := by
  refine (o.raises_select span _).bind fun b _ => ?_
  split
  · exact raises_ok none
  · split
    · exact raises_ok _
    · exact raises_ok none
    · exact raises_throw trivial

end Overloads

namespace Job

variable (job : Job)

lemma raises_operator (symbol : String) : Raises Problem.IsPlain (job.operator symbol) := by
  unfold operator
  split
  · exact raises_ok _
  · exact raises_throw trivial

lemma raises_callee (name : Ident) : Raises Problem.IsPlain (job.callee name) := by
  unfold callee
  split
  · exact raises_ok _
  · split
    · exact raises_ok _
    · exact raises_throw trivial

end Job

/-! ## Calls -/

/-- Entering what the names `called` stand for raises problems in `E` only. -/
def Job.Entering (job : Job) (E : Problem → Prop) (entered called : List String) : Prop :=
  ∀ (c : String) (d : FunctionDef) (span : Span), c ∈ called →
    job.functionGraph.find? c = some d → d.ident.name ∈ entered →
    E (Fault.recursiveFunction.atSpan span)

lemma Job.Entering.raises {job : Job} {E : Problem → Prop} {entered called : List String}
    (h : job.Entering E entered called) {name : Ident} {d : FunctionDef}
    {mem : d ∈ job.file.functions} (hc : name.name ∈ called)
    (hcallee : job.callee name = .ok (.function d mem)) (span : Span) :
    Raises E (enterFunction d mem span : Except Problem (Inlinable job entered)) := by
  unfold enterFunction
  split
  · next hmem => exact raises_throw (h _ d span hc (functionGraph_find?_of_callee hcallee) hmem)
  · exact raises_ok _

namespace Evaluation

variable {job : Job} {entered called : List String} {E : Problem → Prop}
  {run : Runner job entered}

/-- Calls of the names `called` raise problems in `E` only, which plain problems are in. -/
structure Runner.Raising (run : Runner job entered) (E : Problem → Prop) (called : List String) :
    Prop where
  plain : ∀ p : Problem, p.IsPlain → E p
  enter : job.Entering E entered called
  run : ∀ {c : String} {g : Inlinable job entered} (args : List Datum), c ∈ called →
    job.functionGraph.find? c = some g.definition → Ensures (run g args) (fun _ => True) E

/-! ## Expressions -/

lemma raises_fold (h : run.Raising E called) (o : Overloads) (ds : List Datum) (span : Span) :
    Ensures (OptionT.mk (o.fold ds span)) (fun _ => True) E :=
  ensures_mk ((o.raises_fold span ds).mono h.plain) fun _ _ => trivial

mutual
lemma raises_foldExpr (h : run.Raising E called) (ss : Scopes) (e : Expr)
    (he : ∀ c ∈ e.callees, c ∈ called) : Ensures (foldExpr run ss e) (fun _ => True) E := by
  match e with
  | .literal d _ =>
    rw [foldExpr]
    exact ensures_pure trivial
  | .ref name span =>
    rw [foldExpr]
    refine ensures_lift_bind ((ss.raises_lookup name).mono h.plain) fun b _ => ?_
    cases b with
    | constant d f => exact ensures_pure trivial
    | stored t slot f => exact ensures_failure
  | .attr _ _ _ =>
    rw [foldExpr]
    exact ensures_failure
  | .unary op operand span =>
    rw [foldExpr]
    rw [Expr.callees] at he
    refine (raises_foldExpr h ss operand he).bind fun a _ => ?_
    exact ensures_lift_bind ((job.raises_operator _).mono h.plain) fun o _ =>
      raises_fold h o _ span
  | .binary op left right span =>
    rw [foldExpr]
    rw [Expr.callees, List.forall_mem_append] at he
    refine (raises_foldExpr h ss left he.1).bind fun a _ => ?_
    refine (raises_foldExpr h ss right he.2).bind fun b _ => ?_
    exact ensures_lift_bind ((job.raises_operator _).mono h.plain) fun o _ =>
      raises_fold h o _ span
  | .call name args site span =>
    rw [foldExpr]
    rw [Expr.callees, List.forall_mem_cons] at he
    refine ensures_lift_bind ((job.raises_callee name).mono h.plain) fun callee hcallee => ?_
    cases callee with
    | builtin o =>
      refine ensures_lift_bind ((o.raises_checkArity _ _).mono h.plain) fun _ _ => ?_
      exact (raises_foldArgs h ss args he.2).bind fun ds _ => raises_fold h o ds site
    | function d mem =>
      refine ensures_lift_bind ((Check.raises_arguments _ _ _).mono h.plain) fun _ _ => ?_
      refine ensures_lift_bind (h.enter.raises he.1 hcallee _) fun g hg => ?_
      refine (raises_foldArgs h ss args he.2).bind fun ds _ => h.run ds he.1 ?_
      obtain ⟨-, rfl⟩ := Job.enterFunction_eq_ok hg
      exact Job.functionGraph_find?_of_callee hcallee
  | .list items span =>
    rw [foldExpr]
    rw [Expr.callees] at he
    exact (raises_foldItems h ss items he).bind fun ds _ => ensures_pure trivial

lemma raises_foldArgs (h : run.Raising E called) (ss : Scopes) (es : List Expr)
    (he : ∀ c ∈ Expr.calleesAll es, c ∈ called) :
    Ensures (foldArgs run ss es) (fun _ => True) E := by
  match es with
  | [] =>
    rw [foldArgs]
    exact ensures_pure trivial
  | e :: es =>
    rw [foldArgs]
    rw [Expr.calleesAll, List.forall_mem_append] at he
    refine (raises_foldExpr h ss e he.1).bind fun d _ => ?_
    exact (raises_foldArgs h ss es he.2).bind fun ds _ => ensures_pure trivial

lemma raises_foldItems (h : run.Raising E called) (ss : Scopes) (es : List Expr)
    (he : ∀ c ∈ Expr.calleesAll es, c ∈ called) :
    Ensures (foldItems run ss es) (fun _ => True) E := by
  match es with
  | [] =>
    rw [foldItems]
    exact ensures_pure trivial
  | e :: es =>
    rw [foldItems]
    rw [Expr.calleesAll, List.forall_mem_append] at he
    refine (raises_foldExpr h ss e he.1).bind fun d _ => ?_
    refine ensures_lift_bind ((Check.raises_listItem _ _).mono h.plain) fun _ _ => ?_
    exact (raises_foldItems h ss es he.2).bind fun ds _ => ensures_pure trivial
end

/-! ## Statements -/

lemma raises_foldCond (h : run.Raising E called) (ss : Scopes) (e : Expr)
    (he : ∀ c ∈ e.callees, c ∈ called) : Ensures (foldCond run ss e) (fun _ => True) E := by
  unfold foldCond
  refine (raises_foldExpr h ss e he).bind fun d _ => ?_
  refine ensures_lift_bind ((Check.raises_compatible _ _ _).mono h.plain) fun _ _ => ?_
  cases d.toBool? with
  | some b => exact ensures_pure trivial
  | none => exact ensures_throw (h.plain _ trivial)

mutual
lemma raises_foldStmt (h : run.Raising E called) (ss : Scopes) (s : Stmt)
    (hs : ∀ c ∈ s.callees, c ∈ called) : Ensures (foldStmt run ss s) (fun _ => True) E := by
  match s with
  | .block body =>
    rw [foldStmt]
    rw [Stmt.callees] at hs
    exact (raises_foldStmts h _ body hs).bind fun _ _ => ensures_pure trivial
  | .define q name value =>
    rw [foldStmt]
    rw [Stmt.callees] at hs
    refine (raises_foldExpr h ss value hs).bind fun d _ => ?_
    exact ensures_lift_bind ((ss.raises_define name _).mono h.plain) fun _ _ => ensures_pure trivial
  | .assign name value =>
    rw [foldStmt]
    rw [Stmt.callees] at hs
    refine (raises_foldExpr h ss value hs).bind fun d _ => ?_
    have hassign := ss.raises_assign name (.known d)
      (raises_throw (p := .defect .storageMissing) (α := UInt8) trivial)
    exact ensures_lift_bind (hassign.mono h.plain) fun _ _ => ensures_pure trivial
  | .ret none =>
    rw [foldStmt]
    exact ensures_pure trivial
  | .ret (some value) =>
    rw [foldStmt]
    rw [Stmt.callees] at hs
    exact (raises_foldExpr h ss value hs).bind fun d _ => ensures_pure trivial
  | .ifThen cond yes =>
    rw [foldStmt]
    rw [Stmt.callees, List.forall_mem_append] at hs
    refine (raises_foldCond h ss cond hs.1).bind fun b _ => ?_
    cases b with
    | true => exact (raises_foldStmts h _ yes hs.2).bind fun _ _ => ensures_pure trivial
    | false => exact ensures_pure trivial
  | .ifElse cond yes no =>
    rw [foldStmt]
    rw [Stmt.callees, List.forall_mem_append, List.forall_mem_append] at hs
    refine (raises_foldCond h ss cond hs.1).bind fun b _ => ?_
    cases b with
    | true => exact (raises_foldStmts h _ yes hs.2.1).bind fun _ _ => ensures_pure trivial
    | false => exact (raises_foldStmts h _ no hs.2.2).bind fun _ _ => ensures_pure trivial
  | .loop _ _ _ =>
    rw [foldStmt]
    exact ensures_failure
  | .fail message span =>
    rw [foldStmt]
    rw [Stmt.callees] at hs
    refine (raises_foldExpr h ss message hs).bind fun d _ => ?_
    cases d <;> exact ensures_throw (h.plain _ trivial)
  | .expr value =>
    rw [foldStmt]
    rw [Stmt.callees] at hs
    exact (raises_foldExpr h ss value hs).bind fun d _ => ensures_pure trivial

lemma raises_foldStmts (h : run.Raising E called) (ss : Scopes) (body : List Stmt)
    (hs : ∀ c ∈ Stmt.calleesAll body, c ∈ called) :
    Ensures (foldStmts run ss body) (fun _ => True) E := by
  match body with
  | [] =>
    rw [foldStmts]
    exact ensures_pure trivial
  | s :: rest =>
    rw [foldStmts]
    rw [Stmt.calleesAll, List.forall_mem_append] at hs
    refine (raises_foldStmt h ss s hs.1).bind fun r _ => ?_
    obtain ⟨flow, ss'⟩ := r
    cases flow with
    | through => exact raises_foldStmts h ss' rest hs.2
    | returned v => exact ensures_pure trivial
end

end Evaluation

/-! ## Recursion -/

/-- While everything entered leads to what is called, recursion is reported only if there is
some. -/
lemma Job.entering_of_follows {job : Job} {entered called : List String}
    (h : job.functionGraph.Follows entered called) : job.Entering job.Justified entered called := by
  intro c d span hc hd hmem
  rw [name_of_functionGraph_find? hd] at hmem
  exact h.cyclic hc hd hmem

namespace Evaluation

/-- Functions are run one inside the other, each entered by a call from the body of the last. -/
lemma raising_foldCall {job : Job} (entered : List String) {called : List String}
    (h : job.functionGraph.Follows entered called) :
    Runner.Raising (foldCall job entered) job.Justified called := by
  refine ⟨fun _ => Job.justified_of_isPlain, Job.entering_of_follows h, fun {c g} args hc hg => ?_⟩
  have hname : g.name = c := Job.name_of_functionGraph_find? hg
  -- the body is run with one name more entered, so fewer are left
  have hbody := raising_foldCall (g.name :: entered) (hname ▸ h.enter hc hg)
  have hbind := (Scope.raises_bindAll {} g.definition.params args).mono hbody.plain
  rw [foldCall]
  refine ensures_lift_bind hbind fun scope _ => ?_
  refine (raises_foldStmts hbody [scope] g.definition.body fun c hc => hc).bind fun r _ => ?_
  obtain ⟨flow, ss⟩ := r
  cases flow with
  | through => exact ensures_failure
  | returned v =>
    cases v with
    | some d => exact ensures_pure trivial
    | none => exact ensures_failure
termination_by Nesting.remaining job.functionNames entered
decreasing_by exact Inlinable.remaining_lt _

end Evaluation

/-- Evaluation reports recursion only where there is some. -/
lemma Job.raises_evaluate {job : Job} {entered called : List String}
    (h : job.functionGraph.Follows entered called) (ss : Scopes) {e : Expr}
    (he : ∀ c ∈ e.callees, c ∈ called) : Raises job.Justified (job.evaluate ss entered e) :=
  fun _ hp =>
    (Evaluation.raises_foldExpr (Evaluation.raising_foldCall entered h) ss e he).of_error hp

end Arbor
