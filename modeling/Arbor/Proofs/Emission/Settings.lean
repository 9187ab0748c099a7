import Arbor.Emission.Mapping
import Arbor.Proofs.Evaluation.Settings
import Arbor.Proofs.Problem.Ensures

/-!
# Emission and settings

Mappings are compiled in the same way whatever the settings (`Job.compileMappings_configure`): the
evaluator folds the same expressions, and the same code is emitted for the others.
-/

namespace Arbor

namespace Emission

variable {job : Job} {entered : List String} {c : Config} {inline : Inliner job entered}
  {inline' : Inliner (job.configure c) entered}

/-- Calls are inlined in the same way in a job with other settings. -/
def Inliner.Agrees (inline : Inliner job entered) (inline' : Inliner (job.configure c) entered) :
    Prop :=
  ∀ g scope, inline' (g.configure c) scope = inline g scope

lemma accept_configure (c : Config) (load : Bool) (e : Expr) (emit : Emit ValueType) :
    accept (job.configure c) entered load e emit = accept job entered load e emit := by
  simp only [accept, Job.evaluate_configure]

mutual
lemma emitExpr_configure (hinline : inline.Agrees inline') (e : Expr) :
    emitExpr inline' e = emitExpr inline e := by
  match e with
  | .literal d span => rw [emitExpr, emitExpr]
  | .ref name span => rw [emitExpr, emitExpr]
  | .attr target field span => rw [emitExpr, emitExpr]
  | .unary op operand span =>
    rw [emitExpr, emitExpr, accept_configure c, emitExpr_configure hinline operand]
    rfl
  | .binary op left right span =>
    rw [emitExpr, emitExpr, accept_configure c true left, accept_configure c true right,
      emitExpr_configure hinline left, emitExpr_configure hinline right]
    rfl
  | .call name args site span =>
    rw [emitExpr, emitExpr, Job.callee_configure, liftM_map, bind_map_left,
      emitArgs_configure hinline args]
    refine bind_congr fun callee => ?_
    cases callee with
    | builtin o => rfl
    | function d mem =>
      refine bind_congr fun _ => ?_
      rw [Job.enterFunction_configure, liftM_map, bind_map_left]
      refine bind_congr fun g => bind_congr fun σ => ?_
      dsimp only
      rw [emitParams_configure hinline { role := some (.function σ.frames.length) } d.params args]
      exact bind_congr fun scope => hinline g scope
  | .list items span => rw [emitExpr, emitExpr, emitItems_configure hinline items]

lemma emitArgs_configure (hinline : inline.Agrees inline') (es : List Expr) :
    emitArgs inline' es = emitArgs inline es := by
  match es with
  | [] => rw [emitArgs, emitArgs]
  | e :: es =>
    rw [emitArgs, emitArgs, accept_configure c, emitExpr_configure hinline e,
      emitArgs_configure hinline es]

lemma emitItems_configure (hinline : inline.Agrees inline') (es : List Expr) :
    emitItems inline' es = emitItems inline es := by
  match es with
  | [] => rw [emitItems, emitItems]
  | e :: es =>
    rw [emitItems, emitItems, accept_configure c, emitExpr_configure hinline e,
      emitItems_configure hinline es]

lemma emitParams_configure (hinline : inline.Agrees inline') (scope : Scope) (ps : List Ident)
    (es : List Expr) : emitParams inline' scope ps es = emitParams inline scope ps es := by
  match ps, es with
  | [], _ => rw [emitParams, emitParams] <;> simp
  | _ :: _, [] => rw [emitParams, emitParams] <;> simp
  | p :: ps, e :: es =>
    rw [emitParams, emitParams, accept_configure c, emitExpr_configure hinline e]
    refine bind_congr fun v => ?_
    cases v with
    | known d => exact bind_congr fun scope => emitParams_configure hinline scope ps es
    | runtime type =>
      exact bind_congr fun slot => bind_congr fun scope => bind_congr fun _ =>
        emitParams_configure hinline scope ps es
end

lemma acceptExpr_configure (hinline : inline.Agrees inline') (load : Bool) (e : Expr) :
    acceptExpr inline' load e = acceptExpr inline load e := by
  rw [acceptExpr, acceptExpr, accept_configure c, emitExpr_configure hinline]

lemma emitCond_configure (hinline : inline.Agrees inline') (cond : Expr) :
    emitCond inline' cond = emitCond inline cond := by
  rw [emitCond, emitCond, acceptExpr_configure hinline]

mutual
lemma emitStmt_configure (hinline : inline.Agrees inline') (s : Stmt) :
    emitStmt inline' s = emitStmt inline s := by
  match s with
  | .block body => rw [emitStmt, emitStmt, emitStmts_configure hinline body]
  | .define qualifier name value =>
    cases qualifier <;> rw [emitStmt, emitStmt, acceptExpr_configure hinline] <;> simp
  | .assign name value => rw [emitStmt, emitStmt, acceptExpr_configure hinline]
  | .ret none => rw [emitStmt, emitStmt]
  | .ret (some value) => rw [emitStmt, emitStmt, acceptExpr_configure hinline]
  | .ifThen cond yes =>
    rw [emitStmt, emitStmt, emitCond_configure hinline, emitStmts_configure hinline yes]
  | .ifElse cond yes no =>
    rw [emitStmt, emitStmt, emitCond_configure hinline, emitStmts_configure hinline yes,
      emitStmts_configure hinline no]
  | .loop name items body =>
    rw [emitStmt, emitStmt, acceptExpr_configure hinline, emitStmts_configure hinline body]
  | .fail message span => rw [emitStmt, emitStmt, acceptExpr_configure hinline]
  | .expr value => rw [emitStmt, emitStmt, acceptExpr_configure hinline]

lemma emitStmts_configure (hinline : inline.Agrees inline') (body : List Stmt) :
    emitStmts inline' body = emitStmts inline body := by
  match body with
  | [] => rw [emitStmts, emitStmts]
  | s :: ss =>
    rw [emitStmts, emitStmts, emitStmt_configure hinline s, emitStmts_configure hinline ss]
end

lemma emitCall_configure (job : Job) (c : Config) (entered : List String)
    (g : Inlinable job entered) (scope : Scope) :
    emitCall (job.configure c) entered (g.configure c) scope = emitCall job entered g scope := by
  rw [emitCall, emitCall]
  have hbody := emitStmts_configure (emitCall_configure job c (g.name :: entered)) g.definition.body
  exact congrArg (fun body => Emit.inFrame g.name scope body >>= _) hbody
termination_by Nesting.remaining job.functionNames entered
decreasing_by exact Inlinable.remaining_lt _

end Emission

/-! ## Mappings -/

namespace Job

variable (job : Job) (c : Config)

lemma emitStmts_configure (body : List Stmt) :
    (job.configure c).emitStmts body = job.emitStmts body := by
  funext σ
  exact congrFun
    (Emission.emitStmts_configure (Emission.emitCall_configure job c σ.inlining) body) σ

lemma compileMapping_configure (m : MappingDef) :
    (job.configure c).compileMapping m = job.compileMapping m := by
  unfold compileMapping emitMapping
  rw [emitStmts_configure]

lemma compileEach_configure (labels : Pool String) (ms : List MappingDef) :
    (job.configure c).compileEach labels ms = job.compileEach labels ms := by
  induction ms with
  | nil => rfl
  | cons m ms ih => rw [compileEach, compileEach, compileMapping_configure, ih]

/-- Mappings are compiled in the same way whatever the settings. -/
theorem compileMappings_configure (labels : Pool String) :
    (job.configure c).compileMappings labels = job.compileMappings labels := by
  rw [compileMappings, compileMappings, compileEach_configure]

end Job

end Arbor
