import Arbor.Evaluation
import Mathlib.Tactic.Lemma

/-!
# Evaluation and settings

Settings switch optimizations of the constraint.  Nothing else looks at them: a name refers to the
same definition in a job with other settings (`Job.configure`), and expressions evaluate to the same
data (`Job.evaluate_configure`).
-/

namespace Arbor

/-- The job with other settings. -/
abbrev Job.configure (job : Job) (c : Config) : Job := { job with config := c }

variable {job : Job} {entered : List String}

/-! ## Resolution -/

/-- What a call refers to, in a job with other settings. -/
def Callee.configure (c : Config) : Callee job → Callee (job.configure c)
  | .builtin o => .builtin o
  | .function d mem => .function d mem

/-- A function, in a job with other settings. -/
def Inlinable.configure (c : Config) (g : Inlinable job entered) :
    Inlinable (job.configure c) entered :=
  ⟨g.definition, g.mem, g.notEntered⟩

namespace Job

lemma callee_configure (job : Job) (c : Config) (name : Ident) :
    (job.configure c).callee name = Callee.configure c <$> job.callee name := by
  unfold callee
  cases job.builtins.overloads? name.name with
  | some o => rfl
  | none =>
    dsimp only
    split <;> rfl

lemma enterFunction_configure (c : Config) {d : FunctionDef} (mem : d ∈ job.file.functions)
    (span : Span) :
    (enterFunction d mem span : Except Problem (Inlinable (job.configure c) entered))
      = Inlinable.configure c <$> enterFunction d mem span := by
  unfold enterFunction
  split <;> rfl

end Job

/-! ## Folding -/

namespace Evaluation

variable {c : Config} {run : Runner job entered} {run' : Runner (job.configure c) entered}

/-- Calls mean the same in a job with other settings. -/
def Runner.Agrees (run : Runner job entered) (run' : Runner (job.configure c) entered) : Prop :=
  ∀ g args, run' (g.configure c) args = run g args

mutual
lemma foldExpr_configure (hrun : run.Agrees run') (scopes : Scopes) (e : Expr) :
    foldExpr run' scopes e = foldExpr run scopes e := by
  match e with
  | .literal d span => rw [foldExpr, foldExpr]
  | .ref name span => rw [foldExpr, foldExpr]
  | .attr target field span => rw [foldExpr, foldExpr]
  | .unary op operand span =>
    rw [foldExpr, foldExpr, foldExpr_configure hrun scopes operand]
    rfl
  | .binary op left right span =>
    rw [foldExpr, foldExpr, foldExpr_configure hrun scopes left,
      foldExpr_configure hrun scopes right]
    rfl
  | .call name args site span =>
    rw [foldExpr, foldExpr, Job.callee_configure, liftM_map, bind_map_left,
      foldArgs_configure hrun scopes args]
    refine bind_congr fun callee => ?_
    cases callee with
    | builtin o => rfl
    | function d mem =>
      refine bind_congr fun _ => ?_
      rw [Job.enterFunction_configure, liftM_map, bind_map_left]
      exact bind_congr fun g => bind_congr fun data => hrun g data
  | .list items span => rw [foldExpr, foldExpr, foldItems_configure hrun scopes items]

lemma foldArgs_configure (hrun : run.Agrees run') (scopes : Scopes) (es : List Expr) :
    foldArgs run' scopes es = foldArgs run scopes es := by
  match es with
  | [] => rw [foldArgs, foldArgs]
  | e :: es =>
    rw [foldArgs, foldArgs, foldExpr_configure hrun scopes e, foldArgs_configure hrun scopes es]

lemma foldItems_configure (hrun : run.Agrees run') (scopes : Scopes) (es : List Expr) :
    foldItems run' scopes es = foldItems run scopes es := by
  match es with
  | [] => rw [foldItems, foldItems]
  | e :: es =>
    rw [foldItems, foldItems, foldExpr_configure hrun scopes e, foldItems_configure hrun scopes es]
end

lemma foldCond_configure (hrun : run.Agrees run') (scopes : Scopes) (cond : Expr) :
    foldCond run' scopes cond = foldCond run scopes cond := by
  rw [foldCond, foldCond, foldExpr_configure hrun]

mutual
lemma foldStmt_configure (hrun : run.Agrees run') (scopes : Scopes) (s : Stmt) :
    foldStmt run' scopes s = foldStmt run scopes s := by
  match s with
  | .block body => rw [foldStmt, foldStmt, foldStmts_configure hrun ({} :: scopes) body]
  | .define qualifier name value => rw [foldStmt, foldStmt, foldExpr_configure hrun]
  | .assign name value => rw [foldStmt, foldStmt, foldExpr_configure hrun]
  | .ret none => rw [foldStmt, foldStmt]
  | .ret (some value) => rw [foldStmt, foldStmt, foldExpr_configure hrun]
  | .ifThen cond yes =>
    rw [foldStmt, foldStmt, foldCond_configure hrun, foldStmts_configure hrun ({} :: scopes) yes]
  | .ifElse cond yes no =>
    rw [foldStmt, foldStmt, foldCond_configure hrun, foldStmts_configure hrun ({} :: scopes) yes,
      foldStmts_configure hrun ({} :: scopes) no]
  | .loop name items body => rw [foldStmt, foldStmt]
  | .fail message span => rw [foldStmt, foldStmt, foldExpr_configure hrun]
  | .expr value => rw [foldStmt, foldStmt, foldExpr_configure hrun]

lemma foldStmts_configure (hrun : run.Agrees run') (scopes : Scopes) (body : List Stmt) :
    foldStmts run' scopes body = foldStmts run scopes body := by
  match body with
  | [] => rw [foldStmts, foldStmts]
  | s :: ss =>
    rw [foldStmts, foldStmts, foldStmt_configure hrun scopes s]
    refine bind_congr fun step => ?_
    obtain ⟨flow, scopes⟩ := step
    cases flow with
    | through => exact foldStmts_configure hrun scopes ss
    | returned value => rfl
end

lemma foldCall_configure (job : Job) (c : Config) (entered : List String)
    (g : Inlinable job entered) (args : List Datum) :
    foldCall (job.configure c) entered (g.configure c) args = foldCall job entered g args := by
  rw [foldCall, foldCall]
  refine bind_congr fun scope => ?_
  have hbody := foldStmts_configure (foldCall_configure job c (g.name :: entered)) [scope]
    g.definition.body
  exact congrArg (· >>= _) hbody
termination_by Nesting.remaining job.functionNames entered
decreasing_by exact Inlinable.remaining_lt _

end Evaluation

/-- Expressions evaluate to the same data whatever the settings. -/
theorem Job.evaluate_configure (job : Job) (c : Config) (scopes : Scopes) (entered : List String)
    (e : Expr) : (job.configure c).evaluate scopes entered e = job.evaluate scopes entered e := by
  rw [evaluate, evaluate,
    Evaluation.foldExpr_configure (Evaluation.foldCall_configure job c entered)]

end Arbor
