import Arbor.Proofs.Builtin.Resolution
import Arbor.Proofs.Problem.Parallel
import Arbor.Proofs.Scope.Renaming

/-!
# Evaluation and local names

Two jobs mirror each other if their functions are the same but for local names, which may be changed
in each function on its own (`Job.Mirrors`).  Expressions then evaluate to the same data in scopes
that bind the new names, and meet the same problems (`Job.Mirrors.evaluate_rename`).
-/

namespace Arbor

/-- A function under some injective renaming. -/
def FunctionDef.Mirrors (d d' : FunctionDef) : Prop :=
  ∃ ρ : String → String, Function.Injective ρ ∧ d' = d.rename ρ

lemma FunctionDef.Mirrors.refl (d : FunctionDef) : d.Mirrors d :=
  ⟨id, Function.injective_id, d.rename_id.symm⟩

/-- The builtins are the same, and each name refers to functions that differ in their local names
only. -/
structure Job.Mirrors (job job' : Job) : Prop where
  builtins : job'.builtins = job.builtins
  function? : ∀ name, Option.Rel FunctionDef.Mirrors (job.file.function? name)
    (job'.file.function? name)

lemma Job.Mirrors.refl (job : Job) : job.Mirrors job where
  builtins := rfl
  function? name := by
    cases job.file.function? name with
    | none => exact .none
    | some d => exact .some (.refl d)

variable {job job' : Job} {entered : List String}

/-! ## Resolution -/

/-- Calls refer to the same builtin, or to functions that mirror each other. -/
inductive Callee.Mirrors : Callee job → Callee job' → Prop
  | builtin {o : Overloads} (h : o.candidates ⊆ job.builtins.entries) :
      Callee.Mirrors (.builtin o) (.builtin o)
  | function {d d' : FunctionDef} {mem : d ∈ job.file.functions} {mem' : d' ∈ job'.file.functions}
      (h : d.Mirrors d') : Callee.Mirrors (.function d mem) (.function d' mem')

lemma Builtins.subset_of_overloads? {t : Builtins} {name : String} {o : Overloads}
    (h : t.overloads? name = some o) : o.candidates ⊆ t.entries := by
  rw [(overloads?_eq_some h).2]
  exact List.filter_subset_self _

namespace Job

lemma Mirrors.callee (h : job.Mirrors job') (name : Ident) :
    Alike Callee.Mirrors (job.callee name) (job'.callee name) := by
  unfold Job.callee
  rw [h.builtins]
  cases hover : job.builtins.overloads? name.name with
  | some o => exact .ok (.builtin (Builtins.subset_of_overloads? hover))
  | none =>
    have hrel := h.function? name.name
    dsimp only
    split
    · next d hd =>
      split
      · next d' hd' =>
        rw [hd, hd'] at hrel
        cases hrel with
        | some hmirror => exact .ok (.function hmirror)
      · next hd' =>
        rw [hd, hd'] at hrel
        cases hrel
    · next hd =>
      split
      · next d' hd' =>
        rw [hd, hd'] at hrel
        cases hrel
      · exact .error _

lemma Mirrors.operator (h : job.Mirrors job') (symbol : String) :
    job'.operator symbol = job.operator symbol := by
  rw [Job.operator, Job.operator, h.builtins]

lemma subset_of_operator {symbol : String} {o : Overloads} (h : job.operator symbol = .ok o) :
    o.candidates ⊆ job.builtins.entries :=
  Builtins.subset_of_overloads? (operator_eq_ok_iff.1 h)

/-- Functions that mirror each other are admitted together. -/
lemma alike_enterFunction {d d' : FunctionDef} (h : d.Mirrors d') (mem : d ∈ job.file.functions)
    (mem' : d' ∈ job'.file.functions) (span : Span) :
    Alike (fun g g' => g.definition = d ∧ g'.definition = d')
      (enterFunction d mem span : Except Problem (Inlinable job entered))
      (enterFunction d' mem' span : Except Problem (Inlinable job' entered)) := by
  have hident : d'.ident = d.ident := by
    obtain ⟨ρ, -, rfl⟩ := h
    rfl
  unfold enterFunction
  by_cases hin : d.ident.name ∈ entered
  · have hin' : d'.ident.name ∈ entered := hident ▸ hin
    rw [dif_pos hin, dif_pos hin']
    exact .error _
  · have hin' : d'.ident.name ∉ entered := hident ▸ hin
    rw [dif_neg hin, dif_neg hin']
    exact .ok ⟨rfl, rfl⟩

end Job

lemma FunctionDef.Mirrors.length_params {d d' : FunctionDef} (h : d.Mirrors d') :
    d'.params.length = d.params.length := by
  obtain ⟨ρ, -, rfl⟩ := h
  exact List.length_map _

/-! ## Folding -/

namespace Evaluation

/-- Checks that end alike are followed by the same. -/
lemma Alike.fold_bind {α β γ : Type} {V : α → β → Prop} {x : Except Problem α}
    {y : Except Problem β} {f : α → Fold γ} {g : β → Fold γ} (h : Alike V x y)
    (hf : ∀ a b, V a b → g b = f a) : (liftM y >>= g : Fold γ) = liftM x >>= f := by
  cases h with
  | ok hV => exact hf _ _ hV
  | error p => rfl

variable {run : Runner job entered} {run' : Runner job' entered} {ρ : String → String}

/-- Functions that mirror each other mean the same. -/
def Runner.Mirrors (run : Runner job entered) (run' : Runner job' entered) : Prop :=
  ∀ g g' args, g.definition.Mirrors g'.definition → run' g' args = run g args

mutual
lemma foldExpr_rename (hjob : job.Mirrors job') (hrun : run.Mirrors run')
    (hρ : Function.Injective ρ) (ss : Scopes) (e : Expr) :
    foldExpr run' (ss.rename ρ) (e.rename ρ) = foldExpr run ss e := by
  match e with
  | .literal d span => rw [Expr.rename, foldExpr, foldExpr]
  | .ref name span => rw [Expr.rename, foldExpr, foldExpr, Scopes.lookup_rename hρ]
  | .attr target field span => rw [Expr.rename, foldExpr, foldExpr]
  | .unary op operand span =>
    rw [Expr.rename, foldExpr, foldExpr, foldExpr_rename hjob hrun hρ ss operand, hjob.operator]
  | .binary op left right span =>
    rw [Expr.rename, foldExpr, foldExpr, foldExpr_rename hjob hrun hρ ss left,
      foldExpr_rename hjob hrun hρ ss right, hjob.operator]
  | .call name args site span =>
    rw [Expr.rename, foldExpr, foldExpr, foldArgs_rename hjob hrun hρ ss args,
      Expr.length_renameAll]
    refine Alike.fold_bind (hjob.callee name) fun callee callee' hcallee => ?_
    cases hcallee with
    | builtin _ => rfl
    | @function d d' mem mem' hmirror =>
      dsimp only
      rw [hmirror.length_params]
      refine bind_congr fun _ => ?_
      refine Alike.fold_bind (Job.alike_enterFunction hmirror mem mem' name.span) ?_
      rintro g g' ⟨rfl, rfl⟩
      exact bind_congr fun data => hrun g g' data hmirror
  | .list items span => rw [Expr.rename, foldExpr, foldExpr, foldItems_rename hjob hrun hρ ss items]

lemma foldArgs_rename (hjob : job.Mirrors job') (hrun : run.Mirrors run')
    (hρ : Function.Injective ρ) (ss : Scopes) (es : List Expr) :
    foldArgs run' (ss.rename ρ) (Expr.renameAll ρ es) = foldArgs run ss es := by
  match es with
  | [] => rw [Expr.renameAll, foldArgs, foldArgs]
  | e :: es =>
    rw [Expr.renameAll, foldArgs, foldArgs, foldExpr_rename hjob hrun hρ ss e,
      foldArgs_rename hjob hrun hρ ss es]

lemma foldItems_rename (hjob : job.Mirrors job') (hrun : run.Mirrors run')
    (hρ : Function.Injective ρ) (ss : Scopes) (es : List Expr) :
    foldItems run' (ss.rename ρ) (Expr.renameAll ρ es) = foldItems run ss es := by
  match es with
  | [] => rw [Expr.renameAll, foldItems, foldItems]
  | e :: es =>
    rw [Expr.renameAll, foldItems, foldItems, foldExpr_rename hjob hrun hρ ss e,
      foldItems_rename hjob hrun hρ ss es, Expr.span_rename]
end

lemma foldCond_rename (hjob : job.Mirrors job') (hrun : run.Mirrors run')
    (hρ : Function.Injective ρ) (ss : Scopes) (cond : Expr) :
    foldCond run' (ss.rename ρ) (cond.rename ρ) = foldCond run ss cond := by
  rw [foldCond, foldCond, foldExpr_rename hjob hrun hρ, Expr.span_rename]

/-- How statements end, with the names of the scopes after them changed. -/
abbrev renameFlow (ρ : String → String) : Flow × Scopes → Flow × Scopes :=
  Prod.map id (Scopes.rename ρ)

/-- What follows statements in a scope of their own. -/
lemma bind_tail_rename {x x' : Fold (Flow × Scopes)} (h : x' = renameFlow ρ <$> x) :
    (do
      let (flow, inner) ← x'
      pure (flow, inner.tail))
      = renameFlow ρ <$> (do
        let (flow, inner) ← x
        pure (flow, inner.tail)) := by
  rw [h, bind_map_left, map_bind]
  refine bind_congr fun r => ?_
  rw [map_pure]
  exact congrArg (fun inner => pure (r.1, inner)) (Scopes.tail_rename r.2)

mutual
lemma foldStmt_rename (hjob : job.Mirrors job') (hrun : run.Mirrors run')
    (hρ : Function.Injective ρ) (ss : Scopes) (s : Stmt) :
    foldStmt run' (ss.rename ρ) (s.rename ρ) = renameFlow ρ <$> foldStmt run ss s := by
  match s with
  | .block body =>
    rw [Stmt.rename, foldStmt, foldStmt]
    exact bind_tail_rename (foldStmts_rename hjob hrun hρ ({} :: ss) body)
  | .define qualifier name value =>
    rw [Stmt.rename, foldStmt, foldStmt, foldExpr_rename hjob hrun hρ, map_bind]
    refine bind_congr fun d => ?_
    rw [Scopes.define_rename hρ, liftM_map, bind_map_left, map_bind]
    rfl
  | .assign name value =>
    rw [Stmt.rename, foldStmt, foldStmt, foldExpr_rename hjob hrun hρ, map_bind]
    refine bind_congr fun d => ?_
    rw [Scopes.assign_rename hρ, liftM_map, bind_map_left, map_bind]
    rfl
  | .ret none => rw [Stmt.rename, foldStmt, foldStmt, map_pure]; rfl
  | .ret (some value) =>
    rw [Stmt.rename, foldStmt, foldStmt, foldExpr_rename hjob hrun hρ, map_bind]
    rfl
  | .ifThen cond yes =>
    rw [Stmt.rename, foldStmt, foldStmt, foldCond_rename hjob hrun hρ, map_bind]
    refine bind_congr fun b => ?_
    cases b with
    | true => exact bind_tail_rename (foldStmts_rename hjob hrun hρ ({} :: ss) yes)
    | false => rfl
  | .ifElse cond yes no =>
    rw [Stmt.rename, foldStmt, foldStmt, foldCond_rename hjob hrun hρ, map_bind]
    refine bind_congr fun b => ?_
    cases b with
    | true => exact bind_tail_rename (foldStmts_rename hjob hrun hρ ({} :: ss) yes)
    | false => exact bind_tail_rename (foldStmts_rename hjob hrun hρ ({} :: ss) no)
  | .loop name items body =>
    rw [Stmt.rename, foldStmt, foldStmt]
    rfl
  | .fail message span =>
    rw [Stmt.rename, foldStmt, foldStmt, foldExpr_rename hjob hrun hρ, map_bind, Expr.span_rename]
    refine bind_congr fun d => ?_
    cases d <;> rfl
  | .expr value =>
    rw [Stmt.rename, foldStmt, foldStmt, foldExpr_rename hjob hrun hρ, map_bind]
    rfl

lemma foldStmts_rename (hjob : job.Mirrors job') (hrun : run.Mirrors run')
    (hρ : Function.Injective ρ) (ss : Scopes) (body : List Stmt) :
    foldStmts run' (ss.rename ρ) (Stmt.renameAll ρ body)
      = renameFlow ρ <$> foldStmts run ss body := by
  match body with
  | [] =>
    rw [Stmt.renameAll, foldStmts, foldStmts, map_pure]
    rfl
  | s :: body =>
    rw [Stmt.renameAll, foldStmts, foldStmts, foldStmt_rename hjob hrun hρ ss s, bind_map_left,
      map_bind]
    refine bind_congr fun r => ?_
    obtain ⟨flow, ss'⟩ := r
    cases flow with
    | through => exact foldStmts_rename hjob hrun hρ ss' body
    | returned value => rfl
end

lemma foldCall_mirrors (hjob : job.Mirrors job') (entered : List String) :
    Runner.Mirrors (foldCall job entered) (foldCall job' entered) := by
  intro g g' args hg
  obtain ⟨ρ, hρ, hdef⟩ := hg
  have hname : g'.name = g.name := by
    rw [Inlinable.name, hdef]
    rfl
  rw [foldCall, foldCall, hdef, hname]
  have hparams : Scope.bindAll {} (g.definition.rename ρ).params args
      = Scope.rename ρ <$> Scope.bindAll {} g.definition.params args :=
    Scope.bindAll_rename hρ {} g.definition.params args
  rw [hparams, liftM_map, bind_map_left]
  refine bind_congr fun scope => ?_
  have hbody := foldStmts_rename hjob (foldCall_mirrors hjob (g.name :: entered)) hρ [scope]
    g.definition.body
  have hstep : foldStmts (foldCall job' (g.name :: entered)) [scope.rename ρ]
      (g.definition.rename ρ).body = _ := hbody
  rw [hstep, bind_map_left]
  refine bind_congr fun r => ?_
  obtain ⟨flow, ss⟩ := r
  cases flow with
  | through => rfl
  | returned value => cases value <;> rfl
termination_by Nesting.remaining job.functionNames entered
decreasing_by exact Inlinable.remaining_lt _

end Evaluation

/-- Expressions evaluate alike where names have been changed. -/
theorem Job.Mirrors.evaluate_rename (h : job.Mirrors job') {ρ : String → String}
    (hρ : Function.Injective ρ) (ss : Scopes) (entered : List String) (e : Expr) :
    job'.evaluate (ss.rename ρ) entered (e.rename ρ) = job.evaluate ss entered e := by
  rw [evaluate, evaluate,
    Evaluation.foldExpr_rename h (Evaluation.foldCall_mirrors h entered) hρ]

end Arbor
