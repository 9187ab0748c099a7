import Arbor.Evaluation
import Mathlib.Tactic.Lemma

/-!
# Substitution of data for names

`Expr.subst σ` writes the datum that `σ` gives a name wherever an expression refers to that name, at
the place of the reference.  Evaluating the result is evaluating the expression in scopes that bind
the names to these data (`Evaluation.foldExpr_subst`, `Job.evaluate_subst`).
-/

namespace Arbor

/-- Data for some of the names. -/
abbrev Substitution := String → Option Datum

mutual
/-- The expression with data written for the names that refer to them. -/
def Expr.subst (σ : Substitution) : Expr → Expr
  | .literal d span => .literal d span
  | .ref name span =>
    match σ name.name with
    | some d => .literal d span
    | none => .ref name span
  | .attr target field span => .attr target field span
  | .unary op operand span => .unary op (operand.subst σ) span
  | .binary op left right span => .binary op (left.subst σ) (right.subst σ) span
  | .call callee args site span => .call callee (Expr.substAll σ args) site span
  | .list items span => .list (Expr.substAll σ items) span

/-- The expressions with data written for the names that refer to them. -/
def Expr.substAll (σ : Substitution) : List Expr → List Expr
  | [] => []
  | e :: es => e.subst σ :: Expr.substAll σ es
end

variable {σ : Substitution}

@[simp] lemma Expr.span_subst (e : Expr) : (e.subst σ).span = e.span := by
  cases e with
  | ref name span =>
    rw [subst]
    split <;> rfl
  | _ => rfl

@[simp] lemma Expr.length_substAll (es : List Expr) :
    (Expr.substAll σ es).length = es.length := by
  induction es with
  | nil => rfl
  | cons e es ih => rw [Expr.substAll, List.length_cons, List.length_cons, ih]

/-! ## Evaluation -/

/-- The scopes `ss` bind what `σ` gives data for to these data, and all else as `ss'` does. -/
structure Substitution.Replaces (σ : Substitution) (ss ss' : Scopes) : Prop where
  bound : ∀ {x d}, σ x = some d → ∃ f, Scopes.find? ss x = some (.constant d f)
  free : ∀ {x}, σ x = none → Scopes.find? ss' x = Scopes.find? ss x

namespace Evaluation

variable {job : Job} {entered : List String} {run : Runner job entered} {ss ss' : Scopes}

lemma foldExpr_subst_ref (h : σ.Replaces ss ss') (name : Ident) (span : Span) :
    foldExpr run ss' ((Expr.ref name span).subst σ) = foldExpr run ss (.ref name span) := by
  rw [Expr.subst]
  split
  · next d hd =>
    obtain ⟨f, hfind⟩ := h.bound hd
    rw [foldExpr, foldExpr, Scopes.lookup_eq_ok_iff.2 hfind]
    rfl
  · next hnone => rw [foldExpr, foldExpr, Scopes.lookup, Scopes.lookup, h.free hnone]

mutual
lemma foldExpr_subst (h : σ.Replaces ss ss') (e : Expr) :
    foldExpr run ss' (e.subst σ) = foldExpr run ss e := by
  match e with
  | .literal d span => rw [Expr.subst, foldExpr, foldExpr]
  | .ref name span => exact foldExpr_subst_ref h name span
  | .attr target field span => rw [Expr.subst, foldExpr, foldExpr]
  | .unary op operand span => rw [Expr.subst, foldExpr, foldExpr, foldExpr_subst h operand]
  | .binary op left right span =>
    rw [Expr.subst, foldExpr, foldExpr, foldExpr_subst h left, foldExpr_subst h right]
  | .call callee args site span =>
    rw [Expr.subst, foldExpr, foldExpr, foldArgs_subst h args, Expr.length_substAll]
  | .list items span => rw [Expr.subst, foldExpr, foldExpr, foldItems_subst h items]

lemma foldArgs_subst (h : σ.Replaces ss ss') (es : List Expr) :
    foldArgs run ss' (Expr.substAll σ es) = foldArgs run ss es := by
  match es with
  | [] => rw [Expr.substAll, foldArgs, foldArgs]
  | e :: es =>
    rw [Expr.substAll, foldArgs, foldArgs, foldExpr_subst h e, foldArgs_subst h es]

lemma foldItems_subst (h : σ.Replaces ss ss') (es : List Expr) :
    foldItems run ss' (Expr.substAll σ es) = foldItems run ss es := by
  match es with
  | [] => rw [Expr.substAll, foldItems, foldItems]
  | e :: es =>
    rw [Expr.substAll, foldItems, foldItems, foldExpr_subst h e, Expr.span_subst,
      foldItems_subst h es]
end

end Evaluation

/-- Writing data for the names that are bound to them changes neither the value nor the problem of
an expression. -/
lemma Job.evaluate_subst (job : Job) {ss ss' : Scopes} (h : σ.Replaces ss ss')
    (entered : List String) (e : Expr) :
    job.evaluate ss' entered (e.subst σ) = job.evaluate ss entered e := by
  rw [Job.evaluate, Job.evaluate, Evaluation.foldExpr_subst h]

end Arbor
