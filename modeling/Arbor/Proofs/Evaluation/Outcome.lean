import Arbor.Evaluation
import Mathlib.Tactic.Lemma

/-!
# Outcomes of evaluation

Folding comes to a result (`Fold.Yields`), to none, or to a problem.

* `Fold.Stands`: what one folding comes to, another does.
* `Evaluation.stands_foldExpr`: expressions stand if their names do, so what folds in some scopes
  folds to the same in scopes that know more data (`Evaluation.yields_of_refines`).
* `Evaluation.yields_of_call`, `Evaluation.yields_of_foldCall`: calls that fold have folded their
  arguments and returned from the body.
* `Fold.Ensures`: what holds of the outcome, along the text of a folding.
-/

namespace Arbor

/-! ## Results of folding -/

namespace Fold

variable {α β : Type} {a : α} {b : β} {x : Fold α} {f : α → Fold β}
  {Q : α → Prop} {R : β → Prop} {E : Problem → Prop}

/-- Folding comes to a result. -/
def Yields (x : Fold α) (a : α) : Prop := x.run = .ok (some a)

lemma run_bind (x : Fold α) (f : α → Fold β) :
    (x >>= f).run = match x.run with
      | .ok (some a) => (f a).run
      | .ok none => .ok none
      | .error p => .error p := by
  have hbind : (x >>= f).run = x.run >>= fun
      | some a => (f a).run
      | none => pure none := rfl
  rw [hbind]
  cases x.run with
  | error p => rfl
  | ok r => cases r <;> rfl

@[simp] lemma yields_pure {a' : α} : Yields (pure a) a' ↔ a = a' := by
  change (Except.ok (some a) : Except Problem (Option α)) = _ ↔ _
  simp

@[simp] lemma yields_bind : Yields (x >>= f) b ↔ ∃ a, Yields x a ∧ Yields (f a) b := by
  unfold Yields
  rw [run_bind]
  rcases hx : x.run with p | (_ | a) <;> simp

@[simp] lemma yields_lift {e : Except Problem α} : Yields (liftM e) a ↔ e = .ok a := by
  cases e with
  | error p =>
    change (Except.error p : Except Problem (Option α)) = _ ↔ _
    simp
  | ok a' =>
    change (Except.ok (some a') : Except Problem (Option α)) = _ ↔ _
    simp

@[simp] lemma yields_mk {e : Except Problem (Option α)} :
    Yields (OptionT.mk e) a ↔ e = .ok (some a) :=
  Iff.rfl

@[simp] lemma not_yields_failure : ¬ Yields (failure : Fold α) a := by
  change ¬ (Except.ok none : Except Problem (Option α)) = _
  simp

@[simp] lemma not_yields_throw {p : Problem} : ¬ Yields (throwThe Problem p : Fold α) a := by
  change ¬ (Except.error p : Except Problem (Option α)) = _
  simp

lemma Yields.eq {a' : α} (h : Yields x a) (h' : Yields x a') : a = a' := by
  cases h.symm.trans h'
  rfl

/-- What holds of the outcome of folding: of its result if it has one, or of its problem. -/
def Ensures (x : Fold α) (Q : α → Prop) (E : Problem → Prop) : Prop :=
  match x.run with
  | .ok (some a) => Q a
  | .ok none => True
  | .error p => E p

lemma Ensures.of_yields (h : Ensures x Q E) (hx : Yields x a) : Q a := by
  rw [Yields] at hx
  rwa [Ensures, hx] at h

lemma Ensures.of_error {p : Problem} (h : Ensures x Q E) (hx : x.run = .error p) : E p := by
  rwa [Ensures, hx] at h

lemma ensures_pure (h : Q a) : Ensures (pure a) Q E := h

lemma ensures_failure : Ensures (failure : Fold α) Q E := trivial

lemma ensures_throw {p : Problem} (h : E p) : Ensures (throwThe Problem p : Fold α) Q E := h

lemma ensures_mk {e : Except Problem (Option α)} (herr : ∀ p, e = .error p → E p)
    (hok : ∀ a, e = .ok (some a) → Q a) : Ensures (OptionT.mk e) Q E := by
  rcases e with p | (_ | a)
  · exact herr p rfl
  · trivial
  · exact hok a rfl

/-- One folding and then another: the second may use what the first ensures. -/
lemma Ensures.bind (h : Ensures x Q E) (hf : ∀ a, Q a → Ensures (f a) R E) :
    Ensures (x >>= f) R E := by
  unfold Ensures at h ⊢
  rw [run_bind]
  rcases hx : x.run with p | (_ | a) <;> rw [hx] at h
  · exact h
  · trivial
  · exact hf a h

lemma ensures_lift_bind {e : Except Problem α} (herr : ∀ p, e = .error p → E p)
    (hok : ∀ a, e = .ok a → Ensures (f a) R E) : Ensures (liftM e >>= f) R E := by
  unfold Ensures
  rw [run_bind]
  cases e with
  | error p => exact herr p rfl
  | ok a => exact hok a rfl

lemma run_bind_eq_error_iff {p : Problem} :
    (x >>= f).run = .error p ↔ x.run = .error p ∨ ∃ a, Yields x a ∧ (f a).run = .error p := by
  unfold Yields
  rw [run_bind]
  rcases hx : x.run with q | (_ | a) <;> simp

/-- What one folding comes to, another does: its result, and its problem if that is in `E`. -/
structure Stands (E : Problem → Prop) (x y : Fold α) : Prop where
  result : ∀ {a : α}, Yields x a → Yields y a
  problem : ∀ {p : Problem}, E p → x.run = .error p → y.run = .error p

lemma Stands.refl (x : Fold α) : Stands E x x := ⟨id, fun _ => id⟩

lemma stands_failure (y : Fold α) : Stands E failure y :=
  ⟨fun h => absurd h not_yields_failure, fun _ h => by cases h⟩

/-- One folding and then another, both of which stand. -/
lemma Stands.bind {y : Fold α} {g : α → Fold β} (h : Stands E x y)
    (hf : ∀ a, Stands E (f a) (g a)) : Stands E (x >>= f) (y >>= g) where
  result hb := by
    obtain ⟨a, ha, hb⟩ := yields_bind.1 hb
    exact yields_bind.2 ⟨a, h.result ha, (hf a).result hb⟩
  problem hp hx := by
    rcases run_bind_eq_error_iff.1 hx with hx | ⟨a, ha, hfa⟩
    · exact run_bind_eq_error_iff.2 (.inl (h.problem hp hx))
    · exact run_bind_eq_error_iff.2 (.inr ⟨a, h.result ha, (hf a).problem hp hfa⟩)

end Fold

/-! ## More data, same results -/

/-- Every datum known in some scopes is known in others, under the same name. -/
def Scopes.Refines (ss ss' : Scopes) : Prop :=
  ∀ {name : String} {d : Datum} {f : Bool}, find? ss name = some (.constant d f) →
    ∃ f', find? ss' name = some (.constant d f')

namespace Evaluation

open Fold

variable {job : Job} {entered : List String} {run : Runner job entered} {ss ss' : Scopes}
  {E : Problem → Prop}

lemma yields_ref_iff {name : Ident} {span : Span} {d : Datum} :
    (foldExpr run ss (.ref name span)).Yields d ↔
      ∃ f, Scopes.find? ss name.name = some (.constant d f) := by
  rw [foldExpr, yields_bind]
  constructor
  · rintro ⟨b, hb, hd⟩
    rw [yields_lift, Scopes.lookup_eq_ok_iff] at hb
    cases b with
    | constant d' f =>
      cases yields_pure.1 hd
      exact ⟨f, hb⟩
    | stored t slot f => exact absurd hd not_yields_failure
  · rintro ⟨f, hf⟩
    exact ⟨.constant d f, yields_lift.2 (Scopes.lookup_eq_ok_iff.2 hf), yields_pure.2 rfl⟩

/-- What names come to in some scopes, they come to in others. -/
def NamesStand (run : Runner job entered) (E : Problem → Prop) (ss ss' : Scopes) : Prop :=
  ∀ name span, Stands E (foldExpr run ss (.ref name span)) (foldExpr run ss' (.ref name span))

mutual
/-- Scopes matter to an expression through its names only: it stands if these do. -/
lemma stands_foldExpr (h : NamesStand run E ss ss') (e : Expr) :
    Stands E (foldExpr run ss e) (foldExpr run ss' e) := by
  match e with
  | .literal _ _ =>
    rw [foldExpr, foldExpr]
    exact .refl _
  | .ref name span => exact h name span
  | .attr _ _ _ =>
    rw [foldExpr, foldExpr]
    exact .refl _
  | .unary op operand span =>
    rw [foldExpr, foldExpr]
    exact (stands_foldExpr h operand).bind fun a => .refl _
  | .binary op left right span =>
    rw [foldExpr, foldExpr]
    exact (stands_foldExpr h left).bind fun a => (stands_foldExpr h right).bind fun b => .refl _
  | .call name args site span =>
    rw [foldExpr, foldExpr]
    refine (Stands.refl _).bind fun callee => ?_
    cases callee with
    | builtin o =>
      exact (Stands.refl _).bind fun _ => (stands_foldArgs h args).bind fun ds => .refl _
    | function d mem =>
      refine (Stands.refl _).bind fun _ => (Stands.refl _).bind fun g => ?_
      exact (stands_foldArgs h args).bind fun ds => .refl _
  | .list items span =>
    rw [foldExpr, foldExpr]
    exact (stands_foldItems h items).bind fun ds => .refl _

lemma stands_foldArgs (h : NamesStand run E ss ss') (es : List Expr) :
    Stands E (foldArgs run ss es) (foldArgs run ss' es) := by
  match es with
  | [] =>
    rw [foldArgs, foldArgs]
    exact .refl _
  | e :: es =>
    rw [foldArgs, foldArgs]
    exact (stands_foldExpr h e).bind fun d => (stands_foldArgs h es).bind fun ds => .refl _

lemma stands_foldItems (h : NamesStand run E ss ss') (es : List Expr) :
    Stands E (foldItems run ss es) (foldItems run ss' es) := by
  match es with
  | [] =>
    rw [foldItems, foldItems]
    exact .refl _
  | e :: es =>
    rw [foldItems, foldItems]
    refine (stands_foldExpr h e).bind fun d => (Stands.refl _).bind fun _ => ?_
    exact (stands_foldItems h es).bind fun ds => .refl _
end

/-- What folds to a datum still does when more data are known. -/
lemma yields_of_refines (h : ss.Refines ss') (e : Expr) (d : Datum)
    (hd : (foldExpr run ss e).Yields d) : (foldExpr run ss' e).Yields d := by
  have hnames : NamesStand run (fun _ => False) ss ss' := by
    refine fun name span => ⟨fun hname => ?_, fun hp => hp.elim⟩
    obtain ⟨f, hf⟩ := yields_ref_iff.1 hname
    exact yields_ref_iff.2 (h hf)
  exact (stands_foldExpr hnames e).result hd

/-! ## Parts of what folds -/

lemma yields_nil_iff {ds : List Datum} : (foldArgs run ss []).Yields ds ↔ ds = [] := by
  rw [foldArgs, yields_pure]
  exact eq_comm

lemma yields_cons_iff {e : Expr} {es : List Expr} {ds : List Datum} :
    (foldArgs run ss (e :: es)).Yields ds ↔
      ∃ d ds', (foldExpr run ss e).Yields d ∧ (foldArgs run ss es).Yields ds' ∧ ds = d :: ds' := by
  simp only [foldArgs, yields_bind, yields_pure]
  constructor
  · rintro ⟨d, hd, ds', hds', rfl⟩
    exact ⟨d, ds', hd, hds', rfl⟩
  · rintro ⟨d, ds', hd, hds', rfl⟩
    exact ⟨d, hd, ds', hds', rfl⟩

/-- The items of a list fold as arguments do. -/
lemma yields_args_of_items {es : List Expr} {ds : List Datum}
    (h : (foldItems run ss es).Yields ds) : (foldArgs run ss es).Yields ds := by
  induction es generalizing ds with
  | nil =>
    rw [foldItems, yields_pure] at h
    exact yields_nil_iff.2 h.symm
  | cons e es ih =>
    rw [foldItems, yields_bind] at h
    obtain ⟨d, hd, hrest⟩ := h
    obtain ⟨-, -, hrest⟩ := yields_bind.1 hrest
    obtain ⟨ds', hds', hend⟩ := yields_bind.1 hrest
    cases yields_pure.1 hend
    exact yields_cons_iff.2 ⟨d, ds', hd, ih hds', rfl⟩

/-- A condition folds to a boolean. -/
lemma yields_of_foldCond {cond : Expr} {b : Bool} (h : (foldCond run ss cond).Yields b) :
    (foldExpr run ss cond).Yields (.bool b) := by
  obtain ⟨d, hd, hrest⟩ := yields_bind.1 h
  obtain ⟨-, -, hb⟩ := yields_bind.1 hrest
  cases d with
  | bool b' =>
    cases yields_pure.1 hb
    exact hd
  | _ => exact absurd hb not_yields_throw

/-- Statements in a scope of their own. -/
lemma yields_inner_iff {x : Fold (Flow × Scopes)} {flow : Flow} {ss' : Scopes} :
    (do
      let (flow, inner) ← x
      pure (flow, inner.tail) : Fold (Flow × Scopes)).Yields (flow, ss') ↔
      ∃ inner, x.Yields (flow, inner) ∧ inner.tail = ss' := by
  rw [yields_bind]
  constructor
  · rintro ⟨⟨flow', inner⟩, hx, hrest⟩
    cases yields_pure.1 hrest
    exact ⟨inner, hx, rfl⟩
  · rintro ⟨inner, hx, rfl⟩
    exact ⟨(flow, inner), hx, yields_pure.2 rfl⟩

/-- A call of a function runs it on its folded arguments. -/
lemma yields_of_call {name : Ident} {args : List Expr} {span : Span} {d : FunctionDef}
    {mem : d ∈ job.file.functions} {v : Datum} (hcallee : job.callee name = .ok (.function d mem))
    (hnew : d.ident.name ∉ entered) (h : (foldExpr run ss (.call name args site span)).Yields v) :
    ∃ ds, (foldArgs run ss args).Yields ds ∧ (run ⟨d, mem, hnew⟩ ds).Yields v := by
  rw [foldExpr, yields_bind] at h
  obtain ⟨callee, hcallee', hrest⟩ := h
  cases hcallee.symm.trans (yields_lift.1 hcallee')
  obtain ⟨-, -, hrest⟩ := yields_bind.1 hrest
  obtain ⟨g, hg, hrest⟩ := yields_bind.1 hrest
  obtain ⟨ds, hds, hrun⟩ := yields_bind.1 hrest
  have henter : (Job.enterFunction d mem name.span : Except Problem (Inlinable job entered)) =
      .ok ⟨d, mem, hnew⟩ := by
    simp [Job.enterFunction, hnew, pure, Except.pure]
  cases henter.symm.trans (yields_lift.1 hg)
  exact ⟨ds, hds, hrun⟩

/-- A function that folds returns a value from its body. -/
lemma yields_of_foldCall {g : Inlinable job entered} {ds : List Datum} {v : Datum}
    (h : (foldCall job entered g ds).Yields v) :
    ∃ scope ss', Scope.bindAll {} g.definition.params ds = .ok scope ∧
      (foldStmts (foldCall job (g.name :: entered)) [scope] g.definition.body).Yields
        (.returned (some v), ss') := by
  rw [foldCall, yields_bind] at h
  obtain ⟨scope, hscope, hrest⟩ := h
  obtain ⟨⟨flow, ss'⟩, hbody, hend⟩ := yields_bind.1 hrest
  refine ⟨scope, ss', yields_lift.1 hscope, ?_⟩
  cases flow with
  | through => exact absurd hend not_yields_failure
  | returned value =>
    cases value with
    | none => exact absurd hend not_yields_failure
    | some d =>
      cases yields_pure.1 hend
      exact hbody

end Evaluation

end Arbor
