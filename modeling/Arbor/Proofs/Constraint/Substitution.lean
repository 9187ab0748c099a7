import Arbor.Constraint.Lowering
import Arbor.Proofs.Evaluation.Substitution
import Arbor.Proofs.Scope.Settled
import Arbor.Proofs.Value.Types

/-!
# Expansion is substitution

A predicate or constraint type is lowered in a scope that binds its parameters to the values of the
arguments.  It might as well be written out: with these data in the place of the parameters, its
block lowers to the same tree, the same labels and the same problems in an empty scope
(`Job.expand_eq_subst`).

* `Test.subst` and `Goal.subst` write data for names in the values of comparisons and in the
  arguments of applications.
* `Lowering.lowerTest_subst` and `Lowering.lowerGoal_subst` are about any scopes that bind the names
  to these data.
* `Lowering.argumentScope_eq_ok` is about the scope of an expansion.
-/

namespace Arbor

/-! ## Substitution in constraints -/

/-- The application with data written for the names in its arguments. -/
def Application.subst (σ : Substitution) (a : Application) : Application where
  callee := a.callee
  args := Expr.substAll σ a.args

mutual
/-- The predicate statement with data written for the names in it. -/
def Test.subst (σ : Substitution) : Test → Test
  | .block q body => .block q (Test.substAll σ body)
  | .measure m c e => .measure m c (e.subst σ)

/-- The predicate statements with data written for the names in them. -/
def Test.substAll (σ : Substitution) : List Test → List Test
  | [] => []
  | t :: ts => t.subst σ :: Test.substAll σ ts
end

mutual
/-- The goal with data written for the names in it. -/
def Goal.subst (σ : Substitution) : Goal → Goal
  | .block q body => .block q (Goal.substAll σ body)
  | .attr field c e => .attr field c (e.subst σ)
  | .measure m c e => .measure m c (e.subst σ)
  | .select label predicate kind => .select label (predicate.subst σ) kind
  | .within label predicate kind q body =>
    .within label (predicate.subst σ) kind q (Goal.substAll σ body)
  | .apply label predicate target => .apply label (predicate.subst σ) (target.subst σ)

/-- The goals with data written for the names in them. -/
def Goal.substAll (σ : Substitution) : List Goal → List Goal
  | [] => []
  | g :: gs => g.subst σ :: Goal.substAll σ gs
end

/-- The data of arguments, for the names of the parameters. -/
def Substitution.ofArguments (params : List Ident) (cs : List Datum) : Substitution :=
  fun x => ((params.map (·.name)).zip cs).lookup x

namespace Substitution

lemma ofArguments_cons (p : Ident) (ps : List Ident) (c : Datum) (cs : List Datum) (x : String) :
    ofArguments (p :: ps) (c :: cs) x = if x = p.name then some c else ofArguments ps cs x := by
  by_cases hx : x = p.name
  · simp [ofArguments, hx]
  · have hne : (x == p.name) = false := beq_eq_false_iff_ne.2 hx
    simp [ofArguments, List.lookup_cons, hx, hne]

/-- There is no datum for what is not the name of a parameter. -/
lemma ofArguments_eq_none {ps : List Ident} {cs : List Datum} {x : String}
    (hx : x ∉ ps.map (·.name)) : ofArguments ps cs x = none := by
  refine List.lookup_eq_none_iff.2 fun y hy => ?_
  have hmem : y.1 ∈ ps.map (·.name) := (List.of_mem_zip hy).1
  have hne : x ≠ y.1 := fun heq => hx (heq ▸ hmem)
  exact bne_iff_ne.2 hne

end Substitution

namespace Lowering

variable {job : Job} {σ : Substitution} {ss ss' : Scopes}

/-! ## Values and arguments -/

lemma value_subst (h : σ.Replaces ss ss') (e : Expr) :
    value job ss' (e.subst σ) = value job ss e := by
  rw [value, value, job.evaluate_subst h, Expr.span_subst]

lemma comparison_subst (h : σ.Replaces ss ss') (c : Comparison) (subject : Tree) (e : Expr) :
    comparison job ss' c subject (e.subst σ) = comparison job ss c subject e := by
  rw [comparison, comparison, value_subst h]

lemma bindValues_subst (h : σ.Replaces ss ss') (scope : Scope) (ps : List Ident)
    (es : List Expr) :
    bindValues job ss' scope ps (Expr.substAll σ es) = bindValues job ss scope ps es := by
  induction es generalizing scope ps with
  | nil => cases ps <;> rfl
  | cons e es ih =>
    cases ps with
    | nil => rfl
    | cons p ps =>
      rw [Expr.substAll, bindValues, bindValues, value_subst h]
      simp only [ih]

lemma argumentScope_subst (job : Job) (h : σ.Replaces ss ss') (a : Application)
    (params : List Ident) :
    argumentScope job ss' (a.subst σ) params = argumentScope job ss a params := by
  rw [argumentScope, argumentScope, Application.subst, Expr.length_substAll, bindValues_subst h]

/-! ## Statements -/

mutual
lemma lowerTest_subst (job : Job) (h : σ.Replaces ss ss') (t : Test) :
    lowerTest job ss' (t.subst σ) = lowerTest job ss t := by
  match t with
  | .block q body => rw [Test.subst, lowerTest, lowerTest, lowerTests_subst job h body]
  | .measure m c e => rw [Test.subst, lowerTest, lowerTest, comparison_subst h]

lemma lowerTests_subst (job : Job) (h : σ.Replaces ss ss') (ts : List Test) :
    lowerTests job ss' (Test.substAll σ ts) = lowerTests job ss ts := by
  match ts with
  | [] => rw [Test.substAll, lowerTests, lowerTests]
  | t :: ts =>
    rw [Test.substAll, lowerTests, lowerTests, lowerTest_subst job h t, lowerTests_subst job h ts]
end

lemma lowerPredicate_subst (h : σ.Replaces ss ss') (a : Application) :
    lowerPredicate job ss' (a.subst σ) = lowerPredicate job ss a := by
  have hscope := argumentScope_subst job h a
  rw [lowerPredicate, lowerPredicate]
  simp only [hscope]
  rfl

variable {entered : List String} {expand : Expander job entered}

mutual
/-- Substitution does not reach into what is applied: expansions start from the values of the
arguments, which are the same. -/
lemma lowerGoal_subst (h : σ.Replaces ss ss') (g : Goal) :
    lowerGoal expand ss' (g.subst σ) = lowerGoal expand ss g := by
  match g with
  | .block q body => rw [Goal.subst, lowerGoal, lowerGoal, lowerGoals_subst h body]
  | .attr field c e => rw [Goal.subst, lowerGoal, lowerGoal, comparison_subst h]
  | .measure m c e => rw [Goal.subst, lowerGoal, lowerGoal, comparison_subst h]
  | .select label predicate kind =>
    rw [Goal.subst, lowerGoal, lowerGoal, lowerPredicate_subst h]
  | .within label predicate kind q body =>
    rw [Goal.subst, lowerGoal, lowerGoal, lowerPredicate_subst h, lowerGoals_subst h body]
  | .apply label predicate target =>
    have hscope := argumentScope_subst job h target
    rw [Goal.subst, lowerGoal, lowerGoal, lowerPredicate_subst h]
    simp only [hscope]
    rfl

lemma lowerGoals_subst (h : σ.Replaces ss ss') (gs : List Goal) :
    lowerGoals expand ss' (Goal.substAll σ gs) = lowerGoals expand ss gs := by
  match gs with
  | [] => rw [Goal.substAll, lowerGoals, lowerGoals]
  | g :: gs =>
    rw [Goal.substAll, lowerGoals, lowerGoals, lowerGoal_subst h g, lowerGoals_subst h gs]
end

/-! ## The scope of an expansion -/

/-- A datum may be bound to a name that is free. -/
lemma define_constant {scope : Scope} {p : Ident} (hfree : scope.find? p.name = none) (d : Datum) :
    scope.define p (.constant d true) = .ok (scope.bind p.name (.constant d true)) :=
  Scope.define_eq_ok_iff.2 ⟨ValueType.isVoid_eq_false_iff.2 d.exists_contains, hfree, rfl⟩

lemma value_of_evaluate {e : Expr} {d : Datum} (h : job.evaluate ss [] e = .ok (some d)) :
    value job ss e = .ok d := by
  rw [value, h]
  rfl

/-- Parameters are bound one after the other, so for the induction some names are bound before. -/
lemma bindValues_eq_ok {params : List Ident} {args : List Expr} {cs : List Datum}
    (hargs : List.Forall₂ (fun e c => job.evaluate ss [] e = .ok (some c)) args cs)
    (hlength : params.length = args.length) (hdistinct : (params.map (·.name)).Nodup)
    {scope : Scope} (hfree : ∀ p ∈ params, scope.find? p.name = none) :
    ∃ scope', bindValues job ss scope params args = .ok scope' ∧
      ∀ x, scope'.find? x
        = ((Substitution.ofArguments params cs x).map (Binding.constant · true)).or
          (scope.find? x) := by
  induction hargs generalizing params scope with
  | nil =>
    rw [List.length_nil, List.length_eq_zero_iff] at hlength
    subst hlength
    exact ⟨scope, rfl, fun x => by simp [Substitution.ofArguments]⟩
  | @cons e c args cs he _ ih =>
    obtain ⟨p, ps, rfl⟩ := List.exists_cons_of_length_eq_add_one hlength
    rw [List.map_cons, List.nodup_cons] at hdistinct
    have hbind := define_constant (hfree p List.mem_cons_self) c
    have hfree' : ∀ q ∈ ps, (scope.bind p.name (.constant c true)).find? q.name = none := by
      intro q hq
      have hne : q.name ≠ p.name := fun hname => hdistinct.1 (hname ▸ List.mem_map_of_mem hq)
      rw [Scope.find?_bind, if_neg hne]
      exact hfree q (List.mem_cons_of_mem p hq)
    obtain ⟨scope', hscope', hfind⟩ := ih (Nat.succ.inj hlength) hdistinct.2 hfree'
    refine ⟨scope', ?_, fun x => ?_⟩
    · rw [bindValues, value_of_evaluate he]
      change (scope.define p (.constant c true) >>= fun s => bindValues job ss s ps args) = _
      rw [hbind]
      exact hscope'
    · rw [hfind, Scope.find?_bind]
      by_cases hx : x = p.name
      · subst hx
        have hnone : Substitution.ofArguments ps cs p.name = none :=
          Substitution.ofArguments_eq_none hdistinct.1
        simp [Substitution.ofArguments_cons, hnone]
      · simp [Substitution.ofArguments_cons, hx]

/-- Arguments that evaluate, as many as there are parameters, make a scope that binds each parameter
to the datum of its argument and nothing else. -/
lemma argumentScope_eq_ok {a : Application} {params : List Ident} {cs : List Datum}
    (hargs : List.Forall₂ (fun e c => job.evaluate ss [] e = .ok (some c)) a.args cs)
    (hlength : params.length = a.args.length) (hdistinct : (params.map (·.name)).Nodup) :
    ∃ scope, argumentScope job ss a params = .ok scope ∧
      ∀ x, scope.find? x
        = (Substitution.ofArguments params cs x).map (Binding.constant · true) := by
  have hfree : ∀ p ∈ params, Scope.find? {} p.name = none := fun _ _ => rfl
  obtain ⟨scope, hscope, hfind⟩ := bindValues_eq_ok hargs hlength hdistinct hfree
  refine ⟨scope, ?_, fun x => ?_⟩
  · rw [argumentScope, Check.arguments_eq_ok_iff.2 hlength.symm]
    exact hscope
  · rw [hfind]
    exact Option.or_none

end Lowering

/-- A scope that holds just the data of a substitution may be exchanged for an empty one. -/
lemma Substitution.replaces_empty {σ : Substitution} {scope : Scope}
    (h : ∀ x, scope.find? x = (σ x).map (Binding.constant · true)) :
    σ.Replaces [scope] [{}] where
  bound := fun {x d} hd => ⟨true, by simp [h, hd]⟩
  free := fun {x} hx => by
    have hempty : Scope.find? {} x = none := rfl
    simp [h, hx, hempty]

/-- **Expansion is substitution.**  Let a definition have parameters with different names, and let
it be applied to as many arguments, each of which evaluates to a datum where it stands.  The scope
of the expansion binds each parameter to the datum of its argument, and nothing else.  The block of
a predicate lowers in that scope as the block with the data in the place of the parameters lowers in
an empty scope, and so does the block of a constraint type, from any labels and inside any other
expansions. -/
theorem Job.expand_eq_subst (job : Job) {ss : Scopes} {a : Application} {params : List Ident}
    {cs : List Datum} (hdistinct : (params.map (·.name)).Nodup)
    (hlength : params.length = a.args.length)
    (hargs : List.Forall₂ (fun e c => job.evaluate ss [] e = .ok (some c)) a.args cs) :
    ∃ scope, Lowering.argumentScope job ss a params = .ok scope ∧
      (∀ x, scope.find? x
        = (Substitution.ofArguments params cs x).map (Binding.constant · true)) ∧
      (∀ d : PredicateDef, d.params = params →
        Lowering.lowerTest job [scope] (.block d.quantifier d.body)
          = Lowering.lowerTest job [{}]
            ((Test.block d.quantifier d.body).subst (Substitution.ofArguments params cs)) ∧
        (job.predicate a.callee = .ok d → Lowering.lowerPredicate job ss a
          = Lowering.lowerTest job [{}]
            ((Test.block d.quantifier d.body).subst (Substitution.ofArguments params cs)))) ∧
      ∀ (entered : List String) (g : Expandable job entered), g.definition.params = params →
        Lowering.expandConstraint job entered g scope
          = Lowering.lowerGoal (Lowering.expandConstraint job (g.name :: entered)) [{}]
            ((Goal.block g.definition.quantifier g.definition.body).subst
              (Substitution.ofArguments params cs)) := by
  obtain ⟨scope, hscope, hfind⟩ := Lowering.argumentScope_eq_ok hargs hlength hdistinct
  have hreplaces := Substitution.replaces_empty hfind
  refine ⟨scope, hscope, hfind, fun d hd => ?_, fun entered g hg => ?_⟩
  · have hblock := (Lowering.lowerTest_subst job hreplaces (.block d.quantifier d.body)).symm
    refine ⟨hblock, fun hcallee => ?_⟩
    rw [Lowering.lowerPredicate, hcallee, ← hblock]
    change (Lowering.argumentScope job ss a d.params >>= fun scope =>
      Lowering.lowerTest job [scope] (.block d.quantifier d.body)) = _
    rw [hd, hscope]
    rfl
  · rw [Lowering.expandConstraint, Lowering.lowerGoal_subst hreplaces]

namespace Job

/-- A constraint type that passes its parameters on, in another order and under each other's
names. -/
def nestedType : ConstraintType where
  ident := ⟨"Branch", .nowhere⟩
  kind := ⟨"branch", .nowhere⟩
  params := [⟨"w", .nowhere⟩, ⟨"n", .nowhere⟩]
  quantifier := .all
  body :=
    [.attr ⟨"width", .nowhere⟩ .lessEqual
        (.binary .add (.ref ⟨"w", .nowhere⟩ .nowhere) (.ref ⟨"n", .nowhere⟩ .nowhere) .nowhere),
      .apply (some ⟨"inner", .nowhere⟩)
        ⟨⟨"some", .nowhere⟩, [.ref ⟨"w", .nowhere⟩ .nowhere]⟩
        ⟨⟨"Leaf", .nowhere⟩, [.ref ⟨"n", .nowhere⟩ .nowhere]⟩]

/-- That constraint type, with those that it applies. -/
def ofNested : Job where
  file :=
    ⟨[.constraintType nestedType,
      .predicate ⟨⟨"some", .nowhere⟩, [⟨"n", .nowhere⟩], .all,
        [.measure .size .greaterEqual (.ref ⟨"n", .nowhere⟩ .nowhere)]⟩,
      .constraintType ⟨⟨"Leaf", .nowhere⟩, ⟨"leaf", .nowhere⟩, [⟨"w", .nowhere⟩], .all,
        [.attr ⟨"width", .nowhere⟩ .equal (.ref ⟨"w", .nowhere⟩ .nowhere)]⟩], []⟩

/-- Scopes that bind the names of the parameters to other data. -/
def nestedScopes : Scopes :=
  [⟨[("n", .constant (.number (.int 1)) true), ("w", .constant (.number (.int 2)) true)], none⟩]

/-- The application `Branch(n + 4, w)`. -/
def nestedCall : Application where
  callee := ⟨"Branch", .nowhere⟩
  args :=
    [.binary .add (.ref ⟨"n", .nowhere⟩ .nowhere) (.literal (.number (.int 4)) .nowhere) .nowhere,
      .ref ⟨"w", .nowhere⟩ .nowhere]

/-- The block with `5` written for `w` and `2` for `n`. -/
def nestedBlock : Goal :=
  .block .all
    [.attr ⟨"width", .nowhere⟩ .lessEqual
        (.binary .add (.literal (.number (.int 5)) .nowhere) (.literal (.number (.int 2)) .nowhere)
          .nowhere),
      .apply (some ⟨"inner", .nowhere⟩)
        ⟨⟨"some", .nowhere⟩, [.literal (.number (.int 5)) .nowhere]⟩
        ⟨⟨"Leaf", .nowhere⟩, [.literal (.number (.int 2)) .nowhere]⟩]

/-- The tree of that block. -/
def nestedTree : Tree :=
  .node .all
    [.node .lessEqual [.node .attr [.leaf (.str "width")], .leaf (.number (.int 7))],
      .node .label [.leaf (.number (.int 0)), .node .select [.leaf (.str "leaf"),
        .node .greaterEqual [.node .size [], .leaf (.number (.int 5))],
        .node .equal [.node .attr [.leaf (.str "width")], .leaf (.number (.int 2))]]]]

/-- The names that the caller binds do not get in the way of the parameters, nor do the parameters
of what is applied inside. -/
theorem expand_eq_subst_ofNested :
    (nestedType.params.map (·.name)).Nodup ∧
      nestedType.params.length = nestedCall.args.length ∧
      List.Forall₂ (fun e c => ofNested.evaluate nestedScopes [] e = .ok (some c)) nestedCall.args
        [.number (.int 5), .number (.int 2)] ∧
      ∃ (scope : Scope) (g : Expandable ofNested []),
        Lowering.argumentScope ofNested nestedScopes nestedCall nestedType.params = .ok scope ∧
        g.definition = nestedType ∧
        Lowering.lowerGoal (Lowering.expandConstraint ofNested ["Branch"]) [{}] nestedBlock {}
          = .ok nestedTree ⟨["inner"], List.nodup_singleton _⟩ ∧
        Lowering.expandConstraint ofNested [] g scope {}
          = .ok nestedTree ⟨["inner"], List.nodup_singleton _⟩ := by
  have hdistinct : (nestedType.params.map (·.name)).Nodup := by decide
  have hargs : List.Forall₂ (fun e c => ofNested.evaluate nestedScopes [] e = .ok (some c))
      nestedCall.args [.number (.int 5), .number (.int 2)] :=
    .cons (by decide +kernel) (.cons (by decide +kernel) .nil)
  have hblock : Lowering.lowerGoal (Lowering.expandConstraint ofNested ["Branch"]) [{}] nestedBlock
      {} = .ok nestedTree ⟨["inner"], List.nodup_singleton _⟩ := by
    decide +kernel
  obtain ⟨scope, hscope, -, -, hexpand⟩ := ofNested.expand_eq_subst hdistinct rfl hargs
  have hmem : nestedType ∈ ofNested.file.constraintTypes := List.mem_cons_self
  refine ⟨hdistinct, rfl, hargs, scope, ⟨nestedType, hmem, List.not_mem_nil⟩, hscope, rfl, hblock,
    ?_⟩
  rw [hexpand [] _ rfl]
  exact hblock

end Job

end Arbor
