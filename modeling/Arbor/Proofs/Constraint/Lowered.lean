import Arbor.Proofs.Constraint.Grammar
import Arbor.Proofs.Evaluation.Settings

/-!
# Lowered constraints

What lowering makes of a constraint, with quantifiers collapsed on the way or not.

* `Job.lowerMain_configure`: lowering that collapses quantifiers is lowering that does not, followed
  by `Tree.collapse`.  Problems and labels are the same.
* `Job.sorted_of_lowerMain`: the tree is a statement, and its quantifiers range over statements.
-/

namespace Arbor

open Step

/-! ## Statements -/

namespace NodeTag

variable {tag : NodeTag}

lemma isStatement_of_isQuantifier (h : tag.isQuantifier = true) : tag.isStatement = true := by
  cases tag <;> first | rfl | cases h

lemma isStatement_of_isComparison (h : tag.isComparison = true) : tag.isStatement = true := by
  cases tag <;> first | rfl | cases h

lemma isQuantifier_of_isComparison (h : tag.isComparison = true) : tag.isQuantifier = false := by
  cases tag <;> first | rfl | cases h

lemma isQuantifier_of_isAggregate (h : tag.isAggregate = true) : tag.isQuantifier = false := by
  cases tag <;> first | rfl | cases h

end NodeTag

/-- A statement whose quantifiers range over statements. -/
structure Tree.Sorted (t : Tree) : Prop where
  isStatement : t.IsStatement
  wellSorted : t.WellSorted

namespace Tree

/-- A node that does not quantify is well-sorted if its arguments are. -/
lemma wellSorted_of_not_isQuantifier {tag : NodeTag} {args : List Tree}
    (h : tag.isQuantifier = false) (hargs : ∀ t ∈ args, t.WellSorted) :
    (node tag args).WellSorted :=
  .node (fun hq => absurd hq (by simp [h])) hargs

lemma Subject.wellSorted {role : Role} {t : Tree} (h : Subject role t) : t.WellSorted := by
  cases h with
  | size => exact wellSorted_of_not_isQuantifier rfl (by simp)
  | attr name => exact wellSorted_of_not_isQuantifier rfl (by simp [WellSorted.leaf])
  | aggregate htag kind =>
    exact wellSorted_of_not_isQuantifier (NodeTag.isQuantifier_of_isAggregate htag)
      (by simp [WellSorted.leaf])

/-- Trees that conform to the grammar are statements. -/
lemma Conforms.sorted {collapsed : Bool} {index : Int64 → Prop} {role : Role} {t : Tree}
    (h : Conforms collapsed index role t) : t.Sorted := by
  induction h with
  | quantifier htag _ _ ih =>
    exact ⟨NodeTag.isStatement_of_isQuantifier htag,
      .node (fun _ t ht => (ih t ht).isStatement) fun t ht => (ih t ht).wellSorted⟩
  | comparison htag hsubject d =>
    refine ⟨NodeTag.isStatement_of_isComparison htag,
      wellSorted_of_not_isQuantifier (NodeTag.isQuantifier_of_isComparison htag) ?_⟩
    simp [WellSorted.leaf, hsubject.wellSorted]
  | select kind _ ih =>
    exact ⟨rfl, wellSorted_of_not_isQuantifier rfl (by simp [WellSorted.leaf, ih.wellSorted])⟩
  | within kind _ _ ihtest ihblock =>
    refine ⟨rfl, wellSorted_of_not_isQuantifier rfl ?_⟩
    simp [WellSorted.leaf, ihtest.wellSorted, ihblock.wellSorted]
  | label _ _ ih =>
    exact ⟨rfl, wellSorted_of_not_isQuantifier rfl (by simp [WellSorted.leaf, ih.wellSorted])⟩

end Tree

/-! ## Settings -/

/-- A constraint type, in a job with other settings. -/
def Expandable.configure {job : Job} {entered : List String} (c : Config)
    (g : Expandable job entered) : Expandable (job.configure c) entered :=
  ⟨g.definition, g.mem, g.notEntered⟩

variable {job : Job} {entered : List String} {c : Config}

lemma Job.enterConstraint_configure (job : Job) (c : Config) {d : ConstraintType}
    (mem : d ∈ job.file.constraintTypes) (span : Span) :
    (enterConstraint d mem span : Except Problem (Expandable (job.configure c) entered))
      = Expandable.configure c <$> enterConstraint d mem span := by
  unfold enterConstraint
  split <;> rfl

namespace Lowering

lemma value_configure (job : Job) (c : Config) (ss : Scopes) (e : Expr) :
    value (job.configure c) ss e = value job ss e := by
  rw [value, value, Job.evaluate_configure]

lemma bindValues_configure (job : Job) (c : Config) (ss : Scopes) (scope : Scope) (ps : List Ident)
    (es : List Expr) :
    bindValues (job.configure c) ss scope ps es = bindValues job ss scope ps es := by
  induction ps generalizing scope es with
  | nil => rfl
  | cons p ps ih =>
    cases es with
    | nil => rfl
    | cons e es =>
      rw [bindValues, bindValues, value_configure]
      exact bind_congr fun d => bind_congr fun scope => ih scope es

lemma argumentScope_configure (job : Job) (c : Config) (ss : Scopes) (a : Application)
    (ps : List Ident) : argumentScope (job.configure c) ss a ps = argumentScope job ss a ps := by
  rw [argumentScope, argumentScope, bindValues_configure]

lemma comparison_configure (job : Job) (c : Config) (ss : Scopes) (cmp : Comparison)
    {subject : Tree} (h : subject.collapse = subject) (e : Expr) :
    comparison (job.configure c) ss cmp subject e
      = Tree.collapse <$> comparison job ss cmp subject e := by
  simp only [comparison, value_configure, map_bind, map_pure, Tree.collapse_compare, h]

/-! ## Collapsing on the way -/

/-- The settings collapse quantifiers, and those of the job do not. -/
structure Collapses (job : Job) (c : Config) : Prop where
  off : job.config.redundantQuantifier = false
  on : c.redundantQuantifier = true

mutual
lemma lowerTest_configure (h : Collapses job c) (ss : Scopes) (t : Test) :
    lowerTest (job.configure c) ss t = Tree.collapse <$> lowerTest job ss t := by
  match t with
  | .block q body =>
    simp only [lowerTest, lowerTests_configure h ss body, bind_map_left, map_bind, map_pure, h.off,
      h.on, Tree.collapse_quantified]
  | .measure m cmp e =>
    rw [lowerTest, lowerTest, comparison_configure job c ss cmp (Tree.collapse_ofMeasure m)]

lemma lowerTests_configure (h : Collapses job c) (ss : Scopes) (ts : List Test) :
    lowerTests (job.configure c) ss ts = List.map Tree.collapse <$> lowerTests job ss ts := by
  match ts with
  | [] => rw [lowerTests, lowerTests, map_pure, List.map_nil]
  | t :: ts =>
    simp only [lowerTests, lowerTest_configure h ss t, lowerTests_configure h ss ts, bind_map_left,
      map_bind, map_pure, List.map_cons]
end

lemma lowerPredicate_configure (h : Collapses job c) (ss : Scopes) (a : Application) :
    lowerPredicate (job.configure c) ss a = Tree.collapse <$> lowerPredicate job ss a := by
  simp only [lowerPredicate, argumentScope_configure job c, lowerTest_configure h, map_bind]
  rfl

/-- Constraint types are expanded to collapsed trees in the job with other settings. -/
def Expander.Collapses (expand : Expander job entered)
    (expand' : Expander (job.configure c) entered) : Prop :=
  ∀ g scope, expand' (g.configure c) scope = Tree.collapse <$> expand g scope

variable {expand : Expander job entered} {expand' : Expander (job.configure c) entered}

mutual
lemma lowerGoal_configure (h : Collapses job c) (hexpand : expand.Collapses expand') (ss : Scopes)
    (g : Goal) : lowerGoal expand' ss g = Tree.collapse <$> lowerGoal expand ss g := by
  match g with
  | .block q body =>
    simp only [lowerGoal, lowerGoals_configure h hexpand ss body, bind_map_left, map_bind, map_pure,
      h.off, h.on, Tree.collapse_quantified]
  | .attr field cmp e =>
    rw [lowerGoal, lowerGoal, comparison_configure job c ss cmp (Tree.collapse_attr field.name),
      liftM_map]
  | .measure m cmp e =>
    rw [lowerGoal, lowerGoal, comparison_configure job c ss cmp (Tree.collapse_ofMeasure m),
      liftM_map]
  | .select label predicate kind =>
    simp only [lowerGoal, lowerPredicate_configure h, liftM_map, bind_map_left, map_bind, map_pure,
      Tree.collapse_labelled, Tree.collapse_select, Tree.collapse_leaf, List.map_cons, List.map_nil]
  | .within label predicate kind q body =>
    simp only [lowerGoal, lowerPredicate_configure h, lowerGoals_configure h hexpand ss body,
      liftM_map, bind_map_left, map_bind, map_pure, h.off, h.on, Tree.collapse_labelled,
      Tree.collapse_select, Tree.collapse_quantified, Tree.collapse_leaf, List.map_cons,
      List.map_nil]
  | .apply label predicate target =>
    rw [lowerGoal, lowerGoal, map_bind]
    refine bind_congr fun label => ?_
    rw [map_bind]
    refine bind_congr fun d => ?_
    rw [Job.enterConstraint_configure job c, liftM_map, bind_map_left, map_bind]
    refine bind_congr fun g => ?_
    rw [argumentScope_configure, map_bind]
    refine bind_congr fun scope => ?_
    rw [lowerPredicate_configure h, liftM_map, bind_map_left, map_bind]
    refine bind_congr fun test => ?_
    rw [hexpand, bind_map_left, map_bind]
    simp only [map_pure, Tree.collapse_labelled, Tree.collapse_select, Tree.collapse_leaf,
      List.map_cons, List.map_nil]

lemma lowerGoals_configure (h : Collapses job c) (hexpand : expand.Collapses expand') (ss : Scopes)
    (gs : List Goal) :
    lowerGoals expand' ss gs = List.map Tree.collapse <$> lowerGoals expand ss gs := by
  match gs with
  | [] => rw [lowerGoals, lowerGoals, map_pure, List.map_nil]
  | g :: gs =>
    simp only [lowerGoals, lowerGoal_configure h hexpand ss g, lowerGoals_configure h hexpand ss gs,
      bind_map_left, map_bind, map_pure, List.map_cons]
end

lemma expandConstraint_configure (h : Collapses job c) (entered : List String) :
    Expander.Collapses (expandConstraint job entered)
      (expandConstraint (job.configure c) entered) := by
  intro g scope
  have hexpand := expandConstraint_configure h (g.name :: entered)
  rw [expandConstraint, expandConstraint]
  exact lowerGoal_configure h hexpand [scope] _
termination_by Nesting.remaining job.constraintNames entered
decreasing_by exact Expandable.remaining_lt _

end Lowering

namespace Job

/-- Lowering that collapses quantifiers is lowering that does not, and then collapsing. -/
theorem lowerMain_configure (h : Lowering.Collapses job c) :
    (job.configure c).lowerMain = Tree.collapse <$> job.lowerMain := by
  unfold lowerMain
  rw [map_bind]
  exact bind_congr fun main =>
    Lowering.lowerGoal_configure h (Lowering.expandConstraint_configure h []) _ _

/-- The main constraint is a statement, and its quantifiers range over statements. -/
theorem sorted_of_lowerMain {labels labels' : Pool String} {t : Tree}
    (h : job.lowerMain labels = .ok t labels') : t.Sorted :=
  (Lowering.conforms_lowerMain h).sorted

end Job

end Arbor
