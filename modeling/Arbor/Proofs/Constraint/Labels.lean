import Arbor.Constraint.Lowering
import Arbor.Proofs.Constraint.Lowered
import Mathlib.Data.List.Induction

/-!
# Labels of constraints

A label is interned when its statement is met, and its index becomes part of the tree.  Statements
are met in the order of the text, with constraint types expanded in place.  The labelled nodes of
the tree stand in the same order, and the index in each is that of the name on its statement.

* `Job.labelNames`: the names on the labelled statements of the main constraint, in order.
* `Tree.labels`: what the labelled nodes of a tree carry, in order.
* `Job.labels_of_lowerMain`: lowering numbers the names in the order in which they are first met.
-/

namespace Arbor

open Step

/-! ## Interning in order -/

lemma eraseDups_snoc {α : Type} [BEq α] [LawfulBEq α] (as : List α) (a : α) :
    (as ++ [a]).eraseDups = if a ∈ as then as.eraseDups else as.eraseDups ++ [a] := by
  rw [List.eraseDups_append]
  by_cases ha : a ∈ as
  · simp [ha, List.removeAll]
  · simp [ha, List.removeAll, List.eraseDups_cons]

namespace Pool

variable {α : Type} [DecidableEq α]

/-- The pool after some values have been interned, one after the other. -/
def internAll (p : Pool α) (as : List α) : Pool α := as.foldl (fun p a => (p.intern a).2) p

lemma internAll_append (p : Pool α) (as bs : List α) :
    p.internAll (as ++ bs) = (p.internAll as).internAll bs :=
  List.foldl_append

lemma isPrefix_internAll (p : Pool α) (as : List α) : p.entries <+: (p.internAll as).entries := by
  induction as generalizing p with
  | nil => exact List.prefix_rfl
  | cons a as ih => exact (p.entries_isPrefix_intern a).trans (ih _)

lemma mem_internAll {p : Pool α} {as : List α} {a : α} (h : a ∈ as) :
    a ∈ (p.internAll as).entries := by
  induction as generalizing p with
  | nil => cases h
  | cons b as ih =>
    rcases List.mem_cons.1 h with rfl | hmem
    · have hfirst : a ∈ (p.intern a).2.entries := List.mem_of_getElem? (p.getElem?_intern a)
      exact (isPrefix_internAll _ as).subset hfirst
    · exact ih hmem

/-- The entries of a pool are the values that were interned, without repetition. -/
lemma entries_internAll_nil (as : List α) :
    (({} : Pool α).internAll as).entries = as.eraseDups := by
  induction as using List.reverseRecOn with
  | nil => rfl
  | append_singleton as a ih =>
    have hsnoc : (({} : Pool α).internAll (as ++ [a]))
        = ((({} : Pool α).internAll as).intern a).2 := internAll_append _ _ _
    rw [hsnoc, entries_intern, ih, eraseDups_snoc]
    simp only [List.mem_eraseDups]

/-- Where a value stands does not change when others are interned after it. -/
lemma idxOf_internAll {p : Pool α} {a : α} (h : a ∈ p.entries) (as : List α) :
    (p.internAll as).entries.idxOf a = p.entries.idxOf a := by
  obtain ⟨rest, hrest⟩ := isPrefix_internAll p as
  rw [← hrest, List.idxOf_append_of_mem h]

lemma idxOf_intern (p : Pool α) (a : α) : (p.intern a).2.entries.idxOf a = (p.intern a).1 := by
  obtain ⟨hlt, hget⟩ := List.getElem?_eq_some_iff.1 (p.getElem?_intern a)
  calc (p.intern a).2.entries.idxOf a
      = (p.intern a).2.entries.idxOf (p.intern a).2.entries[(p.intern a).1] := by rw [hget]
    _ = (p.intern a).1 := (p.intern a).2.nodup.idxOf_getElem _ hlt

end Pool

lemma nodup_eraseDups {α : Type} [DecidableEq α] (as : List α) : as.eraseDups.Nodup :=
  Pool.entries_internAll_nil as ▸ Pool.nodup _

/-! ## Names on statements -/

mutual
/-- The names on the labelled statements of a goal, in order.  `expand` gives those of a constraint
type. -/
def Goal.labelNames (expand : Ident → List String) : Goal → List String
  | .block _ body => labelNamesAll expand body
  | .attr .. => []
  | .measure .. => []
  | .select label _ _ => label.toList.map (·.name)
  | .within label _ _ _ body => label.toList.map (·.name) ++ labelNamesAll expand body
  | .apply label _ target => label.toList.map (·.name) ++ expand target.callee

/-- The names on the labelled statements of goals, in order. -/
def Goal.labelNamesAll (expand : Ident → List String) : List Goal → List String
  | [] => []
  | g :: gs => g.labelNames expand ++ labelNamesAll expand gs
end

namespace Job

/-- The names on the labelled statements of a constraint type, with others expanded in place.  There
are none if the name refers to nothing that may be expanded. -/
def expandedNames (job : Job) (entered : List String) (callee : Ident) : List String :=
  match job.constraintType callee with
  | .error _ => []
  | .ok d =>
    match (enterConstraint d.1 d.2 callee.span : Except Problem (Expandable job entered)) with
    | .error _ => []
    | .ok g => Goal.labelNamesAll (job.expandedNames (g.name :: entered)) g.definition.body
termination_by Nesting.remaining job.constraintNames entered
decreasing_by exact Expandable.remaining_lt _

/-- The names on the labelled statements of the main constraint, with constraint types expanded in
place. -/
def labelNames (job : Job) : List String :=
  match job.file.main? with
  | some main => Goal.labelNamesAll (job.expandedNames []) main.body
  | none => []

end Job

/-! ## Labels of trees -/

namespace Tree

/-- The index that the arguments of a labelled node start with. -/
def labelIndex? : List Tree → Option Int
  | .leaf (.number (.int i)) :: _ => some i.toInt
  | _ => none

mutual
/-- What the labelled nodes of a tree carry, each node before those under it. -/
def labels : Tree → List (Option Int)
  | .leaf _ => []
  | .node tag args => (if tag = .label then [labelIndex? args] else []) ++ labelsAll args

/-- What the labelled nodes of trees carry. -/
def labelsAll : List Tree → List (Option Int)
  | [] => []
  | t :: ts => t.labels ++ labelsAll ts
end

/-- What a node with the index of an entry carries. -/
def labelOf (i : Nat) : Option Int := some (Int64.ofNat i).toInt

lemma labels_node {tag : NodeTag} (h : tag ≠ .label) (args : List Tree) :
    (node tag args).labels = labelsAll args := by
  rw [labels, if_neg h, List.nil_append]

lemma labels_labelled (label : Option Nat) (t : Tree) :
    (labelled label t).labels = label.toList.map labelOf ++ t.labels := by
  cases label with
  | none => rfl
  | some i => simp [labelled, labels, labelsAll, labelIndex?, labelOf]

lemma labels_quantified (collapse : Bool) (q : Quantifier) (ts : List Tree) :
    (quantified collapse q ts).labels = labelsAll ts := by
  have hnode : (node (.ofQuantifier q) ts).labels = labelsAll ts :=
    labels_node (by cases q <;> decide) ts
  unfold quantified
  split
  · split
    · simp [labelsAll]
    · exact hnode
  · exact hnode

lemma Subject.labels_eq_nil {role : Role} {t : Tree} (h : Subject role t) : t.labels = [] := by
  cases h with
  | size => rfl
  | attr name => rfl
  | aggregate htag kind =>
    refine labels_node ?_ _
    rintro rfl
    cases htag

lemma labels_comparison {role : Role} {tag : NodeTag} (htag : tag.isComparison = true)
    {subject : Tree} (h : Subject role subject) (d : Datum) :
    (node tag [subject, .leaf d]).labels = [] := by
  have hplain : tag ≠ .label := by
    rintro rfl
    cases htag
  rw [labels_node hplain]
  simp [labelsAll, labels, h.labels_eq_nil]

lemma labelsAll_eq_nil {ts : List Tree} (h : ∀ t ∈ ts, t.labels = []) : labelsAll ts = [] := by
  induction ts with
  | nil => rfl
  | cons t ts ih =>
    obtain ⟨ht, hts⟩ := List.forall_mem_cons.1 h
    rw [labelsAll, ht, ih hts, List.append_nil]

/-- Predicates have no labels. -/
lemma Conforms.labels_eq_nil {collapsed : Bool} {index : Int64 → Prop} {t : Tree}
    (h : Conforms collapsed index .predicate t) : t.labels = [] := by
  generalize hrole : Role.predicate = role at h
  induction h with
  | @quantifier _ tag args htag _ _ ih =>
    have hplain : tag ≠ .label := by
      rintro rfl
      cases htag
    rw [labels_node hplain]
    exact labelsAll_eq_nil fun t ht => ih t ht hrole
  | comparison htag hsubject d => exact labels_comparison htag hsubject d
  | _ => cases hrole

end Tree

namespace Lowering

variable {job : Job} {entered : List String}

lemma labels_comparison_eq_nil (ss : Scopes) (c : Comparison) {role : Tree.Role} {subject : Tree}
    (h : subject.Subject role) (e : Expr) :
    Gives (comparison job ss c subject e) fun t => t.labels = [] :=
  gives_bind fun d =>
    gives_pure (Tree.labels_comparison (NodeTag.isComparison_ofComparison c) h d)

lemma labels_lowerPredicate (ss : Scopes) (a : Application) :
    Gives (lowerPredicate job ss a) fun t => t.labels = [] := fun t ht =>
  (conforms_lowerPredicate ss a t ht).labels_eq_nil

/-! ## Numbering -/

/-- A step interns names in order, and what it shows of its results are the labels in `before` and
then those of the names. -/
def Numbers {α : Type} (before : List (Option Int)) (x : WithLabels α) (names : List String)
    (view : α → List (Option Int)) : Prop :=
  ∀ labels, Ensures x labels
    (fun a labels' => labels' = labels.internAll names ∧
      view a = before ++ names.map fun name => Tree.labelOf (labels'.entries.idxOf name))
    fun _ _ => True

section

variable {α β : Type} {before : List (Option Int)} {names names' : List String}
  {view : α → List (Option Int)} {view' : β → List (Option Int)}

lemma numbers_pure {a : α} (h : view a = before) : Numbers before (pure a) [] view := fun _ =>
  ensures_pure ⟨rfl, by rw [h, List.map_nil, List.append_nil]⟩

lemma Numbers.bind {x : WithLabels α} {f : α → WithLabels β} (hx : Numbers before x names view)
    (hf : ∀ a, Numbers (view a) (f a) names' view') :
    Numbers before (x >>= f) (names ++ names') view' := by
  intro labels
  refine (hx labels).bind (fun _ _ _ => trivial) fun a labels₁ ⟨hlabels, hview⟩ => ?_
  refine (hf a labels₁).mono (fun b labels' ⟨hlabels', hview'⟩ => ?_) fun _ _ _ => trivial
  -- Labels that were interned before keep their index.
  have hkeep : ∀ name ∈ names, labels₁.entries.idxOf name = labels'.entries.idxOf name := by
    intro name hname
    rw [hlabels']
    exact (Pool.idxOf_internAll (hlabels ▸ Pool.mem_internAll hname) names').symm
  refine ⟨by rw [hlabels', hlabels, Pool.internAll_append], ?_⟩
  rw [hview', hview, List.map_append, List.append_assoc]
  congr 2
  exact List.map_congr_left fun name hname => by rw [hkeep name hname]

/-- A check comes first, which interns nothing. -/
lemma numbers_lift_bind {x : Except Problem α} {f : α → WithLabels β} {Q : α → Prop}
    (hx : Gives x Q) (hf : ∀ a, Q a → Numbers before (f a) names view') :
    Numbers before (liftM x >>= f) names view' := fun labels =>
  ensures_lift_bind (fun _ _ => trivial) fun a ha => hf a (hx a ha) labels

lemma numbers_lift {x : Except Problem α} (hx : Gives x fun a => view a = before) :
    Numbers before (liftM x) [] view := fun _ =>
  ensures_lift (fun _ _ => trivial) fun a ha =>
    ⟨rfl, by rw [hx a ha, List.map_nil, List.append_nil]⟩

lemma gives_true (x : Except Problem α) : Gives x fun _ => True := fun _ _ => trivial

end

lemma numbers_internLabel (before : List (Option Int)) (label : Option Ident) :
    Numbers before (internLabel label) (label.toList.map (·.name))
      fun i => before ++ i.toList.map Tree.labelOf := by
  intro labels
  cases label with
  | none => exact ⟨rfl, rfl⟩
  | some name =>
    have hindex := congrArg Tree.labelOf (labels.idxOf_intern name.name)
    exact ⟨rfl, congrArg (fun l => before ++ [l]) hindex.symm⟩

/-- Expanding constraint types interns the names on their statements. -/
def Expander.Numbers (expand : Expander job entered) (names : Ident → List String) : Prop :=
  ∀ (callee : Ident) (d : { d : ConstraintType // d ∈ job.file.constraintTypes })
    (g : Expandable job entered) (scope : Scope) (before : List (Option Int)),
    job.constraintType callee = .ok d → Job.enterConstraint d.1 d.2 callee.span = .ok g →
      Lowering.Numbers before (expand g scope) (names callee) fun t => before ++ t.labels

variable {expand : Expander job entered} {expandNames : Ident → List String}

mutual
lemma numbers_lowerGoal (hexpand : expand.Numbers expandNames) (ss : Scopes) (g : Goal)
    (before : List (Option Int)) :
    Numbers before (lowerGoal expand ss g) (g.labelNames expandNames)
      fun t => before ++ t.labels := by
  match g with
  | .block q body =>
    rw [lowerGoal, Goal.labelNames, ← List.append_nil (Goal.labelNamesAll _ _)]
    refine (numbers_lowerGoals hexpand ss body before).bind fun ts => numbers_pure ?_
    rw [Tree.labels_quantified]
  | .attr field c e =>
    rw [lowerGoal, Goal.labelNames]
    refine numbers_lift fun t ht => ?_
    have hnone : t.labels = [] := labels_comparison_eq_nil ss c (.attr field.name) e t ht
    exact (congrArg (before ++ ·) hnone).trans (List.append_nil before)
  | .measure m c e =>
    rw [lowerGoal, Goal.labelNames]
    refine numbers_lift fun t ht => ?_
    have hnone : t.labels = [] :=
      labels_comparison_eq_nil ss c (Tree.subject_ofMeasure .constraint m) e t ht
    exact (congrArg (before ++ ·) hnone).trans (List.append_nil before)
  | .select label predicate kind =>
    rw [lowerGoal, Goal.labelNames, ← List.append_nil (List.map _ _)]
    refine (numbers_internLabel before label).bind fun i => ?_
    refine numbers_lift_bind (labels_lowerPredicate ss predicate) fun test htest => ?_
    refine numbers_pure ?_
    rw [Tree.labels_labelled, Tree.labels_node (by decide)]
    simp [Tree.labelsAll, Tree.labels, htest]
  | .within label predicate kind q body =>
    rw [lowerGoal, Goal.labelNames]
    refine (numbers_internLabel before label).bind fun i => ?_
    refine numbers_lift_bind (labels_lowerPredicate ss predicate) fun test htest => ?_
    rw [← List.append_nil (Goal.labelNamesAll _ _)]
    refine (numbers_lowerGoals hexpand ss body _).bind fun ts => numbers_pure ?_
    rw [Tree.labels_labelled, Tree.labels_node (by decide)]
    simp [Tree.labelsAll, Tree.labels, htest, Tree.labels_quantified]
  | .apply label predicate target =>
    rw [lowerGoal, Goal.labelNames]
    refine (numbers_internLabel before label).bind fun i => ?_
    refine numbers_lift_bind (Q := fun d => job.constraintType target.callee = .ok d)
      (fun _ hd => hd) fun d hd => ?_
    refine numbers_lift_bind
      (Q := fun g => Job.enterConstraint d.1 d.2 target.callee.span = .ok g)
      (fun _ hg => hg) fun g hg => ?_
    refine numbers_lift_bind (gives_true _) fun scope _ => ?_
    refine numbers_lift_bind (labels_lowerPredicate ss predicate) fun test htest => ?_
    rw [← List.append_nil (expandNames _)]
    refine Numbers.bind (hexpand target.callee d g scope _ hd hg) fun block => numbers_pure ?_
    rw [Tree.labels_labelled, Tree.labels_node (by decide)]
    simp [Tree.labelsAll, Tree.labels, htest]

lemma numbers_lowerGoals (hexpand : expand.Numbers expandNames) (ss : Scopes) (gs : List Goal)
    (before : List (Option Int)) :
    Numbers before (lowerGoals expand ss gs) (Goal.labelNamesAll expandNames gs)
      fun ts => before ++ Tree.labelsAll ts := by
  match gs with
  | [] =>
    rw [lowerGoals, Goal.labelNamesAll]
    exact numbers_pure (by rw [Tree.labelsAll, List.append_nil])
  | g :: gs =>
    rw [lowerGoals, Goal.labelNamesAll]
    refine (numbers_lowerGoal hexpand ss g before).bind fun t => ?_
    rw [← List.append_nil (Goal.labelNamesAll _ _)]
    refine (numbers_lowerGoals hexpand ss gs _).bind fun ts => numbers_pure ?_
    rw [Tree.labelsAll, List.append_assoc]
end

lemma numbers_expandConstraint (job : Job) (entered : List String) :
    Expander.Numbers (expandConstraint job entered) (job.expandedNames entered) := by
  intro callee d g scope before hd hg
  have hexpand := numbers_expandConstraint job (g.name :: entered)
  have hnames : job.expandedNames entered callee
      = Goal.labelNamesAll (job.expandedNames (g.name :: entered)) g.definition.body := by
    rw [Job.expandedNames, hd]
    dsimp only
    rw [hg]
  rw [expandConstraint, hnames]
  exact numbers_lowerGoal hexpand [scope] _ before
termination_by Nesting.remaining job.constraintNames entered
decreasing_by exact Expandable.remaining_lt _

/-- Lowering the main constraint interns the names on its statements. -/
lemma numbers_lowerMain (job : Job) : Numbers [] job.lowerMain job.labelNames Tree.labels := by
  refine numbers_lift_bind (Q := fun d => job.main = .ok d) (fun _ hd => hd) fun d hd => ?_
  have hfind : job.file.main? = some d := by
    unfold Job.main at hd
    split at hd
    · next hsome =>
      cases hd
      exact hsome
    · cases hd
  have hnames : job.labelNames
      = (Goal.block d.quantifier d.body).labelNames (job.expandedNames []) := by
    rw [Job.labelNames, hfind, Goal.labelNames]
  rw [hnames]
  exact numbers_lowerGoal (numbers_expandConstraint job []) _ _ []

end Lowering

/-- The names on statements are numbered as they are first met, and the labelled nodes of the tree
carry these numbers. -/
theorem Job.labels_of_lowerMain {job : Job} {t : Tree} {labels : Pool String}
    (h : job.lowerMain {} = .ok t labels) :
    labels.entries = job.labelNames.eraseDups ∧
      t.labels = job.labelNames.map fun name =>
        Tree.labelOf (job.labelNames.eraseDups.idxOf name) := by
  obtain ⟨hlabels, hview⟩ := (Lowering.numbers_lowerMain job {}).of_ok h
  have hentries : labels.entries = job.labelNames.eraseDups := by
    rw [hlabels, Pool.entries_internAll_nil]
  rw [hentries, List.nil_append] at hview
  exact ⟨hentries, hview⟩

end Arbor
