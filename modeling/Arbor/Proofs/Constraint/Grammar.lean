import Arbor.Constraint.Lowering
import Arbor.Proofs.Constraint.Collapse
import Arbor.Proofs.Problem.Ensures

/-!
# The grammar of constraint trees

An engine that evaluates a tree takes it as it is, so every tree that lowering makes has to be one
that it can read.  `Tree.Conforms` is the grammar.  Constraints and predicates are quantified and
compare quantities alike, but only a constraint looks at attributes of the node, selects children
and carries labels.

`Lowering.conforms_lowerMain`: what lowering makes of the main constraint conforms, whatever the
labels are.
-/

namespace Arbor

open Step

namespace NodeTag

/-- Whether a node compares a quantity with a constant. -/
def isComparison : NodeTag → Bool
  | .equal | .notEqual | .less | .lessEqual | .greater | .greaterEqual | .multiple | .power => true
  | _ => false

/-- Whether a node makes one number of those of several children. -/
def isAggregate : NodeTag → Bool
  | .min | .max | .sum | .avg => true
  | _ => false

lemma isComparison_ofComparison (c : Comparison) : (ofComparison c).isComparison = true := by
  cases c <;> rfl

lemma isAggregate_ofAggregate (a : Aggregate) : (ofAggregate a).isAggregate = true := by
  cases a <;> rfl

end NodeTag

namespace Tree

/-- What the statements of a tree are about. -/
inductive Role where
  /-- A node and its children. -/
  | constraint
  /-- A set of selected children. -/
  | predicate

/-- The quantities that may be compared. -/
inductive Subject : Role → Tree → Prop
  | size {role : Role} : Subject role (.node .size [])
  | attr (name : String) : Subject .constraint (.node .attr [.leaf (.str name)])
  | aggregate {role : Role} {tag : NodeTag} (htag : tag.isAggregate = true) (kind : String) :
      Subject role (.node tag [.leaf (.str kind)])

/-- The grammar of trees.  If `collapsed` is set, no quantifier has one argument; labels carry
integers that satisfy `index`. -/
inductive Conforms (collapsed : Bool) (index : Int64 → Prop) : Role → Tree → Prop
  | quantifier {role : Role} {tag : NodeTag} {args : List Tree} (htag : tag.isQuantifier = true)
      (hargs : ∀ t ∈ args, Conforms collapsed index role t)
      (hlength : collapsed = true → args.length ≠ 1) :
      Conforms collapsed index role (.node tag args)
  | comparison {role : Role} {tag : NodeTag} {subject : Tree} (htag : tag.isComparison = true)
      (hsubject : Subject role subject) (d : Datum) :
      Conforms collapsed index role (.node tag [subject, .leaf d])
  /-- There are children of a kind that satisfy a predicate. -/
  | select {test : Tree} (kind : String) (htest : Conforms collapsed index .predicate test) :
      Conforms collapsed index .constraint (.node .select [.leaf (.str kind), test])
  /-- The children of a kind that satisfy a predicate meet a constraint. -/
  | within {test block : Tree} (kind : String) (htest : Conforms collapsed index .predicate test)
      (hblock : Conforms collapsed index .constraint block) :
      Conforms collapsed index .constraint (.node .select [.leaf (.str kind), test, block])
  | label {i : Int64} {args : List Tree} (hi : index i)
      (hargs : Conforms collapsed index .constraint (.node .select args)) :
      Conforms collapsed index .constraint
        (.node .label [.leaf (.number (.int i)), .node .select args])

/-! ## Making trees -/

variable {collapsed : Bool} {index : Int64 → Prop} {role : Role}

lemma subject_ofMeasure (role : Role) (m : Measure) : Subject role (ofMeasure m) := by
  cases m with
  | size => exact .size
  | aggregate how kind => exact .aggregate (NodeTag.isAggregate_ofAggregate how) kind.name

lemma conforms_compare (c : Comparison) {subject : Tree} (h : Subject role subject) (d : Datum) :
    Conforms collapsed index role (compare c subject d) :=
  .comparison (NodeTag.isComparison_ofComparison c) h d

lemma conforms_quantified (q : Quantifier) {ts : List Tree}
    (h : ∀ t ∈ ts, Conforms collapsed index role t) :
    Conforms collapsed index role (quantified collapsed q ts) := by
  have hnode : (collapsed = true → ts.length ≠ 1) →
      Conforms collapsed index role (.node (.ofQuantifier q) ts) :=
    .quantifier (NodeTag.isQuantifier_ofQuantifier q) h
  unfold quantified
  split
  · next t =>
    split
    · exact h t (by simp)
    · next hkeep => exact hnode fun hcollapsed => absurd hcollapsed hkeep
  · next hmany => exact hnode fun _ hone => (List.length_eq_one_iff.1 hone).elim hmany

lemma conforms_labelled {label : Option Nat} {args : List Tree}
    (h : Conforms collapsed index .constraint (.node .select args))
    (hlabel : ∀ i ∈ label, index (Int64.ofNat i)) :
    Conforms collapsed index .constraint (labelled label (.node .select args)) := by
  cases label with
  | none => exact h
  | some i => exact .label (hlabel i rfl) h

end Tree

namespace Lowering

/-! ## Results -/

/-- Every result of a check satisfies a property. -/
def Gives {α : Type} (x : Except Problem α) (Q : α → Prop) : Prop := ∀ a, x = .ok a → Q a

/-- Every result of a step satisfies a property. -/
abbrev StepGives {α : Type} (x : WithLabels α) (Q : α → Prop) : Prop :=
  ∀ labels, Ensures x labels (fun a _ => Q a) fun _ _ => True

section

variable {α β : Type} {Q : α → Prop} {R : β → Prop}

lemma gives_pure {a : α} (h : Q a) : Gives (pure a) Q := by
  rintro _ ⟨⟩
  exact h

lemma Gives.bind {x : Except Problem α} {f : α → Except Problem β} (hx : Gives x Q)
    (hf : ∀ a, Q a → Gives (f a) R) : Gives (x >>= f) R := by
  cases x with
  | ok a => exact hf a (hx a rfl)
  | error p => rintro _ ⟨⟩

lemma gives_bind {x : Except Problem α} {f : α → Except Problem β}
    (hf : ∀ a, Gives (f a) R) : Gives (x >>= f) R :=
  Gives.bind (fun _ _ => trivial) fun a (_ : True) => hf a

lemma stepGives_pure {a : α} (h : Q a) : StepGives (pure a) Q := fun _ => h

lemma StepGives.bind {x : WithLabels α} {f : α → WithLabels β} (hx : StepGives x Q)
    (hf : ∀ a, Q a → StepGives (f a) R) : StepGives (x >>= f) R := fun labels =>
  (hx labels).bind (fun _ _ _ => trivial) fun a labels' h => hf a h labels'

lemma stepGives_bind {x : WithLabels α} {f : α → WithLabels β}
    (hf : ∀ a, StepGives (f a) R) : StepGives (x >>= f) R := by
  refine StepGives.bind (fun labels => ?_) fun a (_ : True) => hf a
  unfold Ensures
  split <;> trivial

lemma Gives.step {x : Except Problem α} (hx : Gives x Q) : StepGives (liftM x) Q := fun _ =>
  ensures_lift (fun _ _ => trivial) hx

end

/-! ## Lowered trees conform -/

variable {job : Job} {entered : List String} {expand : Expander job entered}

/-- The trees of a job, with labels left out of account. -/
abbrev Shape (job : Job) (role : Tree.Role) (t : Tree) : Prop :=
  t.Conforms job.config.redundantQuantifier (fun _ => True) role

lemma conforms_comparison (ss : Scopes) (c : Comparison) {role : Tree.Role} {subject : Tree}
    (h : subject.Subject role) (e : Expr) :
    Gives (comparison job ss c subject e) (Shape job role) :=
  gives_bind fun d => gives_pure (Tree.conforms_compare c h d)

mutual
lemma conforms_lowerTest (ss : Scopes) (t : Test) :
    Gives (lowerTest job ss t) (Shape job .predicate) := by
  match t with
  | .block q body =>
    rw [lowerTest]
    exact (conforms_lowerTests ss body).bind fun ts hts =>
      gives_pure (Tree.conforms_quantified q hts)
  | .measure m c e =>
    rw [lowerTest]
    exact conforms_comparison ss c (Tree.subject_ofMeasure _ m) e

lemma conforms_lowerTests (ss : Scopes) (ts : List Test) :
    Gives (lowerTests job ss ts) fun trees => ∀ t ∈ trees, Shape job .predicate t := by
  match ts with
  | [] =>
    rw [lowerTests]
    exact gives_pure (by simp)
  | t :: ts =>
    rw [lowerTests]
    refine (conforms_lowerTest ss t).bind fun tree htree => ?_
    refine (conforms_lowerTests ss ts).bind fun trees htrees => ?_
    exact gives_pure (List.forall_mem_cons.2 ⟨htree, htrees⟩)
end

lemma conforms_lowerPredicate (ss : Scopes) (a : Application) :
    Gives (lowerPredicate job ss a) (Shape job .predicate) :=
  gives_bind fun _ => gives_bind fun scope => conforms_lowerTest [scope] _

/-- Constraint types are expanded to constraints. -/
def Expander.Conforms (expand : Expander job entered) : Prop :=
  ∀ g scope, StepGives (expand g scope) (Shape job .constraint)

mutual
lemma conforms_lowerGoal (hexpand : expand.Conforms) (ss : Scopes) (g : Goal) :
    StepGives (lowerGoal expand ss g) (Shape job .constraint) := by
  match g with
  | .block q body =>
    rw [lowerGoal]
    exact (conforms_lowerGoals hexpand ss body).bind fun ts hts =>
      stepGives_pure (Tree.conforms_quantified q hts)
  | .attr field c e =>
    rw [lowerGoal]
    exact (conforms_comparison ss c (.attr field.name) e).step
  | .measure m c e =>
    rw [lowerGoal]
    exact (conforms_comparison ss c (Tree.subject_ofMeasure _ m) e).step
  | .select label predicate kind =>
    rw [lowerGoal]
    refine stepGives_bind fun label => ?_
    refine (conforms_lowerPredicate ss predicate).step.bind fun test htest => ?_
    exact stepGives_pure (Tree.conforms_labelled (.select kind.name htest) fun _ _ => trivial)
  | .within label predicate kind q body =>
    rw [lowerGoal]
    refine stepGives_bind fun label => ?_
    refine (conforms_lowerPredicate ss predicate).step.bind fun test htest => ?_
    refine (conforms_lowerGoals hexpand ss body).bind fun ts hts => stepGives_pure ?_
    have hblock := Tree.conforms_quantified q hts
    exact Tree.conforms_labelled (.within kind.name htest hblock) fun _ _ => trivial
  | .apply label predicate target =>
    rw [lowerGoal]
    refine stepGives_bind fun label => stepGives_bind fun d => stepGives_bind fun g =>
      stepGives_bind fun scope => ?_
    refine (conforms_lowerPredicate ss predicate).step.bind fun test htest => ?_
    refine StepGives.bind (hexpand g scope) fun block hblock => stepGives_pure ?_
    exact Tree.conforms_labelled (.within d.1.kind.name htest hblock) fun _ _ => trivial

lemma conforms_lowerGoals (hexpand : expand.Conforms) (ss : Scopes) (gs : List Goal) :
    StepGives (lowerGoals expand ss gs) fun trees => ∀ t ∈ trees, Shape job .constraint t := by
  match gs with
  | [] =>
    rw [lowerGoals]
    exact stepGives_pure (by simp)
  | g :: gs =>
    rw [lowerGoals]
    refine (conforms_lowerGoal hexpand ss g).bind fun tree htree => ?_
    refine (conforms_lowerGoals hexpand ss gs).bind fun trees htrees => ?_
    exact stepGives_pure (List.forall_mem_cons.2 ⟨htree, htrees⟩)
end

lemma conforms_expandConstraint (job : Job) (entered : List String) :
    Expander.Conforms (expandConstraint job entered) := by
  intro g scope
  have hexpand := conforms_expandConstraint job (g.name :: entered)
  rw [expandConstraint]
  exact conforms_lowerGoal hexpand [scope] _
termination_by Nesting.remaining job.constraintNames entered
decreasing_by exact Expandable.remaining_lt _

/-- What lowering makes of the main constraint is a constraint. -/
theorem conforms_lowerMain {labels labels' : Pool String} {t : Tree}
    (h : job.lowerMain labels = .ok t labels') : Shape job .constraint t := by
  have hmain : StepGives job.lowerMain (Shape job .constraint) :=
    stepGives_bind fun _ => conforms_lowerGoal (conforms_expandConstraint job []) _ _
  exact (hmain labels).of_ok h

end Lowering

end Arbor
