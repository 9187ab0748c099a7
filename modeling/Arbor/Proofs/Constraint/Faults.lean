import Arbor.Constraint.Lowering
import Arbor.Proofs.Emission.Outcome
import Arbor.Proofs.Evaluation.Recursion

/-!
# Problems of constraints

Lowering a constraint looks names up, binds parameters and evaluates expressions.  Its problems are
followed along the text of the constraint, for any class of problems that has those of evaluation
and the faults of these operations in it (`Lowering.Permits`), and that recursion is in where it is
met (`Lowering.Expander.Raising`).

* `Job.ensures_lowerMain`: the main constraint is lowered, or the program has a fault.
* `Job.raises_lowerMain`: recursion is reported only where there is some.
-/

namespace Arbor

open Step

namespace Lowering

variable {α : Type} {job : Job} {E : Problem → Prop}

/-- Problems of evaluation are in `E`, and so are plain faults. -/
structure Permits (job : Job) (E : Problem → Prop) : Prop where
  fault : ∀ p : Problem, p.IsFault → p.IsPlain → E p
  evaluate : ∀ (ss : Scopes) (e : Expr), Check.Raises E (job.evaluate ss [] e)

lemma Permits.check {x : Except Problem α} (hE : Permits job E)
    (hfault : ∀ p, x = .error p → p.IsFault) (hplain : Check.Raises Problem.IsPlain x) :
    Check.Raises E x :=
  fun p hp => hE.fault p (hfault p hp) (hplain p hp)

/-! ## Values and predicates -/

lemma raises_value (hE : Permits job E) (ss : Scopes) (e : Expr) :
    Check.Raises E (value job ss e) := by
  refine (hE.evaluate ss e).bind fun r _ => ?_
  cases r with
  | some d => exact Check.raises_ok d
  | none => exact Check.raises_throw (hE.fault _ trivial trivial)

lemma raises_define (hE : Permits job E) (s : Scope) (name : Ident) (b : Binding) :
    Check.Raises E (s.define name b) :=
  hE.check (fun _ hp => Scope.isFault_of_define hp) (s.raises_define name b)

lemma raises_bindValues (hE : Permits job E) (ss : Scopes) (scope : Scope) (ps : List Ident)
    (es : List Expr) : Check.Raises E (bindValues job ss scope ps es) := by
  induction ps generalizing scope es with
  | nil =>
    rw [bindValues.eq_def]
    exact Check.raises_ok scope
  | cons p ps ih =>
    cases es with
    | nil =>
      rw [bindValues.eq_def]
      exact Check.raises_ok scope
    | cons e es =>
      rw [bindValues]
      refine (raises_value hE ss e).bind fun d _ => ?_
      exact (raises_define hE scope p _).bind fun scope' _ => ih scope' es

lemma raises_argumentScope (hE : Permits job E) (ss : Scopes) (a : Application)
    (ps : List Ident) : Check.Raises E (argumentScope job ss a ps) :=
  (hE.check (fun _ hp => Check.isFault_of_arguments hp) (Check.raises_arguments _ _ _)).bind
    fun _ _ => raises_bindValues hE ss {} ps a.args

lemma raises_comparison (hE : Permits job E) (ss : Scopes) (c : Comparison) (subject : Tree)
    (e : Expr) : Check.Raises E (comparison job ss c subject e) :=
  (raises_value hE ss e).bind fun _ _ => Check.raises_ok _

mutual
lemma raises_lowerTest (hE : Permits job E) (ss : Scopes) (t : Test) :
    Check.Raises E (lowerTest job ss t) := by
  match t with
  | .block q body =>
    rw [lowerTest]
    exact (raises_lowerTests hE ss body).bind fun _ _ => Check.raises_ok _
  | .measure m c e =>
    rw [lowerTest]
    exact raises_comparison hE ss c _ e

lemma raises_lowerTests (hE : Permits job E) (ss : Scopes) (ts : List Test) :
    Check.Raises E (lowerTests job ss ts) := by
  match ts with
  | [] =>
    rw [lowerTests]
    exact Check.raises_ok _
  | t :: ts =>
    rw [lowerTests]
    refine (raises_lowerTest hE ss t).bind fun _ _ => ?_
    exact (raises_lowerTests hE ss ts).bind fun _ _ => Check.raises_ok _
end

lemma raises_predicate (hE : Permits job E) (name : Ident) :
    Check.Raises E (job.predicate name) := by
  unfold Job.predicate
  split
  · exact Check.raises_ok _
  · exact Check.raises_throw (hE.fault _ trivial trivial)

lemma raises_lowerPredicate (hE : Permits job E) (ss : Scopes) (a : Application) :
    Check.Raises E (lowerPredicate job ss a) := by
  refine (raises_predicate hE a.callee).bind fun d _ => ?_
  refine (raises_argumentScope hE ss a d.params).bind fun scope _ => ?_
  exact raises_lowerTest hE [scope] _

/-! ## Constraints -/

lemma raises_constraintType (hE : Permits job E) (name : Ident) :
    Check.Raises E (job.constraintType name) := by
  unfold Job.constraintType
  split
  · exact Check.raises_ok _
  · exact Check.raises_throw (hE.fault _ trivial trivial)

lemma raises_internLabel (label : Option Ident) : Raises E (internLabel label) := by
  intro labels
  cases label <;> trivial

variable {entered called : List String} {expand : Expander job entered}

lemma definition_of_enterConstraint {d : ConstraintType} {mem : d ∈ job.file.constraintTypes}
    {span : Span} {g : Expandable job entered} (h : Job.enterConstraint d mem span = .ok g) :
    g.definition = d := by
  unfold Job.enterConstraint at h
  split at h <;> cases h
  rfl

/-- Entering and expanding the constraint types `called` raises problems in `E` only. -/
structure Expander.Raising (expand : Expander job entered) (E : Problem → Prop)
    (called : List String) : Prop where
  enter : ∀ (c : String) (d : ConstraintType) (span : Span), c ∈ called →
    job.constraintGraph.find? c = some d → d.ident.name ∈ entered →
    E (Fault.recursiveConstraint.atSpan span)
  expand : ∀ {c : String} {g : Expandable job entered} (scope : Scope), c ∈ called →
    job.constraintGraph.find? c = some g.definition → Raises E (expand g scope)

lemma Expander.Raising.raises_enterConstraint (h : expand.Raising E called) {c : String}
    {d : ConstraintType} (mem : d ∈ job.file.constraintTypes) (hc : c ∈ called)
    (hd : job.constraintGraph.find? c = some d) (span : Span) :
    Check.Raises E (Job.enterConstraint d mem span : Except Problem (Expandable job entered)) := by
  unfold Job.enterConstraint
  split
  · next hmem => exact Check.raises_throw (h.enter c d span hc hd hmem)
  · exact Check.raises_ok _

mutual
lemma raises_lowerGoal (hE : Permits job E) (h : expand.Raising E called) (ss : Scopes) (g : Goal)
    (hg : ∀ c ∈ g.targets, c ∈ called) : Raises E (lowerGoal expand ss g) := by
  match g with
  | .block q body =>
    rw [lowerGoal]
    rw [Goal.targets] at hg
    exact (raises_lowerGoals hE h ss body hg).bind fun _ => raises_pure _
  | .attr field c e =>
    rw [lowerGoal]
    exact raises_lift (raises_comparison hE ss c _ e)
  | .measure m c e =>
    rw [lowerGoal]
    exact raises_lift (raises_comparison hE ss c _ e)
  | .select label predicate kind =>
    rw [lowerGoal]
    refine (raises_internLabel label).bind fun _ => ?_
    exact (raises_lift (raises_lowerPredicate hE ss predicate)).bind fun _ => raises_pure _
  | .within label predicate kind q body =>
    rw [lowerGoal]
    rw [Goal.targets] at hg
    refine (raises_internLabel label).bind fun _ => ?_
    refine (raises_lift (raises_lowerPredicate hE ss predicate)).bind fun _ => ?_
    exact (raises_lowerGoals hE h ss body hg).bind fun _ => raises_pure _
  | .apply label predicate target =>
    rw [lowerGoal]
    rw [Goal.targets, List.forall_mem_singleton] at hg
    refine (raises_internLabel label).bind fun _ => ?_
    refine raises_lift_bind (raises_constraintType hE target.callee) fun d hd => ?_
    have hfind := Job.constraintGraph_find?_of_constraintType hd
    refine raises_lift_bind (h.raises_enterConstraint d.2 hg hfind _) fun x hx => ?_
    have hdef : x.definition = d.1 := definition_of_enterConstraint hx
    refine (raises_lift (raises_argumentScope hE ss target d.1.params)).bind fun scope => ?_
    refine (raises_lift (raises_lowerPredicate hE ss predicate)).bind fun _ => ?_
    exact (h.expand scope hg (hdef ▸ hfind)).bind fun _ => raises_pure _

lemma raises_lowerGoals (hE : Permits job E) (h : expand.Raising E called) (ss : Scopes)
    (gs : List Goal) (hg : ∀ c ∈ Goal.targetsAll gs, c ∈ called) :
    Raises E (lowerGoals expand ss gs) := by
  match gs with
  | [] =>
    rw [lowerGoals]
    exact raises_pure _
  | g :: gs =>
    rw [lowerGoals]
    rw [Goal.targetsAll, List.forall_mem_append] at hg
    refine (raises_lowerGoal hE h ss g hg.1).bind fun _ => ?_
    exact (raises_lowerGoals hE h ss gs hg.2).bind fun _ => raises_pure _
end

/-- Lowering the main constraint raises what expansion does. -/
lemma raises_lowerMain (hE : Permits job E) (hmain : E Fault.undefinedMain.overall)
    (h : ∀ called, Expander.Raising (expandConstraint job []) E called) :
    Raises E job.lowerMain := by
  have hraises : Check.Raises E job.main := by
    unfold Job.main
    split
    · exact Check.raises_ok _
    · exact Check.raises_throw hmain
  exact (raises_lift hraises).bind fun main =>
    raises_lowerGoal hE (h _) [{}] _ fun _ hc => hc

/-! ## Faults -/

/-- Constraint types are expanded one inside the other, each under a new name. -/
lemma faults_expandConstraint (hE : Permits job Problem.IsFault) (entered called : List String) :
    Expander.Raising (expandConstraint job entered) Problem.IsFault called := by
  refine ⟨fun _ _ _ _ _ _ => trivial, fun {_ g} scope _ _ => ?_⟩
  have hexpand := faults_expandConstraint hE (g.name :: entered)
    (Goal.targets (.block g.definition.quantifier g.definition.body))
  rw [expandConstraint]
  exact raises_lowerGoal hE hexpand [scope] _ fun _ hc => hc
termination_by Nesting.remaining job.constraintNames entered
decreasing_by exact Expandable.remaining_lt _

/-! ## Recursion -/

/-- Constraint types are expanded one inside the other, each applied in the body of the last. -/
lemma raising_expandConstraint (hE : Permits job job.Justified) (entered : List String)
    {called : List String} (h : job.constraintGraph.Follows entered called) :
    Expander.Raising (expandConstraint job entered) job.Justified called := by
  refine ⟨fun c d span hc hd hmem => ?_, fun {c g} scope hc hg => ?_⟩
  · rw [Job.name_of_constraintGraph_find? hd] at hmem
    exact h.cyclic hc hd hmem
  · have hname : g.name = c := Job.name_of_constraintGraph_find? hg
    -- everything entered leads to what the body applies, because it leads to the type itself
    have hbody := raising_expandConstraint hE (g.name :: entered) (hname ▸ h.enter hc hg)
    rw [expandConstraint]
    refine raises_lowerGoal hE hbody [scope] _ fun c hc => ?_
    rwa [Goal.targets] at hc
termination_by Nesting.remaining job.constraintNames entered
decreasing_by exact Expandable.remaining_lt _

end Lowering

namespace Job

variable {job : Job}

/-- The main constraint is lowered, or the program has a fault. -/
lemma ensures_lowerMain (hstd : job.builtins = .standard) (labels : Pool String) :
    Ensures job.lowerMain labels (fun _ _ => True) fun p _ => p.IsFault := by
  have hE : Lowering.Permits job Problem.IsFault :=
    ⟨fun _ hp _ => hp, fun _ _ _ hp => Emission.isFault_of_evaluate hstd hp⟩
  exact Lowering.raises_lowerMain hE trivial (Lowering.faults_expandConstraint hE []) labels

/-- Lowering the main constraint reports recursion only where there is some. -/
lemma raises_lowerMain (job : Job) : Raises job.Justified job.lowerMain := by
  have hE : Lowering.Permits job job.Justified :=
    ⟨fun _ _ hp => justified_of_isPlain hp,
      fun ss _ => raises_evaluate (CallGraph.follows_nil _) ss fun _ hc => hc⟩
  exact Lowering.raises_lowerMain hE trivial fun called =>
    Lowering.raising_expandConstraint hE [] (CallGraph.follows_nil called)

end Job

end Arbor
