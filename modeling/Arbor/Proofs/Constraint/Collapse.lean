import Arbor.Constraint.Tree
import Mathlib.Data.List.Basic
import Mathlib.Tactic.Lemma

/-!
# Collapsing quantifiers

A quantifier over a single statement says what the statement says.  `Tree.collapse` takes all such
quantifiers out of a tree, from the leaves up, and leaves none (`Tree.collapsed_collapse`).

What trees say is left to an `Engine`, which knows the meaning of all nodes but the quantifiers: it
gives terms a value, and it tells in which worlds statements hold, from the meaning of their
arguments alone.  A world stands for whatever the truth of a statement depends on, such as the node
that is looked at.  Whatever the engine, collapsing a tree whose quantifiers range over statements
does not change its meaning (`Tree.meaning_collapse`).
-/

namespace Arbor

namespace NodeTag

/-- Whether a node quantifies over its arguments. -/
def isQuantifier : NodeTag → Bool
  | .all | .any | .one => true
  | _ => false

/-- Whether a node is true or false, rather than a term. -/
def isStatement : NodeTag → Bool
  | .attr | .size | .min | .max | .sum | .avg => false
  | _ => true

lemma isQuantifier_ofQuantifier (q : Quantifier) : (ofQuantifier q).isQuantifier = true := by
  cases q <;> rfl

lemma isQuantifier_ofComparison (c : Comparison) : (ofComparison c).isQuantifier = false := by
  cases c <;> rfl

lemma isQuantifier_ofAggregate (a : Aggregate) : (ofAggregate a).isQuantifier = false := by
  cases a <;> rfl

end NodeTag

namespace Tree

/-- Trees are built from leaves by nodes. -/
theorem induct {P : Tree → Prop} (leaf : ∀ d, P (.leaf d))
    (node : ∀ tag args, (∀ t ∈ args, P t) → P (.node tag args)) (t : Tree) : P t := by
  refine Tree.rec leaf (fun tag args ih => node tag args ih) (by simp) ?_ t
  intro t ts ht hts
  exact List.forall_mem_cons.2 ⟨ht, hts⟩

/-! ## Collapsing -/

/-- A node whose arguments have been collapsed.  A quantifier over one statement is that
statement. -/
def collapseNode (tag : NodeTag) : List Tree → Tree
  | [t] => if tag.isQuantifier then t else .node tag [t]
  | ts => .node tag ts

mutual
/-- Replaces, from the leaves up, every quantifier over one argument by that argument. -/
def collapse : Tree → Tree
  | .leaf d => .leaf d
  | .node tag args => collapseNode tag (collapseAll args)

/-- Collapses each of several trees. -/
def collapseAll : List Tree → List Tree
  | [] => []
  | t :: ts => t.collapse :: collapseAll ts
end

lemma collapseAll_eq_map (ts : List Tree) : collapseAll ts = ts.map collapse := by
  induction ts with
  | nil => rfl
  | cons t ts ih => rw [collapseAll, ih, List.map_cons]

lemma collapse_node (tag : NodeTag) (args : List Tree) :
    (node tag args).collapse = collapseNode tag (args.map collapse) := by
  rw [collapse, collapseAll_eq_map]

/-- A quantifier over one argument is collapsed to it. -/
lemma collapse_node_singleton {tag : NodeTag} (h : tag.isQuantifier = true) (t : Tree) :
    (node tag [t]).collapse = t.collapse := by
  simp [collapse_node, collapseNode, h]

/-- All other nodes stay. -/
lemma collapse_node_of_not_redundant {tag : NodeTag} {args : List Tree}
    (h : tag.isQuantifier = true → args.length ≠ 1) :
    (node tag args).collapse = .node tag (args.map collapse) := by
  rw [collapse_node]
  unfold collapseNode
  split
  · next t' ht' =>
    have hlength : args.length = 1 := by
      rw [← List.length_map collapse, ht', List.length_singleton]
    rw [if_neg fun hq => h hq hlength, ← ht']
  · rfl

/-- Only quantifiers are collapsed. -/
lemma collapse_node_of_not_isQuantifier {tag : NodeTag} (h : tag.isQuantifier = false)
    (args : List Tree) : (node tag args).collapse = .node tag (args.map collapse) :=
  collapse_node_of_not_redundant fun hq => absurd hq (by simp [h])

/-- No quantifier of a tree has one argument. -/
inductive Collapsed : Tree → Prop
  | leaf (d : Datum) : Collapsed (.leaf d)
  | node {tag : NodeTag} {args : List Tree} (h : tag.isQuantifier = true → args.length ≠ 1)
      (hargs : ∀ t ∈ args, t.Collapsed) : Collapsed (.node tag args)

/-- Collapsing leaves no quantifier over one argument. -/
theorem collapsed_collapse (t : Tree) : t.collapse.Collapsed := by
  induction t using induct with
  | leaf d =>
    rw [collapse]
    exact .leaf d
  | node tag args ih =>
    by_cases h : tag.isQuantifier = true ∧ args.length = 1
    · obtain ⟨hq, hlength⟩ := h
      obtain ⟨t, rfl⟩ := List.length_eq_one_iff.1 hlength
      rw [collapse_node_singleton hq]
      exact ih t (by simp)
    · have hkeep : tag.isQuantifier = true → args.length ≠ 1 := fun hq hone => h ⟨hq, hone⟩
      rw [collapse_node_of_not_redundant hkeep]
      refine .node (by simpa using hkeep) fun t' ht' => ?_
      obtain ⟨t, ht, rfl⟩ := List.mem_map.1 ht'
      exact ih t ht

/-- A block that is collapsed when it is made is the block that is made and then collapsed. -/
lemma collapse_quantified (q : Quantifier) (ts : List Tree) :
    (quantified false q ts).collapse = quantified true q (ts.map collapse) := by
  have hq := NodeTag.isQuantifier_ofQuantifier q
  rcases ts with _ | ⟨t, _ | ⟨t', ts⟩⟩
  · simp [quantified, collapse_node, collapseNode]
  · simp [quantified, collapse_node, collapseNode, hq]
  · simp [quantified, collapse_node, collapseNode]

@[simp] lemma collapse_leaf (d : Datum) : (leaf d).collapse = .leaf d := by
  rw [collapse]

@[simp] lemma collapse_attr (name : String) : (attr name).collapse = .attr name := by
  rw [attr, collapse_node_of_not_isQuantifier rfl, List.map_cons, List.map_nil, collapse_leaf]

@[simp] lemma collapse_ofMeasure (m : Measure) : (ofMeasure m).collapse = .ofMeasure m := by
  cases m with
  | size => rw [ofMeasure, size, collapse_node_of_not_isQuantifier rfl, List.map_nil]
  | aggregate how kind =>
    rw [ofMeasure, collapse_node_of_not_isQuantifier (NodeTag.isQuantifier_ofAggregate how),
      List.map_cons, List.map_nil, collapse_leaf]

lemma collapse_compare (c : Comparison) (subject : Tree) (d : Datum) :
    (compare c subject d).collapse = .compare c subject.collapse d := by
  rw [compare, collapse_node_of_not_isQuantifier (NodeTag.isQuantifier_ofComparison c),
    List.map_cons, List.map_cons, List.map_nil, collapse_leaf]
  rfl

lemma collapse_select (args : List Tree) :
    (node .select args).collapse = .node .select (args.map collapse) :=
  collapse_node_of_not_isQuantifier rfl args

lemma collapse_labelled (label : Option Nat) (t : Tree) :
    (labelled label t).collapse = labelled label t.collapse := by
  cases label with
  | none => rfl
  | some i =>
    rw [labelled, collapse_node_of_not_isQuantifier rfl, List.map_cons, List.map_cons,
      List.map_nil, collapse_leaf]
    rfl

end Tree

/-! ## Meaning -/

/-- What a tree means: a term has a value, and a statement holds in some worlds. -/
inductive Meaning (W T : Type) where
  | term (value : T)
  | statement (holds : W → Bool)

/-- Whether a statement holds in a world; terms do not. -/
def Meaning.holdsIn {W T : Type} (w : W) : Meaning W T → Bool
  | .statement holds => holds w
  | .term _ => false

/-- The meaning of what is not a quantifier, from the meaning of the arguments. -/
structure Engine (W T : Type) where
  constant : Datum → T
  term : NodeTag → List (Meaning W T) → T
  holds : NodeTag → List (Meaning W T) → W → Bool

namespace Engine

variable {W T : Type} (E : Engine W T)

/-- The meaning of a node.  Quantifiers say that all, some or exactly one of the arguments hold. -/
def node (tag : NodeTag) (args : List (Meaning W T)) : Meaning W T :=
  match tag with
  | .all => .statement fun w => args.all (·.holdsIn w)
  | .any => .statement fun w => args.any (·.holdsIn w)
  | .one => .statement fun w => args.countP (·.holdsIn w) == 1
  | tag => if tag.isStatement then .statement (E.holds tag args) else .term (E.term tag args)

mutual
/-- The meaning of a tree. -/
def meaning : Tree → Meaning W T
  | .leaf d => .term (E.constant d)
  | .node tag args => E.node tag (meaningAll args)

/-- The meaning of each of several trees. -/
def meaningAll : List Tree → List (Meaning W T)
  | [] => []
  | t :: ts => meaning t :: meaningAll ts
end

lemma meaningAll_eq_map (ts : List Tree) : E.meaningAll ts = ts.map E.meaning := by
  induction ts with
  | nil => rfl
  | cons t ts ih => rw [meaningAll, ih, List.map_cons]

lemma meaning_node (tag : NodeTag) (args : List Tree) :
    E.meaning (.node tag args) = E.node tag (args.map E.meaning) := by
  rw [meaning, meaningAll_eq_map]

/-- A quantifier over one statement means what the statement means. -/
lemma node_singleton {tag : NodeTag} (h : tag.isQuantifier = true) (holds : W → Bool) :
    E.node tag [.statement holds] = .statement holds := by
  cases tag with
  | all => simp [node, Meaning.holdsIn]
  | any => simp [node, Meaning.holdsIn]
  | one =>
    have hone (w : W) :
        (List.countP (·.holdsIn w) [(.statement holds : Meaning W T)] == 1) = holds w := by
      cases hw : holds w <;> simp [Meaning.holdsIn, hw]
    simp only [node, hone]
  | _ => cases h

end Engine

/-! ## Statements -/

namespace Tree

/-- The tree is true or false, rather than a term. -/
def IsStatement : Tree → Prop
  | .leaf _ => False
  | .node tag _ => tag.isStatement = true

/-- Quantifiers range over statements. -/
inductive WellSorted : Tree → Prop
  | leaf (d : Datum) : WellSorted (.leaf d)
  | node {tag : NodeTag} {args : List Tree}
      (hstatements : tag.isQuantifier = true → ∀ t ∈ args, t.IsStatement)
      (hargs : ∀ t ∈ args, t.WellSorted) : WellSorted (.node tag args)

variable {W T : Type} (E : Engine W T)

lemma exists_meaning_eq_statement {t : Tree} (h : t.IsStatement) :
    ∃ holds, E.meaning t = .statement holds := by
  cases t with
  | leaf d => exact h.elim
  | node tag args =>
    rw [Engine.meaning_node]
    cases tag <;> first | exact ⟨_, rfl⟩ | cases h

/-- **Collapsing keeps the meaning.**  No engine tells a tree whose quantifiers range over
statements from the tree without its redundant quantifiers. -/
theorem meaning_collapse {t : Tree} (h : t.WellSorted) : E.meaning t.collapse = E.meaning t := by
  induction t using induct with
  | leaf d => rw [collapse_leaf]
  | node tag args ih =>
    obtain - | ⟨hstatements, hsorted⟩ := h
    have hargs : (args.map collapse).map E.meaning = args.map E.meaning := by
      rw [List.map_map]
      exact List.map_congr_left fun t ht => ih t ht (hsorted t ht)
    by_cases hsingle : tag.isQuantifier = true ∧ args.length = 1
    · -- The only argument is a statement, so the quantifier says the same.
      obtain ⟨hq, hlength⟩ := hsingle
      obtain ⟨t, rfl⟩ := List.length_eq_one_iff.1 hlength
      obtain ⟨holds, hholds⟩ := exists_meaning_eq_statement E (hstatements hq t (by simp))
      rw [collapse_node_singleton hq, ih t (by simp) (hsorted t (by simp)), Engine.meaning_node,
        List.map_cons, List.map_nil, hholds, E.node_singleton hq]
    · have hkeep : tag.isQuantifier = true → args.length ≠ 1 := fun hq hone => hsingle ⟨hq, hone⟩
      rw [collapse_node_of_not_redundant hkeep, Engine.meaning_node, hargs, Engine.meaning_node]

end Tree

end Arbor
