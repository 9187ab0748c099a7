import Arbor.Proofs.Constraint.Labels
import Mathlib.Algebra.Group.Nat.Defs

/-!
# Lowered constraints conform to the grammar

The shape of a tree is that of the grammar (`Lowering.conforms_lowerMain`), and the integers on its
labelled nodes are indices of the pool of labels.  Together: every tree that lowering makes is one
that an engine can read (`Job.conforms_of_lowerMain`).
-/

namespace Arbor

namespace Tree

lemma mem_labelsAll_iff {ts : List Tree} {l : Option Int} :
    l ∈ labelsAll ts ↔ ∃ t ∈ ts, l ∈ t.labels := by
  induction ts with
  | nil => simp [labelsAll]
  | cons t ts ih => simp [labelsAll, ih]

/-- The labels of an argument are among those of the node. -/
lemma mem_labels_node {tag : NodeTag} {args : List Tree} {t : Tree} {l : Option Int}
    (ht : t ∈ args) (hl : l ∈ t.labels) : l ∈ (node tag args).labels := by
  rw [labels]
  exact List.mem_append_right _ (mem_labelsAll_iff.2 ⟨t, ht, hl⟩)

variable {collapsed : Bool} {index index' : Int64 → Prop} {role : Role} {t : Tree}

/-- What holds of the integers on all labelled nodes may be asked for by the grammar. -/
lemma Conforms.of_labels (h : Conforms collapsed index role t)
    (hlabels : ∀ i : Int64, some i.toInt ∈ t.labels → index' i) :
    Conforms collapsed index' role t := by
  induction h with
  | quantifier htag _ hlength ih =>
    refine .quantifier htag (fun t ht => ih t ht fun i hi => ?_) hlength
    exact hlabels i (mem_labels_node ht hi)
  | comparison htag hsubject d => exact .comparison htag hsubject d
  | select kind _ ih => exact .select kind (ih fun i hi => hlabels i (mem_labels_node (by simp) hi))
  | within kind _ _ ihtest ihblock =>
    exact .within kind (ihtest fun i hi => hlabels i (mem_labels_node (by simp) hi))
      (ihblock fun i hi => hlabels i (mem_labels_node (by simp) hi))
  | @label i args _ _ ih =>
    refine .label (hlabels i ?_) (ih fun j hj => hlabels j (mem_labels_node (by simp) hj))
    simp [labels, labelIndex?]

end Tree

namespace Job

variable {job : Job} {labels labels' : Pool String} {t : Tree}

/-- The labelled nodes of a lowered tree carry indices of the pool. -/
lemma exists_index_of_lowerMain (h : job.lowerMain labels = .ok t labels') {l : Option Int}
    (hl : l ∈ t.labels) : ∃ n < labels'.size, l = Tree.labelOf n := by
  obtain ⟨hpool, hview⟩ := (Lowering.numbers_lowerMain job labels).of_ok h
  rw [hview, List.nil_append] at hl
  obtain ⟨name, hname, rfl⟩ := List.mem_map.1 hl
  have hmem : name ∈ labels'.entries := hpool ▸ Pool.mem_internAll hname
  exact ⟨_, List.idxOf_lt_length_of_mem hmem, rfl⟩

/-- **Lowered constraints conform to the grammar.**  Whatever the file, the settings and the labels
interned before, the tree of the main constraint is a constraint of the grammar.  No quantifier has
one argument if such quantifiers are collapsed.  Labels are non-negative; indices are 64-bit
integers, so this takes that there are no more labels than these can count. -/
theorem conforms_of_lowerMain (h : job.lowerMain labels = .ok t labels') :
    t.Conforms job.config.redundantQuantifier
      (fun i => labels'.size ≤ 2 ^ 63 → 0 ≤ i.toInt) .constraint := by
  refine (Lowering.conforms_lowerMain h).of_labels fun i hi hfit => ?_
  obtain ⟨n, hn, hlabel⟩ := exists_index_of_lowerMain h hi
  rw [Tree.labelOf, Option.some_inj, Int64.toInt_ofNat_of_lt (Nat.lt_of_lt_of_le hn hfit)] at hlabel
  rw [hlabel]
  exact Int.natCast_nonneg n

/-- A constraint with labels inside one another, a constraint type, blocks of one and of two
statements and predicates with arguments. -/
def ofBranches : Job where
  file :=
    ⟨[.main ⟨⟨"main", .nowhere⟩, .all,
        [.apply (some ⟨"outer", .nowhere⟩)
            ⟨⟨"some", .nowhere⟩, [.literal (.number (.int 2)) .nowhere]⟩
            ⟨⟨"Branch", .nowhere⟩, [.literal (.number (.int 3)) .nowhere]⟩,
          .block .any
            [.measure .size .equal (.literal (.number (.int 1)) .nowhere),
              .measure (.aggregate .max ⟨"leaf", .nowhere⟩) .greater
                (.literal (.number (.int 2)) .nowhere)]]⟩,
      .predicate ⟨⟨"some", .nowhere⟩, [⟨"n", .nowhere⟩], .all,
        [.measure .size .greaterEqual (.ref ⟨"n", .nowhere⟩ .nowhere)]⟩,
      .constraintType ⟨⟨"Branch", .nowhere⟩, ⟨"branch", .nowhere⟩, [⟨"w", .nowhere⟩], .all,
        [.attr ⟨"width", .nowhere⟩ .lessEqual (.ref ⟨"w", .nowhere⟩ .nowhere),
          .select (some ⟨"inner", .nowhere⟩)
            ⟨⟨"some", .nowhere⟩, [.literal (.number (.int 1)) .nowhere]⟩ ⟨"leaf", .nowhere⟩]⟩], []⟩

/-- The tree of that constraint.  The predicate has one statement and is collapsed. -/
def branchTree : Tree :=
  .node .all
    [.node .label [.leaf (.number (.int 0)), .node .select [.leaf (.str "branch"),
        .node .greaterEqual [.node .size [], .leaf (.number (.int 2))],
        .node .all
          [.node .lessEqual [.node .attr [.leaf (.str "width")], .leaf (.number (.int 3))],
            .node .label [.leaf (.number (.int 1)), .node .select [.leaf (.str "leaf"),
              .node .greaterEqual [.node .size [], .leaf (.number (.int 1))]]]]]],
      .node .any
        [.node .equal [.node .size [], .leaf (.number (.int 1))],
          .node .greater [.node .max [.leaf (.str "leaf")], .leaf (.number (.int 2))]]]

/-- The constraint type and the block of two statements keep their quantifiers, and the labels are
numbered from the outside in. -/
theorem conforms_of_lowerMain_ofBranches :
    ofBranches.lowerMain {} = .ok branchTree ⟨["outer", "inner"], by decide⟩ ∧
      branchTree.Conforms true (fun i => 2 ≤ 2 ^ 63 → 0 ≤ i.toInt) .constraint := by
  have hlower : ofBranches.lowerMain {} = .ok branchTree ⟨["outer", "inner"], by decide⟩ := by
    decide +kernel
  exact ⟨hlower, conforms_of_lowerMain hlower⟩

end Job

end Arbor
