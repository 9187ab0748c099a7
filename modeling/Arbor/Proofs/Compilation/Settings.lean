import Arbor.Compilation
import Arbor.Proofs.Constraint.Lowered
import Arbor.Proofs.Emission.Settings

/-!
# Compilation and settings

Whether redundant quantifiers are collapsed decides only the form of the constraint
(`Job.compile_switch_redundantQuantifier`).  The constraint is lowered to the collapsed tree with
the same labels, and mappings do not look at the settings.
-/

namespace Arbor.Job

/-- The job with an optimization switched on or off. -/
def switch (job : Job) (o : Optimization) (on : Bool) : Job := job.configure (job.config.set o on)

/-- Compiling with collapsed quantifiers is compiling without, and then collapsing. -/
lemma compile_configure {job : Job} {c : Config} (h : Lowering.Collapses job c) :
    (job.configure c).compile
      = (fun o => { o with constraint := o.constraint.collapse }) <$> job.compile := by
  unfold compile
  rw [lowerMain_configure h]
  cases hmain : job.lowerMain {} with
  | error p labels =>
    have hmap : (Tree.collapse <$> job.lowerMain) {} = .error p labels := by
      simp only [Functor.map, EStateM.map, hmain]
    rw [hmap]
    rfl
  | ok constraint labels =>
    have hmap : (Tree.collapse <$> job.lowerMain) {} = .ok constraint.collapse labels := by
      simp only [Functor.map, EStateM.map, hmain]
    rw [hmap]
    dsimp only
    rw [compileMappings_configure]
    cases job.compileMappings labels {} <;> rfl

/-- What is compiled has a statement as its constraint, with quantifiers over statements. -/
lemma sorted_of_compile {job : Job} {o : Object} (h : job.compile = .ok o) :
    o.constraint.Sorted := by
  unfold compile at h
  cases hmain : job.lowerMain {} with
  | error p labels =>
    rw [hmain] at h
    cases h
  | ok constraint labels =>
    rw [hmain] at h
    dsimp only at h
    split at h
    · cases h
    · cases h
      exact sorted_of_lowerMain hmain

/-- **Collapsing quantifiers rewrites the constraint and keeps its meaning.**  With the optimization
and without it a file is rejected with the same problem, or it is compiled to objects that differ at
most in their constraints: one is the other with every quantifier over a single argument replaced,
from the leaves up, by that argument, so that none is left.  Whatever the meaning of the nodes that
are not quantifiers, the two constraints hold in the same worlds. -/
theorem compile_switch_redundantQuantifier (job : Job) :
    (∃ p, (job.switch .redundantQuantifier true).compile = .error p ∧
      (job.switch .redundantQuantifier false).compile = .error p) ∨
    ∃ on off, (job.switch .redundantQuantifier true).compile = .ok on ∧
      (job.switch .redundantQuantifier false).compile = .ok off ∧
      on = { off with constraint := off.constraint.collapse } ∧ on.constraint.Collapsed ∧
      ∀ {W T : Type} (E : Engine W T), ∃ holds,
        E.meaning off.constraint = .statement holds ∧
        E.meaning on.constraint = .statement holds := by
  have hsettings : Lowering.Collapses (job.switch .redundantQuantifier false)
      (job.config.set .redundantQuantifier true) := ⟨rfl, rfl⟩
  have hcompile := compile_configure hsettings
  change (job.switch .redundantQuantifier true).compile = _ at hcompile
  cases hoff : (job.switch .redundantQuantifier false).compile with
  | error p =>
    refine .inl ⟨p, ?_, rfl⟩
    rw [hcompile, hoff]
    rfl
  | ok off =>
    refine .inr ⟨{ off with constraint := off.constraint.collapse }, off, ?_, rfl, rfl,
      Tree.collapsed_collapse off.constraint, ?_⟩
    · rw [hcompile, hoff]
      rfl
    · intro W T E
      have hsorted := sorted_of_compile hoff
      obtain ⟨holds, hholds⟩ := Tree.exists_meaning_eq_statement E hsorted.isStatement
      refine ⟨holds, hholds, ?_⟩
      rw [← hholds]
      exact Tree.meaning_collapse E hsorted.wellSorted

end Arbor.Job
