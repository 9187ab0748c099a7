import Arbor.Constraint.Lowering
import Arbor.Emission.Mapping
import Mathlib.Data.List.Dedup
import Mathlib.Data.List.Perm.Subperm
import Mathlib.Tactic.Lemma

/-!
# How deep expansions nest

Functions and constraint types are expanded one inside the other, and the names that have been
entered form a stack.  A stack is proper if no name is on it twice and all names are among those of
the job, so a proper stack is no longer than there are different names.

To say that all stacks of a run are proper, the expansion is unrolled: calls are given a meaning
that goes on to a fixed depth, watches the stack at every entry, and does something arbitrary where
the depth is used up or the stack is not proper.  Runs come to the same result whatever that is, so
they never get there.

* `Nesting.Expansion`: what folding, inlining and constraint types have in common.
* `Nesting.Expansion.within`: the unrolled expansion.
* `Nesting.Expansion.within_eq`: with as much depth as there are names, it is the expansion itself.
-/

namespace Arbor

namespace Nesting

variable {names stack entered : List String}

/-- Names that may have been entered one inside the other: each once, and none but those given. -/
def Proper (names stack : List String) : Prop := stack.Nodup ∧ ∀ x ∈ stack, x ∈ names

instance (names stack : List String) : Decidable (Proper names stack) :=
  inferInstanceAs (Decidable (_ ∧ _))

lemma proper_nil : Proper names [] := ⟨List.nodup_nil, by simp⟩

lemma Proper.cons {name : String} (h : Proper names entered) (hmem : name ∈ names)
    (hnew : name ∉ entered) : Proper names (name :: entered) :=
  ⟨List.nodup_cons.2 ⟨hnew, h.1⟩, List.forall_mem_cons.2 ⟨hmem, h.2⟩⟩

/-- No proper stack is longer than there are different names. -/
lemma Proper.length_le (h : Proper names stack) : stack.length ≤ names.dedup.length :=
  (List.subperm_of_subset h.1 fun x hx => List.mem_dedup.2 (h.2 x hx)).length_le

/-- A way of expanding definitions in place.  `D entered` are the definitions that may be expanded
inside those `entered`, and `A` is what one is expanded to. -/
structure Expansion (names : List String) (D : List String → Type) (A : Type) where
  /-- The name under which a definition is entered. -/
  name : {entered : List String} → D entered → String
  mem : ∀ {entered : List String} (g : D entered), name g ∈ names
  notMem : ∀ {entered : List String} (g : D entered), name g ∉ entered
  /-- What a definition is expanded to, when it is known what those inside it are. -/
  body : {entered : List String} → (g : D entered) → (D (name g :: entered) → A) → A
  /-- What definitions are expanded to. -/
  expand : (entered : List String) → D entered → A
  expand_eq : ∀ {entered : List String} (g : D entered),
    expand entered g = body g (expand (name g :: entered))

namespace Expansion

variable {D : List String → Type} {A : Type}

/-- The expansion to a depth of `n`, with proper stacks only.  Everything else is left to
`beyond`. -/
def within (x : Expansion names D A) (beyond : (entered : List String) → D entered → A) :
    Nat → (entered : List String) → D entered → A
  | 0, entered, g => beyond entered g
  | n + 1, entered, g =>
    if Proper names (x.name g :: entered) then x.body g (x.within beyond n (x.name g :: entered))
    else beyond entered g

/-- From a proper stack, there is never a need to go deeper than there are names left. -/
lemma within_eq (x : Expansion names D A) (beyond : (entered : List String) → D entered → A)
    {n : Nat} (h : Proper names entered) (hn : names.dedup.length ≤ entered.length + n) :
    x.within beyond n entered = x.expand entered := by
  induction n generalizing entered with
  | zero =>
    -- no definition is left: entering one would make a proper stack that is too long
    funext g
    have hlength := (h.cons (x.mem g) (x.notMem g)).length_le
    simp only [List.length_cons] at hlength
    omega
  | succ n ih =>
    funext g
    have hproper := h.cons (x.mem g) (x.notMem g)
    rw [within, if_pos hproper, x.expand_eq, ih hproper]
    simp only [List.length_cons]
    omega

end Expansion

end Nesting

/-! ## The expansions of a job -/

namespace Job

open Nesting

variable (job : Job)

/-- Functions are run on known arguments. -/
def folding : Expansion job.functionNames (Inlinable job) (List Datum → Fold Datum) where
  name := Inlinable.name
  mem g := List.mem_map_of_mem g.mem
  notMem g := g.notEntered
  body g run args := do
    let scope ← Scope.bindAll {} g.definition.params args
    match ← Evaluation.foldStmts run [scope] g.definition.body with
    | (.returned (some d), _) => pure d
    | _ => failure
  expand := Evaluation.foldCall job
  expand_eq g := by
    funext args
    exact Evaluation.foldCall.eq_def job _ g args

/-- The bodies of functions are inlined. -/
def inlining : Expansion job.functionNames (Inlinable job) (Scope → Emit ValueType) where
  name := Inlinable.name
  mem g := List.mem_map_of_mem g.mem
  notMem g := g.notEntered
  body g inline scope := do
    let (returns, frame) ←
      Emit.inFrame g.name scope (Emission.emitStmts inline g.definition.body)
    let types ←
      if returns then pure frame.returns
      else do
        Emit.push .pushNone
        pure (.void :: frame.returns)
    Emit.patchAll frame.exits
    pure (ValueType.joinAll types)
  expand := Emission.emitCall job
  expand_eq g := by
    funext scope
    rw [Emission.emitCall]

/-- Constraint types are expanded. -/
def lowering : Expansion job.constraintNames (Expandable job) (Scope → WithLabels Tree) where
  name := Expandable.name
  mem g := List.mem_map_of_mem g.mem
  notMem g := g.notEntered
  body g expand scope :=
    Lowering.lowerGoal expand [scope] (.block g.definition.quantifier g.definition.body)
  expand := Lowering.expandConstraint job
  expand_eq g := by
    funext scope
    rw [Lowering.expandConstraint]

end Job

end Arbor
