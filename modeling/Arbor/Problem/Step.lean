import Arbor.Problem.Basic

/-!
# Steps

A step changes a state and may end in a problem.  What it had done to the state before the problem
stays done, as a compiler that reports a problem has interned and emitted all that came before.
-/

namespace Arbor

/-- A step on a state of type `σ`. -/
abbrev Step (σ : Type) := EStateM Problem σ

namespace Step

variable {σ α : Type}

/-- What steps return and leave can be compared. -/
instance decEqResult [DecidableEq σ] [DecidableEq α] : DecidableEq (EStateM.Result Problem σ α)
  | .ok a s, .ok b t =>
    decidable_of_decidable_of_iff (Iff.of_eq (EStateM.Result.ok.injEq a s b t).symm)
  | .error p s, .error q t =>
    decidable_of_decidable_of_iff (Iff.of_eq (EStateM.Result.error.injEq p s q t).symm)
  | .ok _ _, .error _ _ | .error _ _, .ok _ _ => isFalse nofun

/-- A check as a step that leaves the state alone. -/
def ofExcept : Except Problem α → Step σ α
  | .ok a => pure a
  | .error p => throw p

/-- A step on a part of the state.  What it does to the part before a problem stays done. -/
def within {τ : Type} (part : σ → τ) (put : τ → σ → σ) (x : Step τ α) : Step σ α := fun s =>
  match x (part s) with
  | .ok a t => .ok a (put t s)
  | .error p t => .error p (put t s)

/-- The state after a step, if it does not end in a problem. -/
def outcome (x : Step σ Unit) (s : σ) : Except Problem σ :=
  match x s with
  | .ok _ s' => .ok s'
  | .error p _ => .error p

instance : MonadLift (Except Problem) (Step σ) := ⟨ofExcept⟩

@[simp] theorem ofExcept_ok (a : α) (s : σ) : (ofExcept (.ok a) : Step σ α) s = .ok a s := rfl

@[simp] theorem ofExcept_error (p : Problem) (s : σ) :
    (ofExcept (.error p) : Step σ α) s = .error p s := rfl

end Step

end Arbor
