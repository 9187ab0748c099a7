import Arbor.Proofs.Problem.Ensures

/-!
# Problems that are raised

`Check.Raises E x` says of a check `x` that every problem it ends in satisfies `E`, and
`Step.Raises E x` says so of a step from every state.  Unlike what a step ensures this does not
depend on the state, so it is proved along the text of a step and nothing else.

A problem is plain unless it reports recursion.  All checks raise plain problems.
-/

namespace Arbor

/-- A problem that does not report recursion. -/
def Problem.IsPlain : Problem → Prop
  | .fault .recursiveFunction _ => False
  | .fault .recursiveConstraint _ => False
  | _ => True

variable {σ α β : Type} {E E' : Problem → Prop}

/-! ## Checks -/

namespace Check

/-- Every problem that a check ends in satisfies `E`. -/
def Raises (E : Problem → Prop) (x : Except Problem α) : Prop := ∀ p, x = .error p → E p

variable {x : Except Problem α} {f : α → Except Problem β}

lemma raises_ok (a : α) : Raises E (.ok a) := fun p h => by cases h

lemma raises_pure (a : α) : Raises E (pure a) := raises_ok a

lemma raises_throw {p : Problem} (h : E p) : Raises E (throw p : Except Problem α) := by
  intro q hq
  cases hq
  exact h

lemma Raises.mono (h : Raises E x) (hE : ∀ p, E p → E' p) : Raises E' x :=
  fun p hp => hE p (h p hp)

lemma Raises.bind (h : Raises E x) (hf : ∀ a, x = .ok a → Raises E (f a)) :
    Raises E (x >>= f) := by
  cases x with
  | ok a => exact hf a rfl
  | error p =>
    intro q hq
    cases hq
    exact h p rfl

end Check

/-! ## Steps -/

namespace Step

variable {x : Step σ α} {f : α → Step σ β}

/-- Every problem that a step ends in satisfies `E`, whatever the state it starts from. -/
def Raises (E : Problem → Prop) (x : Step σ α) : Prop :=
  ∀ s, Ensures x s (fun _ _ => True) fun p _ => E p

lemma raises_pure (a : α) : Raises E (pure a : Step σ α) := fun _ => trivial

lemma raises_throw {p : Problem} (h : E p) : Raises E (throw p : Step σ α) := fun _ => h

lemma raises_get : Raises E (get : Step σ σ) := fun _ => trivial

lemma raises_modify (g : σ → σ) : Raises E (modify g : Step σ PUnit) := fun _ => trivial

lemma raises_set (s : σ) : Raises E (set s : Step σ PUnit) := fun _ => trivial

lemma Raises.mono (h : Raises E x) (hE : ∀ p, E p → E' p) : Raises E' x :=
  fun s => (h s).mono (fun _ _ _ => trivial) fun p _ => hE p

lemma Raises.within {τ : Type} {x : Step τ α} (h : Raises E x) (part : σ → τ) (put : τ → σ → σ) :
    Raises E (within part put x) := by
  intro s
  have hx := h (part s)
  unfold Ensures Step.within at *
  cases hs : x (part s) with
  | ok a t => trivial
  | error p t =>
    rw [hs] at hx
    exact hx

lemma Raises.bind (h : Raises E x) (hf : ∀ a, Raises E (f a)) : Raises E (x >>= f) :=
  fun s => (h s).bind (fun _ _ hp => hp) fun a s' _ => hf a s'

lemma raises_lift {e : Except Problem α} (h : Check.Raises E e) :
    Raises E (liftM e : Step σ α) :=
  fun _ => ensures_lift h fun _ _ => trivial

/-- A check, and then what its result leads to. -/
lemma raises_lift_bind {e : Except Problem α} (h : Check.Raises E e)
    (hf : ∀ a, e = .ok a → Raises E (f a)) : Raises E (liftM e >>= f) :=
  fun s => ensures_lift_bind h fun a ha => hf a ha s

lemma Raises.of_error {s s' : σ} {p : Problem} (h : Raises E x) (hx : x s = .error p s') : E p :=
  (h s).of_error hx

end Step

/-! ## Plain problems -/

namespace Check

lemma raises_arguments (params args : Nat) (span : Span) :
    Raises Problem.IsPlain (arguments params args span) := by
  unfold arguments
  split
  · exact raises_throw trivial
  · split
    · exact raises_throw trivial
    · exact raises_pure ()

lemma raises_argumentCount (params args : Nat) (span : Span) :
    Raises Problem.IsPlain (argumentCount params args span) := by
  unfold argumentCount
  split
  · exact raises_pure ()
  · exact raises_throw trivial

lemma raises_compatible (actual expected : ValueType) (span : Span) :
    Raises Problem.IsPlain (compatible actual expected span) := by
  unfold compatible
  split
  · exact raises_pure ()
  · exact raises_throw trivial

lemma raises_listItem (type : ValueType) (span : Span) :
    Raises Problem.IsPlain (listItem type span) := by
  unfold listItem
  split
  · exact raises_throw trivial
  · exact raises_pure ()

end Check

end Arbor
