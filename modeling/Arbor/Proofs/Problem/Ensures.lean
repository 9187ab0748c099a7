import Arbor.Problem.Check
import Arbor.Problem.Step
import Mathlib.Tactic.Lemma

/-!
# What steps ensure

`Step.Ensures x s Q E` says of a step `x` from the state `s` that its result and the state after it
satisfy `Q`, or that the problem it ends in and the state it leaves satisfy `E`.  The lemmas follow
the way steps are put together, so a fact about a step is proved along its text.  `Step.Leaves` is
the case in which no difference is made between success and failure.  A step is `Step.Atomic` if it
changes nothing when it fails.

A problem is a fault (`Problem.IsFault`) if it is a mistake of the program that is compiled.  All
checks raise faults.
-/

namespace Arbor

/-- A mistake of the program, not a defect of the compiler. -/
def Problem.IsFault : Problem → Prop
  | .fault _ _ => True
  | .defect _ => False

@[simp] lemma Fault.isFault_atSpan (f : Fault) (span : Span) : (f.atSpan span).IsFault := trivial

@[simp] lemma Fault.isFault_overall (f : Fault) : f.overall.IsFault := trivial

/-! ## Steps -/

namespace Step

variable {σ α β : Type}

instance : LawfulMonadLift (Except Problem) (Step σ) where
  monadLift_pure _ := rfl
  monadLift_bind x f := by cases x <;> rfl

/-- What holds of the outcome of a step: of its result, or of its problem. -/
def Ensures (x : Step σ α) (s : σ) (Q : α → σ → Prop) (E : Problem → σ → Prop) : Prop :=
  match x s with
  | .ok a s' => Q a s'
  | .error p s' => E p s'

variable {x y : Step σ α} {f : α → Step σ β} {s s' : σ} {Q : α → σ → Prop} {R : β → σ → Prop}
  {E E' : Problem → σ → Prop}

lemma Ensures.of_ok {a : α} (h : Ensures x s Q E) (hx : x s = .ok a s') : Q a s' := by
  simpa [Ensures, hx] using h

lemma Ensures.of_error {p : Problem} (h : Ensures x s Q E) (hx : x s = .error p s') : E p s' := by
  simpa [Ensures, hx] using h

lemma Ensures.mono {Q' : α → σ → Prop} (h : Ensures x s Q E) (hQ : ∀ a s', Q a s' → Q' a s')
    (hE : ∀ p s', E p s' → E' p s') : Ensures x s Q' E' := by
  unfold Ensures at h ⊢
  cases hx : x s with
  | ok a s' =>
    rw [hx] at h
    exact hQ a s' h
  | error p s' =>
    rw [hx] at h
    exact hE p s' h

/-- Only the outcome from one state counts, so a step may be replaced by one that is alike there. -/
lemma Ensures.congr (h : Ensures x s Q E) (hxy : y s = x s) : Ensures y s Q E := by
  unfold Ensures
  rw [hxy]
  exact h

lemma bind_apply_congr (hxy : y s = x s) : (y >>= f) s = (x >>= f) s := by
  simp only [Bind.bind, EStateM.bind, hxy]

lemma bind_of_ok {a : α} (hx : x s = .ok a s') : (x >>= f) s = f a s' := by
  simp only [Bind.bind, EStateM.bind, hx]

lemma bind_of_error {p : Problem} (hx : x s = .error p s') : (x >>= f) s = .error p s' := by
  simp only [Bind.bind, EStateM.bind, hx]

lemma get_bind_apply (f : σ → Step σ β) (s : σ) : (get >>= f) s = f s s := rfl

lemma exists_of_bind_pure {g : α → β} {b : β} (h : (x >>= fun a => pure (g a)) s = .ok b s') :
    ∃ a, x s = .ok a s' ∧ g a = b := by
  cases hx : x s with
  | ok a s₁ =>
    rw [bind_of_ok hx] at h
    cases h
    exact ⟨a, rfl, rfl⟩
  | error p s₁ =>
    rw [bind_of_error hx] at h
    cases h

lemma exists_of_within {τ : Type} {x : Step τ α} {part : σ → τ} {put : τ → σ → σ} {a : α}
    (h : within part put x s = .ok a s') : ∃ t, x (part s) = .ok a t ∧ s' = put t s := by
  unfold within at h
  cases hx : x (part s) with
  | ok a' t =>
    rw [hx] at h
    cases h
    exact ⟨t, rfl, rfl⟩
  | error p t =>
    rw [hx] at h
    cases h

/-- A step and then another: the second may start from what the first ensures. -/
lemma Ensures.bind (h : Ensures x s Q E) (hE : ∀ p s', E p s' → E' p s')
    (hf : ∀ a s', Q a s' → Ensures (f a) s' R E') : Ensures (x >>= f) s R E' := by
  unfold Ensures at h ⊢
  simp only [Bind.bind, EStateM.bind]
  cases hx : x s with
  | ok a s' =>
    rw [hx] at h
    exact hf a s' h
  | error p s' =>
    rw [hx] at h
    exact hE p s' h

lemma ensures_pure {a : α} (h : Q a s) : Ensures (pure a) s Q E := h

lemma ensures_throw {p : Problem} (h : E p s) : Ensures (throw p : Step σ α) s Q E := h

/-- A check, and then what its result leads to. -/
lemma ensures_lift_bind {e : Except Problem α} (herr : ∀ p, e = .error p → E p s)
    (hok : ∀ a, e = .ok a → Ensures (f a) s R E) : Ensures (liftM e >>= f) s R E := by
  cases e with
  | ok a => exact hok a rfl
  | error p => exact herr p rfl

lemma ensures_lift {e : Except Problem α} (herr : ∀ p, e = .error p → E p s)
    (hok : ∀ a, e = .ok a → Q a s) : Ensures (liftM e : Step σ α) s Q E := by
  cases e with
  | ok a => exact hok a rfl
  | error p => exact herr p rfl

/-- A step whose outcome is known, and then what it leads to. -/
lemma ensures_bind_of_ok {a : α} (hx : x s = .ok a s') (h : Ensures (f a) s' R E) :
    Ensures (x >>= f) s R E := by
  unfold Ensures
  rw [bind_of_ok hx]
  exact h

lemma ensures_bind_of_error {p : Problem} (hx : x s = .error p s') (h : E p s') :
    Ensures (x >>= f) s R E := by
  unfold Ensures
  rw [bind_of_error hx]
  exact h

/-- A step of which nothing is known, and then what it leads to. -/
lemma ensures_any_bind (hE : ∀ p s', E p s') (hf : ∀ a s', Ensures (f a) s' R E) :
    Ensures (x >>= f) s R E := by
  cases hx : x s with
  | ok a s' => exact ensures_bind_of_ok hx (hf a s')
  | error p s' => exact ensures_bind_of_error hx (hE p s')

/-! ### What steps leave behind -/

/-- The state after a step, however it ends. -/
def after (x : Step σ α) (s : σ) : σ :=
  match x s with
  | .ok _ s' => s'
  | .error _ s' => s'

/-- What holds of the state after a step, however it ends. -/
def Leaves (x : Step σ α) (s : σ) (P : σ → Prop) : Prop := Ensures x s (fun _ => P) fun _ => P

variable {P P' : σ → Prop}

lemma Leaves.after (h : Leaves x s P) : P (after x s) := by
  unfold Leaves Ensures at h
  unfold Step.after
  cases hx : x s with
  | ok a s' =>
    rw [hx] at h
    exact h
  | error p s' =>
    rw [hx] at h
    exact h

lemma Leaves.congr (h : Leaves x s P) (hxy : y s = x s) : Leaves y s P :=
  Ensures.congr h hxy

lemma Leaves.mono (h : Leaves x s P) (hP : ∀ s', P s' → P' s') : Leaves x s P' :=
  Ensures.mono h (fun _ => hP) fun _ => hP

lemma Leaves.bind (h : Leaves x s P) (hf : ∀ a s', P s' → Leaves (f a) s' P) :
    Leaves (x >>= f) s P :=
  Ensures.bind h (fun _ _ h => h) hf

lemma leaves_pure {a : α} (h : P s) : Leaves (pure a) s P := h

lemma leaves_throw {p : Problem} (h : P s) : Leaves (throw p : Step σ α) s P := h

lemma leaves_lift {e : Except Problem α} (h : P s) : Leaves (liftM e : Step σ α) s P :=
  ensures_lift (fun _ _ => h) fun _ _ => h

/-! ### All or nothing -/

/-- A step that changes nothing if it ends in a problem. -/
def Atomic (x : Step σ α) : Prop := ∀ s p s', x s = .error p s' → s' = s

lemma atomic_pure (a : α) : Atomic (pure a : Step σ α) := by
  intro s p s' h
  cases h

lemma atomic_throw (p : Problem) : Atomic (throw p : Step σ α) := by
  intro s q s' h
  cases h
  rfl

lemma atomic_modify (g : σ → σ) : Atomic (modify g : Step σ Unit) := by
  intro s p s' h
  cases h

lemma atomic_set (s : σ) : Atomic (set s : Step σ Unit) := atomic_modify fun _ => s

/-- A step that depends on the state. -/
lemma atomic_get_bind {f : σ → Step σ β} (h : ∀ s, Atomic (f s)) : Atomic (get >>= f) :=
  fun s p s' hp => h s s p s' hp

lemma atomic_lift (e : Except Problem α) : Atomic (liftM e : Step σ α) := by
  cases e with
  | ok a => exact atomic_pure a
  | error p => exact atomic_throw p

/-- Nothing is undone if what comes after a step cannot fail. -/
lemma Atomic.bind (hx : Atomic x) (hf : ∀ a s p s', f a s ≠ .error p s') : Atomic (x >>= f) := by
  intro s p s' h
  cases hs : x s with
  | ok a s₁ =>
    rw [bind_of_ok hs] at h
    exact absurd h (hf a s₁ p s')
  | error q s₁ =>
    rw [bind_of_error hs] at h
    cases h
    exact hx s p s' hs

lemma Atomic.bind_pure (hx : Atomic x) (g : α → β) : Atomic (x >>= fun a => pure (g a)) :=
  hx.bind fun _ _ _ _ h => by cases h

/-- A step on a part of the state, which is put back as it was. -/
lemma Atomic.within {τ : Type} {x : Step τ α} (hx : Atomic x) {part : σ → τ} {put : τ → σ → σ}
    (hput : ∀ s, put (part s) s = s) : Atomic (within part put x) := by
  intro s p s' h
  unfold Step.within at h
  cases hs : x (part s) with
  | ok a t =>
    rw [hs] at h
    cases h
  | error q t =>
    rw [hs] at h
    cases h
    rw [hx _ _ _ hs, hput]

lemma outcome_of_ok {x : Step σ Unit} {u : Unit} (hx : x s = .ok u s') : outcome x s = .ok s' := by
  rw [outcome, hx]

lemma outcome_of_error {x : Step σ Unit} {p : Problem} (hx : x s = .error p s') :
    outcome x s = .error p := by
  rw [outcome, hx]

lemma outcome_get_bind (f : σ → Step σ Unit) (s : σ) :
    outcome (get >>= f) s = outcome (f s) s :=
  rfl

/-- Such a step is known by its outcome. -/
lemma Atomic.apply {x : Step σ Unit} (hx : Atomic x) (s : σ) :
    x s = match outcome x s with
      | .ok s' => .ok () s'
      | .error p => .error p s := by
  unfold outcome
  cases hs : x s with
  | ok _ s' => rfl
  | error p s' => rw [hx s p s' hs]

end Step

/-! ## Checks -/

namespace Check

lemma isFault_of_arguments {params args : Nat} {span : Span} {p : Problem}
    (h : arguments params args span = .error p) : p.IsFault := by
  unfold arguments at h
  split at h
  · cases h
    trivial
  · split at h
    · cases h
      trivial
    · cases h

lemma isFault_of_argumentCount {params args : Nat} {span : Span} {p : Problem}
    (h : argumentCount params args span = .error p) : p.IsFault := by
  unfold argumentCount at h
  split at h
  · cases h
  · cases h
    trivial

lemma compatible_eq_ok_iff {actual expected : ValueType} {span : Span} :
    compatible actual expected span = .ok () ↔ actual.compatible expected = true := by
  unfold compatible
  split
  · simp [pure, Except.pure, *]
  · simp [throw, throwThe, MonadExceptOf.throw, *]

lemma isFault_of_compatible {actual expected : ValueType} {span : Span} {p : Problem}
    (h : compatible actual expected span = .error p) : p.IsFault := by
  unfold compatible at h
  split at h
  · cases h
  · cases h
    trivial

lemma listItem_eq_ok_iff {type : ValueType} {span : Span} :
    listItem type span = .ok () ↔ type.isList = false := by
  unfold listItem
  split
  · simp [throw, throwThe, MonadExceptOf.throw, *]
  · simp [pure, Except.pure, *]

lemma isFault_of_listItem {type : ValueType} {span : Span} {p : Problem}
    (h : listItem type span = .error p) : p.IsFault := by
  unfold listItem at h
  split at h
  · cases h
    trivial
  · cases h

end Check

end Arbor
