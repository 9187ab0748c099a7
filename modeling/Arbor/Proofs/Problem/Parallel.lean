import Arbor.Proofs.Problem.Ensures

/-!
# Steps in parallel

Two steps run in parallel from two states.  They end alike: with results and states that are
related, or in the same problem.  Some problems are out of step (`stray`): either side may end in
one of these, whatever becomes of the other.  A measure of states does not change, so that something
is known also of a state that is left by a stray problem.

* `Alike V x y`: two checks end alike.
* `Step.Parallel m R stray V x y`: two steps end alike from all states that `R` relates, and they
  leave related states with the measure `m` unchanged.
-/

namespace Arbor

/-- Two checks end alike: in related results, or in the same problem. -/
inductive Alike {α β : Type} (V : α → β → Prop) : Except Problem α → Except Problem β → Prop
  | ok {a : α} {b : β} (h : V a b) : Alike V (.ok a) (.ok b)
  | error (p : Problem) : Alike V (.error p) (.error p)

namespace Alike

variable {α β : Type}

lemma refl (x : Except Problem α) : Alike Eq x x := by
  cases x with
  | ok a => exact .ok rfl
  | error p => exact .error p

/-- A check and the same one with its result seen differently. -/
lemma map (f : α → β) (x : Except Problem α) : Alike (fun a b => b = f a) x (f <$> x) := by
  cases x with
  | ok a => exact .ok rfl
  | error p => exact .error p

end Alike

namespace Step

variable {σ α β γ δ : Type}

/-- How two steps may end, from two states. -/
inductive Ends (m : σ → Nat) (R : σ → σ → Prop) (stray : Problem → Prop) (V : α → β → Prop)
    (s t : σ) : EStateM.Result Problem σ α → EStateM.Result Problem σ β → Prop
  | ok {a : α} {b : β} {s' t' : σ} (hV : V a b) (hR : R s' t') (hs : m s' = m s)
      (ht : m t' = m t) : Ends m R stray V s t (.ok a s') (.ok b t')
  | error (p : Problem) {s' t' : σ} (hR : R s' t') (hs : m s' = m s) (ht : m t' = m t) :
      Ends m R stray V s t (.error p s') (.error p t')
  | strayLeft {p : Problem} {s' : σ} {r : EStateM.Result Problem σ β} (h : stray p)
      (hs : m s' = m s) : Ends m R stray V s t (.error p s') r
  | strayRight {p : Problem} {t' : σ} {r : EStateM.Result Problem σ α} (h : stray p)
      (ht : m t' = m t) : Ends m R stray V s t r (.error p t')

/-- Two steps end alike, from all related states. -/
def Parallel (m : σ → Nat) (R : σ → σ → Prop) (stray : Problem → Prop) (V : α → β → Prop)
    (x : Step σ α) (y : Step σ β) : Prop :=
  ∀ s t, R s t → Ends m R stray V s t (x s) (y t)

variable {m : σ → Nat} {R : σ → σ → Prop} {stray : Problem → Prop} {V : α → β → Prop}
  {W : γ → δ → Prop}

lemma parallel_pure {a : α} {b : β} (h : V a b) : Parallel m R stray V (pure a) (pure b) :=
  fun _ _ hR => .ok h hR rfl rfl

lemma parallel_throw (p : Problem) : Parallel m R stray V (throw p) (throw p) :=
  fun _ _ hR => .error p hR rfl rfl

/-- Two steps in parallel, and then the rest. -/
lemma Parallel.bind {x : Step σ α} {y : Step σ β} {f : α → Step σ γ} {g : β → Step σ δ}
    (hx : Parallel m R stray V x y) (hf : ∀ a b, V a b → Parallel m R stray W (f a) (g b)) :
    Parallel m R stray W (x >>= f) (y >>= g) := by
  intro s t hR
  have hends := hx s t hR
  simp only [Bind.bind, EStateM.bind]
  generalize x s = r at hends ⊢
  generalize y t = q at hends ⊢
  cases hends with
  | error p hR' hs ht => exact .error p hR' hs ht
  | strayLeft h hs => exact .strayLeft h hs
  | strayRight h ht => exact .strayRight h ht
  | @ok a b s' t' hV hR' hs ht =>
    have hrest := hf a b hV s' t' hR'
    dsimp only
    generalize f a s' = r at hrest ⊢
    generalize g b t' = q at hrest ⊢
    cases hrest with
    | ok hW hR'' hs' ht' => exact .ok hW hR'' (hs'.trans hs) (ht'.trans ht)
    | error p hR'' hs' ht' => exact .error p hR'' (hs'.trans hs) (ht'.trans ht)
    | strayLeft h hs' => exact .strayLeft h (hs'.trans hs)
    | strayRight h ht' => exact .strayRight h (ht'.trans ht)

/-- The measure only matters on the way. -/
lemma Parallel.forget {x : Step σ α} {y : Step σ β} (hx : Parallel m R stray V x y) :
    Parallel (fun _ => 0) R stray V x y := by
  intro s t hR
  have hends := hx s t hR
  generalize x s = r at hends ⊢
  generalize y t = q at hends ⊢
  cases hends with
  | ok hV hR' _ _ => exact .ok hV hR' rfl rfl
  | error p hR' _ _ => exact .error p hR' rfl rfl
  | strayLeft h _ => exact .strayLeft h rfl
  | strayRight h _ => exact .strayRight h rfl

lemma parallel_lift {x : Except Problem α} {y : Except Problem β} (h : Alike V x y) :
    Parallel m R stray V (liftM x) (liftM y) := by
  intro s t hR
  cases h with
  | ok hV => exact .ok hV hR rfl rfl
  | error p => exact .error p hR rfl rfl

/-- Two checks in parallel, and then the rest. -/
lemma parallel_lift_bind {x : Except Problem α} {y : Except Problem β} {f : α → Step σ γ}
    {g : β → Step σ δ} (h : Alike V x y) (hf : ∀ a b, V a b → Parallel m R stray W (f a) (g b)) :
    Parallel m R stray W (liftM x >>= f) (liftM y >>= g) :=
  (parallel_lift h).bind hf

/-- The same check on both sides, and then the rest. -/
lemma parallel_check_bind {x : Except Problem α} {f : α → Step σ γ} {g : α → Step σ δ}
    (hf : ∀ a, x = .ok a → Parallel m R stray W (f a) (g a)) :
    Parallel m R stray W (liftM x >>= f) (liftM x >>= g) := by
  cases x with
  | ok a => exact hf a rfl
  | error p => exact fun _ _ hR => .error p hR rfl rfl

lemma parallel_get_bind {f : σ → Step σ γ} {g : σ → Step σ δ}
    (hf : ∀ s t, R s t → Parallel m R stray W (f s) (g t)) :
    Parallel m R stray W (get >>= f) (get >>= g) :=
  fun s t hR => hf s t hR s t hR

lemma parallel_modify {f g : σ → σ} (hf : ∀ s t, R s t → R (f s) (g t))
    (hm : ∀ s, m (f s) = m s) (hm' : ∀ t, m (g t) = m t) :
    Parallel m R stray Eq (modify f : Step σ Unit) (modify g) :=
  fun s t hR => .ok rfl (hf s t hR) (hm s) (hm' t)

end Step

end Arbor
