import Arbor.Proofs.Evaluation.Outcome
import Arbor.Proofs.Scope.Settled
import Mathlib.Data.List.Forall2
import Mathlib.Data.Option.Basic

/-!
# Data in place of stored values

Emission knows of a stored value only its type.  When an expression is evaluated for certain values,
data take the place of the names that are stored, and a relation `C` says which data a type admits.

* `Scopes.Admit C ss es`: the scopes `es` bind the names that `ss` bind, some of those that are
  stored to data that are admitted.
* `Scopes.Admit.refines`: what is known at compile time is known then, too.
* `Scopes.Admit.bind`, `Scopes.Admit.replace`: definitions and assignments keep it so.
-/

namespace Arbor

variable {C C' : Datum → ValueType → Prop}

/-- A binding as it is, or a datum that is admitted in place of a stored value. -/
inductive Binding.Admits (C : Datum → ValueType → Prop) : Binding → Binding → Prop
  | refl (b : Binding) : Admits C b b
  | datum {d : Datum} {t : ValueType} (h : C d t) (slot : UInt8) (f f' : Bool) :
      Admits C (.stored t slot f) (.constant d f')

lemma Binding.Admits.mono (hC : ∀ d t, C d t → C' d t) {b b' : Binding} (h : b.Admits C b') :
    b.Admits C' b' := by
  cases h with
  | refl b => exact .refl b
  | datum h slot f f' => exact .datum (hC _ _ h) slot f f'

/-- One scope binds the names of another, to what is admitted in their place. -/
def Scope.Admit (C : Datum → ValueType → Prop) (s e : Scope) : Prop :=
  ∀ x, Option.Rel (Binding.Admits C) (s.find? x) (e.find? x)

lemma Scope.Admit.isSome_find? {s e : Scope} (h : s.Admit C e) (x : String) :
    (e.find? x).isSome = (s.find? x).isSome := by
  have hx := h x
  generalize s.find? x = r at hx ⊢
  generalize e.find? x = r' at hx ⊢
  cases hx <;> rfl

namespace Scopes

/-- Scopes that bind the names of others, to what is admitted in their place. -/
def Admit (C : Datum → ValueType → Prop) (ss es : Scopes) : Prop :=
  List.Forall₂ (Scope.Admit C) ss es

namespace Admit

variable {ss es : Scopes} {s e : Scope} {x : String} {b b' : Binding}

lemma nil : Admit C [] [] := List.Forall₂.nil

lemma of_eq {ss' : Scopes} (h : Admit C ss es) (heq : ss' = ss) : Admit C ss' es := heq ▸ h

lemma mono (hC : ∀ d t, C d t → C' d t) (h : Admit C ss es) : Admit C' ss es := by
  refine h.imp fun s e hs x => ?_
  have hx := hs x
  generalize s.find? x = r at hx ⊢
  generalize e.find? x = r' at hx ⊢
  cases hx with
  | none => exact .none
  | some hb => exact .some (hb.mono hC)

/-- Names that are found on one side are found on the other. -/
lemma find? (h : Admit C ss es) (x : String) :
    Option.Rel (Binding.Admits C) (find? ss x) (Scopes.find? es x) := by
  induction h with
  | nil => exact .none
  | @cons s e ss es hs _ ih =>
    rw [find?_cons, find?_cons]
    have hhead := hs x
    generalize s.find? x = r at hhead ⊢
    generalize e.find? x = r' at hhead ⊢
    cases hhead with
    | none => exact ih
    | some hb => exact .some hb

lemma admits (h : Admit C ss es) (hb : Scopes.find? ss x = some b)
    (hb' : Scopes.find? es x = some b') : b.Admits C b' := by
  have hx := h.find? x
  rw [hb, hb'] at hx
  cases hx with
  | some hadmits => exact hadmits

/-- What is known at compile time stays as it is. -/
lemma refines (h : Admit C ss es) : Refines ss es := by
  intro x d f hfind
  have hx := h.find? x
  rw [hfind] at hx
  generalize Scopes.find? es x = r at hx ⊢
  cases hx with
  | some hadmits =>
    cases hadmits
    exact ⟨f, rfl⟩

lemma open_empty (h : Admit C ss es) (hs : s.bindings = []) (he : e.bindings = []) :
    Admit C (s :: ss) (e :: es) := by
  refine .cons (fun x => ?_) h
  rw [Scope.find?, Scope.find?, hs, he]
  exact .none

lemma tail (h : Admit C ss es) : Admit C ss.tail es.tail := by
  cases h with
  | nil => exact .nil
  | cons _ htail => exact htail

lemma bind (h : Admit C (s :: ss) (e :: es)) (x : String) (hb : b.Admits C b') :
    Admit C (s.bind x b :: ss) (e.bind x b' :: es) := by
  cases h with
  | cons hs htail =>
    refine .cons (fun y => ?_) htail
    rw [Scope.find?_bind, Scope.find?_bind]
    split
    · exact .some hb
    · exact hs y

/-- Defining a name binds it in the innermost scope. -/
lemma exists_of_define (h : Admit C (s :: ss) es) {x : Ident} {es' : Scopes}
    (hdef : define es x b = .ok es') :
    ∃ e outer, es = e :: outer ∧ es' = e.bind x.name b :: outer := by
  cases h with
  | cons _ _ =>
    obtain ⟨e', he', rfl⟩ := Scopes.define_eq_ok hdef
    obtain ⟨-, -, rfl⟩ := Scope.define_eq_ok_iff.1 he'
    exact ⟨_, _, rfl, rfl⟩

/-- Another binding that is admitted may take the place of one. -/
lemma replace (h : Admit C ss es) (hfind : Scopes.find? ss x = some b) (hb : b.Admits C b') :
    Admit C ss (replace x b' es) := by
  induction h with
  | nil => exact .nil
  | @cons s e ss es hs htail ih =>
    rw [find?_cons] at hfind
    rw [Scopes.replace, hs.isSome_find? x]
    cases hfound : s.find? x with
    | none =>
      rw [hfound, Option.none_or] at hfind
      exact .cons hs (ih hfind)
    | some b₀ =>
      rw [hfound, Option.some_or] at hfind
      cases hfind
      have hsome : (s.find? x).isSome = true := by rw [hfound, Option.isSome_some]
      obtain ⟨b₁, hb₁⟩ := Option.isSome_iff_exists.1 ((hs.isSome_find? x).trans hsome)
      refine .cons (fun y => ?_) htail
      rw [Scope.find?_replace]
      split
      · next hy =>
        subst hy
        rw [hfound, hb₁]
        exact .some hb
      · exact hs y

end Admit

end Scopes

end Arbor
