import Arbor.Evaluation
import Arbor.Proofs.Program.Renaming

/-!
# Renaming of scopes

When the names that scopes bind are changed by an injective renaming, what was bound to a name is
bound to its new name.  All operations on scopes commute with the change, problems included, since a
problem tells where a name stands and not what it is.
-/

namespace Arbor

/-- The scope with its names changed. -/
def Scope.rename (ρ : String → String) (s : Scope) : Scope :=
  { s with bindings := s.bindings.map (Prod.map ρ id) }

/-- The scopes with their names changed. -/
def Scopes.rename (ρ : String → String) (ss : Scopes) : Scopes := ss.map (Scope.rename ρ)

variable {ρ : String → String}

/-! ## One scope -/

namespace Scope

lemma find?_rename (hρ : Function.Injective ρ) (s : Scope) (n : String) :
    (s.rename ρ).find? (ρ n) = s.find? n := by
  obtain ⟨bindings, role⟩ := s
  unfold rename find?
  induction bindings with
  | nil => rfl
  | cons entry bindings ih =>
    obtain ⟨m, b⟩ := entry
    simp only [List.map_cons, Prod.map_apply, List.lookup_cons]
    by_cases hm : n = m
    · simp [hm]
    · have hne : ρ n ≠ ρ m := fun h => hm (hρ h)
      simpa [beq_eq_false_iff_ne.2 hm, beq_eq_false_iff_ne.2 hne] using ih

lemma define_rename (hρ : Function.Injective ρ) (s : Scope) (name : Ident) (b : Binding) :
    (s.rename ρ).define (name.rename ρ) b = Scope.rename ρ <$> s.define name b := by
  have hfind : (s.rename ρ).find? (name.rename ρ).name = s.find? name.name :=
    find?_rename hρ s name.name
  rw [define_eq, define_eq, hfind]
  split
  · rfl
  · split <;> rfl

lemma replace_rename (hρ : Function.Injective ρ) (s : Scope) (n : String) (b : Binding) :
    (s.rename ρ).replace (ρ n) b = (s.replace n b).rename ρ := by
  simp only [replace, rename, List.map_map]
  congr 1
  refine List.map_congr_left fun entry _ => ?_
  obtain ⟨m, old⟩ := entry
  by_cases hm : m = n
  · simp [hm]
  · have hne : ρ m ≠ ρ n := fun h => hm (hρ h)
    simp [hm, hne]

lemma bindAll_rename (hρ : Function.Injective ρ) (s : Scope) (ps : List Ident) (ds : List Datum) :
    (s.rename ρ).bindAll (ps.map (Ident.rename ρ)) ds = Scope.rename ρ <$> s.bindAll ps ds := by
  induction ps generalizing s ds with
  | nil => rfl
  | cons p ps ih =>
    cases ds with
    | nil => rfl
    | cons d ds =>
      rw [List.map_cons, bindAll, bindAll, define_rename hρ, bind_map_left, map_bind]
      exact bind_congr fun s => ih s ds

end Scope

/-! ## Nested scopes -/

namespace Scopes

@[simp] lemma rename_cons (s : Scope) (ss : Scopes) :
    rename ρ (s :: ss) = s.rename ρ :: rename ρ ss := rfl

@[simp] lemma tail_rename (ss : Scopes) : (rename ρ ss).tail = rename ρ ss.tail :=
  List.map_tail.symm

lemma find?_rename (hρ : Function.Injective ρ) (ss : Scopes) (n : String) :
    find? (rename ρ ss) (ρ n) = find? ss n := by
  induction ss with
  | nil => rfl
  | cons s ss ih => rw [rename_cons, find?_cons, find?_cons, Scope.find?_rename hρ, ih]

lemma lookup_rename (hρ : Function.Injective ρ) (ss : Scopes) (name : Ident) :
    lookup (rename ρ ss) (name.rename ρ) = lookup ss name := by
  have hfind : find? (rename ρ ss) (name.rename ρ).name = find? ss name.name :=
    find?_rename hρ ss name.name
  rw [lookup, lookup, hfind]
  rfl

lemma define_rename (hρ : Function.Injective ρ) (ss : Scopes) (name : Ident) (b : Binding) :
    define (rename ρ ss) (name.rename ρ) b = rename ρ <$> define ss name b := by
  cases ss with
  | nil =>
    have hempty : Scope.define {} (name.rename ρ) b = Scope.rename ρ <$> Scope.define {} name b :=
      Scope.define_rename hρ {} name b
    change (Scope.define {} (name.rename ρ) b >>= _) = _ <$> (Scope.define {} name b >>= _)
    rw [hempty, bind_map_left, map_bind]
    rfl
  | cons s outer =>
    change ((s.rename ρ).define (name.rename ρ) b >>= _) = _ <$> (s.define name b >>= _)
    rw [Scope.define_rename hρ, bind_map_left, map_bind]
    rfl

lemma replace_rename (hρ : Function.Injective ρ) (ss : Scopes) (n : String) (b : Binding) :
    replace (ρ n) b (rename ρ ss) = rename ρ (replace n b ss) := by
  induction ss with
  | nil => rfl
  | cons s ss ih =>
    rw [rename_cons, replace, replace, Scope.find?_rename hρ]
    split
    · rw [Scope.replace_rename hρ, rename_cons]
    · rw [ih, rename_cons]

lemma assign_rename (hρ : Function.Injective ρ) (ss : Scopes) (name : Ident) (v : Value)
    (fresh : Except Problem UInt8) :
    assign (rename ρ ss) (name.rename ρ) v fresh
      = Prod.map id (rename ρ) <$> assign ss name v fresh := by
  have hreplace : ∀ b, replace (name.rename ρ).name b (rename ρ ss)
      = rename ρ (replace name.name b ss) := fun b => replace_rename hρ ss name.name b
  rw [assign, assign, lookup_rename hρ, map_bind]
  refine bind_congr fun b => ?_
  rw [map_bind]
  simp only [hreplace, map_pure]
  rfl

lemma frame?_rename (ss : Scopes) : frame? (rename ρ ss) = frame? ss := by
  unfold frame? findRole rename
  rw [List.findSome?_map]
  rfl

end Scopes

end Arbor
