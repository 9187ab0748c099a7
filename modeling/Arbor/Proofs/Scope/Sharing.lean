import Arbor.Proofs.Scope.Settled
import Arbor.Scope.Forest

/-!
# Scopes that are seen from many others

In a `Forest` one binding may be seen from many scopes.  `Forest.Reaches f j id x` says that a
look-up of `x` which starts in scope `j` gets as far as scope `id`: no scope before it binds the
name.

A definition and an assignment that succeed are updates of one binding, of one name in one scope
(`Forest.Updates`); an assignment updates the innermost binding that is seen.  What an update does
to look-ups follows from that alone: those that get as far as the binding find it, and all others
are as before.

* `Forest.Nested`: what the paths of a forest are like.
* `Forest.updates_of_define`, `Forest.updates_replace`: operations as updates.
* `Forest.Updates.lookup_of_reaches`, `Forest.Updates.lookup_of_not_reaches`: look-ups after them.
-/

namespace Arbor.Forest

variable {f f' : Forest} {id j k : Nat} {x : String}

/-! ## Scopes by number -/

lemma scope_setScope (f : Forest) (id : Nat) (s : Scope) (j : Nat) :
    (f.setScope id s).scope j = if j = id ∧ id < f.scopes.length then s else f.scope j := by
  simp only [setScope, scope, List.getElem?_modify]
  by_cases hj : id = j
  · subst hj
    by_cases hlt : id < f.scopes.length
    · simp [hlt]
    · simp [hlt]
  · have hne : j ≠ id := Ne.symm hj
    simp [hj, hne]

@[simp] lemma path_setScope (f : Forest) (id : Nat) (s : Scope) (j : Nat) :
    (f.setScope id s).path j = f.path j := by
  simp only [setScope, path, List.getElem?_modify]
  cases f.scopes[j]? with
  | none => rfl
  | some old =>
    by_cases hj : id = j <;> simp [hj]

@[simp] lemma length_setScope (f : Forest) (id : Nat) (s : Scope) :
    (f.setScope id s).scopes.length = f.scopes.length := by
  simp [setScope]

/-- Putting back a scope changes nothing. -/
lemma setScope_scope (f : Forest) (id : Nat) : f.setScope id (f.scope id) = f := by
  have hsame : f.scopes.modify id (fun old => { old with scope := f.scope id }) = f.scopes := by
    refine List.ext_getElem? fun j => ?_
    rw [List.getElem?_modify]
    cases hj : f.scopes[j]? with
    | none => rfl
    | some old =>
      by_cases hid : id = j
      · subst hid
        simp [scope, hj]
      · simp [hid]
  rw [setScope, hsame]

/-- The chain of a scope binds what the scopes along its path bind. -/
lemma find?_chain (f : Forest) (id : Nat) (x : String) :
    Scopes.find? (f.chain id) x = (f.path id).findSome? fun k => (f.scope k).find? x := by
  simp [Scopes.find?, chain, List.findSome?_map, Function.comp_def]

/-! ## Paths -/

/-- A scope comes first on its own path, and a path visits scopes of the forest, each once. -/
structure Nested (f : Forest) : Prop where
  self : ∀ {id : Nat}, id < f.scopes.length → ∃ outer, f.path id = id :: outer
  lt : ∀ {id k : Nat}, k ∈ f.path id → k < f.scopes.length
  nodup : ∀ id : Nat, (f.path id).Nodup

/-- A look-up of a name that starts in scope `j` gets as far as scope `id`. -/
def Reaches (f : Forest) (j id : Nat) (x : String) : Prop :=
  ∃ before after, f.path j = before ++ id :: after ∧ ∀ k ∈ before, (f.scope k).find? x = none

lemma Nested.reaches_self (h : f.Nested) (hid : id < f.scopes.length) (x : String) :
    f.Reaches id id x := by
  obtain ⟨outer, houter⟩ := h.self hid
  exact ⟨[], outer, houter, by simp⟩

lemma Nested.lt_of_reaches (h : f.Nested) (hreach : f.Reaches j id x) : id < f.scopes.length := by
  obtain ⟨before, after, hpath, -⟩ := hreach
  exact h.lt (by rw [hpath]; simp)

lemma nested_nil : Nested {} where
  self h := by simp at h
  lt h := by simp [path] at h
  nodup id := by simp [path]

/-- The forest `f'` has one more scope, which binds nothing and has a given path. -/
structure Extends (f f' : Forest) (added : List Nat) : Prop where
  length : f'.scopes.length = f.scopes.length + 1
  path : ∀ j, f'.path j = if j = f.scopes.length then added else f.path j
  find? : ∀ j x, (f'.scope j).find? x = (f.scope j).find? x

lemma getElem?_snoc (xs : List ForestScope) (s : ForestScope) (j : Nat) :
    (xs ++ [s])[j]? = if j = xs.length then some s else xs[j]? := by
  rw [List.getElem?_append]
  split
  · next hlt => rw [if_neg (Nat.ne_of_lt hlt)]
  · next hge =>
    by_cases hj : j = xs.length
    · simp [hj]
    · have hnone : xs[j]? = none := List.getElem?_eq_none (Nat.le_of_not_lt hge)
      rw [if_neg hj, hnone, List.getElem?_eq_none]
      simp only [List.length_singleton]
      omega

lemma extends_append (f : Forest) (role : Option ScopeRole) (added : List Nat) :
    f.Extends ⟨f.scopes ++ [⟨{ role := role }, added⟩]⟩ added where
  length := by simp
  path j := by
    by_cases hj : j = f.scopes.length <;> simp [Forest.path, getElem?_snoc, hj]
  find? j x := by
    by_cases hj : j = f.scopes.length <;> simp [Forest.scope, getElem?_snoc, hj, Scope.find?]

/-- Opening a scope keeps paths as they should be, and what is seen from other scopes. -/
lemma Nested.extends {outer : List Nat} (h : f.Nested)
    (hext : f.Extends f' (f.scopes.length :: outer)) (hlt : ∀ k ∈ outer, k < f.scopes.length)
    (hnodup : outer.Nodup) : f'.Nested where
  self := by
    intro id hid
    rw [hext.length] at hid
    rw [hext.path]
    split
    · next heq => exact ⟨outer, by rw [heq]⟩
    · next hne => exact h.self (by omega)
  lt := by
    intro id k hk
    rw [hext.path] at hk
    rw [hext.length]
    split at hk
    · rcases List.mem_cons.1 hk with rfl | hk
      · omega
      · exact Nat.lt_succ_of_lt (hlt k hk)
    · exact Nat.lt_succ_of_lt (h.lt hk)
  nodup := by
    intro id
    rw [hext.path]
    split
    · exact List.nodup_cons.2 ⟨fun hmem => Nat.lt_irrefl _ (hlt _ hmem), hnodup⟩
    · exact h.nodup id

lemma Extends.lookup {added : List Nat} (h : f.Extends f' added) (hj : j ≠ f.scopes.length)
    (name : Ident) : f'.lookup j name = f.lookup j name := by
  simp only [Forest.lookup, Scopes.lookup, find?_chain, h.path, if_neg hj, h.find?]

/-! ## Updates -/

/-- The forest `f'` binds a name in a scope to `b`, and is otherwise the same as `f`. -/
structure Updates (f f' : Forest) (id : Nat) (x : String) (b : Binding) : Prop where
  length : f'.scopes.length = f.scopes.length
  path : ∀ j, f'.path j = f.path j
  find? : ∀ j y, (f'.scope j).find? y = if j = id ∧ y = x then some b else (f.scope j).find? y

lemma updates_setScope {s : Scope} {b : Binding} (hid : id < f.scopes.length)
    (hs : ∀ y, s.find? y = if y = x then some b else (f.scope id).find? y) :
    f.Updates (f.setScope id s) id x b where
  length := length_setScope ..
  path := path_setScope f id s
  find? := by
    intro j y
    rw [scope_setScope]
    by_cases hj : j = id
    · subst hj
      simp [hid, hs]
    · simp [hj]

lemma Nested.updates {b : Binding} (h : f.Nested) (hup : f.Updates f' id x b) : f'.Nested where
  self hid := by
    rw [hup.length] at hid
    rw [hup.path]
    exact h.self hid
  lt hk := by
    rw [hup.path] at hk
    rw [hup.length]
    exact h.lt hk
  nodup j := by
    rw [hup.path]
    exact h.nodup j

/-- A definition that succeeds binds a name that its scope did not bind. -/
lemma updates_of_define {name : Ident} {b : Binding} {s : Scope} (hid : id < f.scopes.length)
    (h : (f.scope id).define name b = .ok s) :
    f.Updates (f.setScope id s) id name.name b ∧ (f.scope id).find? name.name = none ∧
      b.type.isVoid = false := by
  obtain ⟨hvoid, hnone, rfl⟩ := Scope.define_eq_ok_iff.1 h
  exact ⟨updates_setScope hid fun y => Scope.find?_bind .., hnone, hvoid⟩

/-- The nearest binding of a name is in the scope as far as which a look-up gets. -/
lemma reaches_of_binding? {home : Nat} {b : Binding} (h : f.binding? id x = some (home, b)) :
    f.Reaches id home x ∧ (f.scope home).find? x = some b := by
  obtain ⟨before, k, after, hpath, hk, hbefore⟩ := List.findSome?_eq_some_iff.1 h
  obtain ⟨b', hfind, heq⟩ := Option.map_eq_some_iff.1 hk
  cases heq
  exact ⟨⟨before, after, hpath, fun j hj => Option.map_eq_none_iff.1 (hbefore j hj)⟩, hfind⟩

/-- Replacing the binding of a name in a scope that has one. -/
lemma updates_replace {b : Binding} (b' : Binding) (hid : id < f.scopes.length)
    (hfind : (f.scope id).find? x = some b) :
    f.Updates (f.setScope id ((f.scope id).replace x b')) id x b' := by
  refine updates_setScope hid fun y => ?_
  rw [Scope.find?_replace]
  split
  · next hy => rw [hy, hfind, Option.map_some]
  · rfl

/-! ## Look-ups after an update -/

/-- What is first found along a path does not depend on a place that is not come to. -/
lemma findSome?_update {g : Nat → Option Binding} {b : Binding} {path : List Nat}
    (h : ¬ ∃ before after, path = before ++ id :: after ∧ ∀ k ∈ before, g k = none) :
    path.findSome? (fun k => if k = id then some b else g k) = path.findSome? g := by
  induction path with
  | nil => rfl
  | cons k rest ih =>
    have hne : k ≠ id := fun heq => h ⟨[], rest, by rw [heq]; rfl, by simp⟩
    rw [List.findSome?_cons, List.findSome?_cons, if_neg hne]
    cases hk : g k with
    | some b' => rfl
    | none =>
      refine ih fun ⟨before, after, hrest, hbefore⟩ => ?_
      refine h ⟨k :: before, after, by rw [hrest]; rfl, fun j hj => ?_⟩
      rcases List.mem_cons.1 hj with rfl | hj
      · exact hk
      · exact hbefore j hj

/-- A look-up that gets as far as the binding finds it. -/
lemma Updates.lookup_of_reaches {b : Binding} {name : Ident} (h : f.Updates f' id name.name b)
    (hreach : f.Reaches j id name.name) : f'.lookup j name = .ok b := by
  obtain ⟨before, after, hpath, hbefore⟩ := hreach
  refine Scopes.lookup_eq_ok_iff.2 ?_
  rw [find?_chain, h.path, hpath, List.findSome?_append]
  cases hfirst : before.findSome? fun k => (f'.scope k).find? name.name with
  | none =>
    rw [Option.none_or, List.findSome?_cons, h.find?, if_pos ⟨rfl, rfl⟩]
  | some b' =>
    -- only the scope itself could have bound the name earlier on the path
    obtain ⟨k, hk, hfound⟩ := List.exists_of_findSome?_eq_some hfirst
    rw [h.find?] at hfound
    split at hfound
    · rw [Option.some_or, ← hfound]
    · rw [hbefore k hk] at hfound
      cases hfound

/-- All other look-ups are as before. -/
lemma Updates.lookup_of_not_reaches {b : Binding} {y : Ident} (h : f.Updates f' id x b)
    (hnot : ¬ (y.name = x ∧ f.Reaches j id x)) : f'.lookup j y = f.lookup j y := by
  have hfind : Scopes.find? (f'.chain j) y.name = Scopes.find? (f.chain j) y.name := by
    simp only [find?_chain, h.path, h.find?]
    by_cases hy : y.name = x
    · simp only [hy, and_true]
      exact findSome?_update fun hreach => hnot ⟨hy, hreach⟩
    · simp only [hy, and_false, if_false]
  simp only [Forest.lookup, Scopes.lookup, hfind]

end Arbor.Forest
