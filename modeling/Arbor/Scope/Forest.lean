import Arbor.Scope.Basic

/-!
# Scopes that are shared

A `Forest` keeps many scopes at once, numbered in order of creation, with children that share their
parents: what is bound or assigned in a scope is seen from every scope inside it.  Each scope
remembers the numbers of the scopes it is nested in, so what it sees is a chain of scopes.

A `Store` is a forest together with the slots that are handed out for it.  Its operations are steps
that change it in place.
-/

namespace Arbor

/-- A scope among others. -/
structure ForestScope where
  scope : Scope
  /-- The numbers of the scopes seen from here, the own number first. -/
  path : List Nat
deriving DecidableEq, Repr

/-- Scopes by number. -/
structure Forest where
  scopes : List ForestScope := []
deriving DecidableEq, Repr

namespace Forest

/-- Adds a scope that sees no other. -/
def openRoot (f : Forest) (role : Option ScopeRole) : Nat × Forest :=
  let id := f.scopes.length
  (id, ⟨f.scopes ++ [⟨{ role := role }, [id]⟩]⟩)

/-- The numbers of the scopes seen from a scope, itself first. -/
def path (f : Forest) (id : Nat) : List Nat :=
  match f.scopes[id]? with
  | some s => s.path
  | none => []

/-- Adds a scope nested in another. -/
def openChild (f : Forest) (parent : Nat) (role : Option ScopeRole) : Nat × Forest :=
  let id := f.scopes.length
  (id, ⟨f.scopes ++ [⟨{ role := role }, id :: f.path parent⟩]⟩)

/-- The scope with a number; one that was never created binds nothing. -/
def scope (f : Forest) (id : Nat) : Scope :=
  match f.scopes[id]? with
  | some s => s.scope
  | none => {}

/-- The chain of scopes seen from a scope. -/
def chain (f : Forest) (id : Nat) : Scopes := (f.path id).map f.scope

/-- Puts a scope in place of one with a number. -/
def setScope (f : Forest) (id : Nat) (s : Scope) : Forest :=
  ⟨f.scopes.modify id fun old => { old with scope := s }⟩

/-- The binding of a name as seen from a scope. -/
def lookup (f : Forest) (id : Nat) (name : Ident) : Except Problem Binding :=
  Scopes.lookup (f.chain id) name

/-- The nearest binding of a name, from a scope outwards, with the number of its scope. -/
def binding? (f : Forest) (id : Nat) (name : String) : Option (Nat × Binding) :=
  (f.path id).findSome? fun i => ((f.scope i).find? name).map fun b => (i, b)

/-- The role of the nearest scope, from a scope outwards, whose role passes a test. -/
def findRole (f : Forest) (id : Nat) (accept : ScopeRole → Bool) : Option ScopeRole :=
  Scopes.findRole (f.chain id) accept

/-- The frame that a `return` in a scope leaves. -/
def frame? (f : Forest) (id : Nat) : Option Nat :=
  Scopes.frame? (f.chain id)

end Forest

/-! ## Scopes and slots -/

/-- Scopes by number, and the slots handed out for them. -/
structure Store where
  forest : Forest := {}
  slots : Slots := {}

namespace Store

variable {α : Type}

/-- A step on the scope with a number. -/
def onScope (id : Nat) (step : Step Scope α) : Step Store α :=
  Step.within (·.forest.scope id) (fun s σ => { σ with forest := σ.forest.setScope id s }) step

/-- A step on the slots. -/
def onSlots (step : Step Slots α) : Step Store α :=
  Step.within Store.slots (fun slots σ => { σ with slots := slots }) step

/-- Adds a scope that sees no other. -/
def openRoot (role : Option ScopeRole) : Step Store Nat := do
  let (id, forest) := (← get).forest.openRoot role
  modify fun σ => { σ with forest := forest }
  pure id

/-- Adds a scope nested in another. -/
def openChild (parent : Nat) (role : Option ScopeRole) : Step Store Nat := do
  let (id, forest) := (← get).forest.openChild parent role
  modify fun σ => { σ with forest := forest }
  pure id

/-- Binds a name in a scope. -/
def define (id : Nat) (name : Ident) (b : Binding) : Step Store Unit :=
  onScope id (Scope.insert name b)

/-- The binding of a name as seen from a scope. -/
def lookup (id : Nat) (name : Ident) : Step Store Binding := do
  (← get).forest.lookup id name

/-- Hands out a slot, if that is wanted at all. -/
def alloc (useSlots : Bool) : Step Slots UInt8 :=
  if useSlots then Slots.alloc else throw (.defect .storageMissing)

/-- Assigns to a name that is bound in a scope. -/
def assignAt (home : Nat) (b : Binding) (name : Ident) (value : Value) (useSlots : Bool) :
    Step Store Assignment := do
  let (outcome, b') ← onSlots (b.assign name value (alloc useSlots))
  onScope home (modify (·.replace name.name b'))
  pure outcome

/-- Assigns to a name as seen from a scope. -/
def assign (id : Nat) (name : Ident) (value : Value) (useSlots : Bool) : Step Store Assignment := do
  match (← get).forest.binding? id name.name with
  | none => throw (Fault.undefinedIdentifier.atSpan name.span)
  | some (home, b) => assignAt home b name value useSlots

end Store

end Arbor
