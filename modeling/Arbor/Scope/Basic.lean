import Arbor.Problem.Step
import Arbor.Value.Basic

/-!
# Scopes

A scope binds names.  A binding holds a datum known at compile time, or the slot in which the
running program keeps the value.  `Scopes` is a chain of nested scopes, the innermost first: a block
adds one in front, while the body of a function starts a chain of its own and sees its parameters
only.

* A name may hide bindings of outer scopes but not one of its own scope.
* Void values are not bound.
* A scope may be that of a body, which `return` leaves, or of a loop.
* Assigning to a binding that holds a datum replaces the datum; when the value is not known yet the
  binding is widened to a fresh slot.
-/

namespace Arbor

/-- What a name stands for. -/
inductive Binding where
  /-- A datum known at compile time. -/
  | constant (datum : Datum) (isFinal : Bool)
  /-- A value that the running program keeps in a slot. -/
  | stored (type : ValueType) (slot : UInt8) (isFinal : Bool)
deriving DecidableEq, Repr

namespace Binding

/-- What is known of the value bound. -/
def value : Binding → Value
  | .constant d _ => .known d
  | .stored t _ _ => .runtime t

/-- The type of the value bound. -/
def type (b : Binding) : ValueType := b.value.type

/-- Whether the name keeps its value. -/
def isFinal : Binding → Bool
  | .constant _ f => f
  | .stored _ _ f => f

/-- Where the running program keeps the value. -/
def slot? : Binding → Option UInt8
  | .constant _ _ => none
  | .stored _ s _ => some s

end Binding

/-! ## Slots -/

/-- Hands out slots, each once. -/
structure Slots where
  next : Nat := 0
deriving DecidableEq, Repr

namespace Slots

/-- The slot to be handed out next; a slot's number fits one byte. -/
def fresh (s : Slots) : Except Problem UInt8 :=
  if s.next < 256 then pure (UInt8.ofNat s.next) else throw (.defect .outOfSlots)

/-- The slots after handing one out. -/
def advance (s : Slots) : Slots := ⟨s.next + 1⟩

/-- Hands out a slot. -/
def alloc : Step Slots UInt8 := do
  let slot ← (← get).fresh
  modify advance
  pure slot

end Slots

/-! ## One scope -/

/-- What a scope is the scope of.  Bodies carry the number of the frame that `return` leaves. -/
inductive ScopeRole where
  | root (frame : Nat)
  | function (frame : Nat)
  | loop
deriving DecidableEq, Repr

/-- The frame of a body. -/
def ScopeRole.frame? : ScopeRole → Option Nat
  | .root f => some f
  | .function f => some f
  | .loop => none

/-- The bindings of one scope; each name is bound at most once. -/
structure Scope where
  bindings : List (String × Binding) := []
  role : Option ScopeRole := none
deriving DecidableEq, Repr

namespace Scope

/-- The binding of a name. -/
def find? (s : Scope) (name : String) : Option Binding := s.bindings.lookup name

/-- Binds a name that the scope does not bind yet. -/
def insert (name : Ident) (b : Binding) : Step Scope Unit := do
  if b.type.isVoid then throw (Fault.voidDefinition.atSpan name.span)
  else if ((← get).find? name.name).isSome then throw (Fault.alreadyDefined.atSpan name.span)
  else modify fun s => { s with bindings := (name.name, b) :: s.bindings }

/-- The scope with one more name. -/
def define (s : Scope) (name : Ident) (b : Binding) : Except Problem Scope :=
  Step.outcome (insert name b) s

theorem define_eq (s : Scope) (name : Ident) (b : Binding) :
    s.define name b =
      if b.type.isVoid then .error (Fault.voidDefinition.atSpan name.span)
      else if (s.find? name.name).isSome then .error (Fault.alreadyDefined.atSpan name.span)
      else .ok { s with bindings := (name.name, b) :: s.bindings } := by
  unfold define insert
  by_cases hvoid : b.type.isVoid
  · rw [if_pos hvoid, if_pos hvoid]
    rfl
  · rw [if_neg hvoid, if_neg hvoid]
    change Step.outcome (if (s.find? name.name).isSome then _ else _) s = _
    by_cases hsome : (s.find? name.name).isSome
    · rw [if_pos hsome, if_pos hsome]
      rfl
    · rw [if_neg hsome, if_neg hsome]
      rfl

/-- Replaces the binding of a name. -/
def replace (s : Scope) (name : String) (b : Binding) : Scope :=
  { s with bindings := s.bindings.map fun (n, old) => if n = name then (n, b) else (n, old) }

end Scope

/-! ## Nested scopes -/

/-- Nested scopes, the innermost first. -/
abbrev Scopes := List Scope

/-- What an assignment leads to. -/
inductive Assignment where
  /-- The binding holds the new datum. -/
  | replaced
  /-- The value is to be stored into the slot of the binding. -/
  | store (slot : UInt8)
  /-- The binding was moved to this fresh slot, into which the value is to be stored. -/
  | widened (slot : UInt8)
deriving DecidableEq, Repr

/-- The effect of an assignment on a binding.  `fresh` gives the slot to use if the binding needs
one, or the reason why there is none. -/
def Binding.assign {m : Type → Type} [Monad m] [MonadExceptOf Problem m] (b : Binding)
    (name : Ident) (value : Value) (fresh : m UInt8) : m (Assignment × Binding) :=
  if b.isFinal then throw (Fault.finalAssignment.atSpan name.span)
  else if !b.type.compatible value.type then
    throw ((Fault.assignmentMismatch value.type b.type).atSpan name.span)
  else
    match b, value with
    | .stored _ slot _, _ => pure (.store slot, b)
    | .constant _ _, .known d => pure (.replaced, .constant d false)
    | .constant _ _, .runtime t => do
      let slot ← fresh
      pure (.widened slot, .stored t slot false)

namespace Scopes

/-- The innermost binding of a name. -/
def find? (ss : Scopes) (name : String) : Option Binding := ss.findSome? (·.find? name)

/-- The innermost binding of an identifier, which must have one. -/
def lookup (ss : Scopes) (name : Ident) : Except Problem Binding :=
  match Scopes.find? ss name.name with
  | some b => pure b
  | none => throw (Fault.undefinedIdentifier.atSpan name.span)

@[simp] theorem find?_nil (name : String) : find? [] name = none := rfl

@[simp] theorem find?_cons (s : Scope) (ss : Scopes) (name : String) :
    find? (s :: ss) name = (s.find? name).or (find? ss name) := by
  cases h : s.find? name <;> simp [find?, h]

theorem lookup_eq_ok_iff {ss : Scopes} {name : Ident} {b : Binding} :
    lookup ss name = .ok b ↔ find? ss name.name = some b := by
  unfold lookup
  split
  · next hfind => simp [hfind, pure, Except.pure]
  · next hfind => simp [hfind, throw, throwThe, MonadExceptOf.throw]

/-- Replaces the innermost binding of a name. -/
def replace (name : String) (b : Binding) : Scopes → Scopes
  | [] => []
  | s :: ss =>
    if (s.find? name).isSome then s.replace name b :: ss else s :: replace name b ss

/-- Assigns to the innermost binding of an identifier. -/
def assign (ss : Scopes) (name : Ident) (value : Value) (fresh : Except Problem UInt8) :
    Except Problem (Assignment × Scopes) := do
  let b ← lookup ss name
  let (outcome, b') ← b.assign name value fresh
  pure (outcome, replace name.name b' ss)

/-- Binds a name in the innermost scope.  Outside of all scopes there is nothing to bind in, and a
scope is opened for it. -/
def define (ss : Scopes) (name : Ident) (b : Binding) : Except Problem Scopes :=
  match ss with
  | [] => do
    let s ← Scope.define {} name b
    pure [s]
  | s :: outer => do
    let s ← s.define name b
    pure (s :: outer)

/-- The role of the innermost scope whose role passes a test. -/
def findRole (ss : Scopes) (accept : ScopeRole → Bool) : Option ScopeRole :=
  ss.findSome? fun s => s.role.filter accept

/-- The frame that a `return` leaves: that of the innermost body. -/
def frame? (ss : Scopes) : Option Nat :=
  (findRole ss fun r => r.frame?.isSome).bind ScopeRole.frame?

end Scopes

end Arbor
