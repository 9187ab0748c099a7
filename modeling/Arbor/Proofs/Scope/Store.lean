import Arbor.Proofs.Problem.Ensures
import Arbor.Proofs.Scope.Sharing
import Arbor.Proofs.Value.Types

/-!
# Shared scopes as a store

A `Store` is a forest of scopes with the slots that are handed out for it.  It serves requests one
after the other: scopes are opened, names defined, assigned and looked up, slots handed out.  Each
request is a step that works on the store in place.  None of them leaves anything behind when it
fails (`ScopeRequest.atomic_perform`).

What a request can do is said once, by `Store.Change`: nothing at all, or one more scope, or one
binding updated, or one slot handed out, or the last two together.  What holds along a whole run
follows from that.

* `Store.Changes.keeps`: bindings that are final or stored stay.
* `Store.Changes.slots_pairwise`: slots are handed out once.
* `Store.consistent_of_run`: the laws of the store after every run.
-/

namespace Arbor

/-! ## Requests -/

/-- A request to shared scopes, which go by number.  An assignment may use the slots or not. -/
inductive ScopeRequest where
  | openRoot (role : Option ScopeRole)
  | openChild (parent : Nat) (role : Option ScopeRole)
  | define (scope : Nat) (name : Ident) (b : Binding)
  | assign (scope : Nat) (name : Ident) (value : Value) (useSlots : Bool)
  | lookup (scope : Nat) (name : Ident)
  | alloc

/-- The scope that a request names. -/
def ScopeRequest.scope? : ScopeRequest → Option Nat
  | .openRoot _ | .alloc => none
  | .openChild id _ | .define id _ _ | .assign id _ _ _ | .lookup id _ => some id

/-- What a request leads to when it does not fail. -/
inductive ScopeAnswer where
  | opened (id : Nat)
  | defined
  | assigned (outcome : Assignment)
  | found (b : Binding)
  | allocated (slot : UInt8)
deriving DecidableEq

/-- The slot that was handed out with an answer. -/
def ScopeAnswer.slot? : ScopeAnswer → Option UInt8
  | .allocated slot | .assigned (.widened slot) => some slot
  | _ => none

/-- The step that a request asks for. -/
def ScopeRequest.perform : ScopeRequest → Step Store ScopeAnswer
  | .openRoot role => return .opened (← Store.openRoot role)
  | .openChild parent role => return .opened (← Store.openChild parent role)
  | .define id name b => do
    Store.define id name b
    return .defined
  | .assign id name value useSlots => return .assigned (← Store.assign id name value useSlots)
  | .lookup id name => return .found (← Store.lookup id name)
  | .alloc => return .allocated (← Store.onSlots Slots.alloc)

namespace Store

/-- The answer to a request, and the store that it leaves, however it ends. -/
def serve (s : Store) (r : ScopeRequest) : Except Problem ScopeAnswer × Store :=
  match r.perform s with
  | .ok answer s' => (.ok answer, s')
  | .error p s' => (.error p, s')

/-- The scope that a request names has been opened. -/
def knows (s : Store) (r : ScopeRequest) : Bool := r.scope?.all (· < s.forest.scopes.length)

/-- The answers to several requests, and the store after them.  There is none if a request names a
scope that has not been opened. -/
def run : Store → List ScopeRequest → Option (List (Except Problem ScopeAnswer) × Store)
  | s, [] => some ([], s)
  | s, r :: rs =>
    if s.knows r then (run (s.serve r).2 rs).map fun (replies, s') => ((s.serve r).1 :: replies, s')
    else none

end Store

/-! ## Requests that fail -/

open Step

lemma Slots.atomic_alloc : Atomic alloc := by
  intro s p s' h
  rw [alloc_apply] at h
  split at h
  · cases h
  · cases h
    rfl

lemma Scope.atomic_insert (name : Ident) (b : Binding) : Atomic (insert name b) := by
  unfold insert
  split
  · exact atomic_throw _
  · refine atomic_get_bind fun s => ?_
    split
    · exact atomic_throw _
    · exact atomic_modify _

/-- An assignment takes a slot last of all. -/
lemma Binding.atomic_assign (b : Binding) (name : Ident) (v : Value) {fresh : Step Slots UInt8}
    (hfresh : Atomic fresh) : Atomic (b.assign name v fresh) := by
  unfold assign
  split
  · exact atomic_throw _
  · split
    · exact atomic_throw _
    · split
      · exact atomic_pure _
      · exact atomic_pure _
      · exact hfresh.bind_pure _

namespace Store

lemma atomic_onScope {α : Type} (id : Nat) {step : Step Scope α} (h : Atomic step) :
    Atomic (onScope id step) :=
  h.within fun s => by rw [s.forest.setScope_scope]

lemma atomic_onSlots {α : Type} {step : Step Slots α} (h : Atomic step) : Atomic (onSlots step) :=
  h.within fun _ => rfl

lemma atomic_alloc (useSlots : Bool) : Atomic (alloc useSlots) := by
  unfold alloc
  split
  · exact Slots.atomic_alloc
  · exact atomic_throw _

lemma atomic_assignAt (home : Nat) (b : Binding) (name : Ident) (v : Value) (useSlots : Bool) :
    Atomic (assignAt home b name v useSlots) := by
  refine (atomic_onSlots (b.atomic_assign name v (atomic_alloc useSlots))).bind ?_
  intro r s p s' h
  cases h

lemma atomic_assign (id : Nat) (name : Ident) (v : Value) (useSlots : Bool) :
    Atomic (assign id name v useSlots) := by
  refine atomic_get_bind fun s => ?_
  cases s.forest.binding? id name.name with
  | none => exact atomic_throw _
  | some found => exact atomic_assignAt found.1 found.2 name v useSlots

end Store

/-- A request that fails leaves the store as it was. -/
lemma ScopeRequest.atomic_perform (r : ScopeRequest) : Atomic r.perform := by
  cases r with
  | openRoot role => exact (atomic_get_bind fun _ => (atomic_modify _).bind_pure _).bind_pure _
  | openChild parent role =>
    exact (atomic_get_bind fun _ => (atomic_modify _).bind_pure _).bind_pure _
  | define id name b =>
    exact (Store.atomic_onScope id (Scope.atomic_insert name b)).bind_pure _
  | assign id name v useSlots => exact (Store.atomic_assign id name v useSlots).bind_pure _
  | lookup id name => exact (atomic_get_bind fun s => atomic_lift _).bind_pure _
  | alloc => exact (Store.atomic_onSlots Slots.atomic_alloc).bind_pure _

/-! ## Changes -/

/-- A binding that stays as it is: the name keeps its value, or the running program keeps it. -/
def Binding.IsFixed (b : Binding) : Prop := b.isFinal = true ∨ b.slot?.isSome

/-- An assignment leaves a fixed binding alone and does not make its type void. -/
lemma Binding.assign_keeps {b b' : Binding} {name : Ident} {v : Value}
    {fresh : Except Problem UInt8} {outcome : Assignment}
    (h : b.assign name v fresh = .ok (outcome, b')) :
    (b.IsFixed → b' = b) ∧ (b.type.isVoid = false → b'.type.isVoid = false) := by
  obtain ⟨hfinal, hfits, hstored | ⟨d, d', f, rfl, rfl, -, rfl⟩ | hwidened⟩ := assign_eq_ok h
  · obtain ⟨t, slot, f, rfl, -, rfl⟩ := hstored
    exact ⟨fun _ => rfl, id⟩
  · refine ⟨?_, fun _ => ValueType.isVoid_eq_false_iff.2 d.exists_contains⟩
    rintro (hfixed | hfixed)
    · rw [hfinal] at hfixed
      cases hfixed
    · cases hfixed
  · obtain ⟨t, d', f, slot, rfl, rfl, -, -, rfl⟩ := hwidened
    refine ⟨?_, fun _ => ?_⟩
    · rintro (hfixed | hfixed)
      · rw [hfinal] at hfixed
        cases hfixed
      · cases hfixed
    · -- the new type has a tag in common with the old one
      obtain ⟨-, x, -, hx⟩ := ValueType.compatible_iff.1 hfits
      exact ValueType.isVoid_eq_false_iff.2 ⟨x, hx⟩

/-- An assignment takes the next slot if it widens the binding, and none otherwise. -/
lemma Binding.exists_of_assign {b b' : Binding} {name : Ident} {v : Value} {useSlots : Bool}
    {slots slots' : Slots} {outcome : Assignment}
    (h : b.assign name v (Store.alloc useSlots) slots = .ok (outcome, b') slots') :
    ∃ fresh : Except Problem UInt8, b.assign name v fresh = .ok (outcome, b') ∧
      ((ScopeAnswer.assigned outcome).slot? = none ∧ slots' = slots ∨
        ∃ slot, outcome = .widened slot ∧ slots.fresh = .ok slot ∧ slots' = slots.advance) := by
  unfold assign at h
  split at h
  · cases h
  · next hfinal =>
    split at h
    · cases h
    · next hfits =>
      split at h
      · next t slot f =>
        cases h
        refine ⟨.ok 0, ?_, .inl ⟨rfl, rfl⟩⟩
        rw [assign, if_neg hfinal, if_neg hfits]
        rfl
      · next d f d' =>
        cases h
        refine ⟨.ok 0, ?_, .inl ⟨rfl, rfl⟩⟩
        rw [assign, if_neg hfinal, if_neg hfits]
        rfl
      · next d f t =>
        obtain ⟨slot, hslot, heq⟩ := exists_of_bind_pure h
        cases heq
        refine ⟨.ok slot, ?_, .inr ⟨slot, rfl, ?_⟩⟩
        · rw [assign, if_neg hfinal, if_neg hfits]
          rfl
        · cases useSlots with
          | false => cases hslot
          | true =>
            rw [Store.alloc, if_pos rfl, Slots.alloc_apply] at hslot
            split at hslot <;> cases hslot
            next hfresh => exact ⟨hfresh, rfl⟩

/-- A binding that is widened moves to the fresh slot. -/
lemma Binding.slot?_of_widened {b b' : Binding} {name : Ident} {v : Value}
    {fresh : Except Problem UInt8} {slot : UInt8}
    (h : b.assign name v fresh = .ok (.widened slot, b')) : b'.slot? = some slot := by
  obtain ⟨-, -, ⟨_, _, _, -, hbad, -⟩ | ⟨_, _, _, -, -, hbad, -⟩ | hwidened⟩ := assign_eq_ok h
  · cases hbad
  · cases hbad
  · obtain ⟨t, d, f, slot', -, -, -, heq, rfl⟩ := hwidened
    cases heq
    rfl

namespace Store

/-- The slot that was handed out with a reply, if any. -/
def handedOut? (reply : Except Problem ScopeAnswer) : Option UInt8 :=
  reply.toOption.bind ScopeAnswer.slot?

/-- What a request can do to a store. -/
inductive Change (s : Store) : Except Problem ScopeAnswer → Store → Prop
  | keep {reply : Except Problem ScopeAnswer} (h : handedOut? reply = none) : Change s reply s
  | opened {forest : Forest} {outer : List Nat}
      (hext : s.forest.Extends forest (s.forest.scopes.length :: outer))
      (hlt : ∀ k ∈ outer, k < s.forest.scopes.length) (hnodup : outer.Nodup) :
      Change s (.ok (.opened s.forest.scopes.length)) { s with forest := forest }
  | defined {forest : Forest} {id : Nat} {x : String} {b : Binding}
      (hup : s.forest.Updates forest id x b) (hnew : (s.forest.scope id).find? x = none)
      (hvoid : b.type.isVoid = false) : Change s (.ok .defined) { s with forest := forest }
  | assigned {forest : Forest} {slots : Slots} {home : Nat} {x : String} {b b' : Binding}
      {outcome : Assignment} (hup : s.forest.Updates forest home x b')
      (hold : (s.forest.scope home).find? x = some b) (hfixed : b.IsFixed → b' = b)
      (hvoid : b.type.isVoid = false → b'.type.isVoid = false)
      (hslots : (ScopeAnswer.assigned outcome).slot? = none ∧ slots = s.slots ∨
        ∃ slot, outcome = .widened slot ∧ s.slots.fresh = .ok slot ∧ slots = s.slots.advance) :
      Change s (.ok (.assigned outcome)) ⟨forest, slots⟩
  | allocated {slot : UInt8} (hfresh : s.slots.fresh = .ok slot) :
      Change s (.ok (.allocated slot)) { s with slots := s.slots.advance }

variable {s s' : Store} {reply : Except Problem ScopeAnswer}

lemma exists_of_define {id : Nat} {name : Ident} {b : Binding} {u : Unit}
    (h : define id name b s = .ok u s') :
    ∃ scope, (s.forest.scope id).define name b = .ok scope ∧
      s' = { s with forest := s.forest.setScope id scope } := by
  rw [define, onScope] at h
  obtain ⟨scope, hinsert, rfl⟩ := exists_of_within h
  exact ⟨scope, outcome_of_ok hinsert, rfl⟩

lemma exists_of_assignAt {home : Nat} {b : Binding} {name : Ident} {v : Value} {useSlots : Bool}
    {outcome : Assignment} (h : assignAt home b name v useSlots s = .ok outcome s') :
    ∃ b' slots, b.assign name v (alloc useSlots) s.slots = .ok (outcome, b') slots ∧
      s' = ⟨s.forest.setScope home ((s.forest.scope home).replace name.name b'), slots⟩ := by
  rw [assignAt] at h
  cases hassign : onSlots (b.assign name v (alloc useSlots)) s with
  | error p s₁ =>
    rw [bind_of_error hassign] at h
    cases h
  | ok r s₁ =>
    rw [bind_of_ok hassign] at h
    cases h
    obtain ⟨slots, hslots, rfl⟩ := exists_of_within hassign
    exact ⟨r.2, slots, hslots, rfl⟩

/-- An assignment that succeeds updates the innermost binding of its name, and takes a slot just
when it widens the binding. -/
lemma exists_of_assign (h : s.forest.Nested) {id : Nat} {name : Ident} {v : Value} {useSlots : Bool}
    {outcome : Assignment} (hs : assign id name v useSlots s = .ok outcome s') :
    ∃ home b b', ∃ fresh : Except Problem UInt8, s.forest.Reaches id home name.name ∧
      (s.forest.scope home).find? name.name = some b ∧
      b.assign name v fresh = .ok (outcome, b') ∧
      s.forest.Updates s'.forest home name.name b' ∧
      ((ScopeAnswer.assigned outcome).slot? = none ∧ s'.slots = s.slots ∨
        ∃ slot, outcome = .widened slot ∧ s.slots.fresh = .ok slot ∧
          s'.slots = s.slots.advance) := by
  rw [assign, get_bind_apply] at hs
  cases hfind : s.forest.binding? id name.name with
  | none =>
    rw [hfind] at hs
    cases hs
  | some found =>
    obtain ⟨home, b⟩ := found
    rw [hfind] at hs
    obtain ⟨hreach, hold⟩ := Forest.reaches_of_binding? hfind
    obtain ⟨b', slots, hslots, rfl⟩ := exists_of_assignAt hs
    obtain ⟨fresh, hb, htaken⟩ := Binding.exists_of_assign hslots
    exact ⟨home, b, b', fresh, hreach, hold, hb,
      Forest.updates_replace b' (h.lt_of_reaches hreach) hold, htaken⟩

lemma lookup_apply (id : Nat) (name : Ident) (s : Store) :
    lookup id name s = match s.forest.lookup id name with
      | .ok b => .ok b s
      | .error p => .error p s := by
  rw [lookup, get_bind_apply]
  cases s.forest.lookup id name <;> rfl

/-- A request that succeeds, to a store whose scopes are nested, makes such a change. -/
lemma change_of_perform (h : s.forest.Nested) {r : ScopeRequest} (hr : s.knows r = true)
    {answer : ScopeAnswer} (hs : r.perform s = .ok answer s') : s.Change (.ok answer) s' := by
  cases r with
  | openRoot role =>
    cases hs
    exact .opened (s.forest.extends_append role _) (by simp) List.nodup_nil
  | openChild parent role =>
    cases hs
    exact .opened (s.forest.extends_append role _) (fun k hk => h.lt hk) (h.nodup parent)
  | define id name b =>
    have hid : id < s.forest.scopes.length := by simpa [knows, ScopeRequest.scope?] using hr
    obtain ⟨_, hdefine, rfl⟩ := exists_of_bind_pure hs
    obtain ⟨scope, hscope, rfl⟩ := exists_of_define hdefine
    obtain ⟨hup, hnew, hvoid⟩ := Forest.updates_of_define hid hscope
    exact .defined hup hnew hvoid
  | assign id name v useSlots =>
    obtain ⟨outcome, hassign, rfl⟩ := exists_of_bind_pure hs
    obtain ⟨home, b, b', fresh, -, hold, hb, hup, hslots⟩ := exists_of_assign h hassign
    exact .assigned hup hold (Binding.assign_keeps hb).1 (Binding.assign_keeps hb).2 hslots
  | lookup id name =>
    obtain ⟨b, hlookup, rfl⟩ := exists_of_bind_pure hs
    rw [lookup_apply] at hlookup
    split at hlookup <;> cases hlookup
    exact .keep rfl
  | alloc =>
    obtain ⟨slot, halloc, rfl⟩ := exists_of_bind_pure hs
    obtain ⟨slots, hslots, rfl⟩ := exists_of_within halloc
    rw [Slots.alloc_apply] at hslots
    split at hslots <;> cases hslots
    next hfresh => exact .allocated hfresh

lemma perform_of_serve {r : ScopeRequest} {answer : ScopeAnswer}
    (h : s.serve r = (.ok answer, s')) : r.perform s = .ok answer s' := by
  unfold serve at h
  split at h <;> cases h
  assumption

lemma perform_of_serve_error {r : ScopeRequest} {p : Problem} (h : s.serve r = (.error p, s')) :
    r.perform s = .error p s' := by
  unfold serve at h
  split at h <;> cases h
  assumption

/-- Every request to a store whose scopes are nested makes such a change. -/
lemma change_serve (h : s.forest.Nested) {r : ScopeRequest} (hr : s.knows r = true) :
    s.Change (s.serve r).1 (s.serve r).2 := by
  unfold serve
  cases hs : r.perform s with
  | ok answer s' => exact change_of_perform h hr hs
  | error p s' =>
    rw [r.atomic_perform _ _ _ hs]
    exact .keep rfl

/-! ## What a change keeps -/

/-- Scopes are nested, and no binding has a void type. -/
structure Sound (s : Store) : Prop where
  nested : s.forest.Nested
  void : ∀ {id : Nat} {x : String} {b : Binding},
    (s.forest.scope id).find? x = some b → b.type.isVoid = false

lemma Sound.start : Sound {} where
  nested := Forest.nested_nil
  void h := by cases h

lemma Change.sound (h : s.Change reply s') (hs : s.Sound) : s'.Sound := by
  cases h with
  | keep _ => exact hs
  | opened hext hlt hnodup =>
    exact ⟨hs.nested.extends hext hlt hnodup, fun hb => hs.void ((hext.find? ..).symm.trans hb)⟩
  | defined hup _ hvoid =>
    refine ⟨hs.nested.updates hup, fun hb => ?_⟩
    rw [hup.find?] at hb
    split at hb
    · cases hb
      exact hvoid
    · exact hs.void hb
  | assigned hup hold _ hvoid _ =>
    refine ⟨hs.nested.updates hup, fun hb => ?_⟩
    rw [hup.find?] at hb
    split at hb
    · cases hb
      exact hvoid (hs.void hold)
    · exact hs.void hb
  | allocated _ => exact ⟨hs.nested, hs.void⟩

/-- A fixed binding stays. -/
lemma Change.keeps (h : s.Change reply s') {id : Nat} {x : String} {b : Binding}
    (hb : (s.forest.scope id).find? x = some b) (hfixed : b.IsFixed) :
    (s'.forest.scope id).find? x = some b := by
  cases h with
  | keep _ => exact hb
  | opened hext _ _ => rwa [hext.find?]
  | defined hup hnew _ =>
    rw [hup.find?, if_neg, hb]
    rintro ⟨rfl, rfl⟩
    rw [hnew] at hb
    cases hb
  | assigned hup hold hkeep _ _ =>
    rw [hup.find?]
    split
    · next heq =>
      obtain ⟨rfl, rfl⟩ := heq
      rw [hold] at hb
      cases hb
      rw [hkeep hfixed]
    · exact hb
  | allocated _ => exact hb

/-- A slot that is handed out is the next one. -/
lemma Change.slots (h : s.Change reply s') :
    (handedOut? reply = none ∧ s'.slots = s.slots) ∨
      ∃ slot, handedOut? reply = some slot ∧ slot.toNat = s.slots.next ∧
        s'.slots = s.slots.advance := by
  cases h with
  | keep hnone => exact .inl ⟨hnone, rfl⟩
  | opened _ _ _ => exact .inl ⟨rfl, rfl⟩
  | defined _ _ _ => exact .inl ⟨rfl, rfl⟩
  | assigned _ _ _ _ hslots =>
    rcases hslots with ⟨hnone, hsame⟩ | ⟨slot, rfl, hfresh, hnext⟩
    · exact .inl ⟨hnone, hsame⟩
    · exact .inr ⟨slot, rfl, Slots.toNat_of_fresh hfresh, hnext⟩
  | allocated hfresh => exact .inr ⟨_, rfl, Slots.toNat_of_fresh hfresh, rfl⟩

/-! ## Runs -/

/-- Several changes, with their replies. -/
inductive Changes : Store → List (Except Problem ScopeAnswer) → Store → Prop
  | refl (s : Store) : Changes s [] s
  | step {s s₁ s' : Store} {reply : Except Problem ScopeAnswer}
      {replies : List (Except Problem ScopeAnswer)} (h : s.Change reply s₁)
      (hrest : Changes s₁ replies s') : Changes s (reply :: replies) s'

variable {replies : List (Except Problem ScopeAnswer)}

lemma changes_of_run {requests : List ScopeRequest} (hs : s.Sound)
    (h : s.run requests = some (replies, s')) : Changes s replies s' := by
  induction requests generalizing s replies with
  | nil =>
    cases h
    exact .refl _
  | cons r rs ih =>
    rw [run] at h
    split at h
    · next hknows =>
      obtain ⟨⟨replies', s₁⟩, hrest, heq⟩ := Option.map_eq_some_iff.1 h
      cases heq
      have hchange := change_serve hs.nested hknows
      exact .step hchange (ih (hchange.sound hs) hrest)
    · cases h

lemma Changes.sound (h : Changes s replies s') (hs : s.Sound) : s'.Sound := by
  induction h with
  | refl s => exact hs
  | step hchange _ ih => exact ih (hchange.sound hs)

lemma Changes.keeps (h : Changes s replies s') {id : Nat} {x : String} {b : Binding}
    (hb : (s.forest.scope id).find? x = some b) (hfixed : b.IsFixed) :
    (s'.forest.scope id).find? x = some b := by
  induction h with
  | refl s => exact hb
  | step hchange _ ih => exact ih (hchange.keeps hb hfixed)

/-- The slots handed out along a run, in order. -/
def handedOut (replies : List (Except Problem ScopeAnswer)) : List UInt8 :=
  replies.filterMap handedOut?

/-- Slots are handed out in increasing order, from the next one on. -/
lemma Changes.slots_pairwise (h : Changes s replies s') :
    (∀ slot ∈ handedOut replies, s.slots.next ≤ slot.toNat) ∧
      (handedOut replies).Pairwise (·.toNat < ·.toNat) := by
  induction h with
  | refl s => exact ⟨by simp [handedOut], .nil⟩
  | @step s s₁ s' reply replies hchange _ ih =>
    obtain ⟨hle, hpairwise⟩ := ih
    unfold handedOut at hle hpairwise ⊢
    rcases hchange.slots with ⟨hnone, hsame⟩ | ⟨slot, hsome, hslot, hnext⟩
    · rw [List.filterMap_cons_none hnone]
      exact ⟨hsame ▸ hle, hpairwise⟩
    · rw [List.filterMap_cons_some hsome]
      have hlt : ∀ later ∈ replies.filterMap handedOut?, slot.toNat < later.toNat := by
        intro later hlater
        have hge : s.slots.next + 1 ≤ later.toNat := by
          have := hle later hlater
          rwa [hnext] at this
        omega
      refine ⟨?_, List.pairwise_cons.2 ⟨hlt, hpairwise⟩⟩
      intro later hlater
      rcases List.mem_cons.1 hlater with rfl | hlater
      · exact Nat.le_of_eq hslot.symm
      · exact hslot ▸ Nat.le_of_lt (hlt later hlater)

/-! ## The laws of the store -/

/-- After every run: no binding has a void type, and one that is final or stored stays for good.  A
definition changes the look-ups of its name that get as far as its scope, and an assignment those
that get as far as the innermost binding of its name; all others are as before.  Opening a scope
changes no look-up from another, and a request that fails changes nothing.  No slot is handed out
twice. -/
theorem consistent_of_run {requests : List ScopeRequest}
    {replies : List (Except Problem ScopeAnswer)} {s : Store}
    (h : run {} requests = some (replies, s)) :
    (∀ id x b, (s.forest.scope id).find? x = some b → b.type.isVoid = false) ∧
    (∀ further replies' s', s.run further = some (replies', s') →
      ∀ id x b, (s.forest.scope id).find? x = some b → b.isFinal = true ∨ b.slot?.isSome →
        (s'.forest.scope id).find? x = some b) ∧
    (∀ id name b s', id < s.forest.scopes.length →
      s.serve (.define id name b) = (.ok .defined, s') →
      s'.slots = s.slots ∧ s.forest.Reaches id id name.name ∧
      (∀ j, s.forest.Reaches j id name.name → s'.forest.lookup j name = .ok b) ∧
      ∀ j y, ¬ (y.name = name.name ∧ s.forest.Reaches j id name.name) →
        s'.forest.lookup j y = s.forest.lookup j y) ∧
    (∀ id name v useSlots outcome s',
      s.serve (.assign id name v useSlots) = (.ok (.assigned outcome), s') →
      ∃ home b', s.forest.Reaches id home name.name ∧
        ((s.forest.scope home).find? name.name).isSome ∧
        (∀ slot, outcome = .widened slot → b'.slot? = some slot) ∧
        (∀ k y, (s'.forest.scope k).find? y =
          if k = home ∧ y = name.name then some b' else (s.forest.scope k).find? y) ∧
        (∀ j, s.forest.Reaches j home name.name → s'.forest.lookup j name = .ok b') ∧
        ∀ j y, ¬ (y.name = name.name ∧ s.forest.Reaches j home name.name) →
          s'.forest.lookup j y = s.forest.lookup j y) ∧
    (∀ r id s', s.knows r = true → s.serve r = (.ok (.opened id), s') →
      s'.slots = s.slots ∧ ∀ j y, j ≠ id → s'.forest.lookup j y = s.forest.lookup j y) ∧
    (∀ r p s', s.serve r = (.error p, s') → s' = s) ∧
    (handedOut replies).Nodup := by
  have hchanges := changes_of_run Sound.start h
  have hsound := hchanges.sound Sound.start
  refine ⟨fun id x b => hsound.void, ?_, ?_, ?_, ?_, ?_, ?_⟩
  · intro further replies' s' hrun id x b hb hfixed
    exact (changes_of_run hsound hrun).keeps hb hfixed
  · intro id name b s' hid hs
    obtain ⟨_, hdefine, -⟩ := exists_of_bind_pure (perform_of_serve hs)
    obtain ⟨scope, hscope, rfl⟩ := exists_of_define hdefine
    obtain ⟨hup, -⟩ := Forest.updates_of_define hid hscope
    exact ⟨rfl, hsound.nested.reaches_self hid _, fun j => hup.lookup_of_reaches,
      fun j y => hup.lookup_of_not_reaches⟩
  · intro id name v useSlots outcome s' hs
    obtain ⟨_, hassign, heq⟩ := exists_of_bind_pure (perform_of_serve hs)
    cases heq
    obtain ⟨home, b, b', fresh, hreach, hold, hb, hup, -⟩ := exists_of_assign hsound.nested hassign
    refine ⟨home, b', hreach, Option.isSome_iff_exists.2 ⟨b, hold⟩, ?_, hup.find?,
      fun j => hup.lookup_of_reaches, fun j y => hup.lookup_of_not_reaches⟩
    rintro slot rfl
    exact Binding.slot?_of_widened hb
  · intro r id s' hknows hs
    have hchange := change_serve hsound.nested hknows
    rw [hs] at hchange
    cases hchange with
    | keep _ => exact ⟨rfl, fun j y _ => rfl⟩
    | opened hext _ _ => exact ⟨rfl, fun j y hj => hext.lookup hj y⟩
  · intro r p s' hs
    exact r.atomic_perform _ _ _ (perform_of_serve_error hs)
  · refine hchanges.slots_pairwise.2.imp fun hlt heq => ?_
    rw [heq] at hlt
    exact Nat.lt_irrefl _ hlt

/-- Two scopes share a third.  One of them hides a name that it binds for good; through the other
the shared binding of that name is moved to a slot.  Assigning without slots fails, and so do
assigning to the final name and defining the shared one again. -/
def sharing : List ScopeRequest :=
  [.openRoot none, .openChild 0 none, .openChild 0 (some .loop), .alloc,
   .define 0 ⟨"x", .nowhere⟩ (.constant (.bool true) false),
   .define 1 ⟨"x", .nowhere⟩ (.constant (.str "inner") true),
   .assign 2 ⟨"x", .nowhere⟩ (.runtime (.of .bool)) false,
   .assign 2 ⟨"x", .nowhere⟩ (.runtime (.of .bool)) true,
   .assign 1 ⟨"x", .nowhere⟩ (.known (.str "other")) true,
   .define 0 ⟨"x", .nowhere⟩ (.constant .none true), .alloc]

theorem consistent_of_run_sharing :
    ∃ replies s, run {} sharing = some (replies, s) ∧ handedOut replies = [0, 1, 2] ∧
      (handedOut replies).Nodup ∧
      ∀ further replies' s', s.run further = some (replies', s') →
        (s'.forest.scope 0).find? "x" = some (.stored (.of .bool) 1 false) ∧
        (s'.forest.scope 1).find? "x" = some (.constant (.str "inner") true) := by
  have hrun : (run {} sharing).map (fun (replies, s) =>
      (handedOut replies, (s.forest.scope 0).find? "x", (s.forest.scope 1).find? "x")) =
      some ([0, 1, 2], some (.stored (.of .bool) 1 false),
        some (.constant (.str "inner") true)) := by
    decide +kernel
  obtain ⟨⟨replies, s⟩, hs, heq⟩ := Option.map_eq_some_iff.1 hrun
  obtain ⟨hslots, houter, hinner⟩ : handedOut replies = [0, 1, 2] ∧
      (s.forest.scope 0).find? "x" = some (.stored (.of .bool) 1 false) ∧
      (s.forest.scope 1).find? "x" = some (.constant (.str "inner") true) := by
    simpa using heq
  obtain ⟨-, hkeeps, -, -, -, -, hnodup⟩ := consistent_of_run hs
  refine ⟨replies, s, hs, hslots, hnodup, fun further replies' s' hfurther => ⟨?_, ?_⟩⟩
  · exact hkeeps further replies' s' hfurther 0 "x" _ houter (.inr rfl)
  · exact hkeeps further replies' s' hfurther 1 "x" _ hinner (.inl rfl)

end Store

end Arbor
