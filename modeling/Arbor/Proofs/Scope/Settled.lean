import Arbor.Scope.Basic
import Mathlib.Data.List.Nodup
import Mathlib.Tactic.Lemma

/-!
# Settled scopes

The scopes that emission works in are settled: a name is bound once in its scope, no two bindings
share a slot, every slot has been handed out, and what is known at compile time is final.  In such
scopes an assignment that stores a value changes no binding at all.

* `Scopes.Settled`: the invariant, for slots below a bound.
* `Scopes.Settled.bind_constant`, `Scopes.Settled.bind_stored`: definitions keep it.
* `Scopes.Settled.replace_eq_self`: putting back the binding of a name changes nothing.
* `Scopes.SlotsAll`: what holds of all slots in scope.
-/

namespace Arbor

/-- The slots that the bindings of a scope refer to. -/
def Scope.slots (s : Scope) : List UInt8 := s.bindings.filterMap (·.2.slot?)

/-- The scope with one more binding in front. -/
def Scope.bind (s : Scope) (name : String) (b : Binding) : Scope :=
  { s with bindings := (name, b) :: s.bindings }

namespace Scope

@[simp] lemma bindings_bind (s : Scope) (name : String) (b : Binding) :
    (s.bind name b).bindings = (name, b) :: s.bindings := rfl

@[simp] lemma role_bind (s : Scope) (name : String) (b : Binding) :
    (s.bind name b).role = s.role := rfl

lemma define_eq_ok_iff {s s' : Scope} {name : Ident} {b : Binding} :
    s.define name b = .ok s' ↔
      b.type.isVoid = false ∧ s.find? name.name = none ∧ s' = s.bind name.name b := by
  rw [define_eq]
  split
  · next hvoid => simp [hvoid]
  · next hvoid =>
    split
    · next hsome =>
      have hne : s.find? name.name ≠ none := Option.isSome_iff_ne_none.1 hsome
      simp [hne]
    · next hnone =>
      have hnone' : s.find? name.name = none := by simpa using hnone
      simp only [hvoid, hnone', true_and, Except.ok.injEq]
      exact ⟨Eq.symm, Eq.symm⟩

@[simp] lemma find?_bind (s : Scope) (name x : String) (b : Binding) :
    (s.bind name b).find? x = if x = name then some b else s.find? x := by
  unfold find? bind
  by_cases hx : x = name
  · simp [hx]
  · have hne : (x == name) = false := beq_eq_false_iff_ne.2 hx
    simp [List.lookup_cons, hx, hne]

lemma mem_bindings_of_find? {s : Scope} {name : String} {b : Binding}
    (h : s.find? name = some b) : (name, b) ∈ s.bindings := by
  obtain ⟨before, after, hsplit, -⟩ := List.lookup_eq_some_iff.1 h
  rw [hsplit]
  simp

lemma notMem_of_find?_eq_none {s : Scope} {name : String} (h : s.find? name = none) :
    name ∉ s.bindings.map Prod.fst := by
  rintro hmem
  obtain ⟨⟨n, b⟩, hb, rfl⟩ := List.mem_map.1 hmem
  have := List.lookup_eq_none_iff.1 h (n, b) hb
  simp at this

/-- Where names are bound once, every binding is found under its name. -/
lemma find?_eq_some_of_mem {s : Scope} (hnames : (s.bindings.map Prod.fst).Nodup) {name : String}
    {b : Binding} (h : (name, b) ∈ s.bindings) : s.find? name = some b := by
  obtain ⟨before, after, hsplit⟩ := List.append_of_mem h
  refine List.lookup_eq_some_iff.2 ⟨before, after, hsplit, ?_⟩
  rintro ⟨n, c⟩ hmem
  rw [hsplit, List.map_append, List.map_cons] at hnames
  have hne := (List.nodup_append.1 hnames).2.2 n (List.mem_map_of_mem hmem) name (by simp)
  simpa using hne.symm

lemma mem_slots_of_find? {s : Scope} {name : String} {b : Binding} {slot : UInt8}
    (h : s.find? name = some b) (hb : b.slot? = some slot) : slot ∈ s.slots :=
  List.mem_filterMap.2 ⟨(name, b), mem_bindings_of_find? h, hb⟩

/-- Replacing the binding of a name by itself changes nothing. -/
lemma replace_eq_self {s : Scope} (hnames : (s.bindings.map Prod.fst).Nodup) {name : String}
    {b : Binding} (h : s.find? name = some b) : s.replace name b = s := by
  have hid : ∀ e ∈ s.bindings, (if e.1 = name then (e.1, b) else (e.1, e.2)) = e := by
    rintro ⟨n, old⟩ hmem
    split
    · next hn =>
      have hold := find?_eq_some_of_mem hnames hmem
      rw [show n = name from hn, h] at hold
      cases hold
      rfl
    · rfl
  unfold replace
  rw [List.map_congr_left hid, List.map_id']

lemma find?_replace (s : Scope) (x y : String) (b : Binding) :
    (s.replace x b).find? y = if y = x then (s.find? y).map fun _ => b else s.find? y := by
  unfold find? replace
  induction s.bindings with
  | nil => simp
  | cons entry rest ih =>
    obtain ⟨name, old⟩ := entry
    by_cases hname : y = name
    · subst hname
      by_cases hx : y = x <;> simp [hx]
    · have hne : (y == name) = false := beq_eq_false_iff_ne.2 hname
      by_cases hx : name = x
      · subst hx
        simpa [List.lookup_cons, hne] using ih
      · simpa [List.lookup_cons, hx, hne] using ih

end Scope

/-- What a successful assignment does to a binding. -/
lemma Binding.assign_eq_ok {b b' : Binding} {name : Ident} {v : Value}
    {fresh : Except Problem UInt8} {outcome : Assignment}
    (h : b.assign name v fresh = .ok (outcome, b')) :
    b.isFinal = false ∧ b.type.compatible v.type = true ∧
      ((∃ t slot f, b = .stored t slot f ∧ outcome = .store slot ∧ b' = b) ∨
        (∃ d d' f, b = .constant d' f ∧ v = .known d ∧ outcome = .replaced ∧
          b' = .constant d false) ∨
        ∃ t d' f slot, b = .constant d' f ∧ v = .runtime t ∧ fresh = .ok slot ∧
          outcome = .widened slot ∧ b' = .stored t slot false) := by
  unfold assign at h
  split at h
  · cases h
  · next hfinal =>
    split at h
    · cases h
    · next hfits =>
      refine ⟨by simpa using hfinal, by simpa using hfits, ?_⟩
      cases b with
      | stored t slot f =>
        cases h
        exact .inl ⟨t, slot, f, rfl, rfl, rfl⟩
      | constant d' f =>
        cases v with
        | known d =>
          cases h
          exact .inr (.inl ⟨d, d', f, rfl, rfl, rfl, rfl⟩)
        | runtime t =>
          cases hfresh : fresh with
          | error p => simp [hfresh, bind, Except.bind] at h
          | ok slot =>
            simp only [hfresh, bind, Except.bind, pure, Except.pure, Except.ok.injEq,
              Prod.mk.injEq] at h
            obtain ⟨rfl, rfl⟩ := h
            exact .inr (.inr ⟨t, d', f, slot, rfl, rfl, rfl, rfl, rfl⟩)

lemma Slots.alloc_apply (s : Slots) :
    alloc s = match s.fresh with
      | .ok slot => .ok slot s.advance
      | .error p => .error p s := by
  have hstep : alloc s =
      (liftM s.fresh >>= fun slot => modify advance >>= fun _ => pure slot : Step Slots UInt8) s :=
    rfl
  rw [hstep]
  cases s.fresh <;> rfl

lemma Slots.toNat_of_fresh {s : Slots} {slot : UInt8} (h : s.fresh = .ok slot) :
    slot.toNat = s.next := by
  unfold fresh at h
  split at h
  · next hlt =>
    cases h
    simpa using hlt
  · cases h

namespace Scopes

/-- The slots that the bindings of nested scopes refer to. -/
def slots (ss : Scopes) : List UInt8 := ss.flatMap Scope.slots

@[simp] lemma slots_cons (s : Scope) (ss : Scopes) : slots (s :: ss) = s.slots ++ slots ss := rfl

/-- Names are bound once in their scope, slots belong to one binding and are below a bound, and
data known at compile time are final. -/
structure Settled (next : Nat) (ss : Scopes) : Prop where
  names : ∀ {s : Scope}, s ∈ ss → (s.bindings.map Prod.fst).Nodup
  slots : (Scopes.slots ss).Nodup
  lt : ∀ slot ∈ Scopes.slots ss, slot.toNat < next
  final : ∀ {s : Scope}, s ∈ ss → ∀ {name : String} {d : Datum} {f : Bool},
    (name, .constant d f) ∈ s.bindings → f = true

variable {ss : Scopes} {s : Scope} {next : Nat}

/-- Defining a name binds it in the innermost scope; where there is none, one is opened. -/
lemma define_eq_map (ss : Scopes) (name : Ident) (b : Binding) :
    define ss name b = ((ss.headD {}).define name b).map (· :: ss.tail) := by
  cases ss with
  | nil =>
    cases hs : Scope.define {} name b <;>
      simp [define, hs, bind, Except.bind, Except.map, pure, Except.pure]
  | cons s outer =>
    cases hs : s.define name b <;>
      simp [define, hs, bind, Except.bind, Except.map, pure, Except.pure]

lemma define_eq_ok {name : Ident} {b : Binding} {ss' : Scopes} (h : define ss name b = .ok ss') :
    ∃ s', (ss.headD {}).define name b = .ok s' ∧ ss' = s' :: ss.tail := by
  rw [define_eq_map] at h
  cases hs : (ss.headD {}).define name b with
  | error p =>
    rw [hs] at h
    cases h
  | ok s' =>
    rw [hs] at h
    cases h
    exact ⟨s', rfl, rfl⟩

lemma assign_eq_ok {ss' : Scopes} {name : Ident} {v : Value} {fresh : Except Problem UInt8}
    {outcome : Assignment}
    (h : assign ss name v fresh = .ok (outcome, ss')) :
    ∃ b b', find? ss name.name = some b ∧ b.assign name v fresh = .ok (outcome, b') ∧
      ss' = replace name.name b' ss := by
  unfold assign at h
  cases hb : lookup ss name with
  | error p => simp [hb, bind, Except.bind] at h
  | ok b =>
    cases hb' : b.assign name v fresh with
    | error p => simp [hb, hb', bind, Except.bind] at h
    | ok r =>
      obtain ⟨outcome', b'⟩ := r
      simp only [hb, hb', bind, Except.bind, pure, Except.pure, Except.ok.injEq,
        Prod.mk.injEq] at h
      obtain ⟨rfl, rfl⟩ := h
      exact ⟨b, b', lookup_eq_ok_iff.1 hb, hb', rfl⟩

lemma exists_mem_of_find? {name : String} {b : Binding} (h : find? ss name = some b) :
    ∃ s ∈ ss, s.find? name = some b :=
  List.exists_of_findSome?_eq_some h

lemma mem_slots_of_find? {name : String} {b : Binding} {slot : UInt8}
    (h : find? ss name = some b) (hb : b.slot? = some slot) : slot ∈ slots ss := by
  obtain ⟨s, hs, hfind⟩ := exists_mem_of_find? h
  exact List.mem_flatMap.2 ⟨s, hs, Scope.mem_slots_of_find? hfind hb⟩

/-- All slots that the bindings of nested scopes refer to have a property. -/
def SlotsAll (P : UInt8 → Prop) (ss : Scopes) : Prop := ∀ slot ∈ slots ss, P slot

namespace SlotsAll

variable {P P' : UInt8 → Prop}

lemma mono (h : SlotsAll P ss) (hP : ∀ slot, P slot → P' slot) : SlotsAll P' ss :=
  fun slot hslot => hP slot (h slot hslot)

lemma of_eq {ss' : Scopes} (h : SlotsAll P ss) (heq : ss' = ss) : SlotsAll P ss' := heq ▸ h

lemma nil : SlotsAll P [] := fun _ hslot => absurd hslot List.not_mem_nil

lemma open_empty (h : SlotsAll P ss) (hs : s.bindings = []) : SlotsAll P (s :: ss) := by
  intro slot hslot
  exact h slot (by simpa [Scope.slots, hs] using hslot)

lemma bind_constant (h : SlotsAll P (s :: ss)) (name : String) (d : Datum) (f : Bool) :
    SlotsAll P (s.bind name (.constant d f) :: ss) := by
  intro slot hslot
  exact h slot (by simpa [Scope.slots, Binding.slot?] using hslot)

lemma bind_stored (h : SlotsAll P (s :: ss)) {slot : UInt8} (hslot : P slot) (name : String)
    (t : ValueType) (f : Bool) : SlotsAll P (s.bind name (.stored t slot f) :: ss) := by
  intro x hx
  have hcases : x = slot ∨ x ∈ Scopes.slots (s :: ss) := by
    simpa [Scope.slots, Binding.slot?] using hx
  rcases hcases with rfl | hx
  · exact hslot
  · exact h x hx

lemma of_find? (h : SlotsAll P ss) {name : String} {t : ValueType} {slot : UInt8} {f : Bool}
    (hfind : find? ss name = some (.stored t slot f)) : P slot :=
  h slot (mem_slots_of_find? hfind rfl)

end SlotsAll

namespace Settled

lemma mono {next' : Nat} (h : Settled next ss) (hle : next ≤ next') : Settled next' ss where
  names := h.names
  slots := h.slots
  lt slot hmem := Nat.lt_of_lt_of_le (h.lt slot hmem) hle
  final := h.final

lemma nil : Settled next [] where
  names hs := absurd hs List.not_mem_nil
  slots := List.nodup_nil
  lt _ hmem := absurd hmem List.not_mem_nil
  final hs := absurd hs List.not_mem_nil

lemma tail (h : Settled next (s :: ss)) : Settled next ss where
  names hs := h.names (List.mem_cons_of_mem _ hs)
  slots := (List.nodup_append.1 h.slots).2.1
  lt slot hmem := h.lt slot (List.mem_append_right _ hmem)
  final hs := h.final (List.mem_cons_of_mem _ hs)

/-- A scope without bindings may be opened. -/
lemma open_empty (h : Settled next ss) (hs : s.bindings = []) : Settled next (s :: ss) where
  names := by
    intro t ht
    rcases List.mem_cons.1 ht with rfl | ht
    · simp [hs]
    · exact h.names ht
  slots := by simpa [Scope.slots, hs] using h.slots
  lt := by simpa [Scope.slots, hs] using h.lt
  final := by
    intro t ht name d f hmem
    rcases List.mem_cons.1 ht with rfl | ht
    · simp [hs] at hmem
    · exact h.final ht hmem

lemma names_bind (h : Settled next (s :: ss)) {name : String} (hnew : s.find? name = none)
    (b : Binding) {t : Scope} (ht : t ∈ s.bind name b :: ss) :
    (t.bindings.map Prod.fst).Nodup := by
  rcases List.mem_cons.1 ht with rfl | ht
  · exact List.nodup_cons.2 ⟨Scope.notMem_of_find?_eq_none hnew, h.names (List.mem_cons_self ..)⟩
  · exact h.names (List.mem_cons_of_mem _ ht)

/-- A name may be bound to a datum, once for all. -/
lemma bind_constant (h : Settled next (s :: ss)) {name : String} (hnew : s.find? name = none)
    (d : Datum) : Settled next (s.bind name (.constant d true) :: ss) where
  names ht := h.names_bind hnew _ ht
  slots := by simpa [Scope.slots, Binding.slot?] using h.slots
  lt := by simpa [Scope.slots, Binding.slot?] using h.lt
  final := by
    intro t ht name' d' f hmem
    rcases List.mem_cons.1 ht with rfl | ht
    · rcases List.mem_cons.1 hmem with heq | hmem
      · cases heq
        rfl
      · exact h.final (List.mem_cons_self ..) hmem
    · exact h.final (List.mem_cons_of_mem _ ht) hmem

/-- A name may be bound to the slot that is handed out next. -/
lemma bind_stored (h : Settled next (s :: ss)) {name : String} (hnew : s.find? name = none)
    {slot : UInt8} (hslot : slot.toNat = next) (t : ValueType) (f : Bool) :
    Settled (next + 1) (s.bind name (.stored t slot f) :: ss) := by
  have hslots : Scopes.slots (s.bind name (.stored t slot f) :: ss)
      = slot :: Scopes.slots (s :: ss) := by
    simp [Scope.slots, Binding.slot?]
  refine ⟨fun ht => h.names_bind hnew _ ht, ?_, ?_, ?_⟩
  · rw [hslots]
    refine List.nodup_cons.2 ⟨fun hmem => ?_, h.slots⟩
    have := h.lt slot hmem
    omega
  · intro x hx
    rw [hslots] at hx
    rcases List.mem_cons.1 hx with rfl | hx
    · omega
    · have := h.lt x hx
      omega
  · intro t' ht name' d' f' hmem
    rcases List.mem_cons.1 ht with rfl | ht
    · rcases List.mem_cons.1 hmem with heq | hmem
      · cases heq
      · exact h.final (List.mem_cons_self ..) hmem
    · exact h.final (List.mem_cons_of_mem _ ht) hmem

/-- Data known at compile time are final. -/
lemma isFinal_of_find? (h : Settled next ss) {name : String} {d : Datum} {f : Bool}
    (hfind : find? ss name = some (.constant d f)) : f = true := by
  obtain ⟨s, hs, hb⟩ := exists_mem_of_find? hfind
  exact h.final hs (Scope.mem_bindings_of_find? hb)

/-- Replacing the innermost binding of a name by itself changes nothing. -/
lemma replace_eq_self (h : Settled next ss) {name : String} {b : Binding}
    (hfind : find? ss name = some b) : replace name b ss = ss := by
  induction ss with
  | nil => rfl
  | cons s ss ih =>
    rw [find?_cons] at hfind
    unfold replace
    cases hs : s.find? name with
    | none =>
      rw [hs, Option.none_or] at hfind
      simp [ih h.tail hfind]
    | some c =>
      rw [hs, Option.some_or] at hfind
      cases hfind
      simp [Scope.replace_eq_self (h.names (List.mem_cons_self ..)) hs]

end Settled

end Scopes

end Arbor
