import Arbor.Proofs.Evaluation.Outcome
import Arbor.Proofs.Scope.Settled
import Mathlib.Data.List.Forall2
import Mathlib.Logic.Function.Basic

/-!
# Scopes while a program runs

What emission binds to a slot is bound to a datum once the program runs, namely to what the slot
holds then.  `Scopes.Shows memory ss es` says that the scopes `es`, in which all names stand for
data, are what the scopes `ss` of emission look like for a given memory.

* `Scopes.Shows.refines`: what is known at compile time is known then, too.
* `Scopes.Shows.bind_constant`, `Scopes.Shows.bind_stored`: definitions on both sides.
* `Scopes.Shows.assign`: storing into the slot of a name is assigning to the name.
* `Keeps`: slots that were handed out before are not written.
-/

namespace Arbor

/-- What a binding comes to for a given memory. -/
def Binding.instantiate (memory : UInt8 → Datum) : Binding → Binding
  | .constant d f => .constant d f
  | .stored _ slot f => .constant (memory slot) f

/-- A scope whose slots are read from a given memory. -/
def Scope.instantiate (memory : UInt8 → Datum) (s : Scope) : Scope :=
  { s with bindings := s.bindings.map fun e => (e.1, e.2.instantiate memory) }

/-- Scopes whose slots are read from a given memory. -/
def Scopes.instantiate (memory : UInt8 → Datum) (ss : Scopes) : Scopes :=
  ss.map (Scope.instantiate memory)

variable {memory memory' : UInt8 → Datum} {slot : UInt8} {d : Datum}

lemma Binding.instantiate_congr {b : Binding}
    (h : ∀ slot, b.slot? = some slot → memory' slot = memory slot) :
    b.instantiate memory' = b.instantiate memory := by
  cases b with
  | constant _ _ => rfl
  | stored t slot f => simp [instantiate, h slot rfl]

namespace Scope

variable {s : Scope}

lemma find?_instantiate (s : Scope) (x : String) :
    (s.instantiate memory).find? x = (s.find? x).map (Binding.instantiate memory) := by
  unfold find? instantiate
  induction s.bindings with
  | nil => rfl
  | cons e rest ih =>
    obtain ⟨name, b⟩ := e
    by_cases hx : x = name
    · simp [hx]
    · have hne : (x == name) = false := beq_eq_false_iff_ne.2 hx
      simpa [List.lookup_cons, hne] using ih

/-- Only the slots of a scope matter to it. -/
lemma instantiate_congr (h : ∀ slot ∈ s.slots, memory' slot = memory slot) :
    s.instantiate memory' = s.instantiate memory := by
  unfold instantiate
  congr 1
  refine List.map_congr_left fun e he => ?_
  rw [Binding.instantiate_congr fun slot hslot => h slot (List.mem_filterMap.2 ⟨e, he, hslot⟩)]

/-- A slot belongs to one name. -/
lemma eq_of_slot? (hslots : s.slots.Nodup) {e e' : String × Binding} (he : e ∈ s.bindings)
    (he' : e' ∈ s.bindings) (hs : e.2.slot? = some slot) (hs' : e'.2.slot? = some slot) :
    e = e' := by
  unfold slots at hslots
  generalize s.bindings = bindings at hslots he he'
  induction bindings with
  | nil => cases he
  | cons first rest ih =>
    have hmem : ∀ e ∈ rest, e.2.slot? = some slot → slot ∈ rest.filterMap (·.2.slot?) :=
      fun e he hs => List.mem_filterMap.2 ⟨e, he, hs⟩
    rcases List.mem_cons.1 he with rfl | hrest <;> rcases List.mem_cons.1 he' with rfl | hrest'
    · rfl
    · simp only [List.filterMap_cons, hs] at hslots
      exact absurd (hmem _ hrest' hs') (List.nodup_cons.1 hslots).1
    · simp only [List.filterMap_cons, hs'] at hslots
      exact absurd (hmem _ hrest hs) (List.nodup_cons.1 hslots).1
    · exact ih (hslots.sublist ((List.sublist_cons_self _ _).filterMap _)) hrest hrest'

/-- Storing into the slot of a name replaces what the name is bound to, and nothing else. -/
lemma instantiate_update (hnames : (s.bindings.map Prod.fst).Nodup) (hslots : s.slots.Nodup)
    {x : String} {t : ValueType} {f : Bool} (hfind : s.find? x = some (.stored t slot f)) :
    s.instantiate (Function.update memory slot d) =
      (s.instantiate memory).replace x (.constant d f) := by
  unfold instantiate replace
  simp only [List.map_map, Scope.mk.injEq, and_true]
  refine List.map_congr_left ?_
  rintro ⟨name, b⟩ hb
  by_cases hname : name = x
  · subst hname
    cases (find?_eq_some_of_mem hnames hb).symm.trans hfind
    simp [Binding.instantiate]
  · have hother : b.instantiate (Function.update memory slot d) = b.instantiate memory := by
      refine Binding.instantiate_congr fun slot' hslot' => Function.update_of_ne ?_ _ _
      rintro rfl
      exact hname (congrArg Prod.fst
        (eq_of_slot? hslots hb (mem_bindings_of_find? hfind) hslot' rfl))
    simp [hname, hother]

end Scope

/-! ## Memory -/

/-- Slots below a bound hold what they held. -/
def Keeps (n : Nat) (memory memory' : UInt8 → Datum) : Prop :=
  ∀ slot : UInt8, slot.toNat < n → memory' slot = memory slot

namespace Keeps

variable {n n' : Nat} {memory₁ : UInt8 → Datum}

lemma refl (n : Nat) (memory : UInt8 → Datum) : Keeps n memory memory := fun _ _ => rfl

lemma trans (h : Keeps n memory memory₁) (h' : Keeps n memory₁ memory') : Keeps n memory memory' :=
  fun slot hslot => (h' slot hslot).trans (h slot hslot)

lemma mono (h : Keeps n memory memory') (hle : n' ≤ n) : Keeps n' memory memory' :=
  fun slot hslot => h slot (Nat.lt_of_lt_of_le hslot hle)

/-- Other slots may be written. -/
lemma update (h : Keeps n memory memory') (hslot : n ≤ slot.toNat) (d : Datum) :
    Keeps n memory (Function.update memory' slot d) := by
  intro slot' hlt
  rw [Function.update_of_ne, h slot' hlt]
  rintro rfl
  omega

end Keeps

/-! ## Scopes of emission and scopes of the running program -/

namespace Scopes

variable {ss es outer : Scopes} {s e : Scope}

/-- For a given memory, emission's scopes look like these. -/
def Shows (memory : UInt8 → Datum) (ss es : Scopes) : Prop :=
  List.Forall₂ (fun s e => e.bindings = (s.instantiate memory).bindings) ss es

lemma shows_instantiate (memory : UInt8 → Datum) (ss : Scopes) :
    Shows memory ss (ss.instantiate memory) := by
  induction ss with
  | nil => exact .nil
  | cons s ss ih => exact .cons rfl ih

namespace Shows

lemma nil : Shows memory [] [] := List.Forall₂.nil

lemma of_eq {ss' : Scopes} (h : Shows memory ss es) (heq : ss' = ss) : Shows memory ss' es :=
  heq ▸ h

lemma find?_eq (h : Shows memory ss es) (x : String) :
    find? es x = (find? ss x).map (Binding.instantiate memory) := by
  induction h with
  | nil => rfl
  | @cons s e ss es hs _ ih =>
    have hhead : e.find? x = (s.find? x).map (Binding.instantiate memory) := by
      rw [← Scope.find?_instantiate]
      exact congrArg (List.lookup x) hs
    rw [find?_cons, find?_cons, hhead, ih]
    cases s.find? x <;> rfl

/-- What emission knows is known when the program runs. -/
lemma refines (h : Shows memory ss es) : Refines ss es := by
  intro name d f hfind
  exact ⟨f, by rw [h.find?_eq, hfind]; rfl⟩

/-- Only the slots in scope matter. -/
lemma congr (h : Shows memory ss es) (heq : ∀ slot ∈ slots ss, memory' slot = memory slot) :
    Shows memory' ss es := by
  induction h with
  | nil => exact .nil
  | cons hs _ ih =>
    simp only [slots_cons, List.forall_mem_append] at heq
    refine .cons ?_ (ih heq.2)
    rw [hs, Scope.instantiate_congr heq.1]

lemma of_keeps {next : Nat} (h : Shows memory ss es) (hss : Settled next ss)
    (hkeeps : Keeps next memory memory') : Shows memory' ss es :=
  h.congr fun slot hslot => hkeeps slot (hss.lt slot hslot)

lemma open_empty (h : Shows memory ss es) (hs : s.bindings = []) (he : e.bindings = []) :
    Shows memory (s :: ss) (e :: es) :=
  .cons (by simp [he, Scope.instantiate, hs]) h

lemma tail (h : Shows memory ss es) : Shows memory ss.tail es.tail := by
  cases h with
  | nil => exact .nil
  | cons _ htail => exact htail

lemma bind_constant (h : Shows memory (s :: ss) (e :: es)) (x : String) (d : Datum) (f : Bool) :
    Shows memory (s.bind x (.constant d f) :: ss) (e.bind x (.constant d f) :: es) := by
  cases h with
  | cons hs htail => exact .cons (by simp [hs, Scope.instantiate, Binding.instantiate]) htail

/-- A name bound to a slot no other name has is bound to what is stored there. -/
lemma bind_stored (h : Shows memory (s :: ss) (e :: es)) (hslot : slot ∉ slots (s :: ss))
    (x : String) (t : ValueType) (d : Datum) (f : Bool) :
    Shows (Function.update memory slot d) (s.bind x (.stored t slot f) :: ss)
      (e.bind x (.constant d f) :: es) := by
  have hsame : Shows (Function.update memory slot d) (s :: ss) (e :: es) := by
    refine h.congr fun slot' hmem => Function.update_of_ne ?_ _ _
    rintro rfl
    exact hslot hmem
  cases hsame with
  | cons hs htail => exact .cons (by simp [hs, Scope.instantiate, Binding.instantiate]) htail

/-- Storing into the slot of a name is assigning to the name. -/
lemma assign {next : Nat} (h : Shows memory ss es) (hss : Settled next ss) {x : String}
    {t : ValueType} {f : Bool} (hfind : find? ss x = some (.stored t slot f)) (d : Datum) :
    Shows (Function.update memory slot d) ss (replace x (.constant d f) es) := by
  induction h with
  | nil => cases hfind
  | @cons s e ss es hs htail ih =>
    obtain ⟨hhead, hrest, hdisjoint⟩ := List.nodup_append.1 hss.slots
    have hsome : e.find? x = (s.find? x).map (Binding.instantiate memory) := by
      rw [← Scope.find?_instantiate]
      exact congrArg (List.lookup x) hs
    rw [find?_cons] at hfind
    unfold replace
    cases hx : s.find? x with
    | none =>
      rw [hx, Option.none_or] at hfind
      rw [if_neg (by simp [hsome, hx])]
      have hsame : ∀ slot' ∈ s.slots, Function.update memory slot d slot' = memory slot' := by
        intro slot' hmem
        refine Function.update_of_ne (fun heq => ?_) _ _
        exact hdisjoint slot' hmem slot (mem_slots_of_find? hfind rfl) heq
      exact .cons (by rw [hs, Scope.instantiate_congr hsame]) (ih hss.tail hfind)
    | some b =>
      rw [hx, Option.some_or] at hfind
      cases hfind
      rw [if_pos (by simp [hsome, hx])]
      refine .cons ?_ ?_
      · rw [Scope.instantiate_update (hss.names (List.mem_cons_self ..)) hhead hx]
        simp [Scope.replace, hs]
      · refine congr htail fun slot' hmem => Function.update_of_ne (fun heq => ?_) _ _
        exact hdisjoint slot (Scope.mem_slots_of_find? hx rfl) slot' hmem heq.symm

/-- Defining a name binds it in the innermost scope. -/
lemma exists_of_define (h : Shows memory (s :: ss) es) {x : Ident} {b : Binding} {es' : Scopes}
    (hdef : define es x b = .ok es') :
    ∃ e outer, es = e :: outer ∧ es' = e.bind x.name b :: outer := by
  cases h with
  | cons _ _ =>
    obtain ⟨e', he', rfl⟩ := Scopes.define_eq_ok hdef
    obtain ⟨-, -, rfl⟩ := Scope.define_eq_ok_iff.1 he'
    exact ⟨_, _, rfl, rfl⟩

end Shows

end Scopes

end Arbor
