import Arbor.Proofs.Value.Closed
import Mathlib.Data.List.Forall2

/-!
# Types and the data they stand for

What a type says of a datum is read off single tags.  A join has the tags of all its parts, and it
is a type of lists as soon as one of them is; so a type of lists need not say that a value is one.

* `ValueType.contains_joinAll`, `ValueType.isList_joinAll`: joins.
* `Datum.exists_type_eq`: a scalar has one tag.
* `Datum.compatible_list`: a list has the type that is made of types for its items.
* `ValueType.Bounds`: what a type says of a value for certain.
-/

namespace Arbor

/-! ## Joins -/

namespace ValueType

lemma compatible_iff {s t : ValueType} :
    s.compatible t = true ↔
      s.isList = t.isList ∧ ∃ x, s.tags.contains x = true ∧ t.tags.contains x = true := by
  simp [compatible, TagSet.overlaps_iff]

lemma contains_foldl_join {ts : List ValueType} {t : ValueType} {x : Tag} :
    (ts.foldl join t).tags.contains x = true ↔
      t.tags.contains x = true ∨ ∃ s ∈ ts, s.tags.contains x = true := by
  induction ts generalizing t with
  | nil => simp
  | cons s ts ih => simp [ih, join, or_assoc]

lemma isList_foldl_join {ts : List ValueType} {t : ValueType} :
    (ts.foldl join t).isList = true ↔ t.isList = true ∨ ∃ s ∈ ts, s.isList = true := by
  induction ts generalizing t with
  | nil => simp
  | cons s ts ih => simp [ih, join, or_assoc]

lemma contains_joinAll {ts : List ValueType} {x : Tag} :
    (joinAll ts).tags.contains x = true ↔ ∃ s ∈ ts, s.tags.contains x = true := by
  simp [joinAll, contains_foldl_join, void, scalar]

lemma isList_joinAll {ts : List ValueType} :
    (joinAll ts).isList = true ↔ ∃ s ∈ ts, s.isList = true := by
  simp [joinAll, isList_foldl_join, void, scalar]

lemma isVoid_eq_false_iff {t : ValueType} :
    t.isVoid = false ↔ ∃ x, t.tags.contains x = true := by
  constructor
  · intro h
    by_contra hnone
    push Not at hnone
    have hempty : t.tags = .empty := TagSet.ext fun x => by simpa using hnone x
    simp [isVoid, hempty, TagSet.isEmpty] at h
  · rintro ⟨x, hx⟩
    by_contra hvoid
    have hempty : t.tags = .empty := by simpa [isVoid, TagSet.isEmpty] using hvoid
    rw [hempty, TagSet.contains_empty] at hx
    cases hx

end ValueType

/-! ## Data -/

namespace Datum

lemma exists_type_eq {d : Datum} (h : d.isList = false) : ∃ g, d.type = .of g := by
  cases d with
  | list ds => cases h
  | none => exact ⟨.none, rfl⟩
  | bool b => exact ⟨.bool, rfl⟩
  | number n => exact ⟨.num, rfl⟩
  | str s => exact ⟨.str, rfl⟩
  | kind s => exact ⟨.kind, rfl⟩

/-- No datum has a void type. -/
lemma exists_contains : (d : Datum) → ∃ x, d.type.tags.contains x = true
  | .none => ⟨.none, rfl⟩
  | .bool _ => ⟨.bool, rfl⟩
  | .number _ => ⟨.num, rfl⟩
  | .str _ => ⟨.str, rfl⟩
  | .kind _ => ⟨.kind, rfl⟩
  | .list [] => ⟨.none, rfl⟩
  | .list (d :: ds) => by
    obtain ⟨x, hx⟩ := exists_contains d
    exact ⟨x, ValueType.contains_joinAll.2 ⟨d.type, List.mem_cons_self .., hx⟩⟩

lemma compatible_self (d : Datum) : d.type.compatible d.type = true := by
  obtain ⟨x, hx⟩ := d.exists_contains
  exact ValueType.compatible_iff.2 ⟨rfl, x, hx, hx⟩

/-- Scalars that fit each other have the same type. -/
lemma type_eq_of_scalar {c d : Datum} (hd : d.isList = false)
    (h : c.type.compatible d.type = true) : c.type = d.type := by
  obtain ⟨hlist, x, hxc, hxd⟩ := ValueType.compatible_iff.1 h
  rw [isList_type, isList_type, hd] at hlist
  obtain ⟨g, hg⟩ := exists_type_eq hd
  obtain ⟨g', hg'⟩ := exists_type_eq hlist
  rw [hg] at hxd
  rw [hg'] at hxc
  have hxg : x = g := by simpa [ValueType.of, ValueType.scalar] using hxd
  have hxg' : x = g' := by simpa [ValueType.of, ValueType.scalar] using hxc
  rw [hg, hg', ← hxg, ← hxg']

/-- A list has the type that is made of types for its items. -/
lemma compatible_list {ds : List Datum} {types : List ValueType}
    (h : List.Forall₂ (fun d t => d.type.compatible t = true) ds types) :
    (Datum.list ds).type.compatible
      (if types.isEmpty then .anyList else (ValueType.joinAll types).asList) = true := by
  cases h with
  | nil => exact compatible_self (.list [])
  | @cons d t ds types hd _ =>
    obtain ⟨-, x, hxd, hxt⟩ := ValueType.compatible_iff.1 hd
    refine ValueType.compatible_iff.2 ⟨rfl, x, ?_, ?_⟩
    · exact ValueType.contains_joinAll.2 ⟨d.type, List.mem_cons_self .., hxd⟩
    · exact ValueType.contains_joinAll.2 ⟨t, List.mem_cons_self .., hxt⟩

end Datum

/-! ## Bounds -/

/-- What a type says of a value whatever it was joined from: a list is of a type of lists, and a
scalar has one of the tags. -/
structure ValueType.Bounds (t : ValueType) (d : Datum) : Prop where
  isList : d.isList = true → t.isList = true
  overlaps : d.isList = false → d.type.tags.overlaps t.tags = true

namespace ValueType.Bounds

variable {t : ValueType} {c d : Datum}

lemma of_compatible (h : d.type.compatible t = true) : t.Bounds d := by
  obtain ⟨hlist, hshare⟩ := compatible_iff.1 h
  rw [Datum.isList_type] at hlist
  exact ⟨fun hd => hlist.symm.trans hd, fun _ => TagSet.overlaps_iff.2 hshare⟩

/-- A type of scalars says it all. -/
lemma compatible (h : t.Bounds d) (ht : t.isList = false) : d.type.compatible t = true := by
  have hd : d.isList = false := by
    by_contra hne
    have hlist := h.isList (by simpa using hne)
    rw [ht] at hlist
    cases hlist
  exact compatible_iff.2 ⟨by rw [Datum.isList_type, hd, ht], TagSet.overlaps_iff.1 (h.overlaps hd)⟩

lemma joinAll (h : t.Bounds d) {ts : List ValueType} (ht : t ∈ ts) :
    (ValueType.joinAll ts).Bounds d where
  isList hd := isList_joinAll.2 ⟨t, ht, h.isList hd⟩
  overlaps hd := by
    obtain ⟨x, hxd, hxt⟩ := TagSet.overlaps_iff.1 (h.overlaps hd)
    exact TagSet.overlaps_iff.2 ⟨x, hxd, contains_joinAll.2 ⟨t, ht, hxt⟩⟩

/-- What takes the place of a datum is bounded as well. -/
lemma of_replaced (h : t.Bounds c) (hd : c.type.compatible d.type = true) : t.Bounds d where
  isList hlist := by
    obtain ⟨heq, -⟩ := compatible_iff.1 hd
    rw [Datum.isList_type, Datum.isList_type] at heq
    exact h.isList (heq.trans hlist)
  overlaps hscalar := by
    have heq := Datum.type_eq_of_scalar hscalar hd
    have hlist := congrArg ValueType.isList heq
    rw [Datum.isList_type, Datum.isList_type] at hlist
    rw [← heq]
    exact h.overlaps (hlist.trans hscalar)

end ValueType.Bounds

end Arbor
