/-!
# Pools

A pool is a list without repetition to which values are only ever added at the end.  Objects refer
to its entries by index, so an index once given out stays valid.

* `Pool.intern` finds a value or adds it, and returns its index.
* `Pool.getElem?_intern`: the index returned is that of the value.
* `Pool.entries_intern`: interning only adds entries at the end.
-/

namespace Arbor

/-- An ordered set whose members are referred to by index. -/
structure Pool (α : Type) where
  entries : List α := []
  nodup : entries.Nodup := by exact List.nodup_nil
deriving DecidableEq

namespace Pool

variable {α : Type} [DecidableEq α]

instance : Inhabited (Pool α) := ⟨{}⟩

/-- The number of entries. -/
def size (p : Pool α) : Nat := p.entries.length

/-- The index of a value, if it is an entry. -/
def idxOf? (p : Pool α) (a : α) : Option Nat :=
  if a ∈ p.entries then some (p.entries.idxOf a) else none

/-- The pool with a new value at the end. -/
def push (p : Pool α) (a : α) (h : a ∉ p.entries) : Pool α where
  entries := p.entries ++ [a]
  nodup := by
    refine List.nodup_append.2 ⟨p.nodup, by simp, ?_⟩
    intro x hx y hy hxy
    simp only [List.mem_singleton] at hy
    exact h (hy ▸ hxy ▸ hx)

/-- The index of a value, which is added unless it is an entry already. -/
def intern (p : Pool α) (a : α) : Nat × Pool α :=
  if h : a ∈ p.entries then (p.entries.idxOf a, p) else (p.entries.length, p.push a h)

theorem getElem?_intern (p : Pool α) (a : α) :
    (p.intern a).2.entries[(p.intern a).1]? = some a := by
  unfold intern
  split
  · next h =>
    rw [List.getElem?_eq_getElem (List.idxOf_lt_length_of_mem h)]
    simp
  · simp [push]

theorem entries_intern (p : Pool α) (a : α) :
    (p.intern a).2.entries = if a ∈ p.entries then p.entries else p.entries ++ [a] := by
  unfold intern
  split <;> simp_all [push]

theorem entries_isPrefix_intern (p : Pool α) (a : α) :
    p.entries <+: (p.intern a).2.entries := by
  rw [entries_intern]
  split
  · exact List.prefix_rfl
  · exact List.prefix_append _ _

theorem idxOf?_eq_some_iff {p : Pool α} {a : α} {i : Nat} :
    p.idxOf? a = some i ↔ p.entries[i]? = some a := by
  unfold idxOf?
  constructor
  · intro h
    split at h
    · next hmem =>
      cases h
      rw [List.getElem?_eq_getElem (List.idxOf_lt_length_of_mem hmem)]
      simp
    · cases h
  · intro h
    obtain ⟨hi, hget⟩ := List.getElem?_eq_some_iff.1 h
    have hmem : a ∈ p.entries := hget ▸ List.getElem_mem hi
    rw [if_pos hmem, ← hget]
    exact congrArg some (p.nodup.idxOf_getElem i hi)

/-- The pool of a list of values, interned in order. -/
def ofList (as : List α) : Pool α := as.foldl (fun p a => (p.intern a).2) {}

end Pool

end Arbor
