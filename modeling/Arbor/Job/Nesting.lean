/-!
# Nesting of expansions

Functions and constraint types are expanded in place, one inside the other, and none inside itself.
`Nesting.remaining` counts the names that may still be entered; entering one makes it smaller, so
expansion ends.
-/

namespace Arbor.Nesting

/-- How many of the names have not been entered. -/
def remaining (names entered : List String) : Nat := (names.filter (· ∉ entered)).length

theorem remaining_cons_lt {names entered : List String} {name : String} (hmem : name ∈ names)
    (hnew : name ∉ entered) : remaining names (name :: entered) < remaining names entered := by
  have hsub : names.filter (· ∉ name :: entered)
      = (names.filter (· ∉ entered)).filter (· ≠ name) := by
    rw [List.filter_filter]
    congr 1
    funext x
    by_cases hx : x = name <;> simp [hx]
  unfold remaining
  rw [hsub]
  refine List.length_filter_lt_length_iff_exists.2 ⟨name, ?_, by simp⟩
  simp [hmem, hnew]

end Arbor.Nesting
