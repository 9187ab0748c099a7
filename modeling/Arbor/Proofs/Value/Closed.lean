import Arbor.Builtin.Operation
import Mathlib.Tactic.Lemma

/-!
# Closed properties of data

A property of data is closed if operations preserve it and lists of scalars have it when their items
do.  Two are used: being flat, that is no list inside a list, and being free of floating-point
numbers.  Both rest on what operations return (`Operation.fold_eq_value`): always a scalar, and
never a floating-point number if there is none among the operands.
-/

namespace Arbor

/-! ## Results of operations -/

namespace Operation

/-- A number that is not an integer. -/
def isFloat : Datum → Bool
  | .number (.float _) => true
  | _ => false

/-- Arithmetic on integers yields an integer. -/
lemma arithmetic_eq_value {onInts : Int64 → Int64 → Option Int64}
    {onDoubles : Double → Double → Double} {ds : List Datum} {d : Datum}
    (h : arithmetic onInts onDoubles ds = .value d) :
    d.isList = false ∧ ((∀ x ∈ ds, isFloat x = false) → isFloat d = false) := by
  unfold arithmetic at h
  split at h
  · split at h
    · cases h
      exact ⟨rfl, fun _ => rfl⟩
    · cases h
  · next a b hints =>
    -- At least one operand is a floating-point number here.
    dsimp only at h
    split at h
    · cases h
      refine ⟨rfl, fun hds => ?_⟩
      cases a with
      | float x => simpa [isFloat] using hds (.number (.float x)) (by simp)
      | int v =>
        cases b with
        | float y => simpa [isFloat] using hds (.number (.float y)) (by simp)
        | int w => exact (hints v w rfl rfl).elim
    · cases h
  · cases h

lemma foldAdd_eq_value {ds : List Datum} {d : Datum} (h : foldAdd ds = .value d) :
    d.isList = false ∧ ((∀ x ∈ ds, isFloat x = false) → isFloat d = false) := by
  unfold foldAdd at h
  split at h
  · cases h
    exact ⟨rfl, fun _ => rfl⟩
  · exact arithmetic_eq_value h

lemma foldNeg_eq_value {ds : List Datum} {d : Datum} (h : foldNeg ds = .value d) :
    d.isList = false ∧ ((∀ x ∈ ds, isFloat x = false) → isFloat d = false) := by
  unfold foldNeg at h
  split at h
  · split at h
    · cases h
      exact ⟨rfl, fun _ => rfl⟩
    · cases h
  · next x =>
    cases h
    exact ⟨rfl, fun hds => by simpa [isFloat] using hds (.number (.float x)) (by simp)⟩
  · cases h

/-- Comparisons and logic yield booleans. -/
lemma exists_bool_of_fold {operation : Operation} {ds : List Datum} {d : Datum}
    (hop : operation ∉ [Operation.add, .sub, .mul, .div, .neg]) (h : operation.fold ds = .value d) :
    ∃ b, d = .bool b := by
  have hbool : ∀ r, ofBool? r = .value d → ∃ b, d = .bool b := by
    intro r hr
    cases r with
    | none => cases hr
    | some b =>
      cases hr
      exact ⟨b, rfl⟩
  have hordered : ∀ accept, ordered accept ds = .value d → ∃ b, d = .bool b := by
    intro accept hr
    unfold ordered at hr
    split at hr
    · cases hr
      exact ⟨_, rfl⟩
    · cases hr
  have hlogical : ∀ f, logical f ds = .value d → ∃ b, d = .bool b := by
    intro f hr
    unfold logical at hr
    split at hr
    · cases hr
      exact ⟨_, rfl⟩
    · cases hr
  cases operation with
  | add | sub | mul | div | neg => simp at hop
  | eq => exact hbool _ h
  | ne => exact hbool _ h
  | lt | le | gt | ge => exact hordered _ h
  | and | or => exact hlogical _ h
  | multipleOf =>
    simp only [fold] at h
    unfold foldMultipleOf at h
    split at h
    · split at h <;> cases h
      exact ⟨_, rfl⟩
    · split at h <;> cases h
      exact ⟨_, rfl⟩
    · cases h
  | powerOf =>
    simp only [fold] at h
    unfold foldPowerOf at h
    split at h
    · split at h
      · split at h
        · cases h
        · split at h <;> cases h <;> exact ⟨_, rfl⟩
      · cases h
    · cases h
  | not =>
    simp only [fold] at h
    unfold foldNot at h
    split at h
    · cases h
      exact ⟨_, rfl⟩
    · cases h

/-- Operations yield scalars, and no floating-point number unless given one. -/
lemma fold_eq_value {operation : Operation} {ds : List Datum} {d : Datum}
    (h : operation.fold ds = .value d) :
    d.isList = false ∧ ((∀ x ∈ ds, isFloat x = false) → isFloat d = false) := by
  by_cases hop : operation ∈ [Operation.add, .sub, .mul, .div, .neg]
  · simp only [List.mem_cons, List.not_mem_nil, or_false] at hop
    rcases hop with rfl | rfl | rfl | rfl | rfl
    · exact foldAdd_eq_value h
    · rw [fold] at h
      exact arithmetic_eq_value h
    · rw [fold] at h
      exact arithmetic_eq_value h
    · rw [fold] at h
      exact arithmetic_eq_value h
    · exact foldNeg_eq_value h
  · obtain ⟨b, rfl⟩ := exists_bool_of_fold hop h
    exact ⟨rfl, fun _ => rfl⟩

end Operation

/-! ## Closed properties -/

namespace Datum

/-- A property that operations preserve, and that lists of scalars have if their items do. -/
structure Closed (P : Datum → Prop) : Prop where
  fold : ∀ {operation : Operation} {ds : List Datum} {d : Datum}, (∀ x ∈ ds, P x) →
    operation.fold ds = .value d → P d
  list : ∀ {ds : List Datum}, (∀ x ∈ ds, P x ∧ x.type.isList = false) → P (.list ds)

lemma closed_true : Closed fun _ => True := ⟨fun _ _ => trivial, fun _ => trivial⟩

/-- A scalar, or a list of scalars. -/
def IsFlat : Datum → Prop
  | .list ds => ∀ d ∈ ds, d.isList = false
  | _ => True

mutual
/-- No floating-point number, also not inside a list. -/
def isFloatFree : Datum → Bool
  | .number (.float _) => false
  | .list ds => isFloatFreeAll ds
  | _ => true

/-- No floating-point number in several data. -/
def isFloatFreeAll : List Datum → Bool
  | [] => true
  | d :: ds => d.isFloatFree && isFloatFreeAll ds
end

lemma isFloatFreeAll_iff {ds : List Datum} :
    isFloatFreeAll ds = true ↔ ∀ d ∈ ds, d.isFloatFree = true := by
  induction ds with
  | nil => simp [isFloatFreeAll]
  | cons d ds ih => simp [isFloatFreeAll, ih]

lemma isList_type (d : Datum) : d.type.isList = d.isList := by
  cases d with
  | list items => cases items <;> rfl
  | none => rfl
  | bool _ => rfl
  | number _ => rfl
  | str _ => rfl
  | kind _ => rfl

lemma isFlat_of_isList {d : Datum} (h : d.isList = false) : d.IsFlat := by
  cases d with
  | list items => cases h
  | none => trivial
  | bool _ => trivial
  | number _ => trivial
  | str _ => trivial
  | kind _ => trivial

lemma isFloat_of_isFloatFree {d : Datum} (h : d.isFloatFree = true) :
    Operation.isFloat d = false := by
  unfold Operation.isFloat
  split
  · cases h
  · rfl

lemma isFloatFree_of_isFloat {d : Datum} (hlist : d.isList = false)
    (h : Operation.isFloat d = false) : d.isFloatFree = true := by
  unfold isFloatFree
  split
  · cases h
  · cases hlist
  · rfl

theorem closed_isFlat : Closed IsFlat where
  fold _ h := isFlat_of_isList (Operation.fold_eq_value h).1
  list hds d hd := (isList_type d).symm.trans (hds d hd).2

theorem closed_isFloatFree : Closed fun d => d.isFloatFree = true where
  fold hds h := by
    obtain ⟨hscalar, hfloat⟩ := Operation.fold_eq_value h
    exact isFloatFree_of_isFloat hscalar (hfloat fun x hx => isFloat_of_isFloatFree (hds x hx))
  list hds := by
    rw [isFloatFree]
    exact isFloatFreeAll_iff.2 fun d hd => (hds d hd).1

end Datum

end Arbor
