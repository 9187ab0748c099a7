import Arbor.Proofs.Builtin.Inference

/-!
# Inference abstracts folding

Folding selects one overload by the types of data; inference joins all overloads that fit types
which are mere bounds.  With the standard builtins the two never disagree.  What is selected for
data is found again under all wider types, with its opcode and a type that includes what it
returns, and it does not fold to anything else.

* `ValueType.Includes`: a wider type.
* `Overloads.Standard.exists_infer`: an overload that fits determines the inferred opcode.
* `Operation.takes`, `Operation.eq_powerOf_of_declined`: on the operands it is made for, an
  operation has its say, `**=` on numbers that are no integers apart.
* `Overloads.infer_includes_of_select`: the two resolutions compared.
-/

namespace Arbor

/-! ## Wider types -/

/-- A type with the list flag of another and at least its tags. -/
structure ValueType.Includes (t s : ValueType) : Prop where
  isList : t.isList = s.isList
  tags : ∀ x, s.tags.contains x = true → t.tags.contains x = true

/-- What is compatible with a type is compatible with wider ones. -/
lemma ValueType.Includes.compatible {r s t : ValueType} (h : t.Includes s)
    (hs : r.compatible s = true) : r.compatible t = true := by
  obtain ⟨hlist, x, hxr, hxs⟩ := compatible_iff.1 hs
  exact compatible_iff.2 ⟨hlist.trans h.isList.symm, x, hxr, h.tags x hxs⟩

/-- Parameters that fit argument types fit wider ones. -/
lemma Builtin.acceptsAll_of_includes {params args types : List ValueType}
    (h : List.Forall₂ (fun s t => ValueType.Includes t s) args types)
    (haccepts : acceptsAll params args = true) : acceptsAll params types = true := by
  induction h generalizing params with
  | nil => exact haccepts
  | cons ht _ ih =>
    cases params with
    | nil => cases haccepts
    | cons p params =>
      simp only [acceptsAll, Bool.and_eq_true] at haccepts ⊢
      exact ⟨ht.compatible haccepts.1, ih haccepts.2⟩

/-! ## Inference from one overload that fits -/

/-- Where an overload fits, inference succeeds with its opcode. -/
lemma Overloads.Standard.exists_infer {o : Overloads} (h : o.Standard) {b : Builtin}
    {types : List ValueType} (hb : b ∈ o.candidates) (haccepts : b.accepts types = true)
    (span : Span) : ∃ t, o.infer types span = .ok (t, b.opcode) := by
  have hmem : b ∈ o.candidates.filter (·.accepts types) := List.mem_filter.2 ⟨hb, haccepts⟩
  unfold infer
  split
  · next hnone =>
    rw [hnone] at hmem
    cases hmem
  · next first others heq =>
    have hfirst : first ∈ o.candidates.filter (·.accepts types) := by simp [heq]
    obtain ⟨hfmem, hfits⟩ := List.mem_filter.1 hfirst
    rw [if_pos (h.all_opcode_eq heq), h.opcode_eq_of_accepts hb hfmem rfl haccepts hfits]
    exact ⟨_, rfl⟩

/-! ## Operands -/

lemma ValueType.of_inj {s t : Tag} : of s = of t ↔ s = t := by
  refine ⟨fun h => ?_, congrArg of⟩
  have hsingle : TagSet.single s = TagSet.single t := congrArg ValueType.tags h
  have hs : (TagSet.single t).contains s = true := by
    rw [← hsingle]
    simp
  simpa using hs

/-- What data with a tag look like.  Nodes are no data. -/
def Tag.Describes : Tag → Datum → Prop
  | .none, d => d = .none
  | .num, d => ∃ n, d = .number n
  | .str, d => ∃ text, d = .str text
  | .bool, d => ∃ b, d = .bool b
  | .kind, d => ∃ name, d = .kind name
  | .node, _ => False

lemma Tag.describes_of_type {d : Datum} {t : Tag} (h : d.type = .of t) : t.Describes d := by
  cases d with
  | list ds => cases ds <;> cases congrArg ValueType.isList h
  | none =>
    obtain rfl : Tag.none = t := ValueType.of_inj.1 h
    rfl
  | bool b =>
    obtain rfl : Tag.bool = t := ValueType.of_inj.1 h
    exact ⟨b, rfl⟩
  | number n =>
    obtain rfl : Tag.num = t := ValueType.of_inj.1 h
    exact ⟨n, rfl⟩
  | str text =>
    obtain rfl : Tag.str = t := ValueType.of_inj.1 h
    exact ⟨text, rfl⟩
  | kind name =>
    obtain rfl : Tag.kind = t := ValueType.of_inj.1 h
    exact ⟨name, rfl⟩

/-- One operand of a given tag. -/
lemma Tag.describes_of_types {ds : List Datum} {t : Tag} (h : ds.map Datum.type = [.of t]) :
    ∃ d, ds = [d] ∧ t.Describes d := by
  obtain ⟨d, rfl, hd⟩ := List.map_eq_singleton_iff.1 h
  exact ⟨d, rfl, describes_of_type hd⟩

/-- Two operands of given tags. -/
lemma Tag.describe_of_types {ds : List Datum} {s t : Tag}
    (h : ds.map Datum.type = [.of s, .of t]) :
    ∃ a b, ds = [a, b] ∧ s.Describes a ∧ t.Describes b := by
  obtain ⟨a, rest, rfl, ha, hrest⟩ := List.map_eq_cons_iff.1 h
  obtain ⟨b, rfl, hb⟩ := describes_of_types hrest
  exact ⟨a, b, rfl, describes_of_type ha, hb⟩

/-! ## What operations say -/

namespace Operation

/-- Whether an operation is made for operands of given types. -/
def takes : Operation → List ValueType → Bool
  | .add, types => types = [.of .num, .of .num] || types = [.of .str, .of .str]
  | .neg, types => types = [.of .num]
  | .eq, types | .ne, types => types.length = 2
  | .and, types | .or, types => types = [.of .bool, .of .bool]
  | .not, types => types = [.of .bool]
  | _, types => types = [.of .num, .of .num]

lemma arithmetic_ne_declined (onInts : Int64 → Int64 → Option Int64)
    (onDoubles : Double → Double → Double) (m n : Number) :
    arithmetic onInts onDoubles [.number m, .number n] ≠ .declined := by
  unfold arithmetic
  cases m <;> cases n <;> dsimp only <;> split <;> simp

lemma foldNeg_ne_declined (n : Number) : foldNeg [.number n] ≠ .declined := by
  unfold foldNeg
  cases n with
  | float x => simp
  | int v =>
    dsimp only
    split <;> simp

lemma foldMultipleOf_ne_declined (m n : Number) :
    foldMultipleOf [.number m, .number n] ≠ .declined := by
  unfold foldMultipleOf
  cases m <;> cases n <;> dsimp only <;> split <;> simp

lemma isSome_equal? (a b : Datum) : (equal? [a, b]).isSome = true := by
  unfold equal?
  split <;> simp_all

lemma ofBool?_ne_declined {r : Option Bool} (h : r.isSome = true) : ofBool? r ≠ .declined := by
  obtain ⟨b, rfl⟩ := Option.isSome_iff_exists.1 h
  simp [ofBool?]

/-- Whether a number is a power of another is left open only where one of them is no integer. -/
lemma toInt?_of_foldPowerOf {m n : Number}
    (h : foldPowerOf [.number m, .number n] = .declined) : m.toInt? = none ∨ n.toInt? = none := by
  unfold foldPowerOf at h
  dsimp only at h
  split at h
  · split at h
    · cases h
    · split at h <;> cases h
  · next hno =>
    by_contra hsome
    push Not at hsome
    obtain ⟨i, hi⟩ := Option.ne_none_iff_exists'.1 hsome.1
    obtain ⟨j, hj⟩ := Option.ne_none_iff_exists'.1 hsome.2
    exact hno i j hi hj

/-- An operation declines operands that it is made for only if it is `**=` and one of them is no
integer. -/
lemma eq_powerOf_of_declined {operation : Operation} {ds : List Datum}
    (htakes : operation.takes (ds.map Datum.type) = true)
    (h : operation.fold ds = .declined) :
    operation = .powerOf ∧
      ∃ m n : Number, ds = [.number m, .number n] ∧ (m.toInt? = none ∨ n.toInt? = none) := by
  cases operation with
  | add =>
    simp only [takes, Bool.or_eq_true, decide_eq_true_eq] at htakes
    rcases htakes with hnums | hstrs
    · obtain ⟨-, -, rfl, ⟨m, rfl⟩, ⟨n, rfl⟩⟩ := Tag.describe_of_types hnums
      rw [fold, foldAdd] at h
      · exact absurd h (arithmetic_ne_declined _ _ m n)
      · simp
    · obtain ⟨-, -, rfl, ⟨a, rfl⟩, ⟨b, rfl⟩⟩ := Tag.describe_of_types hstrs
      cases h
  | sub | mul | div =>
    obtain ⟨-, -, rfl, ⟨m, rfl⟩, ⟨n, rfl⟩⟩ := Tag.describe_of_types (of_decide_eq_true htakes)
    rw [fold] at h
    exact absurd h (arithmetic_ne_declined _ _ m n)
  | neg =>
    obtain ⟨-, rfl, ⟨n, rfl⟩⟩ := Tag.describes_of_types (of_decide_eq_true htakes)
    exact absurd h (foldNeg_ne_declined n)
  | eq =>
    obtain ⟨a, b, rfl⟩ := List.length_eq_two.1 (by simpa [takes] using htakes)
    exact absurd h (ofBool?_ne_declined (isSome_equal? a b))
  | ne =>
    obtain ⟨a, b, rfl⟩ := List.length_eq_two.1 (by simpa [takes] using htakes)
    exact absurd h (ofBool?_ne_declined (by simpa using isSome_equal? a b))
  | lt | le | gt | ge =>
    obtain ⟨-, -, rfl, ⟨m, rfl⟩, ⟨n, rfl⟩⟩ := Tag.describe_of_types (of_decide_eq_true htakes)
    cases h
  | multipleOf =>
    obtain ⟨-, -, rfl, ⟨m, rfl⟩, ⟨n, rfl⟩⟩ := Tag.describe_of_types (of_decide_eq_true htakes)
    exact absurd h (foldMultipleOf_ne_declined m n)
  | powerOf =>
    obtain ⟨-, -, rfl, ⟨m, rfl⟩, ⟨n, rfl⟩⟩ := Tag.describe_of_types (of_decide_eq_true htakes)
    exact ⟨rfl, m, n, rfl, toInt?_of_foldPowerOf h⟩
  | and | or =>
    obtain ⟨-, -, rfl, ⟨a, rfl⟩, ⟨b, rfl⟩⟩ := Tag.describe_of_types (of_decide_eq_true htakes)
    cases h
  | not =>
    obtain ⟨-, rfl, ⟨b, rfl⟩⟩ := Tag.describes_of_types (of_decide_eq_true htakes)
    cases h

end Operation

namespace Builtins

/-- The table declares operations for operands that they are made for. -/
lemma standard_takes : ∀ b ∈ standard.entries, ∀ operation,
    b.opcode.operation? = some operation → operation.takes b.params = true := by decide +kernel

lemma standard_powerOf : ∀ b ∈ standard.entries, b.opcode.operation? = some .powerOf →
    b.name = "**=" := by decide +kernel

end Builtins

/-! ## The two resolutions -/

namespace Overloads

variable {o : Overloads} {b : Builtin} {ds : List Datum} {span : Span}

/-- Data for which an overload is selected have the types of its parameters. -/
lemma Standard.eq_params_of_select (h : o.Standard)
    (hb : o.select (ds.map Datum.type) span = .ok b) : ds.map Datum.type = b.params := by
  obtain ⟨hmem, haccepts⟩ := select_eq_ok hb
  obtain ⟨tags, htags⟩ := Builtins.exists_tags_of_hasSingleTags
    (Builtins.standard_singleTags b (h.mem_candidates hmem).1)
  rw [Builtin.accepts, htags] at haccepts
  rw [htags]
  exact Builtin.eq_params_of_acceptsAll haccepts

/-- What the overload that is selected folds to is what it declares, or it has no result, or is
`**=` and declines numbers that are no integers. -/
lemma Standard.fold_of_select (h : o.Standard) (hb : o.select (ds.map Datum.type) span = .ok b)
    {native : Native} (hnative : b.native = some native) :
    native ds = .undefined ∨
      (native ds = .declined ∧ o.name = "**=" ∧
        ∃ m n : Number, ds = [.number m, .number n] ∧ (m.toInt? = none ∨ n.toInt? = none)) ∨
      ∃ r, native ds = .value r ∧ r.type = b.returns := by
  obtain ⟨hentry, hname⟩ := h.mem_candidates (select_eq_ok hb).1
  obtain ⟨operation, hop, rfl⟩ := Builtins.exists_operation_of_native hentry hnative
  have hparams := h.eq_params_of_select hb
  cases hfold : operation.fold ds with
  | undefined => exact .inl rfl
  | declined =>
    have htakes : operation.takes (ds.map Datum.type) = true := by
      rw [hparams]
      exact Builtins.standard_takes b hentry operation hop
    obtain ⟨rfl, hoperands⟩ := Operation.eq_powerOf_of_declined htakes hfold
    exact .inr (.inl ⟨rfl, hname.symm.trans (Builtins.standard_powerOf b hentry hop), hoperands⟩)
  | value r =>
    refine .inr (.inr ⟨r, rfl, ?_⟩)
    rw [Operation.type_of_fold hfold, hparams, Builtins.standard_returns b hentry operation hop]

/-- **Inference abstracts folding.**  Take overloads of the standard table, known arguments and
types that include theirs.  No two overloads fit the arguments.  If one does, the types have its
opcode and a type that includes what it returns; and it folds to just that type, unless it has no
result or is `**=` on a number that is no integer. -/
theorem infer_includes_of_select {name : String} {o : Overloads}
    (ho : Builtins.standard.overloads? name = some o) (ds : List Datum) (types : List ValueType)
    (htypes : List.Forall₂ (fun d t => ValueType.Includes t d.type) ds types) (span : Span) :
    (∀ p, o.select (ds.map Datum.type) span = .error p →
      p = (Fault.noOverload name (ds.map Datum.type)).atSpan span) ∧
    ∀ b, o.select (ds.map Datum.type) span = .ok b →
      (∃ t, o.infer types span = .ok (t, b.opcode) ∧ t.Includes b.returns) ∧
      ∀ native, b.native = some native →
        native ds = .undefined ∨
        (native ds = .declined ∧ name = "**=" ∧
          ∃ m n : Number, ds = [.number m, .number n] ∧ (m.toInt? = none ∨ n.toInt? = none)) ∨
        ∃ r, native ds = .value r ∧ r.type = b.returns := by
  obtain rfl := (Builtins.overloads?_eq_some ho).1
  have hstd : o.Standard := ho
  refine ⟨fun p hp => hstd.eq_noOverload_of_select hp, fun b hb => ⟨?_, fun native hnative => ?_⟩⟩
  · obtain ⟨hmem, haccepts⟩ := select_eq_ok hb
    have hwider : b.accepts types = true :=
      Builtin.acceptsAll_of_includes (List.forall₂_map_left_iff.2 htypes) haccepts
    obtain ⟨t, ht⟩ := hstd.exists_infer hmem hwider span
    exact ⟨t, ht, hstd.isList_of_infer ht hmem hwider,
      fun x hx => contains_of_infer ht hmem hwider hx⟩
  · exact hstd.fold_of_select hb hnative

/-- The overloads of `+`: on numbers, and on strings. -/
def sums : Overloads := ⟨"+", Builtins.standard.entries.take 2⟩

/-- Two strings are joined.  Where each may be anything, what is inferred includes a string. -/
theorem infer_includes_of_select_strings :
    ∃ b, Builtins.standard.overloads? "+" = some sums ∧
      sums.select [.of .str, .of .str] .nowhere = .ok b ∧
      b.native = some Operation.add.fold ∧
      (∃ t, sums.infer [.any, .any] .nowhere = .ok (t, b.opcode) ∧ t.Includes b.returns) ∧
      ∃ r, Operation.add.fold [.str "tree", .str "top"] = .value r ∧ r.type = b.returns := by
  have ho : Builtins.standard.overloads? "+" = some sums := rfl
  have hany : ∀ text, ValueType.Includes .any (Datum.str text).type := fun text =>
    ⟨rfl, fun x _ => TagSet.contains_full x⟩
  obtain ⟨-, hselected⟩ := infer_includes_of_select ho [.str "tree", .str "top"] [.any, .any]
    (.cons (hany _) (.cons (hany _) .nil)) .nowhere
  obtain ⟨hinfer, hfold⟩ := hselected _ rfl
  refine ⟨_, ho, rfl, rfl, hinfer, ?_⟩
  rcases hfold _ rfl with hundefined | ⟨hdeclined, -⟩ | hvalue
  · cases hundefined
  · cases hdeclined
  · exact hvalue

end Overloads

end Arbor
