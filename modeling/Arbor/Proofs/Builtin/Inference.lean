import Arbor.Proofs.Builtin.Resolution
import Arbor.Proofs.Value.Types

/-!
# Inferred result types

An overload is found twice: by static types, which are bounds, and by the types of data.  With the
standard builtins the second is among those that the first finds, and its operation yields what it
declares.  So the joined type that is inferred for an application fits what the application folds
to.

* `Operation.type_of_fold`: the type of a result.
* `Overloads.Standard.compatible_of_fold`: what is inferred fits what is folded.
-/

namespace Arbor

/-! ## Results of operations -/

namespace Operation

/-- The type of the results of an operation on operands of given types. -/
def resultType : Operation → List ValueType → ValueType
  | .add, params => if params = [.of .str, .of .str] then .of .str else .of .num
  | .sub, _ | .mul, _ | .div, _ | .neg, _ => .of .num
  | _, _ => .of .bool

variable {ds : List Datum} {d : Datum}

lemma type_of_arithmetic {onInts : Int64 → Int64 → Option Int64}
    {onDoubles : Double → Double → Double} (h : arithmetic onInts onDoubles ds = .value d) :
    d.type = .of .num ∧ ds.map Datum.type = [.of .num, .of .num] := by
  unfold arithmetic at h
  split at h
  · split at h
    · cases h
      exact ⟨rfl, rfl⟩
    · cases h
  · dsimp only at h
    split at h
    · cases h
      exact ⟨rfl, rfl⟩
    · cases h
  · cases h

lemma type_of_foldAdd (h : foldAdd ds = .value d) :
    d.type = resultType .add (ds.map Datum.type) := by
  unfold foldAdd at h
  split at h
  · cases h
    rfl
  · obtain ⟨hd, hds⟩ := type_of_arithmetic h
    rw [hd, hds]
    decide

lemma type_of_foldNeg (h : foldNeg ds = .value d) : d.type = .of .num := by
  unfold foldNeg at h
  split at h
  · split at h <;> cases h
    rfl
  · cases h
    rfl
  · cases h

/-- Operations yield data of one type each; only a sum may also be a string. -/
lemma type_of_fold {operation : Operation} (h : operation.fold ds = .value d) :
    d.type = operation.resultType (ds.map Datum.type) := by
  by_cases hop : operation ∈ [Operation.add, .sub, .mul, .div, .neg]
  · simp only [List.mem_cons, List.not_mem_nil, or_false] at hop
    rcases hop with rfl | rfl | rfl | rfl | rfl
    · exact type_of_foldAdd h
    · rw [fold] at h
      exact (type_of_arithmetic h).1
    · rw [fold] at h
      exact (type_of_arithmetic h).1
    · rw [fold] at h
      exact (type_of_arithmetic h).1
    · exact type_of_foldNeg h
  · obtain ⟨b, rfl⟩ := exists_bool_of_fold hop h
    cases operation with
    | add | sub | mul | div | neg => simp at hop
    | _ => rfl

end Operation

namespace Builtins

/-- The table declares what operations yield. -/
lemma standard_returns : ∀ b ∈ standard.entries, ∀ operation,
    b.opcode.operation? = some operation → b.returns = operation.resultType b.params := by
  decide +kernel

lemma standard_returns_isList : ∀ b ∈ standard.entries, ∀ c ∈ standard.entries, b.name = c.name →
    b.arity = c.arity → b.returns.isList = c.returns.isList := by decide +kernel

end Builtins

/-! ## Overloads that fit -/

/-- An overload that fits data also fits types that fit the data.  Another overload that fits the
types shows that they are types of scalars. -/
lemma Builtin.acceptsAll_of_data {tags tags' : List Tag} {ds : List Datum} {types : List ValueType}
    (h : acceptsAll (tags.map .of) types = true) (hds : ds.map Datum.type = tags'.map .of)
    (hfits : List.Forall₂ (fun d t => t.isList = false → d.type.compatible t = true) ds types) :
    acceptsAll (tags'.map .of) types = true := by
  induction hfits generalizing tags tags' with
  | nil =>
    obtain rfl := List.map_eq_nil_iff.1 hds.symm
    rfl
  | @cons d t ds types hd _ ih =>
    cases tags with
    | nil => cases h
    | cons g tags =>
      cases tags' with
      | nil => cases hds
      | cons g' tags' =>
        simp only [List.map_cons, List.cons.injEq] at hds
        simp only [List.map_cons, acceptsAll, Bool.and_eq_true] at h ⊢
        have hscalar : t.isList = false := (ValueType.compatible_iff.1 h.1).1.symm
        exact ⟨hds.1 ▸ hd hscalar, ih h.2 hds.2⟩

namespace Overloads

variable {o : Overloads} {types : List ValueType} {span span' : Span} {t : ValueType} {op : Opcode}
  {b : Builtin}

/-- An inferred type has the tags of all overloads that fit. -/
lemma contains_of_infer (h : o.infer types span = .ok (t, op)) (hb : b ∈ o.candidates)
    (haccepts : b.accepts types = true) {x : Tag} (hx : b.returns.tags.contains x = true) :
    t.tags.contains x = true := by
  have hmem : b ∈ o.candidates.filter (·.accepts types) := List.mem_filter.2 ⟨hb, haccepts⟩
  unfold infer at h
  split at h
  · cases h
  · next first others heq =>
    split at h
    · cases h
      rw [heq] at hmem
      refine ValueType.contains_foldl_join.2 ?_
      rcases List.mem_cons.1 hmem with rfl | hothers
      · exact .inl hx
      · exact .inr ⟨b.returns, List.mem_map_of_mem hothers, hx⟩
    · cases h

/-- Overloads of one name and arity all return lists, or none does. -/
lemma Standard.isList_of_infer (h : o.Standard) (hinfer : o.infer types span = .ok (t, op))
    (hb : b ∈ o.candidates) (haccepts : b.accepts types = true) :
    t.isList = b.returns.isList := by
  obtain ⟨hentry, hname⟩ := h.mem_candidates hb
  have hsame : ∀ c ∈ o.candidates.filter (·.accepts types),
      c.returns.isList = b.returns.isList := by
    intro c hc
    obtain ⟨hmem, haccepts'⟩ := List.mem_filter.1 hc
    obtain ⟨hentry', hname'⟩ := h.mem_candidates hmem
    refine Builtins.standard_returns_isList c hentry' b hentry (hname'.trans hname.symm) ?_
    exact (Builtin.length_of_acceptsAll haccepts').symm.trans
      (Builtin.length_of_acceptsAll haccepts)
  unfold infer at hinfer
  split at hinfer
  · cases hinfer
  · next first others heq =>
    split at hinfer
    · cases hinfer
      rw [heq, List.forall_mem_cons] at hsame
      rw [Bool.eq_iff_iff, ValueType.isList_foldl_join, hsame.1]
      refine ⟨fun hlist => hlist.elim id ?_, .inl⟩
      rintro ⟨s, hs, hlist⟩
      obtain ⟨c, hc, rfl⟩ := List.mem_map.1 hs
      exact hsame.2 c hc ▸ hlist
    · cases hinfer

/-- What is inferred fits what is folded. -/
lemma Standard.compatible_of_fold (h : o.Standard) {ds : List Datum} {d : Datum}
    (hinfer : o.infer types span = .ok (t, op)) (hfold : o.fold ds span' = .ok (some d))
    (hfits : List.Forall₂ (fun d t => t.isList = false → d.type.compatible t = true) ds types) :
    d.type.compatible t = true := by
  obtain ⟨b₁, hb₁, haccepts₁, -⟩ := infer_eq_ok hinfer
  obtain ⟨b₂, hb₂, haccepts₂, operation, hop, hvalue⟩ := h.fold_eq_some hfold
  have hentry₁ := (h.mem_candidates hb₁).1
  have hentry₂ := (h.mem_candidates hb₂).1
  obtain ⟨tags₁, htags₁⟩ :=
    Builtins.exists_tags_of_hasSingleTags (Builtins.standard_singleTags b₁ hentry₁)
  obtain ⟨tags₂, htags₂⟩ :=
    Builtins.exists_tags_of_hasSingleTags (Builtins.standard_singleTags b₂ hentry₂)
  unfold Builtin.accepts at haccepts₁ haccepts₂
  rw [htags₁] at haccepts₁
  rw [htags₂] at haccepts₂
  have hds := Builtin.eq_params_of_acceptsAll haccepts₂
  -- The overload that evaluation selects is one of those that inference joins.
  have haccepts : b₂.accepts types = true := by
    rw [Builtin.accepts, htags₂]
    exact Builtin.acceptsAll_of_data haccepts₁ hds hfits
  have htype : d.type = b₂.returns := by
    rw [Operation.type_of_fold hvalue, hds, ← htags₂, Builtins.standard_returns b₂ hentry₂ _ hop]
  obtain ⟨x, hx⟩ := d.exists_contains
  refine ValueType.compatible_iff.2 ⟨?_, x, hx, contains_of_infer hinfer hb₂ haccepts (htype ▸ hx)⟩
  rw [htype, h.isList_of_infer hinfer hb₂ haccepts]

end Overloads

end Arbor
