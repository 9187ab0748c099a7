import Arbor.Job.Basic
import Arbor.Proofs.Code.Machine
import Arbor.Proofs.Problem.Ensures
import Mathlib.Data.List.Nodup

/-!
# Resolution of the standard builtins

With the standard builtins, resolving overloads never fails for a reason that lies in the table.
Overloads of one name and arity share their opcode, so static inference never finds two opcodes;
and since a datum has exactly one tag or is a list, at most one overload fits known arguments.  What
an overload folds to is what the running program computes for its opcode.

* `Builtins.standard_native`: the functions that fold the standard builtins.
* `Overloads.Standard`: overloads that the standard table holds under a name.
* `Overloads.infer_eq_ok`, `Overloads.fold_eq_some`: what a successful resolution has found.
* `Overloads.Standard.isFault_of_infer`, `Overloads.Standard.isFault_of_fold`: a failed one is the
  program's mistake.
-/

namespace Arbor

/-! ## Types of data -/

/-- A datum that fits a single tag has the type of that tag. -/
lemma Datum.type_eq_of_compatible {d : Datum} {t : Tag}
    (h : (ValueType.of t).compatible d.type = true) : d.type = .of t := by
  have hsingle : ∀ s : Tag, (ValueType.of t).compatible (.of s) = true →
      ValueType.of s = .of t := by
    intro s hs
    cases s <;> cases t <;> first | rfl | exact absurd hs (by decide)
  cases d with
  | list items =>
    cases items <;> simp [Datum.type, ValueType.compatible, ValueType.of, ValueType.scalar,
      ValueType.anyList, ValueType.list, ValueType.asList] at h
  | none => exact hsingle _ h
  | bool b => exact hsingle _ h
  | number n => exact hsingle _ h
  | str s => exact hsingle _ h
  | kind s => exact hsingle _ h

/-- No datum is a node. -/
lemma Datum.not_compatible_node (d : Datum) : d.type.compatible (.of .node) = false := by
  by_contra h
  rw [Bool.not_eq_false, ValueType.compatible_comm] at h
  have htype := congrArg ValueType.tags (Datum.type_eq_of_compatible h)
  have hlist := congrArg ValueType.isList (Datum.type_eq_of_compatible h)
  cases d with
  | list items => cases items <;> cases hlist
  | none => exact absurd htype (by decide)
  | bool b => exact absurd (show (TagSet.single .bool) = TagSet.single .node from htype) (by decide)
  | number n =>
    exact absurd (show (TagSet.single .num) = TagSet.single .node from htype) (by decide)
  | str s => exact absurd (show (TagSet.single .str) = TagSet.single .node from htype) (by decide)
  | kind s => exact absurd (show (TagSet.single .kind) = TagSet.single .node from htype) (by decide)

namespace Builtin

/-- Argument types that fit are as many as the parameters. -/
lemma length_of_acceptsAll {params args : List ValueType} (h : acceptsAll params args = true) :
    args.length = params.length := by
  fun_induction acceptsAll params args with
  | case1 => rfl
  | case2 p ps a as ih =>
    rw [Bool.and_eq_true] at h
    simp [ih h.2]
  | case3 => cases h

/-- Where all parameters are single tags, data that fit have exactly the types of the parameters. -/
lemma eq_params_of_acceptsAll {tags : List Tag} {ds : List Datum}
    (h : acceptsAll (tags.map ValueType.of) (ds.map Datum.type) = true) :
    ds.map Datum.type = tags.map ValueType.of := by
  induction tags generalizing ds with
  | nil =>
    cases ds with
    | nil => rfl
    | cons d ds => cases h
  | cons t tags ih =>
    cases ds with
    | nil => cases h
    | cons d ds =>
      simp only [List.map_cons, acceptsAll, Bool.and_eq_true] at h
      simp [Datum.type_eq_of_compatible h.1, ih h.2]

end Builtin

/-! ## The table -/

namespace Builtins

/-- Whether parameters are single tags. -/
def hasSingleTags (b : Builtin) : Bool :=
  b.params.all fun p => Tag.all.any fun t => p == .of t

lemma exists_tags_of_hasSingleTags {b : Builtin} (h : hasSingleTags b = true) :
    ∃ tags : List Tag, b.params = tags.map ValueType.of := by
  unfold hasSingleTags at h
  generalize b.params = params at h
  induction params with
  | nil => exact ⟨[], rfl⟩
  | cons p ps ih =>
    rw [List.all_cons, Bool.and_eq_true] at h
    obtain ⟨t, -, ht⟩ := List.any_eq_true.1 h.1
    obtain ⟨tags, rfl⟩ := ih h.2
    exact ⟨t :: tags, by simp [beq_iff_eq.1 ht]⟩

/-- The rules of the standard table, read off its entries at once. -/
lemma standard_regular : (standard.entries.map fun b => (b.name, b.params)).Nodup ∧
    (∀ b ∈ standard.entries, hasSingleTags b = true ∧ b.opcode.isJump = false) ∧
    (∀ b ∈ standard.entries, ∀ c ∈ standard.entries, b.name = c.name → b.arity = c.arity →
      b.opcode = c.opcode) ∧
    ∀ symbol ∈ BinaryOp.all.map BinaryOp.symbol ++ [UnaryOp.neg.symbol, UnaryOp.not.symbol],
      (standard.overloads? symbol).isSome = true := by decide +kernel

lemma standard_nodup : standard.entries.Nodup := standard_regular.1.of_map _

lemma standard_singleTags : ∀ b ∈ standard.entries, hasSingleTags b = true :=
  fun b hb => (standard_regular.2.1 b hb).1

lemma standard_isJump : ∀ b ∈ standard.entries, b.opcode.isJump = false :=
  fun b hb => (standard_regular.2.1 b hb).2

lemma standard_arity : ∀ b ∈ standard.entries, ∀ c ∈ standard.entries, b.name = c.name →
    b.arity = c.arity → b.opcode = c.opcode :=
  standard_regular.2.2.1

lemma standard_params : ∀ b ∈ standard.entries, ∀ c ∈ standard.entries, b.name = c.name →
    b.params = c.params → b = c :=
  fun _ hb _ hc hname hparams =>
    List.inj_on_of_nodup_map standard_regular.1 hb hc (Prod.ext hname hparams)

/-- A standard builtin folds to what its opcode computes. -/
lemma standard_native : ∀ b ∈ standard.entries,
    b.native = b.opcode.operation?.map Operation.fold :=
  List.map_inj_left.1 rfl

lemma exists_operation_of_native {b : Builtin} (hb : b ∈ standard.entries) {native : Native}
    (h : b.native = some native) :
    ∃ operation, b.opcode.operation? = some operation ∧ native = operation.fold := by
  rw [standard_native b hb, Option.map_eq_some_iff] at h
  obtain ⟨operation, hop, rfl⟩ := h
  exact ⟨operation, hop, rfl⟩

lemma standard_operators (op : BinaryOp) : (standard.overloads? op.symbol).isSome = true :=
  standard_regular.2.2.2 _ (by cases op <;> decide)

lemma standard_unary_operators (op : UnaryOp) : (standard.overloads? op.symbol).isSome = true :=
  standard_regular.2.2.2 _ (by cases op <;> decide)

lemma overloads?_eq_some {t : Builtins} {name : String} {o : Overloads}
    (h : t.overloads? name = some o) :
    o.name = name ∧ o.candidates = t.entries.filter (·.name == name) := by
  unfold overloads? at h
  split at h
  · cases h
  · next heq =>
    cases h
    exact ⟨rfl, heq.symm⟩

end Builtins

/-! ## Resolution -/

namespace Overloads

/-- Overloads that the standard table holds under their name. -/
def Standard (o : Overloads) : Prop := Builtins.standard.overloads? o.name = some o

variable {o : Overloads} {b c : Builtin} {types : List ValueType} {ds : List Datum} {span : Span}

namespace Standard

lemma mem_candidates (h : o.Standard) (hb : b ∈ o.candidates) :
    b ∈ Builtins.standard.entries ∧ b.name = o.name := by
  rw [(Builtins.overloads?_eq_some h).2] at hb
  simpa using List.mem_filter.1 hb

/-- Overloads that fit the same argument types are interchangeable when it comes to code. -/
lemma opcode_eq_of_accepts (h : o.Standard) (hb : b ∈ o.candidates) (hc : c ∈ o.candidates)
    {types' : List ValueType} (hlen : types.length = types'.length) (hbt : b.accepts types = true)
    (hct : c.accepts types' = true) : b.opcode = c.opcode := by
  obtain ⟨hbmem, hbname⟩ := h.mem_candidates hb
  obtain ⟨hcmem, hcname⟩ := h.mem_candidates hc
  refine Builtins.standard_arity b hbmem c hcmem (hbname.trans hcname.symm) ?_
  have hbl := Builtin.length_of_acceptsAll hbt
  have hcl := Builtin.length_of_acceptsAll hct
  unfold Builtin.arity
  omega

/-- At most one overload fits the types of data. -/
lemma eq_of_accepts (h : o.Standard) (hb : b ∈ o.candidates) (hc : c ∈ o.candidates)
    (hbt : b.accepts (ds.map Datum.type) = true) (hct : c.accepts (ds.map Datum.type) = true) :
    b = c := by
  obtain ⟨hbmem, hbname⟩ := h.mem_candidates hb
  obtain ⟨hcmem, hcname⟩ := h.mem_candidates hc
  obtain ⟨btags, hbtags⟩ :=
    Builtins.exists_tags_of_hasSingleTags (Builtins.standard_singleTags b hbmem)
  obtain ⟨ctags, hctags⟩ :=
    Builtins.exists_tags_of_hasSingleTags (Builtins.standard_singleTags c hcmem)
  unfold Builtin.accepts at hbt hct
  rw [hbtags] at hbt
  rw [hctags] at hct
  refine Builtins.standard_params b hbmem c hcmem (hbname.trans hcname.symm) ?_
  rw [hbtags, hctags, ← Builtin.eq_params_of_acceptsAll hbt, ← Builtin.eq_params_of_acceptsAll hct]

/-- All overloads that fit have the opcode of the first. -/
lemma all_opcode_eq (h : o.Standard) {others : List Builtin}
    (heq : o.candidates.filter (·.accepts types) = b :: others) :
    others.all (·.opcode == b.opcode) = true := by
  have hfits : ∀ x ∈ b :: others, x ∈ o.candidates ∧ x.accepts types = true := by
    rw [← heq]
    intro x hx
    exact List.mem_filter.1 hx
  refine List.all_eq_true.2 fun c hc => ?_
  obtain ⟨hbmem, hbt⟩ := hfits b (List.mem_cons_self ..)
  obtain ⟨hcmem, hct⟩ := hfits c (List.mem_cons_of_mem _ hc)
  exact beq_iff_eq.2 (h.opcode_eq_of_accepts hcmem hbmem rfl hct hbt)

/-- A failed inference is the program's mistake. -/
lemma isFault_of_infer (h : o.Standard) {p : Problem} (hp : o.infer types span = .error p) :
    p.IsFault := by
  unfold infer at hp
  split at hp
  · cases hp
    trivial
  · next b others heq =>
    rw [if_pos (h.all_opcode_eq heq)] at hp
    cases hp

/-- A selection for data fails only where no overload fits; it is never ambiguous. -/
lemma eq_noOverload_of_select (h : o.Standard) {p : Problem}
    (hp : o.select (ds.map Datum.type) span = .error p) :
    p = (Fault.noOverload o.name (ds.map Datum.type)).atSpan span := by
  unfold select at hp
  have hfits : ∀ x ∈ o.candidates.filter (·.accepts (ds.map Datum.type)),
      x ∈ o.candidates ∧ x.accepts (ds.map Datum.type) = true := fun x hx => List.mem_filter.1 hx
  have hnodup : (o.candidates.filter (·.accepts (ds.map Datum.type))).Nodup := by
    rw [(Builtins.overloads?_eq_some h).2]
    exact (Builtins.standard_nodup.filter _).filter _
  generalize o.candidates.filter (·.accepts (ds.map Datum.type)) = fitting at hp hfits hnodup
  match fitting, hp with
  | [], hp =>
    cases hp
    rfl
  | [b], hp => cases hp
  | b :: c :: rest, _ =>
    obtain ⟨hbmem, hbt⟩ := hfits b (by simp)
    obtain ⟨hcmem, hct⟩ := hfits c (by simp)
    have heq := h.eq_of_accepts hbmem hcmem hbt hct
    subst heq
    simp at hnodup

/-- A failed selection for data is the program's mistake. -/
lemma isFault_of_select (h : o.Standard) {p : Problem}
    (hp : o.select (ds.map Datum.type) span = .error p) : p.IsFault := by
  rw [h.eq_noOverload_of_select hp]
  exact Fault.isFault_atSpan _ _

end Standard

lemma infer_eq_ok {t : ValueType} {op : Opcode} (h : o.infer types span = .ok (t, op)) :
    ∃ b ∈ o.candidates, b.accepts types = true ∧ b.opcode = op := by
  unfold infer at h
  split at h
  · cases h
  · next b others heq =>
    split at h
    · cases h
      have hb : b ∈ o.candidates.filter (·.accepts types) := by simp [heq]
      exact ⟨b, (List.mem_filter.1 hb).1, (List.mem_filter.1 hb).2, rfl⟩
    · cases h

lemma select_eq_ok (h : o.select types span = .ok b) :
    b ∈ o.candidates ∧ b.accepts types = true := by
  unfold select at h
  split at h
  · cases h
  · next c heq =>
    cases h
    have hb : b ∈ o.candidates.filter (·.accepts types) := by simp [heq]
    exact List.mem_filter.1 hb
  · cases h

/-- A folded application is folded by an overload that fits. -/
lemma fold_eq_some {d : Datum} (h : o.fold ds span = .ok (some d)) :
    ∃ b ∈ o.candidates, b.accepts (ds.map Datum.type) = true ∧
      ∃ native, b.native = some native ∧ native ds = .value d := by
  unfold fold at h
  cases hsel : o.select (ds.map Datum.type) span with
  | error p => simp [hsel, bind, Except.bind] at h
  | ok b =>
    obtain ⟨hmem, hfits⟩ := select_eq_ok hsel
    simp only [hsel, bind, Except.bind] at h
    split at h
    · cases h
    · next native hnative =>
      split at h
      · next d' hd =>
        cases h
        exact ⟨b, hmem, hfits, native, hnative, hd⟩
      · cases h
      · cases h

/-- With the standard builtins, that is by an operation. -/
lemma Standard.fold_eq_some (h : o.Standard) {d : Datum} (hfold : o.fold ds span = .ok (some d)) :
    ∃ b ∈ o.candidates, b.accepts (ds.map Datum.type) = true ∧
      ∃ operation, b.opcode.operation? = some operation ∧ operation.fold ds = .value d := by
  obtain ⟨b, hb, haccepts, native, hnative, hvalue⟩ := Overloads.fold_eq_some hfold
  obtain ⟨operation, hop, rfl⟩ :=
    Builtins.exists_operation_of_native (h.mem_candidates hb).1 hnative
  exact ⟨b, hb, haccepts, operation, hop, hvalue⟩

/-- A failed application to data is the program's mistake. -/
lemma Standard.isFault_of_fold (h : o.Standard) {p : Problem} (hp : o.fold ds span = .error p) :
    p.IsFault := by
  unfold fold at hp
  cases hsel : o.select (ds.map Datum.type) span with
  | error q =>
    simp only [hsel, bind, Except.bind] at hp
    cases hp
    exact h.isFault_of_select hsel
  | ok b =>
    simp only [hsel, bind, Except.bind] at hp
    split at hp
    · cases hp
    · split at hp
      · cases hp
      · cases hp
      · cases hp
        trivial

lemma isFault_of_checkArity {arity : Nat} {p : Problem}
    (h : o.checkArity arity span = .error p) : p.IsFault := by
  unfold checkArity at h
  split at h
  · cases h
  · cases h
    trivial

end Overloads

/-! ## Resolution of names -/

namespace Job

variable {job : Job} {o : Overloads}

lemma operator_eq_ok_iff {symbol : String} :
    job.operator symbol = .ok o ↔ job.builtins.overloads? symbol = some o := by
  unfold operator
  split
  · next heq => simp [heq, pure, Except.pure]
  · next heq => simp [heq, throw, throwThe, MonadExceptOf.throw]

lemma overloads?_of_callee {name : Ident} (h : job.callee name = .ok (.builtin o)) :
    job.builtins.overloads? name.name = some o := by
  unfold callee at h
  split at h
  · next heq =>
    cases h
    exact heq
  · split at h <;> cases h

lemma isFault_of_callee {name : Ident} {p : Problem} (h : job.callee name = .error p) :
    p.IsFault := by
  unfold callee at h
  split at h
  · cases h
  · split at h
    · cases h
    · cases h
      trivial

lemma enterFunction_eq_ok {entered : List String} {d : FunctionDef} {mem : d ∈ job.file.functions}
    {span : Span} {g : Inlinable job entered} (h : enterFunction d mem span = .ok g) :
    ∃ hnew : d.ident.name ∉ entered, g = ⟨d, mem, hnew⟩ := by
  unfold enterFunction at h
  split at h
  · cases h
  · next hnew =>
    cases h
    exact ⟨hnew, rfl⟩

lemma isFault_of_enterFunction {entered : List String} {d : FunctionDef}
    {mem : d ∈ job.file.functions} {span : Span} {p : Problem}
    (h : (enterFunction d mem span : Except Problem (Inlinable job entered)) = .error p) :
    p.IsFault := by
  unfold enterFunction at h
  split at h
  · cases h
    trivial
  · cases h

/-- Overloads that a job with the standard builtins resolves to. -/
lemma standard_of_overloads? (hstd : job.builtins = .standard) {name : String}
    (h : job.builtins.overloads? name = some o) : o.Standard := by
  have hname := (Builtins.overloads?_eq_some h).1
  unfold Overloads.Standard
  rw [hname, ← hstd, h]

lemma not_error_of_binary (hstd : job.builtins = .standard) {op : BinaryOp} {p : Problem} :
    job.operator op.symbol ≠ .error p := by
  intro h
  obtain ⟨o, ho⟩ := Option.isSome_iff_exists.1 (Builtins.standard_operators op)
  rw [operator_eq_ok_iff.2 (hstd ▸ ho)] at h
  cases h

lemma not_error_of_unary (hstd : job.builtins = .standard) {op : UnaryOp} {p : Problem} :
    job.operator op.symbol ≠ .error p := by
  intro h
  obtain ⟨o, ho⟩ := Option.isSome_iff_exists.1 (Builtins.standard_unary_operators op)
  rw [operator_eq_ok_iff.2 (hstd ▸ ho)] at h
  cases h

lemma standard_of_operator (hstd : job.builtins = .standard) {symbol : String}
    (h : job.operator symbol = .ok o) : o.Standard :=
  standard_of_overloads? hstd (operator_eq_ok_iff.1 h)

lemma standard_of_callee (hstd : job.builtins = .standard) {name : Ident}
    (h : job.callee name = .ok (.builtin o)) : o.Standard :=
  standard_of_overloads? hstd (overloads?_of_callee h)

end Job

end Arbor
