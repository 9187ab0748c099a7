import Arbor.Compilation
import Arbor.Proofs.Compilation.Discipline
import Arbor.Proofs.Emission.Additive

/-!
# The constants of an object

The constant pool of an object holds what its code refers to, and nothing else.  Its mappings are
compiled one after the other on the same pool, so if their code is read in the same order, the
entries of the pool are met in order too.

* `Code.constantOperands`: the references of encoded code, in order.
* `Job.constants_of_compile`: their first occurrences are the indices of the pool.
-/

namespace Arbor

open Step

namespace Code

/-- The operands of the instructions that refer to constants, in order. -/
def constantOperands : List UInt8 → List Nat
  | byte :: operand :: rest =>
    if (Opcode.ofByte? byte).any (·.readsConstant) then operand.toNat :: constantOperands rest
    else constantOperands rest
  | _ => []

/-- Kinds and attributes are named by strings of the pool. -/
def NamedIn (constants : List Constant) (bytes : List UInt8) : Prop :=
  ∀ {i : Nat} {op : Opcode} {b : UInt8}, fetch? bytes i = some (op, b) → op = .kind ∨ op = .attr →
    ∃ text, constants[b.toNat]? = some (.str text)

lemma NamedIn.mono {constants constants' : List Constant} {bytes : List UInt8}
    (h : NamedIn constants bytes) (hpre : constants <+: constants') : NamedIn constants' bytes := by
  intro i op b hfetch hop
  obtain ⟨text, htext⟩ := h hfetch hop
  exact ⟨text, getElem?_of_isPrefix hpre htext⟩

/-- The bytes of code refer to the same constants as its instructions. -/
lemma constantOperands_encode {n : Nat} {is : List Instruction} {bytes : List UInt8}
    (h : encode n is = .ok bytes) : constantOperands bytes = references is := by
  induction is generalizing n bytes with
  | nil =>
    cases h
    rfl
  | cons inst is ih =>
    obtain ⟨b, rest, hinst, hrest, rfl⟩ := encode_cons_eq_ok h
    have hread : references (inst :: is) = inst.reference?.toList ++ references is := by
      rw [references, List.filterMap_cons]
      cases inst.reference? <;> rfl
    rw [constantOperands, ih hrest, hread, Opcode.ofByte?_byte, hinst, Option.any_some]
    by_cases hop : inst.opcode.readsConstant = true
    · simp [Instruction.reference?, hop]
    · simp [Instruction.reference?, hop]

/-- The head of a loop refers to no constant. -/
lemma Indexes.loopStart {before : List Nat} {is : List Instruction} {pool : Pool Constant}
    (h : Indexes before is pool) (iter item : UInt8) :
    Indexes before (loopStart is iter item) pool := by
  unfold Code.loopStart
  iterate 6 refine Indexes.snoc ?_ rfl rfl
  exact h

end Code

open Code

/-! ## One mapping -/

/-- What is written refers to the constants that are added. -/
structure Output.Completes (o o' : Output) : Prop where
  constants : o.constants.entries <+: o'.constants.entries
  indexes : ∀ before, Indexes before o.instructions o.constants →
    Indexes before o'.instructions o'.constants

lemma additive_completes : Additive Output.Completes where
  refl _ := ⟨List.prefix_rfl, fun _ h => h⟩
  trans _ _ _ _ h h' :=
    ⟨h.constants.trans h'.constants, fun before hi => h'.indexes before (h.indexes before hi)⟩
  add _ _ hconst h := by
    refine ⟨h.constants, fun before hi => (h.indexes before hi).snoc ?_ ?_⟩
    · exact Instruction.reference?_eq_none hconst
    · exact Opcode.readsName_of_readsConstant hconst
  addConstant hop hname hindex h :=
    ⟨h.constants.trans (Pool.entries_isPrefix_intern _ _),
      fun before hi => (h.indexes before hi).intern hop hname hindex⟩
  hold hop h := by
    refine ⟨h.constants, fun before hi => (h.indexes before hi).snoc rfl ?_⟩
    exact Opcode.readsName_of_readsConstant
      (Opcode.readsConstant_of_isJump (Opcode.isJump_of_isForwardJump hop))
  patch hclip h := ⟨h.constants, fun before hi => (h.indexes before hi).patch hclip⟩
  close _ _ h hbody _ _ _ hclip := by
    refine ⟨h.constants.trans hbody.constants, fun before hi => ?_⟩
    have hround := hbody.indexes before ((h.indexes before hi).loopStart _ _)
    exact (hround.snoc rfl rfl).patch hclip

namespace Job

variable {job : Job}

/-- The references of a mapping, after those of the mappings before it, complete the pool. -/
lemma completes_of_compileMapping (hstd : job.builtins = .standard) {m : MappingDef}
    {constants constants' : Pool Constant} {bytes : List UInt8}
    (h : job.compileMapping m constants = .ok bytes constants') {before : List Nat}
    (hbefore : before.eraseDups = List.range constants.entries.length) :
    constants.entries <+: constants'.entries ∧ NamedIn constants'.entries bytes ∧
      (before ++ constantOperands bytes).eraseDups = List.range constants'.entries.length := by
  obtain ⟨σ, hemits, rfl⟩ := exists_emitsMapping hstd h
  obtain ⟨hpre, hindexes⟩ := hemits.additive additive_completes hstd
  have hstart : Indexes before [] constants := by
    refine ⟨by simpa [references] using hbefore, ?_⟩
    intro op b hmem
    cases hmem
  obtain ⟨horder, hnames⟩ := hindexes before hstart
  obtain ⟨-, -, -, hbuild⟩ := hemits
  refine ⟨hpre, ?_, ?_⟩
  · intro i op b hfetch hop
    refine hnames (List.mem_of_getElem? ((fetch?_eq_some_iff hbuild).1 hfetch)) ?_
    rcases hop with rfl | rfl <;> rfl
  · rw [constantOperands_encode hbuild]
    exact horder

/-! ## All mappings -/

lemma ensures_compileMapping (hstd : job.builtins = .standard) (m : MappingDef)
    {constants : Pool Constant} {before : List Nat}
    (hbefore : before.eraseDups = List.range constants.entries.length) :
    Ensures (job.compileMapping m) constants
      (fun bytes constants' => constants.entries <+: constants'.entries ∧
        NamedIn constants'.entries bytes ∧
        (before ++ constantOperands bytes).eraseDups = List.range constants'.entries.length)
      fun _ _ => True := by
  unfold Ensures
  split
  · next hok => exact completes_of_compileMapping hstd hok hbefore
  · trivial

/-- The references of mappings, in order, complete the pool. -/
lemma completes_compileEach (hstd : job.builtins = .standard) (labels : Pool String)
    (ms : List MappingDef) {constants : Pool Constant} {before : List Nat}
    (hbefore : before.eraseDups = List.range constants.entries.length) :
    Ensures (job.compileEach labels ms) constants
      (fun mappings constants' => constants.entries <+: constants'.entries ∧
        (∀ m ∈ mappings, NamedIn constants'.entries m.code) ∧
        (before ++ mappings.flatMap fun m => constantOperands m.code).eraseDups
          = List.range constants'.entries.length)
      fun _ _ => True := by
  induction ms generalizing constants before with
  | nil => exact ensures_pure ⟨List.prefix_rfl, by simp, by simpa using hbefore⟩
  | cons m ms ih =>
    refine ensures_lift_bind (fun _ _ => trivial) fun _ _ => ?_
    refine (ensures_compileMapping hstd m hbefore).bind (fun _ _ _ => trivial) ?_
    rintro bytes constants₁ ⟨hpre, hnamed, horder⟩
    refine (ih horder).bind (fun _ _ _ => trivial) ?_
    rintro mappings constants₂ ⟨hpre', hnamed', horder'⟩
    refine ensures_pure ⟨hpre.trans hpre', ?_, ?_⟩
    · rw [List.forall_mem_cons]
      exact ⟨hnamed.mono hpre', hnamed'⟩
    · rw [List.flatMap_cons, ← List.append_assoc]
      exact horder'

lemma completes_compileMappings (hstd : job.builtins = .standard) (labels : Pool String) :
    Ensures (job.compileMappings labels) {}
      (fun mappings constants => (∀ m ∈ mappings, NamedIn constants.entries m.code) ∧
        (mappings.flatMap fun m => constantOperands m.code).eraseDups
          = List.range constants.entries.length)
      fun _ _ => True := by
  unfold compileMappings
  dsimp only
  split
  · exact ensures_throw trivial
  · split
    · exact ensures_throw trivial
    · have hnil : ([] : List Nat).eraseDups = List.range ({} : Pool Constant).entries.length := rfl
      have heach := completes_compileEach hstd labels job.file.mappings hnil
      exact heach.mono (fun _ _ h => h.2) fun _ _ h => h

/-- **The constants of an object are those its code refers to, in order of first reference.**  No
constant is there twice, and reading the references of all mappings in order, the first occurrences
are the indices of the pool, from the first to the last.  Kinds and attributes are named by
strings. -/
theorem constants_of_compile (hstd : job.builtins = .standard) {object : Object}
    (h : job.compile = .ok object) :
    object.constants.Nodup ∧
      (object.mappings.flatMap fun m => constantOperands m.code).eraseDups
        = List.range object.constants.length ∧
      ∀ m ∈ object.mappings, NamedIn object.constants m.code := by
  unfold compile at h
  split at h
  · cases h
  · next labels _ =>
    split at h
    · cases h
    · next mappings constants hmaps =>
      cases h
      obtain ⟨hnamed, horder⟩ := (completes_compileMappings hstd labels).of_ok hmaps
      exact ⟨constants.nodup, horder, hnamed⟩

/-- A mapping that refers to an attribute and a number. -/
def weighMapping : MappingDef where
  ident := ⟨"weigh", .nowhere⟩
  labels := []
  body :=
    [.ret (some (.binary .add (.attr ⟨"root", .nowhere⟩ ⟨"weight", .nowhere⟩ .nowhere)
      (.literal (.number (.int 1000)) .nowhere) .nowhere))]

/-- A mapping that refers to a kind and to the same number. -/
def listMapping : MappingDef where
  ident := ⟨"list", .nowhere⟩
  labels := []
  body :=
    [.ret (some (.list [.literal (.kind "leaf") .nowhere, .literal (.number (.int 1000)) .nowhere]
      .nowhere))]

/-- A job with both. -/
def ofWeigh : Job where
  file :=
    ⟨[.main ⟨⟨"main", .nowhere⟩, .all, []⟩, .mapping weighMapping, .mapping listMapping], []⟩

/-- The number is the second constant.  Both mappings refer to it, and it is there once. -/
theorem constants_ofWeigh :
    ∃ object, ofWeigh.compile = .ok object ∧
      (object.mappings.flatMap fun m => constantOperands m.code) = [0, 1, 2, 1] ∧
      object.constants.Nodup ∧
      (object.mappings.flatMap fun m => constantOperands m.code).eraseDups
        = List.range object.constants.length ∧
      ∀ m ∈ object.mappings, NamedIn object.constants m.code := by
  have hcompile : ofWeigh.compile =
      .ok ⟨Object.currentVersion, .node .all [],
        [.str "weight", .number (.int 1000), .str "leaf"],
        [⟨"weigh", [], [2, 0, 4, 0, 0, 1, 16, 0]⟩,
          ⟨"list", [], [7, 0, 3, 2, 8, 0, 0, 1, 8, 0]⟩]⟩ := by
    decide +kernel
  exact ⟨_, hcompile, by decide, constants_of_compile rfl hcompile⟩

end Job

end Arbor
