import Arbor.Object.Constant
import Arbor.Proofs.Code.Patch

/-!
# References to constants

Some instructions refer to an entry of the constant pool: a constant, the name of a kind or that of
an attribute.  When such an instruction is added, its constant is interned, so a constant that is
new becomes the last entry.  Reading the references of code from its start, one therefore meets the
entries of the pool one after the other, each for the first time when all before it have been met.

* `Code.references`: the references of code, in order.
* `Code.Indexes before is pool`: these references, after those in `before`, introduce the entries of
  the pool in order, and names are strings.
* `Code.Indexes.intern` and `Code.Indexes.patch`: adding a reference and pointing a jump at the end
  keep it so.
-/

namespace Arbor

/-! ## References -/

namespace Opcode

/-- Whether the operand of an opcode is the index of a constant. -/
def readsConstant : Opcode → Bool
  | .const | .kind | .attr => true
  | _ => false

/-- Whether the operand of an opcode is the index of a name. -/
def readsName : Opcode → Bool
  | .kind | .attr => true
  | _ => false

lemma isJump_of_readsConstant {op : Opcode} (h : op.readsConstant = true) : op.isJump = false := by
  cases op <;> first | rfl | cases h

lemma readsConstant_of_isJump {op : Opcode} (h : op.isJump = true) : op.readsConstant = false := by
  cases op <;> first | rfl | cases h

lemma readsName_of_readsConstant {op : Opcode} (h : op.readsConstant = false) :
    op.readsName = false := by
  cases op <;> first | rfl | cases h

lemma isForwardJump_of_readsName {op : Opcode} (h : op.readsName = true) :
    op.isForwardJump = false := by
  cases op <;> first | rfl | cases h

end Opcode

/-- The index of the constant that an instruction refers to. -/
def Instruction.reference? (inst : Instruction) : Option Nat :=
  match inst.operand with
  | .byte b => if inst.opcode.readsConstant then some b.toNat else none
  | .pending => none

namespace Instruction

variable {inst : Instruction}

lemma reference?_eq_none (h : inst.opcode.readsConstant = false) : inst.reference? = none := by
  obtain ⟨op, operand⟩ := inst
  cases operand with
  | byte b => simp [reference?, show op.readsConstant = false from h]
  | pending => rfl

lemma reference?_of_isForwardJump (h : inst.opcode.isForwardJump = true) : inst.reference? = none :=
  reference?_eq_none (Opcode.readsConstant_of_isJump (Opcode.isJump_of_isForwardJump h))

end Instruction

namespace Code

variable {is is' : List Instruction} {a : Nat}

/-- The constants that code refers to, by index and in order. -/
def references (is : List Instruction) : List Nat := is.filterMap Instruction.reference?

lemma references_snoc (is : List Instruction) (inst : Instruction) :
    references (is ++ [inst]) = references is ++ inst.reference?.toList := by
  rw [references, List.filterMap_append]
  cases h : inst.reference? with
  | none => simp [references, h]
  | some i => simp [references, h]

lemma references_snoc_of_none {inst : Instruction} (h : inst.reference? = none) :
    references (is ++ [inst]) = references is := by
  rw [references_snoc, h, Option.toList_none, List.append_nil]

/-- What is filtered from a list depends only on what is found at each index. -/
lemma filterMap_eq_of_getElem?_bind {α β : Type} {f : α → Option β} {xs ys : List α}
    (h : ∀ i : Nat, xs[i]?.bind f = ys[i]?.bind f) : xs.filterMap f = ys.filterMap f := by
  induction xs generalizing ys with
  | nil =>
    symm
    refine List.filterMap_eq_nil_iff.2 fun y hy => ?_
    obtain ⟨i, hi⟩ := List.mem_iff_getElem?.1 hy
    simpa [hi] using (h i).symm
  | cons x xs ih =>
    cases ys with
    | nil =>
      refine List.filterMap_eq_nil_iff.2 fun y hy => ?_
      obtain ⟨i, hi⟩ := List.mem_iff_getElem?.1 hy
      have hnone := h i
      rw [hi] at hnone
      simpa using hnone
    | cons y ys =>
      have hhead : f x = f y := h 0
      have htail : xs.filterMap f = ys.filterMap f := ih fun i => h (i + 1)
      rw [List.filterMap_cons, List.filterMap_cons, hhead, htail]

/-- Clipping only takes away jumps, which refer to no constant. -/
lemma Clips.references_eq (h : Clips a is is') : references is' = references is := by
  refine filterMap_eq_of_getElem?_bind fun i => ?_
  cases hi : is[i]? with
  | none =>
    have hnone : is'[i]? = none :=
      List.getElem?_eq_none (Nat.le_trans h.length_le (List.getElem?_eq_none_iff.1 hi))
    rw [hnone]
  | some inst =>
    by_cases hop : inst.opcode.isForwardJump = true
    · rw [Option.bind_some, Instruction.reference?_of_isForwardJump hop, Option.bind_eq_none_iff]
      intro inst' hinst'
      rcases h.cases_getElem? hinst' with ⟨hsame, -⟩ | ⟨op, t, hleads, ⟨-, -, rfl⟩ | ⟨b, rfl, -⟩⟩
      · rw [hi] at hsame
        cases hsame
        exact Instruction.reference?_of_isForwardJump hop
      · rfl
      · exact Instruction.reference?_of_isForwardJump hleads.1
    · rw [h.plain hi (by simpa using hop)]

/-! ## Pools in order of reference -/

/-- After the references in `before`, those of the code complete the pool: the first of each are its
indices in order.  Where a name is expected, there is a string. -/
structure Indexes (before : List Nat) (is : List Instruction) (pool : Pool Constant) : Prop where
  order : (before ++ references is).eraseDups = List.range pool.entries.length
  names : ∀ {op : Opcode} {b : UInt8}, ⟨op, .byte b⟩ ∈ is → op.readsName = true →
    ∃ text, pool.entries[b.toNat]? = some (.str text)

variable {before : List Nat} {pool : Pool Constant}

/-- One more instruction that refers to no constant. -/
lemma Indexes.snoc (h : Indexes before is pool) {inst : Instruction} (hno : inst.reference? = none)
    (hname : inst.opcode.readsName = false) : Indexes before (is ++ [inst]) pool where
  order := by rw [references_snoc_of_none hno, h.order]
  names := by
    intro op b hmem hop
    rcases List.mem_append.1 hmem with hold | hnew
    · exact h.names hold hop
    · rw [← List.mem_singleton.1 hnew] at hname
      rw [hop] at hname
      cases hname

/-- Interning a constant gives the next index, or one that has been referred to before. -/
lemma eraseDups_snoc_intern {refs : List Nat} (h : refs.eraseDups = List.range pool.entries.length)
    (c : Constant) :
    (refs ++ [(pool.intern c).1]).eraseDups = List.range (pool.intern c).2.entries.length := by
  have hmem : ∀ i, i ∈ refs ↔ i < pool.entries.length := by
    intro i
    rw [← List.mem_eraseDups, h, List.mem_range]
  rw [List.eraseDups_append, h]
  by_cases hc : c ∈ pool.entries
  · have hold : pool.entries.idxOf c ∈ refs := (hmem _).2 (List.idxOf_lt_length_of_mem hc)
    simp [Pool.intern, hc, List.removeAll, hold]
  · have hnew : pool.entries.length ∉ refs := fun hin => Nat.lt_irrefl _ ((hmem _).1 hin)
    simp [Pool.intern, hc, List.removeAll, hnew, Pool.push, List.range_succ, List.eraseDups_cons]

/-- One more instruction that refers to a constant, which has been interned. -/
lemma Indexes.intern (h : Indexes before is pool) {op : Opcode} (hop : op.readsConstant = true)
    {c : Constant} (hname : op.readsName = true → ∃ text, c = .str text)
    (hindex : (pool.intern c).1 < 256) :
    Indexes before (is ++ [⟨op, .byte (UInt8.ofNat (pool.intern c).1)⟩]) (pool.intern c).2 := by
  have hbyte : (UInt8.ofNat (pool.intern c).1).toNat = (pool.intern c).1 := by
    rw [UInt8.toNat_ofNat']
    exact Nat.mod_eq_of_lt hindex
  constructor
  · have href : (Instruction.mk op (.byte (UInt8.ofNat (pool.intern c).1))).reference?
        = some (pool.intern c).1 := by
      simp [Instruction.reference?, hop, hbyte]
    rw [references_snoc, href, Option.toList_some, ← List.append_assoc]
    exact eraseDups_snoc_intern h.order c
  · intro op' b hmem hop'
    rcases List.mem_append.1 hmem with hold | hnew
    · obtain ⟨text, htext⟩ := h.names hold hop'
      exact ⟨text, getElem?_of_isPrefix (Pool.entries_isPrefix_intern _ _) htext⟩
    · rw [List.mem_singleton] at hnew
      cases hnew
      obtain ⟨text, rfl⟩ := hname hop'
      exact ⟨text, by rw [hbyte, Pool.getElem?_intern]⟩

/-- Pointing a jump at the end. -/
lemma Indexes.patch (h : Indexes before is pool) (hclip : Clips a is is') :
    Indexes before is' pool where
  order := by rw [hclip.references_eq, h.order]
  names := by
    intro op b hmem hop
    obtain ⟨i, hi⟩ := List.mem_iff_getElem?.1 hmem
    rcases hclip.cases_getElem? hi with ⟨hold, -⟩ | ⟨op', t, hleads, ⟨-, -, hdrop⟩ | ⟨d, hjump, -⟩⟩
    · exact h.names (List.mem_of_getElem? hold) hop
    · cases hdrop
      cases hop
    · cases hjump
      have hno := Opcode.isForwardJump_of_readsName hop
      rw [hleads.1] at hno
      cases hno

end Code

end Arbor
