import Arbor.Proofs.Emission.Mappings
import Arbor.Proofs.Emission.Typing

/-!
# The stack discipline of mappings

Code is followed here as the machine that runs it sees it: byte by byte, from the first instruction
with an empty stack, along all paths that conditional jumps may take.  The code of a mapping keeps a
discipline on all of them.  Operands are always there, each instruction is met with one depth of the
stack only, and at the end there is one value or none.

* `Code.Reaches`: how runs go on.
* `Job.stackDiscipline_of_compileMapping`: the discipline.
-/

namespace Arbor

namespace Code

/-- The instruction at an index of a byte string. -/
def fetch? (bytes : List UInt8) (index : Nat) : Option (Opcode × UInt8) :=
  match bytes[2 * index]?, bytes[2 * index + 1]? with
  | some byte, some operand => (Opcode.ofByte? byte).map (·, operand)
  | _, _ => none

/-- From the first instruction and an empty stack, some path leads to an index of the code, with a
number of values on the stack. -/
inductive Reaches (bytes : List UInt8) : Nat → Nat → Prop
  | start : Reaches bytes 0 0
  | step {i depth t : Nat} {op : Opcode} {operand : UInt8} (h : Reaches bytes i depth)
      (hfetch : fetch? bytes i = some (op, operand)) (ht : t ∈ op.successors i operand) :
      Reaches bytes t (depth - op.pops + op.pushes)

/-! ## Encoded code -/

variable {is : List Instruction} {bytes : List UInt8} {n : Nat}

/-- The bytes of code are read back as its instructions. -/
lemma fetch?_encode (h : encode n is = .ok bytes) {i : Nat} {inst : Instruction}
    (hi : is[i]? = some inst) :
    ∃ b, inst = ⟨inst.opcode, .byte b⟩ ∧ fetch? bytes i = some (inst.opcode, b) := by
  induction is generalizing n bytes i with
  | nil => cases hi
  | cons first is ih =>
    obtain ⟨b, rest, hfirst, hrest, rfl⟩ := encode_cons_eq_ok h
    cases i with
    | zero =>
      cases hi
      exact ⟨b, hfirst, by simp [fetch?]⟩
    | succ i =>
      obtain ⟨b', hinst, hfetch⟩ := ih hrest hi
      exact ⟨b', hinst, hfetch⟩

/-- Past the instructions there is nothing to fetch. -/
lemma fetch?_eq_none (h : encode n is = .ok bytes) {i : Nat} (hi : is.length ≤ i) :
    fetch? bytes i = none := by
  have hlength := length_encode h
  have hnone : bytes[2 * i]? = none := List.getElem?_eq_none (by omega)
  simp [fetch?, hnone]

lemma fetch?_length_encode (h : encode n is = .ok bytes) : fetch? bytes is.length = none :=
  fetch?_eq_none h (Nat.le_refl _)

/-- What is fetched from the bytes of code are its instructions. -/
lemma fetch?_eq_some_iff (h : encode n is = .ok bytes) {i : Nat} {op : Opcode} {b : UInt8} :
    fetch? bytes i = some (op, b) ↔ is[i]? = some ⟨op, .byte b⟩ := by
  by_cases hi : i < is.length
  · have hinst := List.getElem?_eq_getElem hi
    obtain ⟨c, heq, hfetch⟩ := fetch?_encode h hinst
    rw [hfetch, hinst, heq]
    simp
  · rw [fetch?_eq_none h (Nat.le_of_not_lt hi), List.getElem?_eq_none (Nat.le_of_not_lt hi)]
    simp

/-- Every path through typed code meets the annotation. -/
lemma Reaches.arrives {A : Annotation} {s : Shape} {E : Shape → Prop} {X : Nat → Shape → Prop}
    {i depth : Nat} (hbytes : encode n is = .ok bytes) (hA : Types A 0 s is E X) (hs : s.depth = 0)
    (h : Reaches bytes i depth) : ∃ u : Shape, u.depth = depth ∧ Arrives 0 A E is.length i u := by
  induction h with
  | start => exact ⟨s, hs, hA.entry s.fits_refl⟩
  | @step i depth t op operand _ hfetch ht ih =>
    obtain ⟨u, rfl, ⟨rfl, -⟩ | ⟨hlo, hlt, u', hu', hfits⟩⟩ := ih
    · rw [fetch?_length_encode hbytes] at hfetch
      cases hfetch
    · have hinst := List.getElem?_eq_getElem hlt
      obtain ⟨b, heq, hfetch'⟩ := fetch?_encode hbytes hinst
      obtain ⟨rfl, rfl⟩ : op = is[i].opcode ∧ operand = b := by
        rw [hfetch'] at hfetch
        cases hfetch
        exact ⟨rfl, rfl⟩
      rw [heq] at hinst
      refine ⟨_, ?_, hA.arrives hlo hinst hu' t ht⟩
      simp [Shape.after, hfits.1]

end Code

open Code

/-- The code of a mapping is typed, from an empty stack and nothing written but the slot of the
root, to one value or none. -/
lemma EmitsMapping.typed_start {job : Job} (hstd : job.builtins = .standard) {m : MappingDef}
    {constants : Pool Constant} {bytes : List UInt8} {σ : EmitState}
    (h : EmitsMapping job m constants bytes σ) :
    ∃ X, Typed 0 ⟨0, {0}⟩ σ.code.instructions (fun t => t.depth ≤ 1) X := by
  obtain ⟨hbody, hframe, hpatch, -⟩ := h
  have hsound := EmitState.sound_start constants
  have hproceeds : EmitState.Proceeds _ _ := hbody.effect hstd hsound trivial
  obtain ⟨frame', hframe', hgrown⟩ := hproceeds.exists_single
  obtain rfl : frame' = _ := List.singleton_inj.1 (hframe'.symm.trans hframe)
  -- The slot of the root has been written.
  let s : Shape := ⟨0, {0}⟩
  have hcovers : s.Covers (EmitState.start constants).scopes := by
    intro slot hslot
    simpa [EmitState.start, Scopes.slots, Scope.slots, Binding.slot?, s] using hslot
  obtain ⟨s', hfits, -, htyped⟩ := hbody.shaped hstd hsound trivial s hcovers
  have hend := htyped.mono (fun t ht => Nat.le_succ_of_le (Nat.le_of_eq (ht.2.1.trans hfits.1)))
    fun i t _ _ hX => hX
  refine ⟨s.Returns, Emit.typed_patchAll hgrown linked_nil hpatch hend ?_ ?_⟩
  · intro u u' hu hle
    exact hu.1 ▸ hle
  · intro i t ht
    exact Nat.le_of_eq ht.1

lemma EmitsMapping.typed {job : Job} (hstd : job.builtins = .standard) {m : MappingDef}
    {constants : Pool Constant} {bytes : List UInt8} {σ : EmitState}
    (h : EmitsMapping job m constants bytes σ) :
    ∃ s X, s.depth = 0 ∧ Typed 0 s σ.code.instructions (fun t => t.depth ≤ 1) X := by
  obtain ⟨X, htyped⟩ := h.typed_start hstd
  exact ⟨_, X, rfl, htyped⟩

namespace Job

/-- **Mappings keep a stack discipline.**  Every path through the code of a mapping is at its end,
with at most one value on the stack, or at an instruction that finds its operands there, and no path
gets to the same instruction with another depth of the stack. -/
theorem stackDiscipline_of_compileMapping {job : Job} (hstd : job.builtins = .standard)
    {m : MappingDef} {constants constants' : Pool Constant} {bytes : List UInt8}
    (h : job.compileMapping m constants = .ok bytes constants') {i depth : Nat}
    (hreach : Reaches bytes i depth) :
    (2 * i = bytes.length ∧ depth ≤ 1) ∨
      ∃ op operand, fetch? bytes i = some (op, operand) ∧ op.pops ≤ depth ∧
        ∀ depth', Reaches bytes i depth' → depth' = depth := by
  obtain ⟨σ, hemits⟩ := emitsMapping_of_compileMapping hstd h
  obtain ⟨s, X, hs, A, hA⟩ := hemits.typed hstd
  obtain ⟨-, -, -, hbuild⟩ := hemits
  have hbytes : encode 0 σ.code.instructions = .ok bytes := hbuild
  obtain ⟨u, rfl, ⟨rfl, hend⟩ | ⟨hlo, hlt, u', hu', hfits⟩⟩ := hreach.arrives hbytes hA hs
  · exact .inl ⟨(length_encode hbytes).symm, hend⟩
  · have hinst := List.getElem?_eq_getElem hlt
    obtain ⟨b, -, hfetch⟩ := fetch?_encode hbytes hinst
    refine .inr ⟨_, b, hfetch, hfits.1 ▸ (hA.enables hlo hinst hu').1, fun depth' hreach' => ?_⟩
    obtain ⟨v, rfl, ⟨rfl, -⟩ | ⟨-, -, v', hv', hfits'⟩⟩ := hreach'.arrives hbytes hA hs
    · exact absurd hlt (Nat.lt_irrefl _)
    · cases hu'.symm.trans hv'
      exact hfits'.1.trans hfits.1.symm

/-- A function that returns in two places. -/
def pickDef : FunctionDef where
  ident := ⟨"pick", .nowhere⟩
  params := [⟨"flag", .nowhere⟩]
  body :=
    [.ifThen (.ref ⟨"flag", .nowhere⟩ .nowhere)
        [.ret (some (.literal (.number (.int 1)) .nowhere))],
      .ret (some (.literal (.number (.int 2)) .nowhere))]

/-- A mapping that calls the function in the middle of an expression. -/
def pickMapping : MappingDef where
  ident := ⟨"sum", .nowhere⟩
  labels := []
  body :=
    [.ret (some (.binary .add (.literal (.number (.int 10)) .nowhere)
      (.call ⟨"pick", .nowhere⟩ [.attr ⟨"root", .nowhere⟩ ⟨"ready", .nowhere⟩ .nowhere] .nowhere
        .nowhere) .nowhere))]

/-- A job with both. -/
def ofPick : Job where
  file := ⟨[.function pickDef, .mapping pickMapping], []⟩

/-- The addition is the tenth instruction.  It is met by the path that jumps over the first return,
with both of its operands on the stack. -/
theorem stackDiscipline_ofPick :
    ∃ bytes constants, ofPick.compileMapping pickMapping {} = .ok bytes constants ∧
      Reaches bytes 9 2 ∧ ((2 * 9 = bytes.length ∧ 2 ≤ 1) ∨
        ∃ op operand, fetch? bytes 9 = some (op, operand) ∧ op.pops ≤ 2 ∧
          ∀ depth', Reaches bytes 9 depth' → depth' = 2) := by
  let bytes : List UInt8 := [50, 10, 2, 0, 4, 0, 1, 1, 2, 1, 65, 2, 50, 1, 64, 1, 50, 2, 16, 0]
  have hcompile : ofPick.compileMapping pickMapping {} =
      .ok [50, 10, 2, 0, 4, 0, 1, 1, 2, 1, 65, 2, 50, 1, 64, 1, 50, 2, 16, 0]
        ⟨[.str "ready"], by decide⟩ := by
    decide +kernel
  have hstep : ∀ {i depth : Nat} (t : Nat) (op : Opcode) (b : UInt8), Reaches bytes i depth →
      fetch? bytes i = some (op, b) → t ∈ op.successors i b →
      Reaches bytes t (depth - op.pops + op.pushes) := fun _ _ _ => .step
  have hnumber : Reaches bytes 1 1 := hstep 1 .pushInt 10 .start rfl (by decide)
  have hroot : Reaches bytes 2 2 := hstep 2 .load 0 hnumber rfl (by decide)
  have hattr : Reaches bytes 3 2 := hstep 3 .attr 0 hroot rfl (by decide)
  have hparam : Reaches bytes 4 1 := hstep 4 .store 1 hattr rfl (by decide)
  have hcond : Reaches bytes 5 2 := hstep 5 .load 1 hparam rfl (by decide)
  have hskip : Reaches bytes 8 1 := hstep 8 .jumpUnless 2 hcond rfl (by decide)
  have hreach : Reaches bytes 9 2 := hstep 9 .pushInt 2 hskip rfl (by decide)
  exact ⟨_, _, hcompile, hreach, stackDiscipline_of_compileMapping rfl hcompile hreach⟩

end Job

end Arbor
