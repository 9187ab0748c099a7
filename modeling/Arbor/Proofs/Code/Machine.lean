import Arbor.Builtin.Operation
import Arbor.Object.Constant
import Arbor.Proofs.Code.Typing
import Mathlib.Logic.Relation

/-!
# A machine that runs code

A machine has a stack of data and a memory of slots, and takes the instructions of a program one by
one.  Only what data are involved in is modelled: nodes, iterators and ranges are no data, so
instructions that make or use them are not executed, and neither is one that lacks its operands.
An operator computes what its operation folds to.

* `Machine.Step`: the execution of one instruction.  A jump that waits for its target cannot be
  taken, but a conditional one may be passed.
* `Machine.Runs`: the execution of instructions from a given index on.
* `Code.Clips.runs`: runs survive patching, elision included; `Code.Clips.runs_jump` and
  `Code.Clips.runs_fails` take the jump that was patched to the end of the code.
-/

namespace Arbor

/-- The datum that a pool entry stands for. -/
def Constant.datum : Constant → Datum
  | .number n => .number n
  | .str text => .str text

/-- The operation that an operator carries out on the operands on the stack. -/
def Opcode.operation? : Opcode → Option Operation
  | .add => some .add
  | .sub => some .sub
  | .mul => some .mul
  | .div => some .div
  | .neg => some .neg
  | .eq => some .eq
  | .ne => some .ne
  | .lt => some .lt
  | .le => some .le
  | .gt => some .gt
  | .ge => some .ge
  | .multipleOf => some .multipleOf
  | .powerOf => some .powerOf
  | .and => some .and
  | .or => some .or
  | .not => some .not
  | _ => none

/-- A state of the machine: the index of the next instruction, the stack with its top first, and
what is in each slot. -/
structure Machine where
  pc : Nat
  stack : List Datum
  memory : UInt8 → Datum

namespace Machine

/-! ## Instructions -/

/-- What an instruction that does not jump makes of stack and memory. -/
def effect (pool : List Constant) (op : Opcode) (b : UInt8) (stack : List Datum)
    (memory : UInt8 → Datum) : Option (List Datum × (UInt8 → Datum)) :=
  match op.operation? with
  | some operation =>
    match operation.fold (stack.take op.pops).reverse with
    | .value d => some (d :: stack.drop op.pops, memory)
    | _ => none
  | none =>
    match op, stack with
    | .const, _ => pool[b.toNat]?.map fun c => (c.datum :: stack, memory)
    | .kind, _ =>
      match pool[b.toNat]? with
      | some (.str name) => some (.kind name :: stack, memory)
      | _ => none
    | .pushNone, _ => some (.none :: stack, memory)
    | .pushTrue, _ => some (.bool true :: stack, memory)
    | .pushFalse, _ => some (.bool false :: stack, memory)
    | .pushInt, _ => some (.number (.int (Int64.ofNat b.toNat)) :: stack, memory)
    | .pushFloat, _ => some (.number (.float (Eighths.decode b)) :: stack, memory)
    | .load, _ => some (memory b :: stack, memory)
    | .store, d :: rest => some (rest, Function.update memory b d)
    | .drop, _ :: rest => some (rest, memory)
    | .list, _ => some (.list [] :: stack, memory)
    | .append, d :: .list ds :: rest => some (.list (ds ++ [d]) :: rest, memory)
    | _, _ => none

variable {pool : List Constant} {op : Opcode} {b : UInt8} {stack stack' : List Datum}
  {memory memory' : UInt8 → Datum}

/-- An operator replaces its operands by the result. -/
lemma effect_operation {operation : Operation} {ds : List Datum} {d : Datum}
    (hop : op.operation? = some operation) (hpops : op.pops = ds.length)
    (hfold : operation.fold ds = .value d) :
    effect pool op b (ds.reverse ++ stack) memory = some (d :: stack, memory) := by
  have htake : ((ds.reverse ++ stack).take op.pops).reverse = ds := by
    rw [hpops, ← List.length_reverse, List.take_left, List.reverse_reverse]
  have hdrop : (ds.reverse ++ stack).drop op.pops = stack := by
    rw [hpops, ← List.length_reverse, List.drop_left]
  simp only [effect, hop, htake, hdrop, hfold]

lemma goesOn_of_effect {r : List Datum × (UInt8 → Datum)}
    (h : effect pool op b stack memory = some r) : op.goesOn = true := by
  cases op <;> first | rfl | cases h

/-- The execution of one instruction. -/
inductive Step (pool : List Constant) (is : List Instruction) : Machine → Machine → Prop
  | compute {pc : Nat} {op : Opcode} {b : UInt8} {stack stack' : List Datum}
      {memory memory' : UInt8 → Datum} (hi : is[pc]? = some ⟨op, .byte b⟩)
      (heffect : effect pool op b stack memory = some (stack', memory')) :
      Step pool is ⟨pc, stack, memory⟩ ⟨pc + 1, stack', memory'⟩
  | jump {pc : Nat} {b : UInt8} {stack : List Datum} {memory : UInt8 → Datum}
      (hi : is[pc]? = some ⟨.jump, .byte b⟩) :
      Step pool is ⟨pc, stack, memory⟩ ⟨pc + 1 + b.toNat, stack, memory⟩
  | holds {pc : Nat} {operand : Operand} {stack : List Datum} {memory : UInt8 → Datum}
      (hi : is[pc]? = some ⟨.jumpUnless, operand⟩) :
      Step pool is ⟨pc, .bool true :: stack, memory⟩ ⟨pc + 1, stack, memory⟩
  | fails {pc : Nat} {b : UInt8} {stack : List Datum} {memory : UInt8 → Datum}
      (hi : is[pc]? = some ⟨.jumpUnless, .byte b⟩) :
      Step pool is ⟨pc, .bool false :: stack, memory⟩ ⟨pc + 1 + b.toNat, stack, memory⟩
  | back {pc t : Nat} {b : UInt8} {stack : List Datum} {memory : UInt8 → Datum}
      (hi : is[pc]? = some ⟨.jumpBack, .byte b⟩) (ht : Code.targetOf .jumpBack pc b = some t) :
      Step pool is ⟨pc, stack, memory⟩ ⟨t, stack, memory⟩

variable {is is' : List Instruction} {m m₁ m₂ m' : Machine} {lo lo' : Nat}

/-- The machine has no choice. -/
lemma Step.eq_of_step (h₁ : Step pool is m m₁) (h₂ : Step pool is m m₂) : m₁ = m₂ := by
  cases h₁ with
  | compute hi heffect =>
    have hon := goesOn_of_effect heffect
    cases h₂ with
    | compute hi' heffect' =>
      cases hi.symm.trans hi'
      cases heffect.symm.trans heffect'
      rfl
    | jump hi' | holds hi' | fails hi' | back hi' _ =>
      cases hi.symm.trans hi'
      cases hon
  | jump hi =>
    cases h₂ with
    | compute hi' heffect' =>
      cases hi.symm.trans hi'
      cases goesOn_of_effect heffect'
    | jump hi' =>
      cases hi.symm.trans hi'
      rfl
    | holds hi' | fails hi' | back hi' _ => cases hi.symm.trans hi'
  | holds hi =>
    cases h₂ with
    | compute hi' heffect' =>
      cases hi.symm.trans hi'
      cases goesOn_of_effect heffect'
    | holds _ => rfl
    | jump hi' | back hi' _ => cases hi.symm.trans hi'
  | fails hi =>
    cases h₂ with
    | compute hi' heffect' =>
      cases hi.symm.trans hi'
      cases goesOn_of_effect heffect'
    | fails hi' =>
      cases hi.symm.trans hi'
      rfl
    | jump hi' | back hi' _ => cases hi.symm.trans hi'
  | back hi ht =>
    cases h₂ with
    | compute hi' heffect' =>
      cases hi.symm.trans hi'
      cases goesOn_of_effect heffect'
    | back hi' ht' =>
      cases hi.symm.trans hi'
      cases ht.symm.trans ht'
      rfl
    | jump hi' | holds hi' | fails hi' => cases hi.symm.trans hi'

lemma Step.mono (h : Step pool is m m') (hpre : is <+: is') : Step pool is' m m' := by
  cases h with
  | compute hi heffect => exact .compute (Code.getElem?_of_isPrefix hpre hi) heffect
  | jump hi => exact .jump (Code.getElem?_of_isPrefix hpre hi)
  | holds hi => exact .holds (Code.getElem?_of_isPrefix hpre hi)
  | fails hi => exact .fails (Code.getElem?_of_isPrefix hpre hi)
  | back hi ht => exact .back (Code.getElem?_of_isPrefix hpre hi) ht

/-- Code that comes before is of no use to an instruction, unless it is jumped back to. -/
lemma Step.of_append {P : List Instruction} (h : Step pool (is ++ P) m m') (hm : is.length ≤ m.pc)
    (hm' : is.length ≤ m'.pc) :
    Step pool P { m with pc := m.pc - is.length } { m' with pc := m'.pc - is.length } := by
  have hget : ∀ {i : Nat} {inst : Instruction}, is.length ≤ i → (is ++ P)[i]? = some inst →
      P[i - is.length]? = some inst := by
    intro i inst hi h
    rwa [List.getElem?_append_right hi] at h
  cases h with
  | compute hi heffect =>
    simpa [Nat.sub_add_comm hm] using Step.compute (hget hm hi) heffect
  | jump hi =>
    simpa [Nat.sub_add_comm hm, Nat.sub_add_comm (Nat.le_add_right_of_le hm)] using
      Step.jump (hget hm hi)
  | holds hi =>
    simpa [Nat.sub_add_comm hm] using Step.holds (hget hm hi)
  | fails hi =>
    simpa [Nat.sub_add_comm hm, Nat.sub_add_comm (Nat.le_add_right_of_le hm)] using
      Step.fails (hget hm hi)
  | back hi ht =>
    refine .back (hget hm hi) ?_
    simp only [Code.targetOf] at ht ⊢
    split at ht <;> cases ht
    simp only at hm hm'
    rw [if_pos (by omega)]
    congr 1
    omega

/-! ## Runs -/

/-- The execution of instructions, as many as you like, that are at the index `lo` or after it. -/
def Runs (pool : List Constant) (lo : Nat) (is : List Instruction) : Machine → Machine → Prop :=
  Relation.ReflTransGen fun m m' => lo ≤ m.pc ∧ Step pool is m m'

lemma runs_refl (pool : List Constant) (lo : Nat) (is : List Instruction) (m : Machine) :
    Runs pool lo is m m :=
  .refl

lemma Step.runs (h : Step pool is m m') (hlo : lo ≤ m.pc) : Runs pool lo is m m' :=
  .single ⟨hlo, h⟩

lemma Runs.trans (h : Runs pool lo is m m₁) (h' : Runs pool lo is m₁ m') : Runs pool lo is m m' :=
  Relation.ReflTransGen.trans h h'

lemma Runs.mono (h : Runs pool lo is m m') (hlo : lo' ≤ lo) (hpre : is <+: is') :
    Runs pool lo' is' m m' := by
  induction h with
  | refl => exact .refl
  | tail _ hstep ih => exact ih.tail ⟨hlo.trans hstep.1, hstep.2.mono hpre⟩

/-- A run goes on with the instruction at the end. -/
lemma Runs.snoc (h : Runs pool lo is m ⟨is.length, stack, memory⟩) (hlo : lo ≤ is.length)
    (heffect : effect pool op b stack memory = some (stack', memory')) :
    Runs pool lo (is ++ [⟨op, .byte b⟩]) m
      ⟨(is ++ [Instruction.mk op (.byte b)]).length, stack', memory'⟩ := by
  have hlast : (is ++ [Instruction.mk op (.byte b)])[is.length]? = some ⟨op, .byte b⟩ := by simp
  refine (h.mono le_rfl (List.prefix_append _ _)).trans ?_
  simpa using (Step.compute hlast heffect).runs hlo

/-- A run that stays behind some code is a run of the rest. -/
lemma Runs.of_append {P : List Instruction} (h : Runs pool is.length (is ++ P) m m')
    (hm' : is.length ≤ m'.pc) :
    Runs pool 0 P { m with pc := m.pc - is.length } { m' with pc := m'.pc - is.length } := by
  have hboth : is.length ≤ m.pc ∧
      Runs pool 0 P { m with pc := m.pc - is.length } { m' with pc := m'.pc - is.length } := by
    induction h using Relation.ReflTransGen.head_induction_on with
    | refl => exact ⟨hm', .refl⟩
    | head hstep _ ih =>
      exact ⟨hstep.1, .head ⟨Nat.zero_le _, hstep.2.of_append hstep.1 ih.1⟩ ih.2⟩
  exact hboth.2

/-- The machine in code that has been clipped to a length. -/
@[simps]
def clip (n : Nat) (m : Machine) : Machine := { m with pc := min m.pc n }

lemma clip_of_le {n : Nat} (h : m.pc ≤ n) : m.clip n = m := by
  simp [clip, Nat.min_eq_left h]

end Machine

/-! ## Runs of patched code -/

namespace Code

open Machine

variable {pool : List Constant} {is is' : List Instruction} {a i lo t : Nat} {op : Opcode}
  {m m' : Machine} {stack : List Datum} {memory : UInt8 → Datum}

lemma Leads.lt (h : Leads is a i op t) : i < t := by
  obtain ⟨-, ⟨b, -, rfl⟩ | ⟨-, hi, rfl⟩⟩ := h
  · omega
  · exact (List.getElem?_eq_some_iff.1 hi).1

lemma lt_of_getElem?_eq_some {inst : Instruction} (h : is[i]? = some inst) : i < is.length :=
  (List.getElem?_eq_some_iff.1 h).1

namespace Clips

/-- A jump is taken to what its target has become. -/
lemma runs_leads (hclip : Clips a is is') (hleads : Leads is a i .jump t) (hlo : lo ≤ i) :
    Runs pool lo is' ⟨min i is'.length, stack, memory⟩ ⟨min t is'.length, stack, memory⟩ := by
  have hlt := hleads.lt
  rcases hclip.jump hleads with ⟨-, hgone⟩ | ⟨hbad, -⟩ | ⟨b, hb, hdist, -⟩
  · rw [Nat.min_eq_right hgone, Nat.min_eq_right (by omega)]
    exact runs_refl _ _ _ _
  · cases hbad
  · rw [← hdist, Nat.min_eq_left (lt_of_getElem?_eq_some hb).le]
    exact (Step.jump hb).runs hlo

/-- A condition that holds is popped. -/
lemma runs_leads_true (hclip : Clips a is is') (hleads : Leads is a i .jumpUnless t)
    (hlo : lo ≤ i) :
    Runs pool lo is' ⟨min i is'.length, .bool true :: stack, memory⟩
      ⟨min (i + 1) is'.length, stack, memory⟩ := by
  rcases hclip.jump hleads with ⟨hbad, -⟩ | ⟨-, -, hdrop⟩ | ⟨b, hb, -⟩
  · cases hbad
  · have hlt := lt_of_getElem?_eq_some hdrop
    rw [Nat.min_eq_left hlt.le, Nat.min_eq_left hlt]
    exact (Step.compute hdrop rfl).runs hlo
  · have hlt := lt_of_getElem?_eq_some hb
    rw [Nat.min_eq_left hlt.le, Nat.min_eq_left hlt]
    exact (Step.holds hb).runs hlo

/-- A condition that does not hold is popped, and the jump goes to what its target has become. -/
lemma runs_leads_false (hclip : Clips a is is') (hleads : Leads is a i .jumpUnless t)
    (hlo : lo ≤ i) :
    Runs pool lo is' ⟨min i is'.length, .bool false :: stack, memory⟩
      ⟨min t is'.length, stack, memory⟩ := by
  have hlt := hleads.lt
  rcases hclip.jump hleads with ⟨hbad, -⟩ | ⟨-, hend, hdrop⟩ | ⟨b, hb, hdist, -⟩
  · cases hbad
  · rw [Nat.min_eq_left (by omega), show min t is'.length = i + 1 by omega]
    exact (Step.compute hdrop rfl).runs hlo
  · rw [← hdist, Nat.min_eq_left (lt_of_getElem?_eq_some hb).le]
    exact (Step.fails hb).runs hlo

/-- What a step did, the clipped code does. -/
lemma runs_step (hclip : Clips a is is') (h : Machine.Step pool is m m') (hlo : lo ≤ m.pc) :
    Runs pool lo is' (m.clip is'.length) (m'.clip is'.length) := by
  -- Instructions that do not jump forward are where they were.
  have hplain : ∀ {i : Nat} {inst : Instruction}, is[i]? = some inst →
      inst.opcode.isForwardJump = false → is'[i]? = some inst ∧ i < is'.length :=
    fun hi hop => ⟨hclip.plain hi hop, lt_of_getElem?_eq_some (hclip.plain hi hop)⟩
  cases h with
  | compute hi heffect =>
    obtain ⟨hi', hlt⟩ := hplain hi (Opcode.isForwardJump_of_goesOn (goesOn_of_effect heffect))
    rw [clip_of_le hlt.le, clip_of_le (show _ + 1 ≤ _ from hlt)]
    exact (Step.compute hi' heffect).runs hlo
  | jump hi => exact hclip.runs_leads ⟨rfl, .inl ⟨_, hi, rfl⟩⟩ hlo
  | @holds pc operand stack memory hi =>
    by_cases hstays : operand = .pending ∧ pc ≠ a
    · obtain ⟨rfl, hne⟩ := hstays
      have hi' := hclip.pending hi hne
      have hlt := lt_of_getElem?_eq_some hi'
      rw [clip_of_le hlt.le, clip_of_le (show _ + 1 ≤ _ from hlt)]
      exact (Step.holds hi').runs hlo
    · obtain ⟨t, hleads⟩ : ∃ t, Leads is a pc .jumpUnless t := by
        cases operand with
        | byte b => exact ⟨_, rfl, .inl ⟨b, hi, rfl⟩⟩
        | pending => exact ⟨_, rfl, .inr ⟨by simpa using hstays, hi, rfl⟩⟩
      exact hclip.runs_leads_true hleads hlo
  | fails hi => exact hclip.runs_leads_false ⟨rfl, .inl ⟨_, hi, rfl⟩⟩ hlo
  | @back pc t b stack memory hi ht =>
    obtain ⟨hi', hlt⟩ := hplain hi rfl
    have hle : t ≤ pc + 1 := by
      simp only [targetOf] at ht
      split at ht <;> cases ht
      omega
    rw [clip_of_le hlt.le, clip_of_le (show t ≤ _ by omega)]
    exact (Step.back hi' ht).runs hlo

/-- **Runs survive patching.** -/
theorem runs (hclip : Clips a is is') (h : Runs pool lo is m m') :
    Runs pool lo is' (m.clip is'.length) (m'.clip is'.length) := by
  induction h with
  | refl => exact .refl
  | tail _ hstep ih => exact ih.trans (hclip.runs_step hstep.2 hstep.1)

/-- A run to the end is one to the new end. -/
lemma runs_end (hclip : Clips a is is') (h : Runs pool lo is m ⟨is.length, stack, memory⟩)
    (hm : m.pc ≤ is'.length) : Runs pool lo is' m ⟨is'.length, stack, memory⟩ := by
  have hrun := hclip.runs h
  rwa [clip_of_le hm, clip, Nat.min_eq_right hclip.length_le] at hrun

/-- A run to another jump that waits is a run to that jump. -/
lemma runs_pending (hclip : Clips a is is') (h : Runs pool lo is m ⟨i, stack, memory⟩)
    (hm : m.pc ≤ is'.length) (hi : is[i]? = some ⟨op, .pending⟩) (hne : i ≠ a) :
    Runs pool lo is' m ⟨i, stack, memory⟩ := by
  have hrun := hclip.runs h
  have hlt := lt_of_getElem?_eq_some (hclip.pending hi hne)
  rwa [clip_of_le hm, clip_of_le (show i ≤ _ from hlt.le)] at hrun

/-- A run to the jump that is patched goes on to the end. -/
lemma runs_jump (hclip : Clips a is is') (h : Runs pool lo is m ⟨a, stack, memory⟩)
    (hm : m.pc ≤ is'.length) (ha : is[a]? = some ⟨.jump, .pending⟩) (hlo : lo ≤ a) :
    Runs pool lo is' m ⟨is'.length, stack, memory⟩ := by
  have hrun := (hclip.runs h).trans (hclip.runs_leads ⟨rfl, .inr ⟨rfl, ha, rfl⟩⟩ hlo)
  rwa [clip_of_le hm, Nat.min_eq_right hclip.length_le] at hrun

/-- A run to the condition of the jump that is patched goes on to the end if it does not hold. -/
lemma runs_fails (hclip : Clips a is is') (h : Runs pool lo is m ⟨a, .bool false :: stack, memory⟩)
    (hm : m.pc ≤ is'.length) (ha : is[a]? = some ⟨.jumpUnless, .pending⟩) (hlo : lo ≤ a) :
    Runs pool lo is' m ⟨is'.length, stack, memory⟩ := by
  have hrun := (hclip.runs h).trans (hclip.runs_leads_false ⟨rfl, .inr ⟨rfl, ha, rfl⟩⟩ hlo)
  rwa [clip_of_le hm, Nat.min_eq_right hclip.length_le] at hrun

end Clips

end Code

end Arbor
