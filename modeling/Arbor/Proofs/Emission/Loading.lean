import Arbor.Proofs.Emission.Outcome
import Arbor.Proofs.Emission.Simulation
import Arbor.Proofs.Number.Double

/-!
# Loading numbers

A number is loaded by one instruction, which carries it in its operand if it is a small integer or a
few eighths, and refers to the constant pool otherwise.  Executed, the instruction pushes the same
number, and goes on doing so while the pool grows.  One number is lost: negative zero passes for
zero eighths, and comes back as zero.

* `Number.pushes_of_immediate?`: what the operand of an instruction keeps of a number.
* `Emit.loadNumber_exact_iff`: loading is exact but for negative zero.
-/

namespace Arbor

open Machine Step

variable {pool : List Constant} {n : Number} {op : Opcode} {b : UInt8}

/-! ## What an instruction pushes -/

/-- An instruction pushes a datum on any stack, with a given pool. -/
def Instruction.Pushes (pool : List Constant) (i : Instruction) (d : Datum) : Prop :=
  ∃ b, i.operand = .byte b ∧
    ∀ stack memory, effect pool i.opcode b stack memory = some (d :: stack, memory)

/-- An instruction that pushes one datum pushes no other. -/
lemma Instruction.Pushes.iff_eq {i : Instruction} {d d' : Datum} (h : i.Pushes pool d) :
    i.Pushes pool d' ↔ d = d' := by
  constructor
  · rintro ⟨b', hb', heffect'⟩
    obtain ⟨b, hb, heffect⟩ := h
    cases hb.symm.trans hb'
    have hpushed := (heffect [] fun _ => .none).symm.trans (heffect' [] fun _ => .none)
    simpa using hpushed
  · rintro rfl
    exact h

/-- Negative zero is taken for zero eighths. -/
lemma Eighths.encode_negativeZero : encode .negativeZero = some 0 :=
  encode_eq_some_iff.2 (by simpa using Double.toRat?_negativeZero)

lemma Eighths.decode_zero : decode 0 = ⟨0⟩ := by decide +kernel

/-- An operand keeps the number that it was made from, except for negative zero, of which it keeps
the magnitude. -/
lemma Number.pushes_of_immediate? (h : (Datum.number n).immediate? = some (op, b)) :
    ∃ m : Number, Instruction.Pushes pool ⟨op, .byte b⟩ (.number m) ∧
      (m = n ↔ n ≠ .float .negativeZero) ∧ (n = .float .negativeZero → m = .float ⟨0⟩) := by
  cases n with
  | int v =>
    exact ⟨.int v, ⟨b, rfl, fun _ _ => Datum.effect_of_immediate? rfl h⟩, by simp, by simp⟩
  | float x =>
    obtain ⟨b, hx, heq⟩ := Option.map_eq_some_iff.1 h
    cases heq
    refine ⟨.float (Eighths.decode b), ⟨b, rfl, fun _ _ => rfl⟩, ?_, ?_⟩
    · simpa using Eighths.decode_eq_iff hx
    · intro hzero
      rw [Number.float.inj hzero, Eighths.encode_negativeZero] at hx
      rw [← Option.some.inj hx, Eighths.decode_zero]

/-- A number that no operand holds is pushed from its pool entry. -/
lemma Number.pushes_of_pooled (hentry : pool[b.toNat]? = some (.number n)) :
    Instruction.Pushes pool ⟨.const, .byte b⟩ (.number n) :=
  ⟨b, rfl, fun _ _ => Datum.effect_of_pooled? rfl hentry⟩

lemma Number.ne_negativeZero_of_immediate? (h : (Datum.number n).immediate? = none) :
    n ≠ .float .negativeZero := by
  rintro rfl
  simp [Datum.immediate?, Eighths.encode_negativeZero] at h

/-! ## Loads -/

namespace Emit

lemma loadNumber_of_immediate? (h : (Datum.number n).immediate? = some (op, b)) :
    loadNumber n = push op b := by
  cases n with
  | int v =>
    simp only [Datum.immediate?, Option.ite_none_right_eq_some] at h
    obtain ⟨hsmall, heq⟩ := h
    cases heq
    rw [loadNumber, if_pos hsmall]
  | float x =>
    obtain ⟨b, hx, heq⟩ := Option.map_eq_some_iff.1 h
    cases heq
    rw [loadNumber, hx]

lemma loadNumber_of_immediate?_eq_none (h : (Datum.number n).immediate? = none) :
    loadNumber n = pushConstant .const (.number n) := by
  cases n with
  | int v =>
    rw [loadNumber, if_neg (by simpa [Datum.immediate?] using h)]
  | float x =>
    rw [loadNumber, Option.map_eq_none_iff.1 h]

/-- A load that succeeds adds one instruction, which pushes the number from then on, whatever else
is added to the pool; except for negative zero, in place of which it pushes zero.  A load fails only
for want of an index. -/
theorem loadNumber_exact_iff (n : Number) (σ : EmitState) :
    Ensures (loadNumber n) σ
      (fun _ σ' => ∃ i, σ'.code.instructions = σ.code.instructions ++ [i] ∧
        σ.constants.entries <+: σ'.constants.entries ∧
        ∀ pool, σ'.constants.entries <+: pool →
          (i.Pushes pool (.number n) ↔ n ≠ .float .negativeZero) ∧
          (n = .float .negativeZero → i.Pushes pool (.number (.float ⟨0⟩))))
      (fun p _ => (Datum.number n).immediate? = none ∧ 256 ≤ (σ.constants.intern (.number n)).1 ∧
        p = .defect (.indexTooLarge "constant" (σ.constants.intern (.number n)).1)) := by
  cases himmediate : (Datum.number n).immediate? with
  | some instruction =>
    obtain ⟨op, b⟩ := instruction
    rw [loadNumber_of_immediate? himmediate]
    refine ⟨⟨op, .byte b⟩, rfl, List.prefix_rfl, fun pool _ => ?_⟩
    obtain ⟨m, hpushes, hexact, hzero⟩ := Number.pushes_of_immediate? himmediate
    refine ⟨?_, fun hn => hzero hn ▸ hpushes⟩
    rw [hpushes.iff_eq, Datum.number.injEq, hexact]
  | none =>
    rw [loadNumber_of_immediate?_eq_none himmediate]
    have hne := Number.ne_negativeZero_of_immediate? himmediate
    refine ensures_pushConstant (fun hindex => ?_) fun hlarge => ⟨rfl, hlarge, rfl⟩
    refine ⟨⟨.const, .byte _⟩, rfl, Pool.entries_isPrefix_intern _ _, fun pool hpool => ?_⟩
    have hpushes := Number.pushes_of_pooled (Pool.getElem?_of_isPrefix hindex hpool)
    exact ⟨iff_of_true hpushes hne, fun hn => absurd hn hne⟩

/-- Loading negative zero adds an instruction that pushes zero. -/
theorem loadNumber_negativeZero :
    (∃ σ', loadNumber (.float .negativeZero) {} = .ok () σ' ∧
      σ'.code.instructions = [⟨.pushFloat, .byte 0⟩]) ∧
    Instruction.Pushes [] ⟨.pushFloat, .byte 0⟩ (.number (.float ⟨0⟩)) ∧
    ¬Instruction.Pushes [] ⟨.pushFloat, .byte 0⟩ (.number (.float .negativeZero)) := by
  have hpushes : Instruction.Pushes [] ⟨.pushFloat, .byte 0⟩ (.number (.float ⟨0⟩)) :=
    ⟨0, rfl, fun _ _ => by rw [← Eighths.decode_zero]; rfl⟩
  refine ⟨⟨_, by rw [loadNumber, Eighths.encode_negativeZero]; rfl, rfl⟩, hpushes, ?_⟩
  rw [hpushes.iff_eq]
  decide

end Emit

end Arbor
