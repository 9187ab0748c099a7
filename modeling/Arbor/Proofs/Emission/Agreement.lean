import Arbor.Proofs.Emission.Linking
import Arbor.Proofs.Emission.Simulation

/-!
# Emitted code agrees with evaluation

While the body of a mapping is emitted, an expression may be asked for in many states: at the start
of a statement or in the middle of an expression, inside nested blocks and inlined functions, and
after others that were given up half way (`Emission.Visited`).  In each, the code that an expression
is given computes what the expression evaluates to once the slots in scope hold data
(`Emission.runs_of_acceptExpr`).
-/

namespace Arbor.Emission

open Code

variable {job : Job} {σ σ' : EmitState}

/-- **Emitted code agrees with evaluation.**  In every state in which emission is at work, also
after problems, and for every choice of data for the slots in scope: if an expression evaluates to a
datum with those data in place of the names that are stored, then the code emitted for it, on a
machine whose slots hold the data, runs from its first instruction to its end and pushes exactly
that datum.  Slots handed out before are unchanged.  The code is complete, and the pool may have
grown in the meantime. -/
theorem runs_of_acceptExpr (hstd : job.builtins = .standard) (hσ : Visited job σ)
    {e : Expr} {v : Value} (h : job.acceptExpr true e σ = .ok v σ')
    (hfile : ∀ f ∈ job.file.functions, ∀ d ∈ Stmt.literalsAll f.body, d.isFloatFree = true)
    (he : ∀ d ∈ e.literals, d.isFloatFree = true)
    (hknown : σ.scopes.Holds (·.isFloatFree = true)) (c : UInt8 → Datum) {d : Datum}
    (hd : job.evaluate (σ.scopes.instantiate c) σ.inlining e = .ok (some d)) :
    ∃ P, σ'.code.instructions = σ.code.instructions ++ P ∧ (∀ inst ∈ P, inst.operand ≠ .pending) ∧
      ∀ pool stack memory, σ'.constants.entries <+: pool →
        (∀ slot ∈ Scopes.slots σ.scopes, memory slot = c slot) →
        ∃ memory', Machine.Runs pool 0 P ⟨0, stack, memory⟩ ⟨P.length, d :: stack, memory'⟩ ∧
          ∀ slot : UInt8, slot.toNat < σ.slots.next → memory' slot = memory slot := by
  have hsound := hσ.sound hstd
  have hemits := (derives_value hstd (derives_emitCall hstd σ.inlining) e hsound).of_ok h
  have hpush : σ.Pushes σ' := hemits.effect hstd hsound trivial
  obtain ⟨P, hP⟩ := hpush.extend.code.isPrefix
  refine ⟨P, hP.symm, fun inst hinst hpending => ?_, fun pool stack memory hpool hmemory => ?_⟩
  · -- A jump that waits would be among those that expressions leave waiting: there are none.
    obtain ⟨i, hi, rfl⟩ := List.mem_iff_getElem.1 hinst
    have hwaits : IsPending σ'.code.instructions (σ.code.instructions.length + i) := by
      refine ⟨P[i].opcode, ?_⟩
      rw [← hP, List.getElem?_append_right (Nat.le_add_right _ _), Nat.add_sub_cancel_left,
        List.getElem?_eq_getElem hi, ← hpending]
    exact absurd (hpush.extend.code.mem_iff.2 ⟨Nat.le_add_right _ _, hwaits⟩ :
      (⟨σ.code.instructions.length + i⟩ : Anchor) ∈ []) List.not_mem_nil
  · have hshows : Scopes.Shows memory σ.scopes (σ.scopes.instantiate c) :=
      (Scopes.shows_instantiate c σ.scopes).congr hmemory
    obtain ⟨memory', hrun, hkeeps⟩ :=
      hemits.simulated ⟨hstd, Datum.closed_isFloatFree, hfile⟩ hsound trivial hknown he hpool _ d
        stack memory hshows hd
    rw [EmitState.Computes, ← hP] at hrun
    have hshifted := hrun.of_append (by simp)
    simp only [Nat.sub_self, List.length_append, Nat.add_sub_cancel_left] at hshifted
    exact ⟨memory', hshifted, hkeeps⟩

/-- A function with a known and a stored argument, an assignment and two returns. -/
def stepDef : FunctionDef where
  ident := ⟨"step", .nowhere⟩
  params := [⟨"up", .nowhere⟩, ⟨"n", .nowhere⟩]
  body :=
    [.define .var ⟨"r", .nowhere⟩ (.ref ⟨"n", .nowhere⟩ .nowhere),
      .ifThen (.ref ⟨"up", .nowhere⟩ .nowhere)
        [.assign ⟨"r", .nowhere⟩ (.binary .add (.ref ⟨"r", .nowhere⟩ .nowhere)
            (.literal (.number (.int 1)) .nowhere) .nowhere),
          .ret (some (.ref ⟨"r", .nowhere⟩ .nowhere))],
      .ret (some (.ref ⟨"n", .nowhere⟩ .nowhere))]

/-- A job with that function. -/
def stepJob : Job where
  file := ⟨[.function stepDef], []⟩

/-- The expression `10 * step(flag, 2)`. -/
def stepExpr : Expr :=
  .binary .mul (.literal (.number (.int 10)) .nowhere)
    (.call ⟨"step", .nowhere⟩
      [.ref ⟨"flag", .nowhere⟩ .nowhere, .literal (.number (.int 2)) .nowhere] .nowhere .nowhere)
    .nowhere

/-- The state after `flag` has been defined. -/
def flagState : EmitState where
  code := ⟨[⟨.pushTrue, .byte 0⟩, ⟨.store, .byte 1⟩]⟩
  slots := ⟨2⟩
  scopes := [⟨[("flag", .stored (.of .bool) 1 true), ("root", .stored (.of .node) 0 true)],
    some (.root 0)⟩]
  frames := [{}]

lemma visited_flagState (job : Job) : Visited job flagState := by
  have hdefine : afterStmts job
      [.define .final ⟨"flag", .nowhere⟩ (.literal (.bool true) .nowhere)] (.start {}) =
        flagState := by
    rfl
  rw [← hdefine]
  exact .stmts (.start {}) _

/-- The code of the expression in that state.  The second argument is known in the inlined body, and
the jump from the last return to the end is elided. -/
def stepCode : List Instruction :=
  [⟨.pushInt, .byte 10⟩, ⟨.load, .byte 1⟩, ⟨.store, .byte 2⟩, ⟨.pushInt, .byte 2⟩,
    ⟨.store, .byte 3⟩, ⟨.load, .byte 2⟩, ⟨.jumpUnless, .byte 6⟩, ⟨.load, .byte 3⟩,
    ⟨.pushInt, .byte 1⟩, ⟨.add, .byte 0⟩, ⟨.store, .byte 3⟩, ⟨.load, .byte 3⟩, ⟨.jump, .byte 1⟩,
    ⟨.pushInt, .byte 2⟩, ⟨.mul, .byte 0⟩]

/-- With a flag that is set, the code runs past the first return and pushes `30`. -/
theorem runs_of_stepExpr :
    Visited stepJob flagState ∧
      stepJob.acceptExpr true stepExpr flagState =
        .ok (.runtime (.of .num))
          { flagState with code := ⟨flagState.code.instructions ++ stepCode⟩, slots := ⟨4⟩ } ∧
      stepJob.evaluate (flagState.scopes.instantiate fun _ => .bool true) [] stepExpr =
        .ok (some (.number (.int 30))) ∧
      ∃ memory', Machine.Runs [] 0 stepCode ⟨0, [], fun _ => .bool true⟩
        ⟨15, [.number (.int 30)], memory'⟩ ∧ memory' 0 = .bool true ∧ memory' 1 = .bool true := by
  have hvisited := visited_flagState stepJob
  have haccept : stepJob.acceptExpr true stepExpr flagState =
      .ok (.runtime (.of .num))
        { flagState with code := ⟨flagState.code.instructions ++ stepCode⟩, slots := ⟨4⟩ } := by
    decide +kernel
  have heval : stepJob.evaluate (flagState.scopes.instantiate fun _ => .bool true) [] stepExpr =
      .ok (some (.number (.int 30))) := by
    decide +kernel
  have hknown : flagState.scopes.Holds (·.isFloatFree = true) := by
    intro s hs name d f hmem
    obtain rfl := List.mem_singleton.1 hs
    simp at hmem
  obtain ⟨P, hP, -, hrun⟩ := runs_of_acceptExpr rfl hvisited haccept (by decide) (by decide) hknown
    (fun _ => .bool true) heval
  obtain rfl : stepCode = P := List.append_cancel_left hP
  obtain ⟨memory', hrun, hkeeps⟩ := hrun [] [] (fun _ => .bool true) List.prefix_rfl fun _ _ => rfl
  exact ⟨hvisited, haccept, heval, memory', hrun, hkeeps 0 (by decide), hkeeps 1 (by decide)⟩

end Arbor.Emission
