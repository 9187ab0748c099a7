import Arbor.Code.Buffer
import Arbor.Proofs.Problem.Ensures

/-!
# Steps on code

The steps of code under construction work in place, and one that ends in a problem might have done
half of its work.  None of them has (`Assemble.atomic_patch` and its like), so what a step does is
known from its outcome.  `Code.patch` is the outcome of a patch, and so on.
-/

namespace Arbor

namespace Assemble

open Step

lemma atomic_pushIndex (op : Opcode) (what : String) (index : Nat) :
    Atomic (pushIndex op what index) := by
  unfold pushIndex
  split
  · exact atomic_modify _
  · exact atomic_throw _

lemma eq_push_of_pushIndex {op : Opcode} {what : String} {index : Nat} {c c' : Code} {u : Unit}
    (h : pushIndex op what index c = .ok u c') : c' = c.push op (UInt8.ofNat index) := by
  unfold pushIndex at h
  split at h <;> cases h
  rfl

lemma atomic_patch (a : Anchor) : Atomic (patch a) := by
  refine atomic_get_bind fun c => ?_
  split
  · exact atomic_set _
  · dsimp only
    split
    · exact atomic_throw _
    · split
      · exact atomic_set _
      · exact atomic_throw _

lemma atomic_jumpBack (head : LoopHead) : Atomic (jumpBack head) := by
  refine atomic_get_bind fun c => ?_
  dsimp only
  split
  · exact atomic_throw _
  · exact atomic_modify _

end Assemble

namespace Code

/-- The code with an instruction whose operand is an index. -/
def pushIndex (c : Code) (op : Opcode) (what : String) (index : Nat) : Except Problem Code :=
  Step.outcome (Assemble.pushIndex op what index) c

/-- The code with a reserved jump pointed at its end. -/
def patch (c : Code) (a : Anchor) : Except Problem Code := Step.outcome (Assemble.patch a) c

/-- The code with a jump back to the head of a loop. -/
def jumpBack (c : Code) (head : LoopHead) : Except Problem Code :=
  Step.outcome (Assemble.jumpBack head) c

variable (c : Code)

lemma pushIndex_eq (op : Opcode) (what : String) (index : Nat) :
    c.pushIndex op what index =
      if index < 256 then .ok (c.push op (UInt8.ofNat index))
      else .error (.defect (.indexTooLarge what index)) := by
  rw [pushIndex, Assemble.pushIndex]
  split <;> rfl

lemma patch_eq (a : Anchor) :
    c.patch a =
      if a.index + 1 = c.size then .ok ⟨elide c.instructions⟩
      else if 256 ≤ c.size - (a.index + 1) then
        .error (.defect (.jumpTooFar (c.size - (a.index + 1))))
      else
        match c.instructions[a.index]? with
        | some ⟨op, .pending⟩ =>
          .ok ⟨c.instructions.set a.index
            ⟨op, .byte (UInt8.ofNat (c.size - (a.index + 1)))⟩⟩
        | _ => .error (.defect .staleAnchor) := by
  rw [patch, Assemble.patch, Step.outcome_get_bind]
  by_cases hlast : a.index + 1 = c.size
  · rw [if_pos hlast, if_pos hlast]
    rfl
  · rw [if_neg hlast, if_neg hlast]
    by_cases hfar : 256 ≤ c.size - (a.index + 1)
    · rw [if_pos hfar, if_pos hfar]
      rfl
    · rw [if_neg hfar, if_neg hfar]
      rcases c.instructions[a.index]? with _ | ⟨op, _ | _⟩ <;> rfl

lemma jumpBack_eq (head : LoopHead) :
    c.jumpBack head =
      if 256 ≤ c.size + 1 - head.index then
        .error (.defect (.jumpTooFar (c.size + 1 - head.index)))
      else .ok (c.push .jumpBack (UInt8.ofNat (c.size + 1 - head.index))) := by
  rw [jumpBack, Assemble.jumpBack, Step.outcome_get_bind]
  by_cases hfar : 256 ≤ c.size + 1 - head.index
  · rw [if_pos hfar, if_pos hfar]
    rfl
  · rw [if_neg hfar, if_neg hfar]
    rfl

end Code

end Arbor
