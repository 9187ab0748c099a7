import Arbor.Proofs.Code.Patch

/-!
# Patching stays within the code

`Code.patch` is total: a look-up past the end has an answer, and a difference below nothing is
nothing.  Here the same steps are taken with every look-up and every difference checked, one jump
after the other and by index, and without a result as soon as a check fails.  On linked code, and
for a jump that waits, no check fails.

* `Code.elideAt`, `Code.patchWithin`: elision and patching with checks.
* `Code.patchWithin_eq`: the checks make no difference.
-/

namespace Arbor

/-- The instruction at an index, shortened by one if it is a forward jump that leads to `stop`.  A
jump without distance cannot be shortened. -/
def Instruction.retargetWithin (stop index : Nat) (i : Instruction) : Option Instruction :=
  if i.target? index = some stop then
    match i.operand with
    | .byte distance =>
      if 1 ≤ distance.toNat then some { i with operand := .byte (distance - 1) } else none
    | .pending => some i
  else some i

/-- The instruction at an index is a forward jump that leads to `stop`, and shortening it makes it
lead nowhere. -/
def Instruction.leadsNowhere (stop index : Nat) (i : Instruction) : Bool :=
  i.target? index = some stop ∧ i.operand = .byte 1

namespace Code

/-- Shortens every forward jump that leads to `stop`, in code that starts at an index.  The second
result is the last of these jumps that leads nowhere from then on. -/
def retargetWithin (stop : Nat) :
    (index : Nat) → List Instruction → Option (List Instruction × Option Nat)
  | _, [] => some ([], none)
  | index, i :: is => do
    let first ← i.retargetWithin stop index
    let (rest, idle) ← retargetWithin stop (index + 1) is
    return (first :: rest, idle.or (if i.leadsNowhere stop index then some index else none))

lemma length_of_retargetWithin {stop index : Nat} {is rest : List Instruction} {idle : Option Nat}
    (h : retargetWithin stop index is = some (rest, idle)) : rest.length = is.length := by
  induction is generalizing index rest idle with
  | nil =>
    cases h
    rfl
  | cons i is ih =>
    simp only [retargetWithin, Option.bind_eq_bind, Option.bind_eq_some_iff] at h
    obtain ⟨first, -, ⟨rest', idle'⟩, hrest, heq⟩ := h
    cases heq
    simp [ih hrest]

/-- Takes away a jump over nothing at an index.  One with a condition becomes `drop`.  Any other is
removed with all that follows it, and elision goes on with a jump that leads nowhere because of
that. -/
def elideAt (is : List Instruction) (index : Nat) : Option (List Instruction) :=
  if hindex : index < is.length then
    if is[index].opcode = .jumpUnless then some (is.set index ⟨.drop, .byte 0⟩)
    else
      match h : retargetWithin (index + 1) 0 (is.take index) with
      | none => none
      | some (rest, none) => some rest
      | some (rest, some idle) => elideAt rest idle
  else none
termination_by is.length
decreasing_by
  rw [length_of_retargetWithin h, List.length_take]
  omega

/-- Points a reserved jump at the end of the code. -/
def patchWithin (c : Code) (anchor : Anchor) : Option (Except Problem Code) :=
  if anchor.index + 1 ≤ c.size then
    let distance := c.size - (anchor.index + 1)
    if distance = 0 then (elideAt c.instructions anchor.index).map fun is => pure ⟨is⟩
    else if 256 ≤ distance then some (throw (.defect (.jumpTooFar distance)))
    else
      match c.instructions[anchor.index]? with
      | some ⟨op, .pending⟩ =>
        some (pure ⟨c.instructions.set anchor.index ⟨op, .byte (UInt8.ofNat distance)⟩⟩)
      | _ => some (throw (.defect .staleAnchor))
  else none

end Code

/-! ## Shortening -/

namespace Instruction

variable {stop index : Nat} {i : Instruction}

/-- A jump with a positive distance can be shortened. -/
lemma retargetWithin_eq (h : i.target? index = some stop → index + 1 < stop) :
    i.retargetWithin stop index =
      some (if i.target? index = some stop then i.shorten else i) := by
  by_cases hstop : i.target? index = some stop
  · obtain ⟨-, b, hb, hdist⟩ := target?_eq_some_iff.1 hstop
    have hpos := h hstop
    have hone : 1 ≤ b.toNat := by omega
    simp [retargetWithin, hstop, hb, shorten, hone]
  · simp [retargetWithin, hstop]

/-- Among jumps to `stop` only the one just before it can come to lead nowhere. -/
lemma leadsNowhere_iff : i.leadsNowhere stop index = true ↔
    i.target? index = some stop ∧ index + 2 = stop := by
  simp only [leadsNowhere, decide_eq_true_eq, and_congr_right_iff]
  intro hstop
  obtain ⟨-, b, hb, hdist⟩ := target?_eq_some_iff.1 hstop
  rw [hb, Operand.byte.injEq, ← UInt8.toNat_inj]
  simp
  omega

end Instruction

namespace Code

/-- Jumps over the instruction that follows the code can be shortened when they have a positive
distance.  The only one that may lead nowhere afterwards is the last. -/
lemma retargetWithin_eq {stop index : Nat} {is : List Instruction}
    (hstop : stop = index + is.length + 1)
    (h : ∀ {k : Nat} {i : Instruction},
      is[k]? = some i → i.target? (index + k) = some stop → index + k + 1 < stop) :
    retargetWithin stop index is =
      some (is.mapIdx fun k i => if i.target? (index + k) = some stop then i.shorten else i,
        if is.getLast?.any (fun i => i.target? (stop - 2) = some stop) then some (stop - 2)
        else none) := by
  induction is generalizing index with
  | nil => rfl
  | cons i is ih =>
    rw [List.length_cons] at hstop
    have hfirst : i.retargetWithin stop index =
        some (if i.target? index = some stop then i.shorten else i) :=
      Instruction.retargetWithin_eq (h (k := 0) rfl)
    have hrest := @ih (index + 1) (by omega) (by
      intro k i hi ht
      have := h (k := k + 1) (by simpa using hi) (by rw [← ht]; congr 1; omega)
      omega)
    rw [retargetWithin, hrest, hfirst, List.mapIdx_cons]
    simp only [Option.bind_eq_bind, Option.bind_some, Nat.add_zero, Nat.add_assoc, Nat.add_comm 1]
    congr 2
    rcases is.eq_nil_or_concat' with rfl | ⟨init, last, rfl⟩
    · obtain rfl : stop = index + 2 := hstop
      simp [Instruction.leadsNowhere_iff]
    · have hfar : i.leadsNowhere stop index = false := by
        rw [Bool.eq_false_iff, Ne, Instruction.leadsNowhere_iff]
        rintro ⟨-, hnear⟩
        simp at hstop
        omega
      have hlast : (i :: (init ++ [last])).getLast? = some last := by
        rw [← List.cons_append, List.getLast?_concat]
      simp [hfar, hlast]

/-! ## Elision -/

/-- Elision of a jump at the end, when the jumps to the end can be shortened. -/
lemma elideAt_snoc {is rest : List Instruction} {idle : Option Nat}
    (h : retargetWithin (is.length + 1) 0 is = some (rest, idle)) (op : Opcode)
    (operand : Operand) :
    elideAt (is ++ [⟨op, operand⟩]) is.length =
      if op = .jumpUnless then some (is ++ [⟨.drop, .byte 0⟩])
      else idle.elim (some rest) (elideAt rest) := by
  have htake : (is ++ [Instruction.mk op operand]).take is.length = is := List.take_left
  rw [elideAt, dif_pos (by simp)]
  simp only [List.getElem_concat_length]
  split
  · simp
  · split
    · next hnone =>
      rw [htake, h] at hnone
      cases hnone
    · next hsome =>
      rw [htake, h] at hsome
      cases hsome
      rfl
    · next hsome =>
      rw [htake, h] at hsome
      cases hsome
      rfl

/-- On linked code the jumps to the end can be shortened. -/
lemma retargetWithin_of_linked {is : List Instruction} {inst : Instruction}
    (h : Linked (is ++ [inst])) :
    retargetWithin (is.length + 1) 0 is =
      some (retarget (is.length + 1) is,
        if is.getLast?.any (fun i => i.target? (is.length - 1) = some (is.length + 1)) then
          some (is.length - 1)
        else none) := by
  rw [retargetWithin_eq (by omega)]
  · simp [retarget]
  · intro k i hi ht
    rw [Nat.zero_add] at ht ⊢
    exact (h.target (getElem?_snoc_eq_some_iff.2 (.inl hi)) ht).1

/-- On linked code elision passes all checks.  The induction is on the length, as for what elision
does: a cascade goes on with the code that is left when the jump at the end is gone. -/
lemma elideAt_eq (is : List Instruction) (op : Opcode) (operand : Operand)
    (h : Linked (is ++ [⟨op, .pending⟩])) :
    elideAt (is ++ [⟨op, operand⟩]) is.length = some (elide (is ++ [⟨op, operand⟩])) := by
  induction hn : is.length using Nat.strongRecOn generalizing is op operand with
  | ind n ih =>
    subst hn
    rw [elideAt_snoc (retargetWithin_of_linked h), elide_snoc]
    split
    · rfl
    · next hunless =>
      split
      · next hany =>
        obtain rfl : op = .jump := by
          have hop : op.isForwardJump = true := h.pending (i := is.length) (by simp)
          cases op <;> simp_all [Opcode.isForwardJump]
        obtain ⟨init, op, b, c, rfl, hop, hretarget⟩ := exists_cascade hany
        rw [hretarget]
        have hrest := ih init.length (by simp) (retarget (init.length + 2) init) op (.byte c)
          (h.retarget hop) (length_retarget _ _)
        simpa using hrest
      · rfl

/-! ## Patching -/

/-- Patching a jump that waits, in linked code, passes all checks. -/
theorem patchWithin_eq {c : Code} {a : Anchor} (h : Linked c.instructions)
    (ha : IsPending c.instructions a.index) : c.patchWithin a = some (c.patch a) := by
  obtain ⟨op, hop⟩ := ha
  have hlt : a.index + 1 ≤ c.size := (List.getElem?_eq_some_iff.1 hop).1
  rw [patchWithin, if_pos hlt, patch_eq]
  by_cases hlast : a.index + 1 = c.size
  · have hend : c.size - (a.index + 1) = 0 := by omega
    obtain ⟨init, hinit, hindex⟩ := exists_eq_snoc hop hlast
    rw [if_pos hend, if_pos hlast, hinit, hindex, elideAt_eq init op _ (hinit ▸ h)]
    rfl
  · have hnear : c.size - (a.index + 1) ≠ 0 := by omega
    rw [if_neg hnear, if_neg hlast]
    simp only [hop]
    split <;> rfl

end Code

end Arbor
