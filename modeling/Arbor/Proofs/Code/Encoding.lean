import Arbor.Proofs.Code.Patch

/-!
# Encoded code

Code is encoded exactly when none of its jumps waits, two bytes for an instruction, and the bytes
are read back as the instructions that they came from.

* `Code.exists_encode_iff`: which code can be encoded.
* `Code.decode_encode`: decoding undoes encoding.
-/

namespace Arbor.Code

variable {is : List Instruction} {bytes : List UInt8} {n : Nat}

lemma encode_cons_eq_ok {inst : Instruction} (h : encode n (inst :: is) = .ok bytes) :
    ∃ b rest, inst = ⟨inst.opcode, .byte b⟩ ∧ encode (n + 1) is = .ok rest ∧
      bytes = inst.opcode.byte :: b :: rest := by
  obtain ⟨op, operand⟩ := inst
  cases operand with
  | pending => cases h
  | byte b =>
    rw [encode] at h
    cases hrest : encode (n + 1) is with
    | error p =>
      rw [hrest] at h
      cases h
    | ok rest =>
      rw [hrest] at h
      cases h
      exact ⟨b, rest, rfl, rfl, rfl⟩

lemma length_encode (h : encode n is = .ok bytes) : bytes.length = 2 * is.length := by
  induction is generalizing n bytes with
  | nil =>
    cases h
    rfl
  | cons inst is ih =>
    obtain ⟨b, rest, -, hrest, rfl⟩ := encode_cons_eq_ok h
    simp only [List.length_cons, ih hrest]
    omega

/-- Code in which no jump waits can be encoded. -/
lemma exists_encode_eq_ok (h : ∀ i, ¬ IsPending is i) (n : Nat) :
    ∃ bytes, encode n is = .ok bytes := by
  induction is generalizing n with
  | nil => exact ⟨[], rfl⟩
  | cons inst is ih =>
    obtain ⟨op, operand⟩ := inst
    cases operand with
    | pending => exact absurd ⟨op, rfl⟩ (h 0)
    | byte b =>
      obtain ⟨bytes, hbytes⟩ := ih (fun i ⟨op', hop'⟩ => h (i + 1) ⟨op', hop'⟩) (n + 1)
      exact ⟨op.byte :: b :: bytes, by rw [encode, hbytes]; rfl⟩

/-- No jump waits in code that was encoded. -/
lemma not_isPending_of_encode (h : encode n is = .ok bytes) (i : Nat) : ¬ IsPending is i := by
  induction is generalizing n bytes i with
  | nil =>
    rintro ⟨op, hop⟩
    cases hop
  | cons inst is ih =>
    obtain ⟨b, rest, hinst, hrest, -⟩ := encode_cons_eq_ok h
    rintro ⟨op, hop⟩
    cases i with
    | zero =>
      cases hop
      cases hinst
    | succ i => exact ih hrest i ⟨op, hop⟩

lemma exists_encode_iff : (∃ bytes, encode n is = .ok bytes) ↔ ∀ i, ¬ IsPending is i :=
  ⟨fun ⟨_, h⟩ => not_isPending_of_encode h, fun h => exists_encode_eq_ok h n⟩

/-- Reads bytes as instructions, two for each.  There are none if a byte stands alone or is the byte
of no opcode. -/
def decode : List UInt8 → Option (List Instruction)
  | [] => some []
  | [_] => none
  | byte :: operand :: rest => do
    let op ← Opcode.ofByte? byte
    let is ← decode rest
    return ⟨op, .byte operand⟩ :: is

lemma decode_encode (h : encode n is = .ok bytes) : decode bytes = some is := by
  induction is generalizing n bytes with
  | nil =>
    cases h
    rfl
  | cons inst is ih =>
    obtain ⟨b, rest, hinst, hrest, rfl⟩ := encode_cons_eq_ok h
    rw [decode, ih hrest, Opcode.ofByte?_byte, hinst]
    rfl

end Arbor.Code
