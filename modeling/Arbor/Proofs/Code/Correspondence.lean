import Arbor.Proofs.Code.References
import Arbor.Proofs.Problem.Parallel

/-!
# Code over different constants

Two instructions correspond over two pools of constants if they are the same, or refer to the same
constant, each by the index that it has in its own pool.  Jumps do not depend on constants, so code
corresponds still after jumps have been pointed at its end or taken away, and it is encoded alike.

* `Code.Correspond`: lists of instructions that correspond one by one.
* `Code.Correspond.patch`: patching on both sides.
* `Code.Correspond.encode`: encoding on both sides.
-/

namespace Arbor

/-- Two instructions with one opcode.  If it reads a constant, both read the same one from their
pools, and otherwise their operands are the same. -/
structure Instruction.Corresponds (pool pool' : Pool Constant) (inst inst' : Instruction) :
    Prop where
  opcode_eq : inst'.opcode = inst.opcode
  operand_eq : inst.opcode.readsConstant = false → inst'.operand = inst.operand
  constant_eq : inst.opcode.readsConstant = true → ∃ b b' c,
    inst.operand = .byte b ∧ inst'.operand = .byte b' ∧
      pool.entries[b.toNat]? = some c ∧ pool'.entries[b'.toNat]? = some c

namespace Instruction.Corresponds

variable {pool pool' : Pool Constant} {inst inst' : Instruction}

lemma refl (h : inst.opcode.readsConstant = false) : inst.Corresponds pool pool' inst where
  opcode_eq := rfl
  operand_eq _ := rfl
  constant_eq hreads := absurd hreads (by simp [h])

lemma refl_of_isForwardJump (h : inst.opcode.isForwardJump = true) :
    inst.Corresponds pool pool' inst :=
  refl (Opcode.readsConstant_of_isJump (Opcode.isJump_of_isForwardJump h))

lemma eq_of_readsConstant (h : inst.Corresponds pool pool' inst')
    (hop : inst.opcode.readsConstant = false) : inst' = inst := by
  obtain ⟨op, operand⟩ := inst
  obtain ⟨op', operand'⟩ := inst'
  rw [Instruction.mk.injEq]
  exact ⟨h.opcode_eq, h.operand_eq hop⟩

/-- Jumps are the same on both sides. -/
lemma eq_of_isForwardJump (h : inst.Corresponds pool pool' inst')
    (hop : inst.opcode.isForwardJump = true) : inst' = inst :=
  h.eq_of_readsConstant (Opcode.readsConstant_of_isJump (Opcode.isJump_of_isForwardJump hop))

lemma target?_eq (h : inst.Corresponds pool pool' inst') (i : Nat) :
    inst'.target? i = inst.target? i := by
  by_cases hop : inst.opcode.isForwardJump = true
  · rw [h.eq_of_isForwardJump hop]
  · have hop' : ¬ inst'.opcode.isForwardJump = true := h.opcode_eq ▸ hop
    rw [target?, target?, if_neg hop, if_neg hop']

/-- Either side waits for a target if the other does. -/
lemma pending_or_byte (h : inst.Corresponds pool pool' inst') :
    (∃ op, op.readsConstant = false ∧ inst = ⟨op, .pending⟩ ∧ inst' = ⟨op, .pending⟩) ∨
      ∃ op b b', inst = ⟨op, .byte b⟩ ∧ inst' = ⟨op, .byte b'⟩ := by
  obtain ⟨op, operand⟩ := inst
  obtain ⟨op', operand'⟩ := inst'
  cases h.opcode_eq
  cases hop : op.readsConstant with
  | true =>
    obtain ⟨b, b', -, rfl, rfl, -⟩ := h.constant_eq hop
    exact .inr ⟨op, b, b', rfl, rfl⟩
  | false =>
    cases h.operand_eq hop
    cases operand with
    | pending => exact .inl ⟨op, hop, rfl, rfl⟩
    | byte b => exact .inr ⟨op, b, b, rfl, rfl⟩

/-- Indices stay valid when pools grow. -/
lemma mono {pool₁ pool₁' : Pool Constant} (h : inst.Corresponds pool pool' inst')
    (hpool : pool.entries <+: pool₁.entries) (hpool' : pool'.entries <+: pool₁'.entries) :
    inst.Corresponds pool₁ pool₁' inst' where
  opcode_eq := h.opcode_eq
  operand_eq := h.operand_eq
  constant_eq hop := by
    obtain ⟨b, b', c, hb, hb', hc, hc'⟩ := h.constant_eq hop
    exact ⟨b, b', c, hb, hb', Code.getElem?_of_isPrefix hpool hc,
      Code.getElem?_of_isPrefix hpool' hc'⟩

end Instruction.Corresponds

namespace Code

variable {pool pool' : Pool Constant} {is is' : List Instruction}

/-- Instructions that correspond, one by one. -/
structure Correspond (pool pool' : Pool Constant) (is is' : List Instruction) : Prop where
  length_eq : is'.length = is.length
  get : ∀ {i : Nat} {inst inst' : Instruction}, is[i]? = some inst → is'[i]? = some inst' →
    inst.Corresponds pool pool' inst'

namespace Correspond

lemma nil : Correspond pool pool' [] [] where
  length_eq := rfl
  get h := by cases h

/-- What stands at an index on one side has a counterpart on the other. -/
lemma exists_getElem? (h : Correspond pool pool' is is') {i : Nat} {inst : Instruction}
    (hi : is[i]? = some inst) :
    ∃ inst', is'[i]? = some inst' ∧ inst.Corresponds pool pool' inst' := by
  have hlt : i < is'.length := by
    rw [h.length_eq]
    exact (List.getElem?_eq_some_iff.1 hi).1
  have hi' := List.getElem?_eq_getElem hlt
  exact ⟨_, hi', h.get hi hi'⟩

lemma snoc (h : Correspond pool pool' is is') {inst inst' : Instruction}
    (hinst : inst.Corresponds pool pool' inst') :
    Correspond pool pool' (is ++ [inst]) (is' ++ [inst']) where
  length_eq := by rw [List.length_append, List.length_append, h.length_eq]; rfl
  get := by
    intro i a a' ha ha'
    rcases getElem?_snoc_eq_some_iff.1 ha with ha | ⟨hi, rfl⟩
    · obtain ⟨hlt, -⟩ := List.getElem?_eq_some_iff.1 ha
      rw [List.getElem?_append_left (h.length_eq ▸ hlt)] at ha'
      exact h.get ha ha'
    · have hi' : i = is'.length := hi.trans h.length_eq.symm
      subst hi'
      cases List.getElem?_concat_length.symm.trans ha'
      exact hinst

lemma mono {pool₁ pool₁' : Pool Constant} (h : Correspond pool pool' is is')
    (hpool : pool.entries <+: pool₁.entries) (hpool' : pool'.entries <+: pool₁'.entries) :
    Correspond pool₁ pool₁' is is' where
  length_eq := h.length_eq
  get ha ha' := (h.get ha ha').mono hpool hpool'

lemma dropLast (h : Correspond pool pool' is is') :
    Correspond pool pool' is.dropLast is'.dropLast where
  length_eq := by rw [List.length_dropLast, List.length_dropLast, h.length_eq]
  get := by
    intro i a a' ha ha'
    rw [List.getElem?_dropLast] at ha ha'
    split at ha
    · split at ha'
      · exact h.get ha ha'
      · cases ha'
    · cases ha

/-- The same jumps are shortened on both sides. -/
lemma retarget (h : Correspond pool pool' is is') (stop : Nat) :
    Correspond pool pool' (retarget stop is) (Code.retarget stop is') where
  length_eq := by rw [length_retarget, length_retarget, h.length_eq]
  get := by
    intro i a a' ha ha'
    rw [Code.retarget, List.getElem?_mapIdx] at ha ha'
    obtain ⟨inst, hinst, rfl⟩ := Option.map_eq_some_iff.1 ha
    obtain ⟨inst', hinst', rfl⟩ := Option.map_eq_some_iff.1 ha'
    have hcorr := h.get hinst hinst'
    rw [hcorr.target?_eq]
    split
    · next htarget =>
      obtain ⟨hjump, -⟩ := Instruction.target?_eq_some_iff.1 htarget
      rw [hcorr.eq_of_isForwardJump hjump]
      exact .refl_of_isForwardJump (Instruction.opcode_shorten inst ▸ hjump)
    · exact hcorr

lemma set (h : Correspond pool pool' is is') (i : Nat) {inst : Instruction}
    (hinst : inst.Corresponds pool pool' inst) :
    Correspond pool pool' (is.set i inst) (is'.set i inst) where
  length_eq := by rw [List.length_set, List.length_set, h.length_eq]
  get := by
    intro j a a' ha ha'
    rw [List.getElem?_set] at ha ha'
    by_cases hij : i = j
    · rw [if_pos hij] at ha ha'
      have hlt : i < is.length := by
        by_contra hge
        rw [if_neg hge] at ha
        cases ha
      rw [if_pos hlt] at ha
      rw [if_pos (h.length_eq ▸ hlt)] at ha'
      cases ha
      cases ha'
      exact hinst
    · rw [if_neg hij] at ha ha'
      exact h.get ha ha'

lemma exists_getLast? (h : Correspond pool pool' is is') {inst : Instruction}
    (hlast : is.getLast? = some inst) :
    ∃ inst', is'.getLast? = some inst' ∧ inst.Corresponds pool pool' inst' := by
  rw [List.getLast?_eq_getElem?] at hlast
  rw [List.getLast?_eq_getElem?, h.length_eq]
  exact h.exists_getElem? hlast

lemma eq_nil (h : Correspond pool pool' [] is') : is' = [] :=
  List.eq_nil_of_length_eq_zero h.length_eq

/-- Whether the last instruction leads to some index is the same on both sides. -/
lemma any_getLast?_target? (h : Correspond pool pool' is is') (i t : Nat) :
    (is'.getLast?.any fun inst => inst.target? i = some t)
      = is.getLast?.any fun inst => inst.target? i = some t := by
  cases hlast : is.getLast? with
  | none =>
    cases List.getLast?_eq_none_iff.1 hlast
    rw [h.eq_nil]
    rfl
  | some inst =>
    obtain ⟨inst', hlast', hinst⟩ := h.exists_getLast? hlast
    rw [hlast', Option.any_some, Option.any_some, hinst.target?_eq]

/-- The same jumps over nothing go away on both sides. -/
lemma elide (h : Correspond pool pool' is is') :
    Correspond pool pool' (elide is) (Code.elide is') := by
  induction hn : is.length using Nat.strongRecOn generalizing is is' with
  | ind n ih =>
    cases hlast : is.getLast? with
    | none =>
      cases List.getLast?_eq_none_iff.1 hlast
      rw [h.eq_nil, Code.elide.eq_def]
      exact .nil
    | some last =>
      obtain ⟨last', hlast', hinst⟩ := h.exists_getLast? hlast
      have hlt : is.dropLast.length < n := by
        have hpos := List.length_pos_of_mem (List.mem_of_getLast? hlast)
        rw [List.length_dropLast]
        omega
      rw [Code.elide.eq_def is, Code.elide.eq_def is', hlast, hlast']
      dsimp only
      rw [hinst.opcode_eq, h.dropLast.any_getLast?_target?, h.dropLast.length_eq, h.length_eq]
      split
      · exact h.dropLast.snoc (.refl rfl)
      · split
        · exact ih _ hlt (h.dropLast.retarget _) (length_retarget _ _)
        · exact h.dropLast.retarget _

/-- A reserved jump is pointed at the end on both sides, or on neither. -/
lemma patch {c c' : Code} (h : Correspond pool pool' c.instructions c'.instructions)
    (anchor : Anchor) :
    Alike (fun d d' => Correspond pool pool' d.instructions d'.instructions)
      (c.patch anchor) (c'.patch anchor) := by
  have hsize : c'.size = c.size := h.length_eq
  rw [Code.patch_eq, Code.patch_eq, hsize]
  split
  · exact .ok h.elide
  · split
    · exact .error _
    · cases hi : c.instructions[anchor.index]? with
      | none =>
        have hi' : c'.instructions[anchor.index]? = none :=
          List.getElem?_eq_none (by rw [h.length_eq]; exact List.getElem?_eq_none_iff.1 hi)
        rw [hi']
        exact .error _
      | some inst =>
        obtain ⟨inst', hi', hinst⟩ := h.exists_getElem? hi
        rw [hi']
        rcases hinst.pending_or_byte with ⟨op, hop, rfl, rfl⟩ | ⟨op, b, b', rfl, rfl⟩
        · exact .ok (h.set _ (.refl hop))
        · exact .error _

lemma exists_eq_cons {inst : Instruction} (h : Correspond pool pool' (inst :: is) is') :
    ∃ inst' js, is' = inst' :: js ∧ inst.Corresponds pool pool' inst' ∧
      Correspond pool pool' is js := by
  cases is' with
  | nil => cases h.length_eq
  | cons inst' js =>
    have hinst : inst.Corresponds pool pool' inst' := @Correspond.get _ _ _ _ h 0 _ _ rfl rfl
    refine ⟨inst', js, rfl, hinst, Nat.succ.inj h.length_eq, ?_⟩
    intro i a a' ha ha'
    exact @Correspond.get _ _ _ _ h (i + 1) _ _ ha ha'

/-- Jumps that were not patched are the same on both sides, so both are encoded or neither. -/
lemma encode (h : Correspond pool pool' is is') (n : Nat) :
    Alike (fun _ _ => True) (encode n is) (Code.encode n is') := by
  induction is generalizing is' n with
  | nil =>
    rw [h.eq_nil]
    exact .ok trivial
  | cons inst is ih =>
    obtain ⟨inst', is', rfl, hinst, hrest⟩ := h.exists_eq_cons
    rcases hinst.pending_or_byte with ⟨op, -, rfl, rfl⟩ | ⟨op, b, b', rfl, rfl⟩
    · exact .error _
    · have hends := ih hrest (n + 1)
      rw [Code.encode, Code.encode]
      generalize Code.encode (n + 1) is = r at hends ⊢
      generalize Code.encode (n + 1) is' = r' at hends ⊢
      cases hends with
      | ok _ => exact .ok trivial
      | error p => exact .error p

end Correspond

end Code

end Arbor
