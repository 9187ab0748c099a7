import Arbor.Proofs.Code.Assembly
import Mathlib.Data.List.Basic
import Mathlib.Tactic.Lemma

/-!
# What patching does to code

Patching a reserved jump points it at the end of the code, and a jump over nothing goes away.  The
shortened code is the old code *clipped*: if its length is `n`, then an index `i` of the old code
has become `min i n`, and every jump that led to `t` now leads to `min t n`.  A removed jump is one
that was clipped to nothing, and a conditional one that was clipped to nothing is a `drop`.

* `Code.Linked` says that resolved jumps lead forward into the code or to its end.
* `Code.Clips` lists the fate of every instruction, the patched jump included.
* `Code.clips_of_patch` shows that `Code.patch` does just that.

Nothing else needs to be known of `Code.patch`: what holds of code before and after follows from
the fate of its instructions.
-/

namespace Arbor

/-! ## Targets -/

namespace Instruction

lemma target?_eq_some_iff {inst : Instruction} {i t : Nat} :
    inst.target? i = some t ↔
      inst.opcode.isForwardJump = true ∧ ∃ b, inst.operand = .byte b ∧ i + 1 + b.toNat = t := by
  obtain ⟨op, operand⟩ := inst
  cases operand <;> by_cases hop : op.isForwardJump <;> simp [target?, hop]

lemma target?_byte {op : Opcode} (hop : op.isForwardJump = true) (b : UInt8) (i : Nat) :
    (Instruction.mk op (.byte b)).target? i = some (i + 1 + b.toNat) := by
  simp [target?, hop]

@[simp] lemma target?_pending (op : Opcode) (i : Nat) :
    (Instruction.mk op .pending).target? i = none := by
  simp [target?]

@[simp] lemma opcode_shorten (inst : Instruction) : inst.shorten.opcode = inst.opcode := by
  unfold shorten
  split <;> rfl

/-- A jump with a positive distance is shortened to lead one instruction less far. -/
lemma exists_shorten_eq {inst : Instruction} {i t : Nat} (ht : inst.target? i = some t)
    (hpos : i + 1 < t) :
    ∃ b : UInt8, inst.shorten = ⟨inst.opcode, .byte b⟩ ∧ i + 1 + b.toNat = t - 1 := by
  obtain ⟨-, b, hb, hdist⟩ := target?_eq_some_iff.1 ht
  have hone : (1 : UInt8) ≤ b := by
    rw [UInt8.le_iff_toNat_le]
    simp
    omega
  refine ⟨b - 1, ?_, ?_⟩
  · simp [shorten, hb]
  · rw [UInt8.toNat_sub_of_le _ _ hone]
    simp
    omega

end Instruction

namespace Code

/-! ## Linked code -/

/-- The jump at an index waits for its target. -/
def IsPending (is : List Instruction) (i : Nat) : Prop := ∃ op, is[i]? = some ⟨op, .pending⟩

/-- Resolved jumps lead past the next instruction and no further than to the end of the code, and
only jumps wait for a target. -/
structure Linked (is : List Instruction) : Prop where
  target : ∀ {i : Nat} {inst : Instruction} {t : Nat},
    is[i]? = some inst → inst.target? i = some t → i + 1 < t ∧ t ≤ is.length
  pending : ∀ {i : Nat} {op : Opcode}, is[i]? = some ⟨op, .pending⟩ → op.isForwardJump = true

lemma IsPending.lt {is : List Instruction} {i : Nat} (h : IsPending is i) : i < is.length := by
  obtain ⟨op, hop⟩ := h
  exact (List.getElem?_eq_some_iff.1 hop).1

lemma getElem?_of_isPrefix {α : Type} {xs ys : List α} {x : α} {i : Nat} (h : xs <+: ys)
    (hi : xs[i]? = some x) : ys[i]? = some x := by
  obtain ⟨rest, rfl⟩ := h
  exact (List.getElem?_append_left (List.getElem?_eq_some_iff.1 hi).1).trans hi

lemma getElem?_snoc_eq_some_iff {α : Type} {xs : List α} {x y : α} {i : Nat} :
    (xs ++ [x])[i]? = some y ↔ xs[i]? = some y ∨ (i = xs.length ∧ x = y) := by
  rw [List.getElem?_append]
  split
  · next hi => simp [Nat.ne_of_lt hi]
  · next hi =>
    have hnone : xs[i]? = none := List.getElem?_eq_none (Nat.le_of_not_lt hi)
    rw [List.getElem?_singleton, hnone]
    split <;> simp <;> omega

lemma exists_eq_snoc {α : Type} {xs : List α} {x : α} {i : Nat} (hi : xs[i]? = some x)
    (hlast : i + 1 = xs.length) : ∃ init, xs = init ++ [x] ∧ i = init.length := by
  obtain rfl | ⟨init, last, rfl⟩ := xs.eq_nil_or_concat'
  · cases hi
  · obtain rfl : i = init.length := by simpa using hlast
    obtain rfl : last = x := by simpa using hi
    exact ⟨init, rfl, rfl⟩

lemma linked_nil : Linked [] where
  target h := by simp at h
  pending h := by simp at h

/-- Code stays linked when an instruction that leads nowhere yet is added. -/
lemma Linked.snoc {is : List Instruction} (h : Linked is) {inst : Instruction}
    (hresolved : ∀ i, inst.target? i = none)
    (hpending : inst.operand = .pending → inst.opcode.isForwardJump = true) :
    Linked (is ++ [inst]) where
  target := by
    intro i inst' t hi ht
    rcases getElem?_snoc_eq_some_iff.1 hi with hi | ⟨-, rfl⟩
    · have := h.target hi ht
      simp only [List.length_append, List.length_singleton]
      omega
    · rw [hresolved] at ht
      cases ht
  pending := by
    intro i op hi
    rcases getElem?_snoc_eq_some_iff.1 hi with hi | ⟨-, rfl⟩
    · exact h.pending hi
    · exact hpending rfl

lemma Linked.push {is : List Instruction} (h : Linked is) {op : Opcode}
    (hop : op.isForwardJump = false) (b : UInt8) : Linked (is ++ [⟨op, .byte b⟩]) :=
  h.snoc (fun i => by simp [Instruction.target?, hop]) nofun

lemma Linked.reserve {is : List Instruction} (h : Linked is) {op : Opcode}
    (hop : op.isForwardJump = true) : Linked (is ++ [⟨op, .pending⟩]) :=
  h.snoc (fun i => by simp) fun _ => hop

/-! ## Clipping -/

/-- Where jumps lead once the reserved jump at index `a` points at the end: the jump at index `i` is
an `op` that leads to `t`. -/
def Leads (is : List Instruction) (a i : Nat) (op : Opcode) (t : Nat) : Prop :=
  op.isForwardJump = true ∧
    ((∃ b : UInt8, is[i]? = some ⟨op, .byte b⟩ ∧ i + 1 + b.toNat = t) ∨
      (i = a ∧ is[i]? = some ⟨op, .pending⟩ ∧ t = is.length))

/-- The fate of every instruction when the reserved jump at index `a` is pointed at the end. -/
structure Clips (a : Nat) (is is' : List Instruction) : Prop where
  length_le : is'.length ≤ is.length
  /-- Instructions that do not jump forward stay. -/
  plain : ∀ {i : Nat} {inst : Instruction},
    is[i]? = some inst → inst.opcode.isForwardJump = false → is'[i]? = some inst
  /-- Other jumps that wait for their target still do. -/
  pending : ∀ {i : Nat} {op : Opcode},
    is[i]? = some ⟨op, .pending⟩ → i ≠ a → is'[i]? = some ⟨op, .pending⟩
  /-- A jump is removed, or popping its condition is all that is left of it, or it leads to what its
  target has become. -/
  jump : ∀ {i : Nat} {op : Opcode} {t : Nat}, Leads is a i op t →
    (op = .jump ∧ is'.length ≤ i) ∨
    (op = .jumpUnless ∧ i + 1 = is'.length ∧ is'[i]? = some ⟨.drop, .byte 0⟩) ∨
    ∃ b : UInt8, is'[i]? = some ⟨op, .byte b⟩ ∧ i + 1 + b.toNat = min t is'.length ∧ 0 < b.toNat

/-! ## Elision -/

lemma getElem?_retarget (stop : Nat) (is : List Instruction) (i : Nat) :
    (retarget stop is)[i]? =
      is[i]?.map fun inst => if inst.target? i = some stop then inst.shorten else inst := by
  simp [retarget]

lemma getElem?_retarget_of_ne {stop : Nat} {is : List Instruction} {i : Nat} {inst : Instruction}
    (hi : is[i]? = some inst) (ht : inst.target? i ≠ some stop) :
    (retarget stop is)[i]? = some inst := by
  simp [getElem?_retarget, hi, ht]

lemma retarget_snoc (stop : Nat) (is : List Instruction) (inst : Instruction) :
    retarget stop (is ++ [inst]) =
      retarget stop is ++ [if inst.target? is.length = some stop then inst.shorten else inst] := by
  simp [retarget]

/-- Elision of a jump at the end, with the operand of that jump left out of account. -/
lemma elide_snoc (is : List Instruction) (op : Opcode) (operand : Operand) :
    elide (is ++ [⟨op, operand⟩]) =
      if op = .jumpUnless then is ++ [⟨.drop, .byte 0⟩]
      else if is.getLast?.any (fun i => i.target? (is.length - 1) = some (is.length + 1)) then
        elide (retarget (is.length + 1) is)
      else retarget (is.length + 1) is := by
  rw [elide]
  simp

lemma elide_congr (is : List Instruction) (op : Opcode) (operand operand' : Operand) :
    elide (is ++ [⟨op, operand⟩]) = elide (is ++ [⟨op, operand'⟩]) := by
  rw [elide_snoc, elide_snoc]

/-- When the jump at the end goes away, a jump over it alone is left at the end. -/
lemma exists_cascade {is : List Instruction}
    (h : is.getLast?.any
      (fun i => i.target? (is.length - 1) = some (is.length + 1)) = true) :
    ∃ init op b c, is = init ++ [⟨op, .byte b⟩] ∧ op.isForwardJump = true ∧
      retarget (is.length + 1) is = retarget (init.length + 2) init ++ [⟨op, .byte c⟩] := by
  obtain rfl | ⟨init, last, rfl⟩ := is.eq_nil_or_concat'
  · simp at h
  · have htarget : last.target? init.length = some (init.length + 2) := by simpa using h
    obtain ⟨hop, b, hb, -⟩ := Instruction.target?_eq_some_iff.1 htarget
    obtain ⟨c, hc, -⟩ := Instruction.exists_shorten_eq htarget (by omega)
    obtain ⟨op, operand⟩ := last
    obtain rfl : operand = .byte b := hb
    refine ⟨init, op, b, c, rfl, hop, ?_⟩
    rw [List.length_append, List.length_singleton, retarget_snoc, if_pos htarget, hc]

/-- What shortening the jumps to `stop` makes of a resolved jump. -/
lemma getElem?_retarget_of_byte (stop : Nat) {is : List Instruction} {i : Nat} {op : Opcode}
    {b : UInt8} (hop : op.isForwardJump = true) (hi : is[i]? = some ⟨op, .byte b⟩)
    (hpos : 0 < b.toNat) :
    ∃ b' : UInt8, (retarget stop is)[i]? = some ⟨op, .byte b'⟩ ∧
      i + 1 + b'.toNat =
        if i + 1 + b.toNat = stop then stop - 1 else i + 1 + b.toNat := by
  have ht := Instruction.target?_byte hop b i
  by_cases hstop : i + 1 + b.toNat = stop
  · obtain ⟨b', hb', hdist⟩ := Instruction.exists_shorten_eq ht (by omega)
    refine ⟨b', ?_, ?_⟩
    · rw [getElem?_retarget, hi]
      simp [ht, hstop, hb']
    · rw [if_pos hstop, hdist, hstop]
  · refine ⟨b, getElem?_retarget_of_ne hi ?_, by rw [if_neg hstop]⟩
    rw [ht]
    simpa using hstop

/-- Removing the jump at the end and shortening those that led to the old end clips the code, as
long as that leaves no jump over nothing before it. -/
lemma clips_retarget {is : List Instruction} (h : Linked (is ++ [⟨.jump, .pending⟩]))
    (hlast : is.getLast?.any
      (fun i => i.target? (is.length - 1) = some (is.length + 1)) = false) :
    Clips is.length (is ++ [⟨.jump, .pending⟩]) (retarget (is.length + 1) is) where
  length_le := by simp
  plain := by
    intro i inst hi hop
    rcases getElem?_snoc_eq_some_iff.1 hi with hi | ⟨-, rfl⟩
    · refine getElem?_retarget_of_ne hi ?_
      simp [Instruction.target?, hop]
    · cases hop
  pending := by
    intro i op hi hne
    rcases getElem?_snoc_eq_some_iff.1 hi with hi | ⟨hi, -⟩
    · exact getElem?_retarget_of_ne hi (by simp)
    · exact absurd hi hne
  jump := by
    rintro i op t ⟨hop, ⟨b, hi, ht⟩ | ⟨rfl, hi, -⟩⟩
    · have hlink := h.target hi (Instruction.target?_byte hop b i)
      rcases getElem?_snoc_eq_some_iff.1 hi with hi | ⟨-, hbad⟩
      · have hlt := (List.getElem?_eq_some_iff.1 hi).1
        obtain ⟨b', hb', hdist⟩ :=
          getElem?_retarget_of_byte (is.length + 1) hop hi (by omega)
        rw [List.length_append, List.length_singleton] at hlink
        -- a jump over the removed instruction alone would be the last one
        have hfar : i + 1 + b.toNat = is.length + 1 → i + 1 ≠ is.length := by
          intro hend hi'
          have hget : is.getLast? = some ⟨op, .byte b⟩ := by
            rw [List.getLast?_eq_getElem?, ← hi, ← hi', Nat.add_sub_cancel]
          rw [hget, ← hi'] at hlast
          simp [Instruction.target?_byte hop] at hlast
          omega
        refine .inr (.inr ⟨b', hb', ?_, ?_⟩)
        · rw [length_retarget, hdist]
          split <;> omega
        · split at hdist <;> omega
      · cases hbad
    · rcases getElem?_snoc_eq_some_iff.1 hi with hi | ⟨-, heq⟩
      · simp at hi
      · cases heq
        exact .inl ⟨rfl, by simp⟩

/-- Shortened code stays linked as long as its last jump is left out. -/
lemma Linked.retarget {is : List Instruction} {op : Opcode} {b : UInt8}
    (h : Linked (is ++ [⟨op, .byte b⟩] ++ [⟨.jump, .pending⟩])) (hop : op.isForwardJump = true) :
    Linked (Code.retarget (is.length + 2) is ++ [⟨op, .pending⟩]) where
  target := by
    intro i inst t hi ht
    rcases getElem?_snoc_eq_some_iff.1 hi with hi | ⟨-, rfl⟩
    · obtain ⟨hjump, b', hb', hdist'⟩ := Instruction.target?_eq_some_iff.1 ht
      rw [getElem?_retarget] at hi
      obtain ⟨old, hold, rfl⟩ := Option.map_eq_some_iff.1 hi
      have hlt := (List.getElem?_eq_some_iff.1 hold).1
      have hfull : (is ++ [⟨op, .byte b⟩] ++ [⟨.jump, .pending⟩])[i]? = some old :=
        getElem?_snoc_eq_some_iff.2 (.inl (getElem?_snoc_eq_some_iff.2 (.inl hold)))
      simp only [List.length_append, length_retarget, List.length_singleton]
      split at ht
      · next hstop =>
        have hlink := h.target hfull hstop
        obtain ⟨c, hc, hdist⟩ := Instruction.exists_shorten_eq hstop hlink.1
        rw [if_pos hstop, hc] at hb'
        cases hb'
        omega
      · next hne =>
        have hlink := h.target hfull ht
        have : t ≠ is.length + 2 := fun heq => hne (heq ▸ ht)
        simp only [List.length_append, List.length_singleton] at hlink
        omega
    · simp at ht
  pending := by
    intro i op' hi
    rcases getElem?_snoc_eq_some_iff.1 hi with hi | ⟨-, heq⟩
    · rw [getElem?_retarget] at hi
      obtain ⟨old, hold, heq⟩ := Option.map_eq_some_iff.1 hi
      have hfull : (is ++ [⟨op, .byte b⟩] ++ [⟨.jump, .pending⟩])[i]? = some old :=
        getElem?_snoc_eq_some_iff.2 (.inl (getElem?_snoc_eq_some_iff.2 (.inl hold)))
      split at heq
      · next hstop =>
        obtain ⟨c, hc, -⟩ := Instruction.exists_shorten_eq hstop (h.target hfull hstop).1
        rw [hc] at heq
        cases heq
      · subst heq
        exact h.pending hfull
    · cases heq
      exact hop

/-- Clipping in two steps: when the jump at the end is removed, the one before it, which led to the
old end as well, is in the position of a reserved jump that is pointed at the new end. -/
lemma Clips.cascade {is is' : List Instruction} {op : Opcode} {b : UInt8}
    (h : Linked (is ++ [⟨op, .byte b⟩] ++ [⟨.jump, .pending⟩])) (hop : op.isForwardJump = true)
    (hclip : Clips is.length (retarget (is.length + 2) is ++ [⟨op, .pending⟩]) is') :
    Clips (is.length + 1) (is ++ [⟨op, .byte b⟩] ++ [⟨.jump, .pending⟩]) is' := by
  have hle : is'.length ≤ is.length + 1 := by simpa using hclip.length_le
  constructor
  case length_le =>
    simp only [List.length_append, List.length_singleton]
    omega
  case plain =>
    intro i inst hi hno
    rcases getElem?_snoc_eq_some_iff.1 hi with hi | ⟨-, rfl⟩
    · rcases getElem?_snoc_eq_some_iff.1 hi with hi | ⟨-, rfl⟩
      · have hne : inst.target? i ≠ some (is.length + 2) := by simp [Instruction.target?, hno]
        exact hclip.plain (getElem?_snoc_eq_some_iff.2 (.inl (getElem?_retarget_of_ne hi hne))) hno
      · exact absurd hop (by simpa using hno)
    · cases hno
  case pending =>
    intro i op' hi hne
    rcases getElem?_snoc_eq_some_iff.1 hi with hi | ⟨hi, -⟩
    · rcases getElem?_snoc_eq_some_iff.1 hi with hi | ⟨-, hbad⟩
      · have hlt := (List.getElem?_eq_some_iff.1 hi).1
        exact hclip.pending
          (getElem?_snoc_eq_some_iff.2 (.inl (getElem?_retarget_of_ne hi (by simp)))) (by omega)
      · cases hbad
    · simp only [List.length_append, List.length_singleton] at hi
      exact absurd hi hne
  case jump =>
    rintro i op' t ⟨hop', ⟨b', hi, ht⟩ | ⟨rfl, hi, -⟩⟩
    · have hlink := h.target hi (Instruction.target?_byte hop' b' i)
      simp only [List.length_append, List.length_singleton] at hlink
      rcases getElem?_snoc_eq_some_iff.1 hi with hi | ⟨-, hbad⟩
      · rcases getElem?_snoc_eq_some_iff.1 hi with hi | ⟨rfl, heq⟩
        · -- an earlier jump, shortened if it led to the old end
          obtain ⟨c, hc, hdist⟩ :=
            getElem?_retarget_of_byte (is.length + 2) hop' hi (by omega)
          have hleads : Leads (retarget (is.length + 2) is ++ [⟨op, .pending⟩]) is.length i op'
              (i + 1 + c.toNat) :=
            ⟨hop', .inl ⟨c, getElem?_snoc_eq_some_iff.2 (.inl hc), rfl⟩⟩
          have hmin : min (i + 1 + c.toNat) is'.length = min t is'.length := by
            split at hdist <;> omega
          rw [← hmin]
          exact hclip.jump hleads
        · -- the jump before the removed one, which was over it alone
          cases heq
          have hleads : Leads (retarget (is.length + 2) is ++ [⟨op, .pending⟩]) is.length is.length
              op (is.length + 1) :=
            ⟨hop, .inr ⟨rfl, getElem?_snoc_eq_some_iff.2 (.inr ⟨by simp, rfl⟩), by simp⟩⟩
          rcases hclip.jump hleads with hgone | hdrop | ⟨c, -, hdist, hpos⟩
          · exact .inl hgone
          · exact .inr (.inl hdrop)
          · omega
      · cases hbad
    · rcases getElem?_snoc_eq_some_iff.1 hi with hi | ⟨-, heq⟩
      · simp at hi
      · cases heq
        exact .inl ⟨rfl, hle⟩

/-- Turning a conditional jump at the end into a `drop` clips nothing off. -/
lemma clips_drop {is : List Instruction} (h : Linked (is ++ [⟨.jumpUnless, .pending⟩])) :
    Clips is.length (is ++ [⟨.jumpUnless, .pending⟩]) (is ++ [⟨.drop, .byte 0⟩]) where
  length_le := by simp
  plain := by
    intro i inst hi hno
    rcases getElem?_snoc_eq_some_iff.1 hi with hi | ⟨-, rfl⟩
    · exact getElem?_snoc_eq_some_iff.2 (.inl hi)
    · cases hno
  pending := by
    intro i op hi hne
    rcases getElem?_snoc_eq_some_iff.1 hi with hi | ⟨hi, -⟩
    · exact getElem?_snoc_eq_some_iff.2 (.inl hi)
    · exact absurd hi hne
  jump := by
    rintro i op t ⟨hop, ⟨b, hi, ht⟩ | ⟨rfl, hi, -⟩⟩
    · have hlink := h.target hi (Instruction.target?_byte hop b i)
      rcases getElem?_snoc_eq_some_iff.1 hi with hi | ⟨-, hbad⟩
      · refine .inr (.inr ⟨b, getElem?_snoc_eq_some_iff.2 (.inl hi), ?_, by omega⟩)
        simp only [List.length_append, List.length_singleton] at hlink ⊢
        omega
      · cases hbad
    · rcases getElem?_snoc_eq_some_iff.1 hi with hi | ⟨-, heq⟩
      · simp at hi
      · cases heq
        exact .inr (.inl ⟨rfl, by simp, by simp⟩)

/-- Elision clips the code.  The induction is on its length: a cascade goes on with the code that is
left when the jump at the end is gone. -/
theorem clips_elide (is : List Instruction) (op : Opcode) (h : Linked (is ++ [⟨op, .pending⟩])) :
    Clips is.length (is ++ [⟨op, .pending⟩]) (elide (is ++ [⟨op, .pending⟩])) := by
  induction hn : is.length using Nat.strongRecOn generalizing is op with
  | ind n ih =>
    subst hn
    have hop : op.isForwardJump = true := h.pending (i := is.length) (by simp)
    rw [elide_snoc]
    split
    · next hunless =>
      subst hunless
      exact clips_drop h
    · next hunless =>
      have hjump : op = .jump := by cases op <;> simp_all [Opcode.isForwardJump]
      subst hjump
      split
      · next hany =>
        obtain ⟨init, op, b, c, rfl, hop, hretarget⟩ := exists_cascade hany
        have hrest := ih init.length (by simp) (retarget (init.length + 2) init) op
          (h.retarget hop) (length_retarget _ _)
        rw [hretarget, elide_congr _ _ (.byte c) .pending]
        simp only [List.length_append, List.length_singleton]
        exact hrest.cascade h hop
      · next hany => exact clips_retarget h (by simpa using hany)

/-! ## Patching -/

/-- Pointing a jump that is not the last instruction at the end clips nothing off. -/
lemma clips_set {is : List Instruction} {a : Nat} {op : Opcode} (h : Linked is)
    (ha : is[a]? = some ⟨op, .pending⟩) (hlt : a + 1 < is.length)
    (hfit : is.length - (a + 1) < 256) :
    Clips a is (is.set a ⟨op, .byte (UInt8.ofNat (is.length - (a + 1)))⟩) := by
  have hget : ∀ {i : Nat} {inst : Instruction}, is[i]? = some inst → i ≠ a →
      (is.set a ⟨op, .byte (UInt8.ofNat (is.length - (a + 1)))⟩)[i]? = some inst := by
    intro i inst hi hne
    rw [List.getElem?_set_ne hne.symm, hi]
  constructor
  case length_le => simp
  case plain =>
    intro i inst hi hno
    refine hget hi fun hia => ?_
    subst hia
    rw [ha] at hi
    cases hi
    exact absurd (h.pending ha) (by simpa using hno)
  case pending =>
    intro i op' hi hne
    exact hget hi hne
  case jump =>
    rintro i op' t ⟨hop, ⟨b, hi, ht⟩ | ⟨rfl, hi, rfl⟩⟩
    · have hne : i ≠ a := fun hia => by
        subst hia
        rw [ha] at hi
        cases hi
      have hlink := h.target hi (Instruction.target?_byte hop b i)
      refine .inr (.inr ⟨b, hget hi hne, ?_, by omega⟩)
      rw [List.length_set]
      omega
    · rw [ha] at hi
      cases hi
      refine .inr (.inr ⟨_, List.getElem?_set_self (by omega), ?_, ?_⟩)
      · rw [List.length_set, UInt8.toNat_ofNat_of_lt' hfit]
        omega
      · rw [UInt8.toNat_ofNat_of_lt' hfit]
        omega

/-- Patching a reserved jump clips the code. -/
theorem clips_of_patch {c c' : Code} {a : Anchor} (h : Linked c.instructions)
    (ha : IsPending c.instructions a.index) (hpatch : c.patch a = .ok c') :
    Clips a.index c.instructions c'.instructions := by
  obtain ⟨op, hop⟩ := ha
  rw [patch_eq] at hpatch
  split at hpatch
  · next hlast =>
    cases hpatch
    obtain ⟨init, hinit, hindex⟩ := exists_eq_snoc hop hlast
    rw [hinit] at h ⊢
    rw [hindex]
    exact clips_elide init op h
  · next hlast =>
    have hlt := (List.getElem?_eq_some_iff.1 hop).1
    simp only [hop] at hpatch
    split at hpatch
    · cases hpatch
    · next hfit =>
      cases hpatch
      unfold size at hlast hfit
      exact clips_set h hop (by omega) (by omega)

/-- A jump that waits can be patched, unless it would lead too far. -/
lemma eq_jumpTooFar_of_patch {c : Code} {a : Anchor} {p : Problem}
    (ha : IsPending c.instructions a.index) (h : c.patch a = .error p) :
    ∃ n, 256 ≤ n ∧ p = .defect (.jumpTooFar n) := by
  obtain ⟨op, hop⟩ := ha
  rw [patch_eq] at h
  by_cases hend : a.index + 1 = c.size
  · rw [if_pos hend] at h
    cases h
  · rw [if_neg hend] at h
    by_cases hfar : 256 ≤ c.size - (a.index + 1)
    · rw [if_pos hfar] at h
      cases h
      exact ⟨_, hfar, rfl⟩
    · rw [if_neg hfar, hop] at h
      cases h

/-! ## Consequences of clipping -/

variable {a : Nat} {is is' : List Instruction}

/-- Only jumps are clipped off, and of those that wait only the patched one. -/
lemma Clips.leads_of_length_le (h : Clips a is is') {i : Nat} {inst : Instruction}
    (hi : is[i]? = some inst) (hgone : is'.length ≤ i) : ∃ t, Leads is a i inst.opcode t := by
  have hnone : is'[i]? = none := List.getElem?_eq_none hgone
  obtain ⟨op, operand⟩ := inst
  by_cases hop : op.isForwardJump = true
  · cases operand with
    | byte b => exact ⟨_, hop, .inl ⟨b, hi, rfl⟩⟩
    | pending =>
      by_cases hia : i = a
      · exact ⟨_, hop, .inr ⟨hia, hi, rfl⟩⟩
      · rw [h.pending hi hia] at hnone
        cases hnone
  · have := h.plain hi (by simpa using hop)
    rw [this] at hnone
    cases hnone

/-- The fate of the instruction that is found at an index of clipped code. -/
lemma Clips.cases_getElem? (h : Clips a is is') {i : Nat} {inst' : Instruction}
    (hi : is'[i]? = some inst') :
    (is[i]? = some inst' ∧
      (inst'.opcode.isForwardJump = false ∨ (inst'.operand = .pending ∧ i ≠ a))) ∨
    ∃ op t, Leads is a i op t ∧
      ((op = .jumpUnless ∧ i + 1 = is'.length ∧ inst' = ⟨.drop, .byte 0⟩) ∨
        ∃ b : UInt8, inst' = ⟨op, .byte b⟩ ∧ i + 1 + b.toNat = min t is'.length ∧ 0 < b.toNat) := by
  have hlt := (List.getElem?_eq_some_iff.1 hi).1
  have hlt' : i < is.length := Nat.lt_of_lt_of_le hlt h.length_le
  obtain ⟨⟨op, operand⟩, hold⟩ : ∃ inst, is[i]? = some inst := ⟨_, List.getElem?_eq_getElem hlt'⟩
  by_cases hop : op.isForwardJump = true
  · have hjump : ∀ t, Leads is a i op t →
        (op = .jumpUnless ∧ i + 1 = is'.length ∧ inst' = ⟨.drop, .byte 0⟩) ∨
          ∃ b : UInt8, inst' = ⟨op, .byte b⟩ ∧ i + 1 + b.toNat = min t is'.length ∧
            0 < b.toNat := by
      intro t hleads
      rcases h.jump hleads with ⟨-, hgone⟩ | ⟨hunless, hend, hdrop⟩ | ⟨b, hb, hdist⟩
      · omega
      · rw [hi] at hdrop
        exact .inl ⟨hunless, hend, Option.some.inj hdrop⟩
      · rw [hi] at hb
        exact .inr ⟨b, Option.some.inj hb, hdist⟩
    cases operand with
    | byte b =>
      have hleads : Leads is a i op (i + 1 + b.toNat) := ⟨hop, .inl ⟨b, hold, rfl⟩⟩
      exact .inr ⟨op, _, hleads, hjump _ hleads⟩
    | pending =>
      by_cases hia : i = a
      · have hleads : Leads is a i op is.length := ⟨hop, .inr ⟨hia, hold, rfl⟩⟩
        exact .inr ⟨op, _, hleads, hjump _ hleads⟩
      · have hsame := h.pending hold hia
        rw [hi] at hsame
        cases hsame
        exact .inl ⟨hold, .inr ⟨rfl, hia⟩⟩
  · have hsame := h.plain hold (by simpa using hop)
    rw [hi] at hsame
    cases hsame
    exact .inl ⟨hold, .inl (by simpa using hop)⟩

/-- Clipped code is linked. -/
lemma Clips.linked (h : Clips a is is') (hlink : Linked is) : Linked is' where
  target := by
    intro i inst' t hi ht
    rcases h.cases_getElem? hi with ⟨hold, hno | ⟨hpending, -⟩⟩ | ⟨op, t', -, hfate⟩
    · simp [Instruction.target?, hno] at ht
    · simp [Instruction.target?, hpending] at ht
    · rcases hfate with ⟨-, -, rfl⟩ | ⟨b, rfl, hdist, hpos⟩
      · cases ht
      · obtain ⟨-, c, hc, rfl⟩ := Instruction.target?_eq_some_iff.1 ht
        cases hc
        omega
  pending := by
    intro i op hi
    rcases h.cases_getElem? hi with ⟨hold, -⟩ | ⟨op, t', -, ⟨-, -, hbad⟩ | ⟨b, hbad, -⟩⟩
    · exact hlink.pending hold
    · cases hbad
    · cases hbad

/-- Jumps lead past the instruction after them, and the patched one leads at least there. -/
lemma Linked.lt_of_leads (hlink : Linked is) {i t : Nat} {op : Opcode} (h : Leads is a i op t) :
    i + 1 ≤ t ∧ t ≤ is.length ∧ (i ≠ a → i + 1 < t) := by
  obtain ⟨hop, ⟨b, hi, rfl⟩ | ⟨rfl, hi, rfl⟩⟩ := h
  · have := hlink.target hi (Instruction.target?_byte hop b i)
    omega
  · have := (List.getElem?_eq_some_iff.1 hi).1
    omega

/-- Code that is linked by itself is left alone when a jump after it is patched. -/
lemma Clips.exists_append {is rest : List Instruction} (h : Clips a (is ++ rest) is')
    (hlink : Linked is) (hall : Linked (is ++ rest)) (ha : is.length ≤ a) :
    ∃ rest', is' = is ++ rest' := by
  have hpre : ∀ {i : Nat} {inst : Instruction}, is[i]? = some inst →
      (is ++ rest)[i]? = some inst := by
    intro i inst hi
    rw [List.getElem?_append_left (List.getElem?_eq_some_iff.1 hi).1, hi]
  -- where the jumps of the first part lead
  have hleads : ∀ {i t : Nat} {op : Opcode}, i < is.length → Leads (is ++ rest) a i op t →
      t ≤ is.length := by
    rintro i t op hi ⟨hop, ⟨b, hb, rfl⟩ | ⟨rfl, -⟩⟩
    · rw [List.getElem?_append_left hi] at hb
      exact (hlink.target hb (Instruction.target?_byte hop b i)).2
    · omega
  have hlen : is.length ≤ is'.length := by
    by_contra hlt
    have hpos : is.length - 1 < is.length := by omega
    obtain ⟨t, ht⟩ := h.leads_of_length_le (hpre (List.getElem?_eq_getElem hpos)) (by omega)
    have := hleads hpos ht
    have := (hall.lt_of_leads ht).2.2 (by omega)
    omega
  refine ⟨is'.drop is.length, ?_⟩
  have htake : is'.take is.length = is := by
    refine List.ext_getElem? fun i => ?_
    by_cases hi : i < is.length
    · rw [List.getElem?_take_of_lt hi]
      have hlt' : i < is'.length := by omega
      have hget := List.getElem?_eq_getElem hlt'
      rcases h.cases_getElem? hget with ⟨hold, -⟩ | ⟨op, t, ht, hfate⟩
      · rw [List.getElem?_append_left hi] at hold
        rw [hold, hget]
      · have hle := hleads hi ht
        have hne : i ≠ a := by omega
        have hlt := (hall.lt_of_leads ht).2.2 hne
        rcases hfate with ⟨-, hend, -⟩ | ⟨b, hb, hdist, -⟩
        · omega
        · obtain ⟨-, ⟨c, hc, rfl⟩ | ⟨rfl, -⟩⟩ := ht
          · rw [List.getElem?_append_left hi] at hc
            have : b = c := by
              rw [← UInt8.toNat_inj]
              omega
            rw [hc, hget, hb, this]
          · exact absurd rfl hne
    · rw [List.getElem?_eq_none (by simp; omega), List.getElem?_eq_none (by omega)]
  calc is' = is'.take is.length ++ is'.drop is.length := (List.take_append_drop _ _).symm
    _ = is ++ is'.drop is.length := by rw [htake]

end Code

end Arbor
