import Arbor.Proofs.Code.Bounds
import Arbor.Proofs.Code.Encoding
import Arbor.Proofs.Code.Growth

/-!
# Building code, in any order

A session is a sequence of requests to code that starts empty.  Instructions are added, jumps are
reserved, and anchors are handed in for patching in any order, each until it was patched once.  A
request may end in a problem; the session then goes on with the code that the step has left.

Elision removes instructions and rewrites jumps, while the anchors still held are plain indices.
`Session.Sound` is what keeps them valid: the jumps that wait are just those at the anchors not yet
patched, no two of which are the same.

* `Session.Sound.run`: the invariant holds in every session.
* `Session.safe_of_run`: no request is out of place.
-/

namespace Arbor

/-- A request to code under construction.  Anchors go by number, in the order in which they were
given out. -/
inductive CodeRequest where
  | push (op : Opcode) (notJump : op.isJump = false) (operand : UInt8)
  | pushIndex (op : Opcode) (notJump : op.isJump = false) (what : String) (index : Nat)
  | reserve (op : Opcode) (forward : op.isForwardJump = true)
  | patch (anchor : Nat)

/-- Code under construction, with the anchors given out so far and the numbers of those that were
patched. -/
structure Session where
  code : Code := {}
  anchors : List Anchor := []
  patched : List Nat := []
deriving DecidableEq

namespace Session

/-- The session after a request, however it ends: what a step did to the code before a problem stays
done.  There is no session after a request that hands in an anchor which was not given out or has
been patched before. -/
def serve (s : Session) : CodeRequest → Option Session
  | .push op _ b => some { s with code := s.code.push op b }
  | .pushIndex op _ what index =>
    some { s with code := Step.after (Assemble.pushIndex op what index) s.code }
  | .reserve op _ =>
    let (anchor, code) := s.code.reserve op
    some { s with code := code, anchors := s.anchors ++ [anchor] }
  | .patch k =>
    if k ∈ s.patched then none
    else
      match s.anchors[k]? with
      | none => none
      | some anchor =>
        match Assemble.patch anchor s.code with
        | .ok _ code => some { s with code := code, patched := k :: s.patched }
        | .error _ code => some { s with code := code }

/-- The session after several requests. -/
def run : Session → List CodeRequest → Option Session
  | s, [] => some s
  | s, r :: rs => (s.serve r).bind (run · rs)

/-! ## The invariant -/

/-- The anchor with a number has been given out and not been patched. -/
def Holds (s : Session) (k : Nat) (a : Anchor) : Prop := s.anchors[k]? = some a ∧ k ∉ s.patched

/-- The jumps that wait are those at the anchors held, which are different from each other. -/
structure Sound (s : Session) : Prop where
  linked : Code.Linked s.code.instructions
  isPending : ∀ {k : Nat} {a : Anchor}, s.Holds k a → Code.IsPending s.code.instructions a.index
  held : ∀ {i : Nat}, Code.IsPending s.code.instructions i → ∃ k, s.Holds k ⟨i⟩
  unique : ∀ {j k : Nat} {a : Anchor}, s.Holds j a → s.Holds k a → j = k
  patched_lt : ∀ {k : Nat}, k ∈ s.patched → k < s.anchors.length

namespace Sound

variable {s s' : Session}

lemma start : Sound {} where
  linked := Code.linked_nil
  isPending h := by cases h.1
  held := by
    rintro i ⟨op, hop⟩
    cases hop
  unique h := by cases h.1
  patched_lt h := by cases h

lemma push (h : s.Sound) {op : Opcode} (notJump : op.isJump = false) (b : UInt8) :
    Sound { s with code := s.code.push op b } where
  linked := by
    refine h.linked.push ?_ b
    rw [Bool.eq_false_iff]
    intro hforward
    rw [Opcode.isJump_of_isForwardJump hforward] at notJump
    cases notJump
  isPending hk := Code.isPending_snoc_iff.2 (.inl (h.isPending hk))
  held := by
    intro i hi
    rcases Code.isPending_snoc_iff.1 hi with hi | ⟨-, hoperand⟩
    · exact h.held hi
    · cases hoperand
  unique := h.unique
  patched_lt := h.patched_lt

lemma reserve (h : s.Sound) {op : Opcode} (forward : op.isForwardJump = true) :
    Sound { s with code := (s.code.reserve op).2, anchors := s.anchors ++ [(s.code.reserve op).1] }
    where
  linked := h.linked.reserve forward
  isPending := by
    rintro k a ⟨hk, hopen⟩
    rcases Code.getElem?_snoc_eq_some_iff.1 hk with hk | ⟨-, rfl⟩
    · exact Code.isPending_snoc_iff.2 (.inl (h.isPending ⟨hk, hopen⟩))
    · exact Code.isPending_snoc_iff.2 (.inr ⟨rfl, rfl⟩)
  held := by
    intro i hi
    rcases Code.isPending_snoc_iff.1 hi with hi | ⟨rfl, -⟩
    · obtain ⟨k, hk, hopen⟩ := h.held hi
      exact ⟨k, Code.getElem?_snoc_eq_some_iff.2 (.inl hk), hopen⟩
    · refine ⟨s.anchors.length, Code.getElem?_snoc_eq_some_iff.2 (.inr ⟨rfl, rfl⟩), fun hmem => ?_⟩
      exact absurd (h.patched_lt hmem) (Nat.lt_irrefl _)
  unique := by
    -- the new anchor is past the code, and what is held points into it
    have hnew : ∀ {k : Nat}, ¬ s.Holds k (s.code.reserve op).1 := fun hk =>
      absurd (h.isPending hk).lt (Nat.lt_irrefl _)
    rintro j k a ⟨hj, hjopen⟩ ⟨hk, hkopen⟩
    rcases Code.getElem?_snoc_eq_some_iff.1 hj with hj | ⟨hjnew, rfl⟩
    · rcases Code.getElem?_snoc_eq_some_iff.1 hk with hk | ⟨-, rfl⟩
      · exact h.unique ⟨hj, hjopen⟩ ⟨hk, hkopen⟩
      · exact absurd ⟨hj, hjopen⟩ hnew
    · rcases Code.getElem?_snoc_eq_some_iff.1 hk with hk | ⟨hknew, -⟩
      · exact absurd ⟨hk, hkopen⟩ hnew
      · exact hjnew.trans hknew.symm
  patched_lt hk := by
    rw [List.length_append]
    exact Nat.lt_add_right _ (h.patched_lt hk)

lemma patch (h : s.Sound) {k : Nat} {a : Anchor} {code : Code} (hk : s.Holds k a)
    (hpatch : s.code.patch a = .ok code) :
    Sound { s with code := code, patched := k :: s.patched } := by
  have hclip := Code.clips_of_patch h.linked (h.isPending hk) hpatch
  have hopen : ∀ {j : Nat} {b : Anchor},
      Holds { s with code := code, patched := k :: s.patched } j b ↔ s.Holds j b ∧ j ≠ k := by
    intro j b
    simp only [Holds, List.mem_cons, not_or]
    tauto
  constructor
  case linked => exact hclip.linked h.linked
  case isPending =>
    intro j b hj
    obtain ⟨hj, hne⟩ := hopen.1 hj
    refine (hclip.isPending_iff h.linked).2 ⟨h.isPending hj, fun hindex => hne ?_⟩
    have hba : b = a := by
      obtain ⟨i⟩ := b
      rw [show i = a.index from hindex]
    exact h.unique hj (hba ▸ hk)
  case held =>
    intro i hi
    obtain ⟨hi, hne⟩ := (hclip.isPending_iff h.linked).1 hi
    obtain ⟨j, hj⟩ := h.held hi
    refine ⟨j, hopen.2 ⟨hj, ?_⟩⟩
    rintro rfl
    have hia : some (⟨i⟩ : Anchor) = some a := hj.1.symm.trans hk.1
    cases hia
    exact hne rfl
  case unique =>
    intro i j b hi hj
    exact h.unique (hopen.1 hi).1 (hopen.1 hj).1
  case patched_lt =>
    intro j hj
    rcases List.mem_cons.1 hj with rfl | hj
    · exact (List.getElem?_eq_some_iff.1 hk.1).1
    · exact h.patched_lt hj

/-- Every request keeps the invariant. -/
lemma serve (h : s.Sound) {r : CodeRequest} (hr : s.serve r = some s') : s'.Sound := by
  cases r with
  | push op notJump b =>
    cases hr
    exact h.push notJump b
  | pushIndex op notJump what index =>
    cases hr
    unfold Step.after
    cases hpush : Assemble.pushIndex op what index s.code with
    | error p code =>
      rw [Assemble.atomic_pushIndex op what index _ _ _ hpush]
      exact h
    | ok u code =>
      rw [Assemble.eq_push_of_pushIndex hpush]
      exact h.push notJump _
  | reserve op forward =>
    cases hr
    exact h.reserve forward
  | patch k =>
    simp only [Session.serve] at hr
    split at hr
    · cases hr
    · next hopen =>
      split at hr
      · cases hr
      · next a ha =>
        split at hr
        · next code hpatch =>
          cases hr
          exact h.patch ⟨ha, hopen⟩ (Step.outcome_of_ok hpatch)
        · next p code hpatch =>
          cases hr
          rw [Assemble.atomic_patch a _ _ _ hpatch]
          exact h

lemma run {requests : List CodeRequest} (h : s.Sound) (hr : s.run requests = some s') :
    s'.Sound := by
  induction requests generalizing s with
  | nil =>
    cases hr
    exact h
  | cons r rs ih =>
    obtain ⟨s₁, hserve, hrun⟩ := Option.bind_eq_some_iff.1 hr
    exact ih (h.serve hserve) hrun

/-- Code can be encoded just when every anchor has been patched. -/
lemma exists_build_iff (h : s.Sound) :
    (∃ bytes, s.code.build = .ok bytes) ↔ ∀ k < s.anchors.length, k ∈ s.patched := by
  rw [Code.build, Code.exists_encode_iff]
  constructor
  · intro hnone k hk
    by_contra hopen
    exact hnone _ (h.isPending ⟨List.getElem?_eq_getElem hk, hopen⟩)
  · intro hall i hi
    obtain ⟨k, hk, hopen⟩ := h.held hi
    exact hopen (hall k (List.getElem?_eq_some_iff.1 hk).1)

end Sound

/-- In every session, after every request: the anchors held are at jumps that wait, and the other
forward jumps lead over at least one instruction and no further than to the end.  Handing in an
anchor stays within the code; if it ends in a problem, the jump is too far, and nothing changes.
Code can be encoded just when every anchor has been patched, and is read back from its bytes. -/
theorem safe_of_run {requests : List CodeRequest} {s : Session} (h : run {} requests = some s) :
    (∀ k a, s.Holds k a → ∃ op, op.isForwardJump = true ∧
      s.code.instructions[a.index]? = some ⟨op, .pending⟩) ∧
    (∀ i op b, s.code.instructions[i]? = some ⟨op, .byte b⟩ → op.isForwardJump = true →
      1 ≤ b.toNat ∧ b.toNat ≤ 255 ∧ i + 1 + b.toNat ≤ s.code.size) ∧
    (∀ k a, s.Holds k a → s.code.patchWithin a = some (s.code.patch a) ∧
      ∀ p c, Assemble.patch a s.code = .error p c → c = s.code ∧ s.serve (.patch k) = some s ∧
        ∃ n, p = .defect (.jumpTooFar n) ∧
          (Defect.jumpTooFar n).message = "jump offset " ++ toString n ++ " exceeds one byte") ∧
    ((∃ bytes, s.code.build = .ok bytes) ↔ ∀ k < s.anchors.length, k ∈ s.patched) ∧
    ∀ bytes, s.code.build = .ok bytes → Code.decode bytes = some s.code.instructions := by
  have hsound := Sound.start.run h
  refine ⟨?_, ?_, ?_, hsound.exists_build_iff, fun bytes hbuild => Code.decode_encode hbuild⟩
  · intro k a hk
    obtain ⟨op, hop⟩ := hsound.isPending hk
    exact ⟨op, hsound.linked.pending hop, hop⟩
  · intro i op b hi hop
    have hlink := hsound.linked.target hi (Instruction.target?_byte hop b i)
    have hbyte := b.toNat_lt
    exact ⟨by omega, by omega, hlink.2⟩
  · intro k a hk
    refine ⟨Code.patchWithin_eq hsound.linked (hsound.isPending hk), fun p c hp => ?_⟩
    obtain rfl := Assemble.atomic_patch a _ _ _ hp
    have herror : s.code.patch a = .error p := Step.outcome_of_error hp
    obtain ⟨n, -, hn⟩ := Code.eq_jumpTooFar_of_patch (hsound.isPending hk) herror
    refine ⟨rfl, ?_, n, hn, rfl⟩
    simp only [serve, if_neg hk.2, hk.1, hp]

/-- Patching the last of three adjacent jumps removes two of them and makes a `drop` of the third.
Of two jumps reserved after that, one is patched. -/
theorem safe_of_run_collapsing :
    ∃ s, run {} [.push .pushTrue rfl 0, .reserve .jumpUnless rfl, .reserve .jump rfl,
        .reserve .jump rfl, .patch 1, .patch 0, .patch 2, .pushIndex .load rfl "slot" 3,
        .reserve .jumpUnless rfl, .push .pushFalse rfl 0, .patch 3, .reserve .jump rfl,
        .pushIndex .load rfl "slot" 256] = some s ∧
      s.code.instructions = [⟨.pushTrue, .byte 0⟩, ⟨.drop, .byte 0⟩, ⟨.load, .byte 3⟩,
        ⟨.jumpUnless, .byte 1⟩, ⟨.pushFalse, .byte 0⟩, ⟨.jump, .pending⟩] ∧
      s.Holds 4 ⟨5⟩ ∧ s.code.patchWithin ⟨5⟩ = some (s.code.patch ⟨5⟩) ∧
      ¬ ∃ bytes, s.code.build = .ok bytes := by
  refine ⟨⟨⟨[⟨.pushTrue, .byte 0⟩, ⟨.drop, .byte 0⟩, ⟨.load, .byte 3⟩, ⟨.jumpUnless, .byte 1⟩,
      ⟨.pushFalse, .byte 0⟩, ⟨.jump, .pending⟩]⟩, [⟨1⟩, ⟨2⟩, ⟨3⟩, ⟨3⟩, ⟨5⟩], [3, 2, 0, 1]⟩,
    (and_iff_left_of_imp fun hrun => ?_).2 (by decide +kernel)⟩
  obtain ⟨-, -, hpatch, hbuild, -⟩ := safe_of_run hrun
  refine ⟨rfl, ⟨rfl, by decide⟩, (hpatch 4 ⟨5⟩ ⟨rfl, by decide⟩).1, ?_⟩
  rw [hbuild]
  intro hall
  exact absurd (hall 4 (by decide)) (by decide)

end Session

end Arbor
