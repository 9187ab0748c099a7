import Arbor.Proofs.Code.Patch
import Mathlib.Data.List.Forall2
import Mathlib.Order.Monotone.Basic

/-!
# Elision keeps the meaning of code

Code is built by edits: instructions are added, jumps reserved and patched, loop heads remembered
and jumped back to.  `Draft` follows the edits on code in which jumps over nothing are elided.
`PlainDraft` follows the same edits and elides nothing: a patched jump stays where it is, even if it
leads to the next instruction, and distances are unbounded.

`Draft.exists_map_of_run` compares the two.  There is a monotone map `f` from the indices of the
plain code to those of the elided code, under which every instruction has an image: instructions
that do not jump are kept, jumps lead to the image of their target, jumps that were removed have an
image that coincides with that of their target, and what is left of a conditional jump over nothing
is a `drop`.

The map is found by following it along the edits.  Adding an instruction extends it by the new end;
patching, which clips the code to some length `n`, composes it with `min · n`.
-/

namespace Arbor

/-! ## Edits -/

/-- An edit of code under construction.  Anchors and loop heads go by number, in the order in which
they were given out. -/
inductive Edit where
  | push (op : Opcode) (notJump : op.isJump = false) (operand : UInt8)
  | reserve (op : Opcode) (forward : op.isForwardJump = true)
  | patch (anchor : Nat)
  /-- Remembers the end as the head of a loop, and adds the first instruction of the loop. -/
  | head (op : Opcode) (notJump : op.isJump = false) (operand : UInt8)
  | jumpBack (head : Nat)

/-- The anchor that an edit patches. -/
def Edit.patched? : Edit → Option Nat
  | .patch k => some k
  | _ => none

/-- Code under construction, with the anchors and loop heads given out so far. -/
structure Draft where
  code : Code := {}
  anchors : List Anchor := []
  heads : List LoopHead := []
deriving DecidableEq

namespace Draft

/-- The draft after an edit.  There is none if the edit ends in a problem. -/
def apply (d : Draft) : Edit → Option Draft
  | .push op _ b => some { d with code := d.code.push op b }
  | .reserve op _ =>
    let (anchor, code) := d.code.reserve op
    some { d with code := code, anchors := d.anchors ++ [anchor] }
  | .patch k => do
    let anchor ← d.anchors[k]?
    let code ← (d.code.patch anchor).toOption
    some { d with code := code }
  | .head op _ b => some { d with code := d.code.push op b, heads := d.heads ++ [d.code.head] }
  | .jumpBack k => do
    let head ← d.heads[k]?
    let code ← (d.code.jumpBack head).toOption
    some { d with code := code }

/-- The draft after several edits. -/
def run : Draft → List Edit → Option Draft
  | d, [] => some d
  | d, e :: es => (d.apply e).bind (run · es)

end Draft

/-! ## Code without elision -/

/-- An instruction of code in which nothing is elided.  A forward jump without distance still waits
for its target. -/
inductive PlainInstruction where
  | other (op : Opcode) (notJump : op.isJump = false) (operand : UInt8)
  | jump (distance : Option Nat)
  | jumpUnless (distance : Option Nat)
  | jumpBack (distance : Nat)

namespace PlainInstruction

/-- A reserved jump. -/
def waiting : Opcode → PlainInstruction
  | .jumpUnless => .jumpUnless none
  | _ => .jump none

/-- A reserved jump with its distance.  What is no reserved jump has none to take. -/
def resolve? (distance : Nat) : PlainInstruction → Option PlainInstruction
  | .jump none => some (.jump (some distance))
  | .jumpUnless none => some (.jumpUnless (some distance))
  | _ => none

lemma waiting_of_resolve? {distance : Nat} {inst jump : PlainInstruction}
    (h : inst.resolve? distance = some jump) : inst = .jump none ∨ inst = .jumpUnless none := by
  match inst, h with
  | .jump none, _ => exact .inl rfl
  | .jumpUnless none, _ => exact .inr rfl

end PlainInstruction

/-- A draft in which nothing is elided. -/
structure PlainDraft where
  code : List PlainInstruction := []
  anchors : List Nat := []
  heads : List Nat := []

namespace PlainDraft

/-- The draft after an edit. -/
def apply (d : PlainDraft) : Edit → Option PlainDraft
  | .push op h b => some { d with code := d.code ++ [.other op h b] }
  | .reserve op _ =>
    some { d with code := d.code ++ [.waiting op], anchors := d.anchors ++ [d.code.length] }
  | .patch k => do
    let anchor ← d.anchors[k]?
    let waiting ← d.code[anchor]?
    let jump ← waiting.resolve? (d.code.length - (anchor + 1))
    some { d with code := d.code.set anchor jump }
  | .head op h b =>
    some { d with code := d.code ++ [.other op h b], heads := d.heads ++ [d.code.length] }
  | .jumpBack k => do
    let head ← d.heads[k]?
    some { d with code := d.code ++ [.jumpBack (d.code.length + 1 - head)] }

/-- The draft after several edits. -/
def run : PlainDraft → List Edit → Option PlainDraft
  | d, [] => some d
  | d, e :: es => (d.apply e).bind (run · es)

end PlainDraft

/-! ## Images of instructions -/

/-- What the elided code `is` has in place of the instruction at index `i`, when `f` maps indices of
the plain code to indices of the elided one. -/
def PlainInstruction.Image (f : Nat → Nat) (is : List Instruction) (i : Nat) :
    PlainInstruction → Prop
  | .other op _ b => is[f i]? = some ⟨op, .byte b⟩ ∧ f (i + 1) = f i + 1
  | .jump none => is[f i]? = some ⟨.jump, .pending⟩ ∧ f (i + 1) = f i + 1
  | .jump (some distance) =>
    (f (i + 1) = f i ∧ f (i + 1 + distance) = f i) ∨
    ∃ b : UInt8, is[f i]? = some ⟨.jump, .byte b⟩ ∧
      f i + 1 + b.toNat = f (i + 1 + distance) ∧ f (i + 1) = f i + 1
  | .jumpUnless none => is[f i]? = some ⟨.jumpUnless, .pending⟩ ∧ f (i + 1) = f i + 1
  | .jumpUnless (some distance) =>
    (is[f i]? = some ⟨.drop, .byte 0⟩ ∧ f (i + 1 + distance) = f i + 1 ∧ f (i + 1) = f i + 1) ∨
    ∃ b : UInt8, is[f i]? = some ⟨.jumpUnless, .byte b⟩ ∧
      f i + 1 + b.toNat = f (i + 1 + distance) ∧ f (i + 1) = f i + 1
  | .jumpBack distance =>
    ∃ b : UInt8, is[f i]? = some ⟨.jumpBack, .byte b⟩ ∧
      f (i + 1 - distance) + b.toNat = f i + 1 ∧ f (i + 1) = f i + 1

namespace PlainInstruction

variable {f g : Nat → Nat} {is is' : List Instruction} {a i : Nat}

/-- Only the images of the instruction, of the next one and of the target matter. -/
lemma Image.congr {inst : PlainInstruction} (h : inst.Image f is i) (hself : g i = f i)
    (hnext : g (i + 1) = f (i + 1))
    (his : ∀ (j : Nat) (inst' : Instruction), is[j]? = some inst' → is'[j]? = some inst')
    (hforward : ∀ distance, inst = .jump (some distance) ∨ inst = .jumpUnless (some distance) →
      g (i + 1 + distance) = f (i + 1 + distance))
    (hback : ∀ distance, inst = .jumpBack distance → g (i + 1 - distance) = f (i + 1 - distance)) :
    inst.Image g is' i := by
  match inst with
  | .other op _ b => exact ⟨by rw [hself]; exact his _ _ h.1, by rw [hself, hnext]; exact h.2⟩
  | .jump none => exact ⟨by rw [hself]; exact his _ _ h.1, by rw [hself, hnext]; exact h.2⟩
  | .jumpUnless none => exact ⟨by rw [hself]; exact his _ _ h.1, by rw [hself, hnext]; exact h.2⟩
  | .jump (some distance) =>
    have htarget := hforward distance (.inl rfl)
    simp only [Image, hself, hnext, htarget]
    rcases h with hgone | ⟨b, hb, hrest⟩
    · exact .inl hgone
    · exact .inr ⟨b, his _ _ hb, hrest⟩
  | .jumpUnless (some distance) =>
    have htarget := hforward distance (.inr rfl)
    simp only [Image, hself, hnext, htarget]
    rcases h with ⟨hdrop, hrest⟩ | ⟨b, hb, hrest⟩
    · exact .inl ⟨his _ _ hdrop, hrest⟩
    · exact .inr ⟨b, his _ _ hb, hrest⟩
  | .jumpBack distance =>
    have htarget := hback distance rfl
    simp only [Image, hself, hnext, htarget]
    obtain ⟨b, hb, hrest⟩ := h
    exact ⟨b, his _ _ hb, hrest⟩

/-- A reserved jump takes up an index of the elided code. -/
lemma Image.next_of_waiting {inst : PlainInstruction} (h : inst.Image f is i)
    (hwaiting : inst = .jump none ∨ inst = .jumpUnless none) : f (i + 1) = f i + 1 := by
  rcases hwaiting with rfl | rfl
  · exact h.2
  · exact h.2

section Clip

variable (hclip : Code.Clips a is is') (hmono : Monotone f) (hg : ∀ j, g j = min (f j) is'.length)

include hg

/-- An instruction that is kept has room for the next index. -/
lemma kept_of_getElem? {inst' : Instruction} (hget : is'[f i]? = some inst')
    (hnext : f (i + 1) = f i + 1) :
    g i = f i ∧ is'[g i]? = some inst' ∧ g (i + 1) = g i + 1 := by
  have hlt : f i < is'.length := (List.getElem?_eq_some_iff.1 hget).1
  have hself : g i = f i := by rw [hg, Nat.min_eq_left hlt.le]
  refine ⟨hself, hself ▸ hget, ?_⟩
  rw [hself, hg, hnext]
  omega

include hclip hmono

/-- The image of a resolved jump under clipping. -/
lemma Image.clip_jump {distance : Nat}
    (hleads : Code.Leads is a (f i) .jump (f (i + 1 + distance))) (hnext : f (i + 1) = f i + 1) :
    (PlainInstruction.jump (some distance)).Image g is' i := by
  have htarget : f (i + 1) ≤ f (i + 1 + distance) := hmono (by omega)
  rcases hclip.jump hleads with ⟨-, hgone⟩ | ⟨hunless, -⟩ | ⟨b, hb, hdist, -⟩
  · left
    rw [hg, hg, hg]
    omega
  · cases hunless
  · obtain ⟨hself, hget, hnext'⟩ := kept_of_getElem? hg hb hnext
    refine .inr ⟨b, hget, ?_, hnext'⟩
    rw [hself, hdist, hg]

/-- The image of a resolved conditional jump under clipping. -/
lemma Image.clip_jumpUnless {distance : Nat}
    (hleads : Code.Leads is a (f i) .jumpUnless (f (i + 1 + distance)))
    (hnext : f (i + 1) = f i + 1) :
    (PlainInstruction.jumpUnless (some distance)).Image g is' i := by
  have htarget : f (i + 1) ≤ f (i + 1 + distance) := hmono (by omega)
  rcases hclip.jump hleads with ⟨hjump, -⟩ | ⟨-, hend, hdrop⟩ | ⟨b, hb, hdist, -⟩
  · cases hjump
  · obtain ⟨hself, hget, hnext'⟩ := kept_of_getElem? hg hdrop hnext
    refine .inl ⟨hget, ?_, hnext'⟩
    rw [hself, hg]
    omega
  · obtain ⟨hself, hget, hnext'⟩ := kept_of_getElem? hg hb hnext
    refine .inr ⟨b, hget, ?_, hnext'⟩
    rw [hself, hdist, hg]

/-- The image of an instruction, other than the patched jump, under clipping. -/
lemma Image.clip {inst : PlainInstruction} (h : inst.Image f is i)
    (hne : inst = .jump none ∨ inst = .jumpUnless none → f i ≠ a) : inst.Image g is' i := by
  match inst with
  | .other op notJump b =>
    have hforward : op.isForwardJump = false := by
      cases hop : op.isForwardJump
      · rfl
      · exact absurd (Opcode.isJump_of_isForwardJump hop) (by simp [notJump])
    exact (kept_of_getElem? hg (hclip.plain h.1 hforward) h.2).2
  | .jump none => exact (kept_of_getElem? hg (hclip.pending h.1 (hne (.inl rfl))) h.2).2
  | .jumpUnless none => exact (kept_of_getElem? hg (hclip.pending h.1 (hne (.inr rfl))) h.2).2
  | .jump (some distance) =>
    rcases h with ⟨hnext, htarget⟩ | ⟨b, hb, htarget, hnext⟩
    · left
      rw [hg, hg, hg, hnext, htarget]
      exact ⟨rfl, rfl⟩
    · exact clip_jump hclip hmono hg ⟨rfl, .inl ⟨b, hb, htarget⟩⟩ hnext
  | .jumpUnless (some distance) =>
    rcases h with ⟨hdrop, htarget, hnext⟩ | ⟨b, hb, htarget, hnext⟩
    · obtain ⟨-, hget, hnext'⟩ := kept_of_getElem? hg (hclip.plain hdrop rfl) hnext
      refine .inl ⟨hget, ?_, hnext'⟩
      rw [← hnext', hg, hg, htarget, hnext]
    · exact clip_jumpUnless hclip hmono hg ⟨rfl, .inl ⟨b, hb, htarget⟩⟩ hnext
  | .jumpBack distance =>
    obtain ⟨b, hb, htarget, hnext⟩ := h
    obtain ⟨hself, hget, hnext'⟩ := kept_of_getElem? hg (hclip.plain hb rfl) hnext
    refine ⟨b, hget, ?_, hnext'⟩
    have hback : f (i + 1 - distance) ≤ f (i + 1) := hmono (by omega)
    have hroom := (hg (i + 1)).symm.trans hnext'
    have hkeep : g (i + 1 - distance) = f (i + 1 - distance) := by
      rw [hg]
      omega
    rw [hkeep, hself, htarget]

end Clip

end PlainInstruction

/-! ## The map along edits -/

/-- A map from plain code to elided code that has an image for every instruction.  Past the end of
the plain code it stays at the end of the elided one. -/
structure Code.Maps (f : Nat → Nat) (plain : List PlainInstruction) (is : List Instruction) :
    Prop where
  mono : Monotone f
  zero : f 0 = 0
  ends : ∀ {i : Nat}, plain.length ≤ i → f i = is.length
  image : ∀ {i : Nat} {inst : PlainInstruction}, plain[i]? = some inst → inst.Image f is i
  bound : ∀ {i distance : Nat}, plain[i]? = some (.jump (some distance)) ∨
    plain[i]? = some (.jumpUnless (some distance)) → i + 1 + distance ≤ plain.length
  linked : Code.Linked is

namespace Code.Maps

variable {f : Nat → Nat} {plain : List PlainInstruction} {is : List Instruction}

lemma nil : Maps (fun _ => 0) [] [] where
  mono := monotone_const
  zero := rfl
  ends _ := rfl
  image h := by simp at h
  bound h := by simp at h
  linked := linked_nil

/-- The map that sends one more index to the new end. -/
def extend (f : Nat → Nat) (n stop : Nat) (i : Nat) : Nat := if i ≤ n then f i else stop

lemma extend_of_le {n stop i : Nat} (h : i ≤ n) : extend f n stop i = f i := if_pos h

lemma extend_succ (n stop : Nat) : extend f n stop (n + 1) = stop := if_neg (by omega)

/-- Adding an instruction on both sides. -/
lemma snoc (h : Maps f plain is) {inst : PlainInstruction} {inst' : Instruction}
    (hlinked : Linked (is ++ [inst']))
    (hnew : inst.Image (extend f plain.length (is.length + 1)) (is ++ [inst']) plain.length)
    (hunresolved : ∀ distance, inst ≠ .jump (some distance) ∧ inst ≠ .jumpUnless (some distance)) :
    Maps (extend f plain.length (is.length + 1)) (plain ++ [inst]) (is ++ [inst']) where
  mono := by
    intro i j hij
    have hf := h.mono hij
    have hend : ∀ k, f k ≤ is.length := fun k => by
      rw [← h.ends (Nat.le_max_right k plain.length)]
      exact h.mono (Nat.le_max_left _ _)
    have := hend i
    unfold extend
    split <;> split <;> omega
  zero := by rw [extend_of_le (Nat.zero_le _), h.zero]
  ends := by
    intro i hi
    rw [List.length_append, List.length_singleton] at hi ⊢
    exact if_neg (by omega)
  image := by
    intro i old hi
    rcases getElem?_snoc_eq_some_iff.1 hi with hi | ⟨rfl, rfl⟩
    · have hlt := (List.getElem?_eq_some_iff.1 hi).1
      refine (h.image hi).congr (extend_of_le (by omega)) (extend_of_le (by omega)) ?_ ?_ ?_
      · exact fun j inst' hj => getElem?_snoc_eq_some_iff.2 (.inl hj)
      · rintro distance (rfl | rfl)
        · exact extend_of_le (h.bound (.inl hi))
        · exact extend_of_le (h.bound (.inr hi))
      · intro distance _
        exact extend_of_le (by omega)
    · exact hnew
  bound := by
    intro i distance hi
    rw [List.length_append]
    rcases hi with hi | hi
    · rcases getElem?_snoc_eq_some_iff.1 hi with hi | ⟨-, heq⟩
      · exact Nat.le_add_right_of_le (h.bound (.inl hi))
      · exact absurd heq (hunresolved distance).1
    · rcases getElem?_snoc_eq_some_iff.1 hi with hi | ⟨-, heq⟩
      · exact Nat.le_add_right_of_le (h.bound (.inr hi))
      · exact absurd heq (hunresolved distance).2
  linked := hlinked

/-- Patching a jump on both sides. -/
lemma patch (h : Maps f plain is) {is' : List Instruction} {n : Nat}
    {waiting jump : PlainInstruction} (hwaiting : plain[n]? = some waiting)
    (hjump : waiting.resolve? (plain.length - (n + 1)) = some jump)
    (hclip : Clips (f n) is is') :
    Maps (fun i => min (f i) is'.length) (plain.set n jump) is' := by
  have hn : n < plain.length := (List.getElem?_eq_some_iff.1 hwaiting).1
  have hend : n + 1 + (plain.length - (n + 1)) = plain.length := by omega
  constructor
  case mono =>
    intro i j hij
    have := h.mono hij
    simp only
    omega
  case zero => rw [h.zero, Nat.zero_min]
  case ends =>
    intro i hi
    rw [List.length_set] at hi
    rw [h.ends hi]
    exact Nat.min_eq_right hclip.length_le
  case image =>
    intro i inst hi
    by_cases hin : i = n
    · subst hin
      rw [List.getElem?_set_self hn] at hi
      cases hi
      have himage := h.image hwaiting
      have hleads : ∀ op : Opcode, op.isForwardJump = true → is[f i]? = some ⟨op, .pending⟩ →
          Leads is (f i) (f i) op (f (i + 1 + (plain.length - (i + 1)))) := by
        intro op hop hget
        exact ⟨hop, .inr ⟨rfl, hget, by rw [hend, h.ends le_rfl]⟩⟩
      match waiting, hjump, himage with
      | .jump none, rfl, ⟨hget, hnext⟩ =>
        exact .clip_jump hclip h.mono (fun _ => rfl) (hleads _ rfl hget) hnext
      | .jumpUnless none, rfl, ⟨hget, hnext⟩ =>
        exact .clip_jumpUnless hclip h.mono (fun _ => rfl) (hleads _ rfl hget) hnext
    · rw [List.getElem?_set_ne (Ne.symm hin)] at hi
      refine (h.image hi).clip hclip h.mono (fun _ => rfl) fun hinst heq => ?_
      have hnext := (h.image hi).next_of_waiting hinst
      have hnext' := (h.image hwaiting).next_of_waiting (PlainInstruction.waiting_of_resolve? hjump)
      rcases Nat.lt_or_gt_of_ne hin with hlt | hlt
      · have : f (i + 1) ≤ f n := h.mono hlt
        omega
      · have : f (n + 1) ≤ f i := h.mono hlt
        omega
  case bound =>
    intro i distance hi
    rw [List.length_set]
    by_cases hin : i = n
    · subst hin
      rw [List.getElem?_set_self hn] at hi
      have hdistance : distance = plain.length - (i + 1) := by
        match waiting, hjump, hi with
        | .jump none, rfl, .inl rfl => rfl
        | .jumpUnless none, rfl, .inr rfl => rfl
      omega
    · rw [List.getElem?_set_ne (Ne.symm hin)] at hi
      exact h.bound hi
  case linked => exact hclip.linked h.linked

end Code.Maps

/-- A jump at an index of plain code waits for its target. -/
def PlainInstruction.IsWaitingAt (plain : List PlainInstruction) (n : Nat) : Prop :=
  plain[n]? = some (.jump none) ∨ plain[n]? = some (.jumpUnless none)

/-- An index of plain code has an instruction that does not jump. -/
def PlainInstruction.IsOtherAt (plain : List PlainInstruction) (n : Nat) : Prop :=
  ∃ op notJump b, plain[n]? = some (.other op notJump b)

/-- A map from a plain draft to a draft, along which code, anchors and loop heads correspond.  The
anchors in `done` have been patched; all others wait. -/
structure Follows (f : Nat → Nat) (p : PlainDraft) (d : Draft) (done : List Nat) : Prop where
  maps : Code.Maps f p.code d.code.instructions
  anchors : List.Forall₂ (fun a n => n < p.code.length ∧
    (PlainInstruction.IsWaitingAt p.code n → a.index = f n)) d.anchors p.anchors
  nodup : p.anchors.Nodup
  waiting : ∀ {k n : Nat}, p.anchors[k]? = some n → k ∉ done →
    PlainInstruction.IsWaitingAt p.code n
  heads : List.Forall₂ (fun h n => h.index = f n ∧ PlainInstruction.IsOtherAt p.code n)
    d.heads p.heads

namespace Follows

variable {f : Nat → Nat} {p : PlainDraft} {d : Draft} {done : List Nat}

open Code.Maps (extend extend_of_le extend_succ)

lemma start : Follows (fun _ => 0) {} {} [] where
  maps := .nil
  anchors := .nil
  nodup := List.nodup_nil
  waiting h := by simp at h
  heads := .nil

lemma getElem?_of_forall₂ {α β : Type} {R : α → β → Prop} {xs : List α} {ys : List β}
    (h : List.Forall₂ R xs ys) {k : Nat} {x : α} (hx : xs[k]? = some x) :
    ∃ y, ys[k]? = some y ∧ R x y := by
  obtain ⟨hlen, hget⟩ := List.forall₂_iff_get.1 h
  obtain ⟨hk, rfl⟩ := List.getElem?_eq_some_iff.1 hx
  have hk' : k < ys.length := hlen ▸ hk
  exact ⟨ys[k], List.getElem?_eq_getElem hk', hget k hk hk'⟩

/-- Adding an instruction on both sides keeps the correspondence of anchors and heads. -/
lemma snoc (h : Follows f p d done) {inst : PlainInstruction} {inst' : Instruction}
    (hmaps : Code.Maps (extend f p.code.length (d.code.size + 1)) (p.code ++ [inst])
      (d.code.instructions ++ [inst'])) :
    Follows (extend f p.code.length (d.code.size + 1)) { p with code := p.code ++ [inst] }
      { d with code := ⟨d.code.instructions ++ [inst']⟩ } done where
  maps := hmaps
  anchors := by
    refine h.anchors.imp fun a n ⟨hlt, hindex⟩ => ⟨by simp; omega, fun hwaiting => ?_⟩
    rw [extend_of_le hlt.le]
    refine hindex ?_
    simpa [PlainInstruction.IsWaitingAt, List.getElem?_append_left hlt] using hwaiting
  nodup := h.nodup
  waiting := by
    intro k n hk hdone
    rcases h.waiting hk hdone with hn | hn
    · exact .inl (Code.getElem?_snoc_eq_some_iff.2 (.inl hn))
    · exact .inr (Code.getElem?_snoc_eq_some_iff.2 (.inl hn))
  heads := by
    refine h.heads.imp fun l n ⟨hindex, op, notJump, b, hn⟩ => ⟨?_, op, notJump, b, ?_⟩
    · rw [extend_of_le (List.getElem?_eq_some_iff.1 hn).1.le, hindex]
    · exact Code.getElem?_snoc_eq_some_iff.2 (.inl hn)

/-- The old end maps to the old end. -/
lemma extend_length (h : Follows f p d done) (stop : Nat) :
    extend f p.code.length stop p.code.length = d.code.size := by
  rw [extend_of_le le_rfl, h.maps.ends le_rfl, Code.size]

/-- Adding an instruction that does not jump. -/
lemma push (h : Follows f p d done) (op : Opcode) (notJump : op.isJump = false) (b : UInt8) :
    Follows (extend f p.code.length (d.code.size + 1))
      { p with code := p.code ++ [.other op notJump b] } { d with code := d.code.push op b }
      done := by
  have hforward : op.isForwardJump = false := by
    cases hop : op.isForwardJump
    · rfl
    · exact absurd (Opcode.isJump_of_isForwardJump hop) (by simp [notJump])
  refine h.snoc (h.maps.snoc (h.maps.linked.push hforward b) ⟨?_, ?_⟩ fun _ => ⟨nofun, nofun⟩)
  · rw [h.extend_length]
    simp [Code.size]
  · rw [h.extend_length, extend_succ, Code.size]

/-- Remembering the end as the head of a loop, which begins with an instruction that does not
jump. -/
lemma head (h : Follows f p d done) (op : Opcode) (notJump : op.isJump = false) (b : UInt8) :
    Follows (extend f p.code.length (d.code.size + 1))
      ⟨p.code ++ [.other op notJump b], p.anchors, p.heads ++ [p.code.length]⟩
      ⟨d.code.push op b, d.anchors, d.heads ++ [d.code.head]⟩ done := by
  have hpushed := h.push op notJump b
  refine { hpushed with heads := List.rel_append hpushed.heads (.cons ⟨?_, ?_⟩ .nil) }
  · rw [h.extend_length, Code.head]
  · exact ⟨op, notJump, b, by simp⟩

/-- Reserving a jump. -/
lemma reserve (h : Follows f p d done) (op : Opcode) (hop : op.isForwardJump = true) :
    Follows (extend f p.code.length (d.code.size + 1))
      ⟨p.code ++ [.waiting op], p.anchors ++ [p.code.length], p.heads⟩
      ⟨(d.code.reserve op).2, d.anchors ++ [⟨d.code.size⟩], d.heads⟩ done := by
  have hop' : op = .jump ∨ op = .jumpUnless := by cases op <;> simp_all [Opcode.isForwardJump]
  have hwaiting : PlainInstruction.waiting op = .jump none ∨
      PlainInstruction.waiting op = .jumpUnless none := by
    rcases hop' with rfl | rfl
    · exact .inl rfl
    · exact .inr rfl
  have hget : (d.code.instructions ++ [⟨op, .pending⟩])[d.code.size]? = some ⟨op, .pending⟩ := by
    simp [Code.size]
  have himage : (PlainInstruction.waiting op).Image (extend f p.code.length (d.code.size + 1))
      (d.code.instructions ++ [⟨op, .pending⟩]) p.code.length := by
    rcases hop' with rfl | rfl
    · exact ⟨by rw [h.extend_length]; exact hget, by rw [h.extend_length, extend_succ]⟩
    · exact ⟨by rw [h.extend_length]; exact hget, by rw [h.extend_length, extend_succ]⟩
  have hgrown := h.snoc (h.maps.snoc (h.maps.linked.reserve hop) himage fun distance => by
    rcases hwaiting with heq | heq <;> simp [heq])
  have hfresh : p.code.length ∉ p.anchors := by
    intro hmem
    obtain ⟨k, hk⟩ := List.getElem?_of_mem hmem
    obtain ⟨a, -, hlt, -⟩ := getElem?_of_forall₂ h.anchors.flip hk
    exact absurd hlt (Nat.lt_irrefl _)
  refine ⟨hgrown.maps, ?_, ?_, ?_, hgrown.heads⟩
  · refine List.rel_append hgrown.anchors (.cons ⟨by simp, fun _ => ?_⟩ .nil)
    rw [h.extend_length]
  · exact List.nodup_append.2 ⟨h.nodup, by simp, by grind⟩
  · intro k n hk hdone
    rcases Code.getElem?_snoc_eq_some_iff.1 hk with hk | ⟨-, rfl⟩
    · exact hgrown.waiting hk hdone
    · simpa [PlainInstruction.IsWaitingAt] using hwaiting

/-- Jumping back to the head of a loop. -/
lemma jumpBack (h : Follows f p d done) {l : LoopHead} {n : Nat} {c : Code} {k : Nat}
    (hl : d.heads[k]? = some l) (hn : p.heads[k]? = some n) (hc : d.code.jumpBack l = .ok c) :
    Follows (extend f p.code.length (d.code.size + 1))
      { p with code := p.code ++ [.jumpBack (p.code.length + 1 - n)] } { d with code := c }
      done := by
  obtain ⟨n', hn', hindex, op, notJump, b, hother⟩ := getElem?_of_forall₂ h.heads hl
  obtain rfl : n' = n := Option.some.inj (hn'.symm.trans hn)
  have hlt := (List.getElem?_eq_some_iff.1 hother).1
  have hle : f n' ≤ d.code.size := by
    have := h.maps.mono hlt.le
    rwa [h.maps.ends le_rfl] at this
  rw [Code.jumpBack_eq] at hc
  split at hc
  · cases hc
  · next hfit =>
    cases hc
    refine h.snoc (h.maps.snoc (h.maps.linked.push rfl _) ?_ fun _ => ⟨nofun, nofun⟩)
    refine ⟨UInt8.ofNat (d.code.size + 1 - l.index), ?_, ?_, ?_⟩
    · rw [h.extend_length]
      simp [Code.size]
    · have hback : p.code.length + 1 - (p.code.length + 1 - n') = n' := by omega
      rw [h.extend_length, hback, extend_of_le hlt.le,
        UInt8.toNat_ofNat_of_lt' (show _ < 256 by omega)]
      omega
    · rw [h.extend_length, extend_succ, Code.size]

/-- Patching an anchor that waits. -/
lemma patch (h : Follows f p d done) {a : Anchor} {n k : Nat} {c : Code}
    (ha : d.anchors[k]? = some a) (hn : p.anchors[k]? = some n) (hk : k ∉ done)
    (hc : d.code.patch a = .ok c) :
    ∃ waiting jump, p.code[n]? = some waiting ∧
      waiting.resolve? (p.code.length - (n + 1)) = some jump ∧
      Follows (fun i => min (f i) c.size) { p with code := p.code.set n jump } { d with code := c }
        (k :: done) := by
  obtain ⟨n', hn', hlt, hindex⟩ := getElem?_of_forall₂ h.anchors ha
  obtain rfl : n' = n := Option.some.inj (hn'.symm.trans hn)
  have hwaits := h.waiting hn hk
  obtain ⟨waiting, jump, hwaiting, hjump, op, hop⟩ : ∃ waiting jump, p.code[n']? = some waiting ∧
      waiting.resolve? (p.code.length - (n' + 1)) = some jump ∧
      ∃ op, d.code.instructions[f n']? = some ⟨op, .pending⟩ := by
    rcases hwaits with hw | hw
    · exact ⟨_, _, hw, rfl, _, (h.maps.image hw).1⟩
    · exact ⟨_, _, hw, rfl, _, (h.maps.image hw).1⟩
  have hclip : Code.Clips (f n') d.code.instructions c.instructions := by
    rw [← hindex hwaits]
    refine Code.clips_of_patch h.maps.linked ⟨op, ?_⟩ hc
    rw [hindex hwaits]
    exact hop
  have hmaps := h.maps.patch hwaiting hjump hclip
  -- an index at which an instruction is found has not been clipped
  have hkeep : ∀ {i : Nat} {inst : Instruction}, c.instructions[min (f i) c.size]? = some inst →
      min (f i) c.size = f i := by
    intro i inst hi
    have hlt : min (f i) c.size < c.size := (List.getElem?_eq_some_iff.1 hi).1
    omega
  have hset : ∀ {i : Nat}, i ≠ n' → (p.code.set n' jump)[i]? = p.code[i]? :=
    fun hne => List.getElem?_set_ne hne.symm
  have hresolved : ¬ PlainInstruction.IsWaitingAt (p.code.set n' jump) n' := by
    unfold PlainInstruction.IsWaitingAt
    rw [List.getElem?_set_self hlt]
    rcases PlainInstruction.waiting_of_resolve? hjump with rfl | rfl <;> cases hjump <;> simp
  refine ⟨waiting, jump, hwaiting, hjump, hmaps, ?_, h.nodup, ?_, ?_⟩
  · refine h.anchors.imp fun b m ⟨hm, hb⟩ => ⟨by simpa using hm, fun hw => ?_⟩
    have hne : m ≠ n' := fun heq => hresolved (heq ▸ hw)
    have hw' : PlainInstruction.IsWaitingAt p.code m := by
      unfold PlainInstruction.IsWaitingAt at hw
      rwa [hset hne] at hw
    rw [hb hw']
    rcases hw with hw | hw
    · exact (hkeep (hmaps.image hw).1).symm
    · exact (hkeep (hmaps.image hw).1).symm
  · intro j m hj hdone
    rw [List.mem_cons, not_or] at hdone
    have hne : m ≠ n' := by
      rintro rfl
      have hj' := (List.getElem?_eq_some_iff.1 hj).1
      exact hdone.1 ((List.getElem?_inj hj' h.nodup).1 (hj.trans hn.symm))
    unfold PlainInstruction.IsWaitingAt
    rw [hset hne]
    exact h.waiting hj hdone.2
  · refine h.heads.imp fun l m ⟨hl, op', notJump, b, hm⟩ => ?_
    have hne : m ≠ n' := by
      rintro rfl
      rcases hwaits with hw | hw <;> rw [hm] at hw <;> cases hw
    have hm' : (p.code.set n' jump)[m]? = some (.other op' notJump b) := by rw [hset hne, hm]
    refine ⟨?_, op', notJump, b, hm'⟩
    rw [hl]
    exact (hkeep (hmaps.image hm').1).symm

/-- One edit.  The plain draft can follow it, and the map goes on. -/
lemma apply (h : Follows f p d done) {e : Edit} {d' : Draft} (he : d.apply e = some d')
    (honce : ∀ k, e.patched? = some k → k ∉ done) :
    ∃ p' f', p.apply e = some p' ∧ Follows f' p' d' (e.patched?.toList ++ done) := by
  cases e with
  | push op notJump b =>
    cases he
    exact ⟨_, _, rfl, h.push op notJump b⟩
  | reserve op forward =>
    cases he
    exact ⟨_, _, rfl, h.reserve op forward⟩
  | head op notJump b =>
    cases he
    exact ⟨_, _, rfl, h.head op notJump b⟩
  | patch k =>
    simp only [Draft.apply, Option.bind_eq_bind, Option.bind_eq_some_iff] at he
    obtain ⟨a, ha, c, hc, hd⟩ := he
    cases hd
    obtain ⟨n, hn, -⟩ := getElem?_of_forall₂ h.anchors ha
    have hok : d.code.patch a = .ok c := by
      cases hpatch : d.code.patch a with
      | error e => simp [hpatch, Except.toOption] at hc
      | ok c' => simpa [hpatch, Except.toOption] using hc
    obtain ⟨waiting, jump, hwaiting, hjump, hfollows⟩ := h.patch ha hn (honce k rfl) hok
    refine ⟨_, _, ?_, hfollows⟩
    simp [PlainDraft.apply, hn, hwaiting, hjump]
  | jumpBack k =>
    simp only [Draft.apply, Option.bind_eq_bind, Option.bind_eq_some_iff] at he
    obtain ⟨l, hl, c, hc, hd⟩ := he
    cases hd
    obtain ⟨n, hn, -⟩ := getElem?_of_forall₂ h.heads hl
    have hok : d.code.jumpBack l = .ok c := by
      cases hback : d.code.jumpBack l with
      | error e => simp [hback, Except.toOption] at hc
      | ok c' => simpa [hback, Except.toOption] using hc
    refine ⟨_, _, ?_, h.jumpBack hl hn hok⟩
    simp [PlainDraft.apply, hn]

/-- A run of edits that patches no anchor twice. -/
lemma run {edits : List Edit} (h : Follows f p d done) {d' : Draft}
    (hrun : d.run edits = some d') (honce : (edits.filterMap Edit.patched? ++ done).Nodup) :
    ∃ p' f', p.run edits = some p' ∧
      Follows f' p' d' ((edits.filterMap Edit.patched?).reverse ++ done) := by
  induction edits generalizing f p d done with
  | nil =>
    cases hrun
    exact ⟨p, f, rfl, h⟩
  | cons e es ih =>
    obtain ⟨d₁, he, hes⟩ := Option.bind_eq_some_iff.1 hrun
    have hsplit : (e :: es).filterMap Edit.patched? =
        e.patched?.toList ++ es.filterMap Edit.patched? := by
      cases hk : e.patched? <;> simp [hk]
    rw [hsplit, List.append_assoc] at honce
    have hperm : (es.filterMap Edit.patched? ++ (e.patched?.toList ++ done)).Nodup := by
      refine (List.Perm.nodup_iff ?_).1 honce
      rw [← List.append_assoc, ← List.append_assoc]
      exact List.perm_append_comm.append_right _
    have hnew : ∀ k, e.patched? = some k → k ∉ done := by
      intro k hk hmem
      rw [hk] at honce
      simp [hmem] at honce
    obtain ⟨p₁, f₁, hp, hfollows⟩ := h.apply he hnew
    obtain ⟨p', f', hp', hfollows'⟩ := ih hfollows hes hperm
    refine ⟨p', f', by simp [PlainDraft.run, hp, hp'], ?_⟩
    have hreverse : e.patched?.toList.reverse = e.patched?.toList := by
      cases e.patched? <;> rfl
    rw [hsplit, List.reverse_append, hreverse, List.append_assoc]
    exact hfollows'

end Follows

/-! ## The theorem -/

/-- **Elision keeps the meaning of code.**  Take edits that patch no anchor twice and none of which
ends in a problem.  Without elision the same edits go through as well, and a monotone map leads from
the indices of that code to those of the elided code, from end to end.  Every instruction has its
image, and the anchors that still wait and the loop heads are images too. -/
theorem Draft.exists_map_of_run {edits : List Edit} {d : Draft}
    (honce : (edits.filterMap Edit.patched?).Nodup) (hrun : Draft.run {} edits = some d) :
    ∃ (p : PlainDraft) (f : Nat → Nat), PlainDraft.run {} edits = some p ∧
      Monotone f ∧ f 0 = 0 ∧ f p.code.length = d.code.size ∧
      (∀ (i : Nat) (inst : PlainInstruction), p.code[i]? = some inst →
        inst.Image f d.code.instructions i) ∧
      (∀ (k : Nat) (a : Anchor), k ∉ edits.filterMap Edit.patched? → d.anchors[k]? = some a →
        ∃ n, p.anchors[k]? = some n ∧ PlainInstruction.IsWaitingAt p.code n ∧ a.index = f n) ∧
      (∀ (k : Nat) (l : LoopHead), d.heads[k]? = some l →
        ∃ n, p.heads[k]? = some n ∧ l.index = f n) := by
  obtain ⟨p, f, hp, h⟩ := Follows.start.run hrun (by simpa using honce)
  refine ⟨p, f, hp, h.maps.mono, h.maps.zero, h.maps.ends le_rfl, fun i inst => h.maps.image,
    ?_, ?_⟩
  · intro k a hk ha
    obtain ⟨n, hn, -, hindex⟩ := Follows.getElem?_of_forall₂ h.anchors ha
    have hwaits := h.waiting hn (by simpa using hk)
    exact ⟨n, hn, hwaits, hindex hwaits⟩
  · intro k l hl
    obtain ⟨n, hn, hindex, -⟩ := Follows.getElem?_of_forall₂ h.heads hl
    exact ⟨n, hn, hindex⟩

/-- The edits of a loop whose body is a conditional with two empty branches, and of a jump after it
that still waits. -/
def Edit.loopOverNothing : List Edit :=
  [.head .hasNext rfl 1, .reserve .jumpUnless rfl, .push .next rfl 1,
   .reserve .jumpUnless rfl, .reserve .jump rfl, .patch 1, .patch 2, .jumpBack 0, .patch 0,
   .reserve .jump rfl]

/-- In that loop both jumps of the conditional are elided, one of them to a `drop`. -/
theorem Draft.exists_map_of_loopOverNothing :
    (Edit.loopOverNothing.filterMap Edit.patched?).Nodup ∧
    ∃ (d : Draft) (p : PlainDraft) (f : Nat → Nat),
      Draft.run {} Edit.loopOverNothing = some d ∧ PlainDraft.run {} Edit.loopOverNothing = some p ∧
      d.code.size = 6 ∧ p.code.length = 7 ∧ Monotone f ∧ f p.code.length = d.code.size ∧
      ∀ (i : Nat) (inst : PlainInstruction), p.code[i]? = some inst →
        inst.Image f d.code.instructions i := by
  have honce : (Edit.loopOverNothing.filterMap Edit.patched?).Nodup := by decide
  have hrun : Draft.run {} Edit.loopOverNothing = some
      ⟨⟨[⟨.hasNext, .byte 1⟩, ⟨.jumpUnless, .byte 3⟩, ⟨.next, .byte 1⟩, ⟨.drop, .byte 0⟩,
          ⟨.jumpBack, .byte 5⟩, ⟨.jump, .pending⟩]⟩,
        [⟨1⟩, ⟨3⟩, ⟨4⟩, ⟨5⟩], [⟨0⟩]⟩ := by
    decide +kernel
  obtain ⟨p, f, hp, hmono, -, hend, himage, -⟩ := Draft.exists_map_of_run honce hrun
  have hlength : p.code.length = 7 := by
    cases hp
    rfl
  exact ⟨honce, _, p, f, hrun, hp, rfl, hlength, hmono, hend, himage⟩

end Arbor
