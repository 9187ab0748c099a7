import Arbor.Proofs.Compilation.Discipline
import Arbor.Proofs.Emission.Additive
import Mathlib.Algebra.Group.Nat.Even

/-!
# The structure of control flow

The code of a mapping is a sequence of instructions whose jumps stay inside it.  Control only flows
forward, except at the end of loops, and loops are properly bracketed: a jump back leads to the head
of a loop, the loop is left through the jump after its head, and it is entered at its head only.

* `Code.BracketsLoop`: the shape of one loop.
* `Code.Structured`: what is required of encoded code.
* `Job.structured_of_compileMapping`: the code of mappings is structured.
-/

namespace Arbor

namespace Code

/-- The instructions from `h` to `j` are a loop.  Its head asks whether the iterator in a slot has
another item, and the jump after it leaves the loop.  No jump from outside leads into it. -/
structure BracketsLoop (bytes : List UInt8) (h j : Nat) : Prop where
  test : ∃ s, fetch? bytes h = some (.hasNext, s) ∧ fetch? bytes (h + 2) = some (.next, s)
  exit : ∃ b, fetch? bytes (h + 1) = some (.jumpUnless, b) ∧
    targetOf .jumpUnless (h + 1) b = some (j + 1)
  item : ∃ s, fetch? bytes (h + 3) = some (.store, s)
  entry : ∀ {k t : Nat} {op : Opcode} {b : UInt8}, fetch? bytes k = some (op, b) →
    targetOf op k b = some t → h ≤ t → t ≤ j → h ≤ k ∧ k ≤ j

/-- Encoded code is structured: instructions are two bytes, jumps lead into the code or to its end,
and every jump back closes a loop. -/
structure Structured (bytes : List UInt8) : Prop where
  even : Even bytes.length
  decodes : ∀ i < bytes.length / 2, (fetch? bytes i).isSome = true
  distance : ∀ {i : Nat} {op : Opcode} {b : UInt8}, fetch? bytes i = some (op, b) →
    op.isJump = true → 1 ≤ b.toNat
  target : ∀ {i t : Nat} {op : Opcode} {b : UInt8}, fetch? bytes i = some (op, b) →
    op.isForwardJump = true → targetOf op i b = some t → t ≤ bytes.length / 2
  loop : ∀ {j : Nat} {b : UInt8}, fetch? bytes j = some (.jumpBack, b) →
    ∃ h < j, targetOf .jumpBack j b = some h ∧ BracketsLoop bytes h j

/-! ## From instructions to bytes -/

variable {is : List Instruction} {bytes : List UInt8} {n h j : Nat}

/-- A loop among instructions is a loop among their bytes. -/
lemma IsLoop.bracketsLoop (hloop : IsLoop 0 is h j) (hbytes : encode n is = .ok bytes) :
    BracketsLoop bytes h j := by
  obtain ⟨s, htest, hnext⟩ := hloop.test
  obtain ⟨b, hexit, hdist⟩ := hloop.exit
  obtain ⟨i, hitem⟩ := hloop.item
  refine ⟨⟨s, (fetch?_eq_some_iff hbytes).2 htest, (fetch?_eq_some_iff hbytes).2 hnext⟩,
    ⟨b, (fetch?_eq_some_iff hbytes).2 hexit, ?_⟩, ⟨i, (fetch?_eq_some_iff hbytes).2 hitem⟩, ?_⟩
  · rw [targetOf, Option.some.injEq]
    omega
  · intro k t op c hk ht
    exact hloop.entry (Nat.zero_le k) ((fetch?_eq_some_iff hbytes).1 hk) ⟨c, rfl, ht⟩

/-- Where a jump back leads, and how far. -/
lemma Looped.exists_of_jumpBack (hlooped : Looped 0 is) {b : UInt8}
    (hb : is[j]? = some ⟨.jumpBack, .byte b⟩) :
    ∃ h < j, IsLoop 0 is h j ∧ h + b.toNat = j + 1 := by
  obtain ⟨h, hloop⟩ := hlooped j b (Nat.zero_le j) hb
  obtain ⟨c, hc, hdist⟩ := hloop.back
  rw [hb] at hc
  cases hc
  obtain ⟨e, -, hexit⟩ := hloop.exit
  exact ⟨h, by omega, hloop, hdist⟩

/-- Linked instructions, in which every jump back closes a loop, have structured bytes. -/
lemma structured_of_encode (hbytes : encode n is = .ok bytes) (hlink : Linked is)
    (hlooped : Looped 0 is) : Structured bytes := by
  have hlength := length_encode hbytes
  have hforward : ∀ {i t : Nat} {op : Opcode} {b : UInt8}, fetch? bytes i = some (op, b) →
      op.isForwardJump = true → targetOf op i b = some t → i + 1 < t ∧ t ≤ is.length := by
    intro i t op b hfetch hop ht
    have hinst := (fetch?_eq_some_iff hbytes).1 hfetch
    have hlands : (Instruction.mk op (.byte b)).Lands i t := ⟨b, rfl, ht⟩
    rcases hlands.target?_or_jumpBack with htarget | ⟨c, hc, -⟩
    · exact hlink.target hinst htarget
    · cases hc
      cases hop
  constructor
  · exact ⟨is.length, by omega⟩
  · intro i hi
    have hlt : i < is.length := by omega
    obtain ⟨b, -, hfetch⟩ := fetch?_encode hbytes (List.getElem?_eq_getElem hlt)
    rw [hfetch]
    rfl
  · intro i op b hfetch hop
    by_cases hforw : op.isForwardJump = true
    · have hpos : i + 1 < i + 1 + b.toNat := by
        refine (hforward hfetch hforw ?_).1
        rcases Opcode.eq_of_isForwardJump hforw with rfl | rfl <;> rfl
      omega
    · have hback : op = .jumpBack := by
        cases op <;> first | rfl | exact absurd rfl hforw | cases hop
      subst hback
      obtain ⟨h, hlt, -, hdist⟩ :=
        hlooped.exists_of_jumpBack ((fetch?_eq_some_iff hbytes).1 hfetch)
      omega
  · intro i t op b hfetch hop ht
    have := (hforward hfetch hop ht).2
    omega
  · intro j b hfetch
    obtain ⟨h, hlt, hloop, hdist⟩ :=
      hlooped.exists_of_jumpBack ((fetch?_eq_some_iff hbytes).1 hfetch)
    refine ⟨h, hlt, ?_, hloop.bracketsLoop hbytes⟩
    rw [targetOf, if_pos (by omega), Option.some.injEq]
    omega

end Code

open Code

/-- Code is looped from where its parts start, in all the ways of writing. -/
lemma additive_looped : Additive fun o o' => Looped o.instructions.length o'.instructions where
  refl o := looped_nil _
  trans hpre hpre' hlink hlink' h h' := h.trans h' hpre.length_le hpre' hlink hlink'
  add b hop _ h := h.push _ hop b
  addConstant hop _ _ h := h.push _ (Opcode.isJump_of_readsConstant hop) _
  hold _ h := h.reserve _
  patch hclip h := h.patch hclip
  close hlo hlink h hbody hpre hlink₁ hb hclip := by
    rw [length_loopStart] at hbody
    exact h.close hlo hlink hbody hpre hb hlink₁ hclip

namespace Job

/-- **The control flow of mappings is structured.**  Their code consists of whole instructions,
jumps lead into it or to its end, never to the next instruction, and every jump back closes a loop
that is entered at its head only and left through the jump after it. -/
theorem structured_of_compileMapping {job : Job} (hstd : job.builtins = .standard) {m : MappingDef}
    {constants constants' : Pool Constant} {bytes : List UInt8}
    (h : job.compileMapping m constants = .ok bytes constants') : Structured bytes := by
  obtain ⟨σ, hemits⟩ := emitsMapping_of_compileMapping hstd h
  have hlooped : Looped 0 σ.code.instructions := hemits.additive additive_looped hstd
  have hlink := (hemits.grown hstd).linked
  obtain ⟨-, -, -, hbuild⟩ := hemits
  exact structured_of_encode hbuild hlink hlooped

/-- A mapping that looks for an item in a list. -/
def checkMapping : MappingDef where
  ident := ⟨"check", .nowhere⟩
  labels := []
  body :=
    [.loop ⟨"flag", .nowhere⟩
      (.list [.attr ⟨"root", .nowhere⟩ ⟨"broken", .nowhere⟩ .nowhere] .nowhere)
      [.ifThen (.ref ⟨"flag", .nowhere⟩ .nowhere)
        [.fail (.literal (.str "bad") .nowhere) .nowhere]]]

/-- A job with that mapping. -/
def ofCheck : Job where
  file := ⟨[.mapping checkMapping], []⟩

/-- The code of that mapping. -/
def checkCode : List UInt8 :=
  [7, 0, 2, 0, 4, 0, 8, 0, 6, 0, 1, 1, 81, 1, 65, 7, 80, 1, 1, 2, 2, 2, 65, 2, 0, 1, 10, 0, 66, 9]

lemma compileMapping_ofCheck : ofCheck.compileMapping checkMapping {} =
    .ok checkCode ⟨[.str "broken", .str "bad"], by decide⟩ := by
  decide +kernel

/-- The loop of the mapping is closed by its last instruction, and there is a branch in it. -/
theorem structured_ofCheck :
    ∃ bytes constants, ofCheck.compileMapping checkMapping {} = .ok bytes constants ∧
      fetch? bytes 14 = some (.jumpBack, 9) ∧ fetch? bytes 11 = some (.jumpUnless, 2) ∧
      Structured bytes :=
  ⟨_, _, compileMapping_ofCheck, rfl, rfl, structured_of_compileMapping rfl compileMapping_ofCheck⟩

end Job

end Arbor
