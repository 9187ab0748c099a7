import Arbor.Code.Listing
import Arbor.Proofs.Code.Patch
import Mathlib.Data.Set.Insert

/-!
# Typed code

What is known of a run when it is about to execute an instruction is a `Shape`: how many values are
on the stack, and which slots have been written.  An annotation gives a shape to the instructions
that a run can get to.  Code is typed (`Code.Typed`) by an annotation if every instruction finds the
operands it needs, and every way on from it leads to an instruction whose shape is met, or to the
end, where a condition is met.  A jump that waits leads nowhere yet.

Code is typed while it is emitted: `Typed.snoc` adds an instruction, and `Typed.patch` points a jump
at the end, elision included, provided that the condition at the end is met where the jump waits.
-/

namespace Arbor

/-! ## Effects of instructions -/

namespace Opcode

/-- How many values an instruction takes from the stack. -/
def pops : Opcode → Nat
  | .const | .load | .kind | .list | .pushTrue | .pushFalse | .pushInt | .pushFloat | .pushNone
  | .next | .hasNext | .jump | .jumpBack => 0
  | .store | .drop | .fail | .jumpUnless | .attr | .kindOf | .iter | .neg | .not => 1
  | .append | .range | .add | .sub | .mul | .div | .and | .or | .eq | .ne | .lt | .le | .gt | .ge
  | .multipleOf | .powerOf => 2

/-- How many values an instruction puts on the stack. -/
def pushes : Opcode → Nat
  | .store | .drop | .fail | .jump | .jumpUnless | .jumpBack => 0
  | _ => 1

/-- Whether an instruction reads the slot that is its operand. -/
def readsSlot : Opcode → Bool
  | .load | .next | .hasNext => true
  | _ => false

/-- The indices at which a run may go on after the instruction at an index. -/
def successors (op : Opcode) (index : Nat) (operand : UInt8) : List Nat :=
  match op with
  | .fail => []
  | .jump | .jumpBack => (Code.targetOf op index operand).toList
  | .jumpUnless => (index + 1) :: (Code.targetOf op index operand).toList
  | _ => [index + 1]

/-- Whether a run goes on with the next instruction, come what may. -/
def goesOn : Opcode → Bool
  | .fail | .jump | .jumpUnless | .jumpBack => false
  | _ => true

/-- A run goes on after an instruction that puts a value on the stack. -/
lemma goesOn_of_pushes {op : Opcode} (h : op.pushes = 1) : op.goesOn = true := by
  cases op <;> first | rfl | cases h

lemma isForwardJump_of_goesOn {op : Opcode} (h : op.goesOn = true) : op.isForwardJump = false := by
  cases op <;> first | rfl | cases h

lemma successors_of_goesOn {op : Opcode} (h : op.goesOn = true) (i : Nat) (b : UInt8) :
    op.successors i b = [i + 1] := by
  cases op <;> first | rfl | cases h

lemma successors_le {op : Opcode} (hop : op.isForwardJump = false) {i t : Nat} {b : UInt8}
    (ht : t ∈ op.successors i b) : t ≤ i + 1 := by
  by_cases hon : op.goesOn = true
  · rw [successors_of_goesOn hon, List.mem_singleton] at ht
    omega
  · have hcases : op = .fail ∨ op = .jumpBack := by
      cases op <;> simp_all [goesOn, isForwardJump]
    rcases hcases with rfl | rfl
    · cases ht
    · simp only [successors, Option.mem_toList, Code.targetOf] at ht
      split at ht <;> cases ht
      omega

/-- Forward jumps are the two kinds of jumps that can be patched. -/
lemma eq_of_isForwardJump {op : Opcode} (h : op.isForwardJump = true) :
    op = .jump ∨ op = .jumpUnless := by
  cases op <;> first | exact .inl rfl | exact .inr rfl | cases h

end Opcode

/-- The byte of an operand.  A jump that waits has none, and none is looked at. -/
def Operand.value : Operand → UInt8
  | .byte b => b
  | .pending => 0

/-- The indices at which a run may go on.  A jump that waits leads nowhere yet. -/
def Instruction.successors (inst : Instruction) (index : Nat) : List Nat :=
  match inst.operand with
  | .byte b => inst.opcode.successors index b
  | .pending => if inst.opcode = .jumpUnless then [index + 1] else []

/-- Forward jumps apart, and those only if they do not wait, instructions lead no further than to
the next one. -/
lemma Instruction.successors_le {inst : Instruction} {i t : Nat}
    (hkind : inst.opcode.isForwardJump = false ∨ inst.operand = .pending)
    (ht : t ∈ inst.successors i) : t ≤ i + 1 := by
  obtain ⟨op, operand⟩ := inst
  cases operand with
  | pending =>
    by_cases hop : op = .jumpUnless
    · simp [successors, hop] at ht
      omega
    · simp [successors, hop] at ht
  | byte b => exact Opcode.successors_le (hkind.resolve_right nofun) ht

/-! ## Shapes -/

/-- What is known of a run between two instructions. -/
structure Shape where
  /-- The number of values on the stack. -/
  depth : Nat
  /-- Slots that have been written. -/
  written : Set UInt8

namespace Shape

variable {s s₁ s₂ : Shape}

/-- A shape that says at least as much as another. -/
def Fits (s t : Shape) : Prop := s.depth = t.depth ∧ t.written ⊆ s.written

lemma fits_refl (s : Shape) : s.Fits s := ⟨rfl, subset_rfl⟩

lemma Fits.trans (h : s.Fits s₁) (h' : s₁.Fits s₂) : s.Fits s₂ :=
  ⟨h.1.trans h'.1, h'.2.trans h.2⟩

/-- The operands of an instruction are there: values on the stack, and what is in a slot. -/
def Enables (s : Shape) (op : Opcode) (b : UInt8) : Prop :=
  op.pops ≤ s.depth ∧ (op.readsSlot = true → b ∈ s.written)

/-- The shape after an instruction. -/
def after (s : Shape) (op : Opcode) (b : UInt8) : Shape where
  depth := s.depth - op.pops + op.pushes
  written := if op = .store then insert b s.written else s.written

/-- The shape with more values on the stack. -/
def grow (s : Shape) (n : Nat) : Shape := { s with depth := s.depth + n }

/-- The shape with one more slot written. -/
def write (s : Shape) (b : UInt8) : Shape := { s with written := insert b s.written }

lemma Fits.grow (h : s.Fits s₁) (n : Nat) : (s.grow n).Fits (s₁.grow n) :=
  ⟨congrArg (· + n) h.1, h.2⟩

lemma write_fits (s : Shape) (b : UInt8) : (s.write b).Fits s := ⟨rfl, Set.subset_insert _ _⟩

end Shape

namespace Code

open Opcode

/-! ## Typed code -/

/-- A shape for each instruction that a run can get to. -/
abbrev Annotation := Nat → Option Shape

/-- A run of a given shape may go on at the index `t`: this is the end `n` of the code and the run
meets the condition there, or it meets the annotation of an instruction from `lo` on. -/
def Arrives (lo : Nat) (A : Annotation) (E : Shape → Prop) (n t : Nat) (s : Shape) : Prop :=
  (t = n ∧ E s) ∨ (lo ≤ t ∧ t < n ∧ ∃ s', A t = some s' ∧ s.Fits s')

/-- An annotation types the code from `lo` on, for runs that enter it there with the shape `s`. -/
structure Types (A : Annotation) (lo : Nat) (s : Shape) (is : List Instruction)
    (E : Shape → Prop) (X : Nat → Shape → Prop) : Prop where
  entry : ∀ {u : Shape}, u.Fits s → Arrives lo A E is.length lo u
  enables : ∀ {i : Nat} {inst : Instruction} {s : Shape}, lo ≤ i → is[i]? = some inst →
    A i = some s → s.Enables inst.opcode inst.operand.value
  arrives : ∀ {i : Nat} {inst : Instruction} {s : Shape}, lo ≤ i → is[i]? = some inst →
    A i = some s → ∀ t ∈ inst.successors i,
      Arrives lo A E is.length t (s.after inst.opcode inst.operand.value)
  waits : ∀ {i : Nat} {op : Opcode} {s : Shape}, lo ≤ i → is[i]? = some ⟨op, .pending⟩ →
    A i = some s → X i (s.after op 0)

/-- Code can be run from `lo` on, from the shape `s`.  Runs that get to the end meet the condition
`E` there, and those that get to a jump that waits would take the shape `X` says with them. -/
def Typed (lo : Nat) (s : Shape) (is : List Instruction) (E : Shape → Prop)
    (X : Nat → Shape → Prop) : Prop :=
  ∃ A, Types A lo s is E X

variable {lo : Nat} {A A' : Annotation} {E E' : Shape → Prop} {X X' : Nat → Shape → Prop}
  {is is' : List Instruction} {s s₁ : Shape} {n : Nat}

lemma Arrives.mono {t : Nat} (h : Arrives lo A E n t s) (hE : ∀ t, E t → E' t) :
    Arrives lo A E' n t s := by
  rcases h with ⟨ht, hs⟩ | h
  · exact .inl ⟨ht, hE s hs⟩
  · exact .inr h

/-- Less may be asked of what leaves the code. -/
lemma Typed.mono (h : Typed lo s is E X) (hE : ∀ t, E t → E' t)
    (hX : ∀ i t, lo ≤ i → i < is.length → X i t → X' i t) : Typed lo s is E' X' := by
  obtain ⟨A, hA⟩ := h
  exact ⟨A, fun hu => (hA.entry hu).mono hE, hA.enables,
    fun hlo hi hs t ht => (hA.arrives hlo hi hs t ht).mono hE,
    fun hlo hi hs => hX _ _ hlo (List.getElem?_eq_some_iff.1 hi).1 (hA.waits hlo hi hs)⟩

/-! ## Putting code together -/

/-- No code. -/
lemma typed_nil (s : Shape) (is : List Instruction) (X : Nat → Shape → Prop) :
    Typed is.length s is (·.Fits s) X := by
  refine ⟨fun _ => none, fun hu => .inl ⟨rfl, hu⟩, ?_, ?_, ?_⟩
  all_goals
    intro i _ _ _ _ hs
    cases hs

/-- One more instruction, from which runs go on with what comes next or where the code starts. -/
lemma Typed.snoc (h : Typed lo s is (·.Fits s₁) X) {inst : Instruction}
    (henables : s₁.Enables inst.opcode inst.operand.value)
    (hgoes : ∀ t ∈ inst.successors is.length,
      (t = is.length + 1 ∧ E (s₁.after inst.opcode inst.operand.value)) ∨
        (t = lo ∧ (s₁.after inst.opcode inst.operand.value).Fits s))
    (hwaits : inst.operand = .pending → X is.length (s₁.after inst.opcode 0)) :
    Typed lo s (is ++ [inst]) E X := by
  obtain ⟨A, hA⟩ := h
  have hlength : (is ++ [inst]).length = is.length + 1 := by simp
  have hlo : lo ≤ is.length := by
    rcases hA.entry s.fits_refl with ⟨hend, -⟩ | ⟨-, hlt, -⟩ <;> omega
  let B : Annotation := fun i => if i < is.length then A i else some s₁
  -- What led to the end leads to the instruction that is added there.
  have harrives : ∀ {t : Nat} {u : Shape}, Arrives lo A (·.Fits s₁) is.length t u →
      Arrives lo B E (is ++ [inst]).length t u := by
    rintro t u (⟨rfl, hfits⟩ | ⟨ht, hlt, u', hu', hfits⟩)
    · exact .inr ⟨hlo, by omega, s₁, by simp [B], hfits⟩
    · exact .inr ⟨ht, by omega, u', by simpa [B, hlt] using hu', hfits⟩
  have hcases : ∀ {i : Nat} {inst' : Instruction} {u : Shape}, (is ++ [inst])[i]? = some inst' →
      B i = some u →
        (is[i]? = some inst' ∧ A i = some u) ∨ (i = is.length ∧ inst = inst' ∧ s₁ = u) := by
    intro i inst' u hi hu
    rcases getElem?_snoc_eq_some_iff.1 hi with hi | ⟨rfl, rfl⟩
    · exact .inl ⟨hi, by simpa [B, (List.getElem?_eq_some_iff.1 hi).1] using hu⟩
    · exact .inr ⟨rfl, rfl, by simpa [B] using hu⟩
  refine ⟨B, fun hu => harrives (hA.entry hu), ?_, ?_, ?_⟩
  · intro i inst' u hi hinst hu
    rcases hcases hinst hu with ⟨hinst, hu⟩ | ⟨rfl, rfl, rfl⟩
    · exact hA.enables hi hinst hu
    · exact henables
  · intro i inst' u hi hinst hu t ht
    rcases hcases hinst hu with ⟨hinst, hu⟩ | ⟨rfl, rfl, rfl⟩
    · exact harrives (hA.arrives hi hinst hu t ht)
    · rcases hgoes t ht with ⟨rfl, hE⟩ | ⟨rfl, hfits⟩
      · exact .inl ⟨hlength.symm, hE⟩
      · exact harrives (hA.entry hfits)
  · intro i op u hi hinst hu
    rcases hcases hinst hu with ⟨hinst, hu⟩ | ⟨rfl, rfl, rfl⟩
    · exact hA.waits hi hinst hu
    · exact hwaits rfl

/-- Code and then more code, which starts where the first ends. -/
lemma Typed.trans (h : Typed lo s is (·.Fits s₁) X) (h' : Typed is.length s₁ is' E X)
    (hpre : is <+: is') : Typed lo s is' E X := by
  obtain ⟨A, hA⟩ := h
  obtain ⟨A', hA'⟩ := h'
  have hlo : lo ≤ is.length := by
    rcases hA.entry s.fits_refl with ⟨hend, -⟩ | ⟨-, hlt, -⟩ <;> omega
  have hle := hpre.length_le
  -- Each part keeps its own annotation; what led to the end of the first enters the second.
  let B : Annotation := fun i => if i < is.length then A i else A' i
  have hsecond : ∀ {t : Nat} {u : Shape}, Arrives is.length A' E is'.length t u →
      Arrives lo B E is'.length t u := by
    rintro t u (hend | ⟨ht, hlt, u', hu', hfits⟩)
    · exact .inl hend
    · exact .inr ⟨by omega, hlt, u', by simpa [B, Nat.not_lt.2 ht] using hu', hfits⟩
  have hfirst : ∀ {t : Nat} {u : Shape}, Arrives lo A (·.Fits s₁) is.length t u →
      Arrives lo B E is'.length t u := by
    rintro t u (⟨rfl, hfits⟩ | ⟨ht, hlt, u', hu', hfits⟩)
    · exact hsecond (hA'.entry hfits)
    · exact .inr ⟨ht, by omega, u', by simpa [B, hlt] using hu', hfits⟩
  have hget : ∀ {i : Nat}, i < is.length → is'[i]? = is[i]? := by
    intro i hi
    obtain ⟨rest, rfl⟩ := hpre
    exact List.getElem?_append_left hi
  refine ⟨B, fun hu => hfirst (hA.entry hu), ?_, ?_, ?_⟩
  · intro i inst u hi hinst hu
    by_cases hlt : i < is.length
    · rw [hget hlt] at hinst
      exact hA.enables hi hinst (by simpa [B, hlt] using hu)
    · exact hA'.enables (Nat.le_of_not_lt hlt) hinst (by simpa [B, hlt] using hu)
  · intro i inst u hi hinst hu t ht
    by_cases hlt : i < is.length
    · rw [hget hlt] at hinst
      exact hfirst (hA.arrives hi hinst (by simpa [B, hlt] using hu) t ht)
    · exact hsecond (hA'.arrives (Nat.le_of_not_lt hlt) hinst (by simpa [B, hlt] using hu) t ht)
  · intro i op u hi hinst hu
    by_cases hlt : i < is.length
    · rw [hget hlt] at hinst
      exact hA.waits hi hinst (by simpa [B, hlt] using hu)
    · exact hA'.waits (Nat.le_of_not_lt hlt) hinst (by simpa [B, hlt] using hu)

/-- Code whose end no run gets to may be continued by anything. -/
lemma Typed.append_dead (h : Typed lo s is (fun _ => False) X) (hpre : is <+: is') :
    Typed lo s is' (fun _ => False) X := by
  obtain ⟨A, hA⟩ := h
  obtain ⟨rest, rfl⟩ := hpre
  let B : Annotation := fun i => if i < is.length then A i else none
  have harrives : ∀ {t : Nat} {u : Shape}, Arrives lo A (fun _ => False) is.length t u →
      Arrives lo B (fun _ => False) (is ++ rest).length t u := by
    rintro t u (⟨-, hfalse⟩ | ⟨ht, hlt, u', hu', hfits⟩)
    · exact hfalse.elim
    · refine .inr ⟨ht, ?_, u', by simpa [B, hlt] using hu', hfits⟩
      rw [List.length_append]
      omega
  have hold : ∀ {i : Nat} {inst : Instruction} {u : Shape}, (is ++ rest)[i]? = some inst →
      B i = some u → is[i]? = some inst ∧ A i = some u := by
    intro i inst u hi hu
    by_cases hlt : i < is.length
    · rw [List.getElem?_append_left hlt] at hi
      exact ⟨hi, by simpa [B, hlt] using hu⟩
    · simp [B, hlt] at hu
  refine ⟨B, fun hu => harrives (hA.entry hu), ?_, ?_, ?_⟩
  · intro i inst u hlo hi hu
    exact hA.enables hlo (hold hi hu).1 (hold hi hu).2
  · intro i inst u hlo hi hu t ht
    exact harrives (hA.arrives hlo (hold hi hu).1 (hold hi hu).2 t ht)
  · intro i op u hlo hi hu
    exact hA.waits hlo (hold hi hu).1 (hold hi hu).2

/-- An instruction after which runs go on. -/
lemma Typed.push (h : Typed lo s is (·.Fits s₁) X) {op : Opcode} (hop : op.goesOn = true)
    {b : UInt8} (henables : s₁.Enables op b) :
    Typed lo s (is ++ [⟨op, .byte b⟩]) (·.Fits (s₁.after op b)) X := by
  refine h.snoc henables (fun t ht => .inl ?_) nofun
  have hnext : t ∈ op.successors is.length b := ht
  rw [successors_of_goesOn hop, List.mem_singleton] at hnext
  exact ⟨hnext, Shape.fits_refl _⟩

/-- An instruction that replaces its operands by one value. -/
lemma Typed.replace (h : Typed lo s is (·.Fits (s₁.grow n)) X) (op : Opcode) (hpops : op.pops = n)
    (hone : op.pushes = 1) {b : UInt8} (hreads : op.readsSlot = false ∨ b ∈ s₁.written) :
    Typed lo s (is ++ [⟨op, .byte b⟩]) (·.Fits (s₁.grow 1)) X := by
  have hafter : (s₁.grow n).after op b = s₁.grow 1 := by
    have hstore : op ≠ .store := by
      rintro rfl
      cases hone
    simp [Shape.after, Shape.grow, hpops, hone, hstore]
  have hpush := h.push (goesOn_of_pushes hone)
    ⟨by simp [Shape.grow, hpops], fun h => hreads.resolve_left (by simp [h])⟩
  rwa [hafter] at hpush

/-- A value is stored into a slot. -/
lemma Typed.store (h : Typed lo s is (·.Fits (s₁.grow 1)) X) (b : UInt8) :
    Typed lo s (is ++ [⟨.store, .byte b⟩]) (·.Fits (s₁.write b)) X :=
  h.push rfl ⟨Nat.le_add_left 1 _, nofun⟩

/-- A value is dropped. -/
lemma Typed.drop (h : Typed lo s is (·.Fits (s₁.grow 1)) X) (b : UInt8) :
    Typed lo s (is ++ [⟨.drop, .byte b⟩]) (·.Fits s₁) X :=
  h.push rfl ⟨Nat.le_add_left 1 _, nofun⟩

/-- An instruction that ends the run. -/
lemma Typed.fail (h : Typed lo s is (·.Fits (s₁.grow 1)) X) (b : UInt8) :
    Typed lo s (is ++ [⟨.fail, .byte b⟩]) (fun _ => False) X :=
  h.snoc ⟨Nat.le_add_left 1 _, nofun⟩ nofun nofun

/-- A jump that waits. -/
lemma Typed.reserve_jump (h : Typed lo s is (·.Fits s₁) X) (hX : X is.length s₁) :
    Typed lo s (is ++ [⟨.jump, .pending⟩]) (fun _ => False) X :=
  h.snoc ⟨Nat.zero_le _, nofun⟩ nofun fun _ => hX

/-- A conditional jump that waits: where its condition holds, runs go on. -/
lemma Typed.reserve_jumpUnless (h : Typed lo s is (·.Fits (s₁.grow 1)) X) (hX : X is.length s₁) :
    Typed lo s (is ++ [⟨.jumpUnless, .pending⟩]) (·.Fits s₁) X := by
  refine h.snoc ⟨Nat.le_add_left 1 _, nofun⟩ (fun t ht => .inl ?_) fun _ => hX
  exact ⟨List.mem_singleton.1 ht, s₁.fits_refl⟩

/-- A jump back to where the code starts. -/
lemma Typed.jumpBack (h : Typed lo s is (·.Fits s₁) X) (hlo : lo ≤ is.length)
    (hfits : s₁.Fits s) {b : UInt8} (hb : b.toNat = is.length + 1 - lo) :
    Typed lo s (is ++ [⟨.jumpBack, .byte b⟩]) (fun _ => False) X := by
  refine h.snoc ⟨Nat.zero_le _, nofun⟩ (fun t ht => .inr ?_) nofun
  have htarget : targetOf .jumpBack is.length b = some lo := by
    rw [targetOf, if_pos (by omega), Option.some.injEq]
    omega
  have hmem : t ∈ (targetOf .jumpBack is.length b).toList := ht
  rw [htarget, Option.toList_some, List.mem_singleton] at hmem
  exact ⟨hmem, hfits⟩

/-! ## Patching -/

section Patching

variable {a : Nat}

/-- A jump that leads somewhere once the jump at `a` is patched finds its operands, and runs may go
on where it leads. -/
lemma Types.arrives_of_leads (hA : Types A lo s is E X) (ha : ∀ t, X a t → E t)
    {i t : Nat} {op : Opcode} {u : Shape} (hi : lo ≤ i) (hleads : Leads is a i op t)
    (hu : A i = some u) :
    op.pops ≤ u.depth ∧ Arrives lo A E is.length t (u.after op 0) ∧
      (op = .jumpUnless → Arrives lo A E is.length (i + 1) (u.after op 0)) := by
  obtain ⟨hop, ⟨b, hinst, rfl⟩ | ⟨rfl, hinst, rfl⟩⟩ := hleads
  · have hafter : u.after op b = u.after op 0 := by
      rcases eq_of_isForwardJump hop with rfl | rfl <;> rfl
    have harrives : ∀ t ∈ op.successors i b, Arrives lo A E is.length t (u.after op 0) := by
      rw [← hafter]
      exact hA.arrives hi hinst hu
    refine ⟨(hA.enables hi hinst hu).1, harrives _ ?_, ?_⟩
    · rcases eq_of_isForwardJump hop with rfl | rfl <;> simp [Opcode.successors, targetOf]
    · rintro rfl
      exact harrives _ (List.mem_cons_self ..)
  · refine ⟨(hA.enables hi hinst hu).1, .inl ⟨rfl, ha _ (hA.waits hi hinst hu)⟩, ?_⟩
    rintro rfl
    exact hA.arrives hi hinst hu _ (List.mem_singleton_self _)

/-- Only jumps to the end are taken away, so runs that got there get to the end. -/
lemma Types.end_of_clipped (hA : Types A lo s is E X) (hlink : Linked is) (hclip : Clips a is is')
    (hE : ∀ u u', u.Fits u' → E u' → E u) (ha : ∀ t, X a t → E t) {t : Nat} {u : Shape}
    (ht : is'.length ≤ t) (hu : Arrives lo A E is.length t u) : E u := by
  have htle : t ≤ is.length := by
    rcases hu with ⟨rfl, -⟩ | ⟨-, hlt, -⟩ <;> omega
  -- The induction is on how far the end is.
  induction hk : is.length - t using Nat.strongRecOn generalizing t u with
  | ind k ih =>
    rcases hu with ⟨-, hu⟩ | ⟨hlo, hlt, u', hu', hfits⟩
    · exact hu
    · obtain ⟨t', ht'⟩ := hclip.leads_of_length_le (List.getElem?_eq_getElem hlt) ht
      have hfar := hlink.lt_of_leads ht'
      have hjump : is[t].opcode = .jump := by
        rcases hclip.jump ht' with ⟨hjump, -⟩ | ⟨-, hend, -⟩ | ⟨b, hb, -⟩
        · exact hjump
        · omega
        · have := (List.getElem?_eq_some_iff.1 hb).1
          omega
      have hnext := (hA.arrives_of_leads ha hlo ht' hu').2.1
      rw [hjump] at hnext
      exact hE u u' hfits (ih (is.length - t') (by omega) (by omega) hnext (by omega) rfl)

/-- Pointing a jump at the end keeps code typed, if the condition at the end is met where the jump
waits. -/
lemma Typed.patch (h : Typed lo s is E X) (hlink : Linked is) (hclip : Clips a is is')
    (hlo : lo ≤ is'.length) (hE : ∀ u u', u.Fits u' → E u' → E u) (ha : ∀ t, X a t → E t)
    (hX : ∀ i t, i ≠ a → X i t → X' i t) : Typed lo s is' E X' := by
  obtain ⟨A, hA⟩ := h
  have hle := hclip.length_le
  have harrives : ∀ {t t' : Nat} {u : Shape}, Arrives lo A E is.length t u →
      t' = min t is'.length → Arrives lo A E is'.length t' u := by
    rintro t _ u hu rfl
    by_cases hlt : t < is'.length
    · rw [Nat.min_eq_left (Nat.le_of_lt hlt)]
      rcases hu with ⟨rfl, -⟩ | ⟨ht, -, hu⟩
      · omega
      · exact .inr ⟨ht, hlt, hu⟩
    · exact .inl ⟨by omega, hA.end_of_clipped hlink hclip hE ha (Nat.le_of_not_lt hlt) hu⟩
  refine ⟨A, fun hu => harrives (hA.entry hu) (by omega), ?_, ?_, ?_⟩
  · intro i inst u hi hinst hu
    rcases hclip.cases_getElem? hinst with ⟨hold, -⟩ | ⟨op, t, hleads, ⟨rfl, -, rfl⟩ | ⟨b, rfl, -⟩⟩
    · exact hA.enables hi hold hu
    · exact ⟨(hA.arrives_of_leads ha hi hleads hu).1, nofun⟩
    · refine ⟨(hA.arrives_of_leads ha hi hleads hu).1, fun hreads => ?_⟩
      rcases eq_of_isForwardJump hleads.1 with rfl | rfl <;> cases hreads
  · intro i inst u hi hinst hu t ht
    have hlt := (List.getElem?_eq_some_iff.1 hinst).1
    rcases hclip.cases_getElem? hinst with
      ⟨hold, hkind⟩ | ⟨op, t', hleads, ⟨rfl, hend, rfl⟩ | ⟨b, rfl, hdist, -⟩⟩
    · -- Other instructions, and jumps that still wait, lead no further than to the next one.
      have htle : t ≤ i + 1 := inst.successors_le (hkind.imp_right And.left) ht
      exact harrives (hA.arrives hi hold hu t ht) (by omega)
    · have hnext : t = i + 1 := by simpa [Instruction.successors, Opcode.successors] using ht
      subst hnext
      exact harrives ((hA.arrives_of_leads ha hi hleads hu).2.2 rfl) (by omega)
    · obtain ⟨-, hjumps, hfalls⟩ := hA.arrives_of_leads ha hi hleads hu
      rcases eq_of_isForwardJump hleads.1 with rfl | rfl
      · have hnext : t = i + 1 + b.toNat := by
          simpa [Instruction.successors, Opcode.successors, targetOf] using ht
        exact harrives hjumps (by omega)
      · have hnext : t = i + 1 ∨ t = i + 1 + b.toNat := by
          simpa [Instruction.successors, Opcode.successors, targetOf] using ht
        rcases hnext with rfl | rfl
        · exact harrives (hfalls rfl) (by omega)
        · exact harrives hjumps hdist
  · intro i op u hi hinst hu
    have hpending := (hclip.cases_getElem? hinst).resolve_right (by
      rintro ⟨_, _, -, ⟨-, -, hbad⟩ | ⟨b, hbad, -⟩⟩ <;> cases hbad)
    have hne : i ≠ a := by
      rcases hpending.2 with hno | ⟨-, hne⟩
      · exact absurd (hlink.pending hpending.1) (by simp [hno])
      · exact hne
    exact hX i _ hne (hA.waits hi hpending.1 hu)

end Patching

end Code

end Arbor
