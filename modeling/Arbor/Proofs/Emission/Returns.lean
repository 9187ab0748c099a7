import Arbor.Proofs.Code.Flow
import Arbor.Proofs.Emission.Linking
import Arbor.Proofs.Emission.Typing

/-!
# Statements that are known to return

Emission of statements tells whether every path through them returns or fails.  Code after a return
is emitted all the same, and jumps in it may lead to the end, but control does not get there.

* `Emission.Visited.neverEnds`: control does not get to the end of statements that are known to
  return.
* `Emission.Visited.returns_sound`: so an inlined body that is known to return is left by its
  returns only.
-/

namespace Arbor

open Code Step

/-! ## Patching several jumps -/

namespace Emit

variable {is : List Instruction} {as rest : List Anchor} {σ σ' : EmitState}

lemma size_le_of_patchAll (hgrown : Grown is σ.code.instructions (as ++ rest)) (hlink : Linked is)
    (hpatch : patchAll as σ = .ok () σ') :
    σ'.code.instructions.length ≤ σ.code.instructions.length := by
  induction as generalizing σ with
  | nil =>
    cases hpatch
    exact Nat.le_refl _
  | cons a as ih =>
    obtain ⟨c, hc, hrest⟩ := patchAll_cons_eq_ok hpatch
    have hmiddle : Grown is σ.code.instructions ([] ++ a :: (as ++ rest)) := hgrown
    have hclip := clips_of_patch hgrown.linked hmiddle.isPending hc
    exact Nat.le_trans (ih (hmiddle.patch hlink hclip) hrest) hclip.length_le

/-- When jumps are patched, the ways to the end are those from before and those that take one of
them. -/
lemma walk_iff_of_patchAll (hgrown : Grown is σ.code.instructions (as ++ rest))
    (hlink : Linked is) (hpatch : patchAll as σ = .ok () σ') {taken : Set Nat}
    {visited : List Nat} :
    Walk σ'.code.instructions taken is.length visited σ'.code.instructions.length ↔
      ∃ before, Walk σ.code.instructions (taken ∪ {i | ⟨i⟩ ∈ as}) is.length before
          σ.code.instructions.length ∧
        visited = before.filter (· < σ'.code.instructions.length) := by
  induction as generalizing σ taken with
  | nil =>
    cases hpatch
    have hall : ∀ {before : List Nat}, Walk σ'.code.instructions taken is.length before
        σ'.code.instructions.length →
        before.filter (· < σ'.code.instructions.length) = before := by
      intro before hwalk
      simpa using fun i hi => hwalk.lt_of_mem hi
    have hnone : taken ∪ {i | ⟨i⟩ ∈ ([] : List Anchor)} = taken := by simp
    rw [hnone]
    constructor
    · intro hwalk
      exact ⟨visited, hwalk, (hall hwalk).symm⟩
    · rintro ⟨before, hwalk, rfl⟩
      rwa [hall hwalk]
  | cons a as ih =>
    obtain ⟨c, hc, hrest⟩ := patchAll_cons_eq_ok hpatch
    have hmiddle : Grown is σ.code.instructions ([] ++ a :: (as ++ rest)) := hgrown
    have hclip := clips_of_patch hgrown.linked hmiddle.isPending hc
    have hpatched := hmiddle.patch hlink hclip
    have hle := size_le_of_patchAll hpatched hlink hrest
    have htaken : insert a.index (taken ∪ {i | ⟨i⟩ ∈ as}) = taken ∪ {i | ⟨i⟩ ∈ a :: as} := by
      ext i
      obtain ⟨j⟩ := a
      simp
      tauto
    have hfilter : ∀ before : List Nat,
        (before.filter (· < c.instructions.length)).filter (· < σ'.code.instructions.length) =
          before.filter (· < σ'.code.instructions.length) := by
      intro before
      rw [List.filter_filter]
      refine List.filter_congr fun i _ => ?_
      have hlt : i < σ'.code.instructions.length → i < c.instructions.length :=
        fun hi => Nat.lt_of_lt_of_le hi hle
      simpa using hlt
    rw [ih hpatched hrest]
    constructor
    · rintro ⟨_, hwalk, rfl⟩
      obtain ⟨before, hbefore, rfl⟩ := (hclip.walk_iff hgrown.linked hpatched.length_le).1 hwalk
      exact ⟨before, htaken ▸ hbefore, hfilter before⟩
    · rintro ⟨before, hbefore, rfl⟩
      exact ⟨_, (hclip.walk_iff hgrown.linked hpatched.length_le).2 ⟨before, htaken ▸ hbefore, rfl⟩,
        (hfilter before).symm⟩

/-- Once its returns are patched, control gets to the end of code by them alone, if it did not get
there before. -/
lemma endsBy_of_patchAll (hpatch : patchAll as σ = .ok () σ')
    (hgrown : Grown is σ.code.instructions as) (hlink : Linked is)
    (h : NeverEnds is.length σ.code.instructions) :
    EndsBy as is.length σ.code.instructions σ'.code.instructions := by
  have hgrown' : Grown is σ.code.instructions (as ++ []) := by rwa [List.append_nil]
  intro visited
  rw [walk_iff_of_patchAll hgrown' hlink hpatch]
  constructor
  · rintro ⟨_, hend, rfl⟩
    obtain ⟨i, hi, -, before, hwalk, rfl⟩ := h.walk_iff.1 hend
    exact ⟨⟨i⟩, hi.resolve_left id, before, hwalk, rfl⟩
  · rintro ⟨a, ha, before, hwalk, rfl⟩
    refine ⟨_, h.walk_iff.2 ⟨a.index, .inr ha, ?_, before, hwalk, rfl⟩, rfl⟩
    exact (hgrown.mem_iff.1 ha).2

end Emit

namespace Emission

open Emit

variable {job : Job} {σ σ' : EmitState}

/-- What emission from a state in which it is at work derives. -/
lemma Visited.emits_stmts (hstd : job.builtins = .standard) (h : Visited job σ)
    {body : List Stmt} {returns : Bool} (hrun : job.emitStmts body σ = .ok returns σ') :
    Emits job σ.inlining (.stmts body returns) σ σ' :=
  (derives_emitStmts hstd (derives_emitCall hstd σ.inlining) body (h.sound hstd)).of_ok hrun

lemma Visited.proceeds (hstd : job.builtins = .standard) (h : Visited job σ) {body : List Stmt}
    {returns : Bool} (hrun : job.emitStmts body σ = .ok returns σ') : σ.Proceeds σ' :=
  (h.emits_stmts hstd hrun).effect hstd (h.sound hstd) trivial

/-- Control does not get to the end of statements that are known to return. -/
lemma Visited.neverEnds (hstd : job.builtins = .standard) (h : Visited job σ) {body : List Stmt}
    (hrun : job.emitStmts body σ = .ok true σ') :
    NeverEnds σ.code.size σ'.code.instructions := by
  -- Control flow is that of runs which start with nothing on the stack and all slots written.
  obtain ⟨s', -, -, htyped⟩ := (h.emits_stmts hstd hrun).shaped hstd (h.sound hstd) trivial
    ⟨0, Set.univ⟩ fun _ _ => Set.mem_univ _
  have hdead : σ.Shapes σ' _ (fun _ => False) _ :=
    htyped.mono (fun _ hend => absurd hend.1 (by simp)) fun _ _ _ _ hX => hX
  obtain ⟨A, hA⟩ := hdead
  intro visited t hwalk
  obtain ⟨hlo, hlt, -⟩ := hA.walk_lt hwalk
  exact ⟨hlo, hlt⟩

/-- Inlining a body that is known to return comes down to patching its returns. -/
lemma patchAll_of_emitCall {entered : List String} {g : Inlinable job entered} {scope : Scope}
    {frame : Frame} {σ₁ : EmitState} {t : ValueType}
    (hbody : emitStmts (emitCall job (g.name :: entered)) g.definition.body
      (σ.openFrame g.name scope) = .ok true σ₁)
    (hframe : σ₁.frames = σ.frames ++ [frame]) (hcall : emitCall job entered g scope σ = .ok t σ') :
    patchAll frame.exits (σ₁.leaveFrame σ.scopes σ.frames) = .ok () σ' := by
  have hstep : Ensures (emitCall job entered g scope) σ
      (fun _ σ' => patchAll frame.exits (σ₁.leaveFrame σ.scopes σ.frames) = .ok () σ')
      fun _ _ => True := by
    rw [emitCall]
    refine ensures_inFrame_bind ?_
    unfold Ensures
    rw [hbody]
    refine ⟨frame, hframe, ?_⟩
    change Ensures (patchAll frame.exits >>= fun _ => pure _) _ _ _
    cases hpatch : patchAll frame.exits (σ₁.leaveFrame σ.scopes σ.frames) with
    | ok u σ₂ => exact ensures_bind_of_ok hpatch (ensures_pure rfl)
    | error p σ₂ => exact ensures_bind_of_error hpatch trivial
  exact hstep.of_ok hcall

/-- **Statements that are said to return do.**  In every state in which emission is at work with the
standard builtins:

* if statements are emitted and said to return, then control that comes in where their code starts
  never gets to its end, whichever way conditional jumps go; and the jumps that wait in it, which
  lead out of it, are the returns recorded for it;
* if the body of a function is inlined and said to return, then control gets from where its code
  starts to where it ends just as it got to a return, whose jump was then patched. -/
theorem Visited.returns_sound (hstd : job.builtins = .standard) (h : Visited job σ) :
    (∀ body σ', job.emitStmts body σ = .ok true σ' →
      NeverEnds σ.code.size σ'.code.instructions ∧
        ∃ exits, Frame.Extend exits σ.frames σ'.frames ∧ ∀ a : Anchor, a ∈ exits ↔
          σ.code.size ≤ a.index ∧ IsPending σ'.code.instructions a.index) ∧
    ∀ (g : Inlinable job σ.inlining) args scope t σ₁ σ₂ σ₃,
      emitParams (emitCall job σ.inlining) { role := some (.function σ.frames.length) }
        g.definition.params args σ = .ok scope σ₁ →
      job.emitStmts g.definition.body (σ₁.openFrame g.name scope) = .ok true σ₂ →
      emitCall job σ.inlining g scope σ₁ = .ok t σ₃ →
      ∃ frame, σ₂.frames = σ₁.frames ++ [frame] ∧
        EndsBy frame.exits σ₁.code.size σ₂.code.instructions σ₃.code.instructions := by
  refine ⟨fun body σ' hrun => ⟨h.neverEnds hstd hrun, ?_⟩, ?_⟩
  · obtain ⟨exits, hext⟩ := (h.proceeds hstd hrun).extend
    exact ⟨exits, hext.frames, fun a => hext.code.mem_iff⟩
  · intro g args scope t σ₁ σ₂ σ₃ hparams hbody hcall
    have hopened : Visited job (σ₁.openFrame g.name scope) :=
      .body h g.mem g.notEntered hparams
    obtain ⟨frame, hframe, hext⟩ := (hopened.proceeds hstd hbody).exists_exits
    have hends := hopened.neverEnds hstd hbody
    -- The body is emitted inside the functions that were being inlined before its arguments.
    have hkept : σ₁.inlining = σ.inlining :=
      ((ensures_emitParams (appendOnly_emitCall job σ.inlining) g.definition.params args h.tidy
        (Scopes.Settled.nil.open_empty rfl)).of_ok hparams).1.inlining
    rw [Job.emitStmts, EmitState.openFrame_inlining, hkept] at hbody
    have hpatch := patchAll_of_emitCall hbody hframe hcall
    have hlink := hopened.linked hstd
    have hexits := endsBy_of_patchAll hpatch hext.code hlink hends
    exact ⟨frame, hframe, hexits⟩

/-- A function that returns or fails, and goes on to return in a branch that is never run. -/
def choiceDef : FunctionDef where
  ident := ⟨"choice", .nowhere⟩
  params := [⟨"n", .nowhere⟩]
  body :=
    [.ifElse (.ref ⟨"n", .nowhere⟩ .nowhere) [.ret (some (.literal (.bool true) .nowhere))]
        [.fail (.literal (.str "no") .nowhere) .nowhere],
      .ifThen (.ref ⟨"n", .nowhere⟩ .nowhere) [.ret (some (.literal (.bool false) .nowhere))]]

/-- A job with that function. -/
def choiceJob : Job where
  file := ⟨[.function choiceDef], []⟩

lemma choiceDef_mem : choiceDef ∈ choiceJob.file.functions := by
  simp [choiceJob, File.functions, File.searchOrder, Definition.function?]

/-- The argument `root.flag`. -/
def choiceArgs : List Expr := [.attr ⟨"root", .nowhere⟩ ⟨"flag", .nowhere⟩ .nowhere]

/-- The scope of the body, with a slot for the argument. -/
def choiceScope : Scope := ⟨[("n", .stored .any 1 true)], some (.function 1)⟩

/-- The argument has been stored. -/
def choiceStart : EmitState :=
  { EmitState.start (Pool.intern {} (.str "flag")).2 with
    code := ⟨[⟨.load, .byte 0⟩, ⟨.attr, .byte 0⟩, ⟨.store, .byte 1⟩]⟩
    slots := ⟨2⟩ }

/-- The body has been emitted, and two returns wait.  A jump leads to the end, from code that is
never run. -/
def choiceBody : EmitState where
  code := ⟨choiceStart.code.instructions ++
    [⟨.load, .byte 1⟩, ⟨.jumpUnless, .byte 3⟩, ⟨.pushTrue, .byte 0⟩, ⟨.jump, .pending⟩,
      ⟨.jump, .byte 2⟩, ⟨.const, .byte 1⟩, ⟨.fail, .byte 0⟩,
      ⟨.load, .byte 1⟩, ⟨.jumpUnless, .byte 2⟩, ⟨.pushFalse, .byte 0⟩, ⟨.jump, .pending⟩]⟩
  slots := ⟨2⟩
  scopes := [choiceScope]
  frames := [{}, ⟨[.of .bool, .of .bool], [⟨13⟩, ⟨6⟩]⟩]
  inlining := ["choice"]
  constants := (choiceStart.constants.intern (.str "no")).2

/-- The function has been inlined.  The last return was a jump over nothing. -/
def choiceEnd : EmitState :=
  { choiceStart with
    code := ⟨choiceStart.code.instructions ++
      [⟨.load, .byte 1⟩, ⟨.jumpUnless, .byte 3⟩, ⟨.pushTrue, .byte 0⟩, ⟨.jump, .byte 6⟩,
        ⟨.jump, .byte 2⟩, ⟨.const, .byte 1⟩, ⟨.fail, .byte 0⟩,
        ⟨.load, .byte 1⟩, ⟨.jumpUnless, .byte 1⟩, ⟨.pushFalse, .byte 0⟩]⟩
    constants := choiceBody.constants }

/-- A body that is said to return although a jump in it leads to its end. -/
theorem Visited.returns_sound_choice :
    choiceJob.builtins = .standard ∧ Visited choiceJob (.start {}) ∧
      Visited choiceJob (choiceStart.openFrame "choice" choiceScope) ∧
      choiceJob.emitStmts choiceDef.body (choiceStart.openFrame "choice" choiceScope) =
        .ok true choiceBody ∧
      NeverEnds 3 choiceBody.code.instructions ∧
      ∃ g : Inlinable choiceJob [], g.definition = choiceDef ∧
        emitCall choiceJob [] g choiceScope choiceStart = .ok (.of .bool) choiceEnd ∧
        EndsBy [⟨13⟩, ⟨6⟩] 3 choiceBody.code.instructions choiceEnd.code.instructions := by
  have hparams : emitParams (emitCall choiceJob []) { role := some (.function 1) } choiceDef.params
      choiceArgs (.start {}) = .ok choiceScope choiceStart := by
    decide +kernel
  have hbody : choiceJob.emitStmts choiceDef.body (choiceStart.openFrame "choice" choiceScope) =
      .ok true choiceBody := by
    decide +kernel
  have hmem := choiceDef_mem
  have hnew : choiceDef.ident.name ∉ ([] : List String) := List.not_mem_nil
  have hcall : emitCall choiceJob [] ⟨choiceDef, choiceDef_mem, List.not_mem_nil⟩ choiceScope
      choiceStart = .ok (.of .bool) choiceEnd := by
    decide +kernel
  have hstart : Visited choiceJob (.start {}) := .start {}
  have hopened : Visited choiceJob (choiceStart.openFrame "choice" choiceScope) :=
    .body hstart hmem hnew hparams
  have hends := ((hopened.returns_sound rfl).1 _ _ hbody).1
  obtain ⟨frame, hframe, hexits⟩ := (hstart.returns_sound rfl).2 ⟨choiceDef, hmem, hnew⟩ choiceArgs
    choiceScope (.of .bool) choiceStart choiceBody choiceEnd hparams hbody hcall
  obtain rfl : frame = ⟨[.of .bool, .of .bool], [⟨13⟩, ⟨6⟩]⟩ := by
    simpa [choiceBody, choiceStart, EmitState.start] using hframe.symm
  exact ⟨rfl, hstart, hopened, hbody, hends, ⟨choiceDef, hmem, hnew⟩, rfl, hcall, hexits⟩

end Emission

end Arbor
