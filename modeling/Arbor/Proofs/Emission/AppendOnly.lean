import Arbor.Proofs.Emission.Growth
import Arbor.Proofs.Emission.Mappings

/-!
# Emission is append-only

A compiler that is asked for an expression or for statements may be asked again, whether it has
answered or met a problem, and in between it is at work inside blocks, branches, loops and inlined
bodies.  `Emission.Visited` collects the states that come about in this way.  From each of them, an
expression or statements, emitted or given up half way, add to what is there and take nothing away
(`Emission.Visited.append_only`).
-/

namespace Arbor.Emission

/-- The state after an expression has been folded, emitted or given up. -/
def afterExpr (job : Job) (load : Bool) (e : Expr) (σ : EmitState) : EmitState :=
  Step.after (job.acceptExpr load e) σ

/-- The state after statements have been emitted or given up. -/
def afterStmts (job : Job) (body : List Stmt) (σ : EmitState) : EmitState :=
  Step.after (job.emitStmts body) σ

/-- The states in which emission of a mapping's body gets to an expression or to statements.  What
comes before may have ended in a problem. -/
inductive Visited (job : Job) : EmitState → Prop
  /-- The body of a mapping starts.  Mappings compiled before have left their constants. -/
  | start (constants : Pool Constant) : Visited job (.start constants)
  /-- After an expression. -/
  | value {σ : EmitState} (hσ : Visited job σ) (load : Bool) (e : Expr) :
      Visited job (afterExpr job load e σ)
  /-- After statements. -/
  | stmts {σ : EmitState} (hσ : Visited job σ) (body : List Stmt) :
      Visited job (afterStmts job body σ)
  /-- The first item of a list. -/
  | list {σ : EmitState} (hσ : Visited job σ) : Visited job (σ.add .list)
  /-- The next item, after one that is appended to the list. -/
  | item {σ : EmitState} (hσ : Visited job σ) : Visited job (σ.add .append)
  /-- The next argument of an inlined function, after one that is stored. -/
  | param {σ : EmitState} {slot : UInt8} (hσ : Visited job σ) (hslot : σ.slots.fresh = .ok slot) :
      Visited job (σ.advance.add .store slot)
  /-- The body of an inlined function starts. -/
  | body {σ σ' : EmitState} {f : FunctionDef} {args : List Expr} {scope : Scope}
      (hσ : Visited job σ) (hmem : f ∈ job.file.functions) (hnew : f.ident.name ∉ σ.inlining)
      (h : emitParams (emitCall job σ.inlining) { role := some (.function σ.frames.length) }
        f.params args σ = .ok scope σ') :
      Visited job (σ'.openFrame f.ident.name scope)
  /-- A block starts. -/
  | block {σ : EmitState} (hσ : Visited job σ) : Visited job (σ.enter {})
  /-- A branch starts, after its condition. -/
  | branch {σ : EmitState} (hσ : Visited job σ) : Visited job ((σ.hold .jumpUnless).enter {})
  /-- The alternative of a branch starts. -/
  | alternative {σ σ' : EmitState} {yes : List Stmt} {returns : Bool} {c : Code}
      (hσ : Visited job σ)
      (h : job.emitStmts yes ((σ.hold .jumpUnless).enter {}) = .ok returns σ')
      (hskip : (σ'.hold .jump).code.patch ⟨σ.code.size⟩ = .ok c) :
      Visited job ({ σ'.exit with code := c }.enter {})
  /-- The body of a loop starts, after the list of its items. -/
  | loop {σ : EmitState} {iter item : UInt8} {name : Ident} {t : ValueType} {scope : Scope}
      (hσ : Visited job σ) (hiter : σ.slots.fresh = .ok iter)
      (hitem : σ.slots.advance.fresh = .ok item)
      (hdef : Scope.define { role := some .loop } name (.stored t item true) = .ok scope) :
      Visited job (σ.loopBody iter item scope)

variable {job : Job} {σ : EmitState}

lemma appends_afterExpr (job : Job) (load : Bool) (e : Expr) (hσ : σ.Tidy) :
    σ.Appends (afterExpr job load e σ) :=
  Step.Leaves.after (x := job.acceptExpr load e)
    ((appendOnly_acceptExpr (appendOnly_emitCall job σ.inlining) load e σ hσ).congr rfl)

lemma continues_afterStmts (job : Job) (body : List Stmt) (hσ : σ.Tidy) :
    σ.Continues (afterStmts job body σ) :=
  Step.Leaves.after (x := job.emitStmts body)
    ((orderly_emitStmts (appendOnly_emitCall job σ.inlining) body σ hσ).congr rfl)

/-- Emission works in tidy states only. -/
lemma Visited.tidy (h : Visited job σ) : σ.Tidy := by
  induction h with
  | start constants => exact (EmitState.sound_start constants).tidy
  | value _ load e ih => exact (appends_afterExpr job load e ih).tidy ih
  | stmts _ body ih => exact (continues_afterStmts job body ih).tidy ih
  | list _ ih => exact (ih.continues_refl.add .list 0 (.inl rfl)).tidy ih
  | item _ ih => exact (ih.continues_refl.add .append 0 (.inl rfl)).tidy ih
  | param _ _ ih => exact (ih.continues_refl.advance.add .store _ (.inl rfl)).tidy ih
  | @body σ _ f args _ _ _ _ h ih =>
    obtain ⟨happend, hsettled, hrole⟩ := (ensures_emitParams (appendOnly_emitCall job σ.inlining)
      f.params args ih (Scopes.Settled.nil.open_empty rfl)).of_ok h
    rw [← happend.frames] at hrole
    exact (happend.tidy ih).openFrame f.ident.name hsettled hrole
  | block _ ih => exact ih.enter_empty
  | branch _ ih => exact ((ih.continues_refl.hold .jumpUnless).tidy ih).enter_empty
  | @alternative σ _ yes _ _ _ h hskip ih =>
    have hheld := ih.continues_refl.hold .jumpUnless
    have hyes := (orderly_emitStmts (appendOnly_emitCall job σ.inlining) yes _
      (hheld.tidy ih).enter_empty).of_ok h
    have hdone := (hheld.exit ih hyes).hold .jump
    have hskipped := hdone.withCode (hdone.grows.patch ih.contained (Nat.le_refl _) hskip)
    exact (hskipped.tidy ih).enter_empty
  | loop _ _ hitem hdef ih => exact ih.loopBody _ hitem hdef

/-- **Emission is append-only.**  In every state in which it is at work, and whether it succeeds or
ends in a problem:

* code, slots and constants have grown, with everything from before in its place;
* an expression leaves scopes and frames as they are;
* statements leave as many frames, and the scopes are the same but for names that the innermost one
  did not bind before;
* the functions being inlined are the same. -/
theorem Visited.append_only (h : Visited job σ) :
    (∀ load e, σ.Appends (afterExpr job load e σ) ∧ Visited job (afterExpr job load e σ)) ∧
    ∀ body, σ.Grows (afterStmts job body σ) ∧
      (afterStmts job body σ).frames.length = σ.frames.length ∧
      (∃ s s' outer, σ.scopes = s :: outer ∧ (afterStmts job body σ).scopes = s' :: outer ∧
        s'.role = s.role ∧ s.bindings <:+ s'.bindings ∧
        ∀ x b, s.find? x = some b → s'.find? x = some b) ∧
      (afterStmts job body σ).inlining = σ.inlining ∧ Visited job (afterStmts job body σ) := by
  refine ⟨fun load e => ⟨appends_afterExpr job load e h.tidy, .value h load e⟩, fun body => ?_⟩
  have hcontinues := continues_afterStmts job body h.tidy
  obtain ⟨exits, hframes, -⟩ := hcontinues.frames
  exact ⟨hcontinues.grows, hframes.length_eq, hcontinues.exists_scopes, hcontinues.inlining,
    .stmts h body⟩

/-- A function that returns in a branch and then refers to a name that is not bound. -/
def tornDef : FunctionDef where
  ident := ⟨"torn", .nowhere⟩
  params := [⟨"n", .nowhere⟩]
  body :=
    [.ifThen (.ref ⟨"n", .nowhere⟩ .nowhere) [.ret (some (.ref ⟨"n", .nowhere⟩ .nowhere))],
      .ret (some (.ref ⟨"gone", .nowhere⟩ .nowhere))]

/-- A job with that function. -/
def tornJob : Job where
  file := ⟨[.function tornDef], []⟩

/-- The expression `torn(flag)`. -/
def tornExpr : Expr :=
  .call ⟨"torn", .nowhere⟩ [.ref ⟨"flag", .nowhere⟩ .nowhere] .nowhere .nowhere

/-- The definition `final flag = true`. -/
def tornFlag : List Stmt := [.define .final ⟨"flag", .nowhere⟩ (.literal (.bool true) .nowhere)]

/-- The state after that definition. -/
def tornStart : EmitState where
  code := ⟨[⟨.pushTrue, .byte 0⟩, ⟨.store, .byte 1⟩]⟩
  slots := ⟨2⟩
  scopes := [⟨[("flag", .stored (.of .bool) 1 true), ("root", .stored (.of .node) 0 true)],
    some (.root 0)⟩]
  frames := [{}]

/-- What has been emitted of the call when the problem is met.  The return of the branch waits for
its target for ever. -/
def tornState : EmitState :=
  { tornStart with
    code := ⟨tornStart.code.instructions ++
      [⟨.load, .byte 1⟩, ⟨.store, .byte 2⟩, ⟨.load, .byte 2⟩, ⟨.jumpUnless, .byte 2⟩,
        ⟨.load, .byte 2⟩, ⟨.jump, .pending⟩]⟩
    slots := ⟨3⟩ }

/-- The definition `final x = flag`. -/
def tornCopy : List Stmt := [.define .final ⟨"x", .nowhere⟩ (.ref ⟨"flag", .nowhere⟩ .nowhere)]

/-- The state after that definition, in spite of the problem. -/
def tornEnd : EmitState :=
  { tornState with
    code := ⟨tornState.code.instructions ++ [⟨.load, .byte 1⟩, ⟨.store, .byte 3⟩]⟩
    slots := ⟨4⟩
    scopes := [⟨("x", .stored (.of .bool) 3 true) ::
      [("flag", .stored (.of .bool) 1 true), ("root", .stored (.of .node) 0 true)],
        some (.root 0)⟩] }

/-- A call that is given up after a return has been emitted, and a definition after it. -/
theorem Visited.append_only_torn :
    Visited tornJob tornStart ∧
      tornJob.acceptExpr true tornExpr tornStart =
        .error (Fault.undefinedIdentifier.atSpan .nowhere) tornState ∧
      tornStart.Appends tornState ∧
      tornJob.emitStmts tornCopy tornState = .ok false tornEnd ∧
      tornState.Grows tornEnd := by
  have hflag : tornJob.emitStmts tornFlag (.start {}) = .ok false tornStart := by
    decide +kernel
  have htorn : tornJob.acceptExpr true tornExpr tornStart =
      .error (Fault.undefinedIdentifier.atSpan .nowhere) tornState := by
    decide +kernel
  have hcopy : tornJob.emitStmts tornCopy tornState = .ok false tornEnd := by
    decide +kernel
  have hstart : afterStmts tornJob tornFlag (.start {}) = tornStart := by
    rw [afterStmts, Step.after, hflag]
  have hstate : afterExpr tornJob true tornExpr tornStart = tornState := by
    rw [afterExpr, Step.after, htorn]
  have hend : afterStmts tornJob tornCopy tornState = tornEnd := by
    rw [afterStmts, Step.after, hcopy]
  have hvisited : Visited tornJob tornStart := hstart ▸ .stmts (.start {}) tornFlag
  obtain ⟨happends, hagain⟩ := hvisited.append_only.1 true tornExpr
  rw [hstate] at happends hagain
  have hgrows := (hagain.append_only.2 tornCopy).1
  rw [hend] at hgrows
  exact ⟨hvisited, htorn, happends, hcopy, hgrows⟩

end Arbor.Emission
