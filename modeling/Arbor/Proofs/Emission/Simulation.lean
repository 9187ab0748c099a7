import Arbor.Proofs.Code.Machine
import Arbor.Proofs.Emission.Known
import Arbor.Proofs.Emission.Typing
import Arbor.Proofs.Scope.Instance

/-!
# Emitted code does what evaluation does

Suppose that every slot in scope holds some datum.  Then evaluation can take the names that are
stored for names of those data, and if it comes to a result, so does the emitted code, by a run from
its start to its end.  Slots that have been handed out before keep what they hold.

* `EmitState.Computes`: a run of the code between two states.
* `Machine.Leaves`: a run of statements ends at the end of their code, or at a return that waits.
* `Emits.simulated`: the simulation, by one induction on the derivation.
-/

namespace Arbor

open Code Evaluation Fold Machine

variable {pool : List Constant} {stack stack₁ stack' : List Datum}
  {memory memory₁ memory' : UInt8 → Datum} {d : Datum} {op : Opcode} {b : UInt8}

/-! ## Instructions that are emitted -/

/-- The instruction for a scalar pushes it. -/
lemma Datum.effect_of_immediate? (hfree : d.isFloatFree = true) (h : d.immediate? = some (op, b)) :
    effect pool op b stack memory = some (d :: stack, memory) := by
  unfold immediate? at h
  split at h
  · cases h; rfl
  · cases h; rfl
  · cases h; rfl
  · next v =>
    split at h
    · next hrange =>
      cases h
      have hbyte : (UInt8.ofNat v.toInt.toNat).toNat = v.toInt.toNat :=
        UInt8.toNat_ofNat_of_lt' (show _ < 256 by omega)
      have hv : Int64.ofNat (UInt8.ofNat v.toInt.toNat).toNat = v := by
        rw [hbyte, ← Int64.ofInt_eq_ofNat, Int.toNat_of_nonneg hrange.1, Int64.ofInt_toInt]
      exact congrArg (fun w => some (.number (.int w) :: stack, memory)) hv
    · cases h
  · cases hfree
  · cases h

lemma Datum.effect_of_pooled? {c : Constant} (h : d.pooled? = some (op, c))
    (hc : pool[b.toNat]? = some c) : effect pool op b stack memory = some (d :: stack, memory) := by
  unfold pooled? at h
  split at h
  · cases h; simp [effect, Opcode.operation?, hc, Constant.datum]
  · cases h; simp [effect, Opcode.operation?, hc, Constant.datum]
  · cases h; simp [effect, Opcode.operation?, hc]
  · cases h

/-- Static types are enough to find the operation that evaluation applies. -/
lemma Overloads.Standard.effect_of_fold {o : Overloads} (h : o.Standard) {types : List ValueType}
    {span span' : Span} {t : ValueType} {ds : List Datum}
    (hinfer : o.infer types span = .ok (t, op)) (hfold : o.fold ds span' = .ok (some d))
    (hlen : ds.length = types.length) :
    effect pool op b (ds.reverse ++ stack) memory = some (d :: stack, memory) := by
  have hpops := (h.effect_of_infer hinfer).1
  obtain ⟨b₁, hb₁, haccepts₁, rfl⟩ := infer_eq_ok hinfer
  obtain ⟨b₂, hb₂, haccepts₂, operation, hop, hvalue⟩ := h.fold_eq_some hfold
  rw [← h.opcode_eq_of_accepts hb₁ hb₂ (by simp [hlen]) haccepts₁ haccepts₂] at hop
  exact effect_operation hop (hpops.trans hlen.symm) hvalue

/-- An application that folds has folded its operands. -/
lemma Applies.yields {job : Job} {entered : List String} {run : Runner job entered} {ss : Scopes}
    {e : Expr} {o : Overloads} {es : List Expr} (h : Applies job e o es)
    (hd : (foldExpr run ss e).Yields d) :
    ∃ ds, (foldArgs run ss es).Yields ds ∧ o.fold ds e.site = .ok (some d) := by
  cases h with
  | unary ho =>
    rw [foldExpr, yields_bind] at hd
    obtain ⟨a, ha, hrest⟩ := hd
    obtain ⟨o', ho', hfold⟩ := yields_bind.1 hrest
    cases ho.symm.trans (yields_lift.1 ho')
    exact ⟨[a], yields_cons_iff.2 ⟨a, [], ha, yields_nil_iff.2 rfl, rfl⟩, hfold⟩
  | binary ho =>
    rw [foldExpr, yields_bind] at hd
    obtain ⟨a, ha, hrest⟩ := hd
    obtain ⟨c, hc, hrest⟩ := yields_bind.1 hrest
    obtain ⟨o', ho', hfold⟩ := yields_bind.1 hrest
    cases ho.symm.trans (yields_lift.1 ho')
    have hright := yields_cons_iff.2 ⟨c, [], hc, yields_nil_iff.2 rfl, rfl⟩
    exact ⟨[a, c], yields_cons_iff.2 ⟨a, [c], ha, hright, rfl⟩, hfold⟩
  | call ho _ =>
    rw [foldExpr, yields_bind] at hd
    obtain ⟨callee, hcallee, hrest⟩ := hd
    cases ho.symm.trans (yields_lift.1 hcallee)
    obtain ⟨-, -, hrest⟩ := yields_bind.1 hrest
    obtain ⟨ds, hds, hfold⟩ := yields_bind.1 hrest
    exact ⟨ds, hds, hfold⟩

/-- Operands write what the application writes. -/
lemma Applies.literals_subset {job : Job} {e : Expr} {o : Overloads} {es : List Expr}
    (h : Applies job e o es) : Expr.literalsAll es ⊆ e.literals := by
  cases h with
  | unary _ => simp [Expr.literals, Expr.literalsAll]
  | binary _ => simp [Expr.literals, Expr.literalsAll]
  | call _ _ => exact List.Subset.refl _

/-! ## Runs of emitted code -/

/-- The code between two states takes stack and memory from its start to its end. -/
def EmitState.Computes (pool : List Constant) (σ σ' : EmitState) (stack : List Datum)
    (memory : UInt8 → Datum) (stack' : List Datum) (memory' : UInt8 → Datum) : Prop :=
  Runs pool σ.code.instructions.length σ'.code.instructions
    ⟨σ.code.instructions.length, stack, memory⟩ ⟨σ'.code.instructions.length, stack', memory'⟩

namespace EmitState

variable {σ σ₁ σ' : EmitState}

lemma computes_refl (pool : List Constant) (σ : EmitState) (stack : List Datum)
    (memory : UInt8 → Datum) : σ.Computes pool σ stack memory stack memory :=
  runs_refl _ _ _ _

lemma Computes.trans (h : σ.Computes pool σ₁ stack memory stack₁ memory₁)
    (h' : σ₁.Computes pool σ' stack₁ memory₁ stack' memory')
    (hpre : σ.code.instructions <+: σ₁.code.instructions)
    (hpre' : σ₁.code.instructions <+: σ'.code.instructions) :
    σ.Computes pool σ' stack memory stack' memory' :=
  (Runs.mono h le_rfl hpre').trans (Runs.mono h' hpre.length_le List.prefix_rfl)

/-- One more instruction is executed. -/
lemma Computes.add (h : σ.Computes pool σ₁ stack memory stack₁ memory₁)
    (hpre : σ.code.instructions <+: σ₁.code.instructions) (op : Opcode) (b : UInt8)
    (heffect : effect pool op b stack₁ memory₁ = some (stack', memory')) :
    σ.Computes pool (σ₁.add op b) stack memory stack' memory' :=
  Runs.snoc h hpre.length_le heffect

end EmitState

namespace Machine

/-- A run of statements has come to the end of their code; or it has come with a value to a return,
which waits to be patched and is not among the instructions before a given index. -/
def Leaves (pool : List Constant) (lo : Nat) (is : List Instruction) (m : Machine) (first : Nat)
    (stack : List Datum) (memory : UInt8 → Datum) : Flow → Prop
  | .through => Runs pool lo is m ⟨is.length, stack, memory⟩
  | .returned v => ∃ i, first ≤ i ∧ is[i]? = some ⟨.jump, .pending⟩ ∧
    Runs pool lo is m ⟨i, v.getD .none :: stack, memory⟩

namespace Leaves

variable {is is₁ is₂ is₃ is₄ is' : List Instruction} {lo lo₁ first first₁ a : Nat} {m m₁ : Machine}
  {flow : Flow}

/-- Something is executed before. -/
lemma head (h : Runs pool lo is m m₁) (h' : Leaves pool lo₁ is' m₁ first₁ stack memory flow)
    (hpre : is <+: is') (hlo : lo ≤ lo₁) (hfirst : first ≤ first₁) :
    Leaves pool lo is' m first stack memory flow := by
  have hbefore := h.mono le_rfl hpre
  cases flow with
  | through => exact hbefore.trans (Runs.mono h' hlo List.prefix_rfl)
  | returned v =>
    obtain ⟨i, hi, hreturn, hrun⟩ := h'
    exact ⟨i, hfirst.trans hi, hreturn, hbefore.trans (hrun.mono hlo List.prefix_rfl)⟩

/-- Another jump is patched. -/
lemma patch (h : Leaves pool lo is m first stack memory flow) (hclip : Clips a is is')
    (ha : a < first) (hm : m.pc ≤ is'.length) : Leaves pool lo is' m first stack memory flow := by
  cases flow with
  | through => exact hclip.runs_end h hm
  | returned v =>
    obtain ⟨i, hi, hreturn, hrun⟩ := h
    have hne : i ≠ a := by omega
    exact ⟨i, hi, hclip.pending hreturn hne, hclip.runs_pending hrun hm hreturn hne⟩

/-- The branch that is taken ends with a jump over the alternative, if it ends at all. -/
lemma skip (h : Leaves pool lo is₂ m first stack memory flow)
    (hskip : Clips a (is₂ ++ [⟨.jump, .pending⟩]) is₃) (ha : a < first)
    (hfirst : first ≤ is₂.length) (hpre : is₃ <+: is₄) (hdone : Clips is₂.length is₄ is')
    (hlo : lo ≤ is₂.length) (hm : m.pc ≤ is₃.length) (hm' : m.pc ≤ is'.length) :
    Leaves pool lo is' m first stack memory flow := by
  -- Jumps that waited wait until the last one is patched.
  have hwaits : ∀ {i : Nat} {stack : List Datum},
      (is₂ ++ [Instruction.mk .jump .pending])[i]? = some ⟨.jump, .pending⟩ → i ≠ a →
      Runs pool lo is₂ m ⟨i, stack, memory⟩ →
      is₄[i]? = some ⟨.jump, .pending⟩ ∧ Runs pool lo is₄ m ⟨i, stack, memory⟩ := by
    intro i stack hi hne hrun
    have hrun' := hskip.runs_pending (hrun.mono le_rfl (List.prefix_append _ _)) hm hi hne
    exact ⟨getElem?_of_isPrefix hpre (hskip.pending hi hne), hrun'.mono le_rfl hpre⟩
  cases flow with
  | through =>
    obtain ⟨hlast, hrun⟩ := hwaits (by simp) (by omega) h
    exact hdone.runs_jump hrun hm' hlast hlo
  | returned v =>
    obtain ⟨i, hi, hreturn, hrun⟩ := h
    have hlt := lt_of_getElem?_eq_some hreturn
    obtain ⟨hreturn', hrun'⟩ :=
      hwaits ((List.getElem?_append_left hlt).trans hreturn) (by omega) hrun
    exact ⟨i, hi, hdone.pending hreturn' hlt.ne, hdone.runs_pending hrun' hm' hreturn' hlt.ne⟩

/-- A branch without an alternative. -/
lemma ifThen {c : Bool} (memory' : UInt8 → Datum) (flow : Flow)
    (hcond : Runs pool is.length is₁ ⟨is.length, stack, memory⟩
      ⟨is₁.length, .bool c :: stack, memory₁⟩)
    (hle : is.length ≤ is₁.length) (hpre : is₁ ++ [⟨.jumpUnless, .pending⟩] <+: is₂)
    (hclip : Clips is₁.length is₂ is') (hle' : is.length ≤ is'.length)
    (hbranch : cond c (Leaves pool (is₁.length + 1) is₂ ⟨is₁.length + 1, stack, memory₁⟩
      (is₁.length + 1) stack memory' flow) (flow = .through ∧ memory' = memory₁)) :
    Leaves pool is.length is' ⟨is.length, stack, memory⟩ is.length stack memory' flow := by
  have htest := hcond.mono le_rfl ((List.prefix_append _ _).trans hpre)
  have hjump : is₂[is₁.length]? = some ⟨.jumpUnless, .pending⟩ := by
    obtain ⟨rest, rfl⟩ := hpre
    simp
  cases c with
  | true =>
    have henter := htest.trans ((Step.holds hjump).runs hle)
    have hleft := (head henter hbranch List.prefix_rfl (by omega) le_rfl).patch hclip
      (Nat.lt_succ_self _) hle'
    exact head (runs_refl _ _ _ _) hleft List.prefix_rfl le_rfl (by omega)
  | false =>
    obtain ⟨rfl, rfl⟩ := hbranch
    exact hclip.runs_fails htest hle' hjump hle

/-- A branch with an alternative. -/
lemma ifElse {c : Bool} (memory' : UInt8 → Datum) (flow : Flow)
    (hcond : Runs pool is.length is₁ ⟨is.length, stack, memory⟩
      ⟨is₁.length, .bool c :: stack, memory₁⟩)
    (hle : is.length ≤ is₁.length) (hpre : is₁ ++ [⟨.jumpUnless, .pending⟩] <+: is₂)
    (hskip : Clips is₁.length (is₂ ++ [⟨.jump, .pending⟩]) is₃) (hlt : is₂.length < is₃.length)
    (hpre' : is₃ <+: is₄) (hdone : Clips is₂.length is₄ is') (hle' : is.length ≤ is'.length)
    (hbranch : cond c
      (Leaves pool (is₁.length + 1) is₂ ⟨is₁.length + 1, stack, memory₁⟩ (is₁.length + 1) stack
        memory' flow)
      (Leaves pool is₃.length is₄ ⟨is₃.length, stack, memory₁⟩ is₃.length stack memory' flow)) :
    Leaves pool is.length is' ⟨is.length, stack, memory⟩ is.length stack memory' flow := by
  have hlength : is₁.length + 1 ≤ is₂.length := by simpa using hpre.length_le
  have htest := hcond.mono le_rfl ((List.prefix_append _ _).trans hpre)
  have hjump : is₂[is₁.length]? = some ⟨.jumpUnless, .pending⟩ := by
    obtain ⟨rest, rfl⟩ := hpre
    simp
  have hm : is.length ≤ is₃.length := by omega
  cases c with
  | true =>
    have henter := htest.trans ((Step.holds hjump).runs hle)
    have hleft := (head henter hbranch List.prefix_rfl (by omega) le_rfl).skip hskip
      (Nat.lt_succ_self _) hlength hpre' hdone (by omega) hm hle'
    exact head (runs_refl _ _ _ _) hleft List.prefix_rfl le_rfl (by omega)
  | false =>
    have hskipped := hskip.runs_fails (htest.mono le_rfl (List.prefix_append _ _)) hm
      ((List.getElem?_append_left (by omega)).trans hjump) hle
    have hleft := (head hskipped hbranch hpre' hm le_rfl).patch hdone hlt hle'
    exact head (runs_refl _ _ _ _) hleft List.prefix_rfl le_rfl hm

end Leaves

end Machine

/-- Patching the returns of a body takes runs to its end, from a return or from there. -/
lemma Emit.runs_patchAll {is : List Instruction} {as rest : List Anchor} {σ σ' : EmitState}
    {m : Machine} {t : Nat} (hgrown : Grown is σ.code.instructions (as ++ rest)) (hlink : Linked is)
    (hpatch : patchAll as σ = .ok () σ') (hm : m.pc ≤ is.length)
    (h : Runs pool is.length σ.code.instructions m ⟨t, stack, memory⟩)
    (ht : t = σ.code.instructions.length ∨
      (⟨t⟩ : Anchor) ∈ as ∧ σ.code.instructions[t]? = some ⟨.jump, .pending⟩) :
    Runs pool is.length σ'.code.instructions m ⟨σ'.code.instructions.length, stack, memory⟩ := by
  induction as generalizing σ t with
  | nil =>
    cases hpatch
    rcases ht with rfl | ⟨hmem, -⟩
    · exact h
    · exact absurd hmem List.not_mem_nil
  | cons a as ih =>
    obtain ⟨c, hc, hrest⟩ := patchAll_cons_eq_ok hpatch
    have hmiddle : Grown is σ.code.instructions ([] ++ a :: (as ++ rest)) := hgrown
    obtain ⟨hlo, hpending⟩ := hgrown.mem_iff.1 (List.mem_cons_self ..)
    have hclip := clips_of_patch hgrown.linked hpending hc
    have hpatched := hmiddle.patch hlink hclip
    have hm' := hm.trans hpatched.length_le
    rcases ht with rfl | ⟨hmem, hreturn⟩
    · exact ih hpatched hrest (hclip.runs_end h hm') (.inl rfl)
    · by_cases hne : t = a.index
      · subst hne
        exact ih hpatched hrest (hclip.runs_jump h hm' hreturn hlo) (.inl rfl)
      · have hmem' : (⟨t⟩ : Anchor) ∈ as := by
          rcases List.mem_cons.1 hmem with heq | hmem
          · exact absurd (congrArg Anchor.index heq) hne
          · exact hmem
        exact ih hpatched hrest (hclip.runs_pending h hm' hreturn hne)
          (.inr ⟨hmem', hclip.pending hreturn hne⟩)

/-! ## The induction -/

/-- Statements have been executed with a given flow, which leaves slots below a bound alone.  If it
goes through, names stand for what they stand for in the evaluated scopes. -/
def EmitState.Follows (pool : List Constant) (bound : Nat) (σ σ' : EmitState) (stack : List Datum)
    (memory : UInt8 → Datum) (flow : Flow) (ss : Scopes) : Prop :=
  ∃ memory', Leaves pool σ.code.instructions.length σ'.code.instructions
      ⟨σ.code.instructions.length, stack, memory⟩ σ.code.instructions.length stack memory' flow ∧
    Keeps bound memory memory' ∧
    (flow = .through →
      Scopes.Shows memory' σ'.scopes ss ∧ Scopes.SlotsAll (bound ≤ ·.toNat) σ'.scopes)

namespace EmitState

variable {σ σ₁ σ' : EmitState} {bound : Nat} {ss : Scopes}

lemma Computes.follows (h : σ.Computes pool σ' stack memory stack memory')
    (hkeeps : Keeps bound memory memory') (hshows : Scopes.Shows memory' σ'.scopes ss)
    (hslots : Scopes.SlotsAll (bound ≤ ·.toNat) σ'.scopes) :
    σ.Follows pool bound σ' stack memory .through ss :=
  ⟨memory', h, hkeeps, fun _ => ⟨hshows, hslots⟩⟩

/-- A value is taken to a return. -/
lemma Computes.follows_return {v : Option Datum}
    (h : σ.Computes pool σ₁ stack memory (v.getD .none :: stack) memory')
    (hpre : σ.code.instructions <+: σ₁.code.instructions) (hkeeps : Keeps bound memory memory')
    (frames : List Frame) (ss : Scopes) :
    σ.Follows pool bound { σ₁.hold .jump with frames := frames } stack memory (.returned v) ss :=
  ⟨memory', ⟨σ₁.code.instructions.length, hpre.length_le, by simp [Code.reserve],
    Runs.mono h le_rfl (List.prefix_append _ _)⟩, hkeeps, by simp⟩

end EmitState

/-- Where evaluation of a piece comes to a result, its code runs to its end with that result.  Slots
that were handed out before are kept, save for those that statements of a body assign to. -/
def Piece.Simulated (job : Job) (entered : List String) (pool : List Constant) (σ σ' : EmitState) :
    Piece → Prop
  | .scalar d | .datum d => ∀ stack memory, σ.Computes pool σ' stack memory (d :: stack) memory
  | .appended ds => ∀ items stack memory,
    σ.Computes pool σ' (.list items :: stack) memory (.list (items ++ ds) :: stack) memory
  | .value e _ | .expr e _ => ∀ ss d stack memory, Scopes.Shows memory σ.scopes ss →
    (foldExpr (foldCall job entered) ss e).Yields d →
    ∃ memory', σ.Computes pool σ' stack memory (d :: stack) memory' ∧
      Keeps σ.slots.next memory memory'
  | .args es types => ∀ ss ds stack memory, Scopes.Shows memory σ.scopes ss →
    (foldArgs (foldCall job entered) ss es).Yields ds →
    ds.length = types.length ∧ ∃ memory',
      σ.Computes pool σ' stack memory (ds.reverse ++ stack) memory' ∧
        Keeps σ.slots.next memory memory'
  | .items es _ => ∀ ss ds items stack memory, Scopes.Shows memory σ.scopes ss →
    (foldArgs (foldCall job entered) ss es).Yields ds →
    ∃ memory',
      σ.Computes pool σ' (.list items :: stack) memory (.list (items ++ ds) :: stack) memory' ∧
        Keeps σ.slots.next memory memory'
  | .params scope ps es scope' => ∀ bound ss ds (s s' : Scope) stack memory, bound ≤ σ.slots.next →
    Scopes.SlotsAll (bound ≤ ·.toNat) [scope] → Scopes.Shows memory σ.scopes ss →
    Scopes.Shows memory [scope] [s] → (foldArgs (foldCall job entered) ss es).Yields ds →
    s.bindAll ps ds = .ok s' →
    ∃ memory', σ.Computes pool σ' stack memory stack memory' ∧ Keeps σ.slots.next memory memory' ∧
      Scopes.Shows memory' [scope'] [s'] ∧ Scopes.SlotsAll (bound ≤ ·.toNat) [scope']
  | .call f scope _ => ∀ bound (s : Scope) v ss stack memory, bound ≤ σ.slots.next →
    Scopes.SlotsAll (bound ≤ ·.toNat) [scope] → Scopes.Shows memory [scope] [s] →
    (foldStmts (foldCall job (f.ident.name :: entered)) [s] f.body).Yields
      (.returned (some v), ss) →
    ∃ memory', σ.Computes pool σ' stack memory (v :: stack) memory' ∧ Keeps bound memory memory'
  | .stmt s _ => ∀ bound ss flow ss' stack memory, bound ≤ σ.slots.next →
    Scopes.SlotsAll (bound ≤ ·.toNat) σ.scopes → Scopes.Shows memory σ.scopes ss →
    (foldStmt (foldCall job entered) ss s).Yields (flow, ss') →
    σ.Follows pool bound σ' stack memory flow ss'
  | .stmts body _ => ∀ bound ss flow ss' stack memory, bound ≤ σ.slots.next →
    Scopes.SlotsAll (bound ≤ ·.toNat) σ.scopes → Scopes.Shows memory σ.scopes ss →
    (foldStmts (foldCall job entered) ss body).Yields (flow, ss') →
    σ.Follows pool bound σ' stack memory flow ss'

variable {job : Job} {entered : List String} {piece : Piece} {σ σ₁ σ' : EmitState}

/-- The operand of an instruction for a pool entry is the index of the entry. -/
lemma Pool.getElem?_of_isPrefix {p : Pool Constant} {c : Constant}
    (hindex : (p.intern c).1 < 256) (hpool : (p.intern c).2.entries <+: pool) :
    pool[(UInt8.ofNat (p.intern c).1).toNat]? = some c := by
  rw [UInt8.toNat_ofNat_of_lt' hindex]
  exact Code.getElem?_of_isPrefix hpool (p.getElem?_intern c)

/-- What emission has folded folds to the same when the program runs. -/
lemma Scopes.Shows.eq_of_evaluate {ss : Scopes} {e : Expr} {d' : Datum}
    (h : Shows memory σ.scopes ss) (heval : job.evaluate σ.scopes entered e = .ok (some d))
    (hd : (foldExpr (foldCall job entered) ss e).Yields d') : d' = d :=
  hd.eq (yields_of_refines h.refines e d heval)

/-- Assigning to a name that is stored replaces what the name stands for. -/
lemma Scopes.Shows.eq_of_assign {ss es es' : Scopes} (h : Shows memory ss es) {x : Ident}
    {t : ValueType} {slot : UInt8} {outcome : Assignment} {fresh : Except Problem UInt8}
    (hfind : find? ss x.name = some (.stored t slot false))
    (hassign : Scopes.assign es x (.known d) fresh = .ok (outcome, es')) :
    es' = replace x.name (.constant d false) es := by
  obtain ⟨b, b', hb, hb', rfl⟩ := Scopes.assign_eq_ok hassign
  rw [h.find?_eq, hfind] at hb
  cases hb
  obtain ⟨-, -, ⟨_, _, _, hstored, -⟩ | ⟨_, _, _, -, hv, -, rfl⟩ | ⟨_, _, _, _, -, hv, -⟩⟩ :=
    Binding.assign_eq_ok hb'
  · cases hstored
  · cases hv
    rfl
  · cases hv

/-- Statements in a scope of their own, whose names are gone afterwards. -/
lemma Piece.Simulated.inner {body : List Stmt} {returns : Bool} {bound : Nat} {ss ss' : Scopes}
    {flow : Flow} (h : (Piece.stmts body returns).Simulated job entered pool (σ.enter {}) σ')
    (hbound : bound ≤ σ.slots.next) (hslots : Scopes.SlotsAll (bound ≤ ·.toNat) σ.scopes)
    (hshows : Scopes.Shows memory σ.scopes ss) (stack : List Datum)
    (hyields : (do
      let (flow, inner) ← foldStmts (foldCall job entered) ({} :: ss) body
      pure (flow, inner.tail) : Fold (Flow × Scopes)).Yields (flow, ss')) :
    ∃ memory', Leaves pool σ.code.instructions.length σ'.code.instructions
        ⟨σ.code.instructions.length, stack, memory⟩ σ.code.instructions.length stack memory' flow ∧
      Keeps bound memory memory' ∧ (flow = .through → Scopes.Shows memory' σ'.scopes.tail ss') := by
  obtain ⟨inner, hinner, rfl⟩ := yields_inner_iff.1 hyields
  obtain ⟨memory', hleaves, hkeeps, hend⟩ := h bound ({} :: ss) flow inner stack memory hbound
    (hslots.open_empty rfl) (hshows.open_empty rfl rfl) hinner
  exact ⟨memory', hleaves, hkeeps, fun hthrough => (hend hthrough).1.tail⟩

lemma Scope.eq_of_bindAll {s s' : Scope} {ps : List Ident} {ds : List Datum}
    (hend : ps = [] ∨ ds = []) (h : s.bindAll ps ds = .ok s') : s' = s := by
  rcases hend with rfl | rfl
  · cases h
    rfl
  · cases ps <;> cases h <;> rfl

lemma Scope.bindAll_cons_eq_ok {s s' : Scope} {p : Ident} {ps : List Ident} {ds : List Datum}
    (h : s.bindAll (p :: ps) (d :: ds) = .ok s') :
    ∃ s₁, s.define p (.constant d true) = .ok s₁ ∧ s₁.bindAll ps ds = .ok s' := by
  rw [bindAll] at h
  cases hdef : s.define p (.constant d true) with
  | error q =>
    rw [hdef] at h
    cases h
  | ok s₁ =>
    rw [hdef] at h
    exact ⟨s₁, rfl, h⟩

/-- **Emitted code does what evaluation does.** -/
theorem Emits.simulated (hjob : job.Preserves (·.isFloatFree = true))
    (h : Emits job entered piece σ σ') (hσ : σ.Sound) (hready : piece.Ready σ)
    (hss : σ.scopes.Holds (·.isFloatFree = true)) (hpiece : piece.Holds (·.isFloatFree = true))
    (hpool : σ'.constants.entries <+: pool) : piece.Simulated job entered pool σ σ' := by
  have hstd := hjob.standard
  induction h with
  | immediate hd =>
    intro stack memory
    exact (EmitState.computes_refl pool _ stack memory).add List.prefix_rfl _ _
      (Datum.effect_of_immediate? hpiece hd)
  | pooled _ hd hindex =>
    intro stack memory
    exact (EmitState.computes_refl pool _ stack memory).add List.prefix_rfl _ _
      (Datum.effect_of_pooled? hd (Pool.getElem?_of_isPrefix hindex hpool))
  | appendedNil =>
    intro items stack memory
    rw [List.append_nil]
    exact EmitState.computes_refl _ _ _ _
  | @appendedCons _ σ σ₁ _ d ds hd hds ihd ihds =>
    intro items stack memory
    obtain ⟨hfirst, hrest⟩ := List.forall_mem_cons.1 hpiece
    have hpush := (hd.effect hstd hσ trivial : EmitState.Pushes _ _).add .append rfl 0
    have hconst := (hds.constants_isPrefix hstd (hpush.sound hσ) trivial).trans hpool
    have hscalar : σ.Computes pool σ₁ _ _ _ _ :=
      ihd hσ trivial hss hfirst hconst (.list items :: stack) memory
    have happend := hscalar.add (hd.isPrefix hstd hσ trivial) .append 0 rfl
    have hall := ihds (hpush.sound hσ) trivial (hss.of_eq hpush.scopes) hrest hpool (items ++ [d])
      stack memory
    rw [List.append_assoc, List.singleton_append] at hall
    exact happend.trans hall hpush.extend.code.isPrefix (hds.isPrefix hstd (hpush.sound hσ) trivial)
  | scalar _ ih => exact ih hσ trivial hss hpiece hpool
  | @listDatum _ σ _ ds hds ih =>
    intro stack memory
    have hpush := hσ.pushes_refl.add .list rfl 0
    have hlist := (EmitState.computes_refl pool σ stack memory).add List.prefix_rfl .list 0 rfl
    have hall := ih (hpush.sound hσ) trivial hss (Datum.isFloatFreeAll_iff.1 hpiece) hpool []
      stack memory
    exact hlist.trans hall hpush.extend.code.isPrefix (hds.isPrefix hstd (hpush.sound hσ) trivial)
  | folded heval _ ih =>
    intro ss d stack memory hshows hd
    obtain rfl := hshows.eq_of_evaluate heval hd
    have hfree := (job.evaluate_ensures hjob hss _ hpiece).1 _ heval
    exact ⟨memory, ih hσ trivial hss hfree hpool stack memory, .refl _ _⟩
  | emitted _ _ ih => exact ih hσ trivial hss hpiece hpool
  | @stored _ σ _ _ _ slot _ hfind =>
    intro ss d stack memory hshows hd
    obtain ⟨f, hf⟩ := yields_ref_iff.1 hd
    rw [hshows.find?_eq, hfind] at hf
    cases hf
    have hload := (EmitState.computes_refl pool σ stack memory).add List.prefix_rfl .load slot rfl
    exact ⟨memory, hload, .refl _ _⟩
  | attr _ _ _ =>
    intro ss d stack memory _ hd
    rw [foldExpr] at hd
    exact absurd hd not_yields_failure
  | application happ hes hinfer ih =>
    intro ss d stack memory hshows hd
    obtain ⟨ds, hds, hfold⟩ := happ.yields hd
    obtain ⟨hlen, memory', hargs, hkeeps⟩ :=
      ih hσ trivial hss (fun x hx => hpiece x (happ.literals_subset hx)) hpool ss ds stack memory
        hshows hds
    exact ⟨memory', hargs.add (hes.isPrefix hstd hσ trivial) _ 0
      ((happ.standard hstd).effect_of_fold hinfer hfold hlen), hkeeps⟩
  | @inlined _ σ σ₁ _ _ _ _ _ f _ scope _ hcallee _ hnew hparams hcall ihparams ihcall =>
    intro ss d stack memory hshows hd
    obtain ⟨hpush, hready'⟩ := hparams.ready_call hstd hσ
    have hempty : Scopes.Holds (·.isFloatFree = true)
        [{ role := some (.function σ.frames.length) }] := Scopes.Holds.nil.open_empty rfl
    have hsettled : Scopes.Settled σ.slots.next [{ role := some (.function σ.frames.length) }] :=
      Scopes.Settled.nil.open_empty rfl
    have hscope : Scopes.Holds (·.isFloatFree = true) [scope] :=
      hparams.holds hjob hσ hsettled hss ⟨hpiece, hempty⟩
    have hconst := (hcall.constants_isPrefix hstd (hpush.sound hσ) hready').trans hpool
    obtain ⟨ds, hds, hrun⟩ := yields_of_call hcallee hnew hd
    obtain ⟨s, ss', hbind, hbody⟩ := yields_of_foldCall hrun
    obtain ⟨memory₁, hfirst, hkeeps₁, hshows₁, hslots⟩ :=
      ihparams hσ hsettled hss ⟨hpiece, hempty⟩ hconst σ.slots.next ss ds {} s stack memory le_rfl
        (Scopes.SlotsAll.nil.open_empty rfl) hshows (Scopes.Shows.nil.open_empty rfl rfl) hds hbind
    obtain ⟨memory₂, hsecond, hkeeps₂⟩ := ihcall (hpush.sound hσ) hready' (hss.of_eq hpush.scopes)
      hscope hpool σ.slots.next s d ss' stack memory₁ hpush.extend.slots hslots hshows₁ hbody
    exact ⟨memory₂, hfirst.trans hsecond hpush.extend.code.isPrefix
      (hcall.isPrefix hstd (hpush.sound hσ) hready'), hkeeps₁.trans hkeeps₂⟩
  | @list _ σ _ _ _ _ hes ih =>
    intro ss d stack memory hshows hd
    rw [foldExpr, yields_bind] at hd
    obtain ⟨ds, hds, hd⟩ := hd
    cases yields_pure.1 hd
    have hpush := hσ.pushes_refl.add .list rfl 0
    have hlist := (EmitState.computes_refl pool σ stack memory).add List.prefix_rfl .list 0 rfl
    obtain ⟨memory', hitems, hkeeps⟩ := ih (hpush.sound hσ) trivial hss hpiece hpool ss ds [] stack
      memory hshows (yields_args_of_items hds)
    exact ⟨memory', hlist.trans hitems hpush.extend.code.isPrefix
      (hes.isPrefix hstd (hpush.sound hσ) trivial), hkeeps⟩
  | argsNil =>
    intro ss ds stack memory _ hds
    obtain rfl := yields_nil_iff.1 hds
    exact ⟨rfl, memory, EmitState.computes_refl _ _ _ _, .refl _ _⟩
  | argsCons he hes ihe ihes =>
    intro ss ds stack memory hshows hds
    obtain ⟨d, ds, hd, hrest, rfl⟩ := yields_cons_iff.1 hds
    rw [Piece.Holds, Expr.literalsAll, List.forall_mem_append] at hpiece
    have hpush : EmitState.Pushes _ _ := he.effect hstd hσ trivial
    have hconst := (hes.constants_isPrefix hstd (hpush.sound hσ) trivial).trans hpool
    obtain ⟨memory₁, hfirst, hkeeps₁⟩ :=
      ihe hσ trivial hss hpiece.1 hconst ss d stack memory hshows hd
    obtain ⟨hlen, memory₂, hsecond, hkeeps₂⟩ := ihes (hpush.sound hσ) trivial
      (hss.of_eq hpush.scopes) hpiece.2 hpool ss ds (d :: stack) memory₁
      ((hshows.of_keeps hσ.settled hkeeps₁).of_eq hpush.scopes) hrest
    refine ⟨by simp [hlen], memory₂, ?_, hkeeps₁.trans (hkeeps₂.mono hpush.extend.slots)⟩
    rw [List.reverse_cons, List.append_assoc, List.singleton_append]
    exact hfirst.trans hsecond hpush.extend.code.isPrefix
      (hes.isPrefix hstd (hpush.sound hσ) trivial)
  | itemsNil =>
    intro ss ds items stack memory _ hds
    obtain rfl := yields_nil_iff.1 hds
    rw [List.append_nil]
    exact ⟨memory, EmitState.computes_refl _ _ _ _, .refl _ _⟩
  | itemsCons he _ hes ihe ihes =>
    intro ss ds items stack memory hshows hds
    obtain ⟨d, ds, hd, hrest, rfl⟩ := yields_cons_iff.1 hds
    rw [Piece.Holds, Expr.literalsAll, List.forall_mem_append] at hpiece
    have hpush := (he.effect hstd hσ trivial : EmitState.Pushes _ _).add .append rfl 0
    have hconst := (hes.constants_isPrefix hstd (hpush.sound hσ) trivial).trans hpool
    obtain ⟨memory₁, hfirst, hkeeps₁⟩ :=
      ihe hσ trivial hss hpiece.1 hconst ss d (.list items :: stack) memory hshows hd
    have happend := hfirst.add (he.isPrefix hstd hσ trivial) .append 0 rfl
    obtain ⟨memory₂, hsecond, hkeeps₂⟩ := ihes (hpush.sound hσ) trivial
      (hss.of_eq hpush.scopes) hpiece.2 hpool ss ds (items ++ [d]) stack memory₁
      ((hshows.of_keeps hσ.settled hkeeps₁).of_eq hpush.scopes) hrest
    rw [List.append_assoc, List.singleton_append] at hsecond
    exact ⟨memory₂, happend.trans hsecond hpush.extend.code.isPrefix
      (hes.isPrefix hstd (hpush.sound hσ) trivial), hkeeps₁.trans (hkeeps₂.mono hpush.extend.slots)⟩
  | paramsNil hend =>
    intro bound ss ds s s' stack memory _ hslots _ hscope hds hbind
    obtain rfl := Scope.eq_of_bindAll
      (hend.imp_right fun hnil => yields_nil_iff.1 (hnil ▸ hds)) hbind
    exact ⟨memory, EmitState.computes_refl _ _ _ _, .refl _ _, hscope, hslots⟩
  | paramsKnown heval hdef hes ih =>
    obtain ⟨-, hnone, rfl⟩ := Scope.define_eq_ok_iff.1 hdef
    intro bound ss ds s s' stack memory hbound hslots hshows hscope hds hbind
    obtain ⟨hlit, hknown⟩ := hpiece
    rw [Expr.literalsAll, List.forall_mem_append] at hlit
    have hfree := (job.evaluate_ensures hjob hss _ hlit.1).1 _ heval
    obtain ⟨d, ds, hd, hrest, rfl⟩ := yields_cons_iff.1 hds
    obtain rfl := hshows.eq_of_evaluate heval hd
    obtain ⟨s₁, hdef', hbind'⟩ := Scope.bindAll_cons_eq_ok hbind
    obtain ⟨-, -, rfl⟩ := Scope.define_eq_ok_iff.1 hdef'
    exact ih hσ (Scopes.Settled.bind_constant hready hnone _) hss
      ⟨hlit.2, hknown.bind_constant _ hfree true⟩ hpool bound ss ds _ s' stack
      memory hbound (hslots.bind_constant _ _ _) hshows (hscope.bind_constant _ _ _) hrest hbind'
  | @paramsStored _ σ σ₁ _ scope _ _ p _ _ _ t slot heval he hslot hdef hes ihe ihes =>
    obtain ⟨-, hnone, rfl⟩ := Scope.define_eq_ok_iff.1 hdef
    intro bound ss ds s s' stack memory hbound hslots hshows hscope hds hbind
    obtain ⟨hlit, hknown⟩ := hpiece
    rw [Expr.literalsAll, List.forall_mem_append] at hlit
    have hpush : EmitState.Pushes _ _ := he.effect hstd hσ trivial
    have hstore := hpush.store_fresh hslot
    have hnext := Slots.toNat_of_fresh hslot
    have hle := hpush.extend.slots
    have hsettled := Scopes.Settled.mono hready hle
    have hready' := hsettled.bind_stored hnone hnext t true
    have hconst := (hes.constants_isPrefix hstd (hstore.sound hσ) hready').trans hpool
    obtain ⟨d, ds, hd, hrest, rfl⟩ := yields_cons_iff.1 hds
    obtain ⟨s₁, hdef', hbind'⟩ := Scope.bindAll_cons_eq_ok hbind
    obtain ⟨-, -, rfl⟩ := Scope.define_eq_ok_iff.1 hdef'
    obtain ⟨memory₁, hfirst, hkeeps₁⟩ :=
      ihe hσ trivial hss hlit.1 hconst ss d stack memory hshows hd
    have hkeeps := hkeeps₁.update (hle.trans hnext.ge) d
    have hfree : slot ∉ Scopes.slots [scope] := fun hmem => (hsettled.lt slot hmem).ne hnext
    obtain ⟨memory₂, hsecond, hkeeps₂, hshows₂, hslots₂⟩ := ihes (hstore.sound hσ) hready'
      (hss.of_eq hstore.scopes) ⟨hlit.2, hknown.bind_stored _ _ _ _⟩ hpool bound ss ds _ s' stack
      (Function.update memory₁ slot d) (hbound.trans hstore.extend.slots)
      (hslots.bind_stored ((hbound.trans hle).trans hnext.ge) _ _ _)
      ((hshows.of_keeps hσ.settled hkeeps).of_eq hstore.scopes)
      ((hscope.of_keeps hready hkeeps₁).bind_stored hfree _ t d true) hrest hbind'
    have hstored : σ.Computes pool (σ₁.advance.add .store slot) stack memory stack _ :=
      hfirst.add (he.isPrefix hstd hσ trivial) .store slot rfl
    exact ⟨memory₂, hstored.trans hsecond hstore.extend.code.isPrefix
      (hes.isPrefix hstd (hstore.sound hσ) hready'),
      hkeeps.trans (hkeeps₂.mono hstore.extend.slots), hshows₂, hslots₂⟩
  | @call _ σ σ₁ σ' f scope returns frame hmem _ hbody hframe hpatch ih =>
    intro bound s v ss stack memory hbound hslots hscope hv
    have hopen := hσ.openFrame f.ident.name hready.1 hready.2
    have hproceeds : EmitState.Proceeds _ _ := hbody.effect hstd hopen trivial
    obtain ⟨frame', hframe', hend⟩ := hproceeds.exists_frame hσ returns
    obtain ⟨-, rfl⟩ := List.append_singleton_inj.1 (hframe.symm.trans hframe')
    have hconst : σ₁.constants.entries <+: pool := by
      rw [(Emit.grown_patchAll hend.code hσ.linked hpatch).2] at hpool
      cases returns <;> exact hpool
    obtain ⟨memory', ⟨i, hi, hreturn, hrun⟩, hkeeps, -⟩ := ih hopen trivial hpiece
      (hjob.literals _ hmem) hconst bound [s] _ ss stack memory hbound hslots hscope hv
    -- The body has come to one of the returns that are patched.
    have hpre : σ₁.code.instructions <+:
        ((σ₁.leaveFrame σ.scopes σ.frames).endBody returns).code.instructions := by
      cases returns
      · exact List.prefix_append _ _
      · exact List.prefix_rfl
    have hreturn' := getElem?_of_isPrefix hpre hreturn
    have hexit := hend.code.mem_iff.2 (⟨hi, _, hreturn'⟩ : _ ≤ i ∧ IsPending _ i)
    rw [List.append_nil] at hexit
    exact ⟨memory', Emit.runs_patchAll hend.code hσ.linked hpatch le_rfl (hrun.mono le_rfl hpre)
      (.inr ⟨hexit, hreturn'⟩), hkeeps⟩
  | block hbody ih =>
    intro bound ss flow ss' stack memory hbound hslots hshows hyields
    rw [foldStmt] at hyields
    have hproceeds : EmitState.Proceeds _ _ := hbody.effect hstd hσ.enter_empty trivial
    have hsim := ih hσ.enter_empty trivial (hss.open_empty rfl) hpiece hpool
    obtain ⟨memory', hleaves, hkeeps, hend⟩ := hsim.inner hbound hslots hshows stack hyields
    exact ⟨memory', hleaves, hkeeps, fun hthrough =>
      ⟨hend hthrough, hslots.of_eq hproceeds.scopes.tail_eq⟩⟩
  | @constant _ σ name _ d scope _ outer heval hscopes hdef =>
    obtain ⟨-, -, rfl⟩ := Scope.define_eq_ok_iff.1 hdef
    intro bound ss flow ss' stack memory _ hslots hshows hyields
    rw [foldStmt, yields_bind] at hyields
    obtain ⟨d', hd, hrest⟩ := hyields
    obtain ⟨ss₁, hss₁, hend⟩ := yields_bind.1 hrest
    cases yields_pure.1 hend
    obtain rfl := hshows.eq_of_evaluate heval hd
    have hshows' := hshows.of_eq hscopes.symm
    obtain ⟨e, es, rfl, rfl⟩ := hshows'.exists_of_define (yields_lift.1 hss₁)
    have hstay : σ.Computes pool
        { σ with scopes := scope.bind name.name (.constant d' true) :: outer } stack memory stack
        memory :=
      EmitState.computes_refl _ _ _ _
    exact hstay.follows (.refl _ _) (hshows'.bind_constant _ _ _)
      ((hslots.of_eq hscopes.symm).bind_constant _ _ _)
  | @define _ σ σ₁ q name _ v slot scope _ outer _ he hslot hscopes hdef ih =>
    obtain ⟨-, hnone, rfl⟩ := Scope.define_eq_ok_iff.1 hdef
    intro bound ss flow ss' stack memory hbound hslots hshows hyields
    rw [foldStmt, yields_bind] at hyields
    obtain ⟨d, hd, hrest⟩ := hyields
    obtain ⟨ss₁, hss₁, hend⟩ := yields_bind.1 hrest
    cases yields_pure.1 hend
    have hpush : EmitState.Pushes _ _ := he.effect hstd hσ trivial
    have hnext := Slots.toNat_of_fresh hslot
    have hle := hbound.trans hpush.extend.slots
    obtain ⟨memory₁, hvalue, hkeeps⟩ := ih hσ trivial hss hpiece hpool ss d stack memory hshows hd
    have hback := hscopes.symm.trans hpush.scopes
    have hshows' := (hshows.of_keeps hσ.settled hkeeps).of_eq hback
    obtain ⟨e, es, rfl, rfl⟩ := hshows'.exists_of_define (yields_lift.1 hss₁)
    have hfree : slot ∉ Scopes.slots (scope :: outer) := fun hmem =>
      ((hpush.sound hσ).settled.lt slot (hscopes ▸ hmem)).ne hnext
    have hstored : σ.Computes pool
        ({ σ₁.advance with
          scopes := scope.bind name.name (.stored v.type slot q.isFinal) :: outer }.add .store slot)
        stack memory stack _ :=
      hvalue.add (he.isPrefix hstd hσ trivial) .store slot rfl
    exact hstored.follows ((hkeeps.mono hbound).update (hle.trans hnext.ge) d)
      (hshows'.bind_stored hfree _ _ d _)
      ((hslots.of_eq hback).bind_stored (hle.trans hnext.ge) _ _ _)
  | @assign _ σ σ₁ name _ v t slot he hfind _ ih =>
    intro bound ss flow ss' stack memory hbound hslots hshows hyields
    rw [foldStmt, yields_bind] at hyields
    obtain ⟨d, hd, hrest⟩ := hyields
    obtain ⟨⟨_, ss₁⟩, hss₁, hend⟩ := yields_bind.1 hrest
    cases yields_pure.1 hend
    have hpush : EmitState.Pushes _ _ := he.effect hstd hσ trivial
    obtain ⟨memory₁, hvalue, hkeeps⟩ := ih hσ trivial hss hpiece hpool ss d stack memory hshows hd
    have hshows' := (hshows.of_keeps hσ.settled hkeeps).of_eq hpush.scopes
    have hslots' := hslots.of_eq hpush.scopes
    obtain rfl := hshows'.eq_of_assign hfind (yields_lift.1 hss₁)
    have hstored := hvalue.add (he.isPrefix hstd hσ trivial) .store slot rfl
    exact hstored.follows ((hkeeps.mono hbound).update (hslots'.of_find? hfind) d)
      (hshows'.assign (hpush.sound hσ).settled hfind d) hslots'
  | @returnNone _ σ _ _ _ =>
    intro bound ss flow ss' stack memory _ _ _ hyields
    rw [foldStmt] at hyields
    cases yields_pure.1 hyields
    have hnone := (EmitState.computes_refl pool σ stack memory).add List.prefix_rfl .pushNone 0 rfl
    exact hnone.follows_return (List.prefix_append _ _) (.refl _ _) _ _
  | returnValue he _ ih =>
    intro bound ss flow ss' stack memory hbound _ hshows hyields
    rw [foldStmt, yields_bind] at hyields
    obtain ⟨d, hd, hend⟩ := hyields
    cases yields_pure.1 hend
    obtain ⟨memory', hvalue, hkeeps⟩ := ih hσ trivial hss hpiece hpool ss d stack memory hshows hd
    exact hvalue.follows_return (v := some d) (he.isPrefix hstd hσ trivial) (hkeeps.mono hbound) _ _
  | @ifThen _ σ σ₁ σ₂ _ _ _ returns c hcond _ hyes hpatch ihcond ihyes =>
    intro bound ss flow ss' stack memory hbound hslots hshows hyields
    rw [Piece.Holds, Stmt.literals, List.forall_mem_append] at hpiece
    have hpush : EmitState.Pushes _ _ := hcond.effect hstd hσ trivial
    have hsound := ((hpush.sound hσ).hold .jumpUnless rfl).enter_empty
    have hproceeds : EmitState.Proceeds _ _ := hyes.effect hstd hsound trivial
    obtain ⟨-, hclip, hle⟩ := hσ.clips_ifThen hpush hproceeds hpatch
    have hexit := hproceeds.scopes.tail_eq.trans hpush.scopes
    have hconst := (hyes.constants_isPrefix hstd hsound trivial).trans hpool
    rw [foldStmt, yields_bind] at hyields
    obtain ⟨b, hb, hrest⟩ := hyields
    obtain ⟨memory₁, htest, hkeeps₁⟩ := ihcond hσ trivial hss hpiece.1 hconst ss (.bool b) stack
      memory hshows (yields_of_foldCond hb)
    have hshows₁ := hshows.of_keeps hσ.settled hkeeps₁
    have hlength : (σ₁.hold .jumpUnless).code.instructions.length
        = σ₁.code.instructions.length + 1 := List.length_append
    have hjoin := fun memory' flow => Leaves.ifThen memory' flow htest
      (hcond.isPrefix hstd hσ trivial).length_le (hyes.isPrefix hstd hsound trivial) hclip hle
    cases b with
    | false =>
      cases yields_pure.1 hrest
      exact ⟨memory₁, hjoin _ _ ⟨rfl, rfl⟩, hkeeps₁.mono hbound, fun _ =>
        ⟨hshows₁.of_eq hexit, hslots.of_eq hexit⟩⟩
    | true =>
      have hsim := ihyes hsound trivial ((hss.of_eq hpush.scopes).open_empty rfl) hpiece.2 hpool
      obtain ⟨memory₂, hleaves, hkeeps₂, hend⟩ :=
        hsim.inner (hbound.trans hpush.extend.slots) (hslots.of_eq hpush.scopes)
          (hshows₁.of_eq hpush.scopes) stack hrest
      rw [hlength] at hleaves
      exact ⟨memory₂, hjoin _ _ hleaves, (hkeeps₁.mono hbound).trans hkeeps₂,
        fun hthrough => ⟨hend hthrough, hslots.of_eq hexit⟩⟩
  | @ifElse _ σ σ₁ σ₂ σ₃ _ _ _ _ _ _ c c' hcond _ hyes hskip hno hdone ihcond ihyes ihno =>
    intro bound ss flow ss' stack memory hbound hslots hshows hyields
    rw [Piece.Holds, Stmt.literals, List.forall_mem_append, List.forall_mem_append] at hpiece
    have hpush : EmitState.Pushes _ _ := hcond.effect hstd hσ trivial
    have hsound := ((hpush.sound hσ).hold .jumpUnless rfl).enter_empty
    have hyes' : EmitState.Proceeds _ _ := hyes.effect hstd hsound trivial
    obtain ⟨⟨_, hext⟩, hsound', hexit⟩ := hσ.sound_alternative hpush hyes' hskip
    have hno' : EmitState.Proceeds _ _ := hno.effect hstd hsound'.enter_empty trivial
    have hback := hno'.scopes.tail_eq.trans hexit
    obtain ⟨-, hclip, -, hlt⟩ := hσ.clips_skip hpush hyes' hskip
    obtain ⟨-, hclip', hle⟩ := hσ.clips_ifElse hpush hyes' hskip hno' hdone
    have hconst₃ := (hno.constants_isPrefix hstd hsound'.enter_empty trivial).trans hpool
    have hconst := (hyes.constants_isPrefix hstd hsound trivial).trans hconst₃
    rw [foldStmt, yields_bind] at hyields
    obtain ⟨b, hb, hrest⟩ := hyields
    obtain ⟨memory₁, htest, hkeeps₁⟩ := ihcond hσ trivial hss hpiece.1 hconst ss (.bool b) stack
      memory hshows (yields_of_foldCond hb)
    have hshows₁ := hshows.of_keeps hσ.settled hkeeps₁
    have hlength : (σ₁.hold .jumpUnless).code.instructions.length
        = σ₁.code.instructions.length + 1 := List.length_append
    have hjoin := fun memory' flow => Leaves.ifElse memory' flow htest
      (hcond.isPrefix hstd hσ trivial).length_le (hyes.isPrefix hstd hsound trivial) hclip hlt
      (hno.isPrefix hstd hsound'.enter_empty trivial) hclip' hle
    cases b with
    | true =>
      have hsim := ihyes hsound trivial ((hss.of_eq hpush.scopes).open_empty rfl) hpiece.2.1 hconst₃
      obtain ⟨memory₂, hleaves, hkeeps₂, hend⟩ :=
        hsim.inner (hbound.trans hpush.extend.slots) (hslots.of_eq hpush.scopes)
          (hshows₁.of_eq hpush.scopes) stack hrest
      rw [hlength] at hleaves
      have hshows₂ := fun hthrough => (hend hthrough).of_eq (hback.trans hexit.symm)
      exact ⟨memory₂, hjoin _ _ hleaves, (hkeeps₁.mono hbound).trans hkeeps₂,
        fun hthrough => ⟨hshows₂ hthrough, hslots.of_eq hback⟩⟩
    | false =>
      have hsim := ihno hsound'.enter_empty trivial ((hss.of_eq hexit).open_empty rfl) hpiece.2.2
        hpool
      obtain ⟨memory₂, hleaves, hkeeps₂, hend⟩ :=
        hsim.inner (hbound.trans hext.slots) (hslots.of_eq hexit) (hshows₁.of_eq hexit) stack hrest
      exact ⟨memory₂, hjoin _ _ hleaves, (hkeeps₁.mono hbound).trans hkeeps₂,
        fun hthrough => ⟨hend hthrough, hslots.of_eq hback⟩⟩
  | loop =>
    intro bound ss flow ss' stack memory _ _ _ hyields
    rw [foldStmt] at hyields
    exact absurd hyields not_yields_failure
  | fail =>
    intro bound ss flow ss' stack memory _ _ _ hyields
    rw [foldStmt, yields_bind] at hyields
    obtain ⟨d, -, hthrow⟩ := hyields
    cases d <;> exact absurd hthrow not_yields_throw
  | exprKnown _ =>
    intro bound ss flow ss' stack memory _ hslots hshows hyields
    rw [foldStmt, yields_bind] at hyields
    obtain ⟨d, -, hend⟩ := hyields
    cases yields_pure.1 hend
    exact (EmitState.computes_refl pool _ stack memory).follows (.refl _ _) hshows hslots
  | exprDropped _ he ih =>
    intro bound ss flow ss' stack memory hbound hslots hshows hyields
    rw [foldStmt, yields_bind] at hyields
    obtain ⟨d, hd, hend⟩ := hyields
    cases yields_pure.1 hend
    have hpush : EmitState.Pushes _ _ := he.effect hstd hσ trivial
    obtain ⟨memory', hvalue, hkeeps⟩ := ih hσ trivial hss hpiece hpool ss d stack memory hshows hd
    exact (hvalue.add (he.isPrefix hstd hσ trivial) .drop 0 rfl).follows (hkeeps.mono hbound)
      ((hshows.of_keeps hσ.settled hkeeps).of_eq hpush.scopes) (hslots.of_eq hpush.scopes)
  | stmtsNil =>
    intro bound ss flow ss' stack memory _ hslots hshows hyields
    rw [foldStmts] at hyields
    cases yields_pure.1 hyields
    exact (EmitState.computes_refl pool _ stack memory).follows (.refl _ _) hshows hslots
  | @stmtsCons _ σ σ₁ σ' _ _ _ _ hs hrest ihs ihrest =>
    intro bound ss flow ss' stack memory hbound hslots hshows hyields
    rw [Piece.Holds, Stmt.literalsAll, List.forall_mem_append] at hpiece
    have hproceeds : EmitState.Proceeds _ _ := hs.effect hstd hσ trivial
    have hpre := hs.isPrefix hstd hσ trivial
    have hpre' := hrest.isPrefix hstd hproceeds.sound trivial
    have hconst := (hrest.constants_isPrefix hstd hproceeds.sound trivial).trans hpool
    obtain ⟨new, hext⟩ := hproceeds.extend
    rw [foldStmts, yields_bind] at hyields
    obtain ⟨⟨flow₁, ss₁⟩, hfirst, hsecond⟩ := hyields
    obtain ⟨memory₁, hleaves, hkeeps₁, hend⟩ := ihs hσ trivial hss hpiece.1 hconst bound ss flow₁
      ss₁ stack memory hbound hslots hshows hfirst
    cases flow₁ with
    | through =>
      obtain ⟨hshows₁, hslots₁⟩ := hend rfl
      obtain ⟨memory₂, hleaves₂, hkeeps₂, hend₂⟩ := ihrest hproceeds.sound trivial
        (hs.holds hjob hσ trivial hss hpiece.1) hpiece.2 hpool bound ss₁ flow ss' stack memory₁
        (hbound.trans hext.slots) hslots₁ hshows₁ hsecond
      exact ⟨memory₂, Leaves.head hleaves hleaves₂ hpre' hpre.length_le hpre.length_le,
        hkeeps₁.trans hkeeps₂, hend₂⟩
    | returned v =>
      cases yields_pure.1 hsecond
      obtain ⟨i, hi, hreturn, hrun⟩ := hleaves
      exact ⟨memory₁, ⟨i, hi, getElem?_of_isPrefix hpre' hreturn, hrun.mono le_rfl hpre'⟩, hkeeps₁,
        by simp⟩

end Arbor
