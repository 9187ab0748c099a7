import Arbor.Proofs.Emission.Effect
import Arbor.Proofs.Evaluation.Closure

/-!
# What is known during emission

Names are bound to data in two places: where a constant is defined, and where a parameter is bound
to an argument that folds.  Either way the datum comes from evaluation, so a closed property of all
data that the program writes holds of all data that are known while it is emitted
(`Emits.holds`).
-/

namespace Arbor

variable {P : Datum → Prop} {job : Job} {entered : List String} {piece : Piece} {σ σ' : EmitState}

/-- All data that are written in a piece, or known in the scope that goes with it, have a
property. -/
def Piece.Holds (P : Datum → Prop) : Piece → Prop
  | .scalar d => P d
  | .appended ds => ∀ d ∈ ds, P d
  | .datum d => P d
  | .value e _ => ∀ d ∈ e.literals, P d
  | .expr e _ => ∀ d ∈ e.literals, P d
  | .args es _ => ∀ d ∈ Expr.literalsAll es, P d
  | .items es _ => ∀ d ∈ Expr.literalsAll es, P d
  | .params scope _ es _ => (∀ d ∈ Expr.literalsAll es, P d) ∧ Scopes.Holds P [scope]
  | .call _ scope _ => Scopes.Holds P [scope]
  | .stmt s _ => ∀ d ∈ s.literals, P d
  | .stmts ss _ => ∀ d ∈ Stmt.literalsAll ss, P d

/-- All data that are known after a piece have a property. -/
def Piece.HoldsAfter (P : Datum → Prop) (σ' : EmitState) : Piece → Prop
  | .params _ _ _ scope' => Scopes.Holds P [scope']
  | .stmt _ _ => σ'.scopes.Holds P
  | .stmts _ _ => σ'.scopes.Holds P
  | _ => True

/-- **Closed properties hold of all data that are known during emission.** -/
theorem Emits.holds (hjob : job.Preserves P) (h : Emits job entered piece σ σ') (hσ : σ.Sound)
    (hready : piece.Ready σ) (hss : σ.scopes.Holds P) (hpiece : piece.Holds P) :
    piece.HoldsAfter P σ' := by
  induction h with
  | paramsNil _ => exact hpiece.2
  | paramsKnown heval hdef _ ih =>
    obtain ⟨-, hnone, rfl⟩ := Scope.define_eq_ok_iff.1 hdef
    obtain ⟨hlit, hscope⟩ := hpiece
    rw [Expr.literalsAll, List.forall_mem_append] at hlit
    have hd := (job.evaluate_ensures hjob hss _ hlit.1).1 _ heval
    refine ih hσ (Scopes.Settled.bind_constant hready hnone _) hss ⟨hlit.2, ?_⟩
    exact hscope.bind_constant _ hd true
  | paramsStored _ he hslot hdef _ _ ih =>
    obtain ⟨-, hnone, rfl⟩ := Scope.define_eq_ok_iff.1 hdef
    obtain ⟨hlit, hscope⟩ := hpiece
    rw [Expr.literalsAll, List.forall_mem_append] at hlit
    have hpush : EmitState.Pushes _ _ := he.effect hjob.standard hσ trivial
    have hstore := hpush.store_fresh hslot
    refine ih (hstore.sound hσ) ?_ (hss.of_eq hstore.scopes) ⟨hlit.2, ?_⟩
    · exact (Scopes.Settled.mono hready hpush.extend.slots).bind_stored hnone
        (Slots.toNat_of_fresh hslot) _ true
    · exact hscope.bind_stored _ _ _ _
  | block hbody _ =>
    have hproceeds : EmitState.Proceeds _ _ := hbody.effect hjob.standard hσ.enter_empty trivial
    exact hss.of_eq hproceeds.scopes.tail_eq
  | constant heval hscopes hdef =>
    obtain ⟨-, hnone, rfl⟩ := Scope.define_eq_ok_iff.1 hdef
    have hd := (job.evaluate_ensures hjob hss _ hpiece).1 _ heval
    exact Scopes.Holds.bind_constant (hss.of_eq hscopes.symm) _ hd true
  | define _ he _ hscopes hdef _ =>
    obtain ⟨-, hnone, rfl⟩ := Scope.define_eq_ok_iff.1 hdef
    have hpush : EmitState.Pushes _ _ := he.effect hjob.standard hσ trivial
    exact Scopes.Holds.bind_stored (hss.of_eq (hscopes.symm.trans hpush.scopes)) _ _ _ _
  | assign he _ _ _ =>
    have hpush : EmitState.Pushes _ _ := he.effect hjob.standard hσ trivial
    exact hss.of_eq hpush.scopes
  | returnNone _ => exact hss
  | returnValue he _ _ =>
    have hpush : EmitState.Pushes _ _ := he.effect hjob.standard hσ trivial
    exact hss.of_eq hpush.scopes
  | ifThen hcond _ hyes _ _ _ =>
    have hpush : EmitState.Pushes _ _ := hcond.effect hjob.standard hσ trivial
    have hproceeds : EmitState.Proceeds _ _ :=
      hyes.effect hjob.standard ((hpush.sound hσ).hold .jumpUnless rfl).enter_empty trivial
    exact hss.of_eq (hproceeds.scopes.tail_eq.trans hpush.scopes)
  | ifElse hcond _ hyes hskip hno _ _ _ _ =>
    have hpush : EmitState.Pushes _ _ := hcond.effect hjob.standard hσ trivial
    have hyes' : EmitState.Proceeds _ _ :=
      hyes.effect hjob.standard ((hpush.sound hσ).hold .jumpUnless rfl).enter_empty trivial
    obtain ⟨-, hsound, hscopes⟩ := hσ.sound_alternative hpush hyes' hskip
    have hno' : EmitState.Proceeds _ _ := hno.effect hjob.standard hsound.enter_empty trivial
    exact hss.of_eq (hno'.scopes.tail_eq.trans hscopes)
  | loop hitems _ _ hitem hdef hbody _ _ _ _ =>
    have hpush : EmitState.Pushes _ _ := hitems.effect hjob.standard hσ trivial
    have hproceeds : EmitState.Proceeds _ _ :=
      hbody.effect hjob.standard ((hpush.sound hσ).loopBody _ hitem hdef) trivial
    exact hss.of_eq (hproceeds.scopes.tail_eq.trans hpush.scopes)
  | fail he _ _ =>
    have hpush : EmitState.Pushes _ _ := he.effect hjob.standard hσ trivial
    exact hss.of_eq hpush.scopes
  | exprKnown _ => exact hss
  | exprDropped _ he _ =>
    have hpush : EmitState.Pushes _ _ := he.effect hjob.standard hσ trivial
    exact hss.of_eq hpush.scopes
  | stmtsNil => exact hss
  | stmtsCons hs _ ihs ihss =>
    have hproceeds : EmitState.Proceeds _ _ := hs.effect hjob.standard hσ trivial
    rw [Piece.Holds, Stmt.literalsAll, List.forall_mem_append] at hpiece
    exact ihss hproceeds.sound trivial (ihs hσ trivial hss hpiece.1) hpiece.2
  | _ => trivial

end Arbor
