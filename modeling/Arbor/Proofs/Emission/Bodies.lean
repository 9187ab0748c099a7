import Arbor.Proofs.Emission.Outcome

/-!
# Outcomes of bodies

Statements and inlined bodies, like expressions, are emitted with a derivation or end in an expected
problem.  The recursion through calls ends because each nested call enters a new name, which closes
the induction that `Arbor.Proofs.Emission.Outcome` leaves open.

* `Emission.derives_emitStmts`: statements.
* `Emission.derives_emitCall`: inlined bodies.
-/

namespace Arbor

open Code Step

/-! ## Patching -/

lemma Code.isExpected_of_patch {c : Code} {a : Anchor} {p : Problem}
    (ha : IsPending c.instructions a.index) (h : c.patch a = .error p) : p.IsExpected := by
  obtain ⟨n, hfar, rfl⟩ := eq_jumpTooFar_of_patch ha h
  exact hfar

lemma Code.isExpected_of_jumpBack {c : Code} {head : LoopHead} {p : Problem}
    (h : c.jumpBack head = .error p) : p.IsExpected := by
  rw [jumpBack_eq] at h
  split at h
  · next hfar =>
    cases h
    exact hfar
  · cases h

namespace Emit

variable {α : Type} {σ : EmitState} {Q : α → EmitState → Prop} {E : Problem → EmitState → Prop}

/-- Patching a jump that waits. -/
lemma ensures_patch_bind {a : Anchor} {f : Unit → Emit α} {H : Prop} {σ₀ : EmitState}
    (ha : IsPending σ.code.instructions a.index) (hlen : σ.frames.length = σ₀.frames.length)
    (hok : ∀ c, σ.code.patch a = .ok c → Ensures (f ()) { σ with code := c } Q (σ₀.Fails H)) :
    Ensures (patch a >>= f) σ Q (σ₀.Fails H) :=
  ensures_onCode_bind (Assemble.atomic_patch a)
    (fun _ hp => ⟨hlen, fun _ => Code.isExpected_of_patch ha hp⟩) hok

/-! ## Nesting -/

lemma ensures_inChild_bind {β : Type} {scope : Scope} {x : Emit β} {f : β → Emit α}
    (h : Ensures x (σ.enter scope) (fun b σ' => Ensures (f b) σ'.exit Q E)
      (fun p σ' => E p σ'.exit)) :
    Ensures (inChild scope x >>= f) σ Q E := by
  unfold Ensures at h
  cases hx : x (σ.enter scope) with
  | ok b σ' =>
    rw [hx] at h
    refine ensures_bind_of_ok ?_ h
    unfold inChild
    rw [show x { σ with scopes := scope :: σ.scopes } = _ from hx]
    rfl
  | error p σ' =>
    rw [hx] at h
    refine ensures_bind_of_error ?_ h
    unfold inChild
    rw [show x { σ with scopes := scope :: σ.scopes } = _ from hx]
    rfl

/-- Statements in a frame of their own.  The frame is closed again, also after a problem. -/
lemma ensures_inFrame_bind {β : Type} {name : String} {scope : Scope} {x : Emit β}
    {f : β × Frame → Emit α} (h : Ensures x (σ.openFrame name scope)
      (fun b σ' => ∃ frame, σ'.frames = σ.frames ++ [frame] ∧
        Ensures (f (b, frame)) (σ'.leaveFrame σ.scopes σ.frames) Q E)
      (fun p σ' => σ'.frames.length = σ.frames.length + 1 ∧
        E p (σ'.leaveFrame σ.scopes σ'.frames.dropLast))) :
    Ensures (inFrame name scope x >>= f) σ Q E := by
  unfold Ensures at h
  cases hx : x (σ.openFrame name scope) with
  | ok b σ' =>
    rw [hx] at h
    obtain ⟨frame, hframes, hf⟩ := h
    refine ensures_bind_of_ok ?_ hf
    have hclose : closeFrame .callFrameMissing
        { σ' with scopes := σ.scopes, inlining := σ'.inlining.tail }
        = .ok frame (σ'.leaveFrame σ.scopes σ.frames) := by
      simp [closeFrame, EmitState.leaveFrame, hframes]
    unfold inFrame
    rw [← EmitState.openFrame, hx]
    exact bind_of_ok hclose
  | error p σ' =>
    rw [hx] at h
    obtain ⟨hlen, hE⟩ := h
    have hne : σ'.frames ≠ [] := by
      intro hnil
      simp [hnil] at hlen
    refine ensures_bind_of_error ?_ hE
    have hclose : closeFrame .callFrameMissing
        { σ' with scopes := σ.scopes, inlining := σ'.inlining.tail }
        = .ok (σ'.frames.getLast hne) (σ'.leaveFrame σ.scopes σ'.frames.dropLast) := by
      simp [closeFrame, EmitState.leaveFrame, List.getLast?_eq_some_getLast hne]
    unfold inFrame
    rw [← EmitState.openFrame, hx]
    exact bind_of_ok hclose

/-- Patching the jumps that wait. -/
lemma ensures_patchAll_bind {is : List Instruction} {as rest : List Anchor} {f : Unit → Emit α}
    {H : Prop} {σ₀ : EmitState} (hgrown : Grown is σ.code.instructions (as ++ rest))
    (hlink : Linked is) (hlen : σ.frames.length = σ₀.frames.length)
    (hok : ∀ σ', patchAll as σ = .ok () σ' → Ensures (f ()) σ' Q (σ₀.Fails H)) :
    Ensures (patchAll as >>= f) σ Q (σ₀.Fails H) := by
  induction as generalizing σ with
  | nil => exact hok σ rfl
  | cons a as ih =>
    have hmiddle : Grown is σ.code.instructions ([] ++ a :: (as ++ rest)) := hgrown
    unfold patchAll
    rw [bind_assoc]
    refine ensures_patch_bind hmiddle.isPending hlen fun c hc => ?_
    refine ih (hmiddle.patch hlink (clips_of_patch hgrown.linked hmiddle.isPending hc)) hlen
      fun σ' hσ' => hok σ' ?_
    rw [patchAll, bind_of_ok (by rw [patch_apply, hc])]
    exact hσ'

/-- A return from the innermost body. -/
lemma leave_apply (hσ : σ.Placed) {fs : List Frame} {top : Frame} (hframes : σ.frames = fs ++ [top])
    (t : ValueType) :
    leave t σ = .ok () { σ.hold .jump with frames := fs ++ [top.record t ⟨σ.code.size⟩] } := by
  obtain ⟨fs', top', hframes', hframe⟩ := hσ.exists_top
  obtain ⟨rfl, rfl⟩ := List.append_singleton_inj.1 (hframes.symm.trans hframes')
  have hget : (σ.hold .jump).frames[fs.length]? = some top := by simp [hframes]
  have hset : σ.frames.set fs.length (top.record t ⟨σ.code.size⟩)
      = fs ++ [top.record t ⟨σ.code.size⟩] := by
    simp [hframes]
  have hhere : ∀ σ : EmitState, (get : Emit EmitState) σ = .ok σ σ := fun _ => rfl
  have hreserve : reserve .jump σ = .ok ⟨σ.code.size⟩ (σ.hold .jump) := rfl
  unfold leave
  rw [bind_of_ok (hhere σ), hframe]
  dsimp only
  rw [bind_of_ok hreserve, bind_of_ok (hhere _), hget]
  rw [← hset]
  rfl

lemma ensures_leave_bind {t : ValueType} {f : Unit → Emit α} (hσ : σ.Placed)
    (hok : ∀ fs top, σ.frames = fs ++ [top] → Ensures (f ())
      { σ.hold .jump with frames := fs ++ [top.record t ⟨σ.code.size⟩] } Q E) :
    Ensures (leave t >>= f) σ Q E := by
  obtain ⟨fs, top, hframes, -⟩ := hσ.exists_top
  exact ensures_bind_of_ok (leave_apply hσ hframes t) (hok fs top hframes)

/-- Assigning in settled scopes stores into a slot and changes no binding. -/
lemma ensures_assign_bind {name : Ident} {v : Value} {f : Assignment → Emit α} (hσ : σ.Placed)
    (herr : ∀ p, p.IsFault → E p σ)
    (hok : ∀ t slot, Scopes.find? σ.scopes name.name = some (.stored t slot false) →
      t.compatible v.type = true → Ensures (f (.store slot)) σ Q E) :
    Ensures (assign name v >>= f) σ Q E := by
  have hfinal : ∀ {d : Datum} {g : Bool},
      Scopes.find? σ.scopes name.name = some (.constant d g) → g = true :=
    fun hfind => hσ.settled.isFinal_of_find? hfind
  unfold assign
  rw [bind_assoc]
  refine ensures_get_bind ?_
  rw [bind_assoc]
  refine ensures_lift_bind (fun p hassign => herr p ?_) fun r hassign => ?_
  · rcases Scopes.assign_eq_error hassign with hfault | ⟨b, hfind, hb⟩
    · exact hfault
    · refine (Binding.assign_eq_error hb).resolve_right ?_
      rintro ⟨d, t, rfl, -, -⟩
      exact absurd (hfinal hfind) (by simp)
  · obtain ⟨outcome, ss⟩ := r
    obtain ⟨b, b', hfind, hb, rfl⟩ := Scopes.assign_eq_ok hassign
    obtain ⟨hvar, hfits, hcases⟩ := Binding.assign_eq_ok hb
    -- What is known is final, so only a stored binding can be assigned to.
    rcases hcases with ⟨t, slot, g, rfl, rfl, rfl⟩ | ⟨d, d', g, rfl, -⟩ | ⟨t, d', g, slot, rfl, -⟩
    · have hg : g = false := hvar
      subst hg
      rw [hσ.settled.replace_eq_self hfind]
      exact hok t slot hfind hfits
    · rw [hfinal hfind] at hvar
      cases hvar
    · rw [hfinal hfind] at hvar
      cases hvar

end Emit

namespace Emission

open Emit

variable {job : Job} {entered : List String} {inline : Inliner job entered}

/-- A condition and the jump over what depends on it. -/
lemma ensures_emitCond_bind {α : Type} {f : Anchor → Emit α} {Q : α → EmitState → Prop} {H : Prop}
    {cond : Expr} {σ : EmitState} (hstd : job.builtins = .standard) (hinline : inline.Derives)
    (hσ : σ.Sound) (hH : H → Flat job σ cond.literals)
    (hok : ∀ v σ₁, Emits job entered (.value cond v) σ σ₁ → v.type.compatible (.of .bool) = true →
      Ensures (f ⟨σ₁.code.size⟩) (σ₁.hold .jumpUnless) Q (σ.Fails H)) :
    Ensures (emitCond inline cond >>= f) σ Q (σ.Fails H) := by
  unfold emitCond acceptExpr
  rw [bind_assoc]
  refine (derives_value hstd hinline cond hσ).bind hH fun v σ₁ hv => ?_
  have hpush : σ.Pushes σ₁ := hv.effect hstd hσ trivial
  rw [bind_assoc]
  refine ensures_lift_bind (fun p hp => EmitState.fails_of_isFault (Check.isFault_of_compatible hp)
    (congrArg _ hpush.frames)) fun _ hbool => ?_
  exact ensures_reserve_bind (hok v σ₁ hv (Check.compatible_eq_ok_iff.1 hbool))

/-- A definition whose value is stored. -/
lemma derives_define (hstd : job.builtins = .standard) (hinline : inline.Derives) {q : Qualifier}
    {name : Ident} (hq : q ≠ .const) (value : Expr) {σ : EmitState} (hσ : σ.Sound) :
    Derives job entered (emitStmt inline (.define q name value)) (.stmt (.define q name value))
      (Flat job σ value.literals) σ := by
  have hstep : emitStmt inline (.define q name value) = (do
      let v ← acceptExpr inline true value
      let slot ← alloc
      define name (.stored v.type slot q.isFinal)
      push .store slot
      pure false) := by
    rw [emitStmt]
    exact hq
  rw [hstep]
  refine (derives_value hstd hinline value hσ).bind id fun v σ₁ hv => ?_
  have hpush : σ.Pushes σ₁ := hv.effect hstd hσ trivial
  refine ensures_alloc_bind ⟨congrArg _ hpush.frames, fun _ => trivial⟩ fun slot hslot => ?_
  refine ensures_define_bind
    (fun p hp => EmitState.fails_of_isFault hp (congrArg _ hpush.frames)) fun ss hdef => ?_
  obtain ⟨scope, scope', outer, hscopes, hscope', rfl⟩ := (hpush.sound hσ).placed.define_eq_ok hdef
  exact ensures_push_bind (ensures_pure (.define hq hv hslot hscopes hscope'))

/-- Statements in a scope of their own. -/
lemma ensures_child_bind {α : Type} {x : Emit Bool} {f : Bool → Emit α} {Q : α → EmitState → Prop}
    {H H' : Prop} {scope : Scope} {body : List Stmt} {σ σ₁ : EmitState}
    (hx : Derives job entered x (.stmts body) H' (σ₁.enter scope))
    (hlen : σ₁.frames.length = σ.frames.length) (hH : H → H')
    (hok : ∀ returns σ', Emits job entered (.stmts body returns) (σ₁.enter scope) σ' →
      Ensures (f returns) σ'.exit Q (σ.Fails H)) :
    Ensures (inChild scope x >>= f) σ₁ Q (σ.Fails H) :=
  ensures_inChild_bind (hx.mono hok fun _ _ hfail => ⟨hfail.1.trans hlen, fun h => hfail.2 (hH h)⟩)

lemma Flat.enter {σ σ₁ : EmitState} {ds ds' : List Datum} (h : Flat job σ ds)
    (hscopes : σ₁.scopes = σ.scopes) (hsub : ds' ⊆ ds) : Flat job (σ₁.enter {}) ds' :=
  ⟨h.job, (h.scopes.of_eq hscopes).open_empty rfl, fun d hd => h.data d (hsub hd)⟩

mutual
lemma derives_emitStmt (hstd : job.builtins = .standard) (hinline : inline.Derives) (s : Stmt)
    {σ : EmitState} (hσ : σ.Sound) :
    Derives job entered (emitStmt inline s) (.stmt s) (Flat job σ s.literals) σ := by
  match s with
  | .block body =>
    rw [emitStmt, ← bind_pure (inChild _ _)]
    refine ensures_child_bind (derives_emitStmts hstd hinline body hσ.enter_empty) rfl
      (fun h => h.enter rfl (List.Subset.refl _)) fun returns σ' hbody => ?_
    exact ensures_pure (.block hbody)
  | .define .const name value =>
    rw [emitStmt]
    refine ensures_accept_false hstd (fun heval => derives_emitExpr hstd hinline value hσ heval) id
      (fun d heval => ?_) fun t σ₁ _ he => ?_
    · refine ensures_define_bind (fun p hp => EmitState.fails_of_isFault hp rfl) fun ss hdef => ?_
      obtain ⟨scope, scope', outer, hscopes, hscope', rfl⟩ := hσ.placed.define_eq_ok hdef
      exact ensures_pure (.constant heval hscopes hscope')
    · have hpush : σ.Pushes σ₁ := he.effect hstd hσ trivial
      exact ensures_throw (EmitState.fails_of_isFault trivial (congrArg _ hpush.frames))
  | .define .var name value =>
    exact derives_define hstd hinline (show Qualifier.var ≠ .const by decide) value hσ
  | .define .final name value =>
    exact derives_define hstd hinline (show Qualifier.final ≠ .const by decide) value hσ
  | .assign name value =>
    rw [emitStmt]
    refine (derives_value hstd hinline value hσ).bind id fun v σ₁ hv => ?_
    have hpush : σ.Pushes σ₁ := hv.effect hstd hσ trivial
    refine ensures_assign_bind (hpush.sound hσ).placed
      (fun p hp => EmitState.fails_of_isFault hp (congrArg _ hpush.frames))
      fun t slot hfind hfits => ?_
    exact ensures_push_bind (ensures_pure (.assign hv hfind hfits))
  | .ret none =>
    rw [emitStmt]
    have hpush : σ.Pushes (σ.add .pushNone) := hσ.pushes_refl.add .pushNone rfl 0
    refine ensures_push_bind (ensures_leave_bind (hpush.sound hσ).placed fun fs top hframes => ?_)
    refine ensures_pure ?_
    rw [EmitState.add_code, Code.size_push]
    exact .returnNone hframes
  | .ret (some value) =>
    rw [emitStmt]
    refine (derives_value hstd hinline value hσ).bind id fun v σ₁ hv => ?_
    have hpush : σ.Pushes σ₁ := hv.effect hstd hσ trivial
    refine ensures_leave_bind (hpush.sound hσ).placed fun fs top hframes => ?_
    exact ensures_pure (.returnValue hv hframes)
  | .ifThen cond yes =>
    rw [emitStmt]
    refine ensures_emitCond_bind hstd hinline hσ
      (fun h => h.of_subset (List.subset_append_left _ _)) fun v σ₁ hv hbool => ?_
    have hpush : σ.Pushes σ₁ := hv.effect hstd hσ trivial
    have hsound := ((hpush.sound hσ).hold .jumpUnless rfl).enter_empty
    refine ensures_child_bind (derives_emitStmts hstd hinline yes hsound) (congrArg _ hpush.frames)
      (fun h => h.enter hpush.scopes (List.subset_append_right _ _)) fun returns σ₂ hyes => ?_
    obtain ⟨⟨new, hext⟩, -⟩ := hpush.extends_branch rfl (hyes.effect hstd hsound trivial)
    refine ensures_patch_bind hext.code.isPending hext.frames.length_eq fun c hc => ?_
    exact ensures_pure (.ifThen hv hbool hyes hc)
  | .ifElse cond yes no =>
    rw [emitStmt]
    refine ensures_emitCond_bind hstd hinline hσ
      (fun h => h.of_subset (List.subset_append_left _ _)) fun v σ₁ hv hbool => ?_
    have hpush : σ.Pushes σ₁ := hv.effect hstd hσ trivial
    have hsound := ((hpush.sound hσ).hold .jumpUnless rfl).enter_empty
    refine ensures_child_bind (derives_emitStmts hstd hinline yes hsound) (congrArg _ hpush.frames)
      (fun h => h.enter hpush.scopes fun d hd =>
        List.mem_append_right _ (List.mem_append_left _ hd))
      fun yesReturns σ₂ hyes => ?_
    have hyes' := hyes.effect hstd hsound trivial
    obtain ⟨_, hheld⟩ := hpush.extends_skip hyes'
    refine ensures_reserve_bind
      (ensures_patch_bind hheld.code.isPending hheld.frames.length_eq fun c hc => ?_)
    obtain ⟨⟨new', hext'⟩, hsound', hscopes⟩ := hσ.sound_alternative hpush hyes' hc
    refine ensures_child_bind (derives_emitStmts hstd hinline no hsound'.enter_empty)
      hheld.frames.length_eq
      (fun h => h.enter hscopes fun d hd => List.mem_append_right _ (List.mem_append_right _ hd))
      fun noReturns σ₃ hno => ?_
    obtain ⟨new₃, hext₃⟩ := (hno.effect hstd hsound'.enter_empty trivial).extend
    have hall := (hext'.withScopes _).trans hext₃
    refine ensures_patch_bind hall.code.isPending hall.frames.length_eq fun c' hc' => ?_
    exact ensures_pure (.ifElse hv hbool hyes hc hno hc')
  | .loop name items body =>
    rw [emitStmt]
    refine (derives_value hstd hinline items hσ).bind
      (fun h => h.of_subset (List.subset_append_left _ _)) fun v σ₁ hv => ?_
    have hpush : σ.Pushes σ₁ := hv.effect hstd hσ trivial
    have hlen : σ₁.frames.length = σ.frames.length := congrArg _ hpush.frames
    refine ensures_lift_bind (fun p hp => EmitState.fails_of_isFault
      (Check.isFault_of_compatible hp) hlen) fun _ hlist => ?_
    refine ensures_alloc_bind ⟨hlen, fun _ => trivial⟩ fun iter hiter => ?_
    refine ensures_push_bind (ensures_push_bind (ensures_get_bind (ensures_push_bind
      (ensures_reserve_bind (ensures_push_bind (ensures_alloc_bind ⟨hlen, fun _ => trivial⟩
        fun item hitem => ?_))))))
    refine ensures_push_bind (ensures_lift_bind (fun p hp => EmitState.fails_of_isFault
      (Scope.isFault_of_define hp) hlen) fun scope hdef => ?_)
    have hsound := (hpush.sound hσ).loopBody iter hitem hdef
    refine ensures_child_bind (derives_emitStmts hstd hinline body hsound) hlen
      (fun h => ⟨h.job, ?_, (h.of_subset (List.subset_append_right _ _)).data⟩)
      fun returns σ₂ hbody => ?_
    · obtain ⟨-, -, rfl⟩ := Scope.define_eq_ok_iff.1 hdef
      exact ((h.scopes.of_eq hpush.scopes).open_empty rfl).bind_stored _ _ _ _
    · obtain ⟨new, hext⟩ := (hbody.effect hstd hsound trivial).extend
      have hall := (hpush.extends_loopBody iter item scope).trans hext
      refine ensures_onCode_bind (Assemble.atomic_jumpBack _) (fun p hp =>
        ⟨hall.frames.length_eq, fun _ => Code.isExpected_of_jumpBack hp⟩) fun c hc => ?_
      have hhead : ((σ₁.advance.add .iter).add .store iter).code.head = ⟨σ₁.code.size + 2⟩ := by
        simp [Code.head]
      have hexit : (((σ₁.advance.add .iter).add .store iter).add .hasNext iter).code.size
          = σ₁.code.size + 3 := by
        simp
      rw [hhead] at hc
      obtain ⟨b, rfl, -⟩ := Code.exists_of_jumpBack hc
      have hback := hall.add .jumpBack rfl b
      rw [hexit]
      refine ensures_patch_bind hback.code.isPending hall.frames.length_eq fun c' hc' => ?_
      exact ensures_pure
        (.loop hv (Check.compatible_eq_ok_iff.1 hlist) hiter hitem hdef hbody hc hc')
  | .fail message span =>
    rw [emitStmt]
    refine (derives_value hstd hinline message hσ).bind id fun v σ₁ hv => ?_
    have hpush : σ.Pushes σ₁ := hv.effect hstd hσ trivial
    refine ensures_lift_bind (fun p hp => EmitState.fails_of_isFault
      (Check.isFault_of_compatible hp) (congrArg _ hpush.frames)) fun _ hstr => ?_
    exact ensures_push_bind (ensures_pure (.fail hv (Check.compatible_eq_ok_iff.1 hstr)))
  | .expr value =>
    rw [emitStmt]
    exact ensures_accept_false hstd (fun heval => derives_emitExpr hstd hinline value hσ heval) id
      (fun d heval => ensures_pure (.exprKnown heval))
      fun t σ₁ heval he => ensures_push_bind (ensures_pure (.exprDropped heval he))

lemma derives_emitStmts (hstd : job.builtins = .standard) (hinline : inline.Derives)
    (ss : List Stmt) {σ : EmitState} (hσ : σ.Sound) :
    Derives job entered (emitStmts inline ss) (.stmts ss) (Flat job σ (Stmt.literalsAll ss)) σ := by
  match ss with
  | [] =>
    rw [emitStmts]
    exact ensures_pure .stmtsNil
  | s :: ss =>
    rw [emitStmts]
    refine (derives_emitStmt hstd hinline s hσ).bind
      (fun h => h.of_subset (List.subset_append_left _ _)) fun returns σ₁ hs => ?_
    have hproceeds : σ.Proceeds σ₁ := hs.effect hstd hσ trivial
    obtain ⟨new, hext⟩ := hproceeds.extend
    refine Ensures.bind (derives_emitStmts hstd hinline ss hproceeds.sound) (fun p σ' hfail =>
      hfail.mono hext.frames.length_eq fun h => ⟨h.job, ?_, ?_⟩) fun rest σ₂ hss => ?_
    · exact hs.holds h.job hσ trivial h.scopes
        (h.of_subset (List.subset_append_left _ _)).data
    · exact (h.of_subset (List.subset_append_right _ _)).data
    · exact ensures_pure (.stmtsCons hs hss)
end

/-! ## Calls -/

/-- Bodies are inlined with a derivation, one inside the other. -/
lemma derives_emitCall (hstd : job.builtins = .standard) (entered : List String) :
    Inliner.Derives (emitCall job entered) := by
  intro g scope σ hσ hsettled hrole
  have hinline := derives_emitCall hstd (g.name :: entered)
  have hopen := hσ.openFrame g.name hsettled hrole
  unfold Derives
  rw [emitCall]
  refine ensures_inFrame_bind ((derives_emitStmts hstd hinline g.definition.body hopen).mono
    (fun returns σ₁ hbody => ?_) fun p σ' hfail => ?_)
  · obtain ⟨frame, hframe, hend⟩ :=
      (hbody.effect hstd hopen trivial : EmitState.Proceeds _ _).exists_frame hσ returns
    refine ⟨frame, hframe, ?_⟩
    cases returns with
    | true =>
      refine ensures_patchAll_bind hend.code hσ.linked rfl fun σ' hpatch => ?_
      exact ensures_pure (.call g.mem g.notEntered hbody hframe hpatch)
    | false =>
      refine ensures_push_bind (ensures_patchAll_bind hend.code hσ.linked rfl fun σ' hpatch => ?_)
      exact ensures_pure (.call g.mem g.notEntered hbody hframe hpatch)
  · refine ⟨by simpa using hfail.1, ?_, fun h => hfail.2 ⟨h.1, h.2, h.1.literals _ g.mem⟩⟩
    have hlen : σ'.frames.length = σ.frames.length + 1 := by simpa using hfail.1
    simp [hlen]
termination_by Nesting.remaining job.functionNames entered
decreasing_by exact Inlinable.remaining_lt _

end Emission

end Arbor
