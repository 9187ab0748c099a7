import Arbor.Proofs.Builtin.Resolution
import Arbor.Proofs.Evaluation.Outcome
import Arbor.Proofs.Program.Literals
import Arbor.Proofs.Scope.Settled
import Arbor.Proofs.Value.Closed

/-!
# Properties that evaluation preserves

`Job.evaluate_ensures`: if all data that a program writes and knows have a closed property, so do
all results of evaluation; and with the standard builtins every problem that evaluation ends in is
the program's mistake.
-/

namespace Arbor

open Fold

/-! ## Data known in scopes -/

/-- All data known in scopes have a property. -/
def Scopes.Holds (P : Datum → Prop) (ss : Scopes) : Prop :=
  ∀ s ∈ ss, ∀ {name : String} {d : Datum} {f : Bool}, (name, .constant d f) ∈ s.bindings → P d

namespace Scopes.Holds

variable {P : Datum → Prop} {ss : Scopes} {s : Scope}

lemma nil : Holds P [] := fun _ hs => absurd hs List.not_mem_nil

lemma cons_iff : Holds P (s :: ss) ↔
    (∀ {name : String} {d : Datum} {f : Bool}, (name, .constant d f) ∈ s.bindings → P d) ∧
      Holds P ss := by
  unfold Holds
  rw [List.forall_mem_cons]

lemma open_empty (h : Holds P ss) (hs : s.bindings = []) : Holds P (s :: ss) := by
  refine cons_iff.2 ⟨fun hmem => ?_, h⟩
  rw [hs] at hmem
  exact absurd hmem List.not_mem_nil

lemma of_eq (h : Holds P ss) {ss' : Scopes} (heq : ss' = ss) : Holds P ss' := heq ▸ h

lemma tail (h : Holds P ss) : Holds P ss.tail := fun s hs => h s (List.mem_of_mem_tail hs)

lemma of_find? (h : Holds P ss) {name : String} {d : Datum} {f : Bool}
    (hfind : find? ss name = some (.constant d f)) : P d := by
  obtain ⟨s, hs, hb⟩ := exists_mem_of_find? hfind
  exact h s hs (Scope.mem_bindings_of_find? hb)

/-- A name may be bound to anything stored and to data with the property. -/
lemma bind (h : Holds P (s :: ss)) {name : String} {b : Binding}
    (hb : ∀ d f, b = .constant d f → P d) : Holds P (s.bind name b :: ss) := by
  obtain ⟨hhead, htail⟩ := cons_iff.1 h
  refine cons_iff.2 ⟨fun hmem => ?_, htail⟩
  rcases List.mem_cons.1 hmem with heq | hmem
  · exact hb _ _ (Prod.mk.inj heq).2.symm
  · exact hhead hmem

lemma bind_constant (h : Holds P (s :: ss)) (name : String) {d : Datum} (hd : P d) (f : Bool) :
    Holds P (s.bind name (.constant d f) :: ss) :=
  h.bind fun _ _ heq => by cases heq; exact hd

lemma bind_stored (h : Holds P (s :: ss)) (name : String) (t : ValueType) (slot : UInt8)
    (f : Bool) : Holds P (s.bind name (.stored t slot f) :: ss) :=
  h.bind fun _ _ heq => by cases heq

lemma define (h : Holds P ss) {name : Ident} {b : Binding} {ss' : Scopes}
    (hb : ∀ d f, b = .constant d f → P d) (hdef : Scopes.define ss name b = .ok ss') :
    Holds P ss' := by
  obtain ⟨s', hs', rfl⟩ := Scopes.define_eq_ok hdef
  obtain ⟨-, -, rfl⟩ := Scope.define_eq_ok_iff.1 hs'
  have hhead : Holds P (ss.headD {} :: ss.tail) := by
    cases ss with
    | nil => exact nil.open_empty rfl
    | cons s outer => exact h
  exact hhead.bind hb

lemma replace (h : Holds P ss) {name : String} {b : Binding}
    (hb : ∀ d f, b = .constant d f → P d) : Holds P (Scopes.replace name b ss) := by
  induction ss with
  | nil => exact h
  | cons s ss ih =>
    obtain ⟨hhead, htail⟩ := cons_iff.1 h
    unfold Scopes.replace
    split
    · refine cons_iff.2 ⟨fun hmem => ?_, htail⟩
      obtain ⟨⟨n, old⟩, hold, heq⟩ := List.mem_map.1 hmem
      simp only at heq
      split at heq
      · exact hb _ _ (Prod.mk.inj heq).2
      · cases heq
        exact hhead hold
    · exact cons_iff.2 ⟨hhead, ih htail⟩

end Scopes.Holds

/-- All builtins are standard, and a closed property holds of all data that functions write. -/
structure Job.Preserves (job : Job) (P : Datum → Prop) : Prop where
  standard : job.builtins = .standard
  closed : Datum.Closed P
  literals : ∀ g ∈ job.file.functions, ∀ d ∈ Stmt.literalsAll g.body, P d

/-! ## Evaluation -/

lemma Scope.isFault_of_define {s : Scope} {name : Ident} {b : Binding} {p : Problem}
    (h : s.define name b = .error p) : p.IsFault := by
  rw [define_eq] at h
  split at h
  · cases h
    trivial
  · split at h
    · cases h
      trivial
    · cases h

lemma Scopes.isFault_of_define {ss : Scopes} {name : Ident} {b : Binding} {p : Problem}
    (h : Scopes.define ss name b = .error p) : p.IsFault := by
  rw [define_eq_map] at h
  cases hs : (ss.headD {}).define name b with
  | error q =>
    rw [hs] at h
    cases h
    exact Scope.isFault_of_define hs
  | ok s' =>
    rw [hs] at h
    cases h

lemma Scopes.isFault_of_lookup {ss : Scopes} {name : Ident} {p : Problem}
    (h : ss.lookup name = .error p) : p.IsFault := by
  unfold lookup at h
  split at h
  · cases h
  · cases h
    trivial

/-- Why an assignment fails: the program is wrong, or a slot is needed and there is none. -/
lemma Binding.assign_eq_error {b : Binding} {name : Ident} {v : Value}
    {fresh : Except Problem UInt8} {p : Problem} (h : b.assign name v fresh = .error p) :
    p.IsFault ∨ (∃ d' t, b = .constant d' false ∧ v = .runtime t ∧ fresh = .error p) := by
  unfold assign at h
  split at h
  · cases h
    exact .inl trivial
  · next hfinal =>
    split at h
    · cases h
      exact .inl trivial
    · cases b with
      | stored t slot f => cases h
      | constant d' f =>
        have hf : f = false := by simpa [isFinal] using hfinal
        subst hf
        cases v with
        | known d => cases h
        | runtime t =>
          cases hfresh : fresh with
          | error q =>
            simp only [hfresh, bind, Except.bind] at h
            cases h
            exact .inr ⟨d', t, rfl, rfl, rfl⟩
          | ok slot => simp [hfresh, bind, Except.bind, pure, Except.pure] at h

namespace Scopes

variable {ss : Scopes} {name : Ident} {v : Value} {fresh : Except Problem UInt8}

lemma assign_eq_error {p : Problem} (h : assign ss name v fresh = .error p) :
    p.IsFault ∨ ∃ b, find? ss name.name = some b ∧ b.assign name v fresh = .error p := by
  unfold assign at h
  cases hb : lookup ss name with
  | error q =>
    simp only [hb, bind, Except.bind] at h
    cases h
    exact .inl (isFault_of_lookup hb)
  | ok b =>
    cases hb' : b.assign name v fresh with
    | error q =>
      simp only [hb, hb', bind, Except.bind] at h
      cases h
      exact .inr ⟨b, lookup_eq_ok_iff.1 hb, hb'⟩
    | ok r => simp [hb, hb', bind, Except.bind, pure, Except.pure] at h

end Scopes

namespace Evaluation

variable {job : Job} {entered : List String} {run : Runner job entered} {P : Datum → Prop}
  {ss : Scopes}

/-- An application of standard overloads to data. -/
lemma ensures_fold (hP : Datum.Closed P) {o : Overloads} (ho : o.Standard) {ds : List Datum}
    {span : Span} (hds : ∀ d ∈ ds, P d) :
    Ensures (OptionT.mk (o.fold ds span)) P Problem.IsFault := by
  refine ensures_mk (fun p hp => ho.isFault_of_fold hp) fun d hd => ?_
  obtain ⟨-, -, -, operation, -, hvalue⟩ := ho.fold_eq_some hd
  exact hP.fold hds hvalue

/-- Calls on data with a property have results with it. -/
def Runner.Preserves (run : Runner job entered) (P : Datum → Prop) : Prop :=
  ∀ g ds, (∀ d ∈ ds, P d) → Ensures (run g ds) P Problem.IsFault

mutual
lemma ensures_foldExpr (hjob : job.Preserves P) (hrun : run.Preserves P) (hss : ss.Holds P)
    (e : Expr) (he : ∀ d ∈ e.literals, P d) :
    Ensures (foldExpr run ss e) P Problem.IsFault := by
  match e with
  | .literal d _ =>
    rw [foldExpr]
    exact ensures_pure (he d (by simp [Expr.literals]))
  | .ref name span =>
    rw [foldExpr]
    refine ensures_lift_bind (fun p hp => Scopes.isFault_of_lookup hp) fun b hb => ?_
    cases b with
    | constant d f => exact ensures_pure (hss.of_find? (Scopes.lookup_eq_ok_iff.1 hb))
    | stored t slot f => exact ensures_failure
  | .attr _ _ _ =>
    rw [foldExpr]
    exact ensures_failure
  | .unary op operand span =>
    rw [foldExpr]
    rw [Expr.literals] at he
    refine (ensures_foldExpr hjob hrun hss operand he).bind fun a ha => ?_
    refine ensures_lift_bind (fun p hp => absurd hp (Job.not_error_of_unary hjob.standard))
      fun o ho => ?_
    exact ensures_fold hjob.closed (Job.standard_of_operator hjob.standard ho) (by simpa using ha)
  | .binary op left right span =>
    rw [foldExpr]
    rw [Expr.literals, List.forall_mem_append] at he
    refine (ensures_foldExpr hjob hrun hss left he.1).bind fun a ha => ?_
    refine (ensures_foldExpr hjob hrun hss right he.2).bind fun b hb => ?_
    refine ensures_lift_bind (fun p hp => absurd hp (Job.not_error_of_binary hjob.standard))
      fun o ho => ?_
    exact ensures_fold hjob.closed (Job.standard_of_operator hjob.standard ho) (by simp [ha, hb])
  | .call name args site span =>
    rw [foldExpr]
    rw [Expr.literals] at he
    refine ensures_lift_bind (fun p hp => Job.isFault_of_callee hp) fun callee hcallee => ?_
    cases callee with
    | builtin o =>
      have ho := Job.standard_of_callee hjob.standard hcallee
      refine ensures_lift_bind (fun p hp => Overloads.isFault_of_checkArity hp) fun _ _ => ?_
      refine (ensures_foldArgs hjob hrun hss args he).bind fun ds hds => ?_
      exact ensures_fold hjob.closed ho hds
    | function g mem =>
      refine ensures_lift_bind (fun p hp => Check.isFault_of_arguments hp) fun _ _ => ?_
      refine ensures_lift_bind (fun p hp => Job.isFault_of_enterFunction hp) fun i _ => ?_
      exact (ensures_foldArgs hjob hrun hss args he).bind fun ds hds => hrun i ds hds
  | .list items span =>
    rw [foldExpr]
    rw [Expr.literals] at he
    exact (ensures_foldItems hjob hrun hss items he).bind fun ds hds =>
      ensures_pure (hjob.closed.list hds)

lemma ensures_foldArgs (hjob : job.Preserves P) (hrun : run.Preserves P) (hss : ss.Holds P)
    (es : List Expr) (he : ∀ d ∈ Expr.literalsAll es, P d) :
    Ensures (foldArgs run ss es) (fun ds => ∀ d ∈ ds, P d) Problem.IsFault := by
  match es with
  | [] =>
    rw [foldArgs]
    exact ensures_pure (by simp)
  | e :: es =>
    rw [foldArgs]
    rw [Expr.literalsAll, List.forall_mem_append] at he
    refine (ensures_foldExpr hjob hrun hss e he.1).bind fun d hd => ?_
    exact (ensures_foldArgs hjob hrun hss es he.2).bind fun ds hds =>
      ensures_pure (by simpa [hd] using hds)

lemma ensures_foldItems (hjob : job.Preserves P) (hrun : run.Preserves P) (hss : ss.Holds P)
    (es : List Expr) (he : ∀ d ∈ Expr.literalsAll es, P d) :
    Ensures (foldItems run ss es) (fun ds => ∀ d ∈ ds, P d ∧ d.type.isList = false)
      Problem.IsFault := by
  match es with
  | [] =>
    rw [foldItems]
    exact ensures_pure (by simp)
  | e :: es =>
    rw [foldItems]
    rw [Expr.literalsAll, List.forall_mem_append] at he
    refine (ensures_foldExpr hjob hrun hss e he.1).bind fun d hd => ?_
    refine ensures_lift_bind (fun p hp => Check.isFault_of_listItem hp) fun _ hitem => ?_
    have hscalar := Check.listItem_eq_ok_iff.1 hitem
    exact (ensures_foldItems hjob hrun hss es he.2).bind fun ds hds =>
      ensures_pure (by simpa [hd, hscalar] using hds)
end

/-! ## Statements -/

/-- A condition that has the type of a boolean is one. -/
lemma exists_bool_of_compatible {d : Datum} (h : d.type.compatible (.of .bool) = true) :
    ∃ b, d = .bool b := by
  have htype : d.type = .of .bool := by
    rw [ValueType.compatible_comm] at h
    exact Datum.type_eq_of_compatible h
  cases d with
  | bool b => exact ⟨b, rfl⟩
  | list items =>
    have hlist := congrArg ValueType.isList htype
    cases items <;> simp [Datum.type, ValueType.anyList, ValueType.list, ValueType.asList,
      ValueType.of, ValueType.scalar] at hlist
  | none => exact absurd htype (by decide)
  | number n => exact absurd (show ValueType.of .num = .of .bool from htype) (by decide)
  | str s => exact absurd (show ValueType.of .str = .of .bool from htype) (by decide)
  | kind s => exact absurd (show ValueType.of .kind = .of .bool from htype) (by decide)

lemma ensures_foldCond (hjob : job.Preserves P) (hrun : run.Preserves P) (hss : ss.Holds P)
    (e : Expr) (he : ∀ d ∈ e.literals, P d) :
    Ensures (foldCond run ss e) (fun _ => True) Problem.IsFault := by
  unfold foldCond
  refine (ensures_foldExpr hjob hrun hss e he).bind fun d _ => ?_
  refine ensures_lift_bind (fun p hp => Check.isFault_of_compatible hp) fun _ hbool => ?_
  obtain ⟨b, rfl⟩ := exists_bool_of_compatible (Check.compatible_eq_ok_iff.1 hbool)
  exact ensures_pure trivial

/-- What holds after statements: of the value they return, and of what is known then. -/
def After (P : Datum → Prop) (r : Flow × Scopes) : Prop :=
  (∀ d, r.1 = .returned (some d) → P d) ∧ r.2.Holds P

/-- Statements in a scope of their own. -/
lemma ensures_inner {x : Fold (Flow × Scopes)} (h : Ensures x (After P) Problem.IsFault) :
    Ensures (do
      let (flow, inner) ← x
      pure (flow, inner.tail)) (After P) Problem.IsFault :=
  h.bind fun _ hr => ensures_pure ⟨hr.1, hr.2.tail⟩

mutual
lemma ensures_foldStmt (hjob : job.Preserves P) (hrun : run.Preserves P) {ss : Scopes}
    (hss : ss.Holds P) (s : Stmt) (hs : ∀ d ∈ s.literals, P d) :
    Ensures (foldStmt run ss s) (After P) Problem.IsFault := by
  match s with
  | .block body =>
    rw [foldStmt]
    rw [Stmt.literals] at hs
    exact ensures_inner (ensures_foldStmts hjob hrun (hss.open_empty rfl) body hs)
  | .define q name value =>
    rw [foldStmt]
    rw [Stmt.literals] at hs
    refine (ensures_foldExpr hjob hrun hss value hs).bind fun d hd => ?_
    refine ensures_lift_bind (fun p hp => Scopes.isFault_of_define hp) fun ss' hdef => ?_
    exact ensures_pure ⟨nofun, hss.define (fun _ _ heq => by cases heq; exact hd) hdef⟩
  | .assign name value =>
    rw [foldStmt]
    rw [Stmt.literals] at hs
    refine (ensures_foldExpr hjob hrun hss value hs).bind fun d hd => ?_
    refine ensures_lift_bind (fun p hp => ?_) fun r hr => ?_
    · rcases Scopes.assign_eq_error hp with hfault | ⟨b, -, hb⟩
      · exact hfault
      · exact (Binding.assign_eq_error hb).resolve_right (by rintro ⟨_, _, -, hv, -⟩; cases hv)
    · obtain ⟨b, b', hfind, hb', hss'⟩ := Scopes.assign_eq_ok hr
      refine ensures_pure ⟨nofun, hss' ▸ hss.replace fun c f hc => ?_⟩
      obtain ⟨-, -, hstored | ⟨_, _, _, -, hv, -, rfl⟩ | hwidened⟩ := Binding.assign_eq_ok hb'
      · obtain ⟨t, slot, _, rfl, -, rfl⟩ := hstored
        cases hc
      · cases hv
        cases hc
        exact hd
      · obtain ⟨_, _, _, _, -, hv, -⟩ := hwidened
        cases hv
  | .ret none =>
    rw [foldStmt]
    exact ensures_pure ⟨nofun, hss⟩
  | .ret (some value) =>
    rw [foldStmt]
    rw [Stmt.literals] at hs
    refine (ensures_foldExpr hjob hrun hss value hs).bind fun d hd => ?_
    exact ensures_pure ⟨fun _ heq => by cases heq; exact hd, hss⟩
  | .ifThen cond yes =>
    rw [foldStmt]
    rw [Stmt.literals, List.forall_mem_append] at hs
    refine (ensures_foldCond hjob hrun hss cond hs.1).bind fun b _ => ?_
    cases b with
    | true => exact ensures_inner (ensures_foldStmts hjob hrun (hss.open_empty rfl) yes hs.2)
    | false => exact ensures_pure ⟨nofun, hss⟩
  | .ifElse cond yes no =>
    rw [foldStmt]
    rw [Stmt.literals, List.forall_mem_append, List.forall_mem_append] at hs
    refine (ensures_foldCond hjob hrun hss cond hs.1).bind fun b _ => ?_
    cases b with
    | true => exact ensures_inner (ensures_foldStmts hjob hrun (hss.open_empty rfl) yes hs.2.1)
    | false => exact ensures_inner (ensures_foldStmts hjob hrun (hss.open_empty rfl) no hs.2.2)
  | .loop _ _ _ =>
    rw [foldStmt]
    exact ensures_failure
  | .fail message span =>
    rw [foldStmt]
    rw [Stmt.literals] at hs
    refine (ensures_foldExpr hjob hrun hss message hs).bind fun d _ => ?_
    cases d <;> exact ensures_throw trivial
  | .expr value =>
    rw [foldStmt]
    rw [Stmt.literals] at hs
    exact (ensures_foldExpr hjob hrun hss value hs).bind fun d _ => ensures_pure ⟨nofun, hss⟩

lemma ensures_foldStmts (hjob : job.Preserves P) (hrun : run.Preserves P) {ss : Scopes}
    (hss : ss.Holds P) (body : List Stmt) (hbody : ∀ d ∈ Stmt.literalsAll body, P d) :
    Ensures (foldStmts run ss body) (After P) Problem.IsFault := by
  match body with
  | [] =>
    rw [foldStmts]
    exact ensures_pure ⟨nofun, hss⟩
  | s :: rest =>
    rw [foldStmts]
    rw [Stmt.literalsAll, List.forall_mem_append] at hbody
    refine (ensures_foldStmt hjob hrun hss s hbody.1).bind fun r hr => ?_
    obtain ⟨flow, ss'⟩ := r
    cases flow with
    | through => exact ensures_foldStmts hjob hrun hr.2 rest hbody.2
    | returned v => exact ensures_pure hr
end

/-! ## Calls -/

lemma ensures_bindAll {scope : Scope} (hscope : Scopes.Holds P [scope]) (ps : List Ident)
    {ds : List Datum} (hds : ∀ d ∈ ds, P d) :
    (∀ p, scope.bindAll ps ds = .error p → p.IsFault) ∧
      ∀ scope', scope.bindAll ps ds = .ok scope' → Scopes.Holds P [scope'] := by
  induction ps generalizing scope ds with
  | nil =>
    refine ⟨fun p h => (by cases h), fun scope' h => ?_⟩
    cases h
    exact hscope
  | cons p ps ih =>
    cases ds with
    | nil =>
      refine ⟨fun p h => (by cases h), fun scope' h => ?_⟩
      cases h
      exact hscope
    | cons d ds =>
      obtain ⟨hd, hds⟩ := List.forall_mem_cons.1 hds
      unfold Scope.bindAll
      cases hdef : scope.define p (.constant d true) with
      | error q =>
        refine ⟨fun q' h => ?_, fun scope' h => (by cases h)⟩
        cases h
        exact Scope.isFault_of_define hdef
      | ok scope₁ =>
        obtain ⟨-, -, rfl⟩ := Scope.define_eq_ok_iff.1 hdef
        exact ih (hscope.bind fun _ _ heq => by cases heq; exact hd) hds

/-- Calls preserve a closed property. -/
lemma preserves_foldCall (hjob : job.Preserves P) (entered : List String) :
    Runner.Preserves (foldCall job entered) P := by
  intro g ds hds
  rw [foldCall]
  have hempty : Scopes.Holds P [({} : Scope)] := Scopes.Holds.nil.open_empty rfl
  obtain ⟨herr, hok⟩ := ensures_bindAll hempty g.definition.params hds
  refine ensures_lift_bind herr fun scope hscope => ?_
  have hrun := preserves_foldCall hjob (g.name :: entered)
  refine (ensures_foldStmts hjob hrun (hok scope hscope) g.definition.body
    (hjob.literals _ g.mem)).bind fun r hr => ?_
  obtain ⟨flow, ss⟩ := r
  cases flow with
  | through => exact ensures_failure
  | returned value =>
    cases value with
    | none => exact ensures_failure
    | some d => exact ensures_pure (hr.1 d rfl)
termination_by Nesting.remaining job.functionNames entered
decreasing_by exact Inlinable.remaining_lt _

end Evaluation

/-- **Evaluation preserves closed properties of data**, and the problems it ends in are the
program's mistakes. -/
theorem Job.evaluate_ensures {job : Job} {P : Datum → Prop} (hjob : job.Preserves P) {ss : Scopes}
    (hss : ss.Holds P) (entered : List String) {e : Expr} (he : ∀ d ∈ e.literals, P d) :
    (∀ d, job.evaluate ss entered e = .ok (some d) → P d) ∧
      ∀ p, job.evaluate ss entered e = .error p → p.IsFault := by
  have hfold := Evaluation.ensures_foldExpr hjob
    (Evaluation.preserves_foldCall hjob entered) hss e he
  exact ⟨fun d hd => hfold.of_yields hd, fun p hp => hfold.of_error hp⟩

end Arbor
