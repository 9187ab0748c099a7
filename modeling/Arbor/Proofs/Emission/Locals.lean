import Arbor.Proofs.Emission.Effect

/-!
# Locals of derivations

Emission hands out slots for what a mapping has to keep: variables, parameters whose arguments are
not known, the item of a loop and the iterator it comes from.  `Emits.Locals h ls` says that the
derivation `h` makes the locals `ls`, in this order.  Whatever makes a local takes the next slot for
it, and slots are taken for nothing else, so the slots of locals are consecutive.

* `Emits.exists_locals`: every derivation makes locals.
* `Emits.Locals.numbered`: their slots are those that have been handed out.
-/

namespace Arbor

/-- What a slot is handed out for. -/
inductive Holder where
  /-- The node that a mapping runs on. -/
  | root
  /-- A name that is defined, final or not, but not as a constant. -/
  | variable (name : String)
  /-- A parameter of a function that is inlined, if its argument is not known. -/
  | parameter (name : String)
  /-- The iterator of a loop, which has no name. -/
  | iterator
  /-- The item of a loop. -/
  | item (name : String)
deriving DecidableEq, Repr

/-- What has been bound to a slot. -/
structure Local where
  holder : Holder
  slot : UInt8
deriving DecidableEq, Repr

/-- A piece in which nothing can be bound to a slot: data, reads, constants and empty lists. -/
def Piece.IsAtom : Piece → Prop
  | .scalar _ | .appended _ | .datum _ | .value _ (.known _) => True
  | .expr (.ref _ _) _ | .expr (.attr _ _ _) _ => True
  | .args [] _ | .items [] _ | .stmts [] _ => True
  | .stmt (.define .const _ _) _ | .stmt (.ret none) _ => True
  | _ => False

/-! ## The locals of a derivation -/

/-- A derivation makes locals, in the order in which they are made.  Most rules make those of their
parts; parameters, definitions and loops make locals of their own. -/
inductive Emits.Locals {job : Job} : ∀ {entered : List String} {piece : Piece} {σ σ' : EmitState},
    Emits job entered piece σ σ' → List Local → Prop
  | atom {entered : List String} {piece : Piece} {σ σ' : EmitState} (hatom : piece.IsAtom)
      (h : Emits job entered piece σ σ') : Locals h []
  | emitted {entered : List String} {σ σ' : EmitState} {e : Expr} {t : ValueType} {ls : List Local}
      (heval : job.evaluate σ.scopes entered e = .ok none) {he : Emits job entered (.expr e t) σ σ'}
      (h : Locals he ls) : Locals (.emitted heval he) ls
  | application {entered : List String} {σ σ₁ : EmitState} {e : Expr} {o : Overloads}
      {es : List Expr} {types : List ValueType} {t : ValueType} {op : Opcode} {ls : List Local}
      (happ : Applies job e o es) {hes : Emits job entered (.args es types) σ σ₁}
      (hinfer : o.infer types e.site = .ok (t, op)) (h : Locals hes ls) :
      Locals (.application happ hes hinfer) ls
  | inlined {entered : List String} {σ σ₁ σ' : EmitState} {name : Ident} {args : List Expr}
      {site span : Span} {d : FunctionDef} {mem : d ∈ job.file.functions} {scope : Scope}
      {t : ValueType} {ls ls' : List Local} (hcallee : job.callee name = .ok (.function d mem))
      (hcount : args.length = d.params.length) (hnew : d.ident.name ∉ entered)
      {hparams : Emits job entered
        (.params { role := some (.function σ.frames.length) } d.params args scope) σ σ₁}
      {hcall : Emits job entered (.call d scope t) σ₁ σ'} (h : Locals hparams ls)
      (h' : Locals hcall ls') :
      Locals (.inlined hcallee hcount hnew hparams hcall :
        Emits job entered (.expr (.call name args site span) t) σ σ') (ls ++ ls')
  | list {entered : List String} {σ σ' : EmitState} {es : List Expr} {span : Span}
      {types : List ValueType} {ls : List Local}
      {hes : Emits job entered (.items es types) (σ.add .list) σ'} (h : Locals hes ls) :
      Locals (.list hes : Emits job entered (.expr (.list es span) _) σ σ') ls
  | argsCons {entered : List String} {σ σ₁ σ' : EmitState} {e : Expr} {es : List Expr} {v : Value}
      {types : List ValueType} {ls ls' : List Local} {he : Emits job entered (.value e v) σ σ₁}
      {hes : Emits job entered (.args es types) σ₁ σ'} (h : Locals he ls) (h' : Locals hes ls') :
      Locals (.argsCons he hes) (ls ++ ls')
  | itemsCons {entered : List String} {σ σ₁ σ' : EmitState} {e : Expr} {es : List Expr} {v : Value}
      {types : List ValueType} {ls ls' : List Local} {he : Emits job entered (.value e v) σ σ₁}
      (hitem : v.type.isList = false)
      {hes : Emits job entered (.items es types) (σ₁.add .append) σ'} (h : Locals he ls)
      (h' : Locals hes ls') : Locals (.itemsCons he hitem hes) (ls ++ ls')
  | paramsNil {entered : List String} {σ : EmitState} {scope : Scope} {ps : List Ident}
      {es : List Expr} (hend : ps = [] ∨ es = []) :
      Locals (.paramsNil hend : Emits job entered (.params scope ps es scope) σ σ) []
  | paramsKnown {entered : List String} {σ σ' : EmitState} {scope scope₁ scope' : Scope}
      {p : Ident} {ps : List Ident} {e : Expr} {es : List Expr} {d : Datum} {ls : List Local}
      (heval : job.evaluate σ.scopes entered e = .ok (some d))
      (hdef : scope.define p (.constant d true) = .ok scope₁)
      {hes : Emits job entered (.params scope₁ ps es scope') σ σ'} (h : Locals hes ls) :
      Locals (.paramsKnown heval hdef hes) ls
  | paramsStored {entered : List String} {σ σ₁ σ' : EmitState} {scope scope₁ scope' : Scope}
      {p : Ident} {ps : List Ident} {e : Expr} {es : List Expr} {t : ValueType} {slot : UInt8}
      {ls ls' : List Local} (heval : job.evaluate σ.scopes entered e = .ok none)
      {he : Emits job entered (.expr e t) σ σ₁} (hslot : σ₁.slots.fresh = .ok slot)
      (hdef : scope.define p (.stored t slot true) = .ok scope₁)
      {hes : Emits job entered (.params scope₁ ps es scope') (σ₁.advance.add .store slot) σ'}
      (h : Locals he ls) (h' : Locals hes ls') :
      Locals (.paramsStored heval he hslot hdef hes) (ls ++ ⟨.parameter p.name, slot⟩ :: ls')
  | call {entered : List String} {σ σ₁ σ' : EmitState} {d : FunctionDef} {scope : Scope}
      {returns : Bool} {frame : Frame} {ls : List Local} (hmem : d ∈ job.file.functions)
      (hnew : d.ident.name ∉ entered)
      {hbody : Emits job (d.ident.name :: entered) (.stmts d.body returns)
        (σ.openFrame d.ident.name scope) σ₁}
      (hframe : σ₁.frames = σ.frames ++ [frame])
      (hpatch : Emit.patchAll frame.exits
        ((σ₁.leaveFrame σ.scopes σ.frames).endBody returns) = .ok () σ')
      (h : Locals hbody ls) : Locals (.call hmem hnew hbody hframe hpatch) ls
  | block {entered : List String} {σ σ' : EmitState} {body : List Stmt} {returns : Bool}
      {ls : List Local} {hbody : Emits job entered (.stmts body returns) (σ.enter {}) σ'}
      (h : Locals hbody ls) : Locals (.block hbody) ls
  | define {entered : List String} {σ σ₁ : EmitState} {q : Qualifier} {name : Ident} {e : Expr}
      {v : Value} {slot : UInt8} {scope scope' : Scope} {outer : Scopes} {ls : List Local}
      (hq : q ≠ .const) {he : Emits job entered (.value e v) σ σ₁}
      (hslot : σ₁.slots.fresh = .ok slot) (hscopes : σ₁.scopes = scope :: outer)
      (hdef : scope.define name (.stored v.type slot q.isFinal) = .ok scope') (h : Locals he ls) :
      Locals (.define hq he hslot hscopes hdef) (ls ++ [⟨.variable name.name, slot⟩])
  | assign {entered : List String} {σ σ₁ : EmitState} {name : Ident} {e : Expr} {v : Value}
      {t : ValueType} {slot : UInt8} {ls : List Local} {he : Emits job entered (.value e v) σ σ₁}
      (hfind : Scopes.find? σ₁.scopes name.name = some (.stored t slot false))
      (hfits : t.compatible v.type = true) (h : Locals he ls) : Locals (.assign he hfind hfits) ls
  | returnValue {entered : List String} {σ σ₁ : EmitState} {e : Expr} {v : Value}
      {fs : List Frame} {top : Frame} {ls : List Local} {he : Emits job entered (.value e v) σ σ₁}
      (hframes : σ₁.frames = fs ++ [top]) (h : Locals he ls) : Locals (.returnValue he hframes) ls
  | ifThen {entered : List String} {σ σ₁ σ₂ : EmitState} {cond : Expr} {v : Value}
      {yes : List Stmt} {returns : Bool} {c : Code} {ls ls' : List Local}
      {hcond : Emits job entered (.value cond v) σ σ₁}
      (hbool : v.type.compatible (.of .bool) = true)
      {hyes : Emits job entered (.stmts yes returns) ((σ₁.hold .jumpUnless).enter {}) σ₂}
      (hpatch : σ₂.code.patch ⟨σ₁.code.size⟩ = .ok c) (h : Locals hcond ls) (h' : Locals hyes ls') :
      Locals (.ifThen hcond hbool hyes hpatch) (ls ++ ls')
  | ifElse {entered : List String} {σ σ₁ σ₂ σ₃ : EmitState} {cond : Expr} {v : Value}
      {yes no : List Stmt} {yesReturns noReturns : Bool} {c c' : Code} {ls ls' ls'' : List Local}
      {hcond : Emits job entered (.value cond v) σ σ₁}
      (hbool : v.type.compatible (.of .bool) = true)
      {hyes : Emits job entered (.stmts yes yesReturns) ((σ₁.hold .jumpUnless).enter {}) σ₂}
      (hskip : (σ₂.hold .jump).code.patch ⟨σ₁.code.size⟩ = .ok c)
      {hno : Emits job entered (.stmts no noReturns) ({ σ₂.exit with code := c }.enter {}) σ₃}
      (hdone : σ₃.code.patch ⟨σ₂.code.size⟩ = .ok c') (h : Locals hcond ls) (h' : Locals hyes ls')
      (h'' : Locals hno ls'') :
      Locals (.ifElse hcond hbool hyes hskip hno hdone) (ls ++ (ls' ++ ls''))
  | loop {entered : List String} {σ σ₁ σ₂ : EmitState} {name : Ident} {items : Expr}
      {body : List Stmt} {v : Value} {iter item : UInt8} {scope : Scope} {returns : Bool}
      {c c' : Code} {ls ls' : List Local} {hitems : Emits job entered (.value items v) σ σ₁}
      (hlist : v.type.compatible .anyList = true) (hiter : σ₁.slots.fresh = .ok iter)
      (hitem : σ₁.slots.advance.fresh = .ok item)
      (hdef : Scope.define { role := some .loop } name (.stored v.type.asScalar item true)
        = .ok scope)
      {hbody : Emits job entered (.stmts body returns) (σ₁.loopBody iter item scope) σ₂}
      (hback : σ₂.code.jumpBack ⟨σ₁.code.size + 2⟩ = .ok c)
      (hexit : c.patch ⟨σ₁.code.size + 3⟩ = .ok c') (h : Locals hitems ls)
      (h' : Locals hbody ls') :
      Locals (.loop hitems hlist hiter hitem hdef hbody hback hexit)
        (ls ++ ⟨.iterator, iter⟩ :: ⟨.item name.name, item⟩ :: ls')
  | fail {entered : List String} {σ σ₁ : EmitState} {message : Expr} {span : Span} {v : Value}
      {ls : List Local} {hmessage : Emits job entered (.value message v) σ σ₁}
      (hstr : v.type.compatible (.of .str) = true) (h : Locals hmessage ls) :
      Locals (.fail hmessage hstr : Emits job entered (.stmt (.fail message span) true) σ _) ls
  | exprKnown {entered : List String} {σ : EmitState} {e : Expr} {d : Datum}
      (heval : job.evaluate σ.scopes entered e = .ok (some d)) : Locals (.exprKnown heval) []
  | exprDropped {entered : List String} {σ σ₁ : EmitState} {e : Expr} {t : ValueType}
      {ls : List Local} (heval : job.evaluate σ.scopes entered e = .ok none)
      {he : Emits job entered (.expr e t) σ σ₁} (h : Locals he ls) :
      Locals (.exprDropped heval he) ls
  | stmtsCons {entered : List String} {σ σ₁ σ' : EmitState} {s : Stmt} {ss : List Stmt}
      {returns rest : Bool} {ls ls' : List Local} {hs : Emits job entered (.stmt s returns) σ σ₁}
      {hss : Emits job entered (.stmts ss rest) σ₁ σ'} (h : Locals hs ls) (h' : Locals hss ls') :
      Locals (.stmtsCons hs hss) (ls ++ ls')

variable {job : Job} {entered : List String} {piece : Piece} {σ σ' : EmitState}

/-- Every derivation makes locals. -/
lemma Emits.exists_locals (h : Emits job entered piece σ σ') : ∃ ls, h.Locals ls := by
  induction h with
  | emitted heval _ ih =>
    obtain ⟨ls, h⟩ := ih
    exact ⟨ls, .emitted heval h⟩
  | application happ _ hinfer ih =>
    obtain ⟨ls, h⟩ := ih
    exact ⟨ls, .application happ hinfer h⟩
  | inlined hcallee hcount hnew _ _ ihparams ihcall =>
    obtain ⟨ls, h⟩ := ihparams
    obtain ⟨ls', h'⟩ := ihcall
    exact ⟨_, .inlined hcallee hcount hnew h h'⟩
  | list _ ih =>
    obtain ⟨ls, h⟩ := ih
    exact ⟨ls, .list h⟩
  | argsCons _ _ ih ih' =>
    obtain ⟨ls, h⟩ := ih
    obtain ⟨ls', h'⟩ := ih'
    exact ⟨_, .argsCons h h'⟩
  | itemsCons _ hitem _ ih ih' =>
    obtain ⟨ls, h⟩ := ih
    obtain ⟨ls', h'⟩ := ih'
    exact ⟨_, .itemsCons hitem h h'⟩
  | paramsNil hend => exact ⟨[], .paramsNil hend⟩
  | paramsKnown heval hdef _ ih =>
    obtain ⟨ls, h⟩ := ih
    exact ⟨ls, .paramsKnown heval hdef h⟩
  | paramsStored heval _ hslot hdef _ ih ih' =>
    obtain ⟨ls, h⟩ := ih
    obtain ⟨ls', h'⟩ := ih'
    exact ⟨_, .paramsStored heval hslot hdef h h'⟩
  | call hmem hnew _ hframe hpatch ih =>
    obtain ⟨ls, h⟩ := ih
    exact ⟨ls, .call hmem hnew hframe hpatch h⟩
  | block _ ih =>
    obtain ⟨ls, h⟩ := ih
    exact ⟨ls, .block h⟩
  | define hq _ hslot hscopes hdef ih =>
    obtain ⟨ls, h⟩ := ih
    exact ⟨_, .define hq hslot hscopes hdef h⟩
  | assign _ hfind hfits ih =>
    obtain ⟨ls, h⟩ := ih
    exact ⟨ls, .assign hfind hfits h⟩
  | returnValue _ hframes ih =>
    obtain ⟨ls, h⟩ := ih
    exact ⟨ls, .returnValue hframes h⟩
  | ifThen _ hbool _ hpatch ih ih' =>
    obtain ⟨ls, h⟩ := ih
    obtain ⟨ls', h'⟩ := ih'
    exact ⟨_, .ifThen hbool hpatch h h'⟩
  | ifElse _ hbool _ hskip _ hdone ih ih' ih'' =>
    obtain ⟨ls, h⟩ := ih
    obtain ⟨ls', h'⟩ := ih'
    obtain ⟨ls'', h''⟩ := ih''
    exact ⟨_, .ifElse hbool hskip hdone h h' h''⟩
  | loop _ hlist hiter hitem hdef _ hback hexit ih ih' =>
    obtain ⟨ls, h⟩ := ih
    obtain ⟨ls', h'⟩ := ih'
    exact ⟨_, .loop hlist hiter hitem hdef hback hexit h h'⟩
  | fail _ hstr ih =>
    obtain ⟨ls, h⟩ := ih
    exact ⟨ls, .fail hstr h⟩
  | exprKnown heval => exact ⟨[], .exprKnown heval⟩
  | exprDropped heval _ ih =>
    obtain ⟨ls, h⟩ := ih
    exact ⟨ls, .exprDropped heval h⟩
  | stmtsCons _ _ ih ih' =>
    obtain ⟨ls, h⟩ := ih
    obtain ⟨ls', h'⟩ := ih'
    exact ⟨_, .stmtsCons h h'⟩
  | _ =>
    refine ⟨[], .atom ?_ _⟩
    trivial

/-! ## Slots -/

/-- The slots of locals are consecutive numbers from `n` on, and `n'` is the next one. -/
structure Local.Numbered (n : Nat) (ls : List Local) (n' : Nat) : Prop where
  slots : ls.map (·.slot.toNat) = List.range' n ls.length
  next : n' = n + ls.length

namespace Local.Numbered

variable {n n₁ n' : Nat} {ls ls' : List Local}

lemma nil (n : Nat) : Numbered n [] n := ⟨rfl, rfl⟩

lemma append (h : Numbered n ls n₁) (h' : Numbered n₁ ls' n') : Numbered n (ls ++ ls') n' where
  slots := by
    rw [List.map_append, h.slots, h'.slots, h.next, List.length_append, List.range'_append_1]
  next := by
    rw [h'.next, h.next, List.length_append]
    omega

/-- A local that takes the next slot. -/
lemma fresh {s : Slots} {slot : UInt8} (h : s.fresh = .ok slot) (holder : Holder) :
    Numbered s.next [⟨holder, slot⟩] s.advance.next where
  slots := by simp [Slots.toNat_of_fresh h]
  next := rfl

end Local.Numbered

/-- Patching jumps does not touch slots. -/
lemma Emit.slots_of_patchAll {as : List Anchor} (h : patchAll as σ = .ok () σ') :
    σ'.slots = σ.slots := by
  induction as generalizing σ with
  | nil =>
    cases h
    rfl
  | cons a as ih =>
    obtain ⟨c, -, hrest⟩ := patchAll_cons_eq_ok h
    have hslots := ih hrest
    exact hslots

/-- Where nothing can be bound, no slot is handed out. -/
lemma Emits.slots_of_isAtom (h : Emits job entered piece σ σ') (hatom : piece.IsAtom) :
    σ'.slots = σ.slots := by
  induction h with
  | appendedCons _ _ ih ih' => exact (ih' trivial).trans (ih trivial)
  | scalar _ ih => exact ih trivial
  | listDatum _ ih => exact ih trivial
  | folded _ _ ih => exact ih trivial
  | application happ _ _ _ => cases happ <;> exact hatom.elim
  | @define _ _ _ q _ _ _ _ _ _ _ hq _ _ _ _ _ =>
    cases q with
    | const => exact absurd rfl hq
    | var => exact hatom.elim
    | final => exact hatom.elim
  | immediate _ | pooled _ _ _ | appendedNil | stored _ | attr _ _ _ | argsNil | itemsNil
  | paramsNil _ | constant _ _ _ | returnNone _ | stmtsNil | exprKnown _ => rfl
  | _ => exact hatom.elim

open Local.Numbered in
/-- **Locals take consecutive slots.**  Those that a derivation makes have the slots that were
handed out by it, in order. -/
theorem Emits.Locals.numbered {h : Emits job entered piece σ σ'} {ls : List Local}
    (hlocals : h.Locals ls) : Local.Numbered σ.slots.next ls σ'.slots.next := by
  induction hlocals with
  | atom hatom h => exact h.slots_of_isAtom hatom ▸ nil _
  | emitted _ _ ih => exact ih
  | application _ _ _ ih => exact ih
  | inlined _ _ _ _ _ ih ih' => exact ih.append ih'
  | list _ ih => exact ih
  | argsCons _ _ ih ih' => exact ih.append ih'
  | itemsCons _ _ _ ih ih' => exact ih.append ih'
  | paramsNil _ => exact nil _
  | paramsKnown _ _ _ ih => exact ih
  | paramsStored _ hslot _ _ _ ih ih' => exact ih.append ((fresh hslot _).append ih')
  | @call _ _ _ _ _ _ returns _ _ _ _ _ _ hpatch _ ih =>
    rw [Emit.slots_of_patchAll hpatch]
    cases returns <;> exact ih
  | block _ ih => exact ih
  | define _ hslot _ _ _ ih => exact ih.append (fresh hslot _)
  | assign _ _ _ ih => exact ih
  | returnValue _ _ ih => exact ih
  | ifThen _ _ _ _ ih ih' => exact ih.append ih'
  | ifElse _ _ _ _ _ _ ih ih' ih'' => exact ih.append (ih'.append ih'')
  | loop _ hiter hitem _ _ _ _ _ ih ih' =>
    exact ih.append ((fresh hiter _).append ((fresh hitem _).append ih'))
  | fail _ _ ih => exact ih
  | exprKnown _ => exact nil _
  | exprDropped _ _ ih => exact ih
  | stmtsCons _ _ ih ih' => exact ih.append ih'

end Arbor
