import Arbor.Proofs.Builtin.Inference
import Arbor.Proofs.Emission.Simulation
import Arbor.Proofs.Scope.Admission

/-!
# Static types cover values

Emission knows of a value its static type.  When data take the place of what is stored, expressions
evaluate to data, and one asks whether the static type covers them.  Two things stand in the way.
Where a body returns both lists and scalars, the joined type is a type of lists.  And types are
compared by overlap, so a list that is assigned to a variable may share a tag with the list that it
replaces, but none with the type of the variable.

* `Note`: the assignments and joins that emission meets on the way to a value (`Meets`).
* `Coverage C A`: what a relation `C` between data and types needs, where all notes satisfy `A`.
* `coverage_bounds`, `coverage_tags`, `coverage_shape`: the bounds that always hold, and what they
  leave open for lists and for scalars.
* `Emits.covered`: the induction on derivations.
-/

namespace Arbor

open Evaluation Fold

/-! ## Notes -/

/-- What becomes of types on the way to a value. -/
inductive Note where
  /-- A value is assigned to a variable. -/
  | assigned (declared value : ValueType)
  /-- A body returns values of several types, which are joined. -/
  | returned (types : List ValueType)

/-- A list that is assigned has no other tags than the variable. -/
def Note.KeepsTags : Note → Prop
  | .assigned declared value => declared.isList = true →
    ∀ x, value.tags.contains x = true → declared.tags.contains x = true
  | .returned _ => True

/-- Lists and scalars are not joined, apart from types that no value has. -/
def Note.KeepsShape : Note → Prop
  | .assigned _ _ => True
  | .returned types => ∀ t ∈ types, t.isVoid = false → t.isList = (ValueType.joinAll types).isList

/-- Emitting a piece meets a note on the way to its value.  Conditions, loops and values that are
dropped are passed over: no value that is known in the end comes from there. -/
inductive Meets (job : Job) : List String → Piece → EmitState → Note → Prop
  | emitted {entered : List String} {σ : EmitState} {n : Note} {e : Expr} {t : ValueType}
      (heval : job.evaluate σ.scopes entered e = .ok none)
      (h : Meets job entered (.expr e t) σ n) : Meets job entered (.value e (.runtime t)) σ n
  | application {entered : List String} {σ : EmitState} {n : Note} {e : Expr} {o : Overloads}
      {es : List Expr} {types : List ValueType} {t : ValueType} (happ : Applies job e o es)
      (h : Meets job entered (.args es types) σ n) : Meets job entered (.expr e t) σ n
  | argument {entered : List String} {σ : EmitState} {n : Note} {name : Ident} {args : List Expr}
      {site span : Span} {d : FunctionDef} {mem : d ∈ job.file.functions} {scope : Scope}
      {t : ValueType} (hcallee : job.callee name = .ok (.function d mem))
      (h : Meets job entered
        (.params { role := some (.function σ.frames.length) } d.params args scope) σ n) :
      Meets job entered (.expr (.call name args site span) t) σ n
  | inlined {entered : List String} {σ σ₁ : EmitState} {n : Note} {name : Ident} {args : List Expr}
      {site span : Span} {d : FunctionDef} {mem : d ∈ job.file.functions} {scope : Scope}
      {t : ValueType} (hcallee : job.callee name = .ok (.function d mem))
      (hparams : Emits job entered
        (.params { role := some (.function σ.frames.length) } d.params args scope) σ σ₁)
      (h : Meets job entered (.call d scope t) σ₁ n) :
      Meets job entered (.expr (.call name args site span) t) σ n
  | list {entered : List String} {σ : EmitState} {n : Note} {es : List Expr} {span : Span}
      {types : List ValueType} {t : ValueType}
      (h : Meets job entered (.items es types) (σ.add .list) n) :
      Meets job entered (.expr (.list es span) t) σ n
  | argsHead {entered : List String} {σ : EmitState} {n : Note} {e : Expr} {es : List Expr}
      {v : Value} {types : List ValueType} (h : Meets job entered (.value e v) σ n) :
      Meets job entered (.args (e :: es) (v.type :: types)) σ n
  | argsTail {entered : List String} {σ σ₁ : EmitState} {n : Note} {e : Expr} {es : List Expr}
      {v : Value} {types : List ValueType} (he : Emits job entered (.value e v) σ σ₁)
      (h : Meets job entered (.args es types) σ₁ n) :
      Meets job entered (.args (e :: es) (v.type :: types)) σ n
  | itemsHead {entered : List String} {σ : EmitState} {n : Note} {e : Expr} {es : List Expr}
      {v : Value} {types : List ValueType} (h : Meets job entered (.value e v) σ n) :
      Meets job entered (.items (e :: es) (v.type :: types)) σ n
  | itemsTail {entered : List String} {σ σ₁ : EmitState} {n : Note} {e : Expr} {es : List Expr}
      {v : Value} {types : List ValueType} (he : Emits job entered (.value e v) σ σ₁)
      (h : Meets job entered (.items es types) (σ₁.add .append) n) :
      Meets job entered (.items (e :: es) (v.type :: types)) σ n
  | paramsKnown {entered : List String} {σ : EmitState} {n : Note} {scope scope₁ scope' : Scope}
      {p : Ident} {ps : List Ident} {e : Expr} {es : List Expr} {d : Datum}
      (heval : job.evaluate σ.scopes entered e = .ok (some d))
      (hdef : scope.define p (.constant d true) = .ok scope₁)
      (h : Meets job entered (.params scope₁ ps es scope') σ n) :
      Meets job entered (.params scope (p :: ps) (e :: es) scope') σ n
  | paramsHead {entered : List String} {σ : EmitState} {n : Note} {scope scope' : Scope}
      {p : Ident} {ps : List Ident} {e : Expr} {es : List Expr} {t : ValueType}
      (heval : job.evaluate σ.scopes entered e = .ok none)
      (h : Meets job entered (.expr e t) σ n) :
      Meets job entered (.params scope (p :: ps) (e :: es) scope') σ n
  | paramsTail {entered : List String} {σ σ₁ : EmitState} {n : Note} {scope scope₁ scope' : Scope}
      {p : Ident} {ps : List Ident} {e : Expr} {es : List Expr} {t : ValueType} {slot : UInt8}
      (heval : job.evaluate σ.scopes entered e = .ok none)
      (he : Emits job entered (.expr e t) σ σ₁) (hslot : σ₁.slots.fresh = .ok slot)
      (hdef : scope.define p (.stored t slot true) = .ok scope₁)
      (h : Meets job entered (.params scope₁ ps es scope') (σ₁.advance.add .store slot) n) :
      Meets job entered (.params scope (p :: ps) (e :: es) scope') σ n
  | returned {entered : List String} {σ σ₁ : EmitState} {d : FunctionDef} {scope : Scope}
      {t : ValueType} {returns : Bool} {frame : Frame}
      (hbody : Emits job (d.ident.name :: entered) (.stmts d.body returns)
        (σ.openFrame d.ident.name scope) σ₁)
      (hframe : σ₁.frames = σ.frames ++ [frame]) :
      Meets job entered (.call d scope t) σ
        (.returned (if returns then frame.returns else .void :: frame.returns))
  | body {entered : List String} {σ : EmitState} {n : Note} {d : FunctionDef} {scope : Scope}
      {t : ValueType} {returns : Bool}
      (h : Meets job (d.ident.name :: entered) (.stmts d.body returns)
        (σ.openFrame d.ident.name scope) n) :
      Meets job entered (.call d scope t) σ n
  | block {entered : List String} {σ : EmitState} {n : Note} {body : List Stmt} {returns : Bool}
      (h : Meets job entered (.stmts body returns) (σ.enter {}) n) :
      Meets job entered (.stmt (.block body) returns) σ n
  | define {entered : List String} {σ : EmitState} {n : Note} {q : Qualifier} {name : Ident}
      {e : Expr} {v : Value} {returns : Bool} (h : Meets job entered (.value e v) σ n) :
      Meets job entered (.stmt (.define q name e) returns) σ n
  | assign {entered : List String} {σ : EmitState} {n : Note} {name : Ident} {e : Expr} {v : Value}
      {returns : Bool} (h : Meets job entered (.value e v) σ n) :
      Meets job entered (.stmt (.assign name e) returns) σ n
  | assigned {entered : List String} {σ σ₁ : EmitState} {name : Ident} {e : Expr} {v : Value}
      {t : ValueType} {slot : UInt8} {returns : Bool} (he : Emits job entered (.value e v) σ σ₁)
      (hfind : Scopes.find? σ₁.scopes name.name = some (.stored t slot false)) :
      Meets job entered (.stmt (.assign name e) returns) σ (.assigned t v.type)
  | returnValue {entered : List String} {σ : EmitState} {n : Note} {e : Expr} {v : Value}
      {returns : Bool} (h : Meets job entered (.value e v) σ n) :
      Meets job entered (.stmt (.ret (some e)) returns) σ n
  | ifThen {entered : List String} {σ σ₁ : EmitState} {n : Note} {cond : Expr} {v : Value}
      {yes : List Stmt} {returns returns' : Bool} (hcond : Emits job entered (.value cond v) σ σ₁)
      (h : Meets job entered (.stmts yes returns) ((σ₁.hold .jumpUnless).enter {}) n) :
      Meets job entered (.stmt (.ifThen cond yes) returns') σ n
  | ifElseYes {entered : List String} {σ σ₁ : EmitState} {n : Note} {cond : Expr} {v : Value}
      {yes no : List Stmt} {returns returns' : Bool}
      (hcond : Emits job entered (.value cond v) σ σ₁)
      (h : Meets job entered (.stmts yes returns) ((σ₁.hold .jumpUnless).enter {}) n) :
      Meets job entered (.stmt (.ifElse cond yes no) returns') σ n
  | ifElseNo {entered : List String} {σ σ₁ σ₂ : EmitState} {n : Note} {cond : Expr} {v : Value}
      {yes no : List Stmt} {yesReturns noReturns returns : Bool} {c : Code}
      (hcond : Emits job entered (.value cond v) σ σ₁)
      (hyes : Emits job entered (.stmts yes yesReturns) ((σ₁.hold .jumpUnless).enter {}) σ₂)
      (hskip : (σ₂.hold .jump).code.patch ⟨σ₁.code.size⟩ = .ok c)
      (h : Meets job entered (.stmts no noReturns) ({ σ₂.exit with code := c }.enter {}) n) :
      Meets job entered (.stmt (.ifElse cond yes no) returns) σ n
  | stmtsHead {entered : List String} {σ : EmitState} {n : Note} {s : Stmt} {ss : List Stmt}
      {returns returns' : Bool} (h : Meets job entered (.stmt s returns) σ n) :
      Meets job entered (.stmts (s :: ss) returns') σ n
  | stmtsTail {entered : List String} {σ σ₁ : EmitState} {n : Note} {s : Stmt} {ss : List Stmt}
      {returns rest returns' : Bool} (hs : Emits job entered (.stmt s returns) σ σ₁)
      (h : Meets job entered (.stmts ss rest) σ₁ n) :
      Meets job entered (.stmts (s :: ss) returns') σ n

/-! ## Relations between data and types -/

/-- A relation between data and types that is kept on the way to a value, as long as notes satisfy
a condition. -/
structure Coverage (C : Datum → ValueType → Prop) (A : Note → Prop) : Prop where
  of_compatible : ∀ {d : Datum} {t : ValueType}, d.type.compatible t = true → C d t
  /-- Of scalars a static type says all there is. -/
  compatible : ∀ {d : Datum} {t : ValueType}, C d t → t.isList = false → d.type.compatible t = true
  joinAll : ∀ {d : Datum} {t : ValueType} {ts : List ValueType}, A (.returned ts) → t ∈ ts → C d t →
    C d (ValueType.joinAll ts)
  /-- A datum that replaces another one. -/
  assign : ∀ {c d : Datum} {t s : ValueType}, A (.assigned t s) → C c t → C d s →
    c.type.compatible d.type = true → C d t

/-- Bounds hold whatever emission meets. -/
lemma coverage_bounds : Coverage (fun d t => t.Bounds d) fun _ => True where
  of_compatible := .of_compatible
  compatible h := h.compatible
  joinAll _ ht h := h.joinAll ht
  assign _ hc _ h := hc.of_replaced h

/-- Types of lists fit lists, where assignments keep tags. -/
lemma coverage_tags :
    Coverage (fun d t => t.Bounds d ∧ d.type.tags.overlaps t.tags = true) Note.KeepsTags where
  of_compatible h := ⟨.of_compatible h, TagSet.overlaps_iff.2 (ValueType.compatible_iff.1 h).2⟩
  compatible h := h.1.compatible
  joinAll {d t ts} _ ht h := by
    obtain ⟨hbounds, hshare⟩ := h
    obtain ⟨x, hxd, hxt⟩ := TagSet.overlaps_iff.1 hshare
    exact ⟨hbounds.joinAll ht,
      TagSet.overlaps_iff.2 ⟨x, hxd, ValueType.contains_joinAll.2 ⟨t, ht, hxt⟩⟩⟩
  assign {c d t s} hkeeps hc hd hcd := by
    have hbounds := hc.1.of_replaced hcd
    refine ⟨hbounds, TagSet.overlaps_iff.2 ?_⟩
    cases ht : t.isList with
    | true =>
      obtain ⟨x, hxd, hxs⟩ := TagSet.overlaps_iff.1 hd.2
      exact ⟨x, hxd, hkeeps ht x hxs⟩
    | false => exact (ValueType.compatible_iff.1 (hbounds.compatible ht)).2

/-- Types of scalars are given to scalars only and to all of them, where joins keep the shape. -/
lemma coverage_shape :
    Coverage (fun d t => t.Bounds d ∧ t.isVoid = false ∧ d.isList = t.isList)
      Note.KeepsShape where
  of_compatible {d t} h := by
    obtain ⟨hlist, x, -, hxt⟩ := ValueType.compatible_iff.1 h
    exact ⟨.of_compatible h, ValueType.isVoid_eq_false_iff.2 ⟨x, hxt⟩, d.isList_type ▸ hlist⟩
  compatible h := h.1.compatible
  joinAll {d t ts} hkeeps ht h := by
    obtain ⟨hbounds, hvoid, hlist⟩ := h
    obtain ⟨x, hx⟩ := ValueType.isVoid_eq_false_iff.1 hvoid
    have hx' := ValueType.contains_joinAll.2 ⟨t, ht, hx⟩
    exact ⟨hbounds.joinAll ht, ValueType.isVoid_eq_false_iff.2 ⟨x, hx'⟩,
      hlist.trans (hkeeps t ht hvoid)⟩
  assign {c d t s} _ hc _ hcd := by
    obtain ⟨hlist, -⟩ := ValueType.compatible_iff.1 hcd
    rw [Datum.isList_type, Datum.isList_type] at hlist
    exact ⟨hc.1.of_replaced hcd, hc.2.1, hlist ▸ hc.2.2⟩

/-! ## Returns -/

mutual
/-- The number of simple statements in a statement that satisfy a test. -/
def Stmt.count (p : Stmt → Bool) : Stmt → Nat
  | .block body => Stmt.countAll p body
  | .ifThen _ yes => Stmt.countAll p yes
  | .ifElse _ yes no => Stmt.countAll p yes + Stmt.countAll p no
  | .loop _ _ body => Stmt.countAll p body
  | s => if p s then 1 else 0

/-- The number of simple statements in several statements that satisfy a test. -/
def Stmt.countAll (p : Stmt → Bool) : List Stmt → Nat
  | [] => 0
  | s :: ss => s.count p + Stmt.countAll p ss
end

def Stmt.isAssign : Stmt → Bool
  | .assign _ _ => true
  | _ => false

def Stmt.isReturn : Stmt → Bool
  | .ret _ => true
  | _ => false

/-- The types of the returns recorded for the innermost body. -/
def EmitState.returns (σ : EmitState) : List ValueType := σ.frames.getLast?.elim [] Frame.returns

lemma EmitState.returns_of_frames {σ : EmitState} {fs : List Frame} {top : Frame}
    (h : σ.frames = fs ++ [top]) : σ.returns = top.returns := by
  rw [returns, h, List.getLast?_concat]
  rfl

/-- One more return. -/
lemma EmitState.returns_record {σ : EmitState} {fs : List Frame} {top : Frame}
    (h : σ.frames = fs ++ [top]) (c : Code) (t : ValueType) (a : Anchor) :
    { σ with code := c, frames := fs ++ [top.record t a] }.returns = t :: σ.returns := by
  rw [returns_of_frames h]
  simp [returns, Frame.record]

/-- Some returns are recorded in addition, and not more than a number of them. -/
def EmitState.Records (k : Nat) (σ σ' : EmitState) : Prop :=
  ∃ ts, σ'.returns = ts ++ σ.returns ∧ ts.length ≤ k

namespace EmitState.Records

variable {k l : Nat} {σ σ₁ σ' : EmitState}

lemma subset (h : σ.Records k σ') : σ.returns ⊆ σ'.returns := by
  obtain ⟨ts, hts, -⟩ := h
  exact fun t ht => hts ▸ List.mem_append_right _ ht

lemma after (h : σ₁.Records k σ') (hframes : σ₁.frames = σ.frames) : σ.Records k σ' := by
  obtain ⟨ts, hts, hk⟩ := h
  exact ⟨ts, by rw [hts, returns, hframes]; rfl, hk⟩

lemma of_frames (h : σ'.frames = σ.frames) : σ.Records 0 σ' :=
  after ⟨[], rfl, le_rfl⟩ h

lemma trans (h : σ.Records k σ₁) (h' : σ₁.Records l σ') : σ.Records (k + l) σ' := by
  obtain ⟨ts, hts, hk⟩ := h
  obtain ⟨ts', hts', hl⟩ := h'
  refine ⟨ts' ++ ts, by rw [hts', hts, List.append_assoc], ?_⟩
  rw [List.length_append]
  omega

end EmitState.Records

lemma Emit.frames_patchAll {as : List Anchor} {σ σ' : EmitState}
    (h : patchAll as σ = .ok () σ') : σ'.frames = σ.frames := by
  induction as generalizing σ with
  | nil =>
    cases h
    rfl
  | cons a as ih =>
    obtain ⟨c, -, hrest⟩ := patchAll_cons_eq_ok h
    have hframes := ih hrest
    exact hframes

/-- Statements record returns, and all else leaves frames alone. -/
def Piece.Records (σ σ' : EmitState) : Piece → Prop
  | .stmt s _ => σ.Records (s.count Stmt.isReturn) σ'
  | .stmts ss _ => σ.Records (Stmt.countAll Stmt.isReturn ss) σ'
  | _ => σ'.frames = σ.frames

variable {job : Job} {entered : List String} {piece : Piece} {σ σ' : EmitState}

lemma Emits.records (h : Emits job entered piece σ σ') : piece.Records σ σ' := by
  induction h with
  | immediate _ | pooled _ _ _ | appendedNil | stored _ | attr _ _ _ | argsNil | itemsNil
  | paramsNil _ => rfl
  | appendedCons _ _ ihd ihds => exact ihds.trans ihd
  | scalar _ ih | listDatum _ ih | folded _ _ ih | emitted _ _ ih | application _ _ _ ih
  | list _ ih | paramsKnown _ _ _ ih => exact ih
  | inlined _ _ _ _ _ ihparams ihcall => exact ihcall.trans ihparams
  | argsCons _ _ ihe ihes | itemsCons _ _ _ ihe ihes | paramsStored _ _ _ _ _ ihe ihes =>
    exact ihes.trans ihe
  | @call _ _ _ _ _ _ returns _ _ _ _ _ hpatch _ =>
    refine (Emit.frames_patchAll hpatch).trans ?_
    cases returns <;> rfl
  | block _ ih => exact ih
  | constant _ _ _ | exprKnown _ | stmtsNil => exact .of_frames rfl
  | define _ _ _ _ _ ih | assign _ _ _ ih | fail _ _ ih | exprDropped _ _ ih => exact .of_frames ih
  | returnNone hframes => exact ⟨[.void], EmitState.returns_record hframes _ _ _, le_rfl⟩
  | @returnValue _ _ σ₁ _ v _ _ _ hframes ih =>
    have hrecord := EmitState.returns_record hframes (σ₁.hold .jump).code v.type ⟨σ₁.code.size⟩
    exact EmitState.Records.after ⟨[v.type], hrecord, le_rfl⟩ ih
  | ifThen _ _ _ _ ihcond ihyes => exact EmitState.Records.after ihyes ihcond
  | ifElse _ _ _ _ _ _ ihcond ihyes ihno =>
    exact (EmitState.Records.after ihyes ihcond).trans ihno
  | loop _ _ _ _ _ _ _ _ ihitems ihbody => exact EmitState.Records.after ihbody ihitems
  | stmtsCons _ _ ihs ihss => exact EmitState.Records.trans ihs ihss

/-! ## Files that meet no obstacle -/

/-- The number of simple statements in a piece that satisfy a test. -/
def Piece.count (p : Stmt → Bool) : Piece → Nat
  | .stmt s _ => s.count p
  | .stmts ss _ => Stmt.countAll p ss
  | .call d _ _ => Stmt.countAll p d.body
  | _ => 0

/-- A bound on the statements of one kind, in a piece and in all functions, holds where notes are
made. -/
lemma Meets.of_count {P : Note → Prop} {p : Stmt → Bool} {k : Nat} {n : Note}
    (h : Meets job entered piece σ n)
    (hfile : ∀ f ∈ job.file.functions, Stmt.countAll p f.body ≤ k) (hpiece : piece.count p ≤ k)
    (hassigned : ∀ {name : Ident} {e : Expr} {t s : ValueType},
      Stmt.count p (.assign name e) ≤ k → P (.assigned t s))
    (hreturned : ∀ {entered : List String} {σ σ' : EmitState} {d : FunctionDef} {scope : Scope}
      {returns : Bool} {frame : Frame}, Stmt.countAll p d.body ≤ k →
      Emits job entered (.stmts d.body returns) (σ.openFrame d.ident.name scope) σ' →
      σ'.frames = σ.frames ++ [frame] →
      P (.returned (if returns then frame.returns else .void :: frame.returns))) : P n := by
  induction h with
  | emitted _ _ ih | application _ _ ih | argument _ _ ih | list _ ih | argsHead _ ih
  | argsTail _ _ ih | itemsHead _ ih | itemsTail _ _ ih | paramsKnown _ _ _ ih | paramsHead _ _ ih
  | paramsTail _ _ _ _ _ ih | define _ ih | assign _ ih | returnValue _ ih =>
    exact ih (Nat.zero_le k)
  | @inlined _ _ _ _ _ _ _ _ d mem _ _ _ _ _ ih => exact ih (hfile d mem)
  | returned hbody hframe => exact hreturned hpiece hbody hframe
  | body _ ih => exact ih hpiece
  | block _ ih | ifThen _ _ ih => exact ih hpiece
  | assigned _ _ => exact hassigned hpiece
  | ifElseYes _ _ ih | stmtsHead _ ih => exact ih (Nat.le_of_add_right_le hpiece)
  | ifElseNo _ _ _ _ ih | stmtsTail _ _ ih => exact ih (Nat.le_of_add_left_le hpiece)

/-- Where no function assigns, no note loses tags. -/
lemma Meets.keepsTags {n : Note} (h : Meets job entered piece σ n)
    (hfile : ∀ f ∈ job.file.functions, Stmt.countAll Stmt.isAssign f.body ≤ 0)
    (hpiece : piece.count Stmt.isAssign ≤ 0) : n.KeepsTags :=
  h.of_count hfile hpiece (fun hcount => absurd hcount (by simp [Stmt.count, Stmt.isAssign]))
    fun _ _ _ => trivial

/-- Types of one shape are joined, where all but one of them are void. -/
lemma Note.keepsShape_of_length {types : List ValueType} (h : types.length ≤ 1) (returns : Bool) :
    (Note.returned (if returns then types else .void :: types)).KeepsShape := by
  intro t ht hvoid
  have hmem : t ∈ types := by
    cases returns with
    | true => exact ht
    | false =>
      rcases List.mem_cons.1 ht with rfl | ht
      · cases hvoid
      · exact ht
  obtain ⟨s, rfl⟩ := List.length_eq_one_iff.1 (h.antisymm (List.length_pos_of_mem hmem))
  obtain rfl := List.mem_singleton.1 hmem
  rw [Bool.eq_iff_iff, ValueType.isList_joinAll]
  cases returns <;> simp [ValueType.void, ValueType.scalar]

/-- Where no function returns in two places, lists and scalars are not joined. -/
lemma Meets.keepsShape {n : Note} (h : Meets job entered piece σ n)
    (hfile : ∀ f ∈ job.file.functions, Stmt.countAll Stmt.isReturn f.body ≤ 1)
    (hpiece : piece.count Stmt.isReturn ≤ 1) : n.KeepsShape := by
  refine h.of_count hfile hpiece (fun _ => trivial) fun {_ σ _ d scope _ frame} hcount hbody
    hframe => ?_
  obtain ⟨ts, hts, hle⟩ := hbody.records
  have hopen : (σ.openFrame d.ident.name scope).frames = σ.frames ++ [({} : Frame)] := rfl
  rw [EmitState.returns_of_frames hframe, EmitState.returns_of_frames hopen, List.append_nil] at hts
  exact Note.keepsShape_of_length (hts ▸ hle.trans hcount) _

/-! ## The induction -/

variable {C : Datum → ValueType → Prop} {A : Note → Prop}

/-- A way in which statements may end, as emission sees it: names stand for data that their types
cover, or a value is returned that the type of some return covers. -/
def EmitState.Foresees (C : Datum → ValueType → Prop) (σ : EmitState) : Flow → Scopes → Prop
  | .through, ss => Scopes.Admit C σ.scopes ss
  | .returned none, _ => True
  | .returned (some d), _ => ∃ t ∈ σ.returns, C d t

/-- A scope that was opened is closed, and more returns may be recorded. -/
lemma EmitState.Foresees.exit {flow : Flow} {ss : Scopes} (h : σ.Foresees C flow ss)
    (hscopes : σ'.scopes = σ.scopes.tail) (hreturns : σ.returns ⊆ σ'.returns) :
    σ'.Foresees C flow ss.tail := by
  cases flow with
  | through => exact (Scopes.Admit.tail h).of_eq hscopes
  | returned v =>
    cases v with
    | none => trivial
    | some d =>
      obtain ⟨t, ht, hd⟩ := h
      exact ⟨t, hreturns ht, hd⟩

/-- What a piece evaluates to is covered by its static type, where data that are covered have taken
the place of stored values. -/
def Piece.Covered (job : Job) (entered : List String) (C : Datum → ValueType → Prop)
    (σ σ' : EmitState) : Piece → Prop
  | .scalar _ | .appended _ | .datum _ => True
  | .value e v => ∀ ss d, Scopes.Admit C σ.scopes ss →
    (foldExpr (foldCall job entered) ss e).Yields d → C d v.type
  | .expr e t => ∀ ss d, Scopes.Admit C σ.scopes ss →
    (foldExpr (foldCall job entered) ss e).Yields d → C d t
  | .args es types => ∀ ss ds, Scopes.Admit C σ.scopes ss →
    (foldArgs (foldCall job entered) ss es).Yields ds → List.Forall₂ C ds types
  | .items es types => ∀ ss ds, Scopes.Admit C σ.scopes ss →
    (foldArgs (foldCall job entered) ss es).Yields ds →
    List.Forall₂ (fun d t => d.type.compatible t = true) ds types
  | .params scope ps es scope' => ∀ ss ds (s s' : Scope), Scopes.Admit C σ.scopes ss →
    Scopes.Admit C [scope] [s] → (foldArgs (foldCall job entered) ss es).Yields ds →
    s.bindAll ps ds = .ok s' → Scopes.Admit C [scope'] [s']
  | .call f scope t => ∀ (s : Scope) d ss, Scopes.Admit C [scope] [s] →
    (foldStmts (foldCall job (f.ident.name :: entered)) [s] f.body).Yields
      (.returned (some d), ss) → C d t
  | .stmt s _ => ∀ ss flow ss', Scopes.Admit C σ.scopes ss →
    (foldStmt (foldCall job entered) ss s).Yields (flow, ss') → σ'.Foresees C flow ss'
  | .stmts body _ => ∀ ss flow ss', Scopes.Admit C σ.scopes ss →
    (foldStmts (foldCall job entered) ss body).Yields (flow, ss') → σ'.Foresees C flow ss'

/-- Assigning to a name that is stored puts a datum in its place that its type covers. -/
lemma Binding.Admits.assign (hC : Coverage C A) {t s : ValueType} {slot : UInt8} {b b' : Binding}
    (h : (Binding.stored t slot false).Admits C b) {name : Ident} {d : Datum}
    {fresh : Except Problem UInt8} {outcome : Assignment}
    (hassign : b.assign name (.known d) fresh = .ok (outcome, b')) (hnote : A (.assigned t s))
    (hd : C d s) : (Binding.stored t slot false).Admits C b' := by
  obtain ⟨-, hfits, hcases⟩ := Binding.assign_eq_ok hassign
  cases h with
  | refl _ =>
    rcases hcases with ⟨_, _, _, -, -, rfl⟩ | ⟨_, _, _, hb, -⟩ | ⟨_, _, _, _, hb, -⟩
    · exact .refl _
    · cases hb
    · cases hb
  | datum hc _ _ _ =>
    rcases hcases with ⟨_, _, _, hb, -⟩ | ⟨_, _, _, -, hv, -, rfl⟩ | ⟨_, _, _, _, -, hv, -⟩
    · cases hb
    · cases hv
      exact .datum (hC.assign hnote hc hd hfits) _ _ _
    · cases hv

/-- **Static types cover values.** -/
theorem Emits.covered (hstd : job.builtins = .standard) (hC : Coverage C A)
    (h : Emits job entered piece σ σ') (hσ : σ.Sound) (hready : piece.Ready σ)
    (hnotes : ∀ n, Meets job entered piece σ n → A n) : piece.Covered job entered C σ σ' := by
  induction h with
  | folded heval _ _ =>
    intro ss d hdata hd
    obtain rfl := hd.eq (yields_of_refines hdata.refines _ _ heval)
    exact hC.of_compatible d.compatible_self
  | emitted heval _ ih => exact ih hσ trivial fun n hn => hnotes n (.emitted heval hn)
  | stored hfind =>
    intro ss d hdata hd
    obtain ⟨f, hf⟩ := yields_ref_iff.1 hd
    cases hdata.admits hfind hf with
    | datum hd _ _ _ => exact hd
  | attr _ _ _ =>
    intro ss d _ hd
    rw [foldExpr] at hd
    exact absurd hd not_yields_failure
  | application happ _ hinfer ih =>
    intro ss d hdata hd
    obtain ⟨ds, hds, hfold⟩ := happ.yields hd
    have hargs := ih hσ trivial (fun n hn => hnotes n (.application happ hn)) ss ds hdata hds
    exact hC.of_compatible ((happ.standard hstd).compatible_of_fold hinfer hfold
      (hargs.imp fun _ _ => hC.compatible))
  | inlined hcallee _ hnew hparams _ ihparams ihcall =>
    intro ss d hdata hd
    obtain ⟨hpush, hready'⟩ := hparams.ready_call hstd hσ
    obtain ⟨ds, hds, hrun⟩ := yields_of_call hcallee hnew hd
    obtain ⟨s, ss', hbind, hbody⟩ := yields_of_foldCall hrun
    have hscope := ihparams hσ (Scopes.Settled.nil.open_empty rfl)
      (fun n hn => hnotes n (.argument hcallee hn)) ss ds {} s hdata
      (Scopes.Admit.nil.open_empty rfl rfl) hds hbind
    exact ihcall (hpush.sound hσ) hready' (fun n hn => hnotes n (.inlined hcallee hparams hn)) s d
      ss' hscope hbody
  | list _ ih =>
    intro ss d hdata hd
    rw [foldExpr, yields_bind] at hd
    obtain ⟨ds, hds, hd⟩ := hd
    cases yields_pure.1 hd
    have hpush := hσ.pushes_refl.add .list rfl 0
    exact hC.of_compatible (Datum.compatible_list (ih (hpush.sound hσ) trivial
      (fun n hn => hnotes n (.list hn)) ss ds hdata (yields_args_of_items hds)))
  | argsNil =>
    intro ss ds _ hds
    obtain rfl := yields_nil_iff.1 hds
    exact .nil
  | argsCons he _ ihe ihes =>
    intro ss ds hdata hds
    obtain ⟨d, ds, hd, hrest, rfl⟩ := yields_cons_iff.1 hds
    have hpush : EmitState.Pushes _ _ := he.effect hstd hσ trivial
    have hfirst := ihe hσ trivial (fun n hn => hnotes n (.argsHead hn)) ss d hdata hd
    exact .cons hfirst (ihes (hpush.sound hσ) trivial (fun n hn => hnotes n (.argsTail he hn)) ss ds
      (hdata.of_eq hpush.scopes) hrest)
  | itemsNil =>
    intro ss ds _ hds
    obtain rfl := yields_nil_iff.1 hds
    exact .nil
  | itemsCons he hitem _ ihe ihes =>
    intro ss ds hdata hds
    obtain ⟨d, ds, hd, hrest, rfl⟩ := yields_cons_iff.1 hds
    have hpush := (he.effect hstd hσ trivial : EmitState.Pushes _ _).add .append rfl 0
    have hfirst := ihe hσ trivial (fun n hn => hnotes n (.itemsHead hn)) ss d hdata hd
    exact .cons (hC.compatible hfirst hitem) (ihes (hpush.sound hσ) trivial
      (fun n hn => hnotes n (.itemsTail he hn)) ss ds (hdata.of_eq hpush.scopes) hrest)
  | paramsNil hend =>
    intro ss ds s s' _ hscope hds hbind
    obtain rfl := Scope.eq_of_bindAll
      (hend.imp_right fun hnil => yields_nil_iff.1 (hnil ▸ hds)) hbind
    exact hscope
  | paramsKnown heval hdef _ ih =>
    intro ss ds s s' hdata hscope hds hbind
    obtain ⟨d, ds, hd, hrest, rfl⟩ := yields_cons_iff.1 hds
    obtain rfl := hd.eq (yields_of_refines hdata.refines _ _ heval)
    obtain ⟨s₁, hdef', hbind'⟩ := Scope.bindAll_cons_eq_ok hbind
    have hnotes' := fun n hn => hnotes n (.paramsKnown heval hdef hn)
    obtain ⟨-, hnone, rfl⟩ := Scope.define_eq_ok_iff.1 hdef
    obtain ⟨-, -, rfl⟩ := Scope.define_eq_ok_iff.1 hdef'
    exact ih hσ (Scopes.Settled.bind_constant hready hnone _) hnotes' ss ds _ s' hdata
      (hscope.bind _ (.refl _)) hrest hbind'
  | paramsStored heval he hslot hdef _ ihe ihes =>
    intro ss ds s s' hdata hscope hds hbind
    obtain ⟨d, ds, hd, hrest, rfl⟩ := yields_cons_iff.1 hds
    obtain ⟨s₁, hdef', hbind'⟩ := Scope.bindAll_cons_eq_ok hbind
    have hnotes' := fun n hn => hnotes n (.paramsTail heval he hslot hdef hn)
    obtain ⟨-, hnone, rfl⟩ := Scope.define_eq_ok_iff.1 hdef
    obtain ⟨-, -, rfl⟩ := Scope.define_eq_ok_iff.1 hdef'
    have hpush : EmitState.Pushes _ _ := he.effect hstd hσ trivial
    have hstore := hpush.store_fresh hslot
    have hsettled := Scopes.Settled.mono hready hpush.extend.slots
    have hvalue := ihe hσ trivial (fun n hn => hnotes n (.paramsHead heval hn)) ss d hdata hd
    exact ihes (hstore.sound hσ) (hsettled.bind_stored hnone (Slots.toNat_of_fresh hslot) _ true)
      hnotes' ss ds _ s' (hdata.of_eq hstore.scopes) (hscope.bind _ (.datum hvalue _ _ _)) hrest
      hbind'
  | @call _ σ σ₁ _ _ scope returns frame _ _ hbody hframe _ ih =>
    intro s d ss hscope hd
    obtain ⟨t, ht, hcovers⟩ := ih (hσ.openFrame _ hready.1 hready.2) trivial
      (fun n hn => hnotes n (.body hn)) [s] _ ss hscope hd
    rw [EmitState.returns_of_frames hframe] at ht
    refine hC.joinAll (hnotes _ (.returned hbody hframe)) ?_ hcovers
    cases returns
    · exact List.mem_cons_of_mem _ ht
    · exact ht
  | block _ ih =>
    intro ss flow ss' hdata hyields
    rw [foldStmt] at hyields
    obtain ⟨inner, hinner, rfl⟩ := yields_inner_iff.1 hyields
    have hend := ih hσ.enter_empty trivial (fun n hn => hnotes n (.block hn)) ({} :: ss) flow inner
      (hdata.open_empty rfl rfl) hinner
    exact hend.exit rfl (List.Subset.refl _)
  | constant heval hscopes hdef =>
    obtain ⟨-, -, rfl⟩ := Scope.define_eq_ok_iff.1 hdef
    intro ss flow ss' hdata hyields
    rw [foldStmt, yields_bind] at hyields
    obtain ⟨d, hd, hrest⟩ := hyields
    obtain ⟨ss₁, hss₁, hend⟩ := yields_bind.1 hrest
    cases yields_pure.1 hend
    obtain rfl := hd.eq (yields_of_refines hdata.refines _ _ heval)
    have hdata' := hdata.of_eq hscopes.symm
    obtain ⟨e, es, rfl, rfl⟩ := hdata'.exists_of_define (yields_lift.1 hss₁)
    exact hdata'.bind _ (.refl _)
  | define _ he _ hscopes hdef ih =>
    obtain ⟨-, -, rfl⟩ := Scope.define_eq_ok_iff.1 hdef
    intro ss flow ss' hdata hyields
    rw [foldStmt, yields_bind] at hyields
    obtain ⟨d, hd, hrest⟩ := hyields
    obtain ⟨ss₁, hss₁, hend⟩ := yields_bind.1 hrest
    cases yields_pure.1 hend
    have hpush : EmitState.Pushes _ _ := he.effect hstd hσ trivial
    have hvalue := ih hσ trivial (fun n hn => hnotes n (.define hn)) ss d hdata hd
    have hdata' := hdata.of_eq (hscopes.symm.trans hpush.scopes)
    obtain ⟨e, es, rfl, rfl⟩ := hdata'.exists_of_define (yields_lift.1 hss₁)
    exact hdata'.bind _ (.datum hvalue _ _ _)
  | assign he hfind _ ih =>
    intro ss flow ss' hdata hyields
    rw [foldStmt, yields_bind] at hyields
    obtain ⟨d, hd, hrest⟩ := hyields
    obtain ⟨⟨_, ss₁⟩, hss₁, hend⟩ := yields_bind.1 hrest
    cases yields_pure.1 hend
    have hpush : EmitState.Pushes _ _ := he.effect hstd hσ trivial
    have hvalue := ih hσ trivial (fun n hn => hnotes n (.assign hn)) ss d hdata hd
    have hdata' := hdata.of_eq hpush.scopes
    obtain ⟨b, b', hb, hb', rfl⟩ := Scopes.assign_eq_ok (yields_lift.1 hss₁)
    exact hdata'.replace hfind
      ((hdata'.admits hfind hb).assign hC hb' (hnotes _ (.assigned he hfind)) hvalue)
  | returnNone _ =>
    intro ss flow ss' _ hyields
    rw [foldStmt] at hyields
    cases yields_pure.1 hyields
    trivial
  | @returnValue _ σ σ₁ _ v fs top he hframes ih =>
    intro ss flow ss' hdata hyields
    rw [foldStmt, yields_bind] at hyields
    obtain ⟨d, hd, hend⟩ := hyields
    cases yields_pure.1 hend
    have hvalue := ih hσ trivial (fun n hn => hnotes n (.returnValue hn)) ss d hdata hd
    have hrecord := EmitState.returns_record hframes (σ₁.hold .jump).code v.type ⟨σ₁.code.size⟩
    exact ⟨v.type, hrecord ▸ List.mem_cons_self .., hvalue⟩
  | ifThen hcond _ hyes _ _ ihyes =>
    intro ss flow ss' hdata hyields
    have hpush : EmitState.Pushes _ _ := hcond.effect hstd hσ trivial
    have hsound := ((hpush.sound hσ).hold .jumpUnless rfl).enter_empty
    have hproceeds : EmitState.Proceeds _ _ := hyes.effect hstd hsound trivial
    rw [foldStmt, yields_bind] at hyields
    obtain ⟨b, -, hrest⟩ := hyields
    cases b with
    | false =>
      cases yields_pure.1 hrest
      exact hdata.of_eq (hproceeds.scopes.tail_eq.trans hpush.scopes)
    | true =>
      obtain ⟨inner, hinner, rfl⟩ := yields_inner_iff.1 hrest
      have hend := ihyes hsound trivial (fun n hn => hnotes n (.ifThen hcond hn)) ({} :: ss) flow
        inner ((hdata.of_eq hpush.scopes).open_empty rfl rfl) hinner
      exact hend.exit rfl (List.Subset.refl _)
  | ifElse hcond _ hyes hskip hno _ _ ihyes ihno =>
    intro ss flow ss' hdata hyields
    have hpush : EmitState.Pushes _ _ := hcond.effect hstd hσ trivial
    have hsound := ((hpush.sound hσ).hold .jumpUnless rfl).enter_empty
    have hyes' : EmitState.Proceeds _ _ := hyes.effect hstd hsound trivial
    obtain ⟨-, hsound', hexit⟩ := hσ.sound_alternative hpush hyes' hskip
    have hno' : EmitState.Proceeds _ _ := hno.effect hstd hsound'.enter_empty trivial
    rw [foldStmt, yields_bind] at hyields
    obtain ⟨b, -, hrest⟩ := hyields
    cases b with
    | true =>
      obtain ⟨inner, hinner, rfl⟩ := yields_inner_iff.1 hrest
      have hend := ihyes hsound trivial (fun n hn => hnotes n (.ifElseYes hcond hn)) ({} :: ss) flow
        inner ((hdata.of_eq hpush.scopes).open_empty rfl rfl) hinner
      exact hend.exit hno'.scopes.tail_eq hno.records.subset
    | false =>
      obtain ⟨inner, hinner, rfl⟩ := yields_inner_iff.1 hrest
      have hend := ihno hsound'.enter_empty trivial
        (fun n hn => hnotes n (.ifElseNo hcond hyes hskip hn)) ({} :: ss) flow inner
        ((hdata.of_eq hexit).open_empty rfl rfl) hinner
      exact hend.exit rfl (List.Subset.refl _)
  | loop =>
    intro ss flow ss' _ hyields
    rw [foldStmt] at hyields
    exact absurd hyields not_yields_failure
  | fail =>
    intro ss flow ss' _ hyields
    rw [foldStmt, yields_bind] at hyields
    obtain ⟨d, -, hthrow⟩ := hyields
    cases d <;> exact absurd hthrow not_yields_throw
  | exprKnown _ =>
    intro ss flow ss' hdata hyields
    rw [foldStmt, yields_bind] at hyields
    obtain ⟨d, -, hend⟩ := hyields
    cases yields_pure.1 hend
    exact hdata
  | exprDropped _ he _ =>
    intro ss flow ss' hdata hyields
    rw [foldStmt, yields_bind] at hyields
    obtain ⟨d, -, hend⟩ := hyields
    cases yields_pure.1 hend
    exact hdata.of_eq (he.effect hstd hσ trivial : EmitState.Pushes _ _).scopes
  | stmtsNil =>
    intro ss flow ss' hdata hyields
    rw [foldStmts] at hyields
    cases yields_pure.1 hyields
    exact hdata
  | stmtsCons hs hrest ihs ihrest =>
    intro ss flow ss' hdata hyields
    have hproceeds : EmitState.Proceeds _ _ := hs.effect hstd hσ trivial
    rw [foldStmts, yields_bind] at hyields
    obtain ⟨⟨flow₁, ss₁⟩, hfirst, hsecond⟩ := hyields
    have hmiddle := ihs hσ trivial (fun n hn => hnotes n (.stmtsHead hn)) ss flow₁ ss₁ hdata hfirst
    cases flow₁ with
    | through =>
      exact ihrest hproceeds.sound trivial (fun n hn => hnotes n (.stmtsTail hs hn)) ss₁ flow ss'
        hmiddle hsecond
    | returned v =>
      cases yields_pure.1 hsecond
      cases v with
      | none => trivial
      | some d =>
        obtain ⟨t, ht, hd⟩ := hmiddle
        exact ⟨t, hrest.records.subset ht, hd⟩
  | _ => trivial

end Arbor
