import Arbor.Emission.Body
import Arbor.Proofs.Code.Assembly
import Mathlib.Tactic.Simps.Basic

/-!
# Derivations of emitted code

`Emits job entered piece σ σ'` says that emitting a piece of a program turns the state `σ` into
`σ'`.  It has one rule for each way in which emission goes on, with calls expanded, so that facts
about emitted code are proved by one induction with one case a rule.  A piece names what is emitted
together with what comes of it: the type of an expression, whether statements return, the scope
that binds parameters.

The rules know what emission has to find out.  Only what cannot be folded is emitted, so literals
and names of data have no rule of their own; data known at compile time are final, so assigning
stores into a slot; and a return leaves the innermost frame.  That every emission has a derivation
is shown where those facts are (`Arbor.Proofs.Emission.Outcome`).
-/

namespace Arbor

/-! ## Moves of the state -/

namespace EmitState

variable (σ : EmitState)

/-- One more instruction. -/
@[simps]
def add (op : Opcode) (operand : UInt8 := 0) : EmitState :=
  { σ with code := σ.code.push op operand }

/-- One more instruction, whose operand is the index of a constant. -/
@[simps]
def addConstant (op : Opcode) (c : Constant) : EmitState :=
  { σ with
    code := σ.code.push op (UInt8.ofNat (σ.constants.intern c).1)
    constants := (σ.constants.intern c).2 }

/-- One more jump that waits for its target. -/
@[simps]
def hold (op : Opcode) : EmitState := { σ with code := (σ.code.reserve op).2 }

/-- One slot handed out. -/
@[simps]
def advance : EmitState := { σ with slots := σ.slots.advance }

/-- One more scope. -/
@[simps]
def enter (scope : Scope) : EmitState := { σ with scopes := scope :: σ.scopes }

/-- One scope less. -/
@[simps]
def exit : EmitState := { σ with scopes := σ.scopes.tail }

/-- A frame for the body of a function, which sees one scope only. -/
@[simps]
def openFrame (name : String) (scope : Scope) : EmitState :=
  { σ with scopes := [scope], frames := σ.frames ++ [{}], inlining := name :: σ.inlining }

/-- The end of such a body.  The function is left, and there are the scopes and frames from
before. -/
@[simps]
def leaveFrame (scopes : Scopes) (frames : List Frame) : EmitState :=
  { σ with scopes := scopes, frames := frames, inlining := σ.inlining.tail }

/-- The end of a body.  If it can be reached without a return, the body yields none there. -/
def endBody (returns : Bool) : EmitState := if returns then σ else σ.add .pushNone

/-- The code before the body of a loop.  The iterator and the item have slots of their own, and the
jump out of the loop is the fourth instruction. -/
def loopBody (iter item : UInt8) (scope : Scope) : EmitState :=
  ((((((σ.advance.add .iter).add .store iter).add .hasNext iter).hold .jumpUnless).add
    .next iter).advance.add .store item).enter scope

end EmitState

/-- The instruction that pushes a scalar by itself. -/
def Datum.immediate? : Datum → Option (Opcode × UInt8)
  | .none => some (.pushNone, 0)
  | .bool true => some (.pushTrue, 0)
  | .bool false => some (.pushFalse, 0)
  | .number (.int v) =>
    if 0 ≤ v.toInt ∧ v.toInt < 256 then some (.pushInt, UInt8.ofNat v.toInt.toNat) else Option.none
  | .number (.float x) => (Eighths.encode x).map (.pushFloat, ·)
  | _ => Option.none

/-- The instruction that pushes a scalar with the help of the constant pool. -/
def Datum.pooled? : Datum → Option (Opcode × Constant)
  | .number n => some (.const, .number n)
  | .str text => some (.const, .str text)
  | .kind name => some (.kind, .str name)
  | _ => Option.none

/-! ## Pieces -/

/-- What is emitted, with what comes of it. -/
inductive Piece where
  /-- A scalar that is pushed. -/
  | scalar (d : Datum)
  /-- Scalars that are appended to a list. -/
  | appended (ds : List Datum)
  /-- A datum that is pushed. -/
  | datum (d : Datum)
  /-- An expression whose value is pushed, be it folded or not. -/
  | value (e : Expr) (v : Value)
  /-- An expression that cannot be folded. -/
  | expr (e : Expr) (type : ValueType)
  | args (es : List Expr) (types : List ValueType)
  | items (es : List Expr) (types : List ValueType)
  /-- Parameters that are bound to arguments on top of one scope, which makes another. -/
  | params (scope : Scope) (ps : List Ident) (es : List Expr) (scope' : Scope)
  /-- A body that is inlined. -/
  | call (d : FunctionDef) (scope : Scope) (type : ValueType)
  | stmt (s : Stmt) (returns : Bool)
  | stmts (ss : List Stmt) (returns : Bool)

/-- Where an expression applies overloads: at the call itself, if it is one. -/
def Expr.site : Expr → Span
  | .call _ _ site _ => site
  | e => e.span

/-- An expression applies overloads to operands: an operator, or a builtin that is called. -/
inductive Applies (job : Job) : Expr → Overloads → List Expr → Prop
  | unary {op : UnaryOp} {e : Expr} {span : Span} {o : Overloads}
      (ho : job.operator op.symbol = .ok o) : Applies job (.unary op e span) o [e]
  | binary {op : BinaryOp} {left right : Expr} {span : Span} {o : Overloads}
      (ho : job.operator op.symbol = .ok o) :
      Applies job (.binary op left right span) o [left, right]
  | call {name : Ident} {args : List Expr} {site span : Span} {o : Overloads}
      (ho : job.callee name = .ok (.builtin o))
      (harity : o.checkArity args.length name.span = .ok ()) :
      Applies job (.call name args site span) o args

/-! ## Rules -/

/-- Emitting a piece turns one state into another. -/
inductive Emits (job : Job) : List String → Piece → EmitState → EmitState → Prop
  | immediate {entered : List String} {σ : EmitState} {d : Datum} {op : Opcode} {b : UInt8}
      (hd : d.immediate? = some (op, b)) : Emits job entered (.scalar d) σ (σ.add op b)
  | pooled {entered : List String} {σ : EmitState} {d : Datum} {op : Opcode} {c : Constant}
      (hno : d.immediate? = none) (hd : d.pooled? = some (op, c))
      (hindex : (σ.constants.intern c).1 < 256) :
      Emits job entered (.scalar d) σ (σ.addConstant op c)
  | appendedNil {entered : List String} {σ : EmitState} : Emits job entered (.appended []) σ σ
  | appendedCons {entered : List String} {σ σ₁ σ' : EmitState} {d : Datum} {ds : List Datum}
      (hd : Emits job entered (.scalar d) σ σ₁)
      (hds : Emits job entered (.appended ds) (σ₁.add .append) σ') :
      Emits job entered (.appended (d :: ds)) σ σ'
  | scalar {entered : List String} {σ σ' : EmitState} {d : Datum}
      (hd : Emits job entered (.scalar d) σ σ') : Emits job entered (.datum d) σ σ'
  | listDatum {entered : List String} {σ σ' : EmitState} {ds : List Datum}
      (hds : Emits job entered (.appended ds) (σ.add .list) σ') :
      Emits job entered (.datum (.list ds)) σ σ'
  | folded {entered : List String} {σ σ' : EmitState} {e : Expr} {d : Datum}
      (heval : job.evaluate σ.scopes entered e = .ok (some d))
      (hd : Emits job entered (.datum d) σ σ') : Emits job entered (.value e (.known d)) σ σ'
  | emitted {entered : List String} {σ σ' : EmitState} {e : Expr} {t : ValueType}
      (heval : job.evaluate σ.scopes entered e = .ok none)
      (he : Emits job entered (.expr e t) σ σ') : Emits job entered (.value e (.runtime t)) σ σ'
  | stored {entered : List String} {σ : EmitState} {name : Ident} {span : Span} {t : ValueType}
      {slot : UInt8} {f : Bool}
      (hfind : Scopes.find? σ.scopes name.name = some (.stored t slot f)) :
      Emits job entered (.expr (.ref name span) t) σ (σ.add .load slot)
  | attr {entered : List String} {σ : EmitState} {target field : Ident} {span : Span}
      {t : ValueType} {slot : UInt8} {f : Bool}
      (hfind : Scopes.find? σ.scopes target.name = some (.stored t slot f))
      (hnode : t.compatible (.of .node) = true)
      (hindex : (σ.constants.intern (.str field.name)).1 < 256) :
      Emits job entered (.expr (.attr target field span) .any) σ
        ((σ.add .load slot).addConstant .attr (.str field.name))
  | application {entered : List String} {σ σ₁ : EmitState} {e : Expr} {o : Overloads}
      {es : List Expr} {types : List ValueType} {t : ValueType} {op : Opcode}
      (happ : Applies job e o es) (hes : Emits job entered (.args es types) σ σ₁)
      (hinfer : o.infer types e.site = .ok (t, op)) :
      Emits job entered (.expr e t) σ (σ₁.add op)
  | inlined {entered : List String} {σ σ₁ σ' : EmitState} {name : Ident} {args : List Expr}
      {site span : Span} {d : FunctionDef} {mem : d ∈ job.file.functions} {scope : Scope}
      {t : ValueType} (hcallee : job.callee name = .ok (.function d mem))
      (hcount : args.length = d.params.length) (hnew : d.ident.name ∉ entered)
      (hparams : Emits job entered
        (.params { role := some (.function σ.frames.length) } d.params args scope) σ σ₁)
      (hcall : Emits job entered (.call d scope t) σ₁ σ') :
      Emits job entered (.expr (.call name args site span) t) σ σ'
  | list {entered : List String} {σ σ' : EmitState} {es : List Expr} {span : Span}
      {types : List ValueType} (hes : Emits job entered (.items es types) (σ.add .list) σ') :
      Emits job entered
        (.expr (.list es span)
          (if types.isEmpty then .anyList else (ValueType.joinAll types).asList)) σ σ'
  | argsNil {entered : List String} {σ : EmitState} : Emits job entered (.args [] []) σ σ
  | argsCons {entered : List String} {σ σ₁ σ' : EmitState} {e : Expr} {es : List Expr} {v : Value}
      {types : List ValueType} (he : Emits job entered (.value e v) σ σ₁)
      (hes : Emits job entered (.args es types) σ₁ σ') :
      Emits job entered (.args (e :: es) (v.type :: types)) σ σ'
  | itemsNil {entered : List String} {σ : EmitState} : Emits job entered (.items [] []) σ σ
  | itemsCons {entered : List String} {σ σ₁ σ' : EmitState} {e : Expr} {es : List Expr} {v : Value}
      {types : List ValueType} (he : Emits job entered (.value e v) σ σ₁)
      (hitem : v.type.isList = false)
      (hes : Emits job entered (.items es types) (σ₁.add .append) σ') :
      Emits job entered (.items (e :: es) (v.type :: types)) σ σ'
  | paramsNil {entered : List String} {σ : EmitState} {scope : Scope} {ps : List Ident}
      {es : List Expr} (hend : ps = [] ∨ es = []) :
      Emits job entered (.params scope ps es scope) σ σ
  | paramsKnown {entered : List String} {σ σ' : EmitState} {scope scope₁ scope' : Scope}
      {p : Ident} {ps : List Ident} {e : Expr} {es : List Expr} {d : Datum}
      (heval : job.evaluate σ.scopes entered e = .ok (some d))
      (hdef : scope.define p (.constant d true) = .ok scope₁)
      (hes : Emits job entered (.params scope₁ ps es scope') σ σ') :
      Emits job entered (.params scope (p :: ps) (e :: es) scope') σ σ'
  | paramsStored {entered : List String} {σ σ₁ σ' : EmitState} {scope scope₁ scope' : Scope}
      {p : Ident} {ps : List Ident} {e : Expr} {es : List Expr} {t : ValueType} {slot : UInt8}
      (heval : job.evaluate σ.scopes entered e = .ok none)
      (he : Emits job entered (.expr e t) σ σ₁) (hslot : σ₁.slots.fresh = .ok slot)
      (hdef : scope.define p (.stored t slot true) = .ok scope₁)
      (hes : Emits job entered (.params scope₁ ps es scope') (σ₁.advance.add .store slot) σ') :
      Emits job entered (.params scope (p :: ps) (e :: es) scope') σ σ'
  | call {entered : List String} {σ σ₁ σ' : EmitState} {d : FunctionDef} {scope : Scope}
      {returns : Bool} {frame : Frame} (hmem : d ∈ job.file.functions)
      (hnew : d.ident.name ∉ entered)
      (hbody : Emits job (d.ident.name :: entered) (.stmts d.body returns)
        (σ.openFrame d.ident.name scope) σ₁)
      (hframe : σ₁.frames = σ.frames ++ [frame])
      (hpatch : Emit.patchAll frame.exits
        ((σ₁.leaveFrame σ.scopes σ.frames).endBody returns) = .ok () σ') :
      Emits job entered
        (.call d scope
          (ValueType.joinAll (if returns then frame.returns else .void :: frame.returns))) σ σ'
  | block {entered : List String} {σ σ' : EmitState} {body : List Stmt} {returns : Bool}
      (hbody : Emits job entered (.stmts body returns) (σ.enter {}) σ') :
      Emits job entered (.stmt (.block body) returns) σ σ'.exit
  | constant {entered : List String} {σ : EmitState} {name : Ident} {e : Expr} {d : Datum}
      {scope scope' : Scope} {outer : Scopes}
      (heval : job.evaluate σ.scopes entered e = .ok (some d))
      (hscopes : σ.scopes = scope :: outer)
      (hdef : scope.define name (.constant d true) = .ok scope') :
      Emits job entered (.stmt (.define .const name e) false) σ { σ with scopes := scope' :: outer }
  | define {entered : List String} {σ σ₁ : EmitState} {q : Qualifier} {name : Ident} {e : Expr}
      {v : Value} {slot : UInt8} {scope scope' : Scope} {outer : Scopes} (hq : q ≠ .const)
      (he : Emits job entered (.value e v) σ σ₁) (hslot : σ₁.slots.fresh = .ok slot)
      (hscopes : σ₁.scopes = scope :: outer)
      (hdef : scope.define name (.stored v.type slot q.isFinal) = .ok scope') :
      Emits job entered (.stmt (.define q name e) false) σ
        ({ σ₁.advance with scopes := scope' :: outer }.add .store slot)
  | assign {entered : List String} {σ σ₁ : EmitState} {name : Ident} {e : Expr} {v : Value}
      {t : ValueType} {slot : UInt8} (he : Emits job entered (.value e v) σ σ₁)
      (hfind : Scopes.find? σ₁.scopes name.name = some (.stored t slot false))
      (hfits : t.compatible v.type = true) :
      Emits job entered (.stmt (.assign name e) false) σ (σ₁.add .store slot)
  | returnNone {entered : List String} {σ : EmitState} {fs : List Frame} {top : Frame}
      (hframes : σ.frames = fs ++ [top]) :
      Emits job entered (.stmt (.ret none) true) σ
        { (σ.add .pushNone).hold .jump with
          frames := fs ++ [top.record .void ⟨σ.code.size + 1⟩] }
  | returnValue {entered : List String} {σ σ₁ : EmitState} {e : Expr} {v : Value}
      {fs : List Frame} {top : Frame} (he : Emits job entered (.value e v) σ σ₁)
      (hframes : σ₁.frames = fs ++ [top]) :
      Emits job entered (.stmt (.ret (some e)) true) σ
        { σ₁.hold .jump with frames := fs ++ [top.record v.type ⟨σ₁.code.size⟩] }
  | ifThen {entered : List String} {σ σ₁ σ₂ : EmitState} {cond : Expr} {v : Value}
      {yes : List Stmt} {returns : Bool} {c : Code} (hcond : Emits job entered (.value cond v) σ σ₁)
      (hbool : v.type.compatible (.of .bool) = true)
      (hyes : Emits job entered (.stmts yes returns) ((σ₁.hold .jumpUnless).enter {}) σ₂)
      (hpatch : σ₂.code.patch ⟨σ₁.code.size⟩ = .ok c) :
      Emits job entered (.stmt (.ifThen cond yes) false) σ { σ₂.exit with code := c }
  | ifElse {entered : List String} {σ σ₁ σ₂ σ₃ : EmitState} {cond : Expr} {v : Value}
      {yes no : List Stmt} {yesReturns noReturns : Bool} {c c' : Code}
      (hcond : Emits job entered (.value cond v) σ σ₁)
      (hbool : v.type.compatible (.of .bool) = true)
      (hyes : Emits job entered (.stmts yes yesReturns) ((σ₁.hold .jumpUnless).enter {}) σ₂)
      (hskip : (σ₂.hold .jump).code.patch ⟨σ₁.code.size⟩ = .ok c)
      (hno : Emits job entered (.stmts no noReturns) ({ σ₂.exit with code := c }.enter {}) σ₃)
      (hdone : σ₃.code.patch ⟨σ₂.code.size⟩ = .ok c') :
      Emits job entered (.stmt (.ifElse cond yes no) (yesReturns && noReturns)) σ
        { σ₃.exit with code := c' }
  | loop {entered : List String} {σ σ₁ σ₂ : EmitState} {name : Ident} {items : Expr}
      {body : List Stmt} {v : Value} {iter item : UInt8} {scope : Scope} {returns : Bool}
      {c c' : Code} (hitems : Emits job entered (.value items v) σ σ₁)
      (hlist : v.type.compatible .anyList = true) (hiter : σ₁.slots.fresh = .ok iter)
      (hitem : σ₁.slots.advance.fresh = .ok item)
      (hdef : Scope.define { role := some .loop } name (.stored v.type.asScalar item true)
        = .ok scope)
      (hbody : Emits job entered (.stmts body returns) (σ₁.loopBody iter item scope) σ₂)
      (hback : σ₂.code.jumpBack ⟨σ₁.code.size + 2⟩ = .ok c)
      (hexit : c.patch ⟨σ₁.code.size + 3⟩ = .ok c') :
      Emits job entered (.stmt (.loop name items body) false) σ { σ₂.exit with code := c' }
  | fail {entered : List String} {σ σ₁ : EmitState} {message : Expr} {span : Span} {v : Value}
      (hmessage : Emits job entered (.value message v) σ σ₁)
      (hstr : v.type.compatible (.of .str) = true) :
      Emits job entered (.stmt (.fail message span) true) σ (σ₁.add .fail)
  | exprKnown {entered : List String} {σ : EmitState} {e : Expr} {d : Datum}
      (heval : job.evaluate σ.scopes entered e = .ok (some d)) :
      Emits job entered (.stmt (.expr e) false) σ σ
  | exprDropped {entered : List String} {σ σ₁ : EmitState} {e : Expr} {t : ValueType}
      (heval : job.evaluate σ.scopes entered e = .ok none)
      (he : Emits job entered (.expr e t) σ σ₁) :
      Emits job entered (.stmt (.expr e) false) σ (σ₁.add .drop)
  | stmtsNil {entered : List String} {σ : EmitState} : Emits job entered (.stmts [] false) σ σ
  | stmtsCons {entered : List String} {σ σ₁ σ' : EmitState} {s : Stmt} {ss : List Stmt}
      {returns rest : Bool} (hs : Emits job entered (.stmt s returns) σ σ₁)
      (hss : Emits job entered (.stmts ss rest) σ₁ σ') :
      Emits job entered (.stmts (s :: ss) (returns || rest)) σ σ'

end Arbor
