import Arbor.Proofs.Emission.Agreement
import Arbor.Proofs.Emission.Coverage

/-!
# Static types and evaluation

Wherever emission is at work, an expression is given a static type.  If data that fit their types
take the place of what is stored, the expression may evaluate to a datum.  The static type bounds
that datum.  It fits a list where assignments on the way keep tags, and a scalar where joins keep
the shape.

* `Emission.covers_of_acceptExpr`: bounds, and types that fit.
* `Emission.covers_of_items_flip`: a list from a body with two returns, a scalar from a body that
  assigns.
* `Emission.not_compatible_of_two_last`: a scalar with a type of lists, and a list of strings with a
  type of lists of numbers.
-/

namespace Arbor.Emission

variable {job : Job} {σ σ' : EmitState}

/-- **Static types cover values.**  In every state in which emission is at work let names that are
stored stand for data that fit their types.  If an expression evaluates to a datum there, its static
type is a type of lists if the datum is a list, and has the tag of the datum if it is a scalar; so
it fits each datum if it is a type of scalars.  It fits a list if every list that is assigned on the
way to the value has no other tags than its variable, and a scalar if no body that is inlined on the
way joins lists and scalars. -/
theorem covers_of_acceptExpr (hstd : job.builtins = .standard) (hσ : Visited job σ)
    {e : Expr} {v : Value} (h : job.acceptExpr true e σ = .ok v σ')
    {ss : Scopes} (hss : Scopes.Admit (fun d t => d.type.compatible t = true) σ.scopes ss)
    {d : Datum} (hd : job.evaluate ss σ.inlining e = .ok (some d)) :
    (d.isList = true → v.type.isList = true) ∧
      (d.isList = false → d.type.tags.overlaps v.type.tags = true) ∧
      (v.type.isList = false → d.type.compatible v.type = true) ∧
      (d.isList = true → (∀ n, Meets job σ.inlining (.value e v) σ n → n.KeepsTags) →
        d.type.compatible v.type = true) ∧
      (d.isList = false → (∀ n, Meets job σ.inlining (.value e v) σ n → n.KeepsShape) →
        d.type.compatible v.type = true) := by
  have hsound := hσ.sound hstd
  have hemits := (derives_value hstd (derives_emitCall hstd σ.inlining) e hsound).of_ok h
  have hcovered {C : Datum → ValueType → Prop} {A : Note → Prop} (hC : Coverage C A)
      (hnotes : ∀ n, Meets job σ.inlining (.value e v) σ n → A n) : C d v.type :=
    hemits.covered hstd hC hsound trivial hnotes ss d (hss.mono fun _ _ => hC.of_compatible) hd
  have hbounds := hcovered coverage_bounds fun _ _ => trivial
  refine ⟨hbounds.isList, hbounds.overlaps, hbounds.compatible, fun hlist hnotes => ?_,
    fun hscalar hnotes => ?_⟩
  · obtain ⟨-, hshare⟩ := hcovered coverage_tags hnotes
    have hshape : d.type.isList = v.type.isList := by
      rw [d.isList_type, hlist, hbounds.isList hlist]
    exact ValueType.compatible_iff.2 ⟨hshape, TagSet.overlaps_iff.1 hshare⟩
  · obtain ⟨-, -, hshape⟩ := hcovered coverage_shape hnotes
    exact hbounds.compatible (hshape.symm.trans hscalar)

/-! ## A body that is entered with a flag -/

lemma exists_ok_of_run {α : Type} {x : Emit α} {a : α} (h : EStateM.run' x σ = some a) :
    ∃ σ', x σ = .ok a σ' := by
  have hrun : ∀ r, x σ = r → EStateM.run' (fun _ => r) σ = some a := by
    rintro _ rfl
    exact h
  cases hx : x σ with
  | ok b σ' =>
    cases hrun _ hx
    exact ⟨σ', rfl⟩
  | error p σ' => cases hrun _ hx

/-- The function that is entered. -/
def enterDef : FunctionDef where
  ident := ⟨"enter", .nowhere⟩
  params := [⟨"flag", .nowhere⟩]
  body := [.ret (some (.ref ⟨"flag", .nowhere⟩ .nowhere))]

/-- A job with that function and others. -/
def enterJob (fs : List FunctionDef) : Job where
  file := ⟨(enterDef :: fs).map .function, []⟩

/-- The state in which the body starts.  Nothing but the flag is in scope. -/
def enterState : EmitState where
  code := ⟨[⟨.pushTrue, .byte 0⟩, ⟨.store, .byte 1⟩, ⟨.load, .byte 1⟩, ⟨.store, .byte 2⟩]⟩
  slots := ⟨3⟩
  scopes := [⟨[("flag", .stored (.of .bool) 2 true)], some (.function 1)⟩]
  frames := [{}, {}]
  inlining := ["enter"]

/-- The flag is set. -/
def enterScopes : Scopes := [⟨[("flag", .constant (.bool true) true)], some (.function 1)⟩]

/-- A call of a function with the flag. -/
def callFlag (name : String) : Expr :=
  .call ⟨name, .nowhere⟩ [.ref ⟨"flag", .nowhere⟩ .nowhere] .nowhere .nowhere

lemma visited_enterState (fs : List FunctionDef) : Visited (enterJob fs) enterState := by
  have hparams : emitParams (emitCall (enterJob fs) []) { role := some (.function 1) }
      enterDef.params [.ref ⟨"flag", .nowhere⟩ .nowhere] flagState =
        .ok ⟨[("flag", .stored (.of .bool) 2 true)], some (.function 1)⟩
          { flagState with code := enterState.code, slots := ⟨3⟩ } := by
    rfl
  have hmem : enterDef ∈ (enterJob fs).file.functions := by
    simp [enterJob, File.functions, File.searchOrder, Definition.function?]
  exact .body (visited_flagState _) hmem List.not_mem_nil hparams

lemma admit_enterScopes :
    Scopes.Admit (fun d t => d.type.compatible t = true) enterState.scopes enterScopes := by
  have hflag : Binding.Admits (fun d t => d.type.compatible t = true)
      (.stored (.of .bool) 2 true) (.constant (.bool true) true) := .datum rfl 2 true true
  have hempty : Scopes.Admit (fun d t => d.type.compatible t = true)
      [⟨[], some (.function 1)⟩] [⟨[], some (.function 1)⟩] := Scopes.Admit.nil.open_empty rfl rfl
  exact hempty.bind "flag" hflag

/-- `return ["a"]` where the flag is set, and `return [1]` otherwise. -/
def itemsDef : FunctionDef where
  ident := ⟨"items", .nowhere⟩
  params := [⟨"c", .nowhere⟩]
  body :=
    [.ifThen (.ref ⟨"c", .nowhere⟩ .nowhere)
        [.ret (some (.list [.literal (.str "a") .nowhere] .nowhere))],
      .ret (some (.list [.literal (.number (.int 1)) .nowhere] .nowhere))]

/-- `var x = c; x = !x; return x` -/
def flipDef : FunctionDef where
  ident := ⟨"flip", .nowhere⟩
  params := [⟨"c", .nowhere⟩]
  body :=
    [.define .var ⟨"x", .nowhere⟩ (.ref ⟨"c", .nowhere⟩ .nowhere),
      .assign ⟨"x", .nowhere⟩ (.unary .not (.ref ⟨"x", .nowhere⟩ .nowhere) .nowhere),
      .ret (some (.ref ⟨"x", .nowhere⟩ .nowhere))]

/-- With the flag as an argument: a list from a body with two returns, and a scalar from a body that
assigns. -/
theorem covers_of_items_flip :
    Scopes.Admit (fun d t => d.type.compatible t = true) enterState.scopes enterScopes ∧
    (Visited (enterJob [itemsDef]) enterState ∧
      (∃ σ', (enterJob [itemsDef]).acceptExpr true (callFlag "items")
        enterState = .ok (.runtime ((ValueType.of .num).join (.of .str)).asList) σ') ∧
      (enterJob [itemsDef]).evaluate enterScopes ["enter"] (callFlag "items") =
        .ok (some (.list [.str "a"])) ∧
      (Datum.list [.str "a"]).type.compatible ((ValueType.of .num).join (.of .str)).asList =
        true) ∧
    Visited (enterJob [flipDef]) enterState ∧
      (∃ σ', (enterJob [flipDef]).acceptExpr true (callFlag "flip")
        enterState = .ok (.runtime (.of .bool)) σ') ∧
      (enterJob [flipDef]).evaluate enterScopes ["enter"] (callFlag "flip") =
        .ok (some (.bool false)) ∧
      (Datum.bool false).type.compatible (.of .bool) = true := by
  have hitems : EStateM.run' ((enterJob [itemsDef]).acceptExpr true
      (callFlag "items")) enterState =
        some (.runtime ((ValueType.of .num).join (.of .str)).asList) := by
    decide +kernel
  have hflip : EStateM.run' ((enterJob [flipDef]).acceptExpr true
      (callFlag "flip")) enterState = some (.runtime (.of .bool)) := by
    decide +kernel
  have hlist : (enterJob [itemsDef]).evaluate enterScopes ["enter"] (callFlag "items") =
      .ok (some (.list [.str "a"])) := by
    decide +kernel
  have hscalar : (enterJob [flipDef]).evaluate enterScopes ["enter"] (callFlag "flip") =
      .ok (some (.bool false)) := by
    decide +kernel
  obtain ⟨σ₁, hitems⟩ := exists_ok_of_run hitems
  obtain ⟨σ₂, hflip⟩ := exists_ok_of_run hflip
  have hvisited₁ := visited_enterState [itemsDef]
  have hvisited₂ := visited_enterState [flipDef]
  obtain ⟨-, -, -, htags, -⟩ := covers_of_acceptExpr rfl hvisited₁ hitems admit_enterScopes hlist
  obtain ⟨-, -, -, -, hshape⟩ := covers_of_acceptExpr rfl hvisited₂ hflip admit_enterScopes hscalar
  refine ⟨admit_enterScopes, ⟨hvisited₁, ⟨σ₁, hitems⟩, hlist, htags rfl fun n hn => ?_⟩,
    hvisited₂, ⟨σ₂, hflip⟩, hscalar, hshape rfl fun n hn => ?_⟩
  · exact hn.keepsTags (by decide) le_rfl
  · exact hn.keepsShape (by decide) (Nat.zero_le 1)

/-- `return 2; return [c]` -/
def twoDef : FunctionDef where
  ident := ⟨"two", .nowhere⟩
  params := [⟨"c", .nowhere⟩]
  body :=
    [.ret (some (.literal (.number (.int 2)) .nowhere)),
      .ret (some (.list [.ref ⟨"c", .nowhere⟩ .nowhere] .nowhere))]

/-- `var x = [1]; x = [1, "a"]; x = items(c); return x` -/
def lastDef : FunctionDef where
  ident := ⟨"last", .nowhere⟩
  params := [⟨"c", .nowhere⟩]
  body :=
    [.define .var ⟨"x", .nowhere⟩ (.list [.literal (.number (.int 1)) .nowhere] .nowhere),
      .assign ⟨"x", .nowhere⟩
        (.list [.literal (.number (.int 1)) .nowhere, .literal (.str "a") .nowhere] .nowhere),
      .assign ⟨"x", .nowhere⟩
        (.call ⟨"items", .nowhere⟩ [.ref ⟨"c", .nowhere⟩ .nowhere] .nowhere .nowhere),
      .ret (some (.ref ⟨"x", .nowhere⟩ .nowhere))]

/-- A job with functions whose static types do not fit. -/
def driftJob : Job := enterJob [twoDef, itemsDef, lastDef]

/-- Neither condition can be dropped.  The value of `two` is a number, and its type is a type of
lists because of a return that is never reached.  The value of `last` is a list of strings.  Its
type is that of the first list, which shares a tag with each list that is assigned. -/
theorem not_compatible_of_two_last :
    Visited driftJob enterState ∧
      Scopes.Admit (fun d t => d.type.compatible t = true) enterState.scopes enterScopes ∧
      ((∃ σ', driftJob.acceptExpr true (callFlag "two") enterState =
          .ok (.runtime ((ValueType.of .num).join (.of .bool)).asList) σ') ∧
        driftJob.evaluate enterScopes ["enter"] (callFlag "two") =
          .ok (some (.number (.int 2))) ∧
        (Datum.number (.int 2)).type.compatible ((ValueType.of .num).join (.of .bool)).asList =
          false) ∧
      (∃ σ', driftJob.acceptExpr true (callFlag "last") enterState =
          .ok (.runtime (ValueType.of .num).asList) σ') ∧
        driftJob.evaluate enterScopes ["enter"] (callFlag "last") =
          .ok (some (.list [.str "a"])) ∧
        (Datum.list [.str "a"]).type.compatible (ValueType.of .num).asList = false := by
  have htwo : EStateM.run' (driftJob.acceptExpr true (callFlag "two"))
      enterState = some (.runtime ((ValueType.of .num).join (.of .bool)).asList) := by
    decide +kernel
  have hlast : EStateM.run' (driftJob.acceptExpr true (callFlag "last"))
      enterState = some (.runtime (ValueType.of .num).asList) := by
    decide +kernel
  refine ⟨visited_enterState _, admit_enterScopes,
    ⟨exists_ok_of_run htwo, ?_, rfl⟩, exists_ok_of_run hlast, ?_, rfl⟩
  · decide +kernel
  · decide +kernel

end Arbor.Emission
