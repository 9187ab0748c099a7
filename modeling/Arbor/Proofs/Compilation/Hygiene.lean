import Arbor.Proofs.Emission.Renaming

/-!
# Local names are hygienic

What a body binds can be seen from that body alone, and a name means nothing beyond what it is bound
to.  So when a local name of one body is replaced by a name that does not occur there, mappings are
compiled to the same code with the same constants, or end in the same problem.

* `Job.Mirrors.compileMapping_rename`: compiling commutes with injective renamings.
* `Job.compileMapping_of_renamed`: a fresh name in place of another changes nothing.
-/

namespace Arbor

open Step

variable {ρ : String → String}

/-! ## Jobs that mirror each other -/

/-- The outputs are the same. -/
def SameOutput (c : Code) (p : Pool Constant) (c' : Code) (p' : Pool Constant) : Prop :=
  c' = c ∧ p' = p

lemma concord_sameOutput : Concord SameOutput (fun _ => False) fun _ => True where
  size_eq h := congrArg Code.size h.1
  plain_of_readsConstant _ := trivial
  push b _ h := by
    obtain ⟨rfl, rfl⟩ := h
    exact ⟨rfl, rfl⟩
  reserve _ h := by
    obtain ⟨rfl, rfl⟩ := h
    exact ⟨rfl, rfl⟩
  patch a h := by
    obtain ⟨rfl, rfl⟩ := h
    cases Code.patch _ a with
    | ok d => exact .ok ⟨rfl, rfl⟩
    | error p => exact .error p
  build h := by
    obtain ⟨rfl, rfl⟩ := h
    cases Code.build _ with
    | ok bytes => exact .ok trivial
    | error p => exact .error p
  refer _ h _ _ := by
    obtain ⟨rfl, rfl⟩ := h
    exact ⟨rfl, rfl⟩
  exceed h _ := by
    obtain ⟨rfl, rfl⟩ := h
    exact .inl ⟨rfl, rfl, rfl⟩

/-- A mapping and its mirror image are compiled alike. -/
theorem Job.Mirrors.compileMapping_rename {job job' : Job} (h : job.Mirrors job')
    (hρ : Function.Injective ρ) (hroot : ρ "root" = "root") (m : MappingDef) :
    job'.compileMapping (m.rename ρ) = job.compileMapping m := by
  funext constants
  have hjob : job.EmitsAlike SameOutput (fun _ => False) (fun _ => True) job' :=
    ⟨concord_sameOutput, h, fun _ _ => trivial⟩
  have hends := hjob.parallel_emitMapping hρ m (.start constants) (.start constants)
    (EmitState.mirrors_start hroot ⟨rfl, rfl⟩)
  unfold compileMapping
  generalize hleft : job.emitMapping m (.start constants) = r at hends ⊢
  generalize hright : job'.emitMapping (m.rename ρ) (.start constants) = r' at hends ⊢
  cases hends with
  | @ok bytes bytes' σ σ' _ hmirror _ _ =>
    obtain ⟨hcode, hconstants⟩ := hmirror.output
    have hbytes := Job.build_of_emitMapping hleft
    have hbytes' := Job.build_of_emitMapping hright
    rw [hcode, hbytes] at hbytes'
    cases hbytes'
    dsimp only
    rw [hconstants]
  | error p hmirror _ _ =>
    dsimp only
    rw [hmirror.output.2]
  | strayLeft hfalse _ => exact hfalse.elim
  | strayRight hfalse _ => exact hfalse.elim

/-! ## Files -/

lemma forall₂_find? {α β : Type} {S : α → β → Prop} {p : α → Bool} {q : β → Bool} {as : List α}
    {bs : List β} (hpq : ∀ a b, S a b → p a = q b) (h : List.Forall₂ S as bs) :
    Option.Rel S (as.find? p) (bs.find? q) := by
  induction h with
  | nil => exact .none
  | @cons a b as bs hab _ ih =>
    rw [List.find?_cons, List.find?_cons, ← hpq a b hab]
    cases p a with
    | true => exact .some hab
    | false => exact ih

/-- A mapping under some injective renaming, which leaves its node its name. -/
def MappingDef.Mirrors (m m' : MappingDef) : Prop :=
  ∃ ρ : String → String, Function.Injective ρ ∧ ρ "root" = "root" ∧ m' = m.rename ρ

namespace Definition

variable {d d' : Definition}

lemma Mirrors.function? (h : d.Mirrors d') :
    Option.Rel FunctionDef.Mirrors d.function? d'.function? := by
  obtain ⟨ρ, hρ, -, rfl⟩ := h
  cases d with
  | function d => exact .some ⟨ρ, hρ, rfl⟩
  | _ => exact .none

lemma Mirrors.mapping? (h : d.Mirrors d') :
    Option.Rel MappingDef.Mirrors d.mapping? d'.mapping? := by
  obtain ⟨ρ, hρ, hroot, rfl⟩ := h
  cases d with
  | mapping m => exact .some ⟨ρ, hρ, hroot, rfl⟩
  | _ => exact .none

end Definition

/-- Files whose definitions mirror each other make jobs that do. -/
lemma Job.mirrors_of_searchOrder {f f' : File} {config : Config} {builtins : Builtins}
    (h : List.Forall₂ Definition.Mirrors f.searchOrder f'.searchOrder) :
    (⟨f, config, builtins⟩ : Job).Mirrors ⟨f', config, builtins⟩ where
  builtins := rfl
  function? name := by
    have hfunctions : List.Forall₂ FunctionDef.Mirrors f.functions f'.functions :=
      List.rel_filterMap (fun _ _ hd => hd.function?) h
    rw [File.function?_eq_find?, File.function?_eq_find?]
    refine forall₂_find? ?_ hfunctions
    rintro d _ ⟨ρ, -, rfl⟩
    rfl

/-- **Local names are hygienic.**  In one body of a file, or of a file it includes, a local name is
replaced by one that does not occur there.  Every mapping of the file is then compiled as before: to
the same bytes with the same constants, or to the same problem. -/
theorem Job.compileMapping_of_renamed {x y : String} (hx : x ≠ "root") (hy : y ≠ "root")
    {f f' : File} (h : f.Renamed x y f') (config : Config) (builtins : Builtins) :
    List.Forall₂ (fun m m' => (⟨f', config, builtins⟩ : Job).compileMapping m'
      = (⟨f, config, builtins⟩ : Job).compileMapping m) f.mappings f'.mappings := by
  obtain ⟨hown, hall⟩ := h.mirrors hx hy
  have hjob : (⟨f, config, builtins⟩ : Job).Mirrors ⟨f', config, builtins⟩ :=
    Job.mirrors_of_searchOrder hall
  have hmappings : List.Forall₂ MappingDef.Mirrors f.mappings f'.mappings :=
    List.rel_filterMap (fun _ _ hd => hd.mapping?) hown
  refine hmappings.imp ?_
  rintro m _ ⟨ρ, hρ, hroot, rfl⟩
  exact hjob.compileMapping_rename hρ hroot m

/-- A function with a local name of its choice, which it binds in two scopes, and a mapping that
calls it on an attribute. -/
def File.ofTotal (name : String) : File where
  definitions :=
    [.function ⟨⟨"total", .nowhere⟩, [⟨"item", .nowhere⟩],
        [.define .var ⟨name, .nowhere⟩ (.ref ⟨"item", .nowhere⟩ .nowhere),
          .block [.define .final ⟨name, .nowhere⟩ (.literal (.bool true) .nowhere)],
          .assign ⟨name, .nowhere⟩ (.binary .add (.ref ⟨name, .nowhere⟩ .nowhere)
            (.literal (.number (.int 1)) .nowhere) .nowhere),
          .ret (some (.ref ⟨name, .nowhere⟩ .nowhere))]⟩,
      .mapping ⟨⟨"weigh", .nowhere⟩, [],
        [.ret (some (.call ⟨"total", .nowhere⟩
          [.attr ⟨"root", .nowhere⟩ ⟨"weight", .nowhere⟩ .nowhere] .nowhere .nowhere))]⟩]
  includes := []

/-- The name may be one that the caller uses for an attribute. -/
theorem compileMapping_of_renamed_ofTotal :
    (File.ofTotal "sum").Renamed "sum" "weight" (File.ofTotal "weight") ∧
      List.Forall₂ (fun m m' =>
        (⟨File.ofTotal "weight", .optimized, .standard⟩ : Job).compileMapping m'
          = (⟨File.ofTotal "sum", .optimized, .standard⟩ : Job).compileMapping m)
        (File.ofTotal "sum").mappings (File.ofTotal "weight").mappings ∧
      (⟨File.ofTotal "sum", .optimized, .standard⟩ : Job).compileMapping ⟨⟨"weigh", .nowhere⟩, [],
        [.ret (some (.call ⟨"total", .nowhere⟩
          [.attr ⟨"root", .nowhere⟩ ⟨"weight", .nowhere⟩ .nowhere] .nowhere .nowhere))]⟩ {}
        = .ok [2, 0, 4, 0, 1, 1, 2, 1, 1, 2, 48, 0, 1, 3, 2, 2, 50, 1, 16, 0, 1, 2, 2, 2]
          ⟨[.str "weight"], by decide⟩ := by
  have hrenamed : (File.ofTotal "sum").Renamed "sum" "weight" (File.ofTotal "weight") :=
    @File.Renamed.own "sum" "weight" [] _ _ _ (by decide)
  refine ⟨hrenamed, Job.compileMapping_of_renamed (by decide) (by decide) hrenamed _ _, ?_⟩
  decide +kernel

end Arbor
