import Arbor.Job.Basic
import Arbor.Proofs.Problem.Raises
import Mathlib.Logic.Relation

/-!
# Who calls whom

The functions of a job call each other by name, and so do its constraint types.  `CallGraph` says
whom a definition calls: names are resolved, and a definition has an edge to each that one of its
names is resolved to.

While definitions are expanded, each of those entered leads, by one edge or more, to whatever the
code at hand calls (`CallGraph.Follows`).  So if that has been entered before, it leads to itself,
and a problem that reports recursion is justified (`Job.Justified`).
-/

namespace Arbor

open Relation

/-- Definitions that call each other by name. -/
structure CallGraph (δ : Type) where
  /-- The definition that a name is resolved to. -/
  find? : String → Option δ
  /-- The names that a definition calls. -/
  callees : δ → List String

namespace CallGraph

variable {δ : Type} {G : CallGraph δ} {entered called : List String} {c : String} {d : δ}

/-- One definition calls another. -/
def Calls (G : CallGraph δ) (d d' : δ) : Prop := ∃ c ∈ G.callees d, G.find? c = some d'

/-- Some definition calls itself, directly or through others. -/
def Cyclic (G : CallGraph δ) : Prop := ∃ d, TransGen G.Calls d d

/-- Everything entered leads to what the names `called` are resolved to. -/
def Follows (G : CallGraph δ) (entered called : List String) : Prop :=
  ∀ x ∈ entered, ∀ c ∈ called, ∀ d, G.find? c = some d →
    ∃ d₀, G.find? x = some d₀ ∧ TransGen G.Calls d₀ d

lemma follows_nil (called : List String) : G.Follows [] called := by simp [Follows]

/-- The body of a definition that is called is the next code at hand. -/
lemma Follows.enter (h : G.Follows entered called) (hc : c ∈ called) (hd : G.find? c = some d) :
    G.Follows (c :: entered) (G.callees d) := by
  intro x hx c' hc' d' hd'
  have hcalls : G.Calls d d' := ⟨c', hc', hd'⟩
  rcases List.mem_cons.1 hx with rfl | hx
  · exact ⟨d, hd, .single hcalls⟩
  · obtain ⟨d₀, hd₀, hpath⟩ := h x hx c hc d hd
    exact ⟨d₀, hd₀, hpath.tail hcalls⟩

/-- What is called although it has been entered leads to itself. -/
lemma Follows.cyclic (h : G.Follows entered called) (hc : c ∈ called) (hd : G.find? c = some d)
    (hmem : c ∈ entered) : G.Cyclic := by
  obtain ⟨d₀, hd₀, hpath⟩ := h c hmem c hc d hd
  cases hd₀.symm.trans hd
  exact ⟨d, hpath⟩

/-- There are no cycles if calls lead down a ranking of the names. -/
lemma not_cyclic_of_rank {name : δ → String} (hname : ∀ {c d}, G.find? c = some d → name d = c)
    {names : List String} (hmem : ∀ {c d}, G.find? c = some d → c ∈ names) (rank : String → Nat)
    (h : ∀ c ∈ names, ∀ d ∈ G.find? c, ∀ c' ∈ G.callees d, ∀ _ ∈ G.find? c', rank c' < rank c) :
    ¬ G.Cyclic := by
  have hcalls : ∀ {c d d'}, G.find? c = some d → G.Calls d d' → rank (name d') < rank (name d) := by
    rintro c d d' hd ⟨c', hc', hd'⟩
    rw [hname hd, hname hd']
    exact h c (hmem hd) d hd c' hc' d' hd'
  have hfound : ∀ {d d'}, TransGen G.Calls d d' → ∃ c, G.find? c = some d' := by
    intro d d' hpath
    obtain ⟨_, -, c, -, hc⟩ := TransGen.tail'_iff.1 hpath
    exact ⟨c, hc⟩
  rintro ⟨d, hcycle⟩
  obtain ⟨c, hd⟩ := hfound hcycle
  have hdown : ∀ d', TransGen G.Calls d d' → rank (name d') < rank (name d) := by
    intro d' hpath
    induction hpath with
    | single hstep => exact hcalls hd hstep
    | tail hpath hstep ih =>
      obtain ⟨c', hc'⟩ := hfound hpath
      exact Nat.lt_trans (hcalls hc' hstep) ih
  exact Nat.lt_irrefl _ (hdown d hcycle)

end CallGraph

/-! ## Called names -/

mutual
/-- The names that an expression calls. -/
def Expr.callees : Expr → List String
  | .literal _ _ => []
  | .ref _ _ => []
  | .attr _ _ _ => []
  | .unary _ operand _ => operand.callees
  | .binary _ left right _ => left.callees ++ right.callees
  | .call name args _ _ => name.name :: Expr.calleesAll args
  | .list items _ => Expr.calleesAll items

/-- The names that several expressions call. -/
def Expr.calleesAll : List Expr → List String
  | [] => []
  | e :: es => e.callees ++ Expr.calleesAll es
end

mutual
/-- The names that a statement calls. -/
def Stmt.callees : Stmt → List String
  | .block body => Stmt.calleesAll body
  | .define _ _ value => value.callees
  | .assign _ value => value.callees
  | .ret none => []
  | .ret (some value) => value.callees
  | .ifThen cond yes => cond.callees ++ Stmt.calleesAll yes
  | .ifElse cond yes no => cond.callees ++ (Stmt.calleesAll yes ++ Stmt.calleesAll no)
  | .loop _ items body => items.callees ++ Stmt.calleesAll body
  | .fail message _ => message.callees
  | .expr value => value.callees

/-- The names that several statements call. -/
def Stmt.calleesAll : List Stmt → List String
  | [] => []
  | s :: ss => s.callees ++ Stmt.calleesAll ss
end

mutual
/-- The constraint types that a goal applies. -/
def Goal.targets : Goal → List String
  | .block _ body => Goal.targetsAll body
  | .attr _ _ _ => []
  | .measure _ _ _ => []
  | .select _ _ _ => []
  | .within _ _ _ _ body => Goal.targetsAll body
  | .apply _ _ target => [target.callee.name]

/-- The constraint types that several goals apply. -/
def Goal.targetsAll : List Goal → List String
  | [] => []
  | g :: gs => g.targets ++ Goal.targetsAll gs
end

/-! ## The graphs of a job -/

namespace Job

variable (job : Job)

/-- The functions of a job.  The name of a builtin is never that of a function. -/
def functionGraph : CallGraph FunctionDef where
  find? name := if (job.builtins.overloads? name).isSome then none else job.file.function? name
  callees d := Stmt.calleesAll d.body

/-- The constraint types of a job. -/
def constraintGraph : CallGraph ConstraintType where
  find? := job.file.constraintType?
  callees d := Goal.targetsAll d.body

variable {job}

lemma functionGraph_find?_of_callee {name : Ident} {d : FunctionDef} {mem : d ∈ job.file.functions}
    (h : job.callee name = .ok (.function d mem)) :
    job.functionGraph.find? name.name = some d := by
  unfold callee at h
  split at h
  · cases h
  · next hnone =>
    split at h
    · next d' hd' =>
      cases h
      simp [functionGraph, hnone, hd']
    · cases h

lemma constraintGraph_find?_of_constraintType {name : Ident}
    {d : { d : ConstraintType // d ∈ job.file.constraintTypes }}
    (h : job.constraintType name = .ok d) : job.constraintGraph.find? name.name = some d.1 := by
  unfold constraintType at h
  split at h
  · next d' hd' =>
    cases h
    exact hd'
  · cases h

lemma function?_of_functionGraph_find? {c : String} {d : FunctionDef}
    (h : job.functionGraph.find? c = some d) : job.file.function? c = some d := by
  unfold functionGraph at h
  simp only at h
  split at h
  · cases h
  · exact h

/-- A function is found under its own name only. -/
lemma name_of_functionGraph_find? {c : String} {d : FunctionDef}
    (h : job.functionGraph.find? c = some d) : d.ident.name = c := by
  have hfind := function?_of_functionGraph_find? h
  rw [File.function?_eq_find?] at hfind
  simpa using List.find?_some hfind

lemma mem_functionNames_of_functionGraph_find? {c : String} {d : FunctionDef}
    (h : job.functionGraph.find? c = some d) : c ∈ job.functionNames := by
  obtain rfl := name_of_functionGraph_find? h
  exact List.mem_map_of_mem (File.mem_functions_of_function? (function?_of_functionGraph_find? h))

lemma name_of_constraintGraph_find? {c : String} {d : ConstraintType}
    (h : job.constraintGraph.find? c = some d) : d.ident.name = c := by
  have hfind : job.file.constraintType? c = some d := h
  rw [File.constraintType?_eq_find?] at hfind
  simpa using List.find?_some hfind

lemma mem_constraintNames_of_constraintGraph_find? {c : String} {d : ConstraintType}
    (h : job.constraintGraph.find? c = some d) : c ∈ job.constraintNames := by
  obtain rfl := name_of_constraintGraph_find? h
  exact List.mem_map_of_mem (File.mem_constraintTypes_of_constraintType? h)

/-- A problem that reports recursion only where there is some. -/
def Justified (job : Job) : Problem → Prop
  | .fault .recursiveFunction _ => job.functionGraph.Cyclic
  | .fault .recursiveConstraint _ => job.constraintGraph.Cyclic
  | _ => True

lemma justified_of_isPlain {p : Problem} (h : p.IsPlain) : job.Justified p := by
  unfold Justified
  split
  · exact absurd h id
  · exact absurd h id
  · trivial

end Job

end Arbor
