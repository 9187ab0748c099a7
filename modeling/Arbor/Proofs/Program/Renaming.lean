import Arbor.Program.File
import Mathlib.Data.List.Forall2
import Mathlib.Logic.Function.Basic
import Mathlib.Tactic.Lemma

/-!
# Renaming of local names

The names of parameters, definitions and loops are local to a body.  `Stmt.rename` changes them
wherever they are bound, assigned to or referred to, and leaves alone what is not local: the names
of callees, of attributes and of kinds, and all spans.

* `Stmt.names`: the local names of a statement.
* `File.Renamed x y`: in one body of a file or of an include, one local name has been replaced by
  another that was not there.
* `File.Renamed.mirrors`: such a file has the same definitions, in the same order, each under some
  injective renaming.
-/

namespace Arbor

/-- An identifier under another name, at the same place. -/
def Ident.rename (ρ : String → String) (i : Ident) : Ident := { i with name := ρ i.name }

/-! ## Expressions -/

mutual
/-- The expression with its local names changed. -/
def Expr.rename (ρ : String → String) : Expr → Expr
  | .literal d span => .literal d span
  | .ref name span => .ref (name.rename ρ) span
  | .attr target field span => .attr (target.rename ρ) field span
  | .unary op operand span => .unary op (operand.rename ρ) span
  | .binary op left right span => .binary op (left.rename ρ) (right.rename ρ) span
  | .call callee args site span => .call callee (Expr.renameAll ρ args) site span
  | .list items span => .list (Expr.renameAll ρ items) span

/-- The expressions with their local names changed. -/
def Expr.renameAll (ρ : String → String) : List Expr → List Expr
  | [] => []
  | e :: es => e.rename ρ :: Expr.renameAll ρ es
end

mutual
/-- The local names in an expression. -/
def Expr.names : Expr → List String
  | .literal _ _ => []
  | .ref name _ => [name.name]
  | .attr target _ _ => [target.name]
  | .unary _ operand _ => operand.names
  | .binary _ left right _ => left.names ++ right.names
  | .call _ args _ _ => Expr.namesAll args
  | .list items _ => Expr.namesAll items

/-- The local names in expressions. -/
def Expr.namesAll : List Expr → List String
  | [] => []
  | e :: es => e.names ++ Expr.namesAll es
end

/-! ## Statements -/

mutual
/-- The statement with its local names changed. -/
def Stmt.rename (ρ : String → String) : Stmt → Stmt
  | .block body => .block (Stmt.renameAll ρ body)
  | .define qualifier name value => .define qualifier (name.rename ρ) (value.rename ρ)
  | .assign name value => .assign (name.rename ρ) (value.rename ρ)
  | .ret none => .ret none
  | .ret (some value) => .ret (some (value.rename ρ))
  | .ifThen cond yes => .ifThen (cond.rename ρ) (Stmt.renameAll ρ yes)
  | .ifElse cond yes no => .ifElse (cond.rename ρ) (Stmt.renameAll ρ yes) (Stmt.renameAll ρ no)
  | .loop name items body => .loop (name.rename ρ) (items.rename ρ) (Stmt.renameAll ρ body)
  | .fail message span => .fail (message.rename ρ) span
  | .expr value => .expr (value.rename ρ)

/-- The statements with their local names changed. -/
def Stmt.renameAll (ρ : String → String) : List Stmt → List Stmt
  | [] => []
  | s :: ss => s.rename ρ :: Stmt.renameAll ρ ss
end

mutual
/-- The local names in a statement. -/
def Stmt.names : Stmt → List String
  | .block body => Stmt.namesAll body
  | .define _ name value => name.name :: value.names
  | .assign name value => name.name :: value.names
  | .ret none => []
  | .ret (some value) => value.names
  | .ifThen cond yes => cond.names ++ Stmt.namesAll yes
  | .ifElse cond yes no => cond.names ++ (Stmt.namesAll yes ++ Stmt.namesAll no)
  | .loop name items body => name.name :: (items.names ++ Stmt.namesAll body)
  | .fail message _ => message.names
  | .expr value => value.names

/-- The local names in statements. -/
def Stmt.namesAll : List Stmt → List String
  | [] => []
  | s :: ss => s.names ++ Stmt.namesAll ss
end

section

variable {ρ τ : String → String}

lemma Ident.rename_congr {i : Ident} (h : ρ i.name = τ i.name) : i.rename ρ = i.rename τ := by
  rw [rename, rename, h]

@[simp] lemma Ident.rename_id (i : Ident) : i.rename id = i := rfl

@[simp] lemma Expr.span_rename (e : Expr) : (e.rename ρ).span = e.span := by
  cases e <;> rfl

@[simp] lemma Expr.length_renameAll (es : List Expr) :
    (Expr.renameAll ρ es).length = es.length := by
  induction es with
  | nil => rfl
  | cons e es ih => rw [Expr.renameAll, List.length_cons, List.length_cons, ih]

mutual
/-- Renamings that agree on the names that occur do the same. -/
lemma Expr.rename_congr (e : Expr) (h : ∀ n ∈ e.names, ρ n = τ n) : e.rename ρ = e.rename τ := by
  match e with
  | .literal d span => rw [rename, rename]
  | .ref name span => rw [rename, rename, Ident.rename_congr (h _ (by simp [names]))]
  | .attr target field span => rw [rename, rename, Ident.rename_congr (h _ (by simp [names]))]
  | .unary op operand span =>
    rw [rename, rename, Expr.rename_congr operand fun n hn => h n (by simp [names, hn])]
  | .binary op left right span =>
    rw [rename, rename, Expr.rename_congr left fun n hn => h n (by simp [names, hn]),
      Expr.rename_congr right fun n hn => h n (by simp [names, hn])]
  | .call callee args site span =>
    rw [rename, rename, Expr.renameAll_congr args fun n hn => h n (by simp [names, hn])]
  | .list items span =>
    rw [rename, rename, Expr.renameAll_congr items fun n hn => h n (by simp [names, hn])]

lemma Expr.renameAll_congr (es : List Expr) (h : ∀ n ∈ Expr.namesAll es, ρ n = τ n) :
    Expr.renameAll ρ es = Expr.renameAll τ es := by
  match es with
  | [] => rfl
  | e :: es =>
    rw [renameAll, renameAll, Expr.rename_congr e fun n hn => h n (by simp [namesAll, hn]),
      Expr.renameAll_congr es fun n hn => h n (by simp [namesAll, hn])]
end

mutual
lemma Stmt.rename_congr (s : Stmt) (h : ∀ n ∈ s.names, ρ n = τ n) : s.rename ρ = s.rename τ := by
  match s with
  | .block body =>
    rw [rename, rename, Stmt.renameAll_congr body fun n hn => h n (by simp [names, hn])]
  | .define qualifier name value =>
    rw [rename, rename, Ident.rename_congr (h _ (by simp [names])),
      Expr.rename_congr value fun n hn => h n (by simp [names, hn])]
  | .assign name value =>
    rw [rename, rename, Ident.rename_congr (h _ (by simp [names])),
      Expr.rename_congr value fun n hn => h n (by simp [names, hn])]
  | .ret none => rw [rename, rename]
  | .ret (some value) =>
    rw [rename, rename, Expr.rename_congr value fun n hn => h n (by simp [names, hn])]
  | .ifThen cond yes =>
    rw [rename, rename, Expr.rename_congr cond fun n hn => h n (by simp [names, hn]),
      Stmt.renameAll_congr yes fun n hn => h n (by simp [names, hn])]
  | .ifElse cond yes no =>
    rw [rename, rename, Expr.rename_congr cond fun n hn => h n (by simp [names, hn]),
      Stmt.renameAll_congr yes fun n hn => h n (by simp [names, hn]),
      Stmt.renameAll_congr no fun n hn => h n (by simp [names, hn])]
  | .loop name items body =>
    rw [rename, rename, Ident.rename_congr (h _ (by simp [names])),
      Expr.rename_congr items fun n hn => h n (by simp [names, hn]),
      Stmt.renameAll_congr body fun n hn => h n (by simp [names, hn])]
  | .fail message span =>
    rw [rename, rename, Expr.rename_congr message fun n hn => h n (by simp [names, hn])]
  | .expr value =>
    rw [rename, rename, Expr.rename_congr value fun n hn => h n (by simp [names, hn])]

lemma Stmt.renameAll_congr (ss : List Stmt) (h : ∀ n ∈ Stmt.namesAll ss, ρ n = τ n) :
    Stmt.renameAll ρ ss = Stmt.renameAll τ ss := by
  match ss with
  | [] => rfl
  | s :: ss =>
    rw [renameAll, renameAll, Stmt.rename_congr s fun n hn => h n (by simp [namesAll, hn]),
      Stmt.renameAll_congr ss fun n hn => h n (by simp [namesAll, hn])]
end

mutual
@[simp] lemma Expr.rename_id (e : Expr) : e.rename id = e := by
  match e with
  | .literal d span => rfl
  | .ref name span => rfl
  | .attr target field span => rfl
  | .unary op operand span => rw [rename, Expr.rename_id operand]
  | .binary op left right span => rw [rename, Expr.rename_id left, Expr.rename_id right]
  | .call callee args site span => rw [rename, Expr.renameAll_id args]
  | .list items span => rw [rename, Expr.renameAll_id items]

@[simp] lemma Expr.renameAll_id (es : List Expr) : Expr.renameAll id es = es := by
  match es with
  | [] => rfl
  | e :: es => rw [renameAll, Expr.rename_id e, Expr.renameAll_id es]
end

mutual
@[simp] lemma Stmt.rename_id (s : Stmt) : s.rename id = s := by
  match s with
  | .block body => rw [rename, Stmt.renameAll_id body]
  | .define qualifier name value => rw [rename, Ident.rename_id, Expr.rename_id]
  | .assign name value => rw [rename, Ident.rename_id, Expr.rename_id]
  | .ret none => rfl
  | .ret (some value) => rw [rename, Expr.rename_id]
  | .ifThen cond yes => rw [rename, Expr.rename_id, Stmt.renameAll_id yes]
  | .ifElse cond yes no =>
    rw [rename, Expr.rename_id, Stmt.renameAll_id yes, Stmt.renameAll_id no]
  | .loop name items body => rw [rename, Ident.rename_id, Expr.rename_id, Stmt.renameAll_id body]
  | .fail message span => rw [rename, Expr.rename_id]
  | .expr value => rw [rename, Expr.rename_id]

@[simp] lemma Stmt.renameAll_id (ss : List Stmt) : Stmt.renameAll id ss = ss := by
  match ss with
  | [] => rfl
  | s :: ss => rw [renameAll, Stmt.rename_id s, Stmt.renameAll_id ss]
end

end

/-! ## Definitions -/

/-- The function with its local names changed. -/
def FunctionDef.rename (ρ : String → String) (d : FunctionDef) : FunctionDef where
  ident := d.ident
  params := d.params.map (Ident.rename ρ)
  body := Stmt.renameAll ρ d.body

/-- The local names of a function. -/
def FunctionDef.names (d : FunctionDef) : List String :=
  d.params.map (·.name) ++ Stmt.namesAll d.body

/-- The mapping with its local names changed. -/
def MappingDef.rename (ρ : String → String) (m : MappingDef) : MappingDef where
  ident := m.ident
  labels := m.labels
  body := Stmt.renameAll ρ m.body

/-- The definition with its local names changed.  Constraints are left alone. -/
def Definition.rename (ρ : String → String) : Definition → Definition
  | .function d => .function (d.rename ρ)
  | .mapping m => .mapping (m.rename ρ)
  | d => d

/-- The local names of a definition. -/
def Definition.names : Definition → List String
  | .function d => d.names
  | .mapping m => Stmt.namesAll m.body
  | _ => []

lemma FunctionDef.rename_congr {ρ τ : String → String} {d : FunctionDef}
    (h : ∀ n ∈ d.names, ρ n = τ n) : d.rename ρ = d.rename τ := by
  rw [rename, rename, Stmt.renameAll_congr d.body fun n hn => h n (by simp [names, hn])]
  congr 1
  refine List.map_congr_left fun p hp => Ident.rename_congr (h _ ?_)
  exact List.mem_append_left _ (List.mem_map_of_mem hp)

@[simp] lemma FunctionDef.rename_id (d : FunctionDef) : d.rename id = d := by
  have hparams : d.params.map (Ident.rename id) = d.params := List.map_id' d.params
  rw [rename, hparams, Stmt.renameAll_id]

lemma Definition.rename_congr {ρ τ : String → String} {d : Definition}
    (h : ∀ n ∈ d.names, ρ n = τ n) : d.rename ρ = d.rename τ := by
  cases d with
  | function d => exact congrArg Definition.function (FunctionDef.rename_congr h)
  | mapping m =>
    have hbody : Stmt.renameAll ρ m.body = Stmt.renameAll τ m.body := Stmt.renameAll_congr _ h
    rw [rename, rename, MappingDef.rename, MappingDef.rename, hbody]
  | _ => rfl

@[simp] lemma MappingDef.rename_id (m : MappingDef) : m.rename id = m := by
  rw [rename, Stmt.renameAll_id]

@[simp] lemma Definition.rename_id (d : Definition) : d.rename id = d := by
  cases d with
  | function d => exact congrArg Definition.function d.rename_id
  | mapping m => exact congrArg Definition.mapping m.rename_id
  | _ => rfl

/-! ## Replacing one name -/

/-- The renaming that replaces one name by another. -/
def replaceName (x y : String) (n : String) : String := if n = x then y else n

/-- The renaming that exchanges two names. -/
def exchangeNames (x y : String) (n : String) : String :=
  if n = x then y else if n = y then x else n

lemma exchangeNames_exchangeNames (x y n : String) :
    exchangeNames x y (exchangeNames x y n) = n := by
  unfold exchangeNames
  split <;> split <;> simp_all

lemma injective_exchangeNames (x y : String) : Function.Injective (exchangeNames x y) :=
  Function.LeftInverse.injective (exchangeNames_exchangeNames x y)

/-- Where the second name does not occur, replacing the first by it is as good as exchanging
them. -/
lemma Definition.rename_replaceName {x y : String} {d : Definition} (hy : y ∉ d.names) :
    d.rename (replaceName x y) = d.rename (exchangeNames x y) := by
  refine Definition.rename_congr fun n hn => ?_
  have hne : n ≠ y := fun h => hy (h ▸ hn)
  simp [replaceName, exchangeNames, hne]

/-- A local name that is not used in one of the definitions of a file, or of a file it includes,
takes the place of another there. -/
inductive File.Renamed (x y : String) : File → File → Prop
  | own {before after : List Definition} {d : Definition} {includes : List File}
      (hfresh : y ∉ d.names) :
      File.Renamed x y ⟨before ++ d :: after, includes⟩
        ⟨before ++ d.rename (replaceName x y) :: after, includes⟩
  | included {definitions : List Definition} {before after : List File} {f f' : File}
      (h : File.Renamed x y f f') :
      File.Renamed x y ⟨definitions, before ++ f :: after⟩ ⟨definitions, before ++ f' :: after⟩

/-- A definition under some injective renaming, which leaves the node of mappings its name. -/
def Definition.Mirrors (d d' : Definition) : Prop :=
  ∃ ρ : String → String, Function.Injective ρ ∧ ρ "root" = "root" ∧ d' = d.rename ρ

lemma Definition.Mirrors.refl (d : Definition) : d.Mirrors d :=
  ⟨id, Function.injective_id, rfl, d.rename_id.symm⟩

lemma Definition.mirrors_replaceName {x y : String} (hx : x ≠ "root") (hy : y ≠ "root")
    {d : Definition} (hfresh : y ∉ d.names) : d.Mirrors (d.rename (replaceName x y)) := by
  refine ⟨exchangeNames x y, injective_exchangeNames x y, ?_, rename_replaceName hfresh⟩
  simp [exchangeNames, hx.symm, hy.symm]

lemma forall₂_mirrors_refl (ds : List Definition) : List.Forall₂ Definition.Mirrors ds ds :=
  List.forall₂_same.2 fun d _ => Definition.Mirrors.refl d

namespace File

variable {x y : String} {f f' : File}

/-- The definitions of the includes, around those of one of them. -/
lemma searchOrderAll_append_cons (before after : List File) (f : File) :
    searchOrderAll (before ++ f :: after)
      = searchOrderAll after ++ (f.searchOrder ++ searchOrderAll before) := by
  simp [searchOrderAll_eq_flatMap]

lemma Renamed.mirrors (hx : x ≠ "root") (hy : y ≠ "root") (h : Renamed x y f f') :
    List.Forall₂ Definition.Mirrors f.definitions f'.definitions ∧
      List.Forall₂ Definition.Mirrors f.searchOrder f'.searchOrder := by
  induction h with
  | @own before after d includes hfresh =>
    have hdefs : List.Forall₂ Definition.Mirrors (before ++ d :: after)
        (before ++ d.rename (replaceName x y) :: after) :=
      List.rel_append (forall₂_mirrors_refl before)
        (.cons (Definition.mirrors_replaceName hx hy hfresh) (forall₂_mirrors_refl after))
    refine ⟨hdefs, ?_⟩
    rw [searchOrder, searchOrder]
    exact List.rel_append hdefs (forall₂_mirrors_refl _)
  | @included definitions before after f f' _ ih =>
    refine ⟨forall₂_mirrors_refl definitions, ?_⟩
    rw [searchOrder, searchOrder, searchOrderAll_append_cons, searchOrderAll_append_cons]
    exact List.rel_append (forall₂_mirrors_refl _) (List.rel_append (forall₂_mirrors_refl _)
      (List.rel_append ih.2 (forall₂_mirrors_refl _)))

end File

end Arbor
