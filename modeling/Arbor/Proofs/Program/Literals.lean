import Arbor.Program.File
import Mathlib.Tactic.Lemma

/-!
# The literals of a program

`File.literals` lists the data that are written in a file or in a file it includes: in bodies of
functions and mappings, and as values and arguments in constraints and predicates.
-/

namespace Arbor

/-! ## Expressions and statements -/

mutual
/-- The data written in an expression. -/
def Expr.literals : Expr → List Datum
  | .literal d _ => [d]
  | .ref _ _ => []
  | .attr _ _ _ => []
  | .unary _ operand _ => operand.literals
  | .binary _ left right _ => left.literals ++ right.literals
  | .call _ args _ _ => Expr.literalsAll args
  | .list items _ => Expr.literalsAll items

/-- The data written in several expressions. -/
def Expr.literalsAll : List Expr → List Datum
  | [] => []
  | e :: es => e.literals ++ Expr.literalsAll es
end

mutual
/-- The data written in a statement. -/
def Stmt.literals : Stmt → List Datum
  | .block body => Stmt.literalsAll body
  | .define _ _ value => value.literals
  | .assign _ value => value.literals
  | .ret none => []
  | .ret (some value) => value.literals
  | .ifThen cond yes => cond.literals ++ Stmt.literalsAll yes
  | .ifElse cond yes no => cond.literals ++ (Stmt.literalsAll yes ++ Stmt.literalsAll no)
  | .loop _ items body => items.literals ++ Stmt.literalsAll body
  | .fail message _ => message.literals
  | .expr value => value.literals

/-- The data written in several statements. -/
def Stmt.literalsAll : List Stmt → List Datum
  | [] => []
  | s :: ss => s.literals ++ Stmt.literalsAll ss
end

/-! ## Constraints -/

/-- The data written in the arguments of a predicate or constraint type. -/
def Application.literals (a : Application) : List Datum := Expr.literalsAll a.args

mutual
/-- The data written in a statement of a predicate. -/
def Test.literals : Test → List Datum
  | .block _ body => Test.literalsAll body
  | .measure _ _ value => value.literals

/-- The data written in statements of a predicate. -/
def Test.literalsAll : List Test → List Datum
  | [] => []
  | t :: ts => t.literals ++ Test.literalsAll ts
end

mutual
/-- The data written in a statement of a constraint. -/
def Goal.literals : Goal → List Datum
  | .block _ body => Goal.literalsAll body
  | .attr _ _ value => value.literals
  | .measure _ _ value => value.literals
  | .select _ predicate _ => predicate.literals
  | .within _ predicate _ _ body => predicate.literals ++ Goal.literalsAll body
  | .apply _ predicate target => predicate.literals ++ target.literals

/-- The data written in statements of a constraint. -/
def Goal.literalsAll : List Goal → List Datum
  | [] => []
  | g :: gs => g.literals ++ Goal.literalsAll gs
end

/-! ## Files -/

/-- The data written in a definition. -/
def Definition.literals : Definition → List Datum
  | .main d => Goal.literalsAll d.body
  | .constraintType d => Goal.literalsAll d.body
  | .predicate d => Test.literalsAll d.body
  | .function d => Stmt.literalsAll d.body
  | .mapping d => Stmt.literalsAll d.body

/-- The data written in a file and in the files it includes. -/
def File.literals (f : File) : List Datum := f.searchOrder.flatMap Definition.literals

namespace File

variable {f : File} {x : Datum}

lemma mem_literals_of_function {d : FunctionDef} (hd : d ∈ f.functions)
    (hx : x ∈ Stmt.literalsAll d.body) : x ∈ f.literals := by
  obtain ⟨definition, hmem, hfun⟩ := List.mem_filterMap.1 hd
  refine List.mem_flatMap.2 ⟨definition, hmem, ?_⟩
  cases definition <;> cases hfun
  exact hx

/-- The definitions of a file itself are searched first. -/
lemma definitions_subset_searchOrder : f.definitions ⊆ f.searchOrder := by
  intro d hd
  cases f
  exact List.mem_append_left _ hd

lemma mem_literals_of_mapping {m : MappingDef} (hm : m ∈ f.mappings)
    (hx : x ∈ Stmt.literalsAll m.body) : x ∈ f.literals := by
  obtain ⟨definition, hmem, hmap⟩ := List.mem_filterMap.1 hm
  refine List.mem_flatMap.2 ⟨definition, definitions_subset_searchOrder hmem, ?_⟩
  cases definition <;> cases hmap
  exact hx

end File

end Arbor
