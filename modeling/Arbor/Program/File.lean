import Arbor.Program.Goal
import Arbor.Program.Stmt

/-!
# Files

A file holds definitions and the files it includes.  A definition is looked for among the file's
own definitions first and then in the includes, the last one first (`File.find?`).
`File.searchOrder` lists all definitions of the include tree in that order, so that a lookup comes
to the first that fits (`File.find?_eq_findSome?`).
-/

namespace Arbor

/-- A constraint that a file may carry; the one named `main` is compiled. -/
structure MainDef where
  ident : Ident
  quantifier : Quantifier
  body : List Goal
deriving Repr

/-- A reusable constraint on children of one kind. -/
structure ConstraintType where
  ident : Ident
  kind : Ident
  params : List Ident
  quantifier : Quantifier
  body : List Goal
deriving Repr

/-- A reusable test of a set of children. -/
structure PredicateDef where
  ident : Ident
  params : List Ident
  quantifier : Quantifier
  body : List Test
deriving Repr

/-- A function; it is inlined wherever it is called. -/
structure FunctionDef where
  ident : Ident
  params : List Ident
  body : List Stmt
deriving Repr

/-- A mapping, which is unconditional if it has no labels. -/
structure MappingDef where
  ident : Ident
  labels : List Ident
  body : List Stmt
deriving Repr

/-- A definition of a file. -/
inductive Definition where
  | main (definition : MainDef)
  | constraintType (definition : ConstraintType)
  | predicate (definition : PredicateDef)
  | function (definition : FunctionDef)
  | mapping (definition : MappingDef)
deriving Repr

namespace Definition

/-- The name that is defined. -/
def ident : Definition → Ident
  | .main d => d.ident
  | .constraintType d => d.ident
  | .predicate d => d.ident
  | .function d => d.ident
  | .mapping d => d.ident

/-- The constraint, if one is defined. -/
def main? : Definition → Option MainDef
  | .main d => some d
  | _ => none

/-- The constraint type, if one is defined. -/
def constraintType? : Definition → Option ConstraintType
  | .constraintType d => some d
  | _ => none

/-- The predicate, if one is defined. -/
def predicate? : Definition → Option PredicateDef
  | .predicate d => some d
  | _ => none

/-- The function, if one is defined. -/
def function? : Definition → Option FunctionDef
  | .function d => some d
  | _ => none

/-- The mapping, if one is defined. -/
def mapping? : Definition → Option MappingDef
  | .mapping d => some d
  | _ => none

/-- What is defined, if it is of one kind and has a given name. -/
def named? {α : Type} (kind? : Definition → Option α) (name : String) (d : Definition) : Option α :=
  if d.ident.name = name then kind? d else none

end Definition

/-- Definitions together with the files they build on. -/
structure File where
  definitions : List Definition
  includes : List File
deriving Repr

namespace File

instance : Inhabited File := ⟨⟨[], []⟩⟩

mutual
/-- Every definition that a file can refer to, in the order of search: its own, then those of its
includes from the last to the first. -/
def searchOrder : File → List Definition
  | ⟨definitions, includes⟩ => definitions ++ searchOrderAll includes

/-- The definitions of several files, those of the last file first. -/
def searchOrderAll : List File → List Definition
  | [] => []
  | f :: fs => searchOrderAll fs ++ f.searchOrder
end

theorem searchOrderAll_eq_flatMap (fs : List File) :
    searchOrderAll fs = fs.reverse.flatMap searchOrder := by
  induction fs with
  | nil => rfl
  | cons f fs ih => simp [searchOrderAll, ih]

/-- The functions a file can refer to. -/
def functions (f : File) : List FunctionDef := f.searchOrder.filterMap Definition.function?

/-- The constraint types a file can refer to. -/
def constraintTypes (f : File) : List ConstraintType :=
  f.searchOrder.filterMap Definition.constraintType?

/-- The mappings of the file itself; those of its includes are not compiled. -/
def mappings (f : File) : List MappingDef := f.definitions.filterMap Definition.mapping?

/-! ## Lookups -/

variable {α : Type}

mutual
/-- Searches an include tree for a definition that is selected: first among the file's own, then in
its includes. -/
def find? (select : Definition → Option α) : File → Option α
  | ⟨definitions, includes⟩ => (definitions.findSome? select).or (findLast? select includes)

/-- Searches the include trees of several files, the last file first. -/
def findLast? (select : Definition → Option α) : List File → Option α
  | [] => none
  | f :: fs => (findLast? select fs).or (f.find? select)
end

/-- The main constraint. -/
def main? (f : File) : Option MainDef := f.find? (Definition.named? Definition.main? "main")

/-- The constraint type with a name. -/
def constraintType? (f : File) (name : String) : Option ConstraintType :=
  f.find? (Definition.named? Definition.constraintType? name)

/-- The predicate with a name. -/
def predicate? (f : File) (name : String) : Option PredicateDef :=
  f.find? (Definition.named? Definition.predicate? name)

/-- The function with a name. -/
def function? (f : File) (name : String) : Option FunctionDef :=
  f.find? (Definition.named? Definition.function? name)

mutual
/-- A lookup comes to the first definition that fits, in the order of search. -/
theorem find?_eq_findSome? (select : Definition → Option α) (f : File) :
    f.find? select = f.searchOrder.findSome? select := by
  match f with
  | ⟨definitions, includes⟩ =>
    rw [find?, searchOrder, List.findSome?_append, findLast?_eq_findSome?]

theorem findLast?_eq_findSome? (select : Definition → Option α) (fs : List File) :
    findLast? select fs = (searchOrderAll fs).findSome? select := by
  match fs with
  | [] => rw [findLast?, searchOrderAll, List.findSome?_nil]
  | f :: fs =>
    rw [findLast?, searchOrderAll, List.findSome?_append, findLast?_eq_findSome?,
      find?_eq_findSome?]
end

/-- A lookup by name comes to the first that has the name, among all that is of the kind. -/
theorem find?_named? (kind? : Definition → Option α) (ident : α → Ident)
    (hident : ∀ d a, kind? d = some a → ident a = d.ident) (name : String) (f : File) :
    f.find? (Definition.named? kind? name) =
      (f.searchOrder.filterMap kind?).find? (fun a => (ident a).name == name) := by
  rw [find?_eq_findSome?]
  induction f.searchOrder with
  | nil => rfl
  | cons d ds ih =>
    rw [List.findSome?_cons, Definition.named?]
    cases hd : kind? d with
    | none => simp [hd, ih]
    | some a =>
      have hname := hident d a hd
      by_cases hfits : d.ident.name = name <;> simp [hd, hname, hfits, ih]

theorem constraintType?_eq_find? (f : File) (name : String) :
    f.constraintType? name = f.constraintTypes.find? (·.ident.name == name) := by
  refine find?_named? Definition.constraintType? (·.ident) (fun d a h => ?_) name f
  cases d <;> cases h
  rfl

theorem function?_eq_find? (f : File) (name : String) :
    f.function? name = f.functions.find? (·.ident.name == name) := by
  refine find?_named? Definition.function? (·.ident) (fun d a h => ?_) name f
  cases d <;> cases h
  rfl

theorem mem_functions_of_function? {f : File} {name : String} {d : FunctionDef}
    (h : f.function? name = some d) : d ∈ f.functions := by
  rw [function?_eq_find?] at h
  exact List.mem_of_find?_eq_some h

theorem mem_constraintTypes_of_constraintType? {f : File} {name : String} {d : ConstraintType}
    (h : f.constraintType? name = some d) : d ∈ f.constraintTypes := by
  rw [constraintType?_eq_find?] at h
  exact List.mem_of_find?_eq_some h

end File

end Arbor
