import Arbor.Program.File
import Mathlib.Logic.Function.Iterate
import Mathlib.Logic.Relation
import Mathlib.Tactic.Lemma

/-!
# Looking up definitions

A lookup searches an include tree by recursion: a file's own definitions, then its includes from the
last to the first.  The tree can as well be searched by a machine that keeps the files it still has
to search on a stack.  It takes the file on top, and puts the includes of that file there if no
definition of it fits.

* `Definition.fits`: what a lookup looks for.
* `Search.step`: a step of the machine.
* `File.Finds`: what a lookup comes to, by the machine, in the order of search, and by descent into
  the tree.
* `File.finds_lookups`: all lookups come to that.
-/

namespace Arbor

open Relation

namespace Definition

/-- The kinds of definitions that are looked up. -/
inductive Kind where
  | main
  | constraintType
  | predicate
  | function
deriving DecidableEq, Repr

/-- Whether a definition is of a kind and has a name. -/
def fits (kind : Kind) (name : String) : Definition → Bool
  | .main d => kind = .main ∧ d.ident.name = name
  | .constraintType d => kind = .constraintType ∧ d.ident.name = name
  | .predicate d => kind = .predicate ∧ d.ident.name = name
  | .function d => kind = .function ∧ d.ident.name = name
  | .mapping _ => false

end Definition

variable {fits : Definition → Bool}

/-! ## The machine -/

/-- A search of include trees: the files that are still to be searched, or what it has come to. -/
inductive Search where
  /-- The next file is on top of the stack, which is the head of the list. -/
  | searching (stack : List File)
  | done (result : Option Definition)

namespace Search

/-- Puts files on a stack, one after the other. -/
def push (stack fs : List File) : List File := fs.foldl (fun stack f => f :: stack) stack

/-- How a search goes on when some files have been searched: it is done if something was found
there, and else it has come to the files below. -/
def resume (found : Option Definition) (stack : List File) : Search :=
  found.elim (.searching stack) fun d => .done (some d)

/-- One step of a search, with the file on top of the stack.  The first of its definitions that fits
is what the search comes to.  If there is none, its includes are put on the stack. -/
def step (fits : Definition → Bool) : Search → Search
  | .searching [] => .done none
  | .searching (f :: stack) => resume (f.definitions.find? fits) (push stack f.includes)
  | .done result => .done result

/-- Steps lead from one state to another. -/
def Leads (fits : Definition → Bool) (s s' : Search) : Prop := ∃ n, (step fits)^[n] s = s'

lemma Leads.refl (s : Search) : Leads fits s s := ⟨0, rfl⟩

lemma Leads.trans {s s₁ s' : Search} (h : Leads fits s s₁) (h' : Leads fits s₁ s') :
    Leads fits s s' := by
  obtain ⟨n, rfl⟩ := h
  obtain ⟨m, rfl⟩ := h'
  exact ⟨m + n, Function.iterate_add_apply _ _ _ _⟩

lemma leads_step (s : Search) : Leads fits s (step fits s) := ⟨1, rfl⟩

/-- What has been found is kept, and else the search goes on from the files below. -/
lemma leads_resume {first rest : List Definition} {stack stack' : List File}
    (h : Leads fits (.searching stack) (resume (rest.find? fits) stack')) :
    Leads fits (resume (first.find? fits) stack)
      (resume ((first ++ rest).find? fits) stack') := by
  rw [List.find?_append]
  cases first.find? fits with
  | some d => exact .refl _
  | none => exact h

/-! The files on top of a stack are searched before any file below them is taken up, whatever the
stack is.  The induction is on the include tree. -/

mutual
/-- The search of a file, with its whole include tree. -/
lemma leads_file (f : File) (stack : List File) :
    Leads fits (.searching (f :: stack)) (resume (f.searchOrder.find? fits) stack) := by
  match f with
  | ⟨definitions, includes⟩ =>
    rw [File.searchOrder]
    exact (leads_step _).trans (leads_resume (leads_push includes stack))

/-- The search of files that have been put on the stack. -/
lemma leads_push (fs : List File) (stack : List File) :
    Leads fits (.searching (push stack fs))
      (resume ((File.searchOrderAll fs).find? fits) stack) := by
  match fs with
  | [] => exact .refl _
  | f :: fs =>
    rw [File.searchOrderAll]
    exact (leads_push fs (f :: stack)).trans (leads_resume (leads_file f stack))
end

/-- A search that starts with one file ends with the first definition that fits. -/
lemma leads_done (f : File) :
    Leads fits (.searching [f]) (.done (f.searchOrder.find? fits)) := by
  have hfile : Leads fits _ _ := leads_file f []
  cases hfound : f.searchOrder.find? fits with
  | some a =>
    rw [hfound] at hfile
    exact hfile
  | none =>
    rw [hfound] at hfile
    exact hfile.trans (leads_step (.searching []))

end Search

/-! ## The order of search -/

namespace File

/-- A file is in the include tree of another. -/
def Includes : File → File → Prop := ReflTransGen fun f g => g ∈ f.includes

lemma searchOrder_eq (f : File) :
    f.searchOrder = f.definitions ++ f.includes.reverse.flatMap searchOrder := by
  cases f with
  | mk definitions includes => rw [searchOrder, searchOrderAll_eq_flatMap]

lemma mem_searchOrder_of_mem {f g : File} (h : g ∈ f.includes) {d : Definition}
    (hd : d ∈ g.searchOrder) : d ∈ f.searchOrder := by
  rw [searchOrder_eq]
  exact List.mem_append_right _ (List.mem_flatMap.2 ⟨g, List.mem_reverse.2 h, hd⟩)

mutual
lemma exists_includes (f : File) {d : Definition} (hd : d ∈ f.searchOrder) :
    ∃ g, f.Includes g ∧ d ∈ g.definitions := by
  match f with
  | ⟨definitions, includes⟩ =>
    rw [searchOrder] at hd
    rcases List.mem_append.1 hd with hown | hd
    · exact ⟨⟨definitions, includes⟩, .refl, hown⟩
    · obtain ⟨f', hf', g, hg, hdg⟩ := exists_includes_of_mem includes hd
      exact ⟨g, .head hf' hg, hdg⟩

lemma exists_includes_of_mem (fs : List File) {d : Definition} (hd : d ∈ searchOrderAll fs) :
    ∃ f ∈ fs, ∃ g, f.Includes g ∧ d ∈ g.definitions := by
  match fs with
  | [] => cases hd
  | f :: fs =>
    rw [searchOrderAll] at hd
    rcases List.mem_append.1 hd with hd | hd
    · obtain ⟨f', hf', hg⟩ := exists_includes_of_mem fs hd
      exact ⟨f', List.mem_cons_of_mem f hf', hg⟩
    · exact ⟨f, List.mem_cons_self, exists_includes f hd⟩
end

/-- The order of search leaves out no file of the include tree. -/
lemma mem_searchOrder_iff {f : File} {d : Definition} :
    d ∈ f.searchOrder ↔ ∃ g, f.Includes g ∧ d ∈ g.definitions := by
  refine ⟨exists_includes f, fun h => ?_⟩
  obtain ⟨g, hg, hd⟩ := h
  induction hg using ReflTransGen.head_induction_on with
  | refl =>
    rw [searchOrder_eq]
    exact List.mem_append_left _ hd
  | head hmem _ ih => exact mem_searchOrder_of_mem hmem ih

/-! ## Lookups -/

/-- A lookup finds the first definition that fits. -/
structure Finds (lookup : File → Option Definition) (fits : Definition → Bool) : Prop where
  /-- The machine, started with a file alone, ends with what the lookup comes to. -/
  walk : ∀ f, ∃ n, (Search.step fits)^[n] (.searching [f]) = .done (lookup f)
  /-- It is the first that fits in the order of search. -/
  first : ∀ f : File, lookup f = f.searchOrder.find? fits
  /-- It is the first that fits in the file itself, or what the lookup comes to in the last include
  in which it comes to anything. -/
  descent : ∀ f : File,
    lookup f = (f.definitions.find? fits).or (f.includes.reverse.findSome? lookup)
  /-- There is none only if nothing fits in any file of the tree. -/
  none_iff : ∀ f, lookup f = none ↔ ∀ g, Includes f g → ∀ d ∈ g.definitions, fits d = false

lemma find?_searchOrder_eq_none_iff {f : File} :
    f.searchOrder.find? fits = none ↔
      ∀ g, f.Includes g → ∀ d ∈ g.definitions, fits d = false := by
  simp only [List.find?_eq_none, Bool.not_eq_true]
  constructor
  · exact fun h g hg d hd => h d (mem_searchOrder_iff.2 ⟨g, hg, hd⟩)
  · intro h d hd
    obtain ⟨g, hg, hdg⟩ := mem_searchOrder_iff.1 hd
    exact h g hg d hdg

/-- The order of search determines all else. -/
lemma finds_of_first {lookup : File → Option Definition}
    (h : ∀ f : File, lookup f = f.searchOrder.find? fits) : Finds lookup fits := by
  obtain rfl : lookup = fun f => f.searchOrder.find? fits := funext h
  refine ⟨Search.leads_done, fun f => rfl, fun f => ?_, fun f => find?_searchOrder_eq_none_iff⟩
  rw [searchOrder_eq, List.find?_append, List.find?_flatMap]

/-- A lookup by kind and name, if what it selects is what fits. -/
lemma finds_find? {α : Type} {select : Definition → Option α} {define : α → Definition}
    (h : ∀ d, (select d).map define = Option.guard fits d) :
    Finds (fun f => (f.find? select).map define) fits := by
  refine finds_of_first fun f => ?_
  rw [find?_eq_findSome?, List.map_findSome?, List.find?_eq_findSome?_guard]
  exact congrArg (List.findSome? · f.searchOrder) (funext h)

/-- **Lookups walk the include tree with a stack.**  For each kind of definition, a lookup comes to
what the machine comes to that starts with the file, takes the file on top of its stack and puts the
includes there in the order in which they are declared.  That is the first definition of the kind
and name in the file's own definitions followed by those that the includes lead to, from the last
include to the first. -/
theorem finds_lookups (name : String) :
    (∀ f : File, f.searchOrder = f.definitions ++ f.includes.reverse.flatMap searchOrder) ∧
      Finds (fun f => f.main?.map .main) (Definition.fits .main "main") ∧
      Finds (fun f => (f.constraintType? name).map .constraintType)
        (Definition.fits .constraintType name) ∧
      Finds (fun f => (f.predicate? name).map .predicate) (Definition.fits .predicate name) ∧
      Finds (fun f => (f.function? name).map .function) (Definition.fits .function name) := by
  refine ⟨searchOrder_eq, finds_find? fun d => ?_, finds_find? fun d => ?_,
    finds_find? fun d => ?_, finds_find? fun d => ?_⟩
  all_goals
    rw [Definition.named?, Option.guard]
    split
    · next hname => cases d <;> simp_all [Definition.ident, Definition.fits] <;> rfl
    · next hname => cases d <;> simp_all [Definition.ident, Definition.fits]

end File

end Arbor
