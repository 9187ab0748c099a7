import Arbor.Program.Goal
import Arbor.Value.Datum

/-!
# Constraint trees

The constraint of an object is a tree of tagged nodes whose leaves are constants.  An external
engine evaluates it; tags are part of the object format, by number.
-/

namespace Arbor

/-- What a node of a constraint tree says. -/
inductive NodeTag where
  /-- Children of a kind that satisfy a predicate. -/
  | select
  /-- An attribute of the node. -/
  | attr
  | all
  | any
  | one
  | equal
  | notEqual
  | less
  | lessEqual
  | greater
  | greaterEqual
  | multiple
  | power
  /-- The number of children. -/
  | size
  | min
  | max
  | sum
  | avg
  /-- A labelled statement. -/
  | label
deriving DecidableEq, Repr

namespace NodeTag

/-- Every tag, by increasing number. -/
def every : List NodeTag :=
  [.select, .attr, .all, .any, .one, .equal, .notEqual, .less, .lessEqual, .greater,
   .greaterEqual, .multiple, .power, .size, .min, .max, .sum, .avg, .label]

/-- The number of a tag in the object format. -/
def number : NodeTag → Nat
  | .select => 0
  | .attr => 1
  | .all => 2
  | .any => 3
  | .one => 4
  | .equal => 5
  | .notEqual => 6
  | .less => 7
  | .lessEqual => 8
  | .greater => 9
  | .greaterEqual => 10
  | .multiple => 11
  | .power => 12
  | .size => 13
  | .min => 14
  | .max => 15
  | .sum => 16
  | .avg => 17
  | .label => 18

/-- The name of a tag in listings. -/
def name : NodeTag → String
  | .select => "WITH"
  | .attr => "ATTR"
  | .all => "ALL"
  | .any => "ANY"
  | .one => "ONE"
  | .equal => "EQUAL"
  | .notEqual => "NOT_EQUAL"
  | .less => "LESS"
  | .lessEqual => "LESS_EQUAL"
  | .greater => "GREATER"
  | .greaterEqual => "GREATER_EQUAL"
  | .multiple => "MULTIPLE"
  | .power => "POWER"
  | .size => "SIZE"
  | .min => "MIN"
  | .max => "MAX"
  | .sum => "SUM"
  | .avg => "AVG"
  | .label => "LABEL"

/-- The tag with a name. -/
def ofName? (s : String) : Option NodeTag := every.find? (·.name == s)

/-- The tag of a quantifier. -/
def ofQuantifier : Quantifier → NodeTag
  | .all => .all
  | .any => .any
  | .one => .one

/-- The tag of a comparison. -/
def ofComparison : Comparison → NodeTag
  | .equal => .equal
  | .notEqual => .notEqual
  | .less => .less
  | .lessEqual => .lessEqual
  | .greater => .greater
  | .greaterEqual => .greaterEqual
  | .multiple => .multiple
  | .power => .power

/-- The tag of an aggregate. -/
def ofAggregate : Aggregate → NodeTag
  | .min => .min
  | .max => .max
  | .sum => .sum
  | .avg => .avg

end NodeTag

/-- A constraint tree. -/
inductive Tree where
  /-- A constant argument. -/
  | leaf (datum : Datum)
  | node (tag : NodeTag) (args : List Tree)
deriving Repr

namespace Tree

instance : Inhabited Tree := ⟨.leaf .none⟩

mutual
/-- Equality of trees is decidable: nodes are compared argument by argument. -/
def decEq : (a b : Tree) → Decidable (a = b)
  | .leaf a, .leaf b =>
    if h : a = b then isTrue (h ▸ rfl) else isFalse fun e => h (Tree.leaf.inj e)
  | .node s as, .node t bs =>
    match decEqArgs as bs with
    | isTrue hs =>
      if h : s = t then isTrue (h ▸ hs ▸ rfl) else isFalse fun e => h (Tree.node.inj e).1
    | isFalse hs => isFalse fun e => hs (Tree.node.inj e).2
  | .leaf _, .node _ _ | .node _ _, .leaf _ => isFalse nofun

/-- Equality of the arguments of nodes. -/
def decEqArgs : (as bs : List Tree) → Decidable (as = bs)
  | [], [] => isTrue rfl
  | [], _ :: _ => isFalse nofun
  | _ :: _, [] => isFalse nofun
  | a :: as, b :: bs =>
    match decEq a b, decEqArgs as bs with
    | isTrue h, isTrue hs => isTrue (h ▸ hs ▸ rfl)
    | isFalse h, _ => isFalse fun e => h (List.cons.inj e).1
    | _, isFalse hs => isFalse fun e => hs (List.cons.inj e).2
end

instance : DecidableEq Tree := decEq

mutual
/-- The text of a tree: constants as they are, nodes in brackets after their tag. -/
def text : Tree → String
  | .leaf d => d.text
  | .node tag args => "[" ++ tag.name ++ textArgs args ++ "]"

/-- The arguments of a node, each after a comma. -/
def textArgs : List Tree → String
  | [] => ""
  | t :: ts => ", " ++ t.text ++ textArgs ts
end

/-- The tree for the number of children. -/
def size : Tree := .node .size []

/-- The tree for an attribute of the node. -/
def attr (name : String) : Tree := .node .attr [.leaf (.str name)]

/-- The tree for a measure of a set of children. -/
def ofMeasure : Measure → Tree
  | .size => size
  | .aggregate how kind => .node (.ofAggregate how) [.leaf (.str kind.name)]

/-- The tree that compares a subject with a constant. -/
def compare (c : Comparison) (subject : Tree) (value : Datum) : Tree :=
  .node (.ofComparison c) [subject, .leaf value]

/-- The tree of a quantified block.  If `collapse` is set, a block of one statement is that
statement. -/
def quantified (collapse : Bool) (q : Quantifier) : List Tree → Tree
  | [t] => if collapse then t else .node (.ofQuantifier q) [t]
  | ts => .node (.ofQuantifier q) ts

/-- A tree with its label, if it has one. -/
def labelled (label : Option Nat) (t : Tree) : Tree :=
  match label with
  | some i => .node .label [.leaf (.number (.int (Int64.ofNat i))), t]
  | none => t

end Tree

end Arbor
