import Arbor.Value.Datum

/-!
# Value types

A `ValueType` is a set of tags together with a flag that says whether the value is a list of such
scalars.  The empty tag set is the type `void` of no value at all, the full one the type `any`.

Types are compared by overlap, not inclusion: `ValueType.compatible` asks for the same list flag
and one common tag.  `ValueType.join` forgets which of two types a value has.  The two meet in
`TagSet.overlaps_iff` and `TagSet.contains_union`, through which facts about types reduce to
facts about single tags.
-/

namespace Arbor

/-- What a scalar can be. -/
inductive Tag where
  | none
  | num
  | str
  | bool
  | node
  | kind
deriving DecidableEq, Repr

namespace Tag

/-- The tags in the order in which they are listed. -/
def all : List Tag := [.none, .num, .str, .bool, .node, .kind]

theorem mem_all (t : Tag) : t ∈ all := by cases t <;> decide

/-- The name of a tag. -/
def text : Tag → String
  | .none => "none"
  | .num => "num"
  | .str => "str"
  | .bool => "bool"
  | .node => "node"
  | .kind => "kind"

end Tag

/-! ## Tag sets -/

/-- A set of tags. -/
structure TagSet where
  hasNone : Bool := false
  hasNum : Bool := false
  hasStr : Bool := false
  hasBool : Bool := false
  hasNode : Bool := false
  hasKind : Bool := false
deriving DecidableEq, Repr

namespace TagSet

/-- Membership. -/
def contains (s : TagSet) : Tag → Bool
  | .none => s.hasNone
  | .num => s.hasNum
  | .str => s.hasStr
  | .bool => s.hasBool
  | .node => s.hasNode
  | .kind => s.hasKind

/-- The set of the tags that satisfy a test. -/
def ofPred (p : Tag → Bool) : TagSet :=
  ⟨p .none, p .num, p .str, p .bool, p .node, p .kind⟩

@[simp] theorem contains_ofPred (p : Tag → Bool) (t : Tag) : (ofPred p).contains t = p t := by
  cases t <;> rfl

@[ext] theorem ext {s t : TagSet} (h : ∀ x, s.contains x = t.contains x) : s = t := by
  cases s; cases t
  simp only [mk.injEq]
  exact ⟨h .none, h .num, h .str, h .bool, h .node, h .kind⟩

/-- No tag. -/
def empty : TagSet := ofPred fun _ => false

/-- Every tag. -/
def full : TagSet := ofPred fun _ => true

/-- One tag. -/
def single (t : Tag) : TagSet := ofPred (· == t)

/-- The set of the listed tags. -/
def ofList (ts : List Tag) : TagSet := ofPred fun t => ts.contains t

/-- The tags of either set. -/
def union (s t : TagSet) : TagSet := ofPred fun x => s.contains x || t.contains x

/-- Whether two sets share a tag. -/
def overlaps (s t : TagSet) : Bool := Tag.all.any fun x => s.contains x && t.contains x

/-- Whether a set has no tag. -/
def isEmpty (s : TagSet) : Bool := s == empty

@[simp] theorem contains_empty (t : Tag) : empty.contains t = false := contains_ofPred _ t

@[simp] theorem contains_full (t : Tag) : full.contains t = true := contains_ofPred _ t

@[simp] theorem contains_single (s t : Tag) : (single s).contains t = (t == s) :=
  contains_ofPred _ t

@[simp] theorem contains_union (s t : TagSet) (x : Tag) :
    (union s t).contains x = (s.contains x || t.contains x) := contains_ofPred _ x

theorem overlaps_iff {s t : TagSet} :
    s.overlaps t = true ↔ ∃ x, s.contains x = true ∧ t.contains x = true := by
  simp [overlaps, Tag.mem_all]

/-- The tags in order, separated by bars. -/
def text (s : TagSet) : String :=
  String.intercalate " | " ((Tag.all.filter s.contains).map Tag.text)

end TagSet

/-! ## Types -/

/-- The type of a value: the tags its scalars may have, and whether it is a list of them. -/
structure ValueType where
  tags : TagSet
  isList : Bool
deriving DecidableEq, Repr

namespace ValueType

/-- The type of one scalar with these tags. -/
def scalar (tags : TagSet) : ValueType := ⟨tags, false⟩

/-- The type of lists of scalars with these tags. -/
def list (tags : TagSet) : ValueType := ⟨tags, true⟩

/-- No value: a body that ends without one, or a bare return. -/
def void : ValueType := scalar .empty

/-- Any scalar, such as a node's attribute. -/
def any : ValueType := scalar .full

/-- A list of anything. -/
def anyList : ValueType := list .full

/-- The type of scalars with one given tag. -/
def of (t : Tag) : ValueType := scalar (.single t)

/-- The type of one element of a list. -/
def asScalar (t : ValueType) : ValueType := scalar t.tags

/-- The type of lists of such elements. -/
def asList (t : ValueType) : ValueType := list t.tags

/-- Whether a type has no tag, be it of scalars or of lists. -/
def isVoid (t : ValueType) : Bool := t.tags.isEmpty

/-- Whether a value of one type may stand where the other is asked for: both or neither are lists,
and some tag is common. -/
def compatible (s t : ValueType) : Bool := s.isList == t.isList && s.tags.overlaps t.tags

/-- The union of two types, a list if either is one. -/
def join (s t : ValueType) : ValueType := ⟨s.tags.union t.tags, s.isList || t.isList⟩

/-- The union of several types; of none, `void`. -/
def joinAll (ts : List ValueType) : ValueType := ts.foldl join void

/-- The text of a type. -/
def text (t : ValueType) : String :=
  let list := if t.isList then "list " else ""
  let tags :=
    if t.tags = .empty then "void"
    else if t.tags = .full then "any"
    else t.tags.text
  "<" ++ list ++ tags ++ ">"

theorem compatible_comm (s t : ValueType) : s.compatible t = t.compatible s := by
  have h : s.tags.overlaps t.tags = t.tags.overlaps s.tags := by
    simp only [TagSet.overlaps, Bool.and_comm]
  simp only [compatible, h, Bool.beq_comm]

@[simp] theorem joinAll_nil : joinAll [] = void := rfl

end ValueType

/-! ## The type of data -/

namespace Datum

mutual
/-- The type of a datum.  The empty list is a list of anything; any other list holds the scalars
that its items hold. -/
def type : Datum → ValueType
  | .none => .of .none
  | .bool _ => .of .bool
  | .number _ => .of .num
  | .str _ => .of .str
  | .kind _ => .of .kind
  | .list [] => .anyList
  | .list (d :: ds) => (ValueType.joinAll (d.type :: typeAll ds)).asList

/-- The types of several data. -/
def typeAll : List Datum → List ValueType
  | [] => []
  | d :: ds => d.type :: typeAll ds
end

@[simp] theorem typeAll_eq_map (ds : List Datum) : typeAll ds = ds.map type := by
  induction ds with
  | nil => rfl
  | cons d ds ih => simp [typeAll, ih]

end Datum

end Arbor
