import Arbor.Number.Basic

/-!
# Constant data

A `Datum` is data known at compile time: what a literal holds and what folding an expression
yields.  Lists may nest here; which lists a program may build is decided where it builds them.
-/

namespace Arbor

/-- Data known at compile time. -/
inductive Datum where
  | none
  | bool (value : Bool)
  | number (value : Number)
  | str (text : String)
  /-- A node kind, by name. -/
  | kind (name : String)
  | list (items : List Datum)
deriving Repr

namespace Datum

instance : Inhabited Datum := ⟨.none⟩

/-! ## Equality -/

mutual
/-- Equality of data is decidable: doubles are compared by their bits and lists item by item. -/
def decEq : (a b : Datum) → Decidable (a = b)
  | .none, .none => isTrue rfl
  | .bool a, .bool b =>
    if h : a = b then isTrue (h ▸ rfl) else isFalse fun e => h (Datum.bool.inj e)
  | .number a, .number b =>
    if h : a = b then isTrue (h ▸ rfl) else isFalse fun e => h (Datum.number.inj e)
  | .str a, .str b =>
    if h : a = b then isTrue (h ▸ rfl) else isFalse fun e => h (Datum.str.inj e)
  | .kind a, .kind b =>
    if h : a = b then isTrue (h ▸ rfl) else isFalse fun e => h (Datum.kind.inj e)
  | .list a, .list b =>
    match decEqList a b with
    | isTrue h => isTrue (h ▸ rfl)
    | isFalse h => isFalse fun e => h (Datum.list.inj e)
  | .none, .bool _ | .none, .number _ | .none, .str _ | .none, .kind _ | .none, .list _
  | .bool _, .none | .bool _, .number _ | .bool _, .str _ | .bool _, .kind _ | .bool _, .list _
  | .number _, .none | .number _, .bool _ | .number _, .str _ | .number _, .kind _
  | .number _, .list _
  | .str _, .none | .str _, .bool _ | .str _, .number _ | .str _, .kind _ | .str _, .list _
  | .kind _, .none | .kind _, .bool _ | .kind _, .number _ | .kind _, .str _ | .kind _, .list _
  | .list _, .none | .list _, .bool _ | .list _, .number _ | .list _, .str _ | .list _, .kind _ =>
    isFalse nofun

/-- Equality of lists of data. -/
def decEqList : (as bs : List Datum) → Decidable (as = bs)
  | [], [] => isTrue rfl
  | [], _ :: _ => isFalse nofun
  | _ :: _, [] => isFalse nofun
  | a :: as, b :: bs =>
    match decEq a b, decEqList as bs with
    | isTrue h, isTrue hs => isTrue (h ▸ hs ▸ rfl)
    | isFalse h, _ => isFalse fun e => h (List.cons.inj e).1
    | _, isFalse hs => isFalse fun e => hs (List.cons.inj e).2
end

instance : DecidableEq Datum := decEq

/-! ## Views -/

/-- The truth value of a boolean. -/
def toBool? : Datum → Option Bool
  | .bool b => some b
  | _ => Option.none

/-- The number of a number. -/
def toNumber? : Datum → Option Number
  | .number n => some n
  | _ => Option.none

/-- The text of a string; a kind is no string. -/
def toText? : Datum → Option String
  | .str s => some s
  | _ => Option.none

/-- Whether the datum is a list. -/
def isList : Datum → Bool
  | .list _ => true
  | _ => false

/-! ## Text -/

mutual
/-- The text of a datum, as problems and listings show it. -/
def text : Datum → String
  | .none => "none"
  | .bool true => "true"
  | .bool false => "false"
  | .number n => n.text
  | .str s => "'" ++ s ++ "'"
  | .kind name => "kind " ++ name
  | .list items => "[" ++ String.intercalate ", " (textAll items) ++ "]"

/-- The texts of several data. -/
def textAll : List Datum → List String
  | [] => []
  | d :: ds => d.text :: textAll ds
end

@[simp] theorem textAll_eq_map (ds : List Datum) : textAll ds = ds.map text := by
  induction ds with
  | nil => rfl
  | cons d ds ih => simp [textAll, ih]

end Datum

end Arbor
