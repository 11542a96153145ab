import Eidetic.Py.Text
import Mathlib.Data.Char
import Mathlib.Data.List.Lex
import Mathlib.Data.List.Sort
import Mathlib.Data.Rat.Defs

/-!
# What `json.loads` returns, and how Python handles it

A JSON value as the Python object it becomes, with the operations the backend
applies to such objects without checking them first: truth value, iteration,
use as a dict key. An operation that raises says which of the two families of
exceptions it raises, those a handler for malformed data lists and the
`AttributeError` it does not.
-/

namespace Eidetic.Py

/-- A JSON value; an object is its items, in order. -/
inductive Json
  | null
  | bool (b : Bool)
  | num (q : Rat)
  | str (s : Text)
  | arr (xs : List Json)
  | obj (items : List (Text × Json))

/-- `KeyError`, `IndexError`, `TypeError` and `JSONDecodeError` are `malformed`;
`AttributeError`, from `.get` on anything but a dict, is `noAttribute`. -/
inductive Exc
  | malformed
  | noAttribute
deriving DecidableEq, Repr

/-- `bool(value)`. -/
def Json.truthy : Json → Bool
  | .null => false
  | .bool b => b
  | .num q => q ≠ 0
  | .str s => !s.isEmpty
  | .arr xs => !xs.isEmpty
  | .obj items => !items.isEmpty

/-- `items.get(key)`. -/
def getItem (items : List (Text × Json)) (key : String) : Option Json := items.lookup key.toList

/-- `value.get(key)`. -/
def getAttr (value : Json) (key : String) : Except Exc (Option Json) :=
  match value with
  | .obj items => .ok (getItem items key)
  | _ => .error .noAttribute

/-- `value or default`, the value being `None` when the key is absent. -/
def orElse (value : Option Json) (other : Json) : Json :=
  match value with
  | some v => if v.truthy then v else other
  | none => other

/-- `value == "…"`. -/
def isText (value : Option Json) (s : String) : Bool :=
  match value with
  | some (.str t) => t == s.toList
  | _ => false

/-- `iter(value)`: a string gives its characters, a dict its keys. -/
def Json.iter : Json → Except Exc (List Json)
  | .arr xs => .ok xs
  | .str s => .ok (s.map fun c => .str [c])
  | .obj items => .ok (items.map fun item => .str item.1)
  | .null | .bool _ | .num _ => .error .malformed

/-- `value[0]`. -/
def Json.first : Json → Except Exc Json
  | .arr (x :: _) => .ok x
  | .str (c :: _) => .ok (.str [c])
  | .arr [] | .str [] | .obj _ | .null | .bool _ | .num _ => .error .malformed

/-- A value as a dict key: `True` and `False` are the keys 1 and 0. -/
inductive DictKey
  | none
  | num (q : Rat)
  | str (s : Text)
deriving DecidableEq

/-- `hash(value)` raises for a list and a dict. -/
def Json.dictKey : Json → Option DictKey
  | .null => some .none
  | .bool b => some (.num (if b then 1 else 0))
  | .num q => some (.num q)
  | .str s => some (.str s)
  | .arr _ | .obj _ => none

def DictKey.isNum : DictKey → Bool
  | .num _ => true
  | _ => false

def DictKey.isStr : DictKey → Bool
  | .str _ => true
  | _ => false

def DictKey.le : DictKey → DictKey → Bool
  | .num a, .num b => a ≤ b
  | .str a, .str b => a ≤ b
  | _, _ => true

/-- Keys that `sorted` can compare with each other. -/
def sortable (keys : List DictKey) : Bool :=
  keys.length ≤ 1 || keys.all DictKey.isNum || keys.all DictKey.isStr

/-- `sorted(keys)`, `none` for the `TypeError` that keys of different types raise. -/
def sortedKeys (keys : List DictKey) : Option (List DictKey) :=
  if sortable keys then some (keys.insertionSort fun a b => a.le b) else none

/-- Keys that cannot be sorted cannot be sorted with more of them. -/
theorem sortable_of_append {keys more : List DictKey} (h : sortable (keys ++ more) = true) :
    sortable keys = true := by
  simp only [sortable, Bool.or_eq_true, decide_eq_true_eq, List.all_append, Bool.and_eq_true,
    List.length_append] at h ⊢
  rcases h with (hlen | hnum) | hstr
  · exact Or.inl (Or.inl (by omega))
  · exact Or.inl (Or.inr hnum.1)
  · exact Or.inr hstr.1

end Eidetic.Py
