import Mathlib.Data.Nat.Notation
import Mathlib.Tactic.SplitIfs

/-!
# Json values

Values as a program sees them that reads and writes their objects key by key. An object holds
its keys in order. What is read of the wrong type is nothing.
-/
namespace XChain

mutual
/-- A value. Arrays and numbers with a fraction are kept as their text. -/
inductive Json where
  | null
  | bool (b : Bool)
  | int (n : BitVec 64)
  | str (s : List Char)
  | obj (o : JsonObj)
  | other (text : List Char)
inductive JsonObj where
  | nil
  | cons (key : String) (value : Json) (rest : JsonObj)
end

namespace Json

def getStr : Json → Option (List Char)
  | .str s => some s
  | _ => none

def getObj : Json → Option JsonObj
  | .obj o => some o
  | _ => none

/-- The low half of an integer. -/
def getInt : Json → Option (BitVec 32)
  | .int n => some (n.setWidth 32)
  | _ => none

@[simp] theorem getStr_str (s : List Char) : (Json.str s).getStr = some s := rfl

@[simp] theorem getObj_obj (o : JsonObj) : (Json.obj o).getObj = some o := rfl

@[simp] theorem getInt_int (n : BitVec 64) : (Json.int n).getInt = some (n.setWidth 32) := rfl

end Json

namespace JsonObj

def lookup (k : String) : JsonObj → Option Json
  | .nil => none
  | .cons q v o => if k = q then some v else o.lookup k

def count (o : JsonObj) (k : String) : Bool := (o.lookup k).isSome

/-- The value of a key, null if it is not there. -/
def get (o : JsonObj) (k : String) : Json := (o.lookup k).getD .null

def set (k : String) (v : Json) : JsonObj → JsonObj
  | .nil => .cons k v .nil
  | .cons q w o =>
    if k = q then .cons k v o
    else if k < q then .cons k v (.cons q w o)
    else .cons q w (o.set k v)

def erase (k : String) : JsonObj → JsonObj
  | .nil => .nil
  | .cons q w o => if k = q then o.erase k else .cons q w (o.erase k)

def toList : JsonObj → List (String × Json)
  | .nil => []
  | .cons q w o => (q, w) :: o.toList

variable {o : JsonObj} {j k : String} {v : Json}

@[simp] theorem lookup_nil : JsonObj.nil.lookup k = none := rfl

@[simp] theorem lookup_set : ∀ o : JsonObj,
    (o.set k v).lookup j = if j = k then some v else o.lookup j
  | .nil => by simp [set, lookup]
  | .cons q w o => by
    have ih := lookup_set o
    by_cases hkq : k = q
    · subst hkq
      by_cases hj : j = k <;> simp [set, lookup, hj]
    · by_cases hlt : k < q
      · simp [set, hkq, hlt, lookup]
      · by_cases hj : j = q
        · subst hj
          simp [set, hkq, hlt, lookup, Ne.symm hkq]
        · simp [set, hkq, hlt, lookup, hj, ih]

@[simp] theorem get_set : (o.set k v).get j = if j = k then v else o.get j := by
  unfold get
  rw [lookup_set]
  split_ifs <;> simp

@[simp] theorem count_set : (o.set k v).count j = (decide (j = k) || o.count j) := by
  unfold count
  rw [lookup_set]
  split_ifs with h <;> simp [h]

@[simp] theorem get_nil : JsonObj.nil.get k = .null := rfl

@[simp] theorem count_nil : JsonObj.nil.count k = false := rfl

end JsonObj

end XChain
