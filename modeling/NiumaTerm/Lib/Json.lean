import Mathlib.Algebra.Group.Int.Defs
import Mathlib.Algebra.Group.Nat.Defs
import NiumaTerm.Lib.Str

/-!
# JSON values

An object keeps its members in the order they were written, and reading takes the first of a name.  `get`
on something that is no object, or has no such member, is `null`.
-/

namespace Rust

/-- A number is an integer, or a decimal kept as it is written. -/
inductive Number
  | integer (value : ℤ)
  | decimal (text : Str)

inductive Json
  | null
  | bool (value : Bool)
  | number (value : Number)
  | string (value : Str)
  | array (elements : List Json)
  | object (members : List (String × Json))

namespace Json

instance : Inhabited Json := ⟨null⟩

/-- A text of the program. -/
def text (s : String) : Json := string s.toList

def get : Json → String → Json
  | object members, name => (members.lookup name).getD null
  | _, _ => null

def asStr : Json → Option Str
  | string value => some value
  | _ => none

def asBool : Json → Option Bool
  | bool value => some value
  | _ => none

def asU64 : Json → Option ℕ
  | number (.integer (.ofNat value)) => if value < 2 ^ 64 then some value else none
  | _ => none

def asI64 : Json → Option ℤ
  | number (.integer value) => if -2 ^ 63 ≤ value ∧ value < 2 ^ 63 then some value else none
  | _ => none

def asArray : Json → Option (List Json)
  | array elements => some elements
  | _ => none

def asObject : Json → Option (List (String × Json))
  | object members => some members
  | _ => none

/-- A member, if there is one of the name. -/
def member? : Json → String → Option Json
  | object members, name => members.lookup name
  | _, _ => none

def isNull : Json → Bool
  | null => true
  | _ => false

def isText (value : Json) (s : String) : Bool := value.asStr = some s.toList

/-- A member in its place if there is one of the name, else at the end. -/
def setMember (name : String) (value : Json) : List (String × Json) → List (String × Json)
  | [] => [(name, value)]
  | member :: rest =>
    if member.1 = name then (name, value) :: rest else member :: setMember name value rest

/-- `target[name] = value`, for a target that is an object or `null`. -/
def set (target : Json) (name : String) (value : Json) : Json :=
  match target with
  | object members => object (setMember name value members)
  | _ => object [(name, value)]

@[simp] theorem get_nil (name : String) : (object []).get name = null := rfl

@[simp] theorem get_cons (key : String) (value : Json) (members : List (String × Json)) (name : String) :
    (object ((key, value) :: members)).get name = if name = key then value else (object members).get name := by
  by_cases h : name = key
  · rw [if_pos h, h, get, List.lookup_cons_self, Option.getD_some]
  · have hlookup : ((key, value) :: members).lookup name = members.lookup name := by
      rw [List.lookup_cons, beq_false_of_ne h]
    rw [if_neg h, get, hlookup, get]

@[simp] theorem asStr_string (s : Str) : (string s).asStr = some s := rfl

@[simp] theorem asStr_text (s : String) : (text s).asStr = some s.toList := rfl

theorem isText_unique {value : Json} {s t : String} (hs : value.isText s = true)
    (ht : value.isText t = true) : s = t := by
  rw [isText, decide_eq_true_eq] at hs ht
  exact String.toList_injective (Option.some.inj (hs.symm.trans ht))

theorem isText_ne {value : Json} {s t : String} (h : value.isText s = true) (hne : s ≠ t) :
    value.isText t = false := by
  by_contra ht
  rw [Bool.not_eq_false] at ht
  exact hne (isText_unique h ht)

theorem isText_text (s : String) : (text s).isText s = true := by simp [isText]

end Json
end Rust
