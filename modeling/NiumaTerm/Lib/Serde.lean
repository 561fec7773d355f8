import Mathlib.Data.List.Nodup
import NiumaTerm.Lib.Json

/-!
# Structures as JSON objects

How a derived reader takes a structure from a JSON value: `structFields` checks the names, `required`,
`defaulted` and `optional` read one field.  A writer lists the values that are present.
-/

namespace Serde

open Rust List

variable {α : Type*}

/-- The members that name fields.  In an array the fields stand in their order. -/
structure Fields where
  members : List (String × Json)
  positional : Bool

/-- No field is given twice.  Other members are ignored, or refused where `strict` says so. -/
def structFields (names : List String) (strict : Bool) : Json → Option Fields
  | .object members =>
    let known := members.filter fun member => member.1 ∈ names
    if (known.map Prod.fst).Nodup ∧ (strict = true → known.length = members.length) then
      some ⟨known, false⟩
    else none
  | .array elements =>
    if elements.length ≤ names.length then some ⟨names.zip elements, true⟩ else none
  | _ => none

namespace Fields

variable (f : Fields) (name : String)

def required (read : Json → Option α) : Option α := (f.members.lookup name).bind read

/-- A field with a default. -/
def defaulted (default : α) (read : Json → Option α) : Option α :=
  (f.members.lookup name).elim (some default) read

end Fields

/-- `Option`: `null` is `none`. -/
def nullable (read : Json → Option α) (value : Json) : Option (Option α) :=
  if value.isNull then some none else (read value).map some

/-- A field of type `Option` may be missing from an object. -/
def Fields.optional (f : Fields) (name : String) (read : Json → Option α) : Option (Option α) :=
  match f.members.lookup name with
  | some value => nullable read value
  | none => if f.positional then none else some none

def readU64 (value : Json) : Option UInt64 := value.asU64.map UInt64.ofNat

def readU32 (value : Json) : Option UInt32 :=
  value.asU64.bind fun n => if n < 2 ^ 32 then some (UInt32.ofNat n) else none

def readList (read : Json → Option α) (value : Json) : Option (List α) :=
  value.asArray.bind fun elements => elements.mapM read

/-- The members of an object, in their order. -/
def readMembers (read : Json → Option α) : Json → Option (List (Str × α))
  | .object members => members.mapM fun member => (read member.2).map (member.1.toList, ·)
  | _ => none

/-- The name of a variant without data. -/
def unitVariant : Json → Option Str
  | .string name => some name
  | .object [(name, .null)] => some name.toList
  | _ => none

def ofNat (n : ℕ) : Json := .number (.integer n)

/-! ## Writing -/

/-- The fields that have a value. -/
def present (fields : List (String × Option Json)) : List (String × Json) :=
  fields.filterMap fun field => field.2.map (field.1, ·)

section

variable {fields : List (String × Option Json)} {names : List String} {name : String}

theorem map_fst_present_sublist :
    ((present fields).map Prod.fst).Sublist (fields.map Prod.fst) := by
  induction fields with
  | nil => exact .slnil
  | cons field rest ih =>
    obtain ⟨key, value⟩ := field
    cases value with
    | none => exact ih.cons key
    | some value => exact ih.cons_cons key

theorem lookup_eq_none_of_not_mem {β : Type*} {l : List (String × β)} (h : name ∉ l.map Prod.fst) :
    l.lookup name = none := by
  rw [lookup_eq_none_iff]
  intro entry he
  rw [bne_iff_ne]
  rintro rfl
  exact h (mem_map_of_mem he)

/-- **A field is read as it was written.** -/
theorem lookup_present (hnd : (fields.map Prod.fst).Nodup) :
    (present fields).lookup name = (fields.lookup name).join := by
  induction fields with
  | nil => rfl
  | cons field rest ih =>
    obtain ⟨key, value⟩ := field
    obtain ⟨hkey, hrest⟩ := nodup_cons.mp hnd
    rw [lookup_cons]
    by_cases hname : name = key
    · subst hname
      cases value with
      | none =>
        have hmissing : name ∉ (present rest).map Prod.fst := fun hm =>
          hkey (map_fst_present_sublist.subset hm)
        simpa [present] using lookup_eq_none_of_not_mem hmissing
      | some value => simp [present]
    · rw [beq_false_of_ne hname]
      cases value with
      | none => exact ih hrest
      | some value =>
        rw [← ih hrest]
        change ((key, value) :: present rest).lookup name = _
        rw [lookup_cons, beq_false_of_ne hname]

/-- **What is written is accepted**, also by a strict reader. -/
theorem structFields_present (fields : List (String × Option Json)) (hnames : names.Nodup)
    (hsub : (fields.map Prod.fst).Sublist names) (strict : Bool) :
    structFields names strict (.object (present fields)) = some ⟨present fields, false⟩ := by
  have hkeys := map_fst_present_sublist.trans hsub
  have hknown : ((present fields).filter fun member => member.1 ∈ names) = present fields := by
    refine filter_eq_self.mpr fun member hm => decide_eq_true ?_
    exact hkeys.subset (mem_map_of_mem hm)
  rw [structFields]
  simp only [hknown]
  rw [if_pos ⟨hnames.sublist hkeys, fun _ => trivial⟩]

end

@[simp] theorem nullable_null (read : Json → Option α) : nullable read .null = some none := rfl

theorem nullable_of_not_null {read : Json → Option α} {value : Json} (h : value.isNull = false) :
    nullable read value = (read value).map some := by
  rw [nullable, h]
  rfl

section

variable {f : Fields} {name : String} {read : Json → Option α} {write : α → Json}

theorem Fields.required_of_lookup (read : Json → Option α) {value : Json}
    (h : f.members.lookup name = some value) : f.required name read = read value := by
  rw [required, h]
  rfl

theorem nullable_write (hread : ∀ a, read (write a) = some a)
    (hnull : ∀ a, (write a).isNull = false) (a : α) : nullable read (write a) = some (some a) := by
  rw [nullable_of_not_null (hnull a), hread]
  rfl

/-- A field with the default `none` is read as it was written. -/
theorem Fields.defaulted_nullable (hread : ∀ a, read (write a) = some a)
    (hnull : ∀ a, (write a).isNull = false) {value : Option α}
    (h : f.members.lookup name = value.map write) :
    f.defaulted name none (nullable read) = some value := by
  rw [defaulted, h]
  cases value with
  | none => rfl
  | some a => exact nullable_write hread hnull a

end

/-- A field of type `Option` is read as it was written. -/
theorem Fields.optional_write {f : Fields} {name : String} {read : Json → Option α}
    {write : α → Json} (hread : ∀ a, read (write a) = some a)
    (hnull : ∀ a, (write a).isNull = false) (hf : f.positional = false)
    {value : Option α} (h : f.members.lookup name = value.map write) :
    f.optional name read = some value := by
  rw [optional, h]
  cases value with
  | none => simp [hf]
  | some a => exact nullable_write hread hnull a

/-- A field that is left out where it has its default. -/
theorem Fields.defaulted_unless {f : Fields} {name : String} {read : Json → Option α}
    {default a : α} {P : Prop} [Decidable P] {written : Json} (hread : read written = some a)
    (hdefault : P → a = default)
    (h : f.members.lookup name = if P then none else some written) :
    f.defaulted name default read = some a := by
  rw [defaulted, h]
  split
  · next hp => rw [hdefault hp]; rfl
  · exact hread

theorem readList_map {β : Type*} {read : Json → Option β} {write : α → Json} {g : α → β}
    (h : ∀ a, read (write a) = some (g a)) (l : List α) :
    readList read (.array (l.map write)) = some (l.map g) := by
  change (l.map write).mapM read = some (l.map g)
  induction l with
  | nil => rfl
  | cons a rest ih => simp [mapM_cons, h, ih]

theorem readMembers_map {β : Type*} {read : Json → Option β} {name : α → Str} {write : α → Json}
    {g : α → β} (h : ∀ a, read (write a) = some (g a)) (l : List α) :
    readMembers read (.object (l.map fun a => (String.ofList (name a), write a))) =
      some (l.map fun a => (name a, g a)) := by
  rw [readMembers]
  induction l with
  | nil => rfl
  | cons a rest ih => simp [mapM_cons, h, ih]

@[simp] theorem readU64_ofNat (n : UInt64) : readU64 (ofNat n.toNat) = some n := by
  have hlt := n.toNat_lt
  simp [readU64, ofNat, Json.asU64, hlt]

@[simp] theorem readU32_ofNat (n : UInt32) : readU32 (ofNat n.toNat) = some n := by
  have hlt : n.toNat < 2 ^ 32 := n.toNat_lt
  have hlt' : n.toNat < 2 ^ 64 := hlt.trans (by decide)
  rw [readU32, ofNat]
  simp only [Json.asU64, if_pos hlt', Option.bind_some, if_pos hlt, UInt32.ofNat_toNat]

end Serde
