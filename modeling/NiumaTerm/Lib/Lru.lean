import Mathlib.Data.List.Basic

/-!
# Maps that forget what was used least recently

Every entry remembers when it was last used.  `makeRoom` drops the oldest entry of a full map.

* `All P m` — `P` holds of every entry of the map; each operation has a rule for it.
-/

namespace Lru

structure Slot (κ ν : Type) where
  key : κ
  used : ℕ
  value : ν

end Lru

abbrev Lru (κ ν : Type) := List (Lru.Slot κ ν)

namespace Lru

open List

variable {κ ν : Type} [DecidableEq κ]

def get? (m : Lru κ ν) (key : κ) : Option ν := (m.find? fun slot => slot.key = key).map Slot.value

def erase (m : Lru κ ν) (key : κ) : Lru κ ν := m.filter fun slot => slot.key ≠ key

def set (m : Lru κ ν) (now : ℕ) (key : κ) (value : ν) : Lru κ ν :=
  { key, used := now, value } :: m.erase key

omit [DecidableEq κ] in
/-- `min_by_key`: the entry that was not used for the longest time. -/
def oldest : Lru κ ν → Option (Slot κ ν)
  | [] => none
  | slot :: rest =>
    match oldest rest with
    | none => some slot
    | some other => if slot.used ≤ other.used then some slot else some other

/-- Drop the oldest entry when the map is full. -/
def makeRoom (m : Lru κ ν) (limit : ℕ) : Lru κ ν :=
  if limit ≤ m.length then (oldest m).elim m fun slot => m.erase slot.key else m

def All (P : κ → ν → Prop) (m : Lru κ ν) : Prop := ∀ slot ∈ m, P slot.key slot.value

variable {P Q : κ → ν → Prop} {m : Lru κ ν} {key : κ} {value : ν} {now limit : ℕ}

omit [DecidableEq κ] in
theorem All.nil : All P ([] : Lru κ ν) := fun _ h => absurd h not_mem_nil

omit [DecidableEq κ] in
theorem All.imp (h : All P m) (hpq : ∀ key value, P key value → Q key value) : All Q m :=
  fun slot hs => hpq _ _ (h slot hs)

theorem All.get? (h : All P m) (hget : m.get? key = some value) : P key value := by
  obtain ⟨slot, hfind, rfl⟩ := Option.map_eq_some_iff.mp hget
  have hkey := find?_some hfind
  rw [decide_eq_true_eq] at hkey
  exact hkey ▸ h slot (mem_of_find?_eq_some hfind)

theorem All.erase (h : All P m) (key : κ) : All P (m.erase key) :=
  fun slot hs => h slot (mem_filter.mp hs).1

theorem All.set (h : All P m) (hnew : P key value) : All P (m.set now key value) :=
  forall_mem_cons.mpr ⟨hnew, h.erase key⟩

theorem All.makeRoom (h : All P m) : All P (m.makeRoom limit) := by
  rw [Lru.makeRoom]
  split
  · cases oldest m with
    | none => exact h
    | some slot => exact h.erase slot.key
  · exact h

end Lru
