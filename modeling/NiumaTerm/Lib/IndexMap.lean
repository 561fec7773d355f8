import Mathlib.Data.List.Nodup
import Mathlib.Data.List.Perm.Subperm

/-!
# Insertion-ordered maps of bounded size

An `IndexMap` lists its entries in the order their keys came in.  A table of bounded size drops the entry
that came in first; one that `Fits` drops nothing.
-/

namespace Rust

open List

/-- Entries in the order of their keys' insertion. -/
abbrev IndexMap (κ ν : Type) := List (κ × ν)

namespace IndexMap

variable {κ ν : Type} [BEq κ]

def keys (m : IndexMap κ ν) : List κ := m.map Prod.fst

/-- `shift_remove_index(0)` if the table is full, then `insert` at the end. -/
def pushBounded (limit : ℕ) (key : κ) (value : ν) (m : IndexMap κ ν) : IndexMap κ ν :=
  (if limit ≤ m.length then m.drop 1 else m) ++ [(key, value)]

/-- A new entry for a key that has none. -/
def keep (limit : ℕ) (key : κ) (value : ν) (m : IndexMap κ ν) : IndexMap κ ν :=
  if (m.lookup key).isSome then m else m.pushBounded limit key value

/-- The value of a key that is there, in its place. -/
def modify (key : κ) (f : ν → ν) (m : IndexMap κ ν) : IndexMap κ ν :=
  m.map fun entry => if entry.1 == key then (key, f entry.2) else entry

/-- The value of a key, in its place if the key is there. -/
def put (limit : ℕ) (key : κ) (value : ν) (m : IndexMap κ ν) : IndexMap κ ν :=
  if (m.lookup key).isSome then m.modify key fun _ => value else m.pushBounded limit key value

variable [LawfulBEq κ] {m : IndexMap κ ν} {limit : ℕ} {key : κ} {value : ν}

omit [BEq κ] [LawfulBEq κ] in
theorem pushBounded_of_lt (hroom : m.length < limit) :
    m.pushBounded limit key value = m ++ [(key, value)] := by
  rw [pushBounded, if_neg (Nat.not_le.mpr hroom)]

theorem lookup_keep (hroom : m.lookup key = none → m.length < limit) (k : κ) :
    (m.keep limit key value).lookup k =
      (m.lookup k).or (if k == key then some value else none) := by
  rw [keep]
  by_cases hkey : (m.lookup key).isSome
  · rw [if_pos hkey]
    by_cases hk : k = key
    · subst hk
      rw [Option.or_of_isSome hkey]
    · rw [beq_false_of_ne hk, if_neg Bool.false_ne_true, Option.or_none]
  · have hlen := hroom (Option.not_isSome_iff_eq_none.mp hkey)
    rw [if_neg hkey, pushBounded_of_lt hlen, lookup_append]
    by_cases hk : k = key
    · subst hk
      rw [beq_self_eq_true, if_pos rfl, lookup_cons_self]
    · rw [beq_false_of_ne hk, if_neg Bool.false_ne_true, lookup_cons, beq_false_of_ne hk,
        lookup_nil]

theorem mem_keys_iff {k : κ} : k ∈ m.keys ↔ (m.lookup k).isSome := by
  rw [keys, mem_map, List.lookup_isSome_iff]
  exact exists_congr fun entry => and_congr_right fun _ => by rw [beq_iff_eq, eq_comm]

/-- No key twice, and all of them from `names`, which the table has room for. -/
structure Fits (limit : ℕ) (names : List κ) (m : IndexMap κ ν) : Prop where
  nodup : m.keys.Nodup
  subset : m.keys ⊆ names
  room : names.length ≤ limit

variable {names : List κ}

omit [BEq κ] [LawfulBEq κ] in
theorem Fits.empty (hroom : names.length ≤ limit) : Fits limit names ([] : IndexMap κ ν) :=
  ⟨nodup_nil, nil_subset _, hroom⟩

/-- There is room for one more of the names. -/
theorem Fits.hasRoom (h : Fits limit names m) (hkey : key ∈ names) (hnew : m.lookup key = none) :
    m.length < limit := by
  classical
  have hnot : key ∉ m.keys := by
    rw [mem_keys_iff, hnew]
    exact Bool.false_ne_true
  have hsub : key :: m.keys ⊆ names := cons_subset.mpr ⟨hkey, h.subset⟩
  have hlen := (subperm_of_subset (nodup_cons.mpr ⟨hnot, h.nodup⟩) hsub).length_le
  rw [length_cons, keys, length_map] at hlen
  exact Nat.lt_of_lt_of_le hlen h.room

theorem Fits.keep (h : Fits limit names m) (hkey : key ∈ names) :
    Fits limit names (m.keep limit key value) := by
  rw [IndexMap.keep]
  split
  · exact h
  · next hnew =>
    rw [pushBounded_of_lt (h.hasRoom hkey (Option.not_isSome_iff_eq_none.mp hnew))]
    have hkeys : keys (m ++ [(key, value)]) = m.keys.concat key := by
      rw [keys, map_append, concat_eq_append]
      rfl
    refine ⟨?_, ?_, h.room⟩
    · rw [hkeys]
      exact (nodup_concat m.keys key).mpr ⟨mem_keys_iff.not.mpr hnew, h.nodup⟩
    · rw [hkeys, concat_eq_append]
      exact append_subset.mpr ⟨h.subset, by simpa using hkey⟩

end IndexMap
end Rust
