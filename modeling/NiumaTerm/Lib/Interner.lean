import Mathlib.Data.List.Nodup

/-!
# Tables of distinct values

A table lists values in the order in which they first came in (`add`); one of bounded size keeps what it
has once it is full (`addBounded`, `mem_or_full`).
-/

namespace Interner

open List

variable {α : Type*} [DecidableEq α]

def add (table : List α) (x : α) : List α := if x ∈ table then table else table ++ [x]

def addBounded (limit : ℕ) (table : List α) (x : α) : List α :=
  if x ∈ table ∨ limit ≤ table.length then table else table ++ [x]

def addAll (table xs : List α) : List α := xs.foldl add table

variable {limit : ℕ} {table xs : List α} {x y : α}

theorem mem_add : y ∈ add table x ↔ y ∈ table ∨ y = x := by
  rw [add]
  split
  · next hx =>
    refine ⟨.inl, fun h => h.elim id ?_⟩
    rintro rfl
    exact hx
  · simp

theorem mem_addAll : y ∈ addAll table xs ↔ y ∈ table ∨ y ∈ xs := by
  induction xs generalizing table with
  | nil => simp [addAll]
  | cons x xs ih =>
    rw [addAll, foldl_cons, ← addAll, ih, mem_add, mem_cons, or_assoc]

theorem addAll_of_nodup (h : (table ++ xs).Nodup) : addAll table xs = table ++ xs := by
  induction xs generalizing table with
  | nil => exact (append_nil table).symm
  | cons x xs ih =>
    have hnew : x ∉ table := fun hx =>
      (nodup_append.mp h).2.2 x hx x mem_cons_self rfl
    rw [append_cons] at h
    rw [addAll, foldl_cons, add, if_neg hnew, ← addAll, ih h, ← append_cons]

theorem addBounded_take : addBounded limit (table.take limit) x = (add table x).take limit := by
  rw [addBounded, add, length_take]
  by_cases hfull : limit ≤ table.length
  · rw [if_pos (.inr (by omega))]
    split
    · rfl
    · rw [take_append_of_le_length hfull]
  · have htake : table.take limit = table := take_of_length_le (by omega)
    rw [htake]
    by_cases hx : x ∈ table
    · rw [if_pos (.inl hx), if_pos hx, htake]
    · rw [if_neg (not_or.mpr ⟨hx, by omega⟩), if_neg hx, take_of_length_le]
      rw [length_append, length_singleton]
      omega

theorem mem_or_full (h : x ∈ xs) : x ∈ (addAll table xs).take limit ∨
    ((addAll table xs).take limit).length = limit := by
  rw [length_take]
  rcases Nat.lt_or_ge (addAll table xs).length limit with hlt | hge
  · left
    rw [take_of_length_le (Nat.le_of_lt hlt)]
    exact mem_addAll.mpr (.inr h)
  · right
    omega

end Interner
