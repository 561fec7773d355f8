import Mathlib.Data.List.Basic

/-!
# Windows on a log

A window keeps the last records of a log that only grows, at most `capacity` of them.

* `suffix_push` : a window stays the end of its log
* `filter_of_suffix` : a window that still reaches back to a number tells everything after it
-/

namespace Window

open List

variable {α : Type*}

/-- Keep one more record, and drop the oldest one from a full window. -/
def push (capacity : ℕ) (window : List α) (x : α) : List α :=
  (if window.length = capacity then window.tail else window) ++ [x]

theorem suffix_push {capacity : ℕ} {window log : List α} (h : window <:+ log) (x : α) :
    push capacity window x <:+ log ++ [x] := by
  obtain ⟨before, rfl⟩ := h
  rw [push]
  split
  · cases window with
    | nil => exact ⟨before, by simp⟩
    | cons y rest => exact ⟨before ++ [y], by simp⟩
  · exact ⟨before, by simp⟩

theorem mem_of_mem_push {capacity : ℕ} {window : List α} {x y : α}
    (h : y ∈ push capacity window x) : y ∈ window ∨ y = x := by
  rcases mem_append.mp h with h | h
  · left
    split at h
    · exact mem_of_mem_tail h
    · exact h
  · exact .inr (mem_singleton.mp h)

/-- The records of a log are numbered upwards from the first number after `n`. -/
def NumberedFrom (number : α → ℕ) (n : ℕ) (log : List α) : Prop :=
  ∀ i (h : i < log.length), number log[i] = n + 1 + i

section

variable {number : α → ℕ} {n : ℕ} {log : List α}

theorem NumberedFrom.nil : NumberedFrom number n [] := by
  intro i h
  cases h

theorem NumberedFrom.concat (h : NumberedFrom number n log) {x : α}
    (hx : number x = n + log.length + 1) : NumberedFrom number n (log ++ [x]) := by
  intro i hi
  rw [getElem_append]
  split
  · exact h i _
  · next hge =>
    rw [length_append, length_singleton] at hi
    obtain rfl : i = log.length := by omega
    rw [getElem_singleton, hx]
    omega

theorem NumberedFrom.lt (h : NumberedFrom number n log) {x : α} (hx : x ∈ log) : n < number x := by
  obtain ⟨i, hi, rfl⟩ := getElem_of_mem hx
  rw [h i hi]
  omega

/-- **A window tells everything after a number** when its oldest record is not past the next one. -/
theorem filter_of_suffix {older window : List α} (hw : window <:+ older ++ log)
    (hold : ∀ x ∈ older, number x ≤ n) (hlog : NumberedFrom number n log) {first : α}
    (hfirst : window.head? = some first) (hreach : number first ≤ n + 1) :
    window.filter (fun x => n < number x) = log := by
  have hkeep : (log.filter fun x => n < number x) = log :=
    filter_eq_self.mpr fun x hx => by simpa using hlog.lt hx
  obtain ⟨before, he⟩ := hw
  rcases append_eq_append_iff.mp he with ⟨kept, rfl, rfl⟩ | ⟨dropped, rfl, rfl⟩
  · have hdrop : (kept.filter fun x => n < number x) = [] :=
      filter_eq_nil_iff.mpr fun x hx => by simpa using hold x (mem_append_right _ hx)
    rw [filter_append, hdrop, hkeep, nil_append]
  · cases window with
    | nil => cases hfirst
    | cons x rest =>
      obtain rfl : x = first := Option.some.inj hfirst
      have hnumber := hlog dropped.length (by simp)
      rw [getElem_append_right (Nat.le_refl _)] at hnumber
      simp only [Nat.sub_self, getElem_cons_zero] at hnumber
      obtain rfl := length_eq_zero_iff.mp (show dropped.length = 0 by omega)
      rw [nil_append] at hkeep ⊢
      exact hkeep

end

end Window
