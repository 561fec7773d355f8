import Mathlib.Data.List.Induction

/-!
# Cutting a list into pieces of one length

`chunks n l` are the pieces of `n` elements that `l` is made of, the last one as long as it comes.
-/

namespace Chunks

open List

variable {α β : Type*}

/-- `slice::chunks`, for `0 < n`. -/
def chunks (n : ℕ) (l : List α) : List (List α) :=
  if _h : l = [] ∨ n = 0 then [] else l.take n :: chunks n (l.drop n)
termination_by l.length
decreasing_by
  push Not at _h
  rw [length_drop]
  have := length_pos_iff.mpr _h.1
  omega

@[simp] theorem chunks_nil (n : ℕ) : chunks n ([] : List α) = [] := by
  rw [chunks, dif_pos (.inl rfl)]

variable {n : ℕ} {l : List α}

theorem chunks_eq_cons (hn : 0 < n) (hl : l ≠ []) : chunks n l = l.take n :: chunks n (l.drop n) := by
  rw [chunks, dif_neg (by rw [not_or]; exact ⟨hl, Nat.ne_of_gt hn⟩)]

theorem chunks_eq_singleton (hl : l ≠ []) (h : l.length ≤ n) : chunks n l = [l] := by
  have hn : 0 < n := Nat.lt_of_lt_of_le (length_pos_iff.mpr hl) h
  rw [chunks_eq_cons hn hl, take_of_length_le h, drop_of_length_le h, chunks_nil]

theorem chunks_eq_nil_iff (hn : 0 < n) : chunks n l = [] ↔ l = [] := by
  constructor
  · intro h
    by_contra hl
    rw [chunks_eq_cons hn hl] at h
    cases h
  · rintro rfl
    exact chunks_nil n

theorem length_le_of_mem_chunks {c : List α} (hc : c ∈ chunks n l) : c.length ≤ n := by
  induction l using chunks.induct n with
  | case1 l h =>
    rw [chunks, dif_pos h] at hc
    cases hc
  | case2 l h ih =>
    rw [chunks, dif_neg h] at hc
    rcases mem_cons.mp hc with rfl | hc
    · exact length_take_le ..
    · exact ih hc

theorem ne_nil_of_mem_chunks {c : List α} (hc : c ∈ chunks n l) : c ≠ [] := by
  induction l using chunks.induct n with
  | case1 l h =>
    rw [chunks, dif_pos h] at hc
    cases hc
  | case2 l h ih =>
    rw [chunks, dif_neg h] at hc
    obtain ⟨hl, hn⟩ := not_or.mp h
    rcases mem_cons.mp hc with rfl | hc
    · rw [Ne, take_eq_nil_iff]
      exact fun hnil => hnil.elim hn hl
    · exact ih hc

/-- The first pieces together are where the next one begins. -/
theorem flatten_take_chunks (hn : 0 < n) (i : ℕ) : ((chunks n l).take i).flatten = l.take (i * n) := by
  induction i generalizing l with
  | zero => simp
  | succ i ih =>
    by_cases hl : l = []
    · subst hl
      simp
    · rw [chunks_eq_cons hn hl, take_succ_cons, flatten_cons, ih, Nat.succ_mul, Nat.add_comm,
        ← take_add]

theorem flatten_chunks (hn : 0 < n) : (chunks n l).flatten = l := by
  induction l using chunks.induct n with
  | case1 l h =>
    obtain rfl := h.resolve_right (Nat.ne_of_gt hn)
    rw [chunks_nil]
    rfl
  | case2 l h ih =>
    rw [chunks, dif_neg h, flatten_cons, ih, take_append_drop]

/-- All pieces before the last are full. -/
theorem mul_lt_length_of_lt (hn : 0 < n) {i : ℕ} (hi : i < (chunks n l).length) : i * n < l.length := by
  induction i generalizing l with
  | zero =>
    rw [Nat.zero_mul, length_pos_iff]
    rintro rfl
    simp at hi
  | succ i ih =>
    by_cases hl : l = []
    · subst hl
      simp at hi
    · rw [chunks_eq_cons hn hl, length_cons] at hi
      have h := ih (Nat.lt_of_succ_lt_succ hi)
      rw [length_drop] at h
      rw [Nat.succ_mul]
      omega

theorem length_flatten_take_chunks (hn : 0 < n) {i : ℕ} (hi : i < (chunks n l).length) :
    ((chunks n l).take i).flatten.length = i * n := by
  rw [flatten_take_chunks hn, length_take, Nat.min_eq_left (Nat.le_of_lt (mul_lt_length_of_lt hn hi))]

theorem mapIdx_mark_last (f : Bool → α → β) (init : List α) (last : α) :
    (init ++ [last]).mapIdx (fun i a => f (i == (init ++ [last]).length - 1) a) = init.map (f false) ++ [f true last] := by
  rw [length_append, length_singleton, Nat.add_sub_cancel, mapIdx_append]
  congr 1
  · refine ext_getElem (by simp) fun i h₁ h₂ => ?_
    have hi : i < init.length := by simpa using h₂
    have hne : (i == init.length) = false := beq_false_of_ne (Nat.ne_of_lt hi)
    simp [hne]
  · simp

end Chunks
