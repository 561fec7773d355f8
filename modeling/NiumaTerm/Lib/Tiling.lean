import Mathlib.Data.List.Basic

/-!
# Part of a list, cut at the ends of rows

* `slice l a b` : the elements from `a` up to `b`
* `flatMap_slice` : a slice is what its pieces in the rows of one width are together
* `slice_flatten` : the piece in one row
-/

namespace Tiling

open List

variable {α : Type*}

def slice (l : List α) (a b : ℕ) : List α := (l.take b).drop a

variable {l : List α} {a b c : ℕ}

theorem slice_of_le (h : b ≤ a) : slice l a b = [] := by
  rw [slice, drop_eq_nil_iff]
  exact Nat.le_trans (length_take_le ..) h

theorem slice_append (hab : a ≤ b) (hbc : b ≤ c) : slice l a b ++ slice l b c = slice l a c := by
  have htake : l.take c = l.take b ++ (l.take c).drop b := by
    rw [← Nat.min_eq_left hbc, ← take_take, Nat.min_eq_left hbc, take_append_drop]
  rw [slice, slice, slice]
  rcases Nat.le_total a l.length with hl | hl
  · conv_rhs => rw [htake, drop_append_of_le_length (by rw [length_take]; omega)]
  · rw [drop_of_length_le, drop_of_length_le, drop_of_length_le]
    · rfl
    all_goals rw [length_take]; omega

/-- A piece up to `m`, and the next one. -/
theorem slice_append_piece {m m' : ℕ} (h : m ≤ m') :
    slice l a (min b m) ++ slice l (max a m) (min b m') = slice l a (min b m') := by
  rcases Nat.le_total m a with hm | hm
  · rw [slice_of_le (Nat.le_trans (Nat.min_le_right ..) hm), Nat.max_eq_left hm, nil_append]
  · rw [Nat.max_eq_right hm]
    rcases Nat.le_total b m with hb | hb
    · rw [slice_of_le (a := m) (Nat.le_trans (Nat.min_le_left ..) hb), append_nil,
        Nat.min_eq_left hb, Nat.min_eq_left (Nat.le_trans hb h)]
    · rw [Nat.min_eq_right hb]
      exact slice_append hm (by omega)

variable {w : ℕ}

/-- **A slice is the pieces of it in the rows from its first to its last.** -/
theorem flatMap_slice (hw : 0 < w) (hab : a < b) :
    (List.range' (a / w) ((b - 1) / w + 1 - a / w)).flatMap
      (fun k => slice l (max a (k * w)) (min b ((k + 1) * w))) = slice l a b := by
  have hpieces : ∀ n, (List.range' (a / w) n).flatMap
      (fun k => slice l (max a (k * w)) (min b ((k + 1) * w))) =
        slice l a (min b ((a / w + n) * w)) := by
    intro n
    induction n with
    | zero =>
      refine (slice_of_le (Nat.le_trans (Nat.min_le_right ..) ?_)).symm
      exact Nat.div_mul_le_self a w
    | succ n ih =>
      rw [range'_concat, flatMap_append, ih, Nat.one_mul, flatMap_singleton,
        slice_append_piece (Nat.mul_le_mul_right w (Nat.le_succ _))]
      rfl
  have hle : a / w ≤ (b - 1) / w := Nat.div_le_div_right (by omega)
  have hend : b ≤ ((b - 1) / w + 1) * w := by
    have := Nat.lt_div_mul_add hw (a := b - 1)
    rw [Nat.add_mul, Nat.one_mul]
    omega
  rw [hpieces, Nat.add_sub_of_le (Nat.le_succ_of_le hle), Nat.min_eq_left hend]

theorem length_flatten_of_length {rows : List (List α)} (hrows : ∀ r ∈ rows, r.length = w) :
    rows.flatten.length = rows.length * w := by
  induction rows with
  | nil => rw [flatten_nil, length_nil, length_nil, Nat.zero_mul]
  | cons r rows ih =>
    rw [flatten_cons, length_append, hrows r (.head _),
      ih fun r hr => hrows r (.tail _ hr), length_cons, Nat.succ_mul, Nat.add_comm]

theorem slice_flatten {rows : List (List α)} {row : List α} {k : ℕ}
    (hrows : ∀ r ∈ rows, r.length = w) (hrow : rows[k]? = some row) (hb : b ≤ w) :
    slice rows.flatten (k * w + a) (k * w + b) = slice row a b := by
  induction rows generalizing k with
  | nil => cases hrow
  | cons r rows ih =>
    have hr : r.length = w := hrows r (.head _)
    cases k with
    | zero =>
      cases hrow
      rw [Nat.zero_mul, Nat.zero_add, Nat.zero_add, flatten_cons, slice,
        take_append_of_le_length (by omega), slice]
    | succ k =>
      have h := ih (fun r hr => hrows r (.tail _ hr)) hrow
      rw [← h, flatten_cons, slice, slice, Nat.add_mul, Nat.one_mul,
        show k * w + w + b = r.length + (k * w + b) by omega,
        show k * w + w + a = r.length + (k * w + a) by omega, take_length_add_append,
        drop_length_add_append]

end Tiling
