import Mathlib.Data.List.Basic

/-!
# Fields of a machine word

A field of `w` bits starts at bit `lo` of a word.  `get` and `set` read and write it with masks and
shifts.

* `get_set` — a written field is read back.
* `get_set_of_disjoint` — writing a field leaves every other one alone.
-/

namespace BitField

variable {n lo w lo' w' : ℕ} {x : BitVec n} {v : BitVec w}

def mask (n lo w : ℕ) : BitVec n := (BitVec.allOnes w).setWidth n <<< lo

def get (lo w : ℕ) (x : BitVec n) : BitVec w := ((x &&& mask n lo w) >>> lo).setWidth w

def set (lo : ℕ) (x : BitVec n) (v : BitVec w) : BitVec n :=
  (x &&& ~~~mask n lo w) ||| (v.setWidth n <<< lo)

theorem getLsbD_mask (i : ℕ) : (mask n lo w).getLsbD i = decide (i < n ∧ lo ≤ i ∧ i < lo + w) := by
  rw [mask, BitVec.getLsbD_shiftLeft, BitVec.getLsbD_setWidth, BitVec.getLsbD_allOnes]
  by_cases hn : i < n
  · by_cases hlo : lo ≤ i
    · have h : i - lo < w ↔ i < lo + w := by omega
      have hin : i - lo < n := by omega
      simp [hn, hlo, h, hin, Nat.not_lt.mpr hlo]
    · simp [hn, hlo, Nat.not_le.mp hlo]
  · simp [hn]

theorem getLsbD_get (h : lo + w ≤ n) (i : ℕ) :
    (get lo w x).getLsbD i = (decide (i < w) && x.getLsbD (lo + i)) := by
  rw [get, BitVec.getLsbD_setWidth, BitVec.getLsbD_ushiftRight, BitVec.getLsbD_and, getLsbD_mask]
  by_cases hi : i < w
  · have hn : lo + i < n := by omega
    simp [hi, hn]
  · simp [hi]

theorem getLsbD_set (i : ℕ) :
    (set lo x v).getLsbD i =
      if lo ≤ i ∧ i < lo + w then decide (i < n) && v.getLsbD (i - lo) else x.getLsbD i := by
  rw [set, BitVec.getLsbD_or, BitVec.getLsbD_and, BitVec.getLsbD_not, getLsbD_mask,
    BitVec.getLsbD_shiftLeft, BitVec.getLsbD_setWidth]
  by_cases hn : i < n
  · by_cases hlo : lo ≤ i
    · have hin : i - lo < n := by omega
      by_cases hw : i < lo + w
      · simp [hn, hlo, hw, hin, Nat.not_lt.mpr hlo]
      · have hv : v.getLsbD (i - lo) = false := BitVec.getLsbD_of_ge v _ (by omega)
        simp [hn, hlo, hw, hv]
    · simp [hn, hlo, Nat.not_le.mp hlo]
  · have hx : x.getLsbD i = false := BitVec.getLsbD_of_ge x _ (by omega)
    simp [hn, hx]

theorem get_set (h : lo + w ≤ n) : get lo w (set lo x v) = v := by
  refine BitVec.eq_of_getLsbD_eq fun i hi => ?_
  rw [getLsbD_get h, getLsbD_set, if_pos ⟨by omega, by omega⟩, Nat.add_sub_cancel_left]
  simp [hi, show lo + i < n by omega]

theorem get_set_of_disjoint (h : lo' + w' ≤ n) (hdisjoint : lo + w ≤ lo' ∨ lo' + w' ≤ lo) :
    get lo' w' (set lo x v) = get lo' w' x := by
  refine BitVec.eq_of_getLsbD_eq fun i hi => ?_
  rw [getLsbD_get h, getLsbD_get h, getLsbD_set, if_neg (by omega)]

end BitField
