import Mathlib.Data.Nat.Log
import Mathlib.Tactic.Linarith
import Mathlib.Tactic.Positivity

/-!
# Integers as doubles

`nearest n` is the double nearest to the integer `n`, ties to even.  A double is not more than 53 bits
times a power of two (`IsDouble`); the bounds of the exponent do not matter here.
-/

namespace Double

def IsDouble (q : ℚ) : Prop := ∃ (m : ℤ) (e : ℤ), |m| < 2 ^ 53 ∧ q = m * 2 ^ e

/-- Rounds to a multiple of `unit`, ties to even. -/
def roundTo (unit n : ℕ) : ℕ :=
  let quotient := n / unit
  let remainder := n % unit
  if unit < 2 * remainder ∨ (2 * remainder = unit ∧ quotient % 2 = 1) then (quotient + 1) * unit
  else quotient * unit

/-- The weight of the last bit of the mantissa. -/
def unit (n : ℕ) : ℕ := 2 ^ (n.log2 - 52)

def nearestNat (n : ℕ) : ℕ := roundTo (unit n) n

def nearest : ℤ → ℤ
  | .ofNat n => nearestNat n
  | .negSucc n => -nearestNat (n + 1)

example : nearest 9007199254740993 = 9007199254740992 ∧ nearest 9007199254740995 = 9007199254740996 := by
  decide +kernel

/-! ## Rounding to a multiple -/

variable {u m n : ℕ}

theorem roundTo_of_dvd (h : u ∣ n) : roundTo u n = n := by
  rcases Nat.eq_zero_or_pos u with rfl | hu
  · rw [Nat.eq_zero_of_zero_dvd h]
    rfl
  · obtain ⟨k, rfl⟩ := h
    have hmod : u * k % u = 0 := Nat.mul_mod_right u k
    have hdiv : u * k / u = k := Nat.mul_div_cancel_left k hu
    rw [roundTo]
    simp only [hmod, hdiv]
    rw [if_neg (by omega), Nat.mul_comm]

variable {k : ℕ} {a : ℤ} {q : ℚ}

theorem le_roundTo (h : k * u ≤ n) : k * u ≤ roundTo u n := by
  rcases Nat.eq_zero_or_pos u with rfl | hu
  · simp
  · have hk : k ≤ n / u := (Nat.le_div_iff_mul_le hu).mpr h
    rw [roundTo]
    split_ifs
    · exact Nat.mul_le_mul_right u (Nat.le_succ_of_le hk)
    · exact Nat.mul_le_mul_right u hk

theorem roundTo_le (h : n ≤ k * u) : roundTo u n ≤ k * u := by
  rcases Nat.eq_zero_or_pos u with rfl | hu
  · simp [roundTo]
  · rcases Nat.eq_or_lt_of_le h with rfl | hlt
    · rw [roundTo_of_dvd (Nat.dvd_mul_left u k)]
    · have hk : n / u + 1 ≤ k := (Nat.div_lt_iff_lt_mul hu).mpr hlt
      rw [roundTo]
      split_ifs
      · exact Nat.mul_le_mul_right u hk
      · exact Nat.mul_le_mul_right u (Nat.le_of_succ_le hk)

theorem roundTo_mono (hu : 0 < u) (h : m ≤ n) : roundTo u m ≤ roundTo u n := by
  rcases Nat.eq_or_lt_of_le (Nat.div_le_div_right (c := u) h) with heq | hlt
  · have hmod : m % u ≤ n % u := by
      have hm := Nat.div_add_mod m u
      have hn := Nat.div_add_mod n u
      rw [heq] at hm
      omega
    rw [roundTo, roundTo, heq]
    have hstep := Nat.mul_le_mul_right u (Nat.le_succ (n / u))
    split_ifs with h₁ h₂
    · exact Nat.le_refl _
    · omega
    · exact hstep
    · exact Nat.le_refl _
  · have hm : m ≤ (m / u + 1) * u := by
      have hdiv := Nat.lt_div_mul_add (a := m) hu
      rw [Nat.add_mul, Nat.one_mul]
      exact hdiv.le
    refine (roundTo_le hm).trans (le_roundTo ?_)
    exact (Nat.mul_le_mul_right u hlt).trans (Nat.div_mul_le_self n u)

/-! ## Natural numbers -/

theorem unit_pos (n : ℕ) : 0 < unit n := Nat.two_pow_pos _

theorem nearestNat_mono (h : m ≤ n) : nearestNat m ≤ nearestNat n := by
  rcases Nat.eq_zero_or_pos m with rfl | hm
  · simp [nearestNat, roundTo]
  rcases Nat.lt_or_ge m.log2 n.log2 with hlt | hge
  · -- the power of two that `n` begins with lies between them
    have hn : n ≠ 0 := (hm.trans_le h).ne'
    rcases Nat.lt_or_ge n.log2 53 with hsmall | hlarge
    · have hunits : unit m = unit n := by
        rw [unit, unit, Nat.sub_eq_zero_of_le (by omega), Nat.sub_eq_zero_of_le (by omega)]
      rw [nearestNat, nearestNat, hunits]
      exact roundTo_mono (unit_pos n) h
    have hmlt : m ≤ 2 ^ n.log2 :=
      (Nat.lt_log2_self.trans_le (Nat.pow_le_pow_right (by decide) hlt)).le
    have hleft : 2 ^ n.log2 = 2 ^ (n.log2 - (m.log2 - 52)) * unit m := by
      rw [unit, ← Nat.pow_add, Nat.sub_add_cancel (by omega)]
    have hright : 2 ^ n.log2 = 2 ^ 52 * unit n := by
      rw [unit, ← Nat.pow_add, Nat.add_sub_cancel' (by omega)]
    have hbelow : nearestNat m ≤ 2 ^ n.log2 := by
      rw [hleft] at hmlt ⊢
      exact roundTo_le hmlt
    have habove : 2 ^ n.log2 ≤ nearestNat n := by
      have hself := Nat.log2_self_le hn
      rw [hright] at hself ⊢
      exact le_roundTo hself
    exact hbelow.trans habove
  · have hle : m.log2 ≤ n.log2 :=
      (Nat.le_log2 (hm.trans_le h).ne').mpr ((Nat.log2_self_le hm.ne').trans h)
    have hlog : m.log2 = n.log2 := Nat.le_antisymm hle hge
    rw [nearestNat, nearestNat, unit, unit, hlog]
    exact roundTo_mono (Nat.two_pow_pos _) h

theorem nearestNat_of_double (h : m < 2 ^ 53) : nearestNat (m * 2 ^ k) = m * 2 ^ k := by
  refine roundTo_of_dvd ((Nat.pow_dvd_pow 2 ?_).mul_left m)
  rcases Nat.eq_zero_or_pos m with rfl | hm
  · rw [Nat.zero_mul]
    exact Nat.zero_le _
  · have hne : m * 2 ^ k ≠ 0 := Nat.mul_ne_zero hm.ne' (Nat.two_pow_pos k).ne'
    have hlt : m * 2 ^ k < 2 ^ (53 + k) := by
      rw [Nat.pow_add]
      exact Nat.mul_lt_mul_of_pos_right h (Nat.two_pow_pos k)
    have hlog : (m * 2 ^ k).log2 < 53 + k := (Nat.log2_lt hne).mpr hlt
    omega

/-! ## Integers -/

theorem nearest_neg (n : ℤ) : nearest (-n) = -nearest n := by
  rcases n with n | n
  · rcases n with _ | n
    · rfl
    · rfl
  · exact (neg_neg _).symm

theorem nearest_natCast (n : ℕ) : nearest n = nearestNat n := rfl

theorem nearest_mono {a b : ℤ} (h : a ≤ b) : nearest a ≤ nearest b := by
  rcases a with a | a <;> rcases b with b | b
  · exact Int.ofNat_le.mpr (nearestNat_mono (Int.ofNat_le.mp h))
  · exact absurd h (Int.not_le.mpr ((Int.negSucc_lt_zero b).trans_le (Int.natCast_nonneg a)))
  · exact (Int.neg_nonpos_of_nonneg (Int.natCast_nonneg _)).trans (Int.natCast_nonneg _)
  · have hab : b + 1 ≤ a + 1 := by omega
    exact Int.neg_le_neg (Int.ofNat_le.mpr (nearestNat_mono hab))

theorem nearest_of_double (h : |a| < 2 ^ 53) : nearest (a * 2 ^ k) = a * 2 ^ k := by
  have hnat (m : ℕ) (hm : m < 2 ^ 53) : nearest ((m : ℤ) * 2 ^ k) = m * 2 ^ k := by
    have hcast : ((m : ℤ) * 2 ^ k) = ((m * 2 ^ k : ℕ) : ℤ) := by push_cast; rfl
    rw [hcast, nearest_natCast, nearestNat_of_double hm]
  have habs : a.natAbs < 2 ^ 53 := by rw [Int.abs_eq_natAbs] at h; exact_mod_cast h
  rcases Int.natAbs_eq a with ha | ha
  · rw [ha]
    exact hnat _ habs
  · rw [ha, Int.neg_mul, nearest_neg, hnat _ habs]

theorem nearest_of_small (h : |a| < 2 ^ 53) : nearest a = a := by
  have hdouble := nearest_of_double (k := 0) h
  rwa [pow_zero, mul_one] at hdouble

theorem isDouble_nearest_two_pow : nearest (-(2 ^ 53)) = -(2 ^ 53) := by decide +kernel

/-! ## Integers and doubles -/

theorem IsDouble.neg (h : IsDouble q) : IsDouble (-q) := by
  obtain ⟨m, e, hm, rfl⟩ := h
  exact ⟨-m, e, by rwa [abs_neg], by rw [Int.cast_neg, neg_mul]⟩

/-- A double is an integer that is not rounded, or it is small. -/
theorem IsDouble.cases (h : IsDouble q) : (∃ a : ℤ, q = a ∧ nearest a = a) ∨ |q| < 2 ^ 53 := by
  obtain ⟨m, e, hm, rfl⟩ := h
  rcases Int.le_total 0 e with he | he
  · obtain ⟨k, rfl⟩ := Int.eq_ofNat_of_zero_le he
    exact .inl ⟨m * 2 ^ k, by push_cast; rfl, nearest_of_double hm⟩
  · refine .inr ?_
    have hpow : (2 : ℚ) ^ e ≤ 1 := zpow_le_one_of_nonpos₀ (by norm_num) he
    have hpos : (0 : ℚ) < 2 ^ e := zpow_pos (by norm_num) e
    have hcast : |(m : ℚ)| < 2 ^ 53 := by exact_mod_cast hm
    rw [abs_mul, abs_of_pos hpos]
    exact (mul_le_of_le_one_right (abs_nonneg _) hpow).trans_lt hcast

theorem nearest_le (hq : IsDouble q) (h : (a : ℚ) ≤ q) : (nearest a : ℚ) ≤ q := by
  rcases hq.cases with ⟨b, rfl, hb⟩ | hsmall
  · have hle := nearest_mono (Int.cast_le.mp h)
    rw [hb] at hle
    exact Int.cast_le.mpr hle
  · have hlow := (abs_lt.mp hsmall).1
    have hhigh := (abs_lt.mp hsmall).2
    rcases Int.lt_or_le (-(2 ^ 53)) a with ha | ha
    · have hlt : a < 2 ^ 53 := by exact_mod_cast h.trans_lt hhigh
      rwa [nearest_of_small (abs_lt.mpr ⟨ha, hlt⟩)]
    · have hle := nearest_mono ha
      rw [isDouble_nearest_two_pow] at hle
      have hcast : (nearest a : ℚ) ≤ -(2 ^ 53) := by exact_mod_cast hle
      exact hcast.trans hlow.le

theorem le_nearest (hq : IsDouble q) (h : q ≤ (a : ℚ)) : q ≤ (nearest a : ℚ) := by
  have hneg : ((-a : ℤ) : ℚ) ≤ -q := by push_cast; exact neg_le_neg h
  have hle := nearest_le hq.neg hneg
  rw [nearest_neg] at hle
  push_cast at hle
  exact le_of_neg_le_neg hle

end Double
