import Mathlib

/-!
# Whole numbers in 32-bit floats

`Whole` is the integer that a float stands for, and `roundI64` the nearest integer, halves away from
zero, as a 64-bit integer that saturates.  A whole float of at most `2 ^ 63` comes back from it
(`ofInt_roundI64`).
-/

namespace Binary32

open Float.Model.UnpackedFloat
open Float.Model (UnpackedFloat Format totalExponent)

/-- A mantissa of 24 bits. -/
structure Normal (m : ℕ) (e : ℤ) : Prop where
  low : 2 ^ 23 ≤ m
  high : m < 2 ^ 24
  least : -149 ≤ e

variable {s : Sign} {m : ℕ} {e : ℤ}

theorem Normal.pos (h : Normal m e) : 0 < m := Nat.lt_of_lt_of_le (by decide) h.low

theorem Normal.log2 (h : Normal m e) : m.log2 = 23 :=
  (Nat.log2_eq_iff h.pos.ne').mpr ⟨h.low, h.high⟩

/-! ## Rounding what is exact -/

theorem log2_mul_two_pow {n : ℕ} (hn : n ≠ 0) (t : ℕ) : (n * 2 ^ t).log2 = n.log2 + t := by
  refine (Nat.log2_eq_iff (mul_ne_zero hn (by positivity))).mpr ⟨?_, ?_⟩
  · rw [pow_add]
    exact Nat.mul_le_mul_right _ (Nat.log2_self_le hn)
  · rw [add_right_comm, pow_add]
    exact Nat.mul_lt_mul_of_pos_right Nat.lt_log2_self (by positivity)

theorem shiftRight_exact (m t : ℕ) :
    (⟨m * 2 ^ t, false, false⟩ : ExtendedMantissa) >>> t = ⟨m, false, false⟩ := by
  change t.repeat ExtendedMantissa.shiftRightOne _ = _
  induction t generalizing m with
  | zero => rw [pow_zero, mul_one]; rfl
  | succ t ih =>
    rw [Nat.repeat, pow_succ', ← mul_assoc, ih (m * 2), ExtendedMantissa.shiftRightOne]
    simp

/-- A normal float written with a smaller exponent is shifted back. -/
theorem shiftToTargetExponent_exact (h : Normal m e) (t : ℕ) :
    shiftToTargetExponent .binary32 (m * 2 ^ t) (e - t) .exact = (⟨m, false, false⟩, e) := by
  have hlog : (m * 2 ^ t).log2 = 23 + t := by rw [log2_mul_two_pow h.pos.ne', h.log2]
  have htarget : Format.binary32.targetExponent (totalExponent (m * 2 ^ t) (e - t)) = e := by
    have hleast := h.least
    have hbits : Format.binary32.mantissaBits = 24 := by decide
    have hmin : Format.binary32.minExponent = -149 := by decide
    rw [Format.targetExponent, totalExponent, hlog, hbits, hmin]
    push_cast
    omega
  rw [shiftToTargetExponent]
  simp only [htarget, shiftToExponent]
  rw [show (e - (e - t)).toNat = t by omega]
  exact Prod.ext (shiftRight_exact m t) (by simp)

theorem roundWithAccuracy_exact (s : Sign) (h : Normal m e) (t : ℕ) :
    roundWithAccuracy .binary32 s (m * 2 ^ t) (e - t) .exact = .finite s m e h.pos := by
  have hagain := shiftToTargetExponent_exact h 0
  rw [pow_zero, mul_one, Nat.cast_zero, sub_zero] at hagain
  have hrounded : (⟨m, false, false⟩ : ExtendedMantissa).roundedMantissa = m := rfl
  rw [roundWithAccuracy]
  simp only [shiftToTargetExponent_exact h t, hrounded, hagain]
  rw [dif_neg h.pos.ne']

def Scaled (n m : ℕ) (e : ℤ) : Prop := n * 2 ^ (-e).toNat = m * 2 ^ e.toNat

instance (n m : ℕ) (e : ℤ) : Decidable (Scaled n m e) := Nat.decEq _ _

/-- **A natural number of 24 bits times a power of two is not rounded.** -/
theorem round_exact (s : Sign) {n : ℕ} (h : Normal m e) (hn : Scaled n m e) :
    UnpackedFloat.round .binary32 s n 0 = .finite s m e h.pos := by
  have hleast := h.least
  -- the number is the mantissa, shifted one way or the other
  obtain ⟨t, hshift, hdown⟩ : ∃ t : ℕ, n <<< (0 - e).toNat = m * 2 ^ t ∧
      (0 : ℤ) - (0 - e).toNat = e - t := by
    refine ⟨e.toNat, ?_, by omega⟩
    rw [Nat.shiftLeft_eq, zero_sub]
    exact hn
  have hlog : (n.log2 : ℤ) = 23 + e := by
    have hn0 : n ≠ 0 := by
      rintro rfl
      have := Nat.mul_pos h.pos (Nat.two_pow_pos e.toNat)
      rw [← hn, zero_mul] at this
      exact lt_irrefl 0 this
    have := congrArg Nat.log2 hn
    rw [log2_mul_two_pow hn0, log2_mul_two_pow h.pos.ne', h.log2] at this
    omega
  have htarget : Format.binary32.targetExponent (totalExponent n 0) = e := by
    have hbits : Format.binary32.mantissaBits = 24 := by decide
    have hmin : Format.binary32.minExponent = -149 := by decide
    rw [Format.targetExponent, totalExponent, hlog, hbits, hmin]
    omega
  rw [UnpackedFloat.round]
  simp only [htarget, decreaseExponent, hshift, hdown]
  exact roundWithAccuracy_exact s h t

/-! ## Whole floats -/

/-- The float stands for the integer `n`. -/
def Whole : UnpackedFloat → ℤ → Prop
  | .zero _, n => n = 0
  | .finite s m e _, n => ∃ k : ℕ, Scaled k m e ∧ n = s.apply k
  | _, _ => False

abbrev IsWhole (x : Float32) (n : ℤ) : Prop := Whole x.toModel.unpack n

theorem finite_of_unpack {b : BitVec Format.binary32.numBits} {h : 0 < m}
    (hu : UnpackedFloat.unpack .binary32 b = .finite s m e h) :
    Normal m e ∨ m < 2 ^ 23 ∧ e = -149 := by
  have hbias : Format.binary32.exponentBias = 127 := by decide
  rw [UnpackedFloat.unpack] at hu
  simp only [hbias] at hu
  split at hu
  · split at hu <;> cases hu
  split at hu
  · split at hu
    · cases hu
    · next hzero _ =>
      obtain ⟨-, rfl, rfl⟩ := UnpackedFloat.finite.inj hu
      refine .inr ⟨BitVec.isLt _, ?_⟩
      rw [hzero]
      rfl
  · next hzero =>
    obtain ⟨-, rfl, rfl⟩ := UnpackedFloat.finite.inj hu
    generalize unpackExponent b = exponent at hzero ⊢
    have hpos : exponent.toNat ≠ 0 := fun h => hzero (BitVec.eq_of_toNat_eq h)
    refine .inl ⟨?_, BitVec.isLt _, ?_⟩
    · rw [BitVec.toNat_append, ← Nat.shiftLeft_add_eq_or_of_lt (BitVec.isLt _), Nat.shiftLeft_eq,
        show (1#1).toNat = 1 from rfl, one_mul]
      exact Nat.le_add_right _ _
    · push_cast
      omega

variable {x : Float32.Model} {n : ℤ}

theorem whole_cases (h : Whole x.unpack n) :
    n = 0 ∧ (∃ s, x.unpack = .zero s) ∨
      ∃ s m e k, ∃ hn : Normal m e, x.unpack = .finite s m e hn.pos ∧
        Scaled k m e ∧ n = s.apply k := by
  cases hu : x.unpack with
  | notANumber | infinity s => rw [hu] at h; exact h.elim
  | zero s =>
    rw [hu] at h
    exact .inl ⟨h, s, rfl⟩
  | finite s m e hm =>
    rw [hu] at h
    obtain ⟨k, hk, hn⟩ := h
    rcases finite_of_unpack hu with hnormal | ⟨hlt, rfl⟩
    · exact .inr ⟨s, m, e, k, hnormal, rfl, hk, hn⟩
    · -- too small to be whole
      exfalso
      have hk' : k * 2 ^ 149 = m * 2 ^ 0 := hk
      rcases Nat.eq_zero_or_pos k with rfl | hpos
      · omega
      · have := Nat.mul_le_mul_right (2 ^ 149) hpos
        omega

theorem scaled_pos {k : ℕ} (h : Normal m e) (hk : Scaled k m e) : 0 < k := by
  rcases Nat.eq_zero_or_pos k with rfl | hpos
  · have := Nat.mul_pos h.pos (Nat.two_pow_pos e.toNat)
    rw [← hk, zero_mul] at this
    exact absurd this (lt_irrefl 0)
  · exact hpos

/-- **The float nearest to a whole float's integer is that float**, up to the sign of zero. -/
theorem ofInt_whole (h : Whole x.unpack n) (hn : n ≠ 0) : Float32.Model.ofInt n = x := by
  rcases whole_cases h with ⟨h0, -⟩ | ⟨s, m, e, k, hnormal, hu, hk, rfl⟩
  · exact absurd h0 hn
  have hpos := scaled_pos hnormal hk
  have hround : UnpackedFloat.ofInt .binary32 (s.apply k) = .finite s m e hnormal.pos := by
    rw [UnpackedFloat.ofInt, UnpackedFloat.normalize]
    cases s with
    | negative =>
      rw [show compare (Sign.negative.apply k) 0 = .lt from
        compare_lt_iff_lt.mpr (by simpa [Sign.apply] using hpos)]
      simpa [Sign.apply] using round_exact .negative hnormal hk
    | positive =>
      rw [show compare (Sign.positive.apply k) 0 = .gt from
        compare_gt_iff_gt.mpr (by simpa [Sign.apply] using hpos)]
      simpa [Sign.apply] using round_exact .positive hnormal hk
  rw [Float32.Model.ofInt, hround, ← hu]
  exact congrArg Float32.toModel (Float32.ofBits_toBits (.ofModel x))

theorem whole_ofInt (h : Whole x.unpack n) : Whole (Float32.Model.ofInt n).unpack n := by
  by_cases hn : n = 0
  · subst hn
    rfl
  · rw [ofInt_whole h hn]
    exact h

theorem beq_ofInt (h : Whole x.unpack n) : (Float32.Model.ofInt n == x) = true := by
  change UnpackedFloat.beq _ _ = true
  rcases whole_cases h with ⟨rfl, s, hu⟩ | ⟨s, m, e, k, hnormal, hu, hk, rfl⟩
  · rw [hu]
    rfl
  · have hpos := scaled_pos hnormal hk
    rw [ofInt_whole h (by cases s <;> simp [Sign.apply, hpos.ne']), hu]
    cases s <;> simp [UnpackedFloat.beq, UnpackedFloat.compare]

/-! ## 64-bit integers -/

def saturateI64 (n : ℤ) : ℤ := max (-2 ^ 63) (min (2 ^ 63 - 1) n)

/-- The natural number nearest to `m * 2 ^ e`, the larger one for a half. -/
def roundAway (m : ℕ) (e : ℤ) : ℕ :=
  if 0 ≤ e then m * 2 ^ e.toNat else (m + 2 ^ ((-e).toNat - 1)) / 2 ^ (-e).toNat

/-- `x.round() as i64` -/
def roundI64 (x : Float32) : ℤ :=
  match x.toModel.unpack with
  | .notANumber => 0
  | .infinity .negative => -2 ^ 63
  | .infinity .positive => 2 ^ 63 - 1
  | .zero _ => 0
  | .finite s m e _ => saturateI64 (s.apply (roundAway m e))

theorem saturateI64_bounds (n : ℤ) : -2 ^ 63 ≤ saturateI64 n ∧ saturateI64 n < 2 ^ 63 := by
  rw [saturateI64]
  omega

theorem roundI64_bounds (x : Float32) : -2 ^ 63 ≤ roundI64 x ∧ roundI64 x < 2 ^ 63 := by
  rw [roundI64]
  split
  · decide
  · decide
  · decide
  · decide
  · exact saturateI64_bounds _

/-- The nearest float. -/
def ofInt (n : ℤ) : Float32 := .ofModel (.ofInt n)

theorem roundAway_scaled {k : ℕ} (h : Scaled k m e) : roundAway m e = k := by
  rw [roundAway]
  split
  · next he =>
    rw [Scaled, show (-e).toNat = 0 by omega, pow_zero, mul_one] at h
    exact h.symm
  · next he =>
    obtain ⟨t, ht⟩ : ∃ t, (-e).toNat = t + 1 := ⟨(-e).toNat - 1, by omega⟩
    rw [Scaled, ht, show e.toNat = 0 by omega, pow_zero, mul_one] at h
    rw [ht, ← h, Nat.add_sub_cancel, mul_comm, Nat.mul_add_div (by positivity),
      Nat.div_eq_of_lt (Nat.pow_lt_pow_right (by decide) (Nat.lt_succ_self t)), add_zero]

theorem roundI64_whole {x : Float32} (h : IsWhole x n) : roundI64 x = saturateI64 n := by
  rw [roundI64]
  rcases whole_cases h with ⟨rfl, s, hu⟩ | ⟨s, m, e, k, hnormal, hu, hk, rfl⟩
  · rw [hu]
    rfl
  · rw [hu]
    simp only [roundAway_scaled hk]

/-- **A whole float of at most `2 ^ 63` comes back from its 64-bit integer.** -/
theorem ofInt_roundI64 {x : Float32} (h : IsWhole x n) (hlow : -2 ^ 63 ≤ n)
    (hhigh : n ≤ 2 ^ 63) : (ofInt (roundI64 x) == x) = true := by
  have hmodel : Float32.Model.ofInt (saturateI64 n) = .ofInt n := by
    rcases lt_or_eq_of_le hhigh with hlt | rfl
    · rw [saturateI64, min_eq_right (by omega), max_eq_right hlow]
    · -- the largest 64-bit integer is rounded up
      decide +kernel
  change (Float32.Model.ofInt (roundI64 x) == x.toModel) = true
  rw [roundI64_whole h, hmodel]
  exact beq_ofInt h

/-- Once written as a 64-bit integer, a whole float stays the same. -/
theorem roundI64_ofInt {x : Float32} (h : IsWhole x n) :
    roundI64 (ofInt (roundI64 x)) = roundI64 x := by
  rw [roundI64_whole h]
  rcases lt_trichotomy n (2 ^ 63) with hhigh | rfl | hhigh
  · rcases le_or_gt (-2 ^ 63) n with hlow | hlow
    · have hsat : saturateI64 n = n := by
        rw [saturateI64, min_eq_right (by omega), max_eq_right hlow]
      rw [hsat, roundI64_whole (x := ofInt n) (whole_ofInt h), hsat]
    · have hsat : saturateI64 n = -2 ^ 63 := by
        rw [saturateI64, min_eq_right (by omega), max_eq_left (by omega)]
      rw [hsat]
      decide +kernel
  · decide +kernel
  · have hsat : saturateI64 n = 2 ^ 63 - 1 := by
      rw [saturateI64, min_eq_left (by omega), max_eq_right (by omega)]
    rw [hsat]
    decide +kernel

end Binary32
