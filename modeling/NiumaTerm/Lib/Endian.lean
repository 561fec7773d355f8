import Mathlib.Algebra.Order.Ring.Nat

/-!
# Numbers as bytes

`leBytes w n` are the `w` bytes of `n` with the lowest first, `beBytes w n` with the highest first.  Each is
undone by its reader on the numbers that have at most `w` bytes (`ofLe_leBytes`, `ofBe_beBytes`).
-/

namespace Endian

abbrev Bytes := List UInt8

def leBytes : ℕ → ℕ → Bytes
  | 0, _ => []
  | w + 1, n => UInt8.ofNat n :: leBytes w (n / 256)

def ofLe : Bytes → ℕ
  | [] => 0
  | b :: rest => b.toNat + 256 * ofLe rest

def beBytes (w n : ℕ) : Bytes := (leBytes w n).reverse

def ofBe (bytes : Bytes) : ℕ := ofLe bytes.reverse

@[simp] theorem length_leBytes (w n : ℕ) : (leBytes w n).length = w := by
  induction w generalizing n with
  | zero => rfl
  | succ w ih => rw [leBytes, List.length_cons, ih]

@[simp] theorem length_beBytes (w n : ℕ) : (beBytes w n).length = w := by
  rw [beBytes, List.length_reverse, length_leBytes]

theorem ofLe_leBytes {w n : ℕ} (h : n < 256 ^ w) : ofLe (leBytes w n) = n := by
  induction w generalizing n with
  | zero =>
    have hn : n = 0 := by simpa using h
    rw [hn]
    rfl
  | succ w ih =>
    have hn : n / 256 < 256 ^ w := Nat.div_lt_of_lt_mul (by rwa [pow_succ, Nat.mul_comm] at h)
    have hb : (UInt8.ofNat n).toNat = n % 256 := rfl
    rw [leBytes, ofLe, ih hn, hb]
    exact Nat.mod_add_div n 256

theorem ofBe_beBytes {w n : ℕ} (h : n < 256 ^ w) : ofBe (beBytes w n) = n := by
  rw [ofBe, beBytes, List.reverse_reverse, ofLe_leBytes h]

end Endian
