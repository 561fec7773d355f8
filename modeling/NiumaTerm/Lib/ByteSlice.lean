import NiumaTerm.Lib.Str

/-!
# Slicing strings by bytes

`&s[..n]` and `&s[n..]` count bytes, and a program that asks for an `n` inside a character or past
the end panics: `none` here.

* `splitAtByte_eq_some` — where a slice ends
* `splitAtByte_isSome` — which slices there are
* `splitAtByte_ascii` — in ASCII text bytes are characters
-/

namespace Rust

open List

/-- Both sides of the byte `n`. -/
def splitAtByte : Str → ℕ → Option (Str × Str)
  | s, 0 => some ([], s)
  | [], _ + 1 => none
  | c :: rest, n + 1 =>
    if c.utf8Size ≤ n + 1 then
      (splitAtByte rest (n + 1 - c.utf8Size)).map fun (before, after) => (c :: before, after)
    else none

def sliceTo (s : Str) (n : ℕ) : Option Str := (splitAtByte s n).map Prod.fst

def sliceFrom (s : Str) (n : ℕ) : Option Str := (splitAtByte s n).map Prod.snd

/-- `str::find` of a text: the byte at which it is first found. -/
def find (s pattern : Str) : Option ℕ := (s.dropInfix? pattern).map fun (before, _) => utf8Len before

variable {s a b : Str} {n : ℕ}

theorem splitAtByte_append (a b : Str) : splitAtByte (a ++ b) (utf8Len a) = some (a, b) := by
  induction a with
  | nil => cases b <;> rfl
  | cons c a ih =>
    obtain ⟨k, hk⟩ := Nat.exists_eq_succ_of_ne_zero (Nat.ne_of_gt c.utf8Size_pos)
    rw [utf8Len, cons_append, show c.utf8Size + utf8Len a = (k + utf8Len a) + 1 by omega,
      splitAtByte, if_pos (by omega), show k + utf8Len a + 1 - c.utf8Size = utf8Len a by omega, ih]
    rfl

theorem splitAtByte_eq_some : splitAtByte s n = some (a, b) ↔ s = a ++ b ∧ utf8Len a = n := by
  constructor
  · intro h
    induction s, n using splitAtByte.induct generalizing a b with
    | case1 s =>
      rw [splitAtByte.eq_def] at h
      simp only [Option.some.injEq, Prod.mk.injEq] at h
      obtain ⟨rfl, rfl⟩ := h
      exact ⟨rfl, rfl⟩
    | case2 => cases h
    | case3 c rest n hc ih =>
      rw [splitAtByte, if_pos hc, Option.map_eq_some_iff] at h
      obtain ⟨⟨before, after⟩, hsplit, heq⟩ := h
      cases heq
      obtain ⟨rfl, hlen⟩ := ih hsplit
      exact ⟨rfl, by rw [utf8Len, hlen]; omega⟩
    | case4 c rest n hc =>
      rw [splitAtByte, if_neg hc] at h
      cases h
  · rintro ⟨rfl, rfl⟩
    exact splitAtByte_append a b

theorem splitAtByte_isSome : (splitAtByte s n).isSome ↔ isCharBoundary s n := by
  induction s, n using splitAtByte.induct with
  | case1 s => cases s <;> simp [splitAtByte, isCharBoundary]
  | case2 => simp [splitAtByte, isCharBoundary]
  | case3 c rest n hc ih => simp [splitAtByte, isCharBoundary, hc, ih]
  | case4 c rest n hc => simp [splitAtByte, isCharBoundary, hc]

theorem sliceTo_isSome : (sliceTo s n).isSome ↔ isCharBoundary s n := by
  rw [sliceTo, Option.isSome_map, splitAtByte_isSome]

theorem sliceTo_eq_some : sliceTo s n = some a ↔ a <+: s ∧ utf8Len a = n := by
  rw [sliceTo, Option.map_eq_some_iff]
  constructor
  · rintro ⟨⟨before, after⟩, h, rfl⟩
    obtain ⟨rfl, hlen⟩ := splitAtByte_eq_some.mp h
    exact ⟨prefix_append .., hlen⟩
  · rintro ⟨⟨after, rfl⟩, hlen⟩
    exact ⟨(a, after), splitAtByte_eq_some.mpr ⟨rfl, hlen⟩, rfl⟩

/-! ## ASCII -/

def IsAscii (s : Str) : Prop := ∀ c ∈ s, c.utf8Size = 1

theorem IsAscii.mono (h : IsAscii s) (ha : a <+: s) : IsAscii a := fun c hc => h c (ha.subset hc)

theorem IsAscii.take (h : IsAscii s) (n : ℕ) : IsAscii (s.take n) := h.mono ( take_prefix n s)

theorem IsAscii.drop (h : IsAscii s) (n : ℕ) : IsAscii (s.drop n) :=
  fun c hc => h c (mem_of_mem_drop hc)

theorem IsAscii.utf8Len_eq (h : IsAscii s) : utf8Len s = s.length := by
  induction s with
  | nil => rfl
  | cons c s ih =>
    rw [utf8Len, h c (.head _), ih fun c hc => h c (.tail _ hc), length_cons, Nat.add_comm]

theorem IsAscii.splitAtByte_eq (h : IsAscii s) (hn : n ≤ s.length) :
    splitAtByte s n = some (s.take n, s.drop n) := by
  rw [splitAtByte_eq_some, take_append_drop, (h.take n).utf8Len_eq, length_take_of_le hn]
  exact ⟨rfl, rfl⟩

theorem IsAscii.sliceTo_eq (h : IsAscii s) (hn : n ≤ s.length) : sliceTo s n = some (s.take n) := by
  rw [sliceTo, h.splitAtByte_eq hn]
  rfl

theorem IsAscii.sliceFrom_eq (h : IsAscii s) (hn : n ≤ s.length) :
    sliceFrom s n = some (s.drop n) := by
  rw [sliceFrom, h.splitAtByte_eq hn]
  rfl

@[simp] theorem utf8Size_toLower (c : Char) : c.toLower.utf8Size = c.utf8Size := by
  delta Char.toLower
  split_ifs with h
  · have hhigh : c.val ≤ 90 := h.2
    have hlower : c.val + ('a'.val - 'A'.val) ≤ 127 := by
      rw [UInt32.le_iff_toNat_le] at hhigh ⊢
      simp at hhigh ⊢
      omega
    rw [Char.utf8Size_eq_one_iff.mpr (UInt32.le_trans hhigh (by decide)),
      Char.utf8Size_eq_one_iff.mpr hlower]
  · rfl

theorem isAscii_map_toLower : IsAscii (s.map Char.toLower) ↔ IsAscii s := by
  simp [IsAscii]

theorem find_le_length {pattern : Str} (h : IsAscii s) (hfind : find s pattern = some n) :
    n ≤ s.length := by
  rw [find, Option.map_eq_some_iff] at hfind
  obtain ⟨⟨before, after⟩, hinfix, rfl⟩ := hfind
  obtain ⟨⟨middle, rfl, -⟩, -⟩ := dropInfix?_eq_some_iff.mp hinfix
  have hbefore : before <+: before ++ middle ++ after := by simp [append_assoc]
  calc utf8Len before ≤ utf8Len (before ++ middle ++ after) := utf8Len_le_of_prefix hbefore
    _ = (before ++ middle ++ after).length := h.utf8Len_eq

end Rust
