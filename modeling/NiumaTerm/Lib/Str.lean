import Mathlib.Data.List.DropRight

/-!
# Strings as lists of characters

A Rust `str` is the list of its characters, `Str`, and the functions below are its methods.  A byte
offset that always falls between two characters is the character offset; `utf8Len` counts bytes.
-/

namespace Rust

open List

abbrev Str := List Char

instance : LawfulBEq Str := inferInstance

/-- `str::len`: the number of bytes of the UTF-8 encoding. -/
def utf8Len : Str → ℕ
  | [] => 0
  | c :: rest => c.utf8Size + utf8Len rest

@[simp] theorem utf8Len_nil : utf8Len [] = 0 := rfl

@[simp] theorem utf8Len_append (s t : Str) : utf8Len (s ++ t) = utf8Len s + utf8Len t := by
  induction s with
  | nil => simp
  | cons c rest ih => rw [cons_append, utf8Len, utf8Len, ih, Nat.add_assoc]

theorem dropPrefix?_eq_some {s pre rest : Str} : s.dropPrefix? pre = some rest ↔ s = pre ++ rest := by
  simp [dropPrefix?_eq_some_iff]

@[simp] theorem dropPrefix?_append (pre rest : Str) : (pre ++ rest).dropPrefix? pre = some rest :=
  dropPrefix?_eq_some.mpr rfl

theorem dropPrefix?_eq_none {s pre : Str} : s.dropPrefix? pre = none ↔ ¬ pre <+: s := by
  rw [Option.eq_none_iff_forall_ne_some]
  simp only [ne_eq, dropPrefix?_eq_some]
  exact ⟨fun h ⟨r, hr⟩ => h r hr.symm, fun h r hr => h ⟨r, hr.symm⟩⟩

/-- `char::is_whitespace`: the Unicode property `White_Space`. -/
def isWhitespace (c : Char) : Bool :=
  let n := c.toNat
  (9 ≤ n && n ≤ 13) || n == 0x20 || n == 0x85 || n == 0xA0 || n == 0x1680 ||
    (0x2000 ≤ n && n ≤ 0x200A) || n == 0x2028 || n == 0x2029 || n == 0x202F || n == 0x205F ||
    n == 0x3000

/-- `char::is_control`: the Unicode category `Cc`. -/
def isControl (c : Char) : Bool := c.toNat ≤ 0x1F || (0x7F ≤ c.toNat && c.toNat ≤ 0x9F)

/-- `str::trim`. -/
def trim (s : Str) : Str := (s.dropWhile isWhitespace).rdropWhile isWhitespace

theorem trim_eq_nil_iff (s : Str) : trim s = [] ↔ ∀ c ∈ s, isWhitespace c = true := by
  rw [trim, rdropWhile_eq_nil_iff]
  constructor
  · intro h c hc
    rw [← takeWhile_append_dropWhile (p := isWhitespace) (l := s), mem_append] at hc
    exact hc.elim (fun hc => mem_takeWhile_imp hc) (h c)
  · intro h c hc
    exact h c ((dropWhile_suffix isWhitespace).subset hc)

/-- Trimming leaves a text without white space alone. -/
theorem trim_eq_self {s : Str} (h : ∀ c ∈ s, isWhitespace c = false) : trim s = s := by
  have hl : s.dropWhile isWhitespace = s := by
    rw [dropWhile_eq_self_iff]
    intro hn
    simp [h _ (getElem_mem hn)]
  rw [trim, hl, rdropWhile_eq_self_iff]
  intro hne
  simp [h _ (getLast_mem hne)]

/-- `str::replace`, for a `pattern` that is not empty: leftmost occurrences that do not overlap.
The first argument counts the characters of an occurrence that are still to be passed over. -/
def replaceFrom (pattern replacement : Str) : ℕ → Str → Str
  | _, [] => []
  | skip + 1, _ :: rest => replaceFrom pattern replacement skip rest
  | 0, c :: rest =>
    if pattern.isPrefixOf (c :: rest) then
      replacement ++ replaceFrom pattern replacement (pattern.length - 1) rest
    else c :: replaceFrom pattern replacement 0 rest

/-- `str::replace`, for a `pattern` that is not empty. -/
def replace (s pattern replacement : Str) : Str := replaceFrom pattern replacement 0 s

/-- `str::is_char_boundary`: whether `byte` is between two characters, at the start or at the
end. -/
def isCharBoundary : Str → ℕ → Bool
  | _, 0 => true
  | [], _ + 1 => false
  | c :: rest, byte => c.utf8Size ≤ byte && isCharBoundary rest (byte - c.utf8Size)

/-- A prefix ends between two characters. -/
theorem isCharBoundary_of_prefix {s t : Str} (h : s <+: t) : isCharBoundary t (utf8Len s) = true := by
  induction s generalizing t with
  | nil => cases t <;> rfl
  | cons c s ih =>
    obtain ⟨rest, rfl⟩ := h
    rw [utf8Len, cons_append, isCharBoundary.eq_def]
    split
    · rfl
    · rename_i he _
      cases he
    · rename_i he _
      cases he
      simp [ih (prefix_append _ _)]

theorem utf8Len_le_of_prefix {s t : Str} (h : s <+: t) : utf8Len s ≤ utf8Len t := by
  obtain ⟨rest, rfl⟩ := h
  rw [utf8Len_append]
  exact Nat.le_add_right _ _

end Rust
