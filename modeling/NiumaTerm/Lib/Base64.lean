import NiumaTerm.Lib.Endian
import NiumaTerm.Lib.Str

/-!
# Base64

Three bytes are four symbols.  An `Engine` is an alphabet, and whether the last symbols are padded.
`decode_encode` is the round trip and `length_encode` the length of a padded text.
-/

namespace Base64

open Endian Rust List

structure Engine where
  alphabet : List Char
  length_eq : alphabet.length = 64
  nodup : alphabet.Nodup
  pad_not_mem : '=' ∉ alphabet
  padding : Bool

/-- `A-Z`, `a-z`, `0-9` and two more. -/
def letters (last : String) : List Char :=
  "ABCDEFGHIJKLMNOPQRSTUVWXYZabcdefghijklmnopqrstuvwxyz0123456789".toList ++ last.toList

/-- `general_purpose::STANDARD`. -/
def standard : Engine where
  alphabet := letters "+/"
  length_eq := by decide
  nodup := by decide +kernel
  pad_not_mem := by decide +kernel
  padding := true

/-- `general_purpose::URL_SAFE_NO_PAD`. -/
def urlSafeNoPad : Engine where
  alphabet := letters "-_"
  length_eq := by decide
  nodup := by decide +kernel
  pad_not_mem := by decide +kernel
  padding := false

namespace Engine

variable (engine : Engine)

/-- The symbol of six bits. -/
def symbol (n : ℕ) : Char := engine.alphabet[n]?.getD '='

/-- The six bits of a symbol. -/
def value (c : Char) : Option ℕ := engine.alphabet.idxOf? c

def pad (count : ℕ) : Str := if engine.padding then replicate count '=' else []

/-- The symbols of two, three and four groups of six bits. -/
def symbols (groups : List ℕ) : Str := groups.map engine.symbol

/-- The groups of six bits of one, two and three bytes. -/
def groups₁ (a : ℕ) : List ℕ := [a / 4, a % 4 * 16]

def groups₂ (a b : ℕ) : List ℕ := [a / 4, a % 4 * 16 + b / 16, b % 16 * 4]

def groups₃ (a b c : ℕ) : List ℕ := [a / 4, a % 4 * 16 + b / 16, b % 16 * 4 + c / 64, c % 64]

def encode : Bytes → Str
  | a :: b :: c :: rest => engine.symbols (groups₃ a.toNat b.toNat c.toNat) ++ encode rest
  | [a, b] => engine.symbols (groups₂ a.toNat b.toNat) ++ engine.pad 1
  | [a] => engine.symbols (groups₁ a.toNat) ++ engine.pad 2
  | [] => []

/-- One byte, when the bits that are left over are zero. -/
def bytes₁ (a b : Char) : Option Bytes := do
  let a ← engine.value a
  let b ← engine.value b
  if b % 16 = 0 then return [.ofNat (a * 4 + b / 16)] else none

def bytes₂ (a b c : Char) : Option Bytes := do
  let a ← engine.value a
  let b ← engine.value b
  let c ← engine.value c
  if c % 4 = 0 then return [.ofNat (a * 4 + b / 16), .ofNat (b % 16 * 16 + c / 4)] else none

def bytes₃ (a b c d : Char) : Option Bytes := do
  let a ← engine.value a
  let b ← engine.value b
  let c ← engine.value c
  let d ← engine.value d
  return [.ofNat (a * 4 + b / 16), .ofNat (b % 16 * 16 + c / 4), .ofNat (c % 4 * 64 + d)]

/-- Texts that `encode` does not write are refused. -/
def decode : Str → Option Bytes
  | [] => some []
  | a :: b :: c :: d :: rest =>
    if d = '=' then
      if engine.padding = true ∧ rest = [] then
        if c = '=' then engine.bytes₁ a b else engine.bytes₂ a b c
      else none
    else do
      let bytes ← engine.bytes₃ a b c d
      let more ← decode rest
      return bytes ++ more
  | [a, b, c] => if engine.padding then none else engine.bytes₂ a b c
  | [a, b] => if engine.padding then none else engine.bytes₁ a b
  | [_] => none

variable {engine}

theorem symbol_eq {n : ℕ} (h : n < engine.alphabet.length) : engine.symbol n = engine.alphabet[n] := by
  rw [symbol, getElem?_eq_getElem h, Option.getD_some]

theorem value_symbol {n : ℕ} (h : n < 64) : engine.value (engine.symbol n) = some n := by
  have hn : n < engine.alphabet.length := by rwa [engine.length_eq]
  rw [value, symbol_eq hn, idxOf?_eq_some_iff]
  refine ⟨hn, rfl, fun m hm he => ?_⟩
  have hmn : m = n := (getElem_inj engine.nodup).mp he
  omega

theorem symbol_ne_pad {n : ℕ} (h : n < 64) : engine.symbol n ≠ '=' := by
  have hn : n < engine.alphabet.length := by rwa [engine.length_eq]
  rw [symbol_eq hn]
  exact fun he => engine.pad_not_mem (he ▸ getElem_mem hn)

/-! ## Reading back -/

theorem bytes₁_groups₁ (a : UInt8) :
    engine.bytes₁ (engine.symbol (a.toNat / 4)) (engine.symbol (a.toNat % 4 * 16)) = some [a] := by
  have ha := a.toNat_lt
  rw [bytes₁, value_symbol (by omega), value_symbol (by omega)]
  have hbyte : a.toNat / 4 * 4 + a.toNat % 4 * 16 / 16 = a.toNat := by omega
  have hzero : a.toNat % 4 * 16 % 16 = 0 := by omega
  simp only [Option.bind_eq_bind, Option.bind_some, Option.pure_def, hzero, if_true, hbyte,
    UInt8.ofNat_toNat]

theorem bytes₂_groups₂ (a b : UInt8) :
    engine.bytes₂ (engine.symbol (a.toNat / 4)) (engine.symbol (a.toNat % 4 * 16 + b.toNat / 16))
      (engine.symbol (b.toNat % 16 * 4)) = some [a, b] := by
  have ha := a.toNat_lt
  have hb := b.toNat_lt
  rw [bytes₂, value_symbol (by omega), value_symbol (by omega), value_symbol (by omega)]
  have hbyte : a.toNat / 4 * 4 + (a.toNat % 4 * 16 + b.toNat / 16) / 16 = a.toNat := by omega
  have hbyte' : (a.toNat % 4 * 16 + b.toNat / 16) % 16 * 16 + b.toNat % 16 * 4 / 4 = b.toNat := by
    omega
  have hzero : b.toNat % 16 * 4 % 4 = 0 := by omega
  simp only [Option.bind_eq_bind, Option.bind_some, Option.pure_def, hzero, if_true, hbyte, hbyte',
    UInt8.ofNat_toNat]

theorem bytes₃_groups₃ (a b c : UInt8) :
    engine.bytes₃ (engine.symbol (a.toNat / 4)) (engine.symbol (a.toNat % 4 * 16 + b.toNat / 16))
      (engine.symbol (b.toNat % 16 * 4 + c.toNat / 64)) (engine.symbol (c.toNat % 64)) =
        some [a, b, c] := by
  have ha := a.toNat_lt
  have hb := b.toNat_lt
  have hc := c.toNat_lt
  rw [bytes₃, value_symbol (by omega), value_symbol (by omega), value_symbol (by omega),
    value_symbol (by omega)]
  have hbyte : a.toNat / 4 * 4 + (a.toNat % 4 * 16 + b.toNat / 16) / 16 = a.toNat := by omega
  have hbyte' : (a.toNat % 4 * 16 + b.toNat / 16) % 16 * 16 +
      (b.toNat % 16 * 4 + c.toNat / 64) / 4 = b.toNat := by omega
  have hbyte'' : (b.toNat % 16 * 4 + c.toNat / 64) % 4 * 64 + c.toNat % 64 = c.toNat := by omega
  simp only [Option.bind_eq_bind, Option.bind_some, Option.pure_def, hbyte, hbyte', hbyte'',
    UInt8.ofNat_toNat]

/-- **What is encoded is read back.** -/
theorem decode_encode (bytes : Bytes) : engine.decode (engine.encode bytes) = some bytes := by
  induction bytes using encode.induct with
  | case1 a b c rest ih =>
    have hne : engine.symbol (c.toNat % 64) ≠ '=' := symbol_ne_pad (by omega)
    simp only [encode, symbols, groups₃, map_cons, map_nil, cons_append, nil_append]
    rw [decode, if_neg hne, bytes₃_groups₃, ih]
    rfl
  | case2 a b =>
    have hb := b.toNat_lt
    have hne : engine.symbol (b.toNat % 16 * 4) ≠ '=' := symbol_ne_pad (by omega)
    simp only [encode, symbols, groups₂, pad, map_cons, map_nil]
    split
    · next hpadding =>
      simp only [replicate_one, cons_append, nil_append]
      rw [decode, if_pos rfl, if_pos ⟨hpadding, rfl⟩, if_neg hne, bytes₂_groups₂]
    · next hpadding =>
      rw [append_nil, decode, if_neg hpadding, bytes₂_groups₂]
  | case3 a =>
    simp only [encode, symbols, groups₁, pad, map_cons, map_nil]
    split
    · next hpadding =>
      simp only [replicate_succ, replicate_zero, cons_append, nil_append]
      rw [decode, if_pos rfl, if_pos ⟨hpadding, rfl⟩, if_pos rfl, bytes₁_groups₁]
    · next hpadding =>
      rw [append_nil, decode, if_neg hpadding, bytes₁_groups₁]
  | case4 => rfl

/-- A padded text has four symbols for three bytes. -/
theorem length_encode (hpadding : engine.padding = true) (bytes : Bytes) :
    (engine.encode bytes).length = (bytes.length + 2) / 3 * 4 := by
  induction bytes using encode.induct with
  | case1 a b c rest ih =>
    simp only [encode, symbols, groups₃, length_append, length_map, length_cons, length_nil, ih]
    omega
  | case2 a b => simp [encode, symbols, groups₂, pad, hpadding]
  | case3 a => simp [encode, symbols, groups₁, pad, hpadding]
  | case4 => rfl

end Engine

example : standard.encode [77, 97, 110, 33] = "TWFuIQ==".toList := by decide +kernel

end Base64
