import NiumaTerm.Lib.Str

/-!
# Reading UTF-8

`Utf8.decode` reads bytes as the characters they encode, with `none` for each longest piece that no character
begins with.  `fromUtf8` and `fromUtf8Lossy` are `str::from_utf8` and `String::from_utf8_lossy`.
-/

namespace Utf8

open Rust

/-- A character that has begun: how many bytes it still needs, the least and the greatest byte that may be next, and
its bits so far. -/
structure Begun where
  needed : ℕ
  low : ℕ
  high : ℕ
  bits : ℕ

/-- What a byte between two characters is. -/
inductive First
  | char (c : Char)
  | begun (b : Begun)
  | invalid

def first (b : ℕ) : First :=
  if b ≤ 0x7F then .char (.ofNat b)
  else if 0xC2 ≤ b ∧ b ≤ 0xDF then .begun ⟨1, 0x80, 0xBF, b % 32⟩
  else if b = 0xE0 then .begun ⟨2, 0xA0, 0xBF, 0⟩
  else if b = 0xED then .begun ⟨2, 0x80, 0x9F, b % 16⟩
  else if 0xE1 ≤ b ∧ b ≤ 0xEF then .begun ⟨2, 0x80, 0xBF, b % 16⟩
  else if b = 0xF0 then .begun ⟨3, 0x90, 0xBF, 0⟩
  else if b = 0xF4 then .begun ⟨3, 0x80, 0x8F, 4⟩
  else if 0xF1 ≤ b ∧ b ≤ 0xF3 then .begun ⟨3, 0x80, 0xBF, b % 8⟩
  else .invalid

/-- What a byte between two characters gives, and the character it begins. -/
def start (b : UInt8) : List (Option Char) × Option Begun :=
  match first b.toNat with
  | .char c => ([some c], none)
  | .begun p => ([], some p)
  | .invalid => ([none], none)

/-- What a byte inside a character gives.  One that cannot be there begins anew. -/
def proceed (p : Begun) (b : UInt8) : List (Option Char) × Option Begun :=
  if p.low ≤ b.toNat ∧ b.toNat ≤ p.high then
    let bits := p.bits * 64 + b.toNat % 64
    if p.needed ≤ 1 then ([some (.ofNat bits)], none) else ([], some ⟨p.needed - 1, 0x80, 0xBF, bits⟩)
  else
    let (pieces, next) := start b
    (none :: pieces, next)

def decode : Option Begun → List UInt8 → List (Option Char)
  | none, [] => []
  | some _, [] => [none]
  | none, b :: rest => (start b).1 ++ decode (start b).2 rest
  | some p, b :: rest => (proceed p b).1 ++ decode (proceed p b).2 rest

def fromUtf8 (bytes : List UInt8) : Option Str := (decode none bytes).mapM id

def fromUtf8Lossy (bytes : List UInt8) : Str := (decode none bytes).map (·.getD '\uFFFD')

end Utf8
