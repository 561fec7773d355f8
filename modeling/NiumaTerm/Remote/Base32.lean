import NiumaTerm.Lib.Endian
import NiumaTerm.Lib.Str

/-!
# Crockford base32

No `I L O U`, so codes read aloud or typed from a screen survive the usual confusions.
-/

namespace NiumaTerm.Remote
namespace Base32

open Endian Rust List

def alphabet : List Char := "0123456789ABCDEFGHJKMNPQRSTVWXYZ".toList

/-- The eight symbols of at most five bytes, most significant bit first. -/
def encodeChunk (chunk : Bytes) : Str :=
  let bits := chunk.foldl (fun acc b => acc <<< 8 ||| b.toNat) 0
  (List.range 8).reverse.map fun shift => alphabet[(bits >>> (shift * 5)) &&& 31]?.getD '0'

/-- Callers pass whole multiples of 5 bytes, so no padding bits are emitted. -/
def encode : Bytes → Str
  | a :: b :: c :: d :: e :: rest => encodeChunk [a, b, c, d, e] ++ encode rest
  | [] => []
  | chunk => encodeChunk chunk

/-- The canonical symbol for a typed character: `I` and `L` read as `1` and `O` as `0`. -/
def canonical (c : Char) : Option Char :=
  let c :=
    match c.toUpper with
    | 'I' | 'L' => '1'
    | 'O' => '0'
    | c => c
  if c ∈ alphabet then some c else none

theorem canonical_of_mem {c : Char} (h : c ∈ alphabet) : canonical c = some c := by
  have hall : alphabet.all (fun c => canonical c = some c) = true := by decide +kernel
  exact of_decide_eq_true (all_eq_true.mp hall c h)

/-- What is typed for a symbol: the symbol itself in either case, or a letter that looks like it. -/
def Alike (symbol c : Char) : Prop :=
  c = symbol ∨ c = symbol.toLower ∨ symbol = '1' ∧ c ∈ "ILil".toList ∨
    symbol = '0' ∧ c ∈ "Oo".toList

instance (symbol c : Char) : Decidable (Alike symbol c) := inferInstanceAs (Decidable (_ ∨ _))

/-- A symbol is read from all that looks like it. -/
theorem canonical_of_alike {symbol c : Char} (hsymbol : symbol ∈ alphabet) (h : Alike symbol c) :
    canonical c = some symbol := by
  rcases h with rfl | rfl | ⟨rfl, h⟩ | ⟨rfl, h⟩
  · exact canonical_of_mem hsymbol
  · have hall : alphabet.all (fun c => canonical c.toLower = some c) = true := by decide +kernel
    exact of_decide_eq_true (all_eq_true.mp hall symbol hsymbol)
  · have hall : "ILil".toList.all (fun c => canonical c = some '1') = true := by decide +kernel
    exact of_decide_eq_true (all_eq_true.mp hall c h)
  · have hall : "Oo".toList.all (fun c => canonical c = some '0') = true := by decide +kernel
    exact of_decide_eq_true (all_eq_true.mp hall c h)

theorem mem_of_canonical {c symbol : Char} (h : canonical c = some symbol) : symbol ∈ alphabet := by
  simp only [canonical] at h
  split_ifs at h with hmem
  exact Option.some_inj.mp h ▸ hmem

theorem length_encodeChunk (chunk : Bytes) : (encodeChunk chunk).length = 8 := by
  simp [encodeChunk]

theorem mem_alphabet_encodeChunk {chunk : Bytes} {c : Char} (h : c ∈ encodeChunk chunk) :
    c ∈ alphabet := by
  obtain ⟨shift, -, rfl⟩ := mem_map.mp h
  generalize (chunk.foldl (fun acc b => acc <<< 8 ||| b.toNat) 0) >>> (shift * 5) = bits
  have hlt : bits &&& 31 < alphabet.length := by
    rw [Nat.and_two_pow_sub_one_eq_mod bits 5]
    exact Nat.mod_lt _ (by decide)
  rw [getElem?_eq_getElem hlt, Option.getD_some]
  exact getElem_mem hlt

theorem mem_alphabet_encode {bytes : Bytes} {c : Char} (h : c ∈ encode bytes) : c ∈ alphabet := by
  induction bytes using encode.induct with
  | case1 a b c' d e rest ih =>
    rw [encode, mem_append] at h
    exact h.elim mem_alphabet_encodeChunk ih
  | case2 => cases h
  | case3 chunk hnil hlong =>
    rw [encode] at h
    · exact mem_alphabet_encodeChunk h
    all_goals assumption

/-- Eight symbols for five bytes. -/
theorem length_encode {bytes : Bytes} {n : ℕ} (h : bytes.length = 5 * n) :
    (encode bytes).length = 8 * n := by
  induction n generalizing bytes with
  | zero =>
    obtain rfl := length_eq_zero_iff.mp h
    rfl
  | succ n ih =>
    match bytes, h with
    | a :: b :: c :: d :: e :: rest, h =>
      have hrest : rest.length = 5 * n := by
        simp only [length_cons] at h
        omega
      rw [encode, length_append, length_encodeChunk, ih hrest]
      omega

end Base32

/-! ## Device ids -/

/-- Short name of a device: the first 10 bytes of the hash of its public key. -/
def deviceIdOfDigest (digest : Endian.Bytes) : Rust.Str :=
  (Base32.encode (digest.take 10)).map Char.toLower

/-- What the forwarder takes for a host id. -/
def IsHostId (host : Rust.Str) : Prop :=
  host.length = 16 ∧ ∀ c ∈ host, c ∈ "0123456789abcdefghijklmnopqrstuvwxyz".toList

instance (host : Rust.Str) : Decidable (IsHostId host) :=
  @instDecidableAnd _ _ _ (List.decidableBAll _ host)

end NiumaTerm.Remote
