import Mathlib.Data.Vector.Defs
import NiumaTerm.Lib.Base64
import NiumaTerm.Remote.Base32
import NiumaTerm.Remote.Host

/-!
# Push notifications

The host cuts a title and a body, writes the message as JSON, seals it and writes the sealed bytes in
base64.  The forwarder refuses more than `maxSealed` characters.  A character is at most six bytes of
JSON, and of the encryption only the length of the ciphertext is used.
-/

namespace NiumaTerm.Remote

open Endian Rust
open List hiding Vector

def maxTitleChars : ℕ := 120

def maxBodyChars : ℕ := 180

def maxSealed : ℕ := 3072

/-- What a push says, before sealing. -/
structure PushMessage where
  v : ℕ
  host : Str
  session : Str
  kind : PushKind
  title : Str
  body : Str
  /-- When it happened, in Unix milliseconds. -/
  atMs : ℕ

/-- `str::trim_end`. -/
def trimEnd (text : Str) : Str := text.rdropWhile isWhitespace

def shorten (text : Str) (limit : ℕ) : Str :=
  let text := trim text
  if limit < text.length then trimEnd (text.take limit) ++ ['…'] else text

/-- A message with title and body cut to what a push can include. -/
def PushMessage.new (host session : Str) (kind : PushKind) (title body : Str) (atMs : ℕ) :
    PushMessage where
  v := 1
  host
  session
  kind
  title := shorten title maxTitleChars
  body := shorten body maxBodyChars
  atMs

/-! ## JSON -/

/-- A character of a JSON text, as `serde_json` writes it. -/
def jsonChar (c : Char) : Str :=
  if c = '"' then ['\\', '"']
  else if c = '\\' then ['\\', '\\']
  else if c = '\x08' then ['\\', 'b']
  else if c = '\t' then ['\\', 't']
  else if c = '\n' then ['\\', 'n']
  else if c = '\x0c' then ['\\', 'f']
  else if c = '\r' then ['\\', 'r']
  else if c.toNat < 32 then
    ['\\', 'u', '0', '0', Nat.digitChar (c.toNat / 16), Nat.digitChar (c.toNat % 16)]
  else [c]

def jsonText (text : Str) : Str := text.flatMap jsonChar

def jsonNumber (n : ℕ) : Str := Nat.toDigits 10 n

namespace PushKind

/-- The kind's name in JSON. -/
def name : PushKind → Str
  | .turnFinished => "turn_finished".toList
  | .turnFailed => "turn_failed".toList
  | .approval => "approval".toList
  | .question => "question".toList
  | .unknown => "unknown".toList

end PushKind

/-- `serde_json::to_vec` of a message, as a text. -/
def PushMessage.json (message : PushMessage) : Str :=
  "\x7b\"v\":".toList ++ jsonNumber message.v ++
  ",\"host\":\"".toList ++ jsonText message.host ++
  "\",\"session\":\"".toList ++ jsonText message.session ++
  "\",\"kind\":\"".toList ++ message.kind.name ++
  "\",\"title\":\"".toList ++ jsonText message.title ++
  "\",\"body\":\"".toList ++ jsonText message.body ++
  "\",\"at\":".toList ++ jsonNumber message.atMs ++ "\x7d".toList

def toUtf8 (text : Str) : Bytes := text.flatMap String.utf8EncodeChar

/-! ## Sealing -/

/-- ChaCha20-Poly1305: the ciphertext is as long as the text, and a tag follows. -/
structure Aead where
  encrypt : (key nonce msg aad : Bytes) → Option Bytes
  length_encrypt : ∀ {key nonce msg aad ciphertext : Bytes},
    encrypt key nonce msg aad = some ciphertext → ciphertext.length = msg.length + 16

def decodeKey (key : Str) : Option Bytes :=
  (Base64.standard.decode key).filter fun bytes => bytes.length = 32

/-- Seal a message for the device that registered `key`. -/
def sealWithNonce (aead : Aead) (key : Str) (message : PushMessage) (nonce : Vector UInt8 12) :
    Option Str := do
  let key ← decodeKey key
  let ciphertext ← aead.encrypt key nonce.toList (toUtf8 message.json) (toUtf8 message.host)
  return Base64.standard.encode (nonce.toList ++ ciphertext)

/-! ## Lengths -/

/-- The bytes of a text inside of JSON. -/
def jsonLen (text : Str) : ℕ := utf8Len (jsonText text)

theorem length_toUtf8 (text : Str) : (toUtf8 text).length = utf8Len text := by
  induction text with
  | nil => rfl
  | cons c rest ih =>
    rw [toUtf8, flatMap_cons, length_append, utf8Len, String.length_utf8EncodeChar]
    exact congrArg _ ih

theorem utf8Size_digitChar {n : ℕ} (h : n < 16) : (Nat.digitChar n).utf8Size = 1 := by
  have hall : (List.range 16).all (fun n => (Nat.digitChar n).utf8Size = 1) = true := by decide
  exact of_decide_eq_true (all_eq_true.mp hall n (mem_range.mpr h))

theorem utf8Len_jsonChar_le (c : Char) : utf8Len (jsonChar c) ≤ 6 := by
  rw [jsonChar]
  split_ifs with _ _ _ _ _ _ _ hcontrol
  · decide
  · decide
  · decide
  · decide
  · decide
  · decide
  · decide
  · -- `\u00` and two digits
    have hfour : utf8Len ['\\', 'u', '0', '0'] = 4 := by decide
    rw [show (['\\', 'u', '0', '0', Nat.digitChar (c.toNat / 16), Nat.digitChar (c.toNat % 16)] : Str) =
      ['\\', 'u', '0', '0'] ++ [Nat.digitChar (c.toNat / 16), Nat.digitChar (c.toNat % 16)] from rfl,
      utf8Len_append, hfour, utf8Len, utf8Len, utf8Size_digitChar (by omega),
      utf8Size_digitChar (by omega), utf8Len_nil]
  · rw [utf8Len, utf8Len_nil]
    exact c.utf8Size_le_four.trans (by decide)

theorem jsonLen_append (s t : Str) : jsonLen (s ++ t) = jsonLen s + jsonLen t := by
  rw [jsonLen, jsonText, flatMap_append, utf8Len_append]
  rfl

theorem jsonLen_le (text : Str) : jsonLen text ≤ 6 * text.length := by
  induction text with
  | nil => exact Nat.le_refl _
  | cons c rest ih =>
    have hc : jsonLen [c] ≤ 6 := by
      simpa [jsonLen, jsonText] using utf8Len_jsonChar_le c
    rw [← singleton_append, jsonLen_append, length_append, length_singleton]
    omega

theorem jsonLen_shorten_le (text : Str) (limit : ℕ) : jsonLen (shorten text limit) ≤ 6 * limit + 3 := by
  rw [shorten]
  split_ifs with hlong
  · have hend : (trimEnd ((trim text).take limit)).length ≤ limit :=
      (( rdropWhile_prefix _ _).length_le).trans (length_take_le _ _)
    have hdots : jsonLen ['…'] = 3 := by decide
    have hle := jsonLen_le (trimEnd ((trim text).take limit))
    rw [jsonLen_append, hdots]
    omega
  · have hle := jsonLen_le (trim text)
    omega

theorem jsonLen_host {host : Str} (h : IsHostId host) : jsonLen host = 16 := by
  obtain ⟨hlength, hmem⟩ := h
  have hall : "0123456789abcdefghijklmnopqrstuvwxyz".toList.all (fun c => jsonLen [c] = 1) = true := by
    decide +kernel
  have hone : ∀ c ∈ host, jsonLen [c] = 1 := fun c hc =>
    of_decide_eq_true (all_eq_true.mp hall c (hmem c hc))
  rw [← hlength]
  clear hlength hmem hall
  induction host with
  | nil => rfl
  | cons c rest ih =>
    rw [← singleton_append, jsonLen_append, length_append, length_singleton,
      hone c mem_cons_self, ih fun c hc => hone c (mem_cons_of_mem _ hc)]

theorem utf8Len_digits (n : ℕ) : utf8Len (jsonNumber n) = (jsonNumber n).length := by
  have hone : ∀ c ∈ jsonNumber n, c.utf8Size = 1 := by
    intro c hc
    have hdigit : c.isDigit = true := Nat.isDigit_of_mem_toDigits (by decide) (by decide) hc
    rw [Char.isDigit, Bool.and_eq_true, decide_eq_true_eq, decide_eq_true_eq] at hdigit
    exact Char.utf8Size_eq_one_iff.mpr (UInt32.le_trans hdigit.2 (by decide))
  generalize jsonNumber n = digits at hone ⊢
  induction digits with
  | nil => rfl
  | cons c rest ih =>
    rw [utf8Len, hone c mem_cons_self, ih fun c hc => hone c (mem_cons_of_mem _ hc),
      length_cons, Nat.add_comm]

theorem length_jsonNumber_le {n digits : ℕ} (hdigits : 0 < digits) (h : n < 10 ^ digits) :
    utf8Len (jsonNumber n) ≤ digits := by
  rw [utf8Len_digits]
  exact (Nat.length_toDigits_le_iff (by decide) hdigits).mpr h

theorem utf8Len_name (kind : PushKind) : utf8Len kind.name ≤ 13 := by
  cases kind <;> decide +kernel

theorem utf8Len_alternating (p₁ x₁ p₂ x₂ p₃ x₃ p₄ x₄ p₅ x₅ p₆ x₆ p₇ x₇ p₈ : Str) :
    utf8Len (p₁ ++ x₁ ++ p₂ ++ x₂ ++ p₃ ++ x₃ ++ p₄ ++ x₄ ++ p₅ ++ x₅ ++ p₆ ++ x₆ ++ p₇ ++ x₇ ++ p₈) =
      utf8Len p₁ + utf8Len p₂ + utf8Len p₃ + utf8Len p₄ + utf8Len p₅ + utf8Len p₆ + utf8Len p₇ +
        utf8Len p₈ + utf8Len x₁ + utf8Len x₂ + utf8Len x₃ + utf8Len x₄ + utf8Len x₅ + utf8Len x₆ +
        utf8Len x₇ := by
  simp only [utf8Len_append]
  omega

/-- What the JSON has around the values. -/
theorem length_json (message : PushMessage) :
    utf8Len message.json = 66 + utf8Len (jsonNumber message.v) + jsonLen message.host +
      jsonLen message.session + utf8Len message.kind.name + jsonLen message.title +
      jsonLen message.body + utf8Len (jsonNumber message.atMs) := by
  have hkeys : utf8Len "\x7b\"v\":".toList + utf8Len ",\"host\":\"".toList +
      utf8Len "\",\"session\":\"".toList + utf8Len "\",\"kind\":\"".toList +
      utf8Len "\",\"title\":\"".toList + utf8Len "\",\"body\":\"".toList +
      utf8Len "\",\"at\":".toList + utf8Len "\x7d".toList = 66 := by decide +kernel
  refine (utf8Len_alternating ..).trans ?_
  rw [hkeys]
  rfl

/-- The nonce and the tag are 28 bytes, and base64 writes three bytes in four characters. -/
theorem length_seal {aead : Aead} {key sealed : Str} {message : PushMessage} {nonce : Vector UInt8 12}
    (h : sealWithNonce aead key message nonce = some sealed) :
    sealed.length = (utf8Len message.json + 30) / 3 * 4 := by
  simp only [sealWithNonce, Option.bind_eq_bind, Option.bind_eq_some_iff, Option.pure_def,
    Option.some.injEq] at h
  obtain ⟨key, -, ciphertext, hciphertext, rfl⟩ := h
  rw [Base64.Engine.length_encode rfl, length_append, aead.length_encrypt hciphertext,
    length_toUtf8, Vector.length_toList]
  omega

/-- **A sealed push fits**, whatever the title and the body are, if the session id is at most 354
bytes of JSON. -/
theorem sealed_fits (aead : Aead) (key host session title body sealed : Str) (kind : PushKind)
    (atMs : ℕ) (nonce : Vector UInt8 12) (hhost : IsHostId host) (hsession : jsonLen session ≤ 354)
    (hat : atMs < 2 ^ 64)
    (h : sealWithNonce aead key (.new host session kind title body atMs) nonce = some sealed) :
    sealed.length ≤ maxSealed := by
  have hv : utf8Len (jsonNumber 1) ≤ 1 := length_jsonNumber_le (by decide) (by decide)
  have htime : utf8Len (jsonNumber atMs) ≤ 20 :=
    length_jsonNumber_le (by decide) (hat.trans (by decide))
  have hkind := utf8Len_name kind
  have htitle : jsonLen (shorten title maxTitleChars) ≤ 723 := jsonLen_shorten_le title maxTitleChars
  have hbody : jsonLen (shorten body maxBodyChars) ≤ 1083 := jsonLen_shorten_le body maxBodyChars
  have hjson := length_json (.new host session kind title body atMs)
  simp only [PushMessage.new, jsonLen_host hhost] at hjson
  rw [length_seal h, maxSealed]
  simp only [PushMessage.new]
  omega

/-! ## Two pushes -/

namespace PushTest

def message : PushMessage :=
  .new "abcdefghij012345".toList "a-1".toList .turnFinished "Claude finished".toList "Done.".toList
    1790000000000

def nonce : Vector UInt8 12 := #v[0, 1, 2, 3, 4, 5, 6, 7, 8, 9, 10, 11]

/-- What the message is under the key of bytes 0 to 31, and the tag. -/
def ciphertext : Bytes :=
  [242, 217, 126, 34, 19, 38, 137, 98, 223, 236, 76, 135, 186, 39, 44, 2, 171, 19, 214, 130, 55,
    19, 197, 208, 140, 167, 30, 247, 70, 244, 147, 30, 192, 162, 95, 150, 149, 109, 216, 247, 89,
    16, 76, 250, 4, 185, 190, 1, 82, 166, 194, 29, 147, 76, 154, 161, 48, 204, 172, 117, 254, 16,
    248, 191, 23, 17, 207, 165, 128, 112, 14, 197, 230, 98, 36, 200, 116, 25, 254, 203, 248, 157,
    43, 83, 26, 14, 149, 30, 104, 62, 158, 103, 171, 21, 103, 219, 111, 242, 78, 145, 152, 189, 94,
    214, 139, 121, 183, 216, 204, 244, 153, 162, 197, 77, 55, 76, 171, 103, 113, 207, 118, 93, 4,
    239, 73, 15, 143, 118, 145, 86, 243, 192, 24, 252, 224, 196, 77, 215, 180, 183, 154, 107, 122,
    172, 159, 118, 225, 118]

/-- Other texts are left as they are. -/
def aead : Aead where
  encrypt _ _ msg _ :=
    if msg = toUtf8 message.json then some ciphertext else some (msg ++ replicate 16 0)
  length_encrypt h := by
    split at h
    · next hmsg =>
      obtain rfl := Option.some.inj h
      subst hmsg
      decide +kernel
    · obtain rfl := Option.some.inj h
      rw [length_append, length_replicate]

def key : Str := "AAECAwQFBgcICQoLDA0ODxAREhMUFRYXGBkaGxwdHh8=".toList

/-- The test vector that the phone checks too. -/
def vector : Str :=
  "AAECAwQFBgcICQoL8tl+IhMmiWLf7EyHuicsAqsT1oI3E8XQjKce90b0kx7Aol+WlW3Y91kQTPoEub4BUqbCHZNM".toList ++
  "mqEwzKx1/hD4vxcRz6WAcA7F5mIkyHQZ/sv4nStTGg6VHmg+nmerFWfbb/JOkZi9XtaLebfYzPSZosVNN0yrZ3HP".toList ++
  "dl0E70kPj3aRVvPAGPzgxE3XtLeaa3qsn3bhdg==".toList

end PushTest

theorem sealed_fits_vector :
    sealWithNonce PushTest.aead PushTest.key PushTest.message PushTest.nonce =
        some PushTest.vector ∧
      PushTest.vector.length ≤ maxSealed := by
  have hsealed : sealWithNonce PushTest.aead PushTest.key PushTest.message PushTest.nonce =
      some PushTest.vector := by decide +kernel
  exact ⟨hsealed, sealed_fits PushTest.aead PushTest.key "abcdefghij012345".toList "a-1".toList
    "Claude finished".toList "Done.".toList PushTest.vector .turnFinished 1790000000000 PushTest.nonce
    (by decide +kernel) (by decide +kernel) (by decide) hsealed⟩

/-- A session id of 64 control characters, with a title and a body of them, makes a push that does not
fit. -/
theorem too_long_controls :
    ¬ ∀ (aead : Aead) (key host session title body sealed : Str) (kind : PushKind) (atMs : ℕ)
      (nonce : Vector UInt8 12), IsHostId host → session.length ≤ 64 → atMs < 2 ^ 64 →
      sealWithNonce aead key (.new host session kind title body atMs) nonce = some sealed →
      sealed.length ≤ maxSealed := by
  intro h
  let controls (n : ℕ) : Str := replicate n '\x01'
  let message : PushMessage := .new "abcdefghij012345".toList (controls 64) .turnFinished
    (controls 120) (controls 180) 1790000000000
  have hlength : utf8Len message.json = 2293 := by decide +kernel
  have hnew : toUtf8 message.json ≠ toUtf8 PushTest.message.json := by
    intro he
    have hle := congrArg List.length he
    rw [length_toUtf8, length_toUtf8, hlength] at hle
    exact absurd hle (by decide +kernel)
  have hkey : ∃ bytes, decodeKey PushTest.key = some bytes :=
    Option.isSome_iff_exists.mp (by decide +kernel)
  obtain ⟨bytes, hbytes⟩ := hkey
  have hsealed : ∃ sealed, sealWithNonce PushTest.aead PushTest.key message PushTest.nonce =
      some sealed := by
    simp only [sealWithNonce, hbytes, PushTest.aead, if_neg hnew, Option.bind_eq_bind,
      Option.bind_some, Option.pure_def]
    exact ⟨_, rfl⟩
  obtain ⟨sealed, hsealed⟩ := hsealed
  have hle := h _ _ _ _ _ _ sealed _ _ _ (by decide +kernel) (by decide +kernel) (by decide) hsealed
  rw [length_seal hsealed, hlength] at hle
  exact absurd hle (by decide)

end NiumaTerm.Remote
