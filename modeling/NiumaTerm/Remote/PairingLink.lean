import Mathlib.Data.Vector.Defs
import NiumaTerm.Lib.Base64
import NiumaTerm.Lib.Checks
import NiumaTerm.Remote.Base32
import NiumaTerm.Remote.Host

/-!
# Pairing codes and links

A code is typed in any case, with separators, and with letters that look like digits.  A link carries
the code, the host's key and id, and the ways to reach it, as the query of a URL.  URLs are a parameter:
`UrlCrate.Carries` is that a query is read as it was written.
-/

namespace NiumaTerm.Remote
namespace Pairing

open Rust Checks Endian
open List hiding Vector

inductive Error
  | malformed (what : String)

/-! ## Codes -/

def codeLen : ℕ := 8

/-- A `PairingCode`. -/
structure Code where
  symbols : PairingCode
  length_eq : symbols.length = codeLen
  mem_alphabet : ∀ c ∈ symbols, c ∈ Base32.alphabet

namespace Code

/-- A code of five random bytes. -/
def generate (bytes : Vector UInt8 5) : Code where
  symbols := Base32.encode bytes.toList
  length_eq := Base32.length_encode (n := 1) bytes.length_toList
  mem_alphabet _ := Base32.mem_alphabet_encode

def isSeparator (c : Char) : Bool := c = '-' || c = ' '

def readSymbol (c : Char) : Except Error Char :=
  okOr (Base32.canonical c) (.malformed "pairing code symbol")

theorem mem_alphabet_of_readSymbols {text symbols : Str} (h : text.mapM readSymbol = .ok symbols) :
    ∀ c ∈ symbols, c ∈ Base32.alphabet := by
  intro c hc
  obtain ⟨typed, -, htyped⟩ := mapM_ok h c hc
  exact Base32.mem_of_canonical (okOr_ok.mp htyped)

/-- A code as a user types it. -/
def parse (input : Str) : Except Error Code :=
  match h : (input.filter (!isSeparator ·)).mapM readSymbol with
  | .error e => .error e
  | .ok symbols =>
    if hlength : symbols.length = codeLen then
      .ok ⟨symbols, hlength, mem_alphabet_of_readSymbols h⟩
    else .error (.malformed "pairing code length")

/-- Shown in two halves: `K7Q2-M9XD`. -/
def display (code : Code) : Str := code.symbols.take 4 ++ '-' :: code.symbols.drop 4

/-- The text is the displayed code but for separators, case and letters that look like digits. -/
def Spells (code : Code) (text : Str) : Prop :=
  Forall₂ Base32.Alike (code.display.filter (!isSeparator ·)) (text.filter (!isSeparator ·))

instance (code : Code) (text : Str) : Decidable (code.Spells text) :=
  inferInstanceAs (Decidable (Forall₂ ..))

theorem parse_of_mapM {text symbols : Str} (hlength : symbols.length = codeLen)
    (h : (text.filter (!isSeparator ·)).mapM readSymbol = .ok symbols) :
    parse text = .ok ⟨symbols, hlength, mem_alphabet_of_readSymbols h⟩ := by
  rw [parse]
  split
  · next he =>
    rw [h] at he
    cases he
  · next he =>
    rw [h] at he
    cases he
    rw [dif_pos hlength]

theorem filter_symbols {symbols : Str} (h : ∀ c ∈ symbols, c ∈ Base32.alphabet) :
    symbols.filter (!isSeparator ·) = symbols := by
  have hall : Base32.alphabet.all (fun c => (!isSeparator c) = true) = true := by decide +kernel
  exact filter_eq_self.mpr fun c hc => of_decide_eq_true (all_eq_true.mp hall c (h c hc))

theorem filter_display (code : Code) : code.display.filter (!isSeparator ·) = code.symbols := by
  rw [display, filter_append, filter_cons_of_neg (by decide),
    filter_symbols fun c hc => code.mem_alphabet c (mem_of_mem_take hc),
    filter_symbols fun c hc => code.mem_alphabet c (mem_of_mem_drop hc), take_append_drop]

/-- **A code is read from each of its spellings.** -/
theorem parse_of_spells {code : Code} {text : Str} (h : code.Spells text) :
    parse text = .ok code := by
  rw [Spells, filter_display] at h
  have hread : Forall₂ (fun c symbol => readSymbol c = .ok symbol)
      (text.filter (!isSeparator ·)) code.symbols := by
    refine Forall₂.flip (forall₂_iff_zip.mpr ⟨h.length_eq, fun hmem => ?_⟩)
    have hsymbol := code.mem_alphabet _ (of_mem_zip hmem).1
    have halike := (forall₂_iff_zip.mp h).2 hmem
    exact okOr_ok.mpr (Base32.canonical_of_alike hsymbol halike)
  exact parse_of_mapM code.length_eq (mapM_of_forall₂ hread)

theorem spells_symbols (code : Code) : code.Spells code.symbols := by
  rw [Spells, filter_display, filter_symbols code.mem_alphabet]
  exact forall₂_same.mpr fun _ _ => .inl rfl

end Code

/-! ## URLs -/

/-- A URL, as far as a link is read from it. -/
structure Url where
  scheme : Str
  hostStr : Option Str
  queryPairs : List (Str × Str)

namespace Url

/-- The first value of that name. -/
def param (url : Url) (name : String) : Option Str :=
  (url.queryPairs.find? fun pair => pair.1 = name.toList).map (·.2)

end Url

/-- The `url` crate: a text as a URL, and the text of a URL with pairs appended to its query. -/
structure UrlCrate where
  parse : Str → Option Url
  appendPairs : Str → List (Str × Str) → Str

def linkBase : Str := "niumaterm://pair".toList

/-- What the crate escapes of a query it unescapes, and the escaped URL has no white space. -/
structure UrlCrate.Carries (crate : UrlCrate) (pairs : List (Str × Str)) : Prop where
  parse_appendPairs : crate.parse (crate.appendPairs linkBase pairs) =
    some ⟨"niumaterm".toList, some "pair".toList, pairs⟩
  no_whitespace : ∀ c ∈ crate.appendPairs linkBase pairs, isWhitespace c = false

/-! ## Links -/

structure RelayAccess where
  url : Str
  accessKey : Str

/-- A `PairingLink`. -/
structure Link where
  code : Code
  hostId : DeviceId
  hostKey : Vector UInt8 32
  relay : Option RelayAccess
  addresses : List Str

def linkVersion : Str := "1".toList

def keyArray (bytes : Bytes) : Except Error (Vector UInt8 32) :=
  if h : bytes.toArray.size = 32 then .ok ⟨bytes.toArray, h⟩ else .error (.malformed "key length")

section

variable (crate : UrlCrate) (sha256 : Bytes → Vector UInt8 32)

/-- `DeviceId::from_public_key`. -/
def deviceIdOfKey (key : Vector UInt8 32) : DeviceId := deviceIdOfDigest (sha256 key.toList).toList

namespace Link

def relayPairs : Option RelayAccess → List (Str × Str)
  | some relay => [("r".toList, relay.url), ("rk".toList, relay.accessKey)]
  | none => []

def addressPairs (addresses : List Str) : List (Str × Str) :=
  if addresses = [] then [] else [("a".toList, [','].intercalate addresses)]

/-- The pairs of a link's query, in their order. -/
def pairs (link : Link) : List (Str × Str) :=
  ("v".toList, linkVersion) :: ("c".toList, link.code.symbols) :: ("h".toList, link.hostId) ::
  ("k".toList, Base64.urlSafeNoPad.encode link.hostKey.toList) ::
  (relayPairs link.relay ++ addressPairs link.addresses)

def toUrl (link : Link) : Str := crate.appendPairs linkBase link.pairs

def readKey (text : Str) : Except Error (Vector UInt8 32) := do
  let bytes ← okOr (Base64.urlSafeNoPad.decode text) (.malformed "pairing link key")
  keyArray bytes

def readRelay : Option Str → Option Str → Except Error (Option RelayAccess)
  | some url, some accessKey => .ok (some { url, accessKey })
  | none, none => .ok none
  | _, _ => .error (.malformed "pairing link relay")

def readAddresses (list : Option Str) : List Str := (list.map fun list => list.splitOn ',').getD []

/-- A pasted or scanned link.  The host id must be the one the key derives. -/
def parse (link : Str) : Except Error Link := do
  let url ← okOr (crate.parse (trim link)) (.malformed "pairing link")
  failIf (url.scheme ≠ "niumaterm".toList ∨ url.hostStr ≠ some "pair".toList)
    (.malformed "pairing link")
  failIf (url.param "v" ≠ some linkVersion) (.malformed "pairing link version")
  let code ← okOr (url.param "c") (.malformed "pairing link code")
  let code ← Code.parse code
  let key ← okOr (url.param "k") (.malformed "pairing link key")
  let hostKey ← readKey key
  let hostId := deviceIdOfKey sha256 hostKey
  failIf (url.param "h" ≠ some hostId) (.malformed "pairing link host id")
  let relay ← readRelay (url.param "r") (url.param "rk")
  return { code, hostId, hostKey, relay, addresses := readAddresses (url.param "a") }

end Link

/-! ## The round trip -/

namespace Url

variable {scheme : Str} {hostStr : Option Str} {key value : Str} {rest : List (Str × Str)}
  {name : String}

theorem param_cons_self (h : key = name.toList) :
    param ⟨scheme, hostStr, (key, value) :: rest⟩ name = some value := by
  simp [param, h]

theorem param_cons_of_ne (h : key ≠ name.toList) :
    param ⟨scheme, hostStr, (key, value) :: rest⟩ name = param ⟨scheme, hostStr, rest⟩ name := by
  simp [param, h]

end Url

theorem keyArray_toList (key : Vector UInt8 32) : keyArray key.toList = .ok key := by
  have hkey : key.toList.toArray = key.toArray := Array.toArray_toList
  rw [keyArray, dif_pos (by rw [hkey, key.size_toArray])]
  simp [hkey]

namespace Link

theorem readKey_encode (key : Vector UInt8 32) :
    readKey (Base64.urlSafeNoPad.encode key.toList) = .ok key := by
  rw [readKey, Base64.Engine.decode_encode]
  exact keyArray_toList key

section

variable {scheme : Str} {hostStr : Option Str} (relay : Option RelayAccess) (addresses : List Str)

theorem param_addresses {name : String} (h : "a".toList ≠ name.toList) :
    Url.param ⟨scheme, hostStr, addressPairs addresses⟩ name = none := by
  rw [addressPairs]
  split
  · rfl
  · rw [Url.param_cons_of_ne h]
    rfl

theorem param_relay_url :
    Url.param ⟨scheme, hostStr, relayPairs relay ++ addressPairs addresses⟩ "r" =
      relay.map (·.url) := by
  cases relay with
  | none => exact param_addresses addresses (by decide)
  | some relay => exact Url.param_cons_self rfl

theorem param_relay_key :
    Url.param ⟨scheme, hostStr, relayPairs relay ++ addressPairs addresses⟩ "rk" =
      relay.map (·.accessKey) := by
  cases relay with
  | none => exact param_addresses addresses (by decide)
  | some relay =>
    rw [relayPairs, cons_append, Url.param_cons_of_ne (by decide)]
    exact Url.param_cons_self rfl

theorem param_address_list :
    Url.param ⟨scheme, hostStr, relayPairs relay ++ addressPairs addresses⟩ "a" =
      if addresses = [] then none else some ([','].intercalate addresses) := by
  have haddresses : Url.param ⟨scheme, hostStr, addressPairs addresses⟩ "a" =
      if addresses = [] then none else some ([','].intercalate addresses) := by
    rw [addressPairs]
    split
    · rfl
    · exact Url.param_cons_self rfl
  cases relay with
  | none => exact haddresses
  | some relay =>
    rw [relayPairs, cons_append, cons_append, Url.param_cons_of_ne (by decide),
      Url.param_cons_of_ne (by decide)]
    exact haddresses

theorem readRelay_map : readRelay (relay.map (·.url)) (relay.map (·.accessKey)) = .ok relay := by
  cases relay <;> rfl

variable {addresses}

/-- Without commas, the addresses are the pieces of the list. -/
theorem readAddresses_intercalate (h : ∀ address ∈ addresses, ',' ∉ address) :
    readAddresses (if addresses = [] then none else some ([','].intercalate addresses)) =
      addresses := by
  split
  · next he => exact he.symm
  · next hne => exact splitOn_intercalate ',' h hne

/-! What is read of the pairs of a link. -/

variable (link : Link)

theorem param_version : Url.param ⟨scheme, hostStr, link.pairs⟩ "v" = some linkVersion :=
  Url.param_cons_self rfl

theorem param_code : Url.param ⟨scheme, hostStr, link.pairs⟩ "c" = some link.code.symbols := by
  rw [pairs, Url.param_cons_of_ne (by decide)]
  exact Url.param_cons_self rfl

theorem param_hostId : Url.param ⟨scheme, hostStr, link.pairs⟩ "h" = some link.hostId := by
  rw [pairs, Url.param_cons_of_ne (by decide), Url.param_cons_of_ne (by decide)]
  exact Url.param_cons_self rfl

theorem param_key : Url.param ⟨scheme, hostStr, link.pairs⟩ "k" =
    some (Base64.urlSafeNoPad.encode link.hostKey.toList) := by
  rw [pairs, Url.param_cons_of_ne (by decide), Url.param_cons_of_ne (by decide),
    Url.param_cons_of_ne (by decide)]
  exact Url.param_cons_self rfl

/-- The other names are those of the relay and of the addresses. -/
theorem param_rest {name : String} (h : ∀ key ∈ ["v", "c", "h", "k"], key.toList ≠ name.toList) :
    Url.param ⟨scheme, hostStr, link.pairs⟩ name =
      Url.param ⟨scheme, hostStr, relayPairs link.relay ++ addressPairs link.addresses⟩ name := by
  rw [pairs, Url.param_cons_of_ne (h "v" (by decide)), Url.param_cons_of_ne (h "c" (by decide)),
    Url.param_cons_of_ne (h "h" (by decide)), Url.param_cons_of_ne (h "k" (by decide))]

end

section

variable {crate sha256} {text : Str} {link : Link}

structure Reads (crate : UrlCrate) (sha256 : Bytes → Vector UInt8 32) (text : Str) (link : Link)
    (url : Url) : Prop where
  url_eq : crate.parse (trim text) = some url
  scheme_eq : url.scheme = "niumaterm".toList
  host_eq : url.hostStr = some "pair".toList
  version_eq : url.param "v" = some linkVersion
  code_eq : ∃ code, url.param "c" = some code ∧ Code.parse code = .ok link.code
  key_eq : ∃ key, url.param "k" = some key ∧ readKey key = .ok link.hostKey
  hostId_eq : link.hostId = deviceIdOfKey sha256 link.hostKey
  param_eq : url.param "h" = some link.hostId
  relay_eq : readRelay (url.param "r") (url.param "rk") = .ok link.relay
  addresses_eq : link.addresses = readAddresses (url.param "a")

theorem parse_ok :
    parse crate sha256 text = .ok link ↔ ∃ url, Reads crate sha256 text link url := by
  constructor
  · intro h
    rw [parse] at h
    obtain ⟨url, hurl, h⟩ := bind_ok.mp h
    obtain ⟨_, hhost, h⟩ := bind_ok.mp h
    obtain ⟨_, hversion, h⟩ := bind_ok.mp h
    obtain ⟨codeText, hcodeText, h⟩ := bind_ok.mp h
    obtain ⟨code, hcode, h⟩ := bind_ok.mp h
    obtain ⟨keyText, hkeyText, h⟩ := bind_ok.mp h
    obtain ⟨key, hkey, h⟩ := bind_ok.mp h
    obtain ⟨_, hid, h⟩ := bind_ok.mp h
    obtain ⟨relay, hrelay, h⟩ := bind_ok.mp h
    cases h
    have hhost := not_or.mp (failIf_ok.mp hhost)
    exact ⟨url, okOr_ok.mp hurl, not_not.mp hhost.1, not_not.mp hhost.2,
      not_not.mp (failIf_ok.mp hversion), ⟨codeText, okOr_ok.mp hcodeText, hcode⟩,
      ⟨keyText, okOr_ok.mp hkeyText, hkey⟩, rfl, not_not.mp (failIf_ok.mp hid), hrelay, rfl⟩
  · rintro ⟨url, h⟩
    obtain ⟨codeText, hcodeText, hcode⟩ := h.code_eq
    obtain ⟨keyText, hkeyText, hkey⟩ := h.key_eq
    have hhost : ¬ (url.scheme ≠ "niumaterm".toList ∨ url.hostStr ≠ some "pair".toList) :=
      not_or.mpr ⟨not_not.mpr h.scheme_eq, not_not.mpr h.host_eq⟩
    have hid : ¬ url.param "h" ≠ some (deviceIdOfKey sha256 link.hostKey) :=
      not_not.mpr (h.hostId_eq ▸ h.param_eq)
    rw [parse]
    refine bind_ok.mpr ⟨url, okOr_ok.mpr h.url_eq, bind_ok.mpr ⟨(), failIf_ok.mpr hhost, ?_⟩⟩
    refine bind_ok.mpr ⟨(), failIf_ok.mpr (not_not.mpr h.version_eq), ?_⟩
    refine bind_ok.mpr ⟨codeText, okOr_ok.mpr hcodeText, bind_ok.mpr ⟨link.code, hcode, ?_⟩⟩
    refine bind_ok.mpr ⟨keyText, okOr_ok.mpr hkeyText, bind_ok.mpr ⟨link.hostKey, hkey, ?_⟩⟩
    refine bind_ok.mpr ⟨(), failIf_ok.mpr hid, bind_ok.mpr ⟨link.relay, h.relay_eq, ?_⟩⟩
    rw [← h.hostId_eq, ← h.addresses_eq]
    rfl

/-- **A link is read back from its URL.** -/
theorem parse_toUrl (hcrate : crate.Carries link.pairs)
    (hid : link.hostId = deviceIdOfKey sha256 link.hostKey)
    (hcomma : ∀ address ∈ link.addresses, ',' ∉ address) :
    parse crate sha256 (link.toUrl crate) = .ok link := by
  refine parse_ok.mpr ⟨⟨"niumaterm".toList, some "pair".toList, link.pairs⟩, ?_⟩
  exact {
    url_eq := by
      rw [toUrl, trim_eq_self hcrate.no_whitespace]
      exact hcrate.parse_appendPairs
    scheme_eq := rfl
    host_eq := rfl
    version_eq := param_version link
    code_eq := ⟨_, param_code link, Code.parse_of_spells link.code.spells_symbols⟩
    key_eq := ⟨_, param_key link, readKey_encode link.hostKey⟩
    hostId_eq := hid
    param_eq := param_hostId link
    relay_eq := by
      rw [param_rest link (by decide), param_rest link (by decide), param_relay_url,
        param_relay_key, readRelay_map]
    addresses_eq := by
      rw [param_rest link (by decide), param_address_list, readAddresses_intercalate hcomma] }

theorem comma_not_mem_of_splitOn {list piece : Str} (h : piece ∈ list.splitOn ',') : ',' ∉ piece := by
  induction list generalizing piece with
  | nil => simp_all
  | cons c list ih =>
    obtain ⟨first, rest, hsplit⟩ := exists_cons_of_ne_nil (splitOn_ne_nil ',' list)
    have hfirst := ih (hsplit ▸ mem_cons_self)
    have hrest (x : Str) (hx : x ∈ rest) := ih (hsplit ▸ mem_cons_of_mem _ hx)
    rw [splitOn_cons_eq_if_modifyHead, hsplit] at h
    split at h <;> simp_all <;> grind

/-- **A link that is read names the host of its key, and can be handed on:** written again, it is read as the same. -/
theorem handed_on (h : parse crate sha256 text = .ok link) (hcrate : crate.Carries link.pairs) :
    link.hostId = deviceIdOfKey sha256 link.hostKey ∧ parse crate sha256 (link.toUrl crate) = .ok link := by
  obtain ⟨url, hreads⟩ := parse_ok.mp h
  refine ⟨hreads.hostId_eq, parse_toUrl hcrate hreads.hostId_eq fun address haddress => ?_⟩
  rw [hreads.addresses_eq, readAddresses] at haddress
  cases hlist : url.param "a" with
  | none => simp [hlist] at haddress
  | some list => exact comma_not_mem_of_splitOn (by simpa [hlist] using haddress)

end

end Link

end

/-! ## Codes and links -/

/-- **Pairing links and codes are read back.**  A link comes back from its URL, a code from each of
its spellings, and any five bytes make a code that is read as itself. -/
theorem link_and_code_round_trip (crate : UrlCrate) (sha256 : Bytes → Vector UInt8 32) :
    (∀ link : Link, crate.Carries link.pairs → link.hostId = deviceIdOfKey sha256 link.hostKey →
      (∀ address ∈ link.addresses, ',' ∉ address) →
      Link.parse crate sha256 (link.toUrl crate) = .ok link) ∧
    (∀ (code : Code) (text : Str), code.Spells text → Code.parse text = .ok code) ∧
    ∀ bytes : Vector UInt8 5, Code.parse (Base32.encode bytes.toList) = .ok (.generate bytes) :=
  ⟨fun _ hcrate hid hcomma ↦ Link.parse_toUrl hcrate hid hcomma, fun _ _ ↦ Code.parse_of_spells,
    fun bytes ↦ Code.parse_of_spells (Code.generate bytes).spells_symbols⟩

/-- What SHA-256 makes of thirty-two zeros. -/
def zeroDigest : Vector UInt8 32 :=
  #v[0x66, 0x68, 0x7a, 0xad, 0xf8, 0x62, 0xbd, 0x77, 0x6c, 0x8f, 0xc1, 0x8b, 0x8e, 0x9f, 0x8e, 0x20,
    0x08, 0x97, 0x14, 0x85, 0x6e, 0xe2, 0x33, 0xb3, 0x90, 0x2a, 0x59, 0x1d, 0x0d, 0x5f, 0x29, 0x25]

def shownCode : Code where
  symbols := "K7Q2M9XD".toList
  length_eq := by decide
  mem_alphabet c h := by
    have hall : "K7Q2M9XD".toList.all (· ∈ Base32.alphabet) = true := by decide
    exact of_decide_eq_true (all_eq_true.mp hall c h)

def zeroLink : Link where
  code := shownCode
  hostId := deviceIdOfKey (fun _ => zeroDigest) (.replicate 32 0)
  hostKey := .replicate 32 0
  relay := some ⟨"wss://relay.example.com/base?x=1".toList, "k&y=".toList⟩
  addresses := ["192.168.1.20:47470".toList, "[fe80::1]:47470".toList]

/-- The URL of `zeroLink`. -/
def zeroUrl : Str :=
  "niumaterm://pair?v=1&c=K7Q2M9XD&h=csm7nbfrcayqev4f".toList ++
  "&k=AAAAAAAAAAAAAAAAAAAAAAAAAAAAAAAAAAAAAAAAAAA".toList ++
  "&r=wss%3A%2F%2Frelay.example.com%2Fbase%3Fx%3D1&rk=k%26y%3D".toList ++
  "&a=192.168.1.20%3A47470%2C%5Bfe80%3A%3A1%5D%3A47470".toList

def zeroCrate : UrlCrate where
  parse _ := some ⟨"niumaterm".toList, some "pair".toList, zeroLink.pairs⟩
  appendPairs _ _ := zeroUrl

theorem zeroCrate_carries : zeroCrate.Carries zeroLink.pairs where
  parse_appendPairs := rfl
  no_whitespace c hc := by
    have hall : zeroUrl.all (!isWhitespace ·) = true := by decide +kernel
    simpa using all_eq_true.mp hall c hc

theorem zeroLink_round_trip :
    Link.parse zeroCrate (fun _ ↦ zeroDigest) (zeroLink.toUrl zeroCrate) = .ok zeroLink ∧
      Code.parse "k7q2 m9xd".toList = .ok shownCode :=
  have h := link_and_code_round_trip zeroCrate fun _ ↦ zeroDigest
  have hcomma : zeroLink.addresses.all (',' ∉ ·) = true := by decide
  ⟨h.1 zeroLink zeroCrate_carries rfl fun address haddress ↦
      of_decide_eq_true (all_eq_true.mp hcomma address haddress),
    h.2.1 shownCode _ (by decide)⟩

theorem handed_on_zero : Link.parse zeroCrate (fun _ => zeroDigest) (zeroLink.toUrl zeroCrate) = .ok zeroLink := by
  have hcomma : zeroLink.addresses.all (',' ∉ ·) = true := by decide
  have h : Link.parse zeroCrate (fun _ => zeroDigest) (zeroLink.toUrl zeroCrate) = .ok zeroLink :=
    Link.parse_toUrl zeroCrate_carries rfl fun address haddress =>
      of_decide_eq_true (all_eq_true.mp hcomma address haddress)
  exact (Link.handed_on h zeroCrate_carries).2

end Pairing
end NiumaTerm.Remote
