import Mathlib.Data.Vector.Defs
import NiumaTerm.Lib.Checks
import NiumaTerm.Lib.Endian
import NiumaTerm.Lib.Loop

/-!
# The address in a STUN response

`mappedAddress` reads the public address that a STUN server reports; a read out of bounds is an error,
and none is (`mappedAddress_returns`).  A response is a list of attributes.  The first XOR-MAPPED-ADDRESS
decides, whether or not it can be decoded.
-/

namespace NiumaTerm.Remote

open Checks Endian Loop
open List hiding Vector

/-! ## Addresses -/

inductive IpAddr
  | v4 (octets : Vector UInt8 4)
  | v6 (octets : Vector UInt8 16)
  deriving DecidableEq

structure SocketAddr where
  ip : IpAddr
  port : UInt16
  deriving DecidableEq

namespace Stun

/-- Fixed value in every STUN header, which also masks XOR-MAPPED-ADDRESS. -/
def magicCookie : ℕ := 0x2112A442

def bindingRequest : ℕ := 0x0001

def bindingSuccess : ℕ := 0x0101

def mappedAddressKind : ℕ := 0x0001

def xorMappedAddressKind : ℕ := 0x0020

def headerLen : ℕ := 20

/-! ## Checked reads -/

/-- What a read out of bounds does. -/
inductive Panic
  | outOfBounds

/-- `bytes[i]`. -/
def index (bytes : Bytes) (i : ℕ) : Except Panic UInt8 := okOr bytes[i]? .outOfBounds

/-- `bytes.get(first..last)`. -/
def get (bytes : Bytes) (first last : ℕ) : Option Bytes :=
  if first ≤ last ∧ last ≤ bytes.length then some ((bytes.take last).drop first) else none

/-- `bytes[first..last]`. -/
def slice (bytes : Bytes) (first last : ℕ) : Except Panic Bytes := okOr (get bytes first last) .outOfBounds

/-- `u16::from_be_bytes([bytes[i], bytes[i + 1]])`. -/
def readU16 (bytes : Bytes) (i : ℕ) : Except Panic ℕ := do
  let high ← index bytes i
  let low ← index bytes (i + 1)
  return ofBe [high, low]

/-! ## The source's functions -/

/-- `*byte ^= mask`, for each byte that has a mask. -/
def xorMask : Bytes → Bytes → Bytes
  | b :: bytes, m :: mask => (b ^^^ m) :: xorMask bytes mask
  | bytes, [] => bytes
  | [], _ => []

def familyLen (family : UInt8) : Option ℕ :=
  if family = 1 then some 4 else if family = 2 then some 16 else none

def ipOf (ip : Bytes) : Except Panic IpAddr :=
  if h : ip.length = 16 then .ok (.v6 ⟨ip.toArray, h⟩)
  else do
    let a ← index ip 0
    let b ← index ip 1
    let c ← index ip 2
    let d ← index ip 3
    return .v4 #v[a, b, c, d]

/-- Decode a (XOR-)MAPPED-ADDRESS value.  `mask` is the cookie and transaction id for the XOR form. -/
def decodeAddress (value : Bytes) (mask : Option Bytes) : Except Panic (Option SocketAddr) :=
  match value[1]?, value[2]?, value[3]? with
  | some family, some high, some low =>
    match (familyLen family).bind fun len => get value 4 (4 + len) with
    | none => .ok none
    | some ip =>
      match mask with
      | none => do
        let ip ← ipOf ip
        return some ⟨ip, .ofNat (ofBe [high, low])⟩
      | some mask => do
        let portMask ← readU16 mask 0
        let ip ← ipOf (xorMask ip mask)
        return some ⟨ip, .ofNat (ofBe [high, low]) ^^^ .ofNat portMask⟩
  | _, _, _ => .ok none

/-- `plain` and `pos`. -/
structure Scan where
  plain : Option SocketAddr := none
  pos : ℕ := 0

/-- `len.next_multiple_of(4)`. -/
def padded (len : ℕ) : ℕ := (len + 3) / 4 * 4

/-- One round of the loop over the attributes. -/
def scanRound (body mask : Bytes) (s : Scan) : Round Scan (Except Panic (Option SocketAddr)) :=
  if s.pos + 4 ≤ body.length then
    match readU16 body s.pos, readU16 body (s.pos + 2) with
    | .ok kind, .ok len =>
      let next := s.pos + (4 + padded len)
      match get body (s.pos + 4) (s.pos + 4 + len) with
      | none => .leave (.ok none)
      | some value =>
        if kind = xorMappedAddressKind then .leave (decodeAddress value (some mask))
        else if kind = mappedAddressKind then
          match decodeAddress value none with
          | .ok plain => .next ⟨plain, next⟩
          | .error panic => .leave (.error panic)
        else .next { s with pos := next }
    | .error panic, _ | _, .error panic => .leave (.error panic)
  else .leave (.ok s.plain)

/-- What is checked before the attributes are read, and the length of the body. -/
def readHeader (response : Bytes) (transaction : Vector UInt8 12) : Except Panic (Option ℕ) := do
  if response.length < headerLen then return none
  if (← readU16 response 0) ≠ bindingSuccess then return none
  if (← slice response 4 8) ≠ beBytes 4 magicCookie then return none
  if (← slice response 8 20) ≠ transaction.toList then return none
  return some (← readU16 response 2)

/-- The mapped address in a binding success response to `transaction`, or `none` for anything else.
The loop is given `fuel` rounds. -/
def mappedAddress (fuel : ℕ) (response : Bytes) (transaction : Vector UInt8 12) :
    Option (Except Panic (Option SocketAddr)) :=
  match readHeader response transaction with
  | .error panic => some (.error panic)
  | .ok none => some (.ok none)
  | .ok (some bodyLen) =>
    match get response headerLen (headerLen + bodyLen), slice response 4 20 with
    | none, _ => some (.ok none)
    | some _, .error panic => some (.error panic)
    | some body, .ok mask => run (scanRound body mask) fuel {}

/-! ## No read is out of bounds -/

section

variable {bytes value : Bytes} {i first last : ℕ}

theorem get_eq_some : get bytes first last = some value ↔
    first ≤ last ∧ last ≤ bytes.length ∧ (bytes.take last).drop first = value := by
  rw [get]
  split_ifs with h
  · simp [h.1, h.2]
  · simp only [false_iff]
    exact fun hall => h ⟨hall.1, hall.2.1⟩

theorem length_of_get (h : get bytes first last = some value) : value.length = last - first := by
  obtain ⟨-, hlast, rfl⟩ := get_eq_some.mp h
  rw [length_drop, length_take, Nat.min_eq_left hlast]

theorem index_ok (h : i < bytes.length) : index bytes i = .ok bytes[i] := by
  rw [index, getElem?_eq_getElem h]
  rfl

theorem readU16_ok (h : i + 1 < bytes.length) :
    readU16 bytes i = .ok (ofBe [bytes[i], bytes[i + 1]]) := by
  rw [readU16, index_ok (by omega), index_ok h]
  rfl

theorem slice_ok (hfirst : first ≤ last) (hlast : last ≤ bytes.length) :
    slice bytes first last = .ok ((bytes.take last).drop first) := by
  rw [slice, get, if_pos ⟨hfirst, hlast⟩]
  rfl

theorem ipOf_ok {ip : Bytes} (h : 4 ≤ ip.length) : ∃ addr, ipOf ip = .ok addr := by
  rw [ipOf]
  split
  · exact ⟨_, rfl⟩
  · rw [index_ok (by omega), index_ok (by omega), index_ok (by omega), index_ok (by omega)]
    exact ⟨_, rfl⟩

@[simp] theorem length_xorMask (bytes mask : Bytes) : (xorMask bytes mask).length = bytes.length := by
  fun_induction xorMask bytes mask <;> simp_all

theorem familyLen_ge {family : UInt8} {len : ℕ} (h : familyLen family = some len) : 4 ≤ len := by
  rw [familyLen] at h
  split_ifs at h <;> cases h <;> omega

theorem decodeAddress_ok (value : Bytes) {mask : Option Bytes} (hmask : ∀ m ∈ mask, 2 ≤ m.length) :
    ∃ addr, decodeAddress value mask = .ok addr := by
  rw [decodeAddress]
  split
  · rename_i family high low _ _ _
    split
    · exact ⟨none, rfl⟩
    · next ip hip =>
      obtain ⟨len, hlen, hget⟩ := Option.bind_eq_some_iff.mp hip
      have hip : 4 ≤ ip.length := by
        rw [length_of_get hget, Nat.add_sub_cancel_left]
        exact familyLen_ge hlen
      split
      · obtain ⟨addr, haddr⟩ := ipOf_ok hip
        rw [haddr]
        exact ⟨_, rfl⟩
      · next mask =>
        have hmasked : 4 ≤ (xorMask ip mask).length := by rwa [length_xorMask]
        obtain ⟨addr, haddr⟩ := ipOf_ok hmasked
        rw [haddr, readU16_ok (hmask mask rfl)]
        exact ⟨_, rfl⟩
  · exact ⟨none, rfl⟩

end

/-- What a round of the loop does. -/
theorem scanRound_cases (body : Bytes) {mask : Bytes} (hmask : 2 ≤ mask.length) (s : Scan) :
    (∃ result, scanRound body mask s = .leave (.ok result)) ∨
      ∃ s', scanRound body mask s = .next s' ∧ s.pos + 4 ≤ body.length ∧ s.pos + 4 ≤ s'.pos := by
  rw [scanRound]
  split
  · next hpos =>
    rw [readU16_ok (by omega), readU16_ok (by omega)]
    dsimp only
    split
    · exact .inl ⟨none, rfl⟩
    · next value _ =>
      split
      · have hmasked : ∀ m ∈ some mask, 2 ≤ m.length := by simpa using hmask
        obtain ⟨addr, haddr⟩ := decodeAddress_ok value hmasked
        exact .inl ⟨addr, congrArg Round.leave haddr⟩
      · split
        · have hplain : ∀ m ∈ (none : Option Bytes), 2 ≤ m.length := by simp
          obtain ⟨addr, haddr⟩ := decodeAddress_ok value hplain
          rw [haddr]
          exact .inr ⟨_, rfl, hpos, by dsimp only; omega⟩
        · exact .inr ⟨_, rfl, hpos, by dsimp only; omega⟩
  · exact .inl ⟨s.plain, rfl⟩

/-- The loop ends, with a result. -/
theorem run_scanRound {fuel : ℕ} (body : Bytes) {mask : Bytes} (hmask : 2 ≤ mask.length)
    (hfuel : body.length < fuel) : ∃ result, run (scanRound body mask) fuel {} = some (.ok result) := by
  have hsome : (run (scanRound body mask) fuel {}).isSome = true := by
    refine run_isSome (fun s => body.length - s.pos) (fun s s' hnext => ?_) (by simpa using hfuel)
    rcases scanRound_cases body hmask s with ⟨result, hleave⟩ | ⟨s'', hs'', hpos, hpos'⟩
    · rw [hnext] at hleave
      cases hleave
    · obtain rfl : s' = s'' := Round.next.inj (hnext.symm.trans hs'')
      omega
  obtain ⟨result, hrun⟩ := Option.isSome_iff_exists.mp hsome
  have hleave : ∀ s result, True → scanRound body mask s = .leave result → ∃ a, result = .ok a := by
    intro s result _ hleave
    rcases scanRound_cases body hmask s with ⟨a, hleave'⟩ | ⟨s', hnext, -⟩
    · exact ⟨a, Round.leave.inj (hleave.symm.trans hleave')⟩
    · rw [hleave] at hnext
      cases hnext
  obtain ⟨a, rfl⟩ := run_spec (fun _ _ _ _ => trivial) hleave trivial hrun
  exact ⟨a, hrun⟩

theorem readHeader_short {response : Bytes} (transaction : Vector UInt8 12)
    (h : response.length < headerLen) : readHeader response transaction = .ok none := by
  rw [readHeader, if_pos h]
  rfl

theorem readHeader_eq {response : Bytes} (transaction : Vector UInt8 12) (h : 20 ≤ response.length) :
    readHeader response transaction = .ok
      (if ofBe [response[0], response[1]] = bindingSuccess ∧
          (response.take 8).drop 4 = beBytes 4 magicCookie ∧
          (response.take 20).drop 8 = transaction.toList then
        some (ofBe [response[2], response[3]])
      else none) := by
  have hshort : ¬ response.length < headerLen := Nat.not_lt.mpr h
  rw [readHeader, if_neg hshort, readU16_ok (by omega), readU16_ok (by omega),
    slice_ok (by omega) (by omega), slice_ok (by omega) (by omega)]
  dsimp only [bind, Except.bind]
  split_ifs <;> simp_all <;> rfl

/-- **Every byte string is read within its bounds**, and the loop ends. -/
theorem mappedAddress_returns {fuel : ℕ} (response : Bytes) (transaction : Vector UInt8 12)
    (hfuel : response.length < fuel) :
    ∃ result, mappedAddress fuel response transaction = some (.ok result) := by
  rw [mappedAddress]
  rcases Nat.lt_or_ge response.length 20 with hlength | hlength
  · rw [readHeader_short transaction hlength]
    exact ⟨none, rfl⟩
  · rw [readHeader_eq transaction hlength]
    split_ifs
    · dsimp only
      rw [slice_ok (by omega) hlength]
      cases hbody : get response headerLen
          (headerLen + ofBe [response[2], response[3]]) with
      | none => exact ⟨none, rfl⟩
      | some body =>
        have hlt : body.length < fuel := by
          have hlen := length_of_get hbody
          have hwithin := (get_eq_some.mp hbody).2.1
          omega
        exact run_scanRound body (by simp; omega) hlt
    · exact ⟨none, rfl⟩

/-! ## Responses -/

/-- One attribute of a response, with the bytes that pad its value. -/
structure Attribute where
  kind : UInt16
  value : Bytes
  padding : Bytes
  short : value.length < 65536
  aligned : padding.length = padded value.length - value.length

namespace Attribute

variable (a : Attribute)

def bytes : Bytes := beBytes 2 a.kind.toNat ++ beBytes 2 a.value.length ++ a.value ++ a.padding

def isXor : Bool := a.kind.toNat = xorMappedAddressKind

def isMapped : Bool := a.kind.toNat = mappedAddressKind

theorem le_padded (len : ℕ) : len ≤ padded len := by
  rw [padded]
  omega

theorem length_bytes : a.bytes.length = 4 + padded a.value.length := by
  have hle := le_padded a.value.length
  simp only [bytes, length_append, length_beBytes, a.aligned]
  omega

end Attribute

def addressOf (value : Bytes) (mask : Option Bytes) : Option SocketAddr :=
  (decodeAddress value mask).toOption.join

def mask (transaction : Vector UInt8 12) : Bytes := beBytes 4 magicCookie ++ transaction.toList

/-- A binding success response. -/
structure Response where
  transaction : Vector UInt8 12
  attributes : List Attribute
  short : (attributes.flatMap Attribute.bytes).length < 65536

namespace Response

variable (r : Response)

def body : Bytes := r.attributes.flatMap Attribute.bytes

def bytes : Bytes :=
  beBytes 2 bindingSuccess ++ beBytes 2 r.body.length ++ mask r.transaction ++ r.body

def xorAddress (a : Attribute) : Option SocketAddr := addressOf a.value (some (mask r.transaction))

/-- The address of the last MAPPED-ADDRESS. -/
def lastMapped : Option SocketAddr :=
  (r.attributes.filter Attribute.isMapped).getLast?.bind fun a => addressOf a.value none

/-- What the response says: the first decodable XOR-MAPPED-ADDRESS, or else the last
MAPPED-ADDRESS. -/
def reported : Option SocketAddr :=
  ((r.attributes.filter Attribute.isXor).findSome? r.xorAddress).or r.lastMapped

/-- The first XOR-MAPPED-ADDRESS can be decoded, if there is one, or there is no address at all. -/
def FirstDecides : Prop :=
  ∀ a, r.attributes.find? Attribute.isXor = some a →
    (r.xorAddress a).isSome = true ∨ r.reported = none

end Response

/-! ## The loop walks over the attributes -/

/-- What the loop makes of the attributes that are left. -/
def walk (mask : Bytes) : Option SocketAddr → List Attribute → Option SocketAddr
  | plain, [] => plain
  | plain, a :: rest =>
    if a.isXor then addressOf a.value (some mask)
    else if a.isMapped then walk mask (addressOf a.value none) rest
    else walk mask plain rest

theorem decodeAddress_eq {value : Bytes} {mask : Option Bytes} (hmask : ∀ m ∈ mask, 2 ≤ m.length) :
    decodeAddress value mask = .ok (addressOf value mask) := by
  obtain ⟨addr, haddr⟩ := decodeAddress_ok value hmask
  rw [addressOf, haddr]
  rfl

theorem ofBe_pair (n : ℕ) (h : n < 65536) : ∃ high low, beBytes 2 n = [high, low] ∧ ofBe [high, low] = n := by
  have hlen := length_beBytes 2 n
  match hbytes : beBytes 2 n with
  | [high, low] => exact ⟨high, low, rfl, hbytes ▸ ofBe_beBytes (w := 2) h⟩
  | [] | [_] | _ :: _ :: _ :: _ => simp [hbytes] at hlen

theorem readU16_append (before after : Bytes) {n : ℕ} (h : n < 65536) :
    readU16 (before ++ beBytes 2 n ++ after) before.length = .ok n := by
  obtain ⟨high, low, hbytes, hvalue⟩ := ofBe_pair n h
  rw [hbytes, readU16_ok (by simp)]
  simp [hvalue]

theorem get_append (before value after : Bytes) :
    get (before ++ value ++ after) before.length (before.length + value.length) = some value := by
  refine get_eq_some.mpr ⟨Nat.le_add_right _ _, by simp, ?_⟩
  rw [← length_append, take_left', drop_left']
  all_goals simp

theorem scanRound_attribute {mask : Bytes} (hmask : 2 ≤ mask.length) (before after : Bytes)
    (plain : Option SocketAddr) (a : Attribute) :
    scanRound (before ++ a.bytes ++ after) mask ⟨plain, before.length⟩ =
      if a.isXor then .leave (.ok (addressOf a.value (some mask)))
      else
        .next ⟨if a.isMapped then addressOf a.value none else plain,
          before.length + a.bytes.length⟩ := by
  have hlength : before.length + 4 ≤ (before ++ a.bytes ++ after).length := by
    simp only [length_append, a.length_bytes]
    omega
  have hkind : readU16 (before ++ a.bytes ++ after) before.length = .ok a.kind.toNat := by
    have h := readU16_append before (beBytes 2 a.value.length ++ a.value ++ a.padding ++ after)
      a.kind.toNat_lt
    simpa [Attribute.bytes, append_assoc] using h
  have hlen : readU16 (before ++ a.bytes ++ after) (before.length + 2) = .ok a.value.length := by
    have h := readU16_append (before ++ beBytes 2 a.kind.toNat) (a.value ++ a.padding ++ after) a.short
    simpa [Attribute.bytes, append_assoc] using h
  have hvalue : get (before ++ a.bytes ++ after) (before.length + 4)
      (before.length + 4 + a.value.length) = some a.value := by
    have h := get_append (before ++ beBytes 2 a.kind.toNat ++ beBytes 2 a.value.length) a.value
      (a.padding ++ after)
    simpa [Attribute.bytes, append_assoc, Nat.add_assoc] using h
  rw [scanRound, if_pos hlength, hkind, hlen]
  dsimp only
  rw [hvalue]
  dsimp only
  rw [decodeAddress_eq (by simpa using hmask), decodeAddress_eq (by simp), Attribute.isXor,
    Attribute.isMapped, a.length_bytes]
  by_cases hxor : a.kind.toNat = xorMappedAddressKind
  · simp [hxor]
  · by_cases hmapped : a.kind.toNat = mappedAddressKind <;> simp [hxor, hmapped]

theorem run_walk {mask : Bytes} (hmask : 2 ≤ mask.length) (before : Bytes) (plain : Option SocketAddr)
    (attributes : List Attribute) {fuel : ℕ} (hfuel : attributes.length < fuel) :
    run (scanRound (before ++ attributes.flatMap Attribute.bytes) mask) fuel ⟨plain, before.length⟩ =
      some (.ok (walk mask plain attributes)) := by
  induction attributes generalizing before plain fuel with
  | nil =>
    obtain ⟨more, rfl⟩ := Nat.exists_eq_add_of_lt hfuel
    refine run_leave ?_
    rw [scanRound, if_neg (by simp)]
    rfl
  | cons a rest ih =>
    obtain ⟨more, rfl⟩ : ∃ more, fuel = more + 1 := Nat.exists_eq_add_one.mpr (by omega)
    have hround := scanRound_attribute hmask before (rest.flatMap Attribute.bytes) plain a
    rw [flatMap_cons, ← append_assoc]
    rw [walk]
    split_ifs at hround ⊢ with hxor hmapped
    · exact run_leave hround
    · rw [run_next hround, ← length_append]
      exact ih _ _ (by simpa using hfuel)
    · rw [run_next hround, ← length_append]
      exact ih _ _ (by simpa using hfuel)

theorem walk_eq (mask : Bytes) (plain : Option SocketAddr) (attributes : List Attribute) :
    walk mask plain attributes =
      match attributes.find? Attribute.isXor with
      | some a => addressOf a.value (some mask)
      | none => (attributes.filter Attribute.isMapped).getLast?.elim plain
          fun a => addressOf a.value none := by
  induction attributes generalizing plain with
  | nil => rfl
  | cons a rest ih =>
    rw [walk]
    split_ifs with hxor hmapped
    · rw [find?_cons_of_pos hxor]
    · rw [ih, find?_cons_of_neg hxor, filter_cons_of_pos hmapped, getLast?_cons]
      cases (rest.filter Attribute.isMapped).getLast? <;> rfl
    · rw [ih, find?_cons_of_neg hxor, filter_cons_of_neg hmapped]

namespace Response

variable (r : Response)

/-- The address that is read. -/
def decided : Option SocketAddr :=
  match r.attributes.find? Attribute.isXor with
  | some a => r.xorAddress a
  | none => r.lastMapped

theorem length_mask (transaction : Vector UInt8 12) : (mask transaction).length = 16 := by
  simp [mask]

theorem length_bytes : r.bytes.length = headerLen + r.body.length := by
  simp only [bytes, length_append, length_beBytes, length_mask, headerLen]

theorem readHeader_bytes : readHeader r.bytes r.transaction = .ok (some r.body.length) := by
  have hlength : ¬ r.bytes.length < headerLen := by
    rw [r.length_bytes]
    omega
  have hkind : readU16 r.bytes 0 = .ok bindingSuccess := by
    have h := readU16_append [] (beBytes 2 r.body.length ++ mask r.transaction ++ r.body)
      (show bindingSuccess < 65536 by decide)
    simpa [bytes, append_assoc] using h
  have hlen : readU16 r.bytes 2 = .ok r.body.length := by
    have h := readU16_append (beBytes 2 bindingSuccess) (mask r.transaction ++ r.body) r.short
    simpa [bytes, body, append_assoc] using h
  have hcookie : slice r.bytes 4 8 = .ok (beBytes 4 magicCookie) := by
    have h := get_append (beBytes 2 bindingSuccess ++ beBytes 2 r.body.length)
      (beBytes 4 magicCookie) (r.transaction.toList ++ r.body)
    rw [slice, show get r.bytes 4 8 = some (beBytes 4 magicCookie) by
      simpa [bytes, mask, append_assoc] using h]
    rfl
  have htransaction : slice r.bytes 8 20 = .ok r.transaction.toList := by
    have h := get_append (beBytes 2 bindingSuccess ++ beBytes 2 r.body.length ++
      beBytes 4 magicCookie) r.transaction.toList r.body
    rw [slice, show get r.bytes 8 20 = some r.transaction.toList by
      simpa [bytes, mask, append_assoc] using h]
    rfl
  rw [readHeader, if_neg hlength, hkind, hcookie, htransaction, hlen]
  dsimp only [bind, Except.bind]
  rw [if_neg (by simp), if_neg (by simp), if_neg (by simp)]
  rfl

/-- **What is read from a response.** -/
theorem mappedAddress_bytes {fuel : ℕ} (hfuel : r.attributes.length < fuel) :
    mappedAddress fuel r.bytes r.transaction = some (.ok r.decided) := by
  have hbody : get r.bytes headerLen (headerLen + r.body.length) = some r.body := by
    have h := get_append (beBytes 2 bindingSuccess ++ beBytes 2 r.body.length ++ mask r.transaction)
      r.body []
    simpa [bytes, headerLen, length_mask, Nat.add_assoc] using h
  have hmask : slice r.bytes 4 20 = .ok (mask r.transaction) := by
    have h := get_append (beBytes 2 bindingSuccess ++ beBytes 2 r.body.length) (mask r.transaction)
      r.body
    rw [slice, show get r.bytes 4 20 = some (mask r.transaction) by
      simpa [bytes, length_mask, append_assoc] using h]
    rfl
  have htwo : 2 ≤ (mask r.transaction).length := by
    rw [length_mask]
    omega
  have hwalk := run_walk htwo [] none r.attributes hfuel
  rw [mappedAddress, readHeader_bytes]
  dsimp only
  rw [hbody, hmask]
  refine hwalk.trans ?_
  rw [walk_eq, decided]
  cases r.attributes.find? Attribute.isXor with
  | some a => rfl
  | none =>
    rw [lastMapped]
    cases (r.attributes.filter Attribute.isMapped).getLast? <;> rfl

theorem decided_eq_iff : r.decided = r.reported ↔ r.FirstDecides := by
  rw [decided, FirstDecides]
  cases hfind : r.attributes.find? Attribute.isXor with
  | none =>
    have hnil : r.attributes.filter Attribute.isXor = [] := by
      rw [filter_eq_nil_iff]
      exact find?_eq_none.mp hfind
    simp [reported, hnil]
  | some a =>
    obtain ⟨hxor, before, rest, hsplit, hbefore⟩ := find?_eq_some_iff_append.mp hfind
    have hfilter : r.attributes.filter Attribute.isXor = a :: rest.filter Attribute.isXor := by
      rw [hsplit, filter_append, filter_cons_of_pos hxor,
        filter_eq_nil_iff.mpr (by simpa using hbefore), nil_append]
    cases haddr : r.xorAddress a with
    | none =>
      simp only [Option.some.injEq, forall_eq', haddr, Option.isSome_none, Bool.false_eq_true,
        false_or]
      exact eq_comm
    | some addr =>
      have hreported : r.reported = some addr := by
        rw [reported, hfilter, findSome?_cons, haddr]
        rfl
      simp [haddr, hreported]

end Response

/-! ## Encoding an address -/

theorem xorMask_xorMask (bytes mask : Bytes) : xorMask (xorMask bytes mask) mask = bytes := by
  fun_induction xorMask bytes mask with
  | case1 b bytes m mask ih => rw [xorMask, ih, UInt8.xor_assoc, UInt8.xor_self, UInt8.xor_zero]
  | case2 bytes => cases bytes <;> rfl
  | case3 mask => cases mask <;> rfl

def octets : IpAddr → Bytes
  | .v4 octets => octets.toList
  | .v6 octets => octets.toList

def family : IpAddr → UInt8
  | .v4 _ => 1
  | .v6 _ => 2

/-- The value of the XOR-MAPPED-ADDRESS of an address. -/
def xorValue (addr : SocketAddr) (mask : Bytes) : Bytes :=
  [0, family addr.ip] ++ beBytes 2 (addr.port ^^^ .ofNat (ofBe (mask.take 2))).toNat ++
    xorMask (octets addr.ip) mask

theorem familyLen_family (ip : IpAddr) : familyLen (family ip) = some (octets ip).length := by
  cases ip <;> simp [familyLen, family, octets]

theorem ipOf_octets (ip : IpAddr) : ipOf (octets ip) = .ok ip := by
  cases ip with
  | v4 octets =>
    rw [ipOf, dif_neg (by simp [Stun.octets])]
    obtain ⟨⟨l⟩, hl⟩ := octets
    match l, hl with
    | [a, b, c, d], _ => rfl
  | v6 octets =>
    rw [ipOf, dif_pos (by simp [Stun.octets])]
    obtain ⟨array, hsize⟩ := octets
    simp [Stun.octets, Vector.toList]

theorem length_xorValue (addr : SocketAddr) (mask : Bytes) :
    (xorValue addr mask).length = 4 + (octets addr.ip).length := by
  simp [xorValue]
  omega

/-- Decoding undoes the encoding. -/
theorem decodeAddress_xorValue (addr : SocketAddr) {mask : Bytes} (hmask : 2 ≤ mask.length) :
    decodeAddress (xorValue addr mask) (some mask) = .ok (some addr) := by
  obtain ⟨ip, port⟩ := addr
  obtain ⟨high, low, hport, hvalue⟩ :=
    ofBe_pair (port ^^^ .ofNat (ofBe (mask.take 2))).toNat (UInt16.toNat_lt _)
  have hbytes : xorValue ⟨ip, port⟩ mask = [0, family ip, high, low] ++ xorMask (octets ip) mask := by
    rw [xorValue, hport]
    rfl
  have hget : get (xorValue ⟨ip, port⟩ mask) 4 (4 + (octets ip).length) =
      some (xorMask (octets ip) mask) := by
    have h := get_append [0, family ip, high, low] (xorMask (octets ip) mask) []
    rw [hbytes]
    simpa using h
  have hportMask : readU16 mask 0 = .ok (ofBe (mask.take 2)) := by
    rw [readU16_ok (by omega)]
    match mask, hmask with
    | m₀ :: m₁ :: rest, _ => rfl
  have hread : (UInt16.ofNat (ofBe [high, low]) ^^^ UInt16.ofNat (ofBe (mask.take 2))) = port := by
    rw [hvalue, UInt16.ofNat_toNat, UInt16.xor_assoc, UInt16.xor_self, UInt16.xor_zero]
  rw [decodeAddress, hbytes]
  simp only [cons_append, getElem?_cons_succ, getElem?_cons_zero]
  rw [familyLen_family, Option.bind_some, ← cons_append, ← cons_append, ← cons_append,
    ← cons_append, ← hbytes, hget]
  dsimp only
  rw [hportMask, xorMask_xorMask, ipOf_octets]
  dsimp only [bind, Except.bind]
  rw [hread]
  rfl

/-- The XOR-MAPPED-ADDRESS of an address. -/
def xorAttribute (addr : SocketAddr) (transaction : Vector UInt8 12) : Attribute where
  kind := .ofNat xorMappedAddressKind
  value := xorValue addr (mask transaction)
  padding := []
  short := by
    rw [length_xorValue]
    cases addr.ip <;> simp [octets]
  aligned := by
    rw [length_xorValue]
    cases addr.ip <;> simp [octets, padded]

/-- A response that has the address as its only attribute. -/
def Response.ofAddress (addr : SocketAddr) (transaction : Vector UInt8 12) : Response where
  transaction
  attributes := [xorAttribute addr transaction]
  short := by
    simp only [flatMap_cons, flatMap_nil, append_nil, Attribute.length_bytes,
      xorAttribute, length_xorValue]
    cases addr.ip <;> simp [octets, padded]

theorem Response.decided_ofAddress (addr : SocketAddr) (transaction : Vector UInt8 12) :
    (Response.ofAddress addr transaction).decided = some addr := by
  have hmask : 2 ≤ (mask transaction).length := by
    rw [length_mask]
    omega
  show addressOf (xorValue addr (mask transaction)) (some (mask transaction)) = some addr
  rw [addressOf, decodeAddress_xorValue addr hmask]
  rfl

theorem Response.attributes_le (r : Response) : r.attributes.length ≤ r.bytes.length := by
  have hle : ∀ attributes : List Attribute,
      attributes.length ≤ (attributes.flatMap Attribute.bytes).length := by
    intro attributes
    induction attributes with
    | nil => exact Nat.le_refl _
    | cons a rest ih =>
      simp only [flatMap_cons, length_append, length_cons, a.length_bytes]
      omega
  rw [r.length_bytes]
  exact (hle _).trans (Nat.le_add_left _ _)

/-- **Every byte string is read within its bounds, and the loop ends; an address that is encoded is
read back; and a response's address is read** exactly when its first XOR-MAPPED-ADDRESS can be
decoded, if it has one, or it has no address at all. -/
theorem reports_iff (transaction : Vector UInt8 12) :
    (∀ (response : Bytes) (fuel : ℕ), response.length < fuel →
      ∃ result, mappedAddress fuel response transaction = some (.ok result)) ∧
    (∀ (addr : SocketAddr) (fuel : ℕ),
      (Response.ofAddress addr transaction).bytes.length < fuel →
      mappedAddress fuel (Response.ofAddress addr transaction).bytes transaction =
        some (.ok (some addr))) ∧
    ∀ (r : Response) (fuel : ℕ), r.bytes.length < fuel →
      (mappedAddress fuel r.bytes r.transaction = some (.ok r.reported) ↔ r.FirstDecides) := by
  refine ⟨fun response fuel hfuel ↦ mappedAddress_returns response transaction hfuel,
    fun addr fuel hfuel ↦ ?_, fun r fuel hfuel ↦ ?_⟩
  · have hread := (Response.ofAddress addr transaction).mappedAddress_bytes
      ((Response.attributes_le _).trans_lt hfuel)
    rwa [Response.decided_ofAddress] at hread
  · rw [r.mappedAddress_bytes (r.attributes_le.trans_lt hfuel), ← r.decided_eq_iff]
    simp only [Option.some.injEq, Except.ok.injEq]

def testTransaction : Vector UInt8 12 :=
  #v[110, 109, 116, 45, 116, 101, 115, 116, 45, 116, 105, 100]

/-- An XOR-MAPPED-ADDRESS of an unknown family, and 10.0.0.1:1 as the MAPPED-ADDRESS. -/
def unknownFamily : Response where
  transaction := testTransaction
  attributes :=
    [{ kind := 0x0020, value := [0, 3, 0, 1, 0, 0, 0, 0], padding := [], short := by decide
       aligned := by decide },
      { kind := 0x0001, value := [0, 1, 0, 1, 10, 0, 0, 1], padding := [], short := by decide
        aligned := by decide }]
  short := by decide

/-- The response of a server that the public address is 36.27.34.192:63642. -/
theorem reports_publicAddress :
    let addr : SocketAddr := ⟨.v4 #v[36, 27, 34, 192], 63642⟩
    let r := Response.ofAddress addr testTransaction
    (∃ result, mappedAddress 21 [1, 2, 3] testTransaction = some (.ok result)) ∧
      mappedAddress 33 r.bytes testTransaction = some (.ok (some addr)) ∧
      mappedAddress 33 r.bytes testTransaction = some (.ok r.reported) := by
  intro addr r
  obtain ⟨hreturns, hencoded, hread⟩ := reports_iff testTransaction
  refine ⟨hreturns _ _ (by decide), hencoded addr 33 (by decide +kernel),
    (hread r 33 (by decide +kernel)).mpr ?_⟩
  intro a ha
  obtain rfl : xorAttribute addr testTransaction = a := Option.some.inj ha
  exact .inl (by decide +kernel)

/-- The address of the response is not read. -/
theorem unread_unknownFamily :
    mappedAddress 45 unknownFamily.bytes testTransaction = some (.ok none) ∧
      unknownFamily.reported = some ⟨.v4 #v[10, 0, 0, 1], 1⟩ ∧
      ¬ ∀ r : Response, mappedAddress (r.bytes.length + 1) r.bytes r.transaction =
        some (.ok r.reported) := by
  have hread : mappedAddress 45 unknownFamily.bytes testTransaction = some (.ok none) := rfl
  have hreported : unknownFamily.reported = some ⟨.v4 #v[10, 0, 0, 1], 1⟩ := by decide +kernel
  refine ⟨hread, hreported, fun h ↦ ?_⟩
  have hall : some (Except.ok none) = some (Except.ok unknownFamily.reported) :=
    hread.symm.trans (h unknownFamily)
  rw [hreported] at hall
  cases hall

end Stun

end NiumaTerm.Remote
