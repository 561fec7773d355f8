import NiumaTerm.Lib.Chunks
import NiumaTerm.Lib.Endian
import NiumaTerm.Lib.Str

/-!
# Control transfers in chunks

A long control message leaves in chunks, and the other side puts them together.  A sender may be
cancelled after any chunk; the next transfer replaces what it left.  Transfers are told apart by a 64-bit
number that starts over (`ids_run_out`).
-/

namespace NiumaTerm.Remote

open Rust Chunks Endian List

def controlChunkSize : ℕ := 128 * 1024

def controlChunkHeader : ℕ := 24

def maxControlTransfer : ℕ := 64 * 1024 * 1024

/-- The payload of a `CONTROL_CHUNK` message. -/
structure ControlChunk where
  id : UInt64
  total : ℕ
  offset : ℕ
  body : Bytes

namespace ControlChunk

def encode (chunk : ControlChunk) : Bytes :=
  beBytes 8 chunk.id.toNat ++ beBytes 8 chunk.total ++ beBytes 8 chunk.offset ++ chunk.body

/-- A `usize` has 64 bits. -/
def decode (payload : Bytes) : Except Str ControlChunk :=
  if payload.length ≤ controlChunkHeader ∨ controlChunkHeader + controlChunkSize < payload.length then
    .error "invalid control chunk length".toList
  else
    .ok ⟨.ofNat (ofBe (payload.take 8)), ofBe ((payload.drop 8).take 8), ofBe ((payload.drop 16).take 8),
      payload.drop controlChunkHeader⟩

end ControlChunk

structure ControlTransfer where
  id : UInt64
  total : ℕ
  bytes : Bytes

structure ControlChunks where
  transfer : Option ControlTransfer := none

namespace ControlChunks

def extend (transfer : ControlTransfer) (body : Bytes) : ControlChunks × Except Str (Option Bytes) :=
  let bytes := transfer.bytes ++ body
  if bytes.length = transfer.total then (⟨none⟩, .ok (some bytes))
  else (⟨some { transfer with bytes }⟩, .ok none)

/-- The transfer goes on, if the chunk is the next one. -/
def next (c : ControlChunks) (chunk : ControlChunk) : ControlChunks × Except Str (Option Bytes) :=
  match c.transfer with
  | none => (c, .error "control chunk has no first chunk".toList)
  | some transfer =>
    if transfer.id ≠ chunk.id ∨ transfer.total ≠ chunk.total ∨ transfer.bytes.length ≠ chunk.offset then
      (c, .error "control chunk is out of sequence".toList)
    else extend transfer chunk.body

/-- `push` of a chunk whose length is right. -/
def accept (c : ControlChunks) (chunk : ControlChunk) : ControlChunks × Except Str (Option Bytes) :=
  if chunk.total = 0 ∨ maxControlTransfer < chunk.total ∨ chunk.total - chunk.offset < chunk.body.length then
    (c, .error "control transfer exceeds its declared size".toList)
  else if chunk.offset = 0 ∧ c.transfer.any (·.id = chunk.id) then
    (c, .error "control transfer repeated its first chunk".toList)
  else if chunk.offset = 0 then next ⟨some ⟨chunk.id, chunk.total, []⟩⟩ chunk
  else next c chunk

def push (c : ControlChunks) (payload : Bytes) : ControlChunks × Except Str (Option Bytes) :=
  match ControlChunk.decode payload with
  | .error e => (c, .error e)
  | .ok chunk => c.accept chunk

end ControlChunks

/-! ## The sender and the link -/

def controlJson : UInt8 := 0x01

def controlChunk : UInt8 := 0x04

/-- A message of the control stream. -/
structure ControlOutbound where
  kind : UInt8
  payload : Bytes

def controlChunks (id : UInt64) (payload : Bytes) : List ControlChunk :=
  (chunks controlChunkSize payload).mapIdx fun index bytes =>
    ⟨id, payload.length, index * controlChunkSize, bytes⟩

/-- A call of `send_chunked_control`: its payload, and how many messages it has queued when it returns or its
caller is gone. -/
structure Sending where
  payload : Bytes
  queued : ℕ

namespace Sending

def isChunked (s : Sending) : Bool := controlChunkSize < s.payload.length ∧ s.payload.length ≤ maxControlTransfer

/-- What it queues if it is not cancelled. -/
def messages (next : UInt64) (s : Sending) : List ControlOutbound :=
  if maxControlTransfer < s.payload.length then []
  else if s.payload.length ≤ controlChunkSize then [⟨controlJson, s.payload⟩]
  else (controlChunks next s.payload).map fun chunk => ⟨controlChunk, chunk.encode⟩

/-- It has queued the whole payload. -/
def isComplete (s : Sending) : Bool :=
  s.payload.length ≤ maxControlTransfer ∧ (s.messages 0).length ≤ s.queued

end Sending

/-- `send_chunked_control`, call after call; `next` is `next_transfer`. -/
def sendAll (next : UInt64) : List Sending → List ControlOutbound
  | [] => []
  | s :: rest => (s.messages next).take s.queued ++ sendAll (if s.isChunked then next + 1 else next) rest

namespace ControlChunks

/-- `route` of a control message, up to the `CONTROL_JSON` it makes of it. -/
def receive (c : ControlChunks) (message : ControlOutbound) : ControlChunks × Option Bytes :=
  if message.kind = controlChunk then
    match c.push message.payload with
    | (c, .ok value) => (c, value)
    | (c, .error _) => (c, none)
  else (c, if message.kind = controlJson then some message.payload else none)

def receiveAll (c : ControlChunks) : List ControlOutbound → ControlChunks × List Bytes
  | [] => (c, [])
  | message :: rest =>
    let (c, value) := c.receive message
    let (c, values) := c.receiveAll rest
    (c, value.toList ++ values)

end ControlChunks

/-! ## One chunk -/

namespace ControlChunk

variable {chunk : ControlChunk}

theorem decode_encode (htotal : chunk.total < 256 ^ 8) (hoffset : chunk.offset < 256 ^ 8) (hne : chunk.body ≠ [])
    (hlen : chunk.body.length ≤ controlChunkSize) : decode chunk.encode = .ok chunk := by
  have hid : chunk.id.toNat < 256 ^ 8 := chunk.id.toNat_lt
  have hpos : 0 < chunk.body.length := length_pos_iff.mpr hne
  have hlength : chunk.encode.length = controlChunkHeader + chunk.body.length := by
    simp only [encode, length_append, length_beBytes, controlChunkHeader]
  rw [decode, if_neg (by omega)]
  have h₁ : chunk.encode.take 8 = beBytes 8 chunk.id.toNat := by
    simp only [encode, append_assoc]
    exact take_left' (length_beBytes ..)
  have h₂ : (chunk.encode.drop 8).take 8 = beBytes 8 chunk.total := by
    simp only [encode, append_assoc]
    rw [drop_left' (length_beBytes ..), take_left' (length_beBytes ..)]
  have h₃ : (chunk.encode.drop 16).take 8 = beBytes 8 chunk.offset := by
    simp only [encode]
    rw [append_assoc, drop_left' (by simp), take_left' (length_beBytes ..)]
  have h₄ : chunk.encode.drop controlChunkHeader = chunk.body := by
    simp only [encode]
    exact drop_left' (by simp [controlChunkHeader])
  rw [h₁, h₂, h₃, h₄, ofBe_beBytes hid, ofBe_beBytes htotal, ofBe_beBytes hoffset, UInt64.ofNat_toNat]

end ControlChunk

namespace ControlChunks

variable {c : ControlChunks} {chunk : ControlChunk} {transfer : ControlTransfer} {payload : Bytes}

theorem extend_ok (transfer : ControlTransfer) (body : Bytes) : ∃ value, (extend transfer body).2 = .ok value := by
  unfold extend
  dsimp only
  split
  · exact ⟨_, rfl⟩
  · exact ⟨_, rfl⟩

/-- The transfer that an accepted chunk goes on with. -/
structure Accepts (c : ControlChunks) (chunk : ControlChunk) (transfer : ControlTransfer) : Prop where
  id : transfer.id = chunk.id
  total : transfer.total = chunk.total
  offset : transfer.bytes.length = chunk.offset
  first : chunk.offset = 0 → transfer = ⟨chunk.id, chunk.total, []⟩
  next : chunk.offset ≠ 0 → c.transfer = some transfer
  fresh : chunk.offset = 0 → ∀ t, c.transfer = some t → t.id ≠ chunk.id
  total_pos : 0 < chunk.total
  total_le : chunk.total ≤ maxControlTransfer
  body_le : chunk.body.length ≤ chunk.total - chunk.offset

theorem next_some (ht : c.transfer = some transfer) (hid : transfer.id = chunk.id)
    (htotal : transfer.total = chunk.total) (hoffset : transfer.bytes.length = chunk.offset) :
    next c chunk = extend transfer chunk.body := by
  simp [next, ht, hid, htotal, hoffset]

/-- A chunk is refused and changes nothing, or it goes on with a transfer. -/
theorem accept_cases (c : ControlChunks) (chunk : ControlChunk) :
    (∃ e, c.accept chunk = (c, .error e)) ∨
      ∃ transfer, Accepts c chunk transfer ∧ c.accept chunk = extend transfer chunk.body := by
  unfold accept
  by_cases hsize : chunk.total = 0 ∨ maxControlTransfer < chunk.total ∨ chunk.total - chunk.offset < chunk.body.length
  · exact .inl ⟨_, if_pos hsize⟩
  rw [if_neg hsize]
  obtain ⟨hpos, hmax, hbody⟩ := by
    simpa only [not_or, Nat.not_lt, ← Ne.eq_def, ← Nat.pos_iff_ne_zero] using hsize
  by_cases hrepeat : chunk.offset = 0 ∧ c.transfer.any (·.id = chunk.id)
  · exact .inl ⟨_, if_pos hrepeat⟩
  rw [if_neg hrepeat]
  by_cases hfirst : chunk.offset = 0
  · rw [if_pos hfirst]
    refine .inr ⟨⟨chunk.id, chunk.total, []⟩, ⟨rfl, rfl, hfirst.symm, fun _ => rfl, fun h => absurd hfirst h,
      fun _ t ht hid => hrepeat ⟨hfirst, ?_⟩, hpos, hmax, hbody⟩, next_some rfl rfl rfl hfirst.symm⟩
    rw [ht, Option.any_some]
    exact decide_eq_true hid
  · rw [if_neg hfirst]
    cases ht : c.transfer with
    | none => exact .inl ⟨"control chunk has no first chunk".toList, by simp [next, ht]⟩
    | some transfer =>
      by_cases hseq : transfer.id ≠ chunk.id ∨ transfer.total ≠ chunk.total ∨ transfer.bytes.length ≠ chunk.offset
      · exact .inl ⟨"control chunk is out of sequence".toList, by simp only [next, ht, if_pos hseq]⟩
      · obtain ⟨hid, htotal, hoffset⟩ := by simpa only [not_or, not_not] using hseq
        exact .inr ⟨transfer, ⟨hid, htotal, hoffset, fun h => absurd h hfirst, fun _ => ht,
          fun h => absurd h hfirst, hpos, hmax, hbody⟩,
          next_some ht hid htotal hoffset⟩

theorem push_cases (c : ControlChunks) (payload : Bytes) :
    (∃ e, c.push payload = (c, .error e)) ∨
      ∃ chunk transfer, ControlChunk.decode payload = .ok chunk ∧ Accepts c chunk transfer ∧
        c.push payload = extend transfer chunk.body := by
  unfold push
  split
  · exact .inl ⟨_, rfl⟩
  · rename_i chunk hdecode
    rcases accept_cases c chunk with h | ⟨transfer, hacc, h⟩
    · exact .inl h
    · exact .inr ⟨chunk, transfer, hdecode, hacc, h⟩

/-- An error changes nothing. -/
theorem push_error {e : Str} (h : (c.push payload).2 = .error e) : (c.push payload).1 = c := by
  rcases push_cases c payload with ⟨e', he⟩ | ⟨chunk, transfer, -, -, he⟩
  · rw [he]
  · rw [he] at h
    obtain ⟨value, hvalue⟩ := extend_ok transfer chunk.body
    rw [hvalue] at h
    cases h

theorem accept_first (hfirst : chunk.offset = 0) (hid : ∀ t ∈ c.transfer, t.id ≠ chunk.id) (hpos : 0 < chunk.total)
    (hmax : chunk.total ≤ maxControlTransfer) (hbody : chunk.body.length ≤ chunk.total) :
    c.accept chunk = extend ⟨chunk.id, chunk.total, []⟩ chunk.body := by
  have hsize : ¬ (chunk.total = 0 ∨ maxControlTransfer < chunk.total ∨ chunk.total - chunk.offset < chunk.body.length) := by
    omega
  have hrepeat : ¬ (chunk.offset = 0 ∧ c.transfer.any (·.id = chunk.id)) := by
    rintro ⟨-, h⟩
    cases ht : c.transfer with
    | none =>
      rw [ht] at h
      cases h
    | some t =>
      rw [ht, Option.any_some] at h
      exact hid t ht (of_decide_eq_true h)
  rw [accept, if_neg hsize, if_neg hrepeat, if_pos hfirst]
  exact next_some rfl rfl rfl hfirst.symm

theorem accept_next (ht : c.transfer = some transfer) (hid : transfer.id = chunk.id)
    (htotal : transfer.total = chunk.total) (hoffset : transfer.bytes.length = chunk.offset) (hne : transfer.bytes ≠ [])
    (hmax : chunk.total ≤ maxControlTransfer) (hbody : chunk.offset + chunk.body.length ≤ chunk.total) :
    c.accept chunk = extend transfer chunk.body := by
  have hpos : 0 < chunk.offset := by
    rw [← hoffset]
    exact length_pos_iff.mpr hne
  have hsize : ¬ (chunk.total = 0 ∨ maxControlTransfer < chunk.total ∨ chunk.total - chunk.offset < chunk.body.length) := by
    omega
  rw [accept, if_neg hsize, if_neg (fun h => Nat.ne_of_gt hpos h.1), if_neg (Nat.ne_of_gt hpos)]
  exact next_some ht hid htotal hoffset

end ControlChunks

/-! ## One transfer -/

/-- The chunks of a transfer that goes on at the offset. -/
def chunksFrom (id : UInt64) (total : ℕ) : ℕ → List Bytes → List ControlChunk
  | _, [] => []
  | offset, body :: rest => ⟨id, total, offset, body⟩ :: chunksFrom id total (offset + body.length) rest

theorem chunksFrom_eq_mapIdx (id : UInt64) (total offset : ℕ) (parts : List Bytes) :
    chunksFrom id total offset parts =
      parts.mapIdx fun i body => ⟨id, total, offset + (parts.take i).flatten.length, body⟩ := by
  induction parts generalizing offset with
  | nil => rfl
  | cons body parts ih =>
    rw [chunksFrom, ih, mapIdx_cons]
    simp [Nat.add_assoc]

theorem controlChunks_eq (id : UInt64) (payload : Bytes) :
    controlChunks id payload = chunksFrom id payload.length 0 (chunks controlChunkSize payload) := by
  rw [chunksFrom_eq_mapIdx, controlChunks]
  refine ext_getElem (by simp) fun i h₁ _ => ?_
  have hi : i < (chunks controlChunkSize payload).length := by simpa using h₁
  rw [getElem_mapIdx, getElem_mapIdx, length_flatten_take_chunks (by decide) hi, Nat.zero_add]

theorem take_chunksFrom (id : UInt64) (total offset n : ℕ) (parts : List Bytes) :
    (chunksFrom id total offset parts).take n = chunksFrom id total offset (parts.take n) := by
  induction parts generalizing offset n with
  | nil => simp [chunksFrom]
  | cons body parts ih =>
    cases n with
    | zero => rfl
    | succ n => rw [chunksFrom, take_succ_cons, ih, take_succ_cons, chunksFrom]

@[simp] theorem length_chunksFrom (id : UInt64) (total offset : ℕ) (parts : List Bytes) :
    (chunksFrom id total offset parts).length = parts.length := by
  rw [chunksFrom_eq_mapIdx, length_mapIdx]

namespace ControlChunks

variable {c : ControlChunks} {chunk : ControlChunk} {id : UInt64} {total : ℕ} {acc : Bytes} {parts : List Bytes}

def IsBody (body : Bytes) : Prop := body ≠ [] ∧ body.length ≤ controlChunkSize

theorem receive_encode (htotal : chunk.total < 256 ^ 8) (hoffset : chunk.offset < 256 ^ 8) (hbody : IsBody chunk.body)
    {transfer : ControlTransfer} (haccept : c.accept chunk = extend transfer chunk.body) :
    c.receive ⟨controlChunk, chunk.encode⟩ =
      if (transfer.bytes ++ chunk.body).length = transfer.total then (⟨none⟩, some (transfer.bytes ++ chunk.body))
      else (⟨some { transfer with bytes := transfer.bytes ++ chunk.body }⟩, none) := by
  have hpush : c.push chunk.encode = extend transfer chunk.body := by
    rw [push, ControlChunk.decode_encode htotal hoffset hbody.1 hbody.2]
    exact haccept
  rw [receive, if_pos rfl, hpush, extend]
  by_cases h : (transfer.bytes ++ chunk.body).length = transfer.total
  · rw [if_pos h, if_pos h]
  · rw [if_neg h, if_neg h]

/-- Where a transfer is after some of its chunks. -/
def after (id : UInt64) (total : ℕ) (bytes : Bytes) : ControlChunks × List Bytes :=
  if bytes.length = total then (⟨none⟩, [bytes]) else (⟨some ⟨id, total, bytes⟩⟩, [])

/-- The messages of chunks. -/
def outbound (chunks : List ControlChunk) : List ControlOutbound := chunks.map fun k => ⟨controlChunk, k.encode⟩

theorem receive_cons {message : ControlOutbound} {body : Bytes}
    (hreceive : c.receive message = if (acc ++ body).length = total then (⟨none⟩, some (acc ++ body))
      else (⟨some ⟨id, total, acc ++ body⟩⟩, none))
    (hle : acc.length + (body ++ parts.flatten).length ≤ total) (hparts : ∀ body ∈ parts, IsBody body)
    (hrest : (acc ++ body).length < total → receiveAll ⟨some ⟨id, total, acc ++ body⟩⟩
      (outbound (chunksFrom id total (acc ++ body).length parts)) = after id total (acc ++ body ++ parts.flatten)) :
    c.receiveAll (message :: outbound (chunksFrom id total (acc.length + body.length) parts)) =
      after id total (acc ++ (body ++ parts.flatten)) := by
  rw [length_append] at hle
  rw [length_append] at hreceive hrest
  rw [receiveAll, hreceive]
  by_cases hdone : acc.length + body.length = total
  · -- The bodies are not empty, so no chunk comes after the one that completes the transfer.
    have hnil : parts = [] := by
      refine eq_nil_iff_forall_not_mem.mpr fun body' hbody' => ?_
      have hmem := (sublist_flatten_of_mem hbody').length_le
      have hpos := length_pos_iff.mpr (hparts body' hbody').1
      omega
    subst hnil
    rw [if_pos hdone, flatten_nil, append_nil, after, length_append, if_pos hdone]
    rfl
  · rw [if_neg hdone]
    dsimp only
    rw [hrest (by omega), append_assoc]
    rfl

theorem receive_next (hacc : acc ≠ []) (hlt : acc.length < total) (hmax : total ≤ maxControlTransfer)
    (hle : acc.length + parts.flatten.length ≤ total) (hparts : ∀ body ∈ parts, IsBody body) :
    receiveAll ⟨some ⟨id, total, acc⟩⟩ (outbound (chunksFrom id total acc.length parts)) =
      after id total (acc ++ parts.flatten) := by
  have htotal : total < 256 ^ 8 := Nat.lt_of_le_of_lt hmax (by decide)
  induction parts generalizing acc with
  | nil =>
    rw [flatten_nil, append_nil, after, if_neg (Nat.ne_of_lt hlt)]
    rfl
  | cons body parts ih =>
    rw [flatten_cons] at hle ⊢
    have hlen : acc.length + body.length ≤ total := by
      rw [length_append] at hle
      omega
    have haccept : accept ⟨some ⟨id, total, acc⟩⟩ ⟨id, total, acc.length, body⟩ = extend ⟨id, total, acc⟩ body :=
      accept_next rfl rfl rfl rfl hacc hmax hlen
    have hreceive := receive_encode htotal (Nat.lt_trans hlt htotal) (hparts body (.head _)) haccept
    refine receive_cons hreceive hle (fun body' hbody' => hparts body' (.tail _ hbody')) fun hmore => ?_
    refine ih (append_ne_nil_of_left_ne_nil hacc body) hmore ?_ fun body' hbody' => hparts body' (.tail _ hbody')
    rw [length_append] at hle ⊢
    omega

/-- **The chunks of a transfer, or its first ones, whatever another transfer left.** -/
theorem receive_chunksFrom (hid : ∀ t ∈ c.transfer, t.id ≠ id) (hne : parts ≠ []) (hmax : total ≤ maxControlTransfer)
    (hle : parts.flatten.length ≤ total) (hparts : ∀ body ∈ parts, IsBody body) :
    c.receiveAll (outbound (chunksFrom id total 0 parts)) = after id total parts.flatten := by
  have htotal : total < 256 ^ 8 := Nat.lt_of_le_of_lt hmax (by decide)
  cases parts with
  | nil => exact absurd rfl hne
  | cons body parts =>
    have hpos := length_pos_iff.mpr (hparts body (.head _)).1
    rw [flatten_cons] at hle ⊢
    have hlen : body.length ≤ total := by
      rw [length_append] at hle
      omega
    have haccept : accept c ⟨id, total, 0, body⟩ = extend ⟨id, total, []⟩ body :=
      accept_first rfl hid (Nat.lt_of_lt_of_le hpos hlen) hmax hlen
    have hreceive := receive_encode htotal (show (0 : ℕ) < 256 ^ 8 by decide) (hparts body (.head _)) haccept
    refine receive_cons hreceive (by rwa [length_nil, Nat.zero_add])
      (fun body' hbody' => hparts body' (.tail _ hbody')) fun hmore => ?_
    refine receive_next (hparts body (.head _)).1 hmore hmax ?_ fun body' hbody' => hparts body' (.tail _ hbody')
    rwa [nil_append, ← length_append]

/-! ## Any peer -/

/-- The chunks that were accepted end with a transfer's chunks from its first on, and these have the bytes. -/
def EndWith (accepted : List ControlChunk) (id : UInt64) (total : ℕ) (bytes : Bytes) : Prop :=
  ∃ before first rest, accepted = before ++ first :: rest ∧ first.offset = 0 ∧ (∀ k ∈ rest, k.offset ≠ 0) ∧
    (∀ k ∈ first :: rest, k.id = id ∧ k.total = total) ∧ (first :: rest).flatMap ControlChunk.body = bytes

/-- What the receiver holds is what the chunks it accepted say. -/
def Follows (c : ControlChunks) (accepted : List ControlChunk) : Prop :=
  ∀ t, c.transfer = some t →
    t.bytes.length < t.total ∧ t.total ≤ maxControlTransfer ∧ EndWith accepted t.id t.total t.bytes

/-- A push, and the chunks that were accepted. -/
def hear (s : ControlChunks × List ControlChunk) (payload : Bytes) : ControlChunks × List ControlChunk :=
  match s.1.push payload, ControlChunk.decode payload with
  | (c, .ok _), .ok chunk => (c, s.2 ++ [chunk])
  | (c, _), _ => (c, s.2)

variable {accepted : List ControlChunk}

theorem Accepts.endWith {transfer : ControlTransfer} (h : Accepts c chunk transfer)
    (hc : c.Follows accepted) : EndWith (accepted ++ [chunk]) chunk.id chunk.total (transfer.bytes ++ chunk.body) := by
  by_cases hfirst : chunk.offset = 0
  · refine ⟨accepted, chunk, [], rfl, hfirst, ?_, ?_, ?_⟩
    · intro k hk
      cases hk
    · intro k hk
      rw [mem_singleton.mp hk]
      exact ⟨rfl, rfl⟩
    · rw [h.first hfirst, flatMap_singleton, nil_append]
  · obtain ⟨-, -, before, first, rest, rfl, hoffset, hrest, hsame, hbytes⟩ := hc transfer (h.next hfirst)
    rw [h.id, h.total] at hsame
    refine ⟨before, first, rest ++ [chunk], by rw [append_assoc]; rfl, hoffset, ?_, ?_, ?_⟩
    · intro k hk
      rcases mem_append.mp hk with hk | hk
      · exact hrest k hk
      · rwa [mem_singleton.mp hk]
    · intro k hk
      rcases mem_append.mp (cons_append ▸ hk) with hk | hk
      · exact hsame k hk
      · rw [mem_singleton.mp hk]
        exact ⟨rfl, rfl⟩
    · rw [← cons_append, flatMap_append, hbytes, flatMap_singleton]

theorem Accepts.length_le {transfer : ControlTransfer} (h : Accepts c chunk transfer)
    (hc : c.Follows accepted) : (transfer.bytes ++ chunk.body).length ≤ chunk.total := by
  have hbody := h.body_le
  have hoffset : chunk.offset ≤ chunk.total := by
    by_cases hfirst : chunk.offset = 0
    · rw [hfirst]
      exact Nat.zero_le _
    · rw [← h.offset, ← h.total]
      exact Nat.le_of_lt (hc transfer (h.next hfirst)).1
  rw [length_append, h.offset]
  omega

theorem Follows.hear (hc : c.Follows accepted) (payload : Bytes) :
    (hear (c, accepted) payload).1.Follows (hear (c, accepted) payload).2 := by
  rcases push_cases c payload with ⟨e, he⟩ | ⟨chunk, transfer, hdecode, hacc, he⟩
  · simp only [ControlChunks.hear, he]
    exact hc
  · have hlen := hacc.length_le hc
    have hend := hacc.endWith hc
    simp only [ControlChunks.hear, he, hdecode, extend]
    by_cases hdone : (transfer.bytes ++ chunk.body).length = transfer.total
    · rw [if_pos hdone]
      intro t ht
      cases ht
    · rw [if_neg hdone]
      intro t ht
      cases ht
      rw [hacc.total] at hdone
      exact ⟨hacc.total ▸ Nat.lt_of_le_of_ne hlen hdone, hacc.total ▸ hacc.total_le, hacc.id ▸ hacc.total ▸ hend⟩

theorem follows_foldl (hc : c.Follows accepted) (payloads : List Bytes) :
    (payloads.foldl ControlChunks.hear (c, accepted)).1.Follows (payloads.foldl ControlChunks.hear (c, accepted)).2 := by
  induction payloads generalizing c accepted with
  | nil => exact hc
  | cons payload payloads ih => exact ih (hc.hear payload)

/-- What a push gives is what the transfer's chunks have. -/
theorem Follows.value (hc : c.Follows accepted) {payload value : Bytes}
    (h : (c.push payload).2 = .ok (some value)) :
    ∃ chunk, ControlChunk.decode payload = .ok chunk ∧ value.length = chunk.total ∧
      chunk.total ≤ maxControlTransfer ∧ EndWith (accepted ++ [chunk]) chunk.id chunk.total value := by
  rcases push_cases c payload with ⟨e, he⟩ | ⟨chunk, transfer, hdecode, hacc, he⟩
  · rw [he] at h
    cases h
  · rw [he, extend] at h
    by_cases hdone : (transfer.bytes ++ chunk.body).length = transfer.total
    · simp only [if_pos hdone, Except.ok.injEq, Option.some.injEq] at h
      subst h
      exact ⟨chunk, hdecode, hdone.trans hacc.total, hacc.total_le, hacc.endWith hc⟩
    · simp only [if_neg hdone, Except.ok.injEq, reduceCtorEq] at h

end ControlChunks

/-! ## Transfer after transfer -/

namespace Sending

/-- It leaves no chunk. -/
def isQuiet (s : Sending) : Bool := !s.isChunked || s.queued = 0

end Sending

/-- Between two transfers that leave chunks, fewer than 2 ^ 64 - 1 transfers are given a number and cancelled before
their first chunk. -/
def IdsLast (sendings : List Sending) : Prop :=
  ∀ run, run <:+: sendings → (∀ s ∈ run, s.isQuiet = true) → run.countP Sending.isChunked + 1 < 2 ^ 64

theorem IdsLast.of_length {sendings : List Sending} (h : sendings.length + 1 < 2 ^ 64) : IdsLast sendings := by
  intro run hrun _
  have hcount := countP_le_length (p := Sending.isChunked) (l := run)
  have hlen := hrun.length_le
  omega

theorem IdsLast.tail {s : Sending} {sendings : List Sending} (h : IdsLast (s :: sendings)) : IdsLast sendings :=
  fun run hrun => h run (hrun.trans (suffix_cons s sendings).isInfix)

namespace ControlChunks

/-- The receiver's transfer is not the next one: `k` transfers have a number between the two. -/
def IsOld (c : ControlChunks) (next : UInt64) (sendings : List Sending) : Prop :=
  ∀ t, c.transfer = some t → ∃ k, next.toNat = (t.id.toNat + 1 + k) % 2 ^ 64 ∧
    ∀ run, run <+: sendings → (∀ s ∈ run, s.isQuiet = true) → k + run.countP Sending.isChunked + 1 < 2 ^ 64

variable {c : ControlChunks} {next : UInt64} {s : Sending} {sendings : List Sending}

theorem IsOld.id_ne (h : c.IsOld next sendings) {t : ControlTransfer} (ht : c.transfer = some t) : t.id ≠ next := by
  obtain ⟨k, hnext, hk⟩ := h t ht
  have hk := hk [] nil_prefix fun s hs => absurd hs not_mem_nil
  have hid := t.id.toNat_lt
  intro he
  rw [← he] at hnext
  simp only [countP_nil] at hk
  omega

theorem IsOld.of_not_chunked (h : c.IsOld next (s :: sendings)) (hs : s.isChunked = false) : c.IsOld next sendings := by
  intro t ht
  obtain ⟨k, hnext, hk⟩ := h t ht
  refine ⟨k, hnext, fun run hrun hquiet => ?_⟩
  have hk := hk (s :: run) (cons_prefix_cons.mpr ⟨rfl, hrun⟩) ?_
  · rwa [countP_cons_of_neg (by rw [hs]; exact Bool.false_ne_true)] at hk
  · rintro s' (_ | ⟨_, hs'⟩)
    · rw [Sending.isQuiet, hs]
      rfl
    · exact hquiet s' hs'

theorem IsOld.of_quiet (h : c.IsOld next (s :: sendings)) (hs : s.isChunked = true) (hquiet : s.isQuiet = true) :
    c.IsOld (next + 1) sendings := by
  intro t ht
  obtain ⟨k, hnext, hk⟩ := h t ht
  refine ⟨k + 1, ?_, fun run hrun hquiet' => ?_⟩
  · rw [UInt64.toNat_add, hnext]
    change ((t.id.toNat + 1 + k) % 2 ^ 64 + 1) % 2 ^ 64 = _
    omega
  · have hk := hk (s :: run) (cons_prefix_cons.mpr ⟨rfl, hrun⟩) ?_
    · rw [countP_cons_of_pos hs] at hk
      omega
    · rintro s' (_ | ⟨_, hs'⟩)
      · exact hquiet
      · exact hquiet' s' hs'

/-- A transfer that was begun. -/
theorem IsOld.of_begun {total : ℕ} {bytes : Bytes} (h : IdsLast sendings) :
    IsOld ⟨some ⟨next, total, bytes⟩⟩ (next + 1) sendings := by
  intro t ht
  cases ht
  refine ⟨0, UInt64.toNat_add .., fun run hrun hquiet => ?_⟩
  rw [Nat.zero_add]
  exact h run hrun.isInfix hquiet

theorem IsOld.of_none : IsOld ⟨none⟩ next sendings := fun _ ht => absurd ht (Option.some_ne_none _).symm

theorem receiveAll_cons (message : ControlOutbound) (rest : List ControlOutbound) :
    c.receiveAll (message :: rest) = (((c.receive message).1.receiveAll rest).1,
      (c.receive message).2.toList ++ ((c.receive message).1.receiveAll rest).2) := rfl

theorem receiveAll_append (first rest : List ControlOutbound) :
    c.receiveAll (first ++ rest) =
      (((c.receiveAll first).1.receiveAll rest).1, (c.receiveAll first).2 ++ ((c.receiveAll first).1.receiveAll rest).2) := by
  induction first generalizing c with
  | nil => rfl
  | cons message first ih =>
    rw [cons_append, receiveAll_cons, ih, receiveAll_cons, append_assoc]

theorem messages_eq_outbound (hs : s.isChunked = true) :
    s.messages next = outbound (chunksFrom next s.payload.length 0 (chunks controlChunkSize s.payload)) := by
  obtain ⟨hlow, hhigh⟩ := of_decide_eq_true hs
  rw [Sending.messages, if_neg (Nat.not_lt.mpr hhigh), if_neg (Nat.not_le.mpr hlow), controlChunks_eq]
  rfl

/-- A chunked transfer of which some chunks were queued. -/
theorem receive_begun (hs : s.isChunked = true) (hqueued : s.queued ≠ 0)
    (hid : ∀ t, c.transfer = some t → t.id ≠ next) :
    c.receiveAll ((s.messages next).take s.queued) =
      after next s.payload.length ((chunks controlChunkSize s.payload).take s.queued).flatten := by
  obtain ⟨hlow, hhigh⟩ := of_decide_eq_true hs
  have hne : s.payload ≠ [] := length_pos_iff.mp (Nat.lt_of_le_of_lt (Nat.zero_le _) hlow)
  rw [messages_eq_outbound hs, outbound, ← map_take, take_chunksFrom]
  refine receive_chunksFrom hid ?_ hhigh ?_ fun body hbody => ?_
  · rw [Ne, take_eq_nil_iff, chunks_eq_nil_iff (by decide)]
    exact fun h => h.elim hqueued hne
  · rw [flatten_take_chunks (by decide)]
    exact length_take_le' ..
  · have hmem := mem_of_mem_take hbody
    exact ⟨ne_nil_of_mem_chunks hmem, length_le_of_mem_chunks hmem⟩

/-- All of it was queued, or too little. -/
theorem length_flatten_take (hs : s.isChunked = true) :
    ((chunks controlChunkSize s.payload).take s.queued).flatten.length = s.payload.length ↔ s.isComplete = true := by
  obtain ⟨-, hhigh⟩ := of_decide_eq_true hs
  have hmessages : (s.messages 0).length = (chunks controlChunkSize s.payload).length := by
    rw [messages_eq_outbound hs, outbound, length_map, length_chunksFrom]
  rw [Sending.isComplete, decide_eq_true_iff, hmessages]
  refine ⟨fun h => ⟨hhigh, ?_⟩, fun h => ?_⟩
  · by_contra hlt
    have hlt := Nat.not_le.mp hlt
    rw [length_flatten_take_chunks (by decide) hlt] at h
    exact absurd h (Nat.ne_of_lt (mul_lt_length_of_lt (by decide) hlt))
  · rw [take_of_length_le h.2, flatten_chunks (by decide)]

/-- **What a call gives the receiver, and what it leaves there.** -/
theorem receive_sending (hold : c.IsOld next (s :: sendings)) (hlast : IdsLast sendings) :
    ∃ c', c.receiveAll ((s.messages next).take s.queued) = (c', if s.isComplete then [s.payload] else []) ∧
      c'.IsOld (if s.isChunked then next + 1 else next) sendings := by
  cases hs : s.isChunked with
  | true =>
    rw [if_pos rfl]
    by_cases hqueued : s.queued = 0
    · refine ⟨c, ?_, hold.of_quiet hs (by rw [Sending.isQuiet, hs, hqueued]; rfl)⟩
      have hlost : ¬ s.isComplete = true := by
        rw [← length_flatten_take hs, hqueued]
        obtain ⟨hlow, -⟩ := of_decide_eq_true hs
        exact Nat.ne_of_lt (Nat.lt_of_le_of_lt (Nat.zero_le _) hlow)
      rw [hqueued, if_neg hlost]
      rfl
    · rw [receive_begun hs hqueued fun t ht => hold.id_ne ht, after]
      by_cases hdone : s.isComplete = true
      · have hlength := (length_flatten_take hs).mpr hdone
        have hmessages := (of_decide_eq_true hdone).2
        rw [messages_eq_outbound hs, outbound, length_map, length_chunksFrom] at hmessages
        rw [if_pos hlength, if_pos hdone, take_of_length_le hmessages, flatten_chunks (by decide)]
        exact ⟨_, rfl, .of_none⟩
      · rw [if_neg fun h => hdone ((length_flatten_take hs).mp h), if_neg hdone]
        exact ⟨_, rfl, .of_begun hlast⟩
  | false =>
    rw [if_neg Bool.false_ne_true]
    refine ⟨c, ?_, hold.of_not_chunked hs⟩
    have hsize : s.payload.length ≤ controlChunkSize ∨ maxControlTransfer < s.payload.length := by
      rw [Sending.isChunked, decide_eq_false_iff_not, not_and_or, Nat.not_lt, Nat.not_le] at hs
      exact hs
    rw [Sending.isComplete, Sending.messages, Sending.messages]
    rcases Nat.lt_or_ge maxControlTransfer s.payload.length with hlarge | hsmall
    · rw [if_pos hlarge, if_neg (by rw [decide_eq_true_iff]; exact fun h => absurd h.1 (Nat.not_le.mpr hlarge)),
        take_nil]
      rfl
    · have hone := hsize.resolve_right (Nat.not_lt.mpr hsmall)
      have hlarge := Nat.not_lt.mpr hsmall
      rw [if_neg hlarge, if_neg hlarge, if_pos hone, if_pos hone]
      cases hqueued : s.queued with
      | zero =>
        rw [if_neg (by rw [decide_eq_true_iff]; exact fun h => absurd h.2 (Nat.not_succ_le_zero 0))]
        rfl
      | succ n =>
        rw [if_pos (by rw [decide_eq_true_iff]; exact ⟨hsmall, Nat.succ_le_succ (Nat.zero_le n)⟩), take_succ_cons,
          take_nil]
        rfl

theorem receive_sendAll (hold : c.IsOld next sendings) (hlast : IdsLast sendings) :
    (c.receiveAll (sendAll next sendings)).2 = (sendings.filter Sending.isComplete).map Sending.payload := by
  induction sendings generalizing c next with
  | nil => rfl
  | cons s sendings ih =>
    obtain ⟨c', hreceive, hold'⟩ := receive_sending hold hlast.tail
    rw [sendAll, receiveAll_append, hreceive]
    dsimp only
    rw [ih hold' hlast.tail]
    by_cases hdone : s.isComplete = true
    · rw [if_pos hdone, filter_cons_of_pos hdone]
      rfl
    · rw [if_neg hdone, filter_cons_of_neg hdone]
      rfl

end ControlChunks

/-- **A control transfer that was sent whole comes out once, unless the numbers of transfers run out; and whatever a peer
sends, a value is what its chunks have, and a chunk that is refused changes nothing.** -/
theorem control_transfers :
    (∀ sendings, IdsLast sendings → (ControlChunks.receiveAll {} (sendAll 1 sendings)).2 =
      (sendings.filter Sending.isComplete).map Sending.payload) ∧
    ∀ (payloads : List Bytes) (c : ControlChunks) accepted, payloads.foldl ControlChunks.hear ({}, []) = (c, accepted) →
      (∀ t, c.transfer = some t → t.bytes.length < t.total ∧ t.total ≤ maxControlTransfer ∧
        ControlChunks.EndWith accepted t.id t.total t.bytes) ∧
      (∀ payload value, (c.push payload).2 = .ok (some value) → ∃ chunk, ControlChunk.decode payload = .ok chunk ∧
        value.length = chunk.total ∧ chunk.total ≤ maxControlTransfer ∧
        ControlChunks.EndWith (accepted ++ [chunk]) chunk.id chunk.total value) ∧
      (∀ payload e, (c.push payload).2 = .error e → (c.push payload).1 = c) ∧
      ∀ id parts, (∀ t, c.transfer = some t → t.id ≠ id) → parts ≠ [] → (∀ body ∈ parts, ControlChunks.IsBody body) →
        parts.flatten.length ≤ maxControlTransfer →
        c.receiveAll (ControlChunks.outbound (chunksFrom id parts.flatten.length 0 parts)) = ({}, [parts.flatten]) := by
  refine ⟨fun sendings hlast ↦ ControlChunks.receive_sendAll .of_none hlast, fun payloads c accepted hrun ↦ ?_⟩
  have hempty : ControlChunks.Follows {} [] := fun t ht ↦ absurd ht (Option.some_ne_none t).symm
  have hfollows := ControlChunks.follows_foldl hempty payloads
  rw [hrun] at hfollows
  refine ⟨hfollows, fun payload value h ↦ hfollows.value h, fun payload e h ↦ ControlChunks.push_error h, ?_⟩
  intro id parts hid hne hparts hmax
  rw [ControlChunks.receive_chunksFrom hid hne hmax (Nat.le_refl _) hparts, ControlChunks.after, if_pos rfl]

theorem control_transfers_two :
    (ControlChunks.receiveAll {} (sendAll 1 [⟨replicate 200000 7, 1⟩, ⟨[1, 2], 1⟩])).2 =
      ([⟨replicate 200000 7, 1⟩, ⟨[1, 2], 1⟩].filter Sending.isComplete).map Sending.payload :=
  control_transfers.1 _ (.of_length (by decide))

/-! ## When the numbers run out -/

namespace ControlChunks

variable {c : ControlChunks} {transfer : ControlTransfer} {next : UInt64}

theorem mem_chunksFrom {id : UInt64} {total offset : ℕ} {parts : List Bytes} {k : ControlChunk}
    (h : k ∈ chunksFrom id total offset parts) :
    k.id = id ∧ k.total = total ∧ k.body ∈ parts ∧ k.offset ≤ offset + parts.flatten.length := by
  induction parts generalizing offset with
  | nil => cases h
  | cons body parts ih =>
    rw [flatten_cons, length_append]
    rcases mem_cons.mp h with rfl | h
    · exact ⟨rfl, rfl, .head _, Nat.le_add_right ..⟩
    · obtain ⟨hid, htotal, hbody, hoffset⟩ := ih h
      exact ⟨hid, htotal, .tail _ hbody, by omega⟩

/-- A chunk under the number of an unfinished transfer, of another length. -/
theorem receive_stale {k : ControlChunk} (ht : c.transfer = some transfer) (hid : transfer.id = k.id)
    (hne : transfer.total ≠ k.total) (htotal : k.total < 256 ^ 8) (hoffset : k.offset < 256 ^ 8)
    (hbody : IsBody k.body) : c.receive ⟨controlChunk, k.encode⟩ = (c, none) := by
  have hpush : c.push k.encode = c.accept k := by
    rw [push, ControlChunk.decode_encode htotal hoffset hbody.1 hbody.2]
  rw [receive, if_pos rfl, hpush]
  rcases accept_cases c k with ⟨e, he⟩ | ⟨transfer', hacc, -⟩
  · rw [he]
  · by_cases hfirst : k.offset = 0
    · exact absurd hid (hacc.fresh hfirst transfer ht)
    · rw [hacc.next hfirst, Option.some.injEq] at ht
      exact absurd (ht ▸ hacc.total) hne

theorem receiveAll_refused {messages : List ControlOutbound} (h : ∀ m ∈ messages, c.receive m = (c, none)) :
    c.receiveAll messages = (c, []) := by
  induction messages with
  | nil => rfl
  | cons message messages ih =>
    rw [receiveAll_cons, h message (.head _), ih fun m hm => h m (.tail _ hm)]
    rfl

end ControlChunks

/-- Transfers that are given a number and cancelled before their first chunk. -/
theorem sendAll_replicate {s : Sending} (hs : s.isChunked = true) (hqueued : s.queued = 0) (next : UInt64) (n : ℕ)
    (rest : List Sending) : sendAll next (replicate n s ++ rest) = sendAll (next + .ofNat n) rest := by
  induction n generalizing next with
  | zero =>
    have hzero : next + .ofNat 0 = next := UInt64.add_zero next
    rw [replicate_zero, nil_append, hzero]
  | succ n ih =>
    rw [replicate_succ, cons_append, sendAll, hqueued, hs, if_pos rfl, ih, take_zero, nil_append,
      UInt64.ofNat_add, UInt64.add_assoc, UInt64.add_comm 1]
    rfl

/-- A transfer is lost if the unfinished one before it has its number. -/
theorem receive_same_id {a z b : Sending} (ha : a.isChunked = true) (hbegun : a.queued ≠ 0)
    (hcut : a.isComplete = false) (hz : z.isChunked = true) (hquiet : z.queued = 0) (hb : b.isChunked = true)
    (hlen : a.payload.length ≠ b.payload.length) :
    (ControlChunks.receiveAll {} (sendAll 1 (a :: (replicate (2 ^ 64 - 1) z ++ [b])))).2 = [] := by
  have hnext : (1 : UInt64) + 1 + .ofNat (2 ^ 64 - 1) = 1 := rfl
  have hcut' : ¬ ((chunks controlChunkSize a.payload).take a.queued).flatten.length = a.payload.length := by
    rw [ControlChunks.length_flatten_take ha, hcut]
    exact Bool.false_ne_true
  obtain ⟨-, hhigh⟩ := of_decide_eq_true hb
  have htotal : b.payload.length < 256 ^ 8 := Nat.lt_of_le_of_lt hhigh (by decide)
  have hrefused : ∀ bytes, ∀ m ∈ (b.messages 1).take b.queued,
      ControlChunks.receive ⟨some ⟨1, a.payload.length, bytes⟩⟩ m = (⟨some ⟨1, a.payload.length, bytes⟩⟩, none) := by
    intro bytes message hmessage
    have hmessage := mem_of_mem_take hmessage
    rw [ControlChunks.messages_eq_outbound hb] at hmessage
    obtain ⟨k, hk, rfl⟩ := mem_map.mp hmessage
    obtain ⟨hid, hktotal, hbody, hoffset⟩ := ControlChunks.mem_chunksFrom hk
    rw [flatten_chunks (by decide), Nat.zero_add] at hoffset
    exact ControlChunks.receive_stale rfl hid.symm (by rwa [hktotal]) (by rwa [hktotal])
      (Nat.lt_of_le_of_lt hoffset htotal) ⟨ne_nil_of_mem_chunks hbody, length_le_of_mem_chunks hbody⟩
  rw [sendAll, ha, if_pos rfl, sendAll_replicate hz hquiet, hnext, sendAll, sendAll, append_nil,
    ControlChunks.receiveAll_append,
    ControlChunks.receive_begun ha hbegun fun t ht => absurd ht (Option.some_ne_none t).symm,
    ControlChunks.after, if_neg hcut', ControlChunks.receiveAll_refused (hrefused _)]
  rfl

/-- **Transfers with one number.**  A sender whose numbers have gone round once since an unfinished transfer. -/
theorem ids_run_out : ¬ ∀ sendings, (ControlChunks.receiveAll {} (sendAll 1 sendings)).2 =
    (sendings.filter Sending.isComplete).map Sending.payload := by
  intro h
  have hlength : ∀ n, (replicate n (0 : UInt8)).length = n := fun n ↦ length_replicate
  have hchunked : ∀ n queued, controlChunkSize < n → n ≤ maxControlTransfer →
      (⟨replicate n 0, queued⟩ : Sending).isChunked = true := by
    intro n queued hlow hhigh
    rw [Sending.isChunked, decide_eq_true_iff, hlength]
    exact ⟨hlow, hhigh⟩
  have ha := hchunked (controlChunkSize + 1) 1 (by decide) (by decide)
  have hz := hchunked (controlChunkSize + 1) 0 (by decide) (by decide)
  have hb := hchunked (controlChunkSize + 2) 2 (by decide) (by decide)
  have hcut : (⟨replicate (controlChunkSize + 1) 0, 1⟩ : Sending).isComplete = false := by
    rw [← Bool.not_eq_true, ← ControlChunks.length_flatten_take ha, flatten_take_chunks (by decide), length_take,
      hlength]
    decide
  have hwhole : (⟨replicate (controlChunkSize + 2) 0, 2⟩ : Sending).isComplete = true := by
    rw [← ControlChunks.length_flatten_take hb, flatten_take_chunks (by decide), length_take, hlength]
    decide
  have hlost := receive_same_id ha (by decide) hcut hz rfl hb (by simp only [hlength]; decide)
  rw [h] at hlost
  have hmem : replicate (controlChunkSize + 2) (0 : UInt8) ∈ ([] : List Bytes) := by
    rw [← hlost]
    exact mem_map.mpr ⟨_, mem_filter.mpr ⟨.tail _ (mem_append_right _ (.head _)), hwhole⟩, rfl⟩
  cases hmem

end NiumaTerm.Remote
