import NiumaTerm.Lib.Chunks
import NiumaTerm.Lib.Endian
import NiumaTerm.Lib.Interleaving
import NiumaTerm.Lib.Str
import Mathlib.Data.List.AList

/-!
# Frames of a channel

A message is cut into frames, and several streams share a channel.  A stream's frames change only what
waits for that stream, so it is enough to follow one (`feed_encodeMessage`).
-/

namespace NiumaTerm.Remote

open Rust Chunks Endian Interleaving List

def headerLen : ℕ := 6

def tagLen : ℕ := 16

def maxNoiseMessage : ℕ := 65535

def maxPlaintext : ℕ := maxNoiseMessage - tagLen

def maxPayload : ℕ := maxPlaintext - headerLen

/-- The largest message. -/
def maxMessage : ℕ := 32 * 1024 * 1024

def flagMore : UInt8 := 0x01

/-- The errors of a peer that breaks framing. -/
inductive FrameError
  | malformed (what : Str)
  | tooLarge (limit : ℕ)

structure Frame where
  stream : UInt32
  kind : UInt8
  flags : UInt8
  payload : Bytes

namespace Frame

/-- Its bytes in a channel. -/
def bytes (frame : Frame) : Bytes :=
  leBytes 4 frame.stream.toNat ++ [frame.kind, frame.flags] ++ frame.payload

def decode (bytes : Bytes) : Except FrameError Frame :=
  match bytes with
  | s₀ :: s₁ :: s₂ :: s₃ :: kind :: flags :: payload =>
    if maxPayload < payload.length then .error (.tooLarge maxPayload)
    else .ok ⟨.ofNat (ofLe [s₀, s₁, s₂, s₃]), kind, flags, payload⟩
  | _ => .error (.malformed "frame header".toList)

end Frame

/-- A message in frames, each with the mark that more come but the last. -/
def encodeMessage (stream : UInt32) (kind : UInt8) (message : Bytes) : List Bytes :=
  let parts := chunks maxPayload message
  let parts := if parts = [] then [[]] else parts
  parts.mapIdx fun index chunk =>
    (⟨stream, kind, if index == parts.length - 1 then 0 else flagMore, chunk⟩ : Frame).bytes

structure Message where
  stream : UInt32
  kind : UInt8
  payload : Bytes

/-- The messages of which more is to come: the stream's kind and the bytes so far. -/
structure Reassembler where
  partials : AList fun _ : UInt32 => UInt8 × Bytes := ∅

namespace Reassembler

/-- Add a frame.  An error closes the channel, so what the reassembler then has is not kept. -/
def push (r : Reassembler) (frame : Frame) : Except FrameError (Reassembler × Option Message) :=
  let held := r.partials.lookup frame.stream
  let rest := r.partials.erase frame.stream
  let (kind, payload) := held.getD (frame.kind, [])
  if kind ≠ frame.kind then .error (.malformed "fragment kind".toList)
  else if maxMessage < payload.length + frame.payload.length then .error (.tooLarge maxMessage)
  else if frame.flags &&& flagMore ≠ 0 then
    .ok (⟨rest.insert frame.stream (kind, payload ++ frame.payload)⟩, none)
  else .ok (⟨rest⟩, some ⟨frame.stream, kind, payload ++ frame.payload⟩)

/-- What a channel does with the bytes it has opened. -/
def receive (r : Reassembler) (bytes : Bytes) : Except FrameError (Reassembler × Option Message) :=
  match Frame.decode bytes with
  | .error e => .error e
  | .ok frame => r.push frame

end Reassembler

/-! ## One frame -/

namespace Frame

theorem length_bytes (frame : Frame) : frame.bytes.length = headerLen + frame.payload.length := by
  simp [bytes, headerLen]
  omega

theorem decode_bytes {frame : Frame} (h : frame.payload.length ≤ maxPayload) : decode frame.bytes = .ok frame := by
  have hs : frame.stream.toNat < 256 ^ 4 := frame.stream.toNat_lt
  have hstream : UInt32.ofNat (ofLe (leBytes 4 frame.stream.toNat)) = frame.stream := by
    rw [ofLe_leBytes hs, UInt32.ofNat_toNat]
  simp only [leBytes] at hstream
  simp only [bytes, leBytes, decode, cons_append, nil_append]
  rw [if_neg (Nat.not_lt.mpr h), hstream]

end Frame

/-! ## What waits for one stream -/

namespace Reassembler

def waiting (r : Reassembler) (stream : UInt32) : Option (UInt8 × Bytes) := r.partials.lookup stream

theorem partials_eq_empty {r : Reassembler} (h : ∀ stream, r.waiting stream = none) : r.partials = ∅ := by
  have hkeys : ∀ stream, stream ∉ r.partials := fun stream => AList.lookup_eq_none.mp (h stream)
  have hentries : r.partials.entries = [] := by
    refine eq_nil_iff_forall_not_mem.mpr fun entry hentry => hkeys entry.1 ?_
    exact mem_keys_of_mem hentry
  exact AList.ext hentries

end Reassembler

/-- What a frame does to the fragments that wait for its stream. -/
def pushAt (held : Option (UInt8 × Bytes)) (frame : Frame) :
    Except FrameError (Option (UInt8 × Bytes) × Option Message) :=
  let (kind, payload) := held.getD (frame.kind, [])
  if kind ≠ frame.kind then .error (.malformed "fragment kind".toList)
  else if maxMessage < payload.length + frame.payload.length then .error (.tooLarge maxMessage)
  else if frame.flags &&& flagMore ≠ 0 then .ok (some (kind, payload ++ frame.payload), none)
  else .ok (none, some ⟨frame.stream, kind, payload ++ frame.payload⟩)

/-- What a channel does with bytes that should be a frame of the stream. -/
def receiveAt (stream : UInt32) (held : Option (UInt8 × Bytes)) (bytes : Bytes) :
    Except FrameError (Option (UInt8 × Bytes) × Option Message) :=
  match Frame.decode bytes with
  | .error e => .error e
  | .ok frame => if frame.stream = stream then pushAt held frame else .error (.malformed [])

theorem Reassembler.push_of_pushAt {r : Reassembler} {frame : Frame} {held : Option (UInt8 × Bytes)}
    {answer : Option Message} (h : pushAt (r.waiting frame.stream) frame = .ok (held, answer)) :
    ∃ r', r.push frame = .ok (r', answer) ∧
      r'.waiting = Function.update r.waiting frame.stream held := by
  unfold pushAt at h
  unfold Reassembler.push
  split at h
  rename_i kind payload hheld
  dsimp only [Reassembler.waiting] at hheld ⊢
  rw [hheld]
  dsimp only
  split at h
  · cases h
  · rename_i hkind
    rw [if_neg hkind]
    split at h
    · cases h
    · rename_i hlen
      rw [if_neg hlen]
      split at h
      · rename_i hmore
        cases h
        rw [if_pos hmore]
        refine ⟨_, rfl, funext fun s => ?_⟩
        by_cases hs : s = frame.stream
        · subst hs
          rw [Reassembler.waiting, AList.lookup_insert, Function.update_self]
        · rw [Reassembler.waiting, AList.lookup_insert_ne hs, AList.lookup_erase_ne hs, Function.update_of_ne hs,
            Reassembler.waiting]
      · rename_i hlast
        cases h
        rw [if_neg hlast]
        refine ⟨_, rfl, funext fun s => ?_⟩
        by_cases hs : s = frame.stream
        · subst hs
          rw [Reassembler.waiting, AList.lookup_erase, Function.update_self]
        · rw [Reassembler.waiting, AList.lookup_erase_ne hs, Function.update_of_ne hs, Reassembler.waiting]

/-- Streams do not disturb each other. -/
theorem Reassembler.receive_of_receiveAt {r : Reassembler} {stream : UInt32} {bytes : Bytes}
    {held : Option (UInt8 × Bytes)} {answer : Option Message}
    (h : receiveAt stream (r.waiting stream) bytes = .ok (held, answer)) :
    ∃ r', r.receive bytes = .ok (r', answer) ∧
      r'.waiting = Function.update r.waiting stream held := by
  unfold receiveAt at h
  unfold Reassembler.receive
  split at h
  · cases h
  · split at h
    · rename_i hs
      subst hs
      exact Reassembler.push_of_pushAt h
    · cases h

/-! ## One message -/

section

variable {kind : UInt8} {held : Option (UInt8 × Bytes)} {acc chunk message : Bytes}

theorem receiveAt_eq (stream : UInt32) (flags : UInt8) (hheld : held.getD (kind, []) = (kind, acc))
    (hlen : acc.length + chunk.length ≤ maxMessage) (hchunk : chunk.length ≤ maxPayload) :
    receiveAt stream held (⟨stream, kind, flags, chunk⟩ : Frame).bytes =
      if flags &&& flagMore ≠ 0 then .ok (some (kind, acc ++ chunk), none)
      else .ok (none, some ⟨stream, kind, acc ++ chunk⟩) := by
  rw [receiveAt, Frame.decode_bytes hchunk]
  dsimp only
  rw [if_pos rfl, pushAt]
  dsimp only
  rw [hheld]
  dsimp only
  rw [if_neg (not_not.mpr rfl), if_neg (Nat.not_lt.mpr hlen)]

/-- The frames but the last are kept together. -/
theorem feed_more (stream : UInt32) {init : List Bytes} (hheld : held.getD (kind, []) = (kind, acc))
    (hlen : acc.length + init.flatten.length ≤ maxMessage) (hinit : ∀ c ∈ init, c.length ≤ maxPayload) :
    ∃ held', feed (receiveAt stream) held (init.map fun c => (⟨stream, kind, flagMore, c⟩ : Frame).bytes) =
      .ok (held', []) ∧ held'.getD (kind, []) = (kind, acc ++ init.flatten) := by
  induction init generalizing held acc with
  | nil => exact ⟨held, rfl, by rw [flatten_nil, append_nil, hheld]⟩
  | cons c init ih =>
    rw [flatten_cons, length_append] at hlen
    have hpush := receiveAt_eq stream flagMore hheld (Nat.le_trans (by omega) hlen) (hinit c (.head _))
    rw [if_pos (by decide)] at hpush
    have hkept : (some (kind, acc ++ c)).getD (kind, []) = (kind, acc ++ c) := rfl
    obtain ⟨held', hfeed, hheld'⟩ := ih hkept
      (by rw [length_append]; omega) fun c' hc' => hinit c' (.tail _ hc')
    refine ⟨held', ?_, ?_⟩
    · rw [map_cons]
      exact feed_cons hpush hfeed
    · rw [hheld', flatten_cons, append_assoc]

/-- A message in frames: what it is made of, and the marks. -/
theorem encodeMessage_eq (stream : UInt32) (kind : UInt8) (message : Bytes) :
    ∃ init last, init.flatten ++ last = message ∧ (∀ c ∈ init ++ [last], c.length ≤ maxPayload) ∧
      encodeMessage stream kind message =
        (init.map fun c => (⟨stream, kind, flagMore, c⟩ : Frame).bytes) ++ [(⟨stream, kind, 0, last⟩ : Frame).bytes] := by
  have hpos : 0 < maxPayload := by decide
  set parts := if chunks maxPayload message = [] then [[]] else chunks maxPayload message with hparts
  have hne : parts ≠ [] := by
    rw [hparts]
    split
    · exact cons_ne_nil [] []
    · assumption
  have hflat : parts.flatten = message := by
    rw [hparts]
    split
    · rename_i hnil
      rw [← flatten_chunks hpos (l := message), hnil]
      rfl
    · exact flatten_chunks hpos
  have hlen : ∀ c ∈ parts, c.length ≤ maxPayload := by
    rw [hparts]
    split
    · intro c hc
      rw [mem_singleton.mp hc]
      exact Nat.zero_le _
    · exact fun c hc => length_le_of_mem_chunks hc
  have hsplit : parts.dropLast ++ [parts.getLast hne] = parts := dropLast_append_getLast hne
  refine ⟨parts.dropLast, parts.getLast hne, ?_, by rwa [hsplit], ?_⟩
  · rw [← hflat]
    conv_rhs => rw [← hsplit, flatten_append, flatten_singleton]
  · have hmark := mapIdx_mark_last
      (fun last c => (⟨stream, kind, if last then 0 else flagMore, c⟩ : Frame).bytes) parts.dropLast
      (parts.getLast hne)
    rw [hsplit] at hmark
    exact hmark

theorem encodeMessage_of_le (stream : UInt32) (kind : UInt8) (message : Bytes) (h : message.length ≤ maxPayload) :
    encodeMessage stream kind message = [(⟨stream, kind, 0, message⟩ : Frame).bytes] := by
  have hparts : (if chunks maxPayload message = [] then [[]] else chunks maxPayload message) = [message] := by
    by_cases hm : message = []
    · rw [hm, chunks_nil, if_pos rfl]
    · rw [chunks_eq_singleton hm h, if_neg (cons_ne_nil message [])]
  rw [encodeMessage, hparts]
  rfl

theorem length_le_of_mem_encodeMessage {stream : UInt32} {frame : Bytes}
    (h : frame ∈ encodeMessage stream kind message) :
    frame.length ≤ maxPlaintext := by
  obtain ⟨init, last, -, hlen, henc⟩ := encodeMessage_eq stream kind message
  rw [henc] at h
  have hbound : ∀ flags c, c ∈ init ++ [last] → (⟨stream, kind, flags, c⟩ : Frame).bytes.length ≤ maxPlaintext := by
    intro flags c hc
    rw [Frame.length_bytes]
    have htotal : headerLen + maxPayload = maxPlaintext := by decide
    rw [← htotal]
    exact Nat.add_le_add_left (hlen c hc) headerLen
  rcases mem_append.mp h with h | h
  · obtain ⟨c, hc, rfl⟩ := mem_map.mp h
    exact hbound _ c (mem_append_left _ hc)
  · rw [mem_singleton.mp h]
    exact hbound _ last (mem_append_right _ (.head _))

/-- A message comes out of its frames. -/
theorem feed_encodeMessage {stream : UInt32} (h : message.length ≤ maxMessage) :
    feed (receiveAt stream) none (encodeMessage stream kind message) = .ok (none, [⟨stream, kind, message⟩]) := by
  obtain ⟨init, last, rfl, hlen, henc⟩ := encodeMessage_eq stream kind message
  rw [length_append] at h
  have hnone : (none : Option (UInt8 × Bytes)).getD (kind, []) = (kind, []) := rfl
  obtain ⟨held, hinit, hheld⟩ := feed_more stream hnone (by rw [length_nil]; omega)
    fun c hc => hlen c (mem_append_left _ hc)
  have hlast := receiveAt_eq stream 0 hheld (by rwa [nil_append])
    (hlen last (mem_append_right _ (.head _)))
  rw [if_neg (by decide)] at hlast
  rw [henc]
  exact feed_append hinit (feed_cons hlast feed_nil)

end

/-- The messages of a stream come out of their frames. -/
theorem feed_messages {stream : UInt32} {messages : List (UInt8 × Bytes)}
    (h : ∀ m ∈ messages, m.2.length ≤ maxMessage) :
    feed (receiveAt stream) none (messages.flatMap fun m => encodeMessage stream m.1 m.2) =
      .ok (none, messages.map fun m => ⟨stream, m.1, m.2⟩) := by
  induction messages with
  | nil => rfl
  | cons m messages ih =>
    rw [flatMap_cons, map_cons]
    exact feed_append (feed_encodeMessage (h m (.head _))) (ih fun m' hm' => h m' (.tail _ hm'))

/-- **The messages of every stream come out of its frames, whatever turns the streams take.** -/
theorem frames_reassemble {messages : UInt32 → List (UInt8 × Bytes)}
    (hlen : ∀ stream, ∀ m ∈ messages stream, m.2.length ≤ maxMessage) {wire : List Bytes}
    (hwire : Interleaves (fun stream ↦ (messages stream).flatMap fun m ↦ encodeMessage stream m.1 m.2) wire) :
    (∀ frame ∈ wire, frame.length ≤ maxPlaintext) ∧
      ∃ r received, feed Reassembler.receive {} wire = .ok (r, received) ∧ r.partials = ∅ ∧
        Interleaves (fun stream ↦ (messages stream).map fun m ↦ (⟨stream, m.1, m.2⟩ : Message)) received := by
  refine ⟨?_, ?_⟩
  · intro frame hframe
    obtain ⟨stream, hframe⟩ := hwire.mem hframe
    obtain ⟨m, -, hframe⟩ := mem_flatMap.mp hframe
    exact length_le_of_mem_encodeMessage hframe
  · have hstreams : ∀ stream, feed (receiveAt stream) (Reassembler.waiting {} stream)
        ((messages stream).flatMap fun m ↦ encodeMessage stream m.1 m.2) =
          .ok (none, (messages stream).map fun m ↦ ⟨stream, m.1, m.2⟩) := fun stream ↦ feed_messages (hlen stream)
    obtain ⟨r, received, hfeed, hwaiting, hreceived⟩ :=
      hwire.feed Reassembler.waiting (fun _ _ _ _ _ ↦ Reassembler.receive_of_receiveAt) hstreams
    exact ⟨r, received, hfeed, Reassembler.partials_eq_empty (congrFun hwaiting), hreceived⟩

theorem frames_reassemble_two :
    ∃ r received, feed Reassembler.receive {}
        [(⟨2, 0x12, 0, [108, 115]⟩ : Frame).bytes, (⟨1, 0x11, 0, [104]⟩ : Frame).bytes] = .ok (r, received) ∧
      r.partials = ∅ := by
  have hlen : ∀ stream : UInt32, ∀ m ∈ (if stream = 1 then [(0x11, [104])] else if stream = 2 then [(0x12, [108, 115])]
      else [] : List (UInt8 × Bytes)), m.2.length ≤ maxMessage := by
    intro stream m hm
    split at hm
    · rw [mem_singleton.mp hm]
      decide
    · split at hm
      · rw [mem_singleton.mp hm]
        decide
      · cases hm
  have hwire := ((Interleaves.nil (K := UInt32)).cons 1 (⟨1, 0x11, 0, [104]⟩ : Frame).bytes).cons 2
    (⟨2, 0x12, 0, [108, 115]⟩ : Frame).bytes
  obtain ⟨-, r, received, hfeed, hr, -⟩ := frames_reassemble hlen (by
    convert hwire using 2 with stream
    by_cases h₂ : stream = 2
    · subst h₂
      rw [if_neg (by decide), if_pos rfl, Function.update_self, flatMap_singleton,
        encodeMessage_of_le 2 0x12 [108, 115] (by decide)]
      rfl
    · rw [Function.update_of_ne h₂, if_neg h₂]
      by_cases h₁ : stream = 1
      · subst h₁
        rw [if_pos rfl, Function.update_self, flatMap_singleton, encodeMessage_of_le 1 0x11 [104] (by decide)]
      · rw [Function.update_of_ne h₁, if_neg h₁]
        rfl)
  exact ⟨r, received, hfeed, hr⟩

/-! ## Whatever arrives -/

/-- The bytes that wait for a stream. -/
def Reassembler.held (r : Reassembler) (stream : UInt32) : Bytes := ((r.waiting stream).map Prod.snd).getD []

theorem Reassembler.push_ok {r r' : Reassembler} {frame : Frame} {answer : Option Message}
    (h : r.push frame = .ok (r', answer)) : (r.held frame.stream ++ frame.payload).length ≤ maxMessage ∧
      (answer = none ∧ r'.held = Function.update r.held frame.stream (r.held frame.stream ++ frame.payload) ∨
        r'.held = Function.update r.held frame.stream [] ∧
          ∃ kind, answer = some ⟨frame.stream, kind, r.held frame.stream ++ frame.payload⟩) := by
  have hheld : r.held frame.stream = ((r.partials.lookup frame.stream).getD (frame.kind, [])).2 := by
    rw [held, waiting]
    cases r.partials.lookup frame.stream <;> rfl
  rw [push] at h
  dsimp only at h
  rw [← hheld] at h
  split at h
  · cases h
  split at h
  · cases h
  next hlen =>
  refine ⟨by rw [length_append]; omega, ?_⟩
  have hrest {stream : UInt32} (hs : stream ≠ frame.stream) :
      AList.lookup stream (r.partials.erase frame.stream) = r.partials.lookup stream := AList.lookup_erase_ne hs
  split at h <;> cases h
  · exact .inl ⟨rfl, Function.eq_update_iff.mpr ⟨by simp [held, waiting], fun stream hs => by
      simp [held, waiting, AList.lookup_insert_ne hs, hrest hs]⟩⟩
  · exact .inr ⟨Function.eq_update_iff.mpr ⟨by simp [held, waiting], fun stream hs => by
      simp [held, waiting, hrest hs]⟩, _, rfl⟩

/-- **Nothing is lost, doubled or moved to another stream,** whatever a peer sends, and what waits is bounded. -/
theorem frames_conserved {wire : List Bytes} {r r' : Reassembler} {messages : List Message}
    (h : feed Reassembler.receive r wire = .ok (r', messages)) (hr : ∀ stream, (r.held stream).length ≤ maxMessage) :
    ∃ frames, Forall₂ (fun bytes frame => Frame.decode bytes = .ok frame) wire frames ∧
      (∀ stream, (messages.filter (·.stream = stream)).flatMap Message.payload ++ r'.held stream =
        r.held stream ++ (frames.filter (·.stream = stream)).flatMap Frame.payload) ∧
      (∀ stream, (r'.held stream).length ≤ maxMessage) ∧ ∀ m ∈ messages, m.payload.length ≤ maxMessage := by
  induction wire generalizing r messages with
  | nil =>
    cases h
    exact ⟨[], .nil, by simp, hr, by simp⟩
  | cons bytes wire ih =>
    obtain ⟨mid, answer, later, hreceive, hrest, rfl⟩ := feed_cons_eq_ok h
    rw [Reassembler.receive] at hreceive
    split at hreceive
    · cases hreceive
    next frame hframe =>
    obtain ⟨hlen, hpush⟩ := Reassembler.push_ok hreceive
    have hmid : ∀ stream, (mid.held stream).length ≤ maxMessage := by
      intro stream
      by_cases hs : stream = frame.stream
      · rcases hpush with ⟨-, hheld⟩ | ⟨hheld, -⟩ <;> simp_all
      · rcases hpush with ⟨-, hheld⟩ | ⟨hheld, -⟩ <;> simp [hheld, hs, hr]
    obtain ⟨frames, hdecode, hbytes, hheld, hmessages⟩ := ih hrest hmid
    refine ⟨frame :: frames, .cons hframe hdecode, fun stream => ?_, hheld, fun m hm => ?_⟩
    · rw [filter_append, flatMap_append, append_assoc, hbytes]
      by_cases hs : stream = frame.stream
      · rcases hpush with ⟨rfl, hheld⟩ | ⟨hheld, kind, rfl⟩ <;> simp [hheld, hs]
      · have hne : frame.stream ≠ stream := Ne.symm hs
        rcases hpush with ⟨rfl, hheld⟩ | ⟨hheld, kind, rfl⟩ <;> simp [hheld, hs, hne]
    · rcases mem_append.mp hm with hm | hm
      · rcases hpush with ⟨rfl, -⟩ | ⟨-, kind, rfl⟩
        · cases hm
        · rw [mem_singleton.mp hm]
          exact hlen
      · exact hmessages m hm

theorem frames_conserved_more : ∃ r, feed Reassembler.receive {} [[1, 0, 0, 0, 0x11, 1, 104]] = .ok (r, []) ∧
    (r.held 1).length ≤ maxMessage := by
  have h : feed Reassembler.receive {} [[1, 0, 0, 0, 0x11, 1, 104]] = .ok (_, []) := rfl
  obtain ⟨-, -, -, hheld, -⟩ := frames_conserved h fun _ => Nat.zero_le _
  exact ⟨_, h, hheld 1⟩

end NiumaTerm.Remote
