import NiumaTerm.Lib.Endian
import NiumaTerm.Lib.History
import NiumaTerm.Lib.Transition
import Mathlib.Data.List.Basic
import Mathlib.Data.List.TakeWhile

/-!
# Output of a session to a remote view

A view that falls behind has output dropped, and a checkpoint in its place once it has caught up.
`NoGap`: after a checkpoint the view has all output up to the first that is dropped, and then none until
the next checkpoint, if checkpoints succeed (`gap_after_failed_checkpoint`).
-/

namespace NiumaTerm.Remote

open Endian Transition History List

def highWater : ℕ := 1024 * 1024

def lowWater : ℕ := 256 * 1024

namespace StreamKind

def checkpoint : UInt8 := 0x10

def output : UInt8 := 0x11

def exit : UInt8 := 0x13

def size : UInt8 := 0x14

end StreamKind

inductive FlowState
  | live
  /-- Output is discarded until the backlog drains. -/
  | dropping
  /-- A checkpoint was requested. -/
  | resyncing
  deriving DecidableEq

/-- A message of the stream, and whether the flow hears when it is sent. -/
structure StreamMessage where
  kind : UInt8
  payload : Bytes
  hooked : Bool
  deriving DecidableEq

/-- `StreamFlow` and the channel's queue.  `queue` is all that was ever queued and `sent` how much of it has left;
`hook` is the backlog that a send hook has read and not yet acted on. -/
structure StreamFlow where
  pending : ℕ := 0
  state : FlowState := .resyncing
  closed : Bool := false
  queueOpen : Bool := true
  queue : List StreamMessage := []
  sent : ℕ := 0
  hook : Option ℕ := none
  /-- `Msg::Checkpoint`s on their way to the PTY loop. -/
  requests : ℕ := 0

namespace StreamFlow

/-- `SendQueue::send`. -/
def send (f : StreamFlow) (message : StreamMessage) : StreamFlow × Bool :=
  if f.queueOpen then ({ f with queue := f.queue ++ [message] }, true) else (f, false)

def enqueue (f : StreamFlow) (kind : UInt8) (payload : Bytes) : StreamFlow × Bool :=
  send { f with pending := f.pending + payload.length } ⟨kind, payload, true⟩

/-- Whether the subscriber stays, beside what becomes of the flow. -/
def onOutput (f : StreamFlow) (bytes : Bytes) : StreamFlow × Bool :=
  if f.closed || !f.queueOpen then (f, false)
  else if f.state ≠ .live then (f, true)
  else if highWater < f.pending + bytes.length then ({ f with state := .dropping }, true)
  else f.enqueue StreamKind.output bytes

/-- The callback of `checkpoint_request`. -/
def checkpointed (f : StreamFlow) (result : Option Bytes) : StreamFlow :=
  { (match result with
    | some vt => (f.enqueue StreamKind.checkpoint vt).1
    | none => f) with
    state := .live }

/-- The first half of `sent`: the backlog without the bytes. -/
def sentBytes (f : StreamFlow) (bytes : ℕ) : StreamFlow :=
  { f with pending := f.pending - bytes, hook := some (f.pending - bytes) }

/-- The second half of `sent`, under the lock. -/
def sentState (f : StreamFlow) (pending : ℕ) : StreamFlow :=
  if f.state = .dropping ∧ pending < lowWater then
    { f with state := .resyncing, hook := none, requests := f.requests + 1 }
  else { f with hook := none }

/-- `Exit::default()` as JSON: an object whose `code` is null. -/
def exitPayload : Bytes := [0x7b, 0x22, 0x63, 0x6f, 0x64, 0x65, 0x22, 0x3a, 0x6e, 0x75, 0x6c, 0x6c, 0x7d]

/-- The end of the subscriber. -/
def exitNotice (f : StreamFlow) : StreamFlow :=
  if f.closed then f else (f.send ⟨StreamKind.exit, exitPayload, false⟩).1

end StreamFlow

/-- What the PTY loop and the channel do with the stream.  A checkpoint is `none` when the engine could not make it. -/
inductive StreamAction
  | subscribe (checkpoint : Option Bytes)
  | output (bytes : Bytes)
  | checkpoint (result : Option Bytes)
  /-- The loop ends. -/
  | ended
  /-- The next message is sent, up to the lock in `sent`. -/
  | sent
  | hooked
  | size (payload : Bytes)
  | close
  | closeQueue

/-- The stream of a view: `attached` once the loop has taken `Msg::Subscribe`, `subscribed` while it has the sink. -/
structure Stream where
  flow : StreamFlow := {}
  attached : Bool := false
  subscribed : Bool := false
  ended : Bool := false

namespace Stream

/-- The loop drops the sink. -/
def unsubscribe (s : Stream) : Stream := { s with flow := s.flow.exitNotice, subscribed := false }

def perform (s : Stream) : StreamAction → Option Stream
  | .subscribe checkpoint =>
    if s.attached || s.ended then none
    else
      let s := { s with flow := s.flow.checkpointed checkpoint, attached := true }
      if checkpoint.isSome then some { s with subscribed := true } else some s.unsubscribe
  | .output bytes =>
    if s.ended then none
    else if s.subscribed then
      let s' := { s with flow := (s.flow.onOutput bytes).1 }
      if (s.flow.onOutput bytes).2 then some s' else some s'.unsubscribe
    else some s
  | .checkpoint result =>
    if s.ended || s.flow.requests == 0 then none
    else some { s with flow := { s.flow.checkpointed result with requests := s.flow.requests - 1 } }
  | .ended =>
    if s.ended then none
    else some { (if s.subscribed then s.unsubscribe else s) with ended := true }
  | .sent =>
    match s.flow.hook, s.flow.queue[s.flow.sent]? with
    | none, some message =>
      let flow := { s.flow with sent := s.flow.sent + 1 }
      some { s with flow := if message.hooked then flow.sentBytes message.payload.length else flow }
    | _, _ => none
  | .hooked => s.flow.hook.map fun pending => { s with flow := s.flow.sentState pending }
  | .size payload => some { s with flow := (s.flow.send ⟨StreamKind.size, payload, false⟩).1 }
  | .close => some { s with flow := { s.flow with closed := true } }
  | .closeQueue => some { s with flow := { s.flow with queueOpen := false } }

end Stream

/-- An action, and whether it queued a message. -/
abbrev StreamEvent := StreamAction × Bool

/-- A view's stream. -/
def streamSystem : System Stream StreamEvent where
  init s := s = {}
  step s e s' := s.perform e.1 = some s' ∧ e.2 = decide (s'.flow.queue ≠ s.flow.queue)

namespace StreamEvent

/-- Output of the session. -/
def output (e : StreamEvent) : Option Bytes :=
  match e.1 with
  | .output bytes => some bytes
  | _ => none

def IsDrop (e : StreamEvent) : Prop := e.2 = false ∧ e.output.isSome

instance : DecidablePred IsDrop := fun e => inferInstanceAs (Decidable (e.2 = false ∧ e.output.isSome))

def IsQueuedOutput (e : StreamEvent) : Prop := e.2 = true ∧ e.output.isSome

/-- A `CHECKPOINT` is queued. -/
def IsCheckpoint (e : StreamEvent) : Prop :=
  e.2 = true ∧ ∃ vt, e.1 = .subscribe (some vt) ∨ e.1 = .checkpoint (some vt)

def queuedOutput (e : StreamEvent) : Option Bytes := if e.2 then e.output else none

def message (e : StreamEvent) : Option StreamMessage :=
  if e.2 then
    match e.1 with
    | .subscribe (some vt) => some ⟨StreamKind.checkpoint, vt, true⟩
    | .checkpoint (some vt) => some ⟨StreamKind.checkpoint, vt, true⟩
    | .output bytes => some ⟨StreamKind.output, bytes, true⟩
    | .size payload => some ⟨StreamKind.size, payload, false⟩
    | _ => some ⟨StreamKind.exit, StreamFlow.exitPayload, false⟩
  else none

end StreamEvent

/-! ## One step -/

namespace StreamFlow

variable {f : StreamFlow} {m : StreamMessage} {bytes : Bytes} {result : Option Bytes}

theorem send_queue (f : StreamFlow) (m : StreamMessage) :
    (f.send m).1.queue = if f.queueOpen then f.queue ++ [m] else f.queue := by
  unfold send
  split <;> rfl

theorem send_snd (f : StreamFlow) (m : StreamMessage) : (f.send m).2 = f.queueOpen := by
  unfold send
  cases f.queueOpen <;> rfl

@[simp] theorem send_state : (f.send m).1.state = f.state := by
  unfold send
  split <;> rfl

@[simp] theorem send_closed : (f.send m).1.closed = f.closed := by
  unfold send
  split <;> rfl

@[simp] theorem send_queueOpen : (f.send m).1.queueOpen = f.queueOpen := by
  unfold send
  split <;> rfl

theorem exitNotice_queue (f : StreamFlow) :
    f.exitNotice.queue = if !f.closed && f.queueOpen then f.queue ++ [⟨StreamKind.exit, exitPayload, false⟩]
      else f.queue := by
  unfold exitNotice
  cases hc : f.closed with
  | true => rfl
  | false => simp [send_queue]

/-- What a batch of output does: it is queued, or it is not and then the flow is not live. -/
theorem onOutput_cases (f : StreamFlow) (bytes : Bytes) :
    ((f.onOutput bytes).1.queue = f.queue ++ [⟨StreamKind.output, bytes, true⟩] ∧ (f.onOutput bytes).2 = true ∧
        f.state = .live ∧ f.closed = false ∧ f.queueOpen = true) ∨
      ((f.onOutput bytes).1.queue = f.queue ∧ ((f.onOutput bytes).2 = false ∧ (f.closed = true ∨ f.queueOpen = false) ∧
          (f.onOutput bytes).1 = f ∨
        (f.onOutput bytes).2 = true ∧ (f.onOutput bytes).1.state ≠ .live)) := by
  unfold onOutput
  split
  · rename_i h
    rw [Bool.or_eq_true, Bool.not_eq_true'] at h
    exact .inr ⟨rfl, .inl ⟨rfl, h, rfl⟩⟩
  · rename_i h
    obtain ⟨hclosed, hopen⟩ : f.closed = false ∧ f.queueOpen = true := by simpa using h
    split
    · rename_i hstate
      exact .inr ⟨rfl, .inr ⟨rfl, hstate⟩⟩
    · rename_i hstate
      split
      · exact .inr ⟨rfl, .inr ⟨rfl, by simp⟩⟩
      · refine .inl ⟨?_, ?_, not_not.mp hstate, hclosed, hopen⟩
        · rw [enqueue, send_queue]
          exact if_pos hopen
        · rw [enqueue, send_snd]
          exact hopen

theorem checkpointed_queue (f : StreamFlow) (vt : Bytes) :
    (f.checkpointed (some vt)).queue =
      if f.queueOpen then f.queue ++ [⟨StreamKind.checkpoint, vt, true⟩] else f.queue :=
  send_queue ..

end StreamFlow

namespace Stream

variable {s s' : Stream} {a : StreamAction} {e : StreamEvent}

/-- An action queues its message or none. -/
theorem perform_queue (h : s.perform a = some s') :
    s'.flow.queue = s.flow.queue ∨
      ∃ m, StreamEvent.message (a, true) = some m ∧ s'.flow.queue = s.flow.queue ++ [m] := by
  have hsend : ∀ (f : StreamFlow) m, (f.send m).1.queue = f.queue ∨ (f.send m).1.queue = f.queue ++ [m] := by
    intro f m
    rw [StreamFlow.send_queue]
    cases f.queueOpen
    · exact .inl rfl
    · exact .inr rfl
  have hexit : ∀ f : StreamFlow, f.exitNotice.queue = f.queue ∨
      f.exitNotice.queue = f.queue ++ [⟨StreamKind.exit, StreamFlow.exitPayload, false⟩] := by
    intro f
    unfold StreamFlow.exitNotice
    split
    · exact .inl rfl
    · exact hsend ..
  cases a with
  | subscribe checkpoint =>
    rw [perform] at h
    split at h
    · cases h
    · cases checkpoint with
      | none =>
        cases h
        exact (hexit _).imp id fun hq => ⟨_, rfl, hq⟩
      | some vt =>
        cases h
        exact (hsend _ _).imp id fun hq => ⟨_, rfl, hq⟩
  | output bytes =>
    rw [perform] at h
    split at h
    · cases h
    · split at h
      · rcases s.flow.onOutput_cases bytes with ⟨hq, hkeep, -⟩ | ⟨hq, ⟨hkeep, hclosed, hsame⟩ | ⟨hkeep, -⟩⟩
        · rw [hkeep] at h
          cases h
          exact .inr ⟨_, rfl, hq⟩
        · rw [hkeep] at h
          cases h
          left
          change (s.flow.onOutput bytes).1.exitNotice.queue = _
          rw [hsame, StreamFlow.exitNotice_queue]
          rcases hclosed with hclosed | hclosed
          · rw [hclosed]
            rfl
          · rw [hclosed, Bool.and_false]
            rfl
        · rw [hkeep] at h
          cases h
          exact .inl hq
      · cases h
        exact .inl rfl
  | checkpoint result =>
    rw [perform] at h
    split at h
    · cases h
    · cases result with
      | none =>
        cases h
        exact .inl rfl
      | some vt =>
        cases h
        exact (hsend _ _).imp id fun hq => ⟨_, rfl, hq⟩
  | ended =>
    rw [perform] at h
    split at h
    · cases h
    · cases h
      cases s.subscribed with
      | true => exact (hexit _).imp id fun hq => ⟨_, rfl, hq⟩
      | false => exact .inl rfl
  | sent =>
    rw [perform] at h
    split at h
    · rename_i message _ _
      cases h
      cases message.hooked
      · exact .inl rfl
      · exact .inl rfl
    · cases h
  | hooked =>
    obtain ⟨pending, -, rfl⟩ := Option.map_eq_some_iff.mp h
    left
    change (s.flow.sentState pending).queue = _
    unfold StreamFlow.sentState
    split <;> rfl
  | size payload =>
    cases h
    exact (hsend _ _).imp id fun hq => ⟨_, rfl, hq⟩
  | close | closeQueue =>
    cases h
    exact .inl rfl

/-- Output goes to the view. -/
structure IsLive (s : Stream) : Prop where
  subscribed : s.subscribed = true
  closed : s.flow.closed = false
  queueOpen : s.flow.queueOpen = true
  state : s.flow.state = .live

/-- A view is there to hear what the stream queues. -/
structure IsHeard (s : Stream) : Prop where
  subscribed : s.subscribed = true
  closed : s.flow.closed = false
  queueOpen : s.flow.queueOpen = true

/-- Only the end of a checkpoint makes a stream live, and output that a live stream does not queue makes it not live. -/
theorem perform_isLive (h : s.perform a = some s') (hlive : s'.IsLive) :
    (∃ vt, (a = .subscribe (some vt) ∨ a = .checkpoint (some vt)) ∧
      s'.flow.queue = s.flow.queue ++ [⟨StreamKind.checkpoint, vt, true⟩]) ∨
    (a = .checkpoint none ∧ s.IsHeard) ∨
    s.IsLive ∧ ∀ bytes, a = .output bytes → s'.flow.queue = s.flow.queue ++ [⟨StreamKind.output, bytes, true⟩] := by
  obtain ⟨hsub, hclosed, hopen, hstate⟩ := hlive
  cases a with
  | subscribe checkpoint =>
    rw [perform] at h
    split at h
    · cases h
    · cases checkpoint with
      | none =>
        cases h
        cases hsub
      | some vt =>
        cases h
        have hopen' : s.flow.queueOpen = true := by
          simpa [StreamFlow.checkpointed, StreamFlow.enqueue] using hopen
        exact .inl ⟨vt, .inl rfl, (StreamFlow.checkpointed_queue ..).trans (if_pos hopen')⟩
  | output bytes =>
    right; right
    rw [perform] at h
    split at h
    · cases h
    · split at h
      · rename_i hs
        rcases s.flow.onOutput_cases bytes with ⟨hq, hkeep, hlive⟩ | ⟨hq, ⟨hkeep, -⟩ | ⟨hkeep, hnot⟩⟩
        · rw [hkeep] at h
          cases h
          refine ⟨⟨hs, hlive.2.1, hlive.2.2, hlive.1⟩, ?_⟩
          rintro _ ⟨⟩
          exact hq
        · rw [hkeep] at h
          cases h
          cases hsub
        · rw [hkeep] at h
          cases h
          exact absurd hstate hnot
      · rename_i hs
        cases h
        exact absurd hsub hs
  | checkpoint result =>
    rw [perform] at h
    split at h
    · cases h
    · cases result with
      | none =>
        cases h
        exact .inr (.inl ⟨rfl, hsub, hclosed, hopen⟩)
      | some vt =>
        cases h
        have hopen' : s.flow.queueOpen = true := by
          simpa [StreamFlow.checkpointed, StreamFlow.enqueue] using hopen
        exact .inl ⟨vt, .inr rfl, (StreamFlow.checkpointed_queue ..).trans (if_pos hopen')⟩
  | ended =>
    rw [perform] at h
    split at h
    · cases h
    · cases h
      cases hs : s.subscribed with
      | true =>
        rw [hs] at hsub
        cases hsub
      | false =>
        rw [hs] at hsub
        exact absurd (hs.symm.trans hsub) Bool.false_ne_true
  | sent =>
    rw [perform] at h
    split at h
    · rename_i message _ _
      cases h
      refine .inr (.inr ⟨?_, fun bytes hb => StreamAction.noConfusion hb⟩)
      cases hm : message.hooked <;> rw [hm] at hclosed hopen hstate <;> exact ⟨hsub, hclosed, hopen, hstate⟩
    · cases h
  | hooked =>
    obtain ⟨pending, -, rfl⟩ := Option.map_eq_some_iff.mp h
    refine .inr (.inr ⟨?_, fun bytes hb => StreamAction.noConfusion hb⟩)
    dsimp only at hsub hclosed hopen hstate
    unfold StreamFlow.sentState at hclosed hopen hstate
    split at hstate
    · cases hstate
    · rename_i hnot
      rw [if_neg hnot] at hclosed hopen
      exact ⟨hsub, hclosed, hopen, hstate⟩
  | size payload =>
    cases h
    refine .inr (.inr ⟨⟨hsub, ?_, ?_, ?_⟩, fun bytes hb => StreamAction.noConfusion hb⟩)
    · simpa using hclosed
    · simpa using hopen
    · simpa using hstate
  | close =>
    cases h
    cases hclosed
  | closeQueue =>
    cases h
    cases hopen

/-- Output is queued on a live stream only. -/
theorem perform_output {bytes : Bytes} (h : s.perform (.output bytes) = some s') (hq : s'.flow.queue ≠ s.flow.queue) :
    s.IsLive := by
  rw [perform] at h
  split at h
  · cases h
  · split at h
    · rename_i hs
      rcases s.flow.onOutput_cases bytes with ⟨-, -, hstate, hclosed, hopen⟩ | ⟨hsame, ⟨hkeep, hclosed, hflow⟩ | ⟨hkeep, -⟩⟩
      · exact ⟨hs, hclosed, hopen, hstate⟩
      · rw [hkeep] at h
        cases h
        refine absurd ?_ hq
        change (s.flow.onOutput bytes).1.exitNotice.queue = _
        rw [hflow, StreamFlow.exitNotice_queue]
        rcases hclosed with hclosed | hclosed
        · rw [hclosed]
          rfl
        · rw [hclosed, Bool.and_false]
          rfl
      · rw [hkeep] at h
        cases h
        exact absurd hsame hq
    · cases h
      exact absurd rfl hq

end Stream

/-! ## Runs -/

/-- A checkpoint is queued, and no output has been dropped since. -/
def InStep (log : List StreamEvent) : Prop :=
  ∃ c, StreamEvent.IsCheckpoint c ∧ Since log c StreamEvent.IsDrop

/-- What the view is sent has no gap.  `live` is what the session does after a checkpoint until it drops output. -/
structure NoGap (log : List StreamEvent) : Prop where
  inStep : AtEach (fun before e => e.IsQueuedOutput → InStep before) log
  contiguous : ∀ before c after, log = before ++ c :: after → c.IsCheckpoint → (∀ e ∈ after, ¬ e.IsCheckpoint) →
    ∃ live rest, after = live ++ rest ∧ (∀ e ∈ rest.head?, e.IsDrop) ∧
      after.filterMap StreamEvent.queuedOutput = live.filterMap StreamEvent.output

/-- A checkpoint that the view waits for is made. -/
def Stream.CheckpointSucceeds (s : Stream) (e : StreamEvent) : Prop := e.1 = .checkpoint none → ¬ s.IsHeard

variable {log : List StreamEvent}

theorem InStep.concat {e : StreamEvent} (h : InStep log) (he : ¬ e.IsDrop) :
    InStep (log ++ [e]) := by
  obtain ⟨c, hc, hsince⟩ := h
  exact ⟨c, hc, since_concat.mpr (.inr ⟨hsince, he⟩)⟩

theorem inStep_of_isLive {s : Stream}
    (h : Run (streamSystem.restrict Stream.CheckpointSucceeds) log s) (hlive : s.IsLive) : InStep log := by
  revert hlive
  refine h.history (I := fun log s => s.IsLive → InStep log) ?_ ?_
  · rintro s rfl hlive
    cases hlive.subscribed
  · rintro log s ⟨a, queued⟩ s' ih ⟨hallowed, hstep, hqueued⟩ hlive
    dsimp only at hstep hqueued hallowed
    rcases Stream.perform_isLive hstep hlive with ⟨vt, ha, hq⟩ | ⟨ha, hheard⟩ | ⟨hlive', houtput⟩
    · refine ⟨(a, queued), ⟨?_, vt, ha⟩, since_concat.mpr (.inl rfl)⟩
      rw [hqueued, hq]
      simp
    · exact absurd hheard (hallowed ha)
    · refine (ih hlive').concat ?_
      rintro ⟨hnot, hout⟩
      cases a with
      | output bytes =>
        rw [houtput bytes rfl] at hqueued
        dsimp only at hnot
        rw [hqueued] at hnot
        simp at hnot
      | _ => cases hout

theorem StreamEvent.queuedOutput_eq {e : StreamEvent} (h : ¬ e.IsDrop) : e.queuedOutput = e.output := by
  unfold queuedOutput
  split
  · rfl
  · rename_i hq
    cases ho : e.output with
    | none => rfl
    | some bytes => exact absurd ⟨Bool.eq_false_of_not_eq_true hq, by rw [ho]; rfl⟩ h

theorem StreamEvent.queuedOutput_eq_none {e : StreamEvent} (h : ¬ e.IsQueuedOutput) : e.queuedOutput = none := by
  unfold queuedOutput
  split
  · rename_i hq
    cases ho : e.output with
    | none => rfl
    | some bytes => exact absurd ⟨hq, by rw [ho]; rfl⟩ h
  · rfl

/-- After a drop no output is queued until a checkpoint is, so output is queued before the first drop only. -/
theorem NoGap.of_inStep
    (h : AtEach (fun before e => e.IsQueuedOutput → InStep before) log) : NoGap log := by
  refine ⟨h, ?_⟩
  rintro before c after rfl hc hnone
  have hsplit : after.takeWhile (fun e => !decide e.IsDrop) ++ after.dropWhile (fun e => !decide e.IsDrop) = after :=
    takeWhile_append_dropWhile
  have hlive : ∀ e ∈ after.takeWhile (fun e => !decide e.IsDrop), ¬ e.IsDrop := by
    intro e he
    simpa using mem_takeWhile_imp he
  generalize hl : after.takeWhile (fun e => !decide e.IsDrop) = live at hsplit hlive
  have hhead : ∀ e ∈ (after.dropWhile (fun e => !decide e.IsDrop)).head?, e.IsDrop := by
    intro e he
    have := head?_dropWhile_not (fun e : StreamEvent => !decide e.IsDrop) after
    rw [Option.mem_def.mp he] at this
    simpa using this
  generalize after.dropWhile (fun e => !decide e.IsDrop) = rest at hsplit hhead
  subst hsplit
  refine ⟨live, rest, rfl, hhead, ?_⟩
  have hrest : ∀ e ∈ rest, ¬ e.IsQueuedOutput := by
    intro e he hqueued
    cases rest with
    | nil => cases he
    | cons d rest =>
      have hd := hhead d rfl
      rcases mem_cons.mp he with rfl | he
      · exact Bool.false_ne_true (hd.1.symm.trans hqueued.1)
      · obtain ⟨mid, post, rfl⟩ := append_of_mem he
        obtain ⟨c', hc', hsince⟩ := h (before ++ c :: live ++ d :: mid) e post (by simp) hqueued
        rcases hsince.mem_of_stop hd with rfl | hmem
        · exact Bool.false_ne_true (hd.1.symm.trans hc'.1)
        · exact hnone c' (by simp [hmem]) hc'
  rw [filterMap_append, filterMap_congr fun e he => StreamEvent.queuedOutput_eq (hlive e he),
    filterMap_eq_nil_iff.mpr fun e he => StreamEvent.queuedOutput_eq_none (hrest e he), append_nil]

theorem queue_eq {s : Stream} (h : Run streamSystem log s) :
    s.flow.queue = log.filterMap StreamEvent.message := by
  refine h.history (I := fun log s => s.flow.queue = log.filterMap StreamEvent.message) ?_ ?_
  · rintro s rfl
    rfl
  · rintro log s ⟨a, queued⟩ s' ih ⟨hstep, hqueued⟩
    dsimp only at hstep hqueued
    rw [filterMap_append, ← ih]
    rcases Stream.perform_queue hstep with hq | ⟨m, hm, hq⟩
    · rw [hq] at hqueued ⊢
      rw [hqueued]
      simp [StreamEvent.message]
    · rw [hq] at hqueued ⊢
      have htrue : queued = true := by
        rw [hqueued]
        simp
      rw [htrue]
      simp [hm]

/-- **A view's output has no gap, if the checkpoints it waits for are made.** -/
theorem resync_leaves_no_gap {log : List StreamEvent} {s : Stream}
    (h : Run (streamSystem.restrict Stream.CheckpointSucceeds) log s) :
    s.flow.queue = log.filterMap StreamEvent.message ∧ NoGap log ∧ (s.IsLive → InStep log) := by
  refine ⟨queue_eq h.of_restrict, NoGap.of_inStep ?_, inStep_of_isLive h⟩
  induction h with
  | init => exact atEach_nil
  | @step log s s' e hr hs ih =>
    refine ih.concat fun hqueued ↦ inStep_of_isLive hr ?_
    obtain ⟨a, queued⟩ := e
    obtain ⟨-, hstep, hchanged⟩ := hs
    obtain ⟨htrue, hout⟩ := hqueued
    dsimp only at hstep hchanged htrue
    rw [htrue] at hchanged
    cases a with
    | output bytes => exact Stream.perform_output hstep (of_decide_eq_true hchanged.symm)
    | _ => cases hout

/-! ## A checkpoint that fails -/

/-- A view falls behind by the last batch and catches up. -/
def flood (batch : Bytes) : List StreamEvent :=
  [(.subscribe (some []), true), (.output [1], true), (.output batch, false), (.sent, false), (.hooked, false)]

/-- The stream waits for a checkpoint. -/
def flooded : Stream where
  flow :=
    { pending := 1, state := .resyncing, sent := 1, requests := 1
      queue := [⟨StreamKind.checkpoint, [], true⟩, ⟨StreamKind.output, [1], true⟩] }
  attached := true
  subscribed := true

/-- A stream that has taken its first batch. -/
def streaming (state : FlowState) : Stream where
  flow :=
    { pending := 1, state
      queue := [⟨StreamKind.checkpoint, [], true⟩, ⟨StreamKind.output, [1], true⟩] }
  attached := true
  subscribed := true

theorem run_flood {batch : Bytes} (h : highWater < 1 + batch.length) :
    Run (streamSystem.restrict Stream.CheckpointSucceeds) (flood batch) flooded := by
  have h₀ : Run (streamSystem.restrict Stream.CheckpointSucceeds) [] {} := .init rfl
  have h₁ : Run (streamSystem.restrict Stream.CheckpointSucceeds) [(.subscribe (some []), true)]
      { flow := { state := .live, queue := [⟨StreamKind.checkpoint, [], true⟩] }, attached := true, subscribed := true } :=
    h₀.step ⟨StreamAction.noConfusion, rfl, rfl⟩
  have h₂ : Run (streamSystem.restrict Stream.CheckpointSucceeds)
      [(.subscribe (some []), true), (.output [1], true)] (streaming .live) :=
    h₁.step ⟨StreamAction.noConfusion, rfl, rfl⟩
  have hbatch : (streaming .live).perform (.output batch) = some (streaming .dropping) := by
    simp [Stream.perform, streaming, StreamFlow.onOutput, h]
  have h₃ : Run (streamSystem.restrict Stream.CheckpointSucceeds)
      [(.subscribe (some []), true), (.output [1], true), (.output batch, false)] (streaming .dropping) :=
    h₂.step ⟨StreamAction.noConfusion, hbatch, rfl⟩
  have h₄ : Run (streamSystem.restrict Stream.CheckpointSucceeds)
      [(.subscribe (some []), true), (.output [1], true), (.output batch, false), (.sent, false)]
      { streaming .dropping with flow := { (streaming .dropping).flow with sent := 1, hook := some 1 } } :=
    h₃.step ⟨StreamAction.noConfusion, rfl, rfl⟩
  exact h₄.step ⟨StreamAction.noConfusion, rfl, rfl⟩

theorem highWater_lt : highWater < 1 + (replicate highWater (0 : UInt8)).length := by
  rw [length_replicate]
  decide

theorem resync_leaves_no_gap_flood :
    NoGap (flood (replicate highWater 0) ++ [(.checkpoint (some [7]), true)] ++ [(.output [2], true)]) := by
  have hresync : Run (streamSystem.restrict Stream.CheckpointSucceeds)
      (flood (replicate highWater 0) ++ [(.checkpoint (some [7]), true)])
      { flooded with
        flow := { flooded.flow with
          pending := 2, state := .live, requests := 0
          queue := flooded.flow.queue ++ [⟨StreamKind.checkpoint, [7], true⟩] } } :=
    (run_flood highWater_lt).step ⟨(fun h ↦ by cases h), rfl, rfl⟩
  have houtput : Run (streamSystem.restrict Stream.CheckpointSucceeds)
      (flood (replicate highWater 0) ++ [(.checkpoint (some [7]), true)] ++ [(.output [2], true)])
      { flooded with
        flow := { flooded.flow with
          pending := 3, state := .live, requests := 0
          queue := flooded.flow.queue ++ [⟨StreamKind.checkpoint, [7], true⟩] ++ [⟨StreamKind.output, [2], true⟩] } } :=
    hresync.step ⟨StreamAction.noConfusion, rfl, rfl⟩
  exact (resync_leaves_no_gap houtput).2.1

/-- **A checkpoint that fails leaves a gap.**  Output goes on after what was dropped. -/
theorem gap_after_failed_checkpoint : ¬ ∀ log s, Run streamSystem log s → NoGap log := by
  intro h
  have hfailed : Run streamSystem (flood (replicate highWater 0) ++ [(.checkpoint none, false)])
      { flooded with flow := { flooded.flow with state := .live, requests := 0 } } :=
    (run_flood highWater_lt).of_restrict.step ⟨rfl, rfl⟩
  have houtput : Run streamSystem
      (flood (replicate highWater 0) ++ [(.checkpoint none, false)] ++ [(.output [2], true)])
      { flooded with
        flow := { flooded.flow with
          pending := 2, state := .live, requests := 0
          queue := flooded.flow.queue ++ [⟨StreamKind.output, [2], true⟩] } } :=
    hfailed.step ⟨rfl, rfl⟩
  obtain ⟨c, hc, hsince⟩ := (h _ _ houtput).inStep _ _ [] rfl ⟨rfl, rfl⟩
  have hlog : flood (replicate highWater 0) ++ [(.checkpoint none, false)] =
      [(.subscribe (some []), true), (.output [1], true)] ++
        (.output (replicate highWater 0), false) :: [(.sent, false), (.hooked, false), (.checkpoint none, false)] := rfl
  rw [hlog] at hsince
  have hafter : ∀ e ∈ ([(.sent, false), (.hooked, false), (.checkpoint none, false)] : List StreamEvent),
      e.2 = false := by decide
  rcases hsince.mem_of_stop ⟨rfl, rfl⟩ with rfl | hmem
  · exact Bool.false_ne_true hc.1
  · exact Bool.false_ne_true ((hafter c hmem).symm.trans hc.1)

end NiumaTerm.Remote
