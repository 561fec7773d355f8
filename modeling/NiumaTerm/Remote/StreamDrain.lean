import NiumaTerm.Remote.StreamFlow

/-!
# The two tasks of a stream

The PTY loop hands output and checkpoints to a `StreamFlow`, and the channel's pump reports what was sent;
it lowers the backlog before it takes the lock on the state.  Every access is a step, and the steps of the
two come in any order.  The backlog is an integer, so that an underflow is a negative number.
-/

namespace NiumaTerm.Remote

open Transition

def readBufferSize : ℕ := 64 * 1024

/-- Where the PTY loop is in `on_output` or in the callback of a checkpoint. -/
inductive Producer
  | idle
  /-- The lock is taken, and the stream is live. -/
  | locked (len : ℕ)
  | loaded (len : ℕ) (pending : ℤ)
  /-- The lock is given back. -/
  | passed (len : ℕ)
  | added (len : ℕ)
  /-- A checkpoint is in the backlog. -/
  | rendered (len : ℕ)
  /-- It is queued, or could not be made. -/
  | settled

/-- `on_output` has the lock. -/
def Producer.hasLock : Producer → Bool
  | .locked _ | .loaded _ _ => true
  | _ => false

/-- Where the pump is with a message of the stream. -/
inductive SendHook
  | idle
  | sending (len : ℕ)
  /-- `sent` has lowered the backlog. -/
  | lowered (pending : ℤ)
  /-- The lock is given back, with the stream resyncing. -/
  | requesting

/-- `drops` and `requested` count how often the stream began to drop output and how often a hook has
requested a checkpoint. -/
structure Drain where
  pending : ℤ := 0
  state : FlowState := .resyncing
  closed : Bool := false
  queueOpen : Bool := true
  queue : List ℕ := []
  producer : Producer := .idle
  hook : SendHook := .idle
  /-- `Msg::Checkpoint`s on their way to the PTY loop; the first is that of `Msg::Subscribe`. -/
  requests : ℕ := 1
  drops : ℕ := 0
  requested : ℕ := 0

inductive DrainAction
  | output (len : ℕ)
  | load
  | decide
  | add
  | enqueue
  /-- The callback of a checkpoint begins; `none` when it could not be made. -/
  | checkpoint (result : Option ℕ)
  | enqueueCheckpoint
  | live
  | take
  | lower
  | lock
  | request
  | close
  | closeQueue

namespace Drain

variable (s : Drain)

/-- `SendQueue::send`. -/
def send (len : ℕ) : Drain := if s.queueOpen then { s with queue := s.queue ++ [len] } else s

def perform : DrainAction → Option Drain
  | .output len =>
    match s.producer with
    | .idle =>
      if s.closed || !s.queueOpen then some s
      else if s.state ≠ .live then some s
      else some { s with producer := .locked len }
    | _ => none
  | .load =>
    match s.producer with
    | .locked len => some { s with producer := .loaded len s.pending }
    | _ => none
  | .decide =>
    match s.producer with
    | .loaded len pending =>
      if highWater < pending + len then
        some { s with producer := .idle, state := .dropping, drops := s.drops + 1 }
      else some { s with producer := .passed len }
    | _ => none
  | .add =>
    match s.producer with
    | .passed len => some { s with producer := .added len, pending := s.pending + len }
    | _ => none
  | .enqueue =>
    match s.producer with
    | .added len => some { s.send len with producer := .idle }
    | _ => none
  | .checkpoint result =>
    match s.producer with
    | .idle =>
      if s.requests = 0 then none
      else
        let s := { s with requests := s.requests - 1 }
        match result with
        | some len => some { s with producer := .rendered len, pending := s.pending + len }
        | none => some { s with producer := .settled }
    | _ => none
  | .enqueueCheckpoint =>
    match s.producer with
    | .rendered len => some { s.send len with producer := .settled }
    | _ => none
  | .live =>
    match s.producer with
    | .settled => some { s with producer := .idle, state := .live }
    | _ => none
  | .take =>
    match s.hook, s.queue with
    | .idle, len :: queue => some { s with hook := .sending len, queue }
    | _, _ => none
  | .lower =>
    match s.hook with
    | .sending len => some { s with pending := s.pending - len, hook := .lowered (s.pending - len) }
    | _ => none
  | .lock =>
    match s.hook with
    | .lowered pending =>
      if s.producer.hasLock then none
      else if s.state = .dropping ∧ pending < lowWater then
        some { s with state := .resyncing, hook := .requesting }
      else some { s with hook := .idle }
    | _ => none
  | .request =>
    match s.hook with
    | .requesting =>
      some { s with hook := .idle, requests := s.requests + 1, requested := s.requested + 1 }
    | _ => none
  | .close => some { s with closed := true }
  | .closeQueue =>
    match s.hook with
    | .idle | .sending _ => some { s with queueOpen := false, queue := [], hook := .idle }
    | _ => none

end Drain

/-- A chunk of output is no longer than the buffer that the PTY is read into. -/
def DrainAction.Fits : DrainAction → Prop
  | .output len => len ≤ readBufferSize
  | _ => True

def drainSystem : System Drain DrainAction where
  init s := s = {}
  step s a s' := a.Fits ∧ s.perform a = some s'

/-! ## The invariant -/

namespace Producer

/-- What is in the backlog and not in the queue. -/
def unqueued : Producer → ℕ
  | .added len | .rendered len => len
  | _ => 0

/-- `on_output` has found the stream live, with this chunk. -/
def chunk : Producer → Option ℕ
  | .locked len | .loaded len _ | .passed len | .added len => some len
  | _ => none

/-- The callbacks that run. -/
def callbacks : Producer → ℕ
  | .rendered _ | .settled => 1
  | _ => 0

end Producer

namespace SendHook

/-- What is in the backlog and has left the queue. -/
def unsent : SendHook → ℕ
  | .sending len => len
  | _ => 0

def requests : SendHook → ℕ
  | .requesting => 1
  | _ => 0

/-- The hook of a message that has left the queue is still to run. -/
def IsToRun : SendHook → Prop
  | .sending _ | .lowered _ => True
  | _ => False

end SendHook

namespace Drain

variable (s : Drain)

/-- There is enough left to send, or the hook that saw the drain waits for the lock. -/
def Backlog : Prop :=
  (lowWater : ℤ) ≤ s.pending ∨ ∃ pending < (lowWater : ℤ), s.hook = .lowered pending

/-- The checkpoints that are on their way. -/
def outstanding : ℕ := s.requests + s.hook.requests + s.producer.callbacks

structure Kept : Prop where
  pending : s.queueOpen → s.pending = (s.queue.sum + s.hook.unsent + s.producer.unqueued : ℕ)
  chunk : ∀ len ∈ s.producer.chunk, s.state = .live ∧ len ≤ readBufferSize
  outstanding : s.outstanding = if s.state = .resyncing then 1 else 0
  dropping : s.state = .dropping → s.Backlog
  loaded : ∀ len pending, s.producer = .loaded len pending → highWater < pending + len → s.Backlog
  episodes : s.drops = s.requested + s.hook.requests + if s.state = .dropping then 1 else 0

variable {s} {s' : Drain} {producer : Producer} {len : ℕ}

/-- A chunk that does not fit finds enough to send. -/
theorem lowWater_le {pending : ℤ} (hlen : len ≤ readBufferSize)
    (h : (highWater : ℤ) < pending + len) : (lowWater : ℤ) ≤ pending := by
  simp only [readBufferSize, highWater, lowWater] at *
  omega

/-- Lowering the backlog leaves enough to send, or leaves it to the hook that lowered it. -/
theorem backlog_lowered (pending : ℤ) : Backlog { s with pending, hook := .lowered pending } := by
  rcases Int.lt_or_le pending lowWater with hlt | hge
  · exact .inr ⟨pending, hlt, rfl⟩
  · exact .inl hge

theorem Backlog.of_not_lowered (h : s.Backlog) (hhook : ∀ pending, s.hook ≠ .lowered pending) :
    (lowWater : ℤ) ≤ s.pending := by
  rcases h with h | ⟨pending, -, heq⟩
  · exact h
  · exact absurd heq (hhook pending)

namespace Kept

theorem start : Kept {} where
  pending _ := rfl
  chunk := nofun
  outstanding := rfl
  dropping := nofun
  loaded := nofun
  episodes := rfl

/-! ### The PTY loop -/

theorem chunk_of_eq (h : s.Kept) (hproducer : s.producer = producer)
    (hlen : producer.chunk = some len) : s.state = .live ∧ len ≤ readBufferSize :=
  h.chunk len (by rw [hproducer, hlen]; rfl)

/-- The loop goes on without a change to anything else. -/
theorem proceed (h : s.Kept) (hunqueued : producer.unqueued = s.producer.unqueued)
    (hcallbacks : producer.callbacks = s.producer.callbacks)
    (hchunk : ∀ len ∈ producer.chunk, s.state = .live ∧ len ≤ readBufferSize)
    (hloaded : ∀ len pending, producer = .loaded len pending → highWater < pending + len →
      s.Backlog) : Kept { s with producer } where
  pending hopen := by
    rw [h.pending hopen, ← hunqueued]
  chunk := hchunk
  outstanding := by
    rw [← h.outstanding, Drain.outstanding, Drain.outstanding, hcallbacks]
  dropping := h.dropping
  loaded := hloaded
  episodes := h.episodes

/-- What is in the backlog is queued. -/
theorem send (h : s.Kept) (hlen : s.producer.unqueued = len) (hunqueued : producer.unqueued = 0)
    (hcallbacks : producer.callbacks = s.producer.callbacks) (hchunk : producer.chunk = none) :
    Kept { s.send len with producer } := by
  have hchunk' : ∀ len ∈ producer.chunk, s.state = .live ∧ len ≤ readBufferSize := by
    rw [hchunk]
    exact nofun
  have houtstanding : s.requests + s.hook.requests + producer.callbacks =
      if s.state = .resyncing then 1 else 0 := by
    rw [hcallbacks]
    exact h.outstanding
  have hloaded : ∀ len pending, producer = .loaded len pending → highWater < pending + len →
      s.Backlog := by
    rintro len pending rfl
    cases hchunk
  rw [Drain.send]
  split
  · next hopen =>
    refine ⟨fun _ => ?_, hchunk', houtstanding, h.dropping, hloaded, h.episodes⟩
    have hpending := h.pending hopen
    show s.pending = ((s.queue ++ [len]).sum + s.hook.unsent + producer.unqueued : ℕ)
    rw [hpending, hlen, hunqueued, List.sum_append, List.sum_singleton]
    omega
  · next hclosed =>
    exact ⟨fun hopen => absurd hopen hclosed, hchunk', houtstanding, h.dropping, hloaded, h.episodes⟩

theorem perform_output (h : s.Kept) (hlen : len ≤ readBufferSize)
    (hs : s.perform (.output len) = some s') : s'.Kept := by
  rw [perform] at hs
  split at hs
  · next hproducer =>
    split_ifs at hs with hclosed hstate
    · cases hs
      exact h
    · cases hs
      exact h
    · cases hs
      refine h.proceed (by rw [hproducer]; rfl) (by rw [hproducer]; rfl) ?_ nofun
      rintro _ ⟨⟩
      exact ⟨not_not.mp hstate, hlen⟩
  · cases hs

theorem perform_load (h : s.Kept) (hs : s.perform .load = some s') : s'.Kept := by
  rw [perform] at hs
  split at hs
  · next len hproducer =>
    cases hs
    have hchunk := h.chunk_of_eq hproducer rfl
    refine h.proceed (by rw [hproducer]; rfl) (by rw [hproducer]; rfl) ?_ ?_
    · rintro _ ⟨⟩
      exact hchunk
    · rintro _ _ ⟨⟩ hhigh
      exact .inl (lowWater_le hchunk.2 hhigh)
  · cases hs

theorem perform_decide (h : s.Kept) (hs : s.perform .decide = some s') : s'.Kept := by
  rw [perform] at hs
  split at hs
  · next len pending hproducer =>
    have hchunk := h.chunk_of_eq hproducer rfl
    split_ifs at hs with hhigh
    · cases hs
      have hepisodes := h.episodes
      have houtstanding := h.outstanding
      rw [Drain.outstanding, hproducer, hchunk.1] at houtstanding
      rw [hchunk.1] at hepisodes
      refine ⟨fun hopen => ?_, nofun, houtstanding, fun _ => h.loaded len pending hproducer hhigh,
        nofun, ?_⟩
      · have hpending := h.pending hopen
        rwa [hproducer] at hpending
      · show s.drops + 1 = s.requested + s.hook.requests + 1
        rw [hepisodes]
        rfl
    · cases hs
      refine h.proceed (by rw [hproducer]; rfl) (by rw [hproducer]; rfl) ?_ nofun
      rintro _ ⟨⟩
      exact hchunk
  · cases hs

/-- The backlog is raised, where it is not needed that there is enough to send. -/
theorem raise (h : s.Kept) {requests : ℕ} (hunqueued : s.producer.unqueued = 0)
    (hlen : producer.unqueued = len)
    (hcallbacks : requests + producer.callbacks = s.requests + s.producer.callbacks)
    (hchunk : ∀ len ∈ producer.chunk, s.state = .live ∧ len ≤ readBufferSize)
    (hstate : s.state ≠ .dropping) (hloaded : ∀ len pending, producer ≠ .loaded len pending) :
    Kept { s with producer, requests, pending := s.pending + len } where
  pending hopen := by
    have hpending := h.pending hopen
    show s.pending + len = (s.queue.sum + s.hook.unsent + producer.unqueued : ℕ)
    rw [hpending, hunqueued, hlen]
    push_cast
    omega
  chunk := hchunk
  outstanding := by
    have houtstanding := h.outstanding
    rw [Drain.outstanding] at houtstanding
    show requests + s.hook.requests + producer.callbacks = _
    rw [← houtstanding]
    omega
  dropping hdropping := absurd hdropping hstate
  loaded len pending hproducer := absurd hproducer (hloaded len pending)
  episodes := h.episodes

theorem perform_add (h : s.Kept) (hs : s.perform .add = some s') : s'.Kept := by
  rw [perform] at hs
  split at hs
  · next len hproducer =>
    cases hs
    have hchunk := h.chunk_of_eq hproducer rfl
    refine h.raise (by rw [hproducer]; rfl) rfl (by rw [hproducer]; rfl) ?_ ?_ nofun
    · rintro _ ⟨⟩
      exact hchunk
    · rw [hchunk.1]
      exact nofun
  · cases hs

theorem perform_enqueue (h : s.Kept) (hs : s.perform .enqueue = some s') : s'.Kept := by
  rw [perform] at hs
  split at hs
  · next len hproducer =>
    cases hs
    exact h.send (by rw [hproducer]; rfl) rfl (by rw [hproducer]; rfl) rfl
  · cases hs

/-- While a checkpoint is on its way the stream waits for it. -/
theorem resyncing (h : s.Kept) (hpos : 0 < s.outstanding) : s.state = .resyncing := by
  by_contra hstate
  rw [h.outstanding, if_neg hstate] at hpos
  cases hpos

theorem perform_checkpoint (h : s.Kept) {result : Option ℕ}
    (hs : s.perform (.checkpoint result) = some s') : s'.Kept := by
  rw [perform] at hs
  split at hs
  · next hproducer =>
    split_ifs at hs with hrequests
    have hpos := Nat.pos_of_ne_zero hrequests
    have hstate := h.resyncing (by rw [Drain.outstanding]; omega)
    have hnot : s.state ≠ .dropping := by
      rw [hstate]
      exact nofun
    have hunqueued : s.producer.unqueued = 0 := by
      rw [hproducer]
      rfl
    have hcallbacks : s.requests - 1 + 1 = s.requests + s.producer.callbacks := by
      rw [Nat.sub_add_cancel hpos, hproducer]
      rfl
    cases result with
    | some len =>
      cases hs
      exact h.raise hunqueued rfl hcallbacks nofun hnot nofun
    | none =>
      cases hs
      have hraise := @raise s .settled 0 h _ hunqueued rfl hcallbacks nofun hnot nofun
      simpa using hraise
  · cases hs

theorem perform_enqueueCheckpoint (h : s.Kept) (hs : s.perform .enqueueCheckpoint = some s') :
    s'.Kept := by
  rw [perform] at hs
  split at hs
  · next len hproducer =>
    cases hs
    exact h.send (by rw [hproducer]; rfl) rfl (by rw [hproducer]; rfl) rfl
  · cases hs

theorem perform_live (h : s.Kept) (hs : s.perform .live = some s') : s'.Kept := by
  rw [perform] at hs
  split at hs
  · next hproducer =>
    cases hs
    have hstate := h.resyncing (by rw [Drain.outstanding, hproducer]; exact Nat.succ_pos _)
    have houtstanding := h.outstanding
    have hepisodes := h.episodes
    rw [Drain.outstanding, hproducer, if_pos hstate] at houtstanding
    rw [hstate] at hepisodes
    refine ⟨fun hopen => ?_, nofun, ?_, nofun, nofun, hepisodes⟩
    · have hpending := h.pending hopen
      rwa [hproducer] at hpending
    · exact Nat.succ.inj houtstanding
  · cases hs

/-! ### The pump -/

theorem perform_take (h : s.Kept) (hs : s.perform .take = some s') : s'.Kept := by
  rw [perform] at hs
  split at hs
  · next len queue hhook hqueue =>
    cases hs
    have houtstanding := h.outstanding
    have hepisodes := h.episodes
    rw [Drain.outstanding, hhook] at houtstanding
    rw [hhook] at hepisodes
    have hlow (hs : s.Backlog) : (lowWater : ℤ) ≤ s.pending :=
      hs.of_not_lowered (by rw [hhook]; exact nofun)
    refine ⟨fun hopen => ?_, h.chunk, houtstanding, fun hdropping => .inl (hlow (h.dropping hdropping)),
      fun len pending hproducer hhigh => .inl (hlow (h.loaded len pending hproducer hhigh)), hepisodes⟩
    have hpending := h.pending hopen
    rw [hhook, hqueue, List.sum_cons] at hpending
    show s.pending = (queue.sum + len + s.producer.unqueued : ℕ)
    rw [hpending, Nat.add_comm len]
    rfl
  · cases hs

theorem perform_lower (h : s.Kept) (hs : s.perform .lower = some s') : s'.Kept := by
  rw [perform] at hs
  split at hs
  · next len hhook =>
    cases hs
    have houtstanding := h.outstanding
    have hepisodes := h.episodes
    rw [Drain.outstanding, hhook] at houtstanding
    rw [hhook] at hepisodes
    refine ⟨fun hopen => ?_, h.chunk, houtstanding, fun _ => backlog_lowered _,
      fun _ _ _ _ => backlog_lowered _, hepisodes⟩
    have hpending := h.pending hopen
    rw [hhook] at hpending
    show s.pending - len = (s.queue.sum + 0 + s.producer.unqueued : ℕ)
    rw [hpending]
    simp only [SendHook.unsent]
    push_cast
    omega
  · cases hs

theorem perform_lock (h : s.Kept) (hs : s.perform .lock = some s') : s'.Kept := by
  rw [perform] at hs
  split at hs
  · next pending hhook =>
    have houtstanding := h.outstanding
    have hepisodes := h.episodes
    rw [Drain.outstanding, hhook] at houtstanding
    rw [hhook] at hepisodes
    have hpending (hopen : s.queueOpen) :
        s.pending = (s.queue.sum + 0 + s.producer.unqueued : ℕ) := by
      rw [h.pending hopen, hhook]
      rfl
    split_ifs at hs with hlock hdrain
    · cases hs
      rw [hdrain.1] at houtstanding hepisodes
      refine ⟨hpending, ?_, ?_, nofun, ?_, ?_⟩
      · intro len hlen
        have := (h.chunk len hlen).1
        rw [hdrain.1] at this
        cases this
      · simp only [SendHook.requests, reduceCtorEq, if_false] at houtstanding
        show s.requests + 1 + s.producer.callbacks = 1
        omega
      · intro len v hproducer
        have hhas : s.producer.hasLock := by rw [show s.producer = .loaded len v from hproducer]; rfl
        exact absurd hhas hlock
      · exact hepisodes
    · cases hs
      refine ⟨hpending, h.chunk, houtstanding, fun hdropping => ?_, ?_, hepisodes⟩
      · rcases h.dropping hdropping with hle | ⟨p, hlt, heq⟩
        · exact .inl hle
        · rw [hhook] at heq
          cases heq
          exact absurd ⟨hdropping, hlt⟩ hdrain
      · intro len v hproducer
        have hhas : s.producer.hasLock := by rw [show s.producer = .loaded len v from hproducer]; rfl
        exact absurd hhas hlock
  · cases hs

theorem perform_request (h : s.Kept) (hs : s.perform .request = some s') : s'.Kept := by
  rw [perform] at hs
  split at hs
  · next hhook =>
    cases hs
    have houtstanding := h.outstanding
    have hepisodes := h.episodes
    rw [Drain.outstanding, hhook] at houtstanding
    rw [hhook] at hepisodes
    have hlow (hs : s.Backlog) : (lowWater : ℤ) ≤ s.pending :=
      hs.of_not_lowered (by rw [hhook]; exact nofun)
    refine ⟨fun hopen => ?_, h.chunk, ?_, fun hdropping => .inl (hlow (h.dropping hdropping)),
      fun len pending hproducer hhigh => .inl (hlow (h.loaded len pending hproducer hhigh)), ?_⟩
    · have hpending := h.pending hopen
      rwa [hhook] at hpending
    · exact houtstanding
    · exact hepisodes
  · cases hs

/-- The channel goes, with the pump between two messages or at one. -/
theorem closeQueue (h : s.Kept) (hrequests : s.hook.requests = 0)
    (hhook : ∀ pending, s.hook ≠ .lowered pending) :
    Kept { s with queueOpen := false, queue := [], hook := .idle } := by
  have houtstanding := h.outstanding
  have hepisodes := h.episodes
  rw [Drain.outstanding, hrequests] at houtstanding
  rw [hrequests] at hepisodes
  exact ⟨nofun, h.chunk, houtstanding,
    fun hdropping => .inl ((h.dropping hdropping).of_not_lowered hhook),
    fun len pending hproducer hhigh => .inl ((h.loaded len pending hproducer hhigh).of_not_lowered hhook),
    hepisodes⟩

theorem perform_closeQueue (h : s.Kept) (hs : s.perform .closeQueue = some s') : s'.Kept := by
  rw [Drain.perform] at hs
  split at hs
  · next hhook =>
    cases hs
    exact h.closeQueue (by rw [hhook]; rfl) (by rw [hhook]; exact nofun)
  · next hhook =>
    cases hs
    exact h.closeQueue (by rw [hhook]; rfl) (by rw [hhook]; exact nofun)
  · cases hs

theorem perform {a : DrainAction} (h : s.Kept) (ha : a.Fits) (hs : s.perform a = some s') :
    s'.Kept := by
  cases a with
  | output len => exact h.perform_output ha hs
  | load => exact h.perform_load hs
  | decide => exact h.perform_decide hs
  | add => exact h.perform_add hs
  | enqueue => exact h.perform_enqueue hs
  | checkpoint result => exact h.perform_checkpoint hs
  | enqueueCheckpoint => exact h.perform_enqueueCheckpoint hs
  | live => exact h.perform_live hs
  | take => exact h.perform_take hs
  | lower => exact h.perform_lower hs
  | lock => exact h.perform_lock hs
  | request => exact h.perform_request hs
  | close =>
    cases hs
    exact ⟨h.pending, h.chunk, h.outstanding, h.dropping, h.loaded, h.episodes⟩
  | closeQueue => exact h.perform_closeQueue hs

end Kept

/-- While output is dropped, enough is queued for a hook to see the drain, unless one has seen it. -/
theorem Kept.toRun (h : s.Kept) (hopen : s.queueOpen) (hdropping : s.state = .dropping) :
    s.queue ≠ [] ∨ s.hook.IsToRun := by
  rcases h.dropping hdropping with hlow | ⟨pending, -, hhook⟩
  · by_contra hnone
    obtain ⟨hqueue, hhook⟩ := not_or.mp hnone
    rw [ne_eq, not_not] at hqueue
    have hunsent : s.hook.unsent = 0 := by
      cases hs : s.hook with
      | sending len =>
        rw [hs] at hhook
        exact absurd trivial hhook
      | _ => rfl
    -- neither `on_output` nor a checkpoint has raised the backlog
    have hcallbacks : s.producer.callbacks = 0 := by
      have houtstanding := h.outstanding
      rw [hdropping, Drain.outstanding] at houtstanding
      simp at houtstanding
      omega
    have hunqueued : s.producer.unqueued = 0 := by
      cases hs : s.producer with
      | added len =>
        have hlive := (h.chunk_of_eq hs rfl).1
        rw [hdropping] at hlive
        cases hlive
      | rendered len =>
        rw [hs] at hcallbacks
        cases hcallbacks
      | _ => rfl
    have hpending := h.pending hopen
    rw [hqueue, hunsent, hunqueued] at hpending
    rw [hpending] at hlow
    exact absurd hlow (by decide)
  · right
    rw [hhook]
    trivial

end Drain

/-- **A stream does not stay dropping**, with chunks no longer than the read buffer: while output is
dropped and the channel is there, a message is queued or its hook is still to run.  A hook has requested
one checkpoint for every time that output was dropped, or will, and one is on its way just when the stream
waits for one. -/
theorem hook_to_run {actions : List DrainAction} {s : Drain} (h : Run drainSystem actions s) :
    (s.queueOpen → s.state = .dropping → s.queue ≠ [] ∨ s.hook.IsToRun) ∧
    s.drops = s.requested + s.hook.requests + (if s.state = .dropping then 1 else 0) ∧
    s.outstanding = if s.state = .resyncing then 1 else 0 := by
  have hs : s.Kept := by
    refine h.invariant ?_ ?_
    · rintro s rfl
      exact .start
    · rintro s a s' ih ⟨ha, hstep⟩
      exact ih.perform ha hstep
  exact ⟨hs.toRun, hs.episodes, hs.outstanding⟩

/-- A checkpoint fills the backlog, and the next chunk is dropped. -/
def filling : List DrainAction :=
  [.checkpoint (some 1048576), .enqueueCheckpoint, .live, .output 1, .load, .decide]

theorem run_filling : Run drainSystem filling
    { pending := 1048576, state := .dropping, queue := [1048576], requests := 0, drops := 1 } := by
  have hstart : Run drainSystem [] {} := .init rfl
  have hcheckpoint : Run drainSystem (filling.take 1)
      { pending := 1048576, requests := 0, producer := .rendered 1048576 } :=
    hstart.step ⟨trivial, rfl⟩
  have hqueued : Run drainSystem (filling.take 2)
      { pending := 1048576, queue := [1048576], requests := 0, producer := .settled } :=
    hcheckpoint.step ⟨trivial, rfl⟩
  have hlive : Run drainSystem (filling.take 3)
      { pending := 1048576, state := .live, queue := [1048576], requests := 0 } :=
    hqueued.step ⟨trivial, rfl⟩
  have hlocked : Run drainSystem (filling.take 4)
      { pending := 1048576, state := .live, queue := [1048576], requests := 0
        producer := .locked 1 } :=
    hlive.step ⟨(by decide : 1 ≤ readBufferSize), rfl⟩
  have hloaded : Run drainSystem (filling.take 5)
      { pending := 1048576, state := .live, queue := [1048576], requests := 0
        producer := .loaded 1 1048576 } :=
    hlocked.step ⟨trivial, rfl⟩
  exact hloaded.step ⟨trivial, rfl⟩

theorem hook_to_run_filling : [1048576] ≠ [] ∨ SendHook.idle.IsToRun :=
  (hook_to_run run_filling).1 rfl rfl

end NiumaTerm.Remote
