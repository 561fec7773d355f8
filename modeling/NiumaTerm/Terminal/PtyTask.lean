import NiumaTerm.Lib.Coalesce
import NiumaTerm.Lib.History

/-!
# The terminal's owner task

`processPendingCommands` executes messages one after another: an input is queued for the PTY, a resize
waits until everything queued is written and keeps back what comes after it.  `eventLoop` performs that with
the reads and writes between, against any `World`.  The `log` lists what was received, done and written.
-/

namespace NiumaTerm.Terminal
namespace PtyTask

open History Coalesce List

/-! ## Messages -/

structure WinsizeBuilder where
  rows : UInt16
  cols : UInt16
  width : UInt16
  height : UInt16

/-- `request` stands for every message that the engine answers. -/
inductive Msg (Request : Type)
  | input (bytes : List UInt8)
  | shutdown
  | resize (size : WinsizeBuilder)
  | powerShellCompatibility (enabled : Bool)
  | request (request : Request)

inductive TaskPoll (α : Type)
  | ready (result : α)
  | pending

inductive ErrorKind
  | brokenPipe
  | writeZero
  | other

/-- What the task calls: each call gives an answer and the world after it.  Times are in
milliseconds. -/
structure World (σ Request : Type) where
  now : σ → ℕ × σ
  pollRecv : σ → TaskPoll (Option (Msg Request)) × σ
  /-- A batch of reads that the engine parses. -/
  readBatch : σ → Except ErrorKind ℕ × σ
  takePtyWrites : σ → List UInt8 × σ
  snapshotPending : σ → Bool
  flushEngineState : σ → Except ErrorKind Unit × σ
  altScreen : σ → Bool
  cols : σ → UInt16
  rows : σ → UInt16
  /-- Columns, rows, and the width and height of a cell. -/
  resizeEngine : σ → UInt16 → UInt16 → UInt32 → UInt32 → σ
  onRequest : σ → Request → σ
  pollWrite : σ → List UInt8 → TaskPoll (Except ErrorKind ℕ) × σ
  /-- No more is written than was offered. -/
  pollWrite_le : ∀ {world world' bytes n},
    pollWrite world bytes = (.ready (.ok n), world') → n ≤ bytes.length
  pollFlush : σ → TaskPoll (Except ErrorKind Unit) × σ
  pollResize : σ → WinsizeBuilder → TaskPoll (Except ErrorKind Unit) × σ
  pollExit : σ → Bool × σ
  /-- The timer of the loop has fired. -/
  timerFired : σ → Bool × σ

/-! ## The pause after a resize -/

def resizeInputDelay : ℕ := 80

def maxQueuedInputDelay : ℕ := 250

structure PowerShellCompatibility where
  enabled : Bool := false
  resizeDeadline : Option ℕ := none

namespace PowerShellCompatibility

variable (c : PowerShellCompatibility)

def setEnabled (enabled : Bool) : PowerShellCompatibility :=
  { enabled, resizeDeadline := if enabled then c.resizeDeadline else none }

def resized (now : ℕ) : PowerShellCompatibility :=
  { c with resizeDeadline := if c.enabled then some (now + resizeInputDelay) else none }

def clearResize : PowerShellCompatibility := { c with resizeDeadline := none }

def inputLimit (now : ℕ) : Option ℕ := if c.enabled then some (now + maxQueuedInputDelay) else none

def deadline (inputLimit : Option ℕ) : Option ℕ := do
  return min (← c.resizeDeadline) (← inputLimit)

end PowerShellCompatibility

/-! ## Writing -/

def maxWriteBatch : ℕ := 64 * 1024

def maxReadBatch : ℕ := 65535

structure Writing where
  source : List UInt8
  written : ℕ

namespace Writing

variable (c : Writing)

def advance (n : ℕ) : Writing := { c with written := c.written + n }

def remainingBytes : List UInt8 := c.source.drop c.written

def finished : Bool := c.source.length ≤ c.written

end Writing

structure PtyState where
  writeList : List (List UInt8) := []
  writing : Option Writing := none

namespace PtyState

variable (state : PtyState)

def gotoNext : PtyState := ⟨state.writeList.tail, state.writeList.head?.map (⟨·, 0⟩)⟩

def ensureNext : PtyState := if state.writing.isNone then state.gotoNext else state

def needsWrite : Bool := state.writing.isSome || !state.writeList.isEmpty

def setCurrent (current : Writing) : PtyState := { state with writing := some current }

def push (bytes : List UInt8) : PtyState := { state with writeList := state.writeList ++ [bytes] }

end PtyState

/-! ## The task -/

structure ResizeInFlight where
  size : WinsizeBuilder
  gridChanged : Bool

inductive Step
  | idle
  | advanced
  | shutdown
  deriving DecidableEq

inductive Event (Request : Type)
  | received (msg : Msg Request)
  | queued (bytes : List UInt8)
  /-- The engine's own reply to the program is queued. -/
  | responded (bytes : List UInt8)
  | wrote (bytes : List UInt8)
  | flushed
  | started (size : WinsizeBuilder)
  | finished (size : WinsizeBuilder)
  | requested (request : Request)

/-- The `PtyState` that the source passes along is a field, and `log` is added. -/
structure Termio (σ Request : Type) where
  world : σ
  pendingCommands : List (Msg Request × Option ℕ) := []
  pendingResize : Option ResizeInFlight := none
  powershellCompatibility : PowerShellCompatibility := {}
  childExited : Bool := false
  terminalResponsesEnabled : Bool := true
  state : PtyState := {}
  log : List (Event Request) := []

variable {σ Request : Type}

namespace Termio

variable (w : World σ Request) (m : Termio σ Request)

def record (e : Event Request) : Termio σ Request := { m with log := m.log ++ [e] }

/-- The passes of `'write_many` from the chunk `current` on. -/
def writeMany (m : Termio σ Request) (current : Writing) (written : ℕ) :
    Except ErrorKind ℕ × Termio σ Request :=
  if _hfinished : current.finished then
    match _hlist : m.state.writeList with
    | [] => (.ok written, { m with state := ⟨[], none⟩ })
    | next :: rest => writeMany { m with state := ⟨rest, none⟩ } ⟨next, 0⟩ written
  else if maxWriteBatch ≤ written then
    (.ok written, { m with state := m.state.setCurrent current })
  else
    let chunk := current.remainingBytes.take (maxWriteBatch - written)
    match w.pollWrite m.world chunk with
    | (.pending, world) => (.ok written, { m with world, state := m.state.setCurrent current })
    | (.ready (.ok 0), world) =>
      (.error .writeZero, { m with world, state := m.state.setCurrent current })
    | (.ready (.ok (n + 1)), world) =>
      writeMany ({ m with world }.record (.wrote (chunk.take (n + 1)))) (current.advance (n + 1))
        (written + (n + 1))
    | (.ready (.error e), world) =>
      (.error e, { m with world, state := m.state.setCurrent current })
  termination_by (m.state.writeList.length, current.source.length - current.written)
  decreasing_by
    · refine Prod.Lex.left _ _ ?_
      rw [_hlist]
      exact Nat.lt_succ_self _
    · refine Prod.Lex.right _ ?_
      have hlt : current.written < current.source.length := by
        simpa [Writing.finished] using _hfinished
      show current.source.length - (current.written + (n + 1)) < _
      omega

def writeTo : Except ErrorKind ℕ × Termio σ Request :=
  let state := m.state.ensureNext
  match state.writing with
  | none => (.ok 0, { m with state })
  | some current => writeMany w { m with state := { state with writing := none } } current 0

def ptyRead : Except ErrorKind ℕ × Termio σ Request :=
  match w.readBatch m.world with
  | (.error e, world) => (.error e, { m with world })
  | (.ok processed, world) =>
    let (responses, world) := w.takePtyWrites world
    let m := { m with world }
    let m := if m.terminalResponsesEnabled && !responses.isEmpty then
      { m with state := m.state.push responses }.record (.responded responses) else m
    if processed = 0 ∧ ¬ w.snapshotPending m.world then (.ok 0, m)
    else
      match w.flushEngineState m.world with
      | (.error e, world) => (.error e, { m with world })
      | (.ok (), world) => (.ok processed, { m with world })

/-! ### Messages -/

/-- A message other than `shutdown`. -/
def receive : Msg Request → Termio σ Request
  | .powerShellCompatibility enabled =>
    { m with powershellCompatibility := m.powershellCompatibility.setEnabled enabled }
  | .resize size =>
    match m.pendingCommands.getLast? with
    | some (.resize _, limit) =>
      { m with pendingCommands := m.pendingCommands.dropLast ++ [(.resize size, limit)] }
    | _ => { m with pendingCommands := m.pendingCommands ++ [(.resize size, none)] }
  | .input input =>
    let (now, world) := w.now m.world
    { m with
      world
      pendingCommands := m.pendingCommands ++
        [(.input input, m.powershellCompatibility.inputLimit now)] }
  | request => { m with pendingCommands := m.pendingCommands ++ [(request, none)] }

/-- At most `n` messages. -/
def collect : ℕ → Step → Termio σ Request → Step × Termio σ Request
  | 0, step, m => (step, m)
  | n + 1, step, m =>
    match w.pollRecv m.world with
    | (.ready (some .shutdown), world) =>
      (.shutdown, { m with world }.record (.received .shutdown))
    | (.ready (some msg), world) =>
      collect n .advanced (receive w ({ m with world }.record (.received msg)) msg)
    | (_, world) => (step, { m with world })

/-! ### Commands -/

def onResize (size : WinsizeBuilder) : Bool × Termio σ Request :=
  let cols := max size.cols 1
  let rows := max size.rows 1
  let gridChanged := w.cols m.world ≠ cols ∨ w.rows m.world ≠ rows
  let cellW := (max (size.width / cols) 1).toUInt32
  let cellH := (max (size.height / rows) 1).toUInt32
  (gridChanged, { m with world := w.resizeEngine m.world cols rows cellW cellH })

/-- A resize that runs is polled: `pending` while it goes on, `ready true` when it is done. -/
def completeResize : TaskPoll Bool × Termio σ Request :=
  match m.pendingResize with
  | none => (.ready false, m)
  | some flight =>
    match w.pollResize m.world flight.size with
    | (.pending, world) => (.pending, { m with world })
    | (.ready _, world) =>
      let m := { m with world, pendingResize := none }.record (.finished flight.size)
      if w.altScreen m.world then
        (.ready true, { m with powershellCompatibility := m.powershellCompatibility.clearResize })
      else if flight.gridChanged then
        let (now, world) := w.now m.world
        (.ready true,
          { m with world, powershellCompatibility := m.powershellCompatibility.resized now })
      else (.ready true, m)

def pendingInputDeadline : Option ℕ :=
  if m.pendingResize.isSome then none
  else
    match m.pendingCommands with
    | (.input bytes, limit) :: _ =>
      if bytes.isEmpty then none
      else
        match m.powershellCompatibility.deadline limit with
        | none => none
        | some deadline => if w.altScreen m.world then none else some deadline
    | _ => none

/-- The input in front has to wait for its deadline. -/
def inputPaused : Bool × Termio σ Request :=
  match pendingInputDeadline w m with
  | none => (false, m)
  | some deadline =>
    let (now, world) := w.now m.world
    (now < deadline, { m with world })

/-- A resize in front waits for the writes before it: `ready true` when it need not wait, `ready
false` when the flush fails. -/
def finishInput : TaskPoll Bool × Termio σ Request :=
  match m.pendingCommands with
  | (.resize _, _) :: _ =>
    if m.state.needsWrite then (.pending, m)
    else
      match w.pollFlush m.world with
      | (.ready (.ok ()), world) => (.ready true, { m with world }.record .flushed)
      | (.pending, world) => (.pending, { m with world })
      | (.ready (.error _), world) => (.ready false, { m with world })
  | _ => (.ready true, m)

/-- A command that has been taken from the queue. -/
def execute : Msg Request → Termio σ Request
  | .input input => { m with state := m.state.push input }.record (.queued input)
  | .resize size =>
    let (gridChanged, m) := onResize w m size
    { m with pendingResize := some { size, gridChanged } }.record (.started size)
  | .request request => { m with world := w.onRequest m.world request }.record (.requested request)
  -- Neither is ever in the queue.
  | .shutdown | .powerShellCompatibility _ => m

/-- At most `n` commands. -/
def processCommands : ℕ → Step → Termio σ Request → Step × Termio σ Request
  | 0, step, m => (step, m)
  | n + 1, step, m =>
    match completeResize w m with
    | (.pending, m) => (step, m)
    | (.ready completed, m) =>
      let step := if completed then .advanced else step
      match inputPaused w m with
      | (true, m) => (step, m)
      | (false, m) =>
        match finishInput w m with
        | (.pending, m) => (step, m)
        | (.ready false, m) => (.shutdown, m)
        | (.ready true, m) =>
          match m.pendingCommands with
          | [] => (step, m)
          | (.shutdown, _) :: rest => (.shutdown, { m with pendingCommands := rest })
          | (msg, _) :: rest =>
            processCommands n .advanced (execute w { m with pendingCommands := rest } msg)

def processPendingCommands : Step × Termio σ Request := processCommands w 64 .idle m

def drainRecvChannel : Step × Termio σ Request :=
  match collect w 64 .idle m with
  | (.shutdown, m) => (.shutdown, m)
  | (step, m) =>
    match processPendingCommands w m with
    | (.idle, m) => (step, m)
    | processed => processed

/-! ### The loop -/

def pollIo : TaskPoll (Except ErrorKind Bool) × Termio σ Request :=
  match drainRecvChannel w m with
  | (.shutdown, m) => (.ready (.ok false), m)
  | (drained, m) =>
    match ptyRead w m with
    | (.error e, m) => (.ready (.error e), m)
    | (.ok read, m) =>
      match writeTo w m with
      | (.error e, m) => (.ready (.error e), m)
      | (.ok written, m) =>
        match processPendingCommands w m with
        | (.shutdown, m) => (.ready (.ok false), m)
        | (processed, m) =>
          let (exited, world) := if m.childExited then (true, m.world) else w.pollExit m.world
          let m := { m with world, childExited := exited }
          let advanced := drained = .advanced ∨ processed = .advanced
          if m.childExited ∧ read < maxReadBatch then (.ready (.ok false), m)
          else if advanced ∨ read ≠ 0 ∨ written ≠ 0 then (.ready (.ok true), m)
          else (.pending, m)

/-- One wakeup of the task, for the timer or for the rest; `false` ends the loop. -/
def wake : Bool × Termio σ Request :=
  match w.timerFired m.world with
  | (true, world) =>
    if w.snapshotPending world then
      match w.flushEngineState world with
      | (.ok (), world) => (true, { m with world })
      | (.error _, world) => (false, { m with world })
    else (true, { m with world })
  | (false, world) =>
    match pollIo w { m with world } with
    | (.ready (.ok live), m) => (live, m)
    | (.ready (.error _), m) => (false, m)
    | (.pending, m) => (true, m)

/-- The task after at most `n` wakeups. -/
def eventLoop : ℕ → Termio σ Request → Termio σ Request
  | 0, m => m
  | n + 1, m =>
    match wake w m with
    | (true, m) => eventLoop n m
    | (false, m) => m

end Termio

/-! ## What a log says -/

namespace Msg

def IsResize (msg : Msg Request) : Prop := ∃ size, msg = .resize size

def isInput : Msg Request → Bool
  | .input _ => true
  | _ => false

/-- The messages that go into the queue. -/
def isCommand : Msg Request → Bool
  | .shutdown | .powerShellCompatibility _ => false
  | _ => true

end Msg

namespace Event

def command : Event Request → Option (Msg Request)
  | .received msg => if msg.isCommand then some msg else none
  | _ => none

/-- The command that takes effect. -/
def effect : Event Request → Option (Msg Request)
  | .queued bytes => some (.input bytes)
  | .started size => some (.resize size)
  | .requested request => some (.request request)
  | _ => none

def toWrite : Event Request → List UInt8
  | .queued bytes | .responded bytes => bytes
  | _ => []

def written : Event Request → List UInt8
  | .wrote bytes => bytes
  | _ => []

/-- The resize that runs, when `flight` ran before. -/
def flight (flight : Option WinsizeBuilder) : Event Request → Option WinsizeBuilder
  | .started size => some size
  | .finished _ => none
  | _ => flight

end Event

section

variable (log : List (Event Request))

def submitted : List (Msg Request) := log.filterMap Event.command

def effects : List (Msg Request) := log.filterMap Event.effect

def toWrite : List UInt8 := log.flatMap Event.toWrite

def written : List UInt8 := log.flatMap Event.written

def inFlight : Option WinsizeBuilder := log.foldl Event.flight none

variable (e : Event Request)

@[simp] theorem submitted_concat : submitted (log ++ [e]) = submitted log ++ e.command.toList := by
  rw [submitted, filterMap_append]
  cases h : e.command <;> simp [submitted, h]

@[simp] theorem effects_concat : effects (log ++ [e]) = effects log ++ e.effect.toList := by
  rw [effects, filterMap_append]
  cases h : e.effect <;> simp [effects, h]

@[simp] theorem toWrite_concat : toWrite (log ++ [e]) = toWrite log ++ e.toWrite := by
  simp [toWrite]

@[simp] theorem written_concat : written (log ++ [e]) = written log ++ e.written := by
  simp [written]

@[simp] theorem inFlight_concat : inFlight (log ++ [e]) = e.flight (inFlight log) := by
  simp [inFlight]

end

/-- The command `msg` is the next to take effect: what was received before it has, but for resizes
that were merged into the next. -/
def InTurn (log : List (Event Request)) (msg : Msg Request) : Prop :=
  ∃ earlier later, submitted log = earlier ++ msg :: later ∧
    Coalesced Msg.IsResize (earlier ++ [msg]) (effects log ++ [msg]) ∧
    earlier.filter Msg.isInput = (effects log).filter Msg.isInput

/-- What may happen after a log. -/
def Allowed (log : List (Event Request)) : Event Request → Prop
  | .queued bytes => inFlight log = none ∧ InTurn log (.input bytes)
  | .requested request => inFlight log = none ∧ InTurn log (.request request)
  | .started size =>
    inFlight log = none ∧ InTurn log (.resize size) ∧ written log = toWrite log ∧
      log.getLast? = some .flushed
  | .finished size => inFlight log = some size
  | _ => True

/-! ## The invariant -/

def PtyState.remaining (state : PtyState) : List UInt8 :=
  state.writing.elim [] Writing.remainingBytes ++ state.writeList.flatten

structure Kept (log : List (Event Request)) (pending : List (Msg Request × Option ℕ))
    (flight : Option ResizeInFlight) (state : PtyState) : Prop where
  allowed : AtEach Allowed log
  order : Coalesced Msg.IsResize (submitted log) (effects log ++ pending.map Prod.fst)
  running : inFlight log = flight.map ResizeInFlight.size
  bytes : written log ++ state.remaining = toWrite log
  commands : ∀ command ∈ pending, command.1.isCommand

def Termio.Ordered (m : Termio σ Request) : Prop :=
  Kept m.log m.pendingCommands m.pendingResize m.state

namespace Writing

variable (c : Writing)

theorem remainingBytes_of_finished {c : Writing} (h : c.finished) : c.remainingBytes = [] := by
  rw [finished, decide_eq_true_eq] at h
  exact drop_eq_nil_of_le h

theorem take_remainingBytes (n : ℕ) :
    c.remainingBytes.take n ++ (c.advance n).remainingBytes = c.remainingBytes := by
  rw [remainingBytes, remainingBytes, advance, ← drop_drop, take_append_drop]

end Writing

namespace PtyState

variable {state : PtyState}

@[simp] theorem remaining_push (bytes : List UInt8) :
    (state.push bytes).remaining = state.remaining ++ bytes := by
  simp [remaining, push]

@[simp] theorem remaining_setCurrent (current : Writing) :
    (state.setCurrent current).remaining = current.remainingBytes ++ state.writeList.flatten := rfl

theorem remaining_of_not_needsWrite (h : state.needsWrite = false) : state.remaining = [] := by
  obtain ⟨writeList, writing⟩ := state
  simp only [needsWrite, Bool.or_eq_false_iff, Option.isSome_eq_false_iff,
    Option.isNone_iff_eq_none, Bool.not_eq_false', List.isEmpty_iff] at h
  obtain ⟨rfl, rfl⟩ := h
  rfl

theorem remaining_ensureNext : state.ensureNext.remaining = state.remaining := by
  obtain ⟨_ | ⟨next, rest⟩, _ | current⟩ := state <;> rfl

end PtyState

namespace Kept

variable {log : List (Event Request)} {pending : List (Msg Request × Option ℕ)}
  {flight : Option ResizeInFlight} {state : PtyState}

theorem start : Kept ([] : List (Event Request)) [] none {} :=
  ⟨atEach_nil, .nil, rfl, rfl, by simp⟩

theorem withState {state' : PtyState} (h : Kept log pending flight state)
    (hs : state'.remaining = state.remaining) : Kept log pending flight state' where
  allowed := h.allowed
  order := h.order
  running := h.running
  bytes := by rw [hs, h.bytes]
  commands := h.commands

/-- An event that is no command, and takes the next one or none. -/
theorem concat {e : Event Request} {pending' : List (Msg Request × Option ℕ)} (h : Kept log pending flight state)
    (he : Allowed log e) (hcommand : e.command = none) (hs : pending' <:+ pending)
    (heffect : pending.map Prod.fst = e.effect.toList ++ pending'.map Prod.fst)
    {flight' : Option ResizeInFlight}
    (hflight : e.flight (inFlight log) = flight'.map ResizeInFlight.size)
    {state' : PtyState}
    (hbytes : e.written ++ state'.remaining = state.remaining ++ e.toWrite) :
    Kept (log ++ [e]) pending' flight' state' where
  allowed := h.allowed.concat he
  order := by simpa [hcommand, heffect] using h.order
  running := by rw [inFlight_concat, hflight]
  bytes := by
    rw [written_concat, toWrite_concat, append_assoc, hbytes, ← append_assoc, h.bytes]
  commands := fun command hc => h.commands command (hs.mem hc)

theorem inTurn {msg : Msg Request} {limit : Option ℕ}
    (h : Kept log ((msg, limit) :: pending) flight state) : InTurn log msg := by
  obtain ⟨earlier, later, hsubmitted, hearlier⟩ := h.order.split_cons
  refine ⟨earlier, later, hsubmitted, hearlier, ?_⟩
  have hinput : ∀ msg : Msg Request, msg.isInput → ¬ msg.IsResize := by
    rintro _ hi ⟨size, rfl⟩
    cases hi
  have := hearlier.filter_eq hinput
  rw [filter_append, filter_append] at this
  exact append_cancel_right this

theorem responded (h : Kept log pending flight state) (bytes : List UInt8) :
    Kept (log ++ [.responded bytes]) pending flight (state.push bytes) :=
  h.concat (e := .responded bytes) trivial rfl suffix_rfl rfl h.running (PtyState.remaining_push bytes)

theorem flushed (h : Kept log pending flight state) :
    Kept (log ++ [.flushed]) pending flight state :=
  h.concat (e := .flushed) trivial rfl suffix_rfl rfl h.running (append_nil _).symm

theorem finished {resize : ResizeInFlight} (h : Kept log pending (some resize) state) :
    Kept (log ++ [.finished resize.size]) pending none state :=
  h.concat (e := .finished resize.size) h.running rfl suffix_rfl rfl rfl (append_nil _).symm

section

variable {limit : Option ℕ}

theorem queued {input : List UInt8} (h : Kept log ((.input input, limit) :: pending) none state) :
    Kept (log ++ [.queued input]) pending none (state.push input) :=
  h.concat (e := .queued input) ⟨h.running, h.inTurn⟩ rfl (suffix_cons _ _) rfl h.running
    (PtyState.remaining_push input)

theorem requested {request : Request}
    (h : Kept log ((.request request, limit) :: pending) none state) :
    Kept (log ++ [.requested request]) pending none state :=
  h.concat (e := .requested request) ⟨h.running, h.inTurn⟩ rfl (suffix_cons _ _) rfl h.running (append_nil _).symm

theorem started {size : WinsizeBuilder} (h : Kept log ((.resize size, limit) :: pending) none state)
    (hwrite : state.needsWrite = false) (hflushed : log.getLast? = some .flushed)
    (gridChanged : Bool) :
    Kept (log ++ [.started size]) pending (some { size, gridChanged }) state := by
  have hbytes := h.bytes
  rw [PtyState.remaining_of_not_needsWrite hwrite, append_nil] at hbytes
  exact h.concat (e := .started size) ⟨h.running, h.inTurn, hbytes, hflushed⟩ rfl (suffix_cons _ _) rfl rfl
    (append_nil _).symm

end

section

variable {current : Writing}

theorem last (h : Kept log pending flight (state.setCurrent current)) (hfinished : current.finished)
    (hlist : state.writeList = []) : Kept log pending flight ⟨[], none⟩ := by
  refine h.withState ?_
  rw [PtyState.remaining_setCurrent, Writing.remainingBytes_of_finished hfinished, hlist]
  rfl

theorem next {next : List UInt8} {rest : List (List UInt8)}
    (h : Kept log pending flight (state.setCurrent current)) (hfinished : current.finished)
    (hlist : state.writeList = next :: rest) : Kept log pending flight ⟨rest, some ⟨next, 0⟩⟩ := by
  refine h.withState ?_
  rw [PtyState.remaining_setCurrent, Writing.remainingBytes_of_finished hfinished, hlist]
  rfl

/-- At most the offered part of a chunk is written. -/
theorem wrote {n limit : ℕ} (h : Kept log pending flight (state.setCurrent current))
    (hn : n ≤ (current.remainingBytes.take limit).length) :
    Kept (log ++ [.wrote ((current.remainingBytes.take limit).take n)]) pending flight
      (state.setCurrent (current.advance n)) := by
  rw [take_take, Nat.min_eq_left (Nat.le_trans hn (length_take_le ..))]
  refine h.concat (e := .wrote (current.remainingBytes.take n)) trivial rfl suffix_rfl rfl h.running ?_
  rw [PtyState.remaining_setCurrent, PtyState.remaining_setCurrent, ← append_assoc]
  exact (congrArg (· ++ _) (current.take_remainingBytes n)).trans (append_nil _).symm

end

theorem skip (h : Kept log pending flight state) {msg : Msg Request}
    (hmsg : msg.isCommand = false) : Kept (log ++ [.received msg]) pending flight state := by
  refine h.concat (e := .received msg) trivial ?_ suffix_rfl rfl h.running ?_
  · rw [Event.command, if_neg (by simp [hmsg])]
  · exact (append_nil _).symm

theorem receive {msg : Msg Request} {pending' : List (Msg Request × Option ℕ)}
    (h : Kept log pending flight state) (hmsg : msg.isCommand)
    (horder : Coalesced Msg.IsResize (submitted log ++ [msg])
      (effects log ++ pending'.map Prod.fst))
    (hpending : ∀ command ∈ pending', command ∈ pending ∨ command.1 = msg) :
    Kept (log ++ [.received msg]) pending' flight state where
  allowed := h.allowed.concat trivial
  order := by simpa [Event.command, Event.effect, hmsg] using horder
  running := by rw [inFlight_concat, ← h.running]; rfl
  bytes := by simpa [Event.written, Event.toWrite] using h.bytes
  commands := by
    intro command hc
    rcases hpending command hc with hc | hc
    · exact h.commands command hc
    · rwa [hc]

end Kept

namespace Termio

variable {w : World σ Request} {m m' : Termio σ Request}

/-! ### Receiving -/

theorem Ordered.push (h : m.Ordered) {msg : Msg Request} (hmsg : msg.isCommand)
    (limit : Option ℕ) : Kept (m.log ++ [.received msg]) (m.pendingCommands ++ [(msg, limit)])
      m.pendingResize m.state := by
  refine Kept.receive h hmsg ?_ fun command hc => ?_
  · simpa using h.order.concat msg
  · rw [mem_append, mem_singleton] at hc
    exact hc.imp_right fun h => by rw [h]

/-- A resize comes in the place of one that still waits at the end. -/
theorem Ordered.merge (h : m.Ordered) {size previous : WinsizeBuilder} {limit : Option ℕ}
    (hlast : m.pendingCommands.getLast? = some (.resize previous, limit)) :
    Kept (m.log ++ [.received (.resize size)])
      (m.pendingCommands.dropLast ++ [(.resize size, limit)]) m.pendingResize m.state := by
  obtain ⟨init, hinit⟩ := getLast?_eq_some_iff.mp hlast
  rw [hinit, dropLast_concat]
  refine Kept.receive h rfl ?_ fun command hc => ?_
  · have horder := h.order
    rw [hinit, map_append, ← append_assoc] at horder
    rw [map_append, ← append_assoc]
    exact horder.replace ⟨previous, rfl⟩ ⟨size, rfl⟩
  · rw [hinit]
    rw [mem_append, mem_singleton] at hc ⊢
    exact hc.imp .inl fun h => by rw [h]

theorem Ordered.receive (h : m.Ordered) {msg : Msg Request} (world : σ) (hmsg : msg ≠ .shutdown) :
    (receive w ({ m with world }.record (.received msg)) msg).Ordered := by
  cases msg with
  | shutdown => exact absurd rfl hmsg
  | input input => exact h.push rfl _
  | request request => exact h.push rfl none
  | powerShellCompatibility enabled => exact Kept.skip h rfl
  | resize size =>
    rw [Termio.receive]
    split
    · next hlast => exact h.merge hlast
    · exact h.push rfl none

theorem Ordered.collect (h : m.Ordered) (n : ℕ) (step : Step) : (collect w n step m).2.Ordered := by
  induction n generalizing step m with
  | zero => exact h
  | succ n ih =>
    rw [Termio.collect]
    split
    · exact Kept.skip h rfl
    · next hmsg _ => exact ih (h.receive _ hmsg) .advanced
    · exact h

/-! ### Writing -/

theorem Ordered.writeMany {current : Writing} {written : ℕ}
    (h : Kept m.log m.pendingCommands m.pendingResize (m.state.setCurrent current)) :
    (writeMany w m current written).2.Ordered := by
  fun_induction Termio.writeMany w m current written with
  | case1 m current written hfinished hlist => exact h.last hfinished hlist
  | case2 m current written hfinished next rest hlist ih => exact ih (h.next hfinished hlist)
  | case3 | case4 | case5 => exact h
  | case6 m current written _ _ chunk n world hwrite ih =>
    exact ih (h.wrote (w.pollWrite_le hwrite))
  | case7 => exact h

theorem Ordered.writeTo (h : m.Ordered) : (writeTo w m).2.Ordered := by
  have hensure : Kept m.log m.pendingCommands m.pendingResize m.state.ensureNext :=
    Kept.withState h PtyState.remaining_ensureNext
  rw [Termio.writeTo]
  generalize m.state.ensureNext = state at hensure
  obtain ⟨writeList, _ | current⟩ := state
  · exact hensure
  · exact Ordered.writeMany hensure

theorem Ordered.ptyRead (h : m.Ordered) : (ptyRead w m).2.Ordered := by
  rw [Termio.ptyRead]
  rcases w.readBatch m.world with ⟨_ | processed, world⟩
  · exact h
  · have hresponded := Kept.responded h (w.takePtyWrites world).1
    dsimp only
    split_ifs with hrespond hidle hidle
    · exact hresponded
    · split
      · exact hresponded
      · exact hresponded
    · exact h
    · split
      · exact h
      · exact h

/-! ### Executing -/

/-- No resize runs, and nothing is left to write when one is next. -/
structure Executable (m : Termio σ Request) : Prop where
  ordered : m.Ordered
  idle : m.pendingResize = none
  drained : ∀ size limit rest, m.pendingCommands = (.resize size, limit) :: rest →
    m.state.needsWrite = false ∧ m.log.getLast? = some .flushed

theorem Ordered.completeResize (h : m.Ordered) {result : TaskPoll Bool}
    (hm : completeResize w m = (result, m')) :
    m'.Ordered ∧ (result = .pending ∨ m'.pendingResize = none) := by
  rw [Termio.completeResize] at hm
  split at hm
  · next hflight =>
    cases hm
    exact ⟨h, .inr hflight⟩
  · next flight hflight =>
    have hrunning : Kept m.log m.pendingCommands (some flight) m.state := hflight ▸ h
    have hfinished := hrunning.finished
    split at hm
    · cases hm
      exact ⟨h, .inl rfl⟩
    · dsimp only at hm
      split_ifs at hm
      all_goals
        cases hm
        exact ⟨hfinished, .inr rfl⟩

theorem Ordered.inputPaused (h : m.Ordered) {paused : Bool} (hm : inputPaused w m = (paused, m')) :
    m'.Ordered ∧ m'.pendingResize = m.pendingResize := by
  rw [Termio.inputPaused] at hm
  split at hm
  · cases hm
    exact ⟨h, rfl⟩
  · cases hm
    exact ⟨h, rfl⟩

theorem Ordered.finishInput (h : m.Ordered) (hidle : m.pendingResize = none)
    {result : TaskPoll Bool} (hm : finishInput w m = (result, m')) :
    m'.Ordered ∧ (result = .ready true → m'.Executable) := by
  rw [Termio.finishInput] at hm
  split at hm
  · split_ifs at hm with hwrite
    · cases hm
      exact ⟨h, fun hr => by cases hr⟩
    · split at hm
      · cases hm
        refine ⟨Kept.flushed h, fun _ => ⟨Kept.flushed h, hidle, fun _ _ _ _ => ⟨?_, ?_⟩⟩⟩
        · exact Bool.eq_false_iff.mpr hwrite
        · exact getLast?_concat
      · cases hm
        exact ⟨h, fun hr => by cases hr⟩
      · cases hm
        exact ⟨h, fun hr => by cases hr⟩
  · next hnext =>
    cases hm
    exact ⟨h, fun _ => ⟨h, hidle, fun size limit rest hm => absurd hm (hnext size limit rest)⟩⟩

theorem Executable.execute {msg : Msg Request} {limit : Option ℕ}
    {rest : List (Msg Request × Option ℕ)} (h : m.Executable)
    (hnext : m.pendingCommands = (msg, limit) :: rest) :
    (execute w { m with pendingCommands := rest } msg).Ordered := by
  have hkept : Kept m.log ((msg, limit) :: rest) none m.state := by
    rw [← hnext, ← h.idle]
    exact h.ordered
  cases msg with
  | input input => exact h.idle ▸ hkept.queued
  | resize size =>
    obtain ⟨hwrite, hflushed⟩ := h.drained size limit rest hnext
    exact hkept.started hwrite hflushed _
  | request request => exact h.idle ▸ hkept.requested
  | shutdown | powerShellCompatibility enabled => cases hkept.commands _ (.head _)

theorem Ordered.processCommands (h : m.Ordered) (n : ℕ) (step : Step) :
    (processCommands w n step m).2.Ordered := by
  induction n generalizing step m with
  | zero => exact h
  | succ n ih =>
    rw [Termio.processCommands]
    split
    · next hm => exact (h.completeResize hm).1
    · next completed m₁ hm =>
      obtain ⟨h₁, hidle | hidle⟩ := h.completeResize hm
      · cases hidle
      dsimp only
      split
      · next hm => exact (h₁.inputPaused hm).1
      · next m₂ hm =>
        obtain ⟨h₂, hsame⟩ := h₁.inputPaused hm
        have hfinish {result : TaskPoll Bool} {m₃ : Termio σ Request}
            (hm : Termio.finishInput w m₂ = (result, m₃)) := h₂.finishInput (hsame.trans hidle) hm
        split
        · next hm => exact (hfinish hm).1
        · next hm => exact (hfinish hm).1
        · next m₃ hm =>
          obtain ⟨h₃, hexecutable⟩ := hfinish hm
          split
          · exact h₃
          · next limit rest hnext =>
            have hmem : (Msg.shutdown, limit) ∈ m₃.pendingCommands := by
              rw [hnext]
              exact .head _
            cases h₃.commands _ hmem
          · next hnext => exact ih ((hexecutable rfl).execute hnext) .advanced

theorem Ordered.processPendingCommands (h : m.Ordered) : (processPendingCommands w m).2.Ordered :=
  h.processCommands 64 .idle

theorem Ordered.drainRecvChannel (h : m.Ordered) : (drainRecvChannel w m).2.Ordered := by
  have hcollect := h.collect (w := w) 64 .idle
  rw [Termio.drainRecvChannel]
  generalize Termio.collect w 64 .idle m = collected at hcollect
  split
  · exact hcollect
  · next step m₁ _ =>
    have hprocess := Ordered.processPendingCommands (w := w) hcollect
    generalize Termio.processPendingCommands w m₁ = processed at hprocess
    split
    · exact hprocess
    · exact hprocess

/-! ### The loop -/

theorem Ordered.pollIo (h : m.Ordered) : (pollIo w m).2.Ordered := by
  have hdrain := h.drainRecvChannel (w := w)
  rw [Termio.pollIo]
  generalize Termio.drainRecvChannel w m = drained at hdrain
  split
  · exact hdrain
  · next m₁ _ =>
    have hread := Ordered.ptyRead (w := w) hdrain
    generalize Termio.ptyRead w m₁ = read at hread
    split
    · exact hread
    · next m₂ =>
      have hwrite := Ordered.writeTo (w := w) hread
      generalize Termio.writeTo w m₂ = wrote at hwrite
      split
      · exact hwrite
      · next m₃ =>
        have hprocess := Ordered.processPendingCommands (w := w) hwrite
        generalize Termio.processPendingCommands w m₃ = processed at hprocess
        split
        · exact hprocess
        · dsimp only
          split_ifs <;> exact hprocess

theorem Ordered.wake (h : m.Ordered) : (wake w m).2.Ordered := by
  rw [Termio.wake]
  split
  · split
    · split
      · exact h
      · exact h
    · exact h
  · next world _ =>
    have hpoll : (Termio.pollIo w { m with world }).2.Ordered := Ordered.pollIo h
    generalize Termio.pollIo w { m with world } = polled at hpoll
    split
    · exact hpoll
    · exact hpoll
    · exact hpoll

theorem Ordered.eventLoop (h : m.Ordered) (n : ℕ) : (eventLoop w n m).Ordered := by
  induction n generalizing m with
  | zero => exact h
  | succ n ih =>
    have hwake := h.wake (w := w)
    rw [Termio.eventLoop]
    generalize Termio.wake w m = woken at hwake
    split
    · exact ih hwake
    · exact hwake

end Termio

/-- **Commands take effect in the order in which they were received**, whatever the PTY, the engine,
the clock and the channel do: only a resize that the next one follows is left out.  Nothing takes
effect while a resize runs, and one starts when everything queued before it has been written. -/
theorem commands_in_order (w : World σ Request) (world : σ) (n : ℕ) :
    let m := Termio.eventLoop w n { world }
    AtEach Allowed m.log ∧ Coalesced Msg.IsResize (submitted m.log)
      (effects m.log ++ m.pendingCommands.map Prod.fst) := by
  have hordered : ({ world } : Termio σ Request).Ordered := Kept.start
  have h := hordered.eventLoop (w := w) n
  exact ⟨h.allowed, h.order⟩

end PtyTask
end NiumaTerm.Terminal
