import NiumaTerm.Lib.Endian
import NiumaTerm.Terminal.CommandEcho

/-!
# The prompt sniffer

`PromptSniffer.feedHooked` finds OSC 133 marks in the reads of a PTY, hands everything on and keeps the
start of a mark that a read cut off in `carry`.  A function that would panic at an index is `none`.
`base64` stands for the crate's standard decoder.
-/

namespace NiumaTerm.Terminal

open Rust Endian

/-! ## Slices -/

/-- `&s[first..last]`. -/
def slice (s : Bytes) (first last : ℕ) : Option Bytes :=
  if first ≤ last ∧ last ≤ s.length then some ((s.take last).drop first) else none

/-- `a - b` of two `usize`. -/
def checkedSub (a b : ℕ) : Option ℕ := if b ≤ a then some (a - b) else none

/-! ## Marks -/

def esc : UInt8 := 0x1b

def bel : UInt8 := 0x07

def backslash : UInt8 := 0x5c

/-- `ESC ] 1 3 3 ;`. -/
def osc133Prefix : Bytes := [0x1b, 0x5d, 0x31, 0x33, 0x33, 0x3b]

def osc133Max : ℕ := 16 * 1024

def shortMarkMax : ℕ := 32

inductive PromptRegion
  | none
  | prompt
  | command
  | output
  deriving DecidableEq

inductive SniffedOsc
  | mark (len : ℕ) (sub : UInt8) (exit : Option ℤ) (next : Option PromptRegion) (cmdline : Option Str)
  | incomplete
  | notMark
  | malformed
  deriving DecidableEq

def regionFor (sub : UInt8) : Option PromptRegion :=
  if sub = 'A'.toUInt8 then some .prompt
  else if sub = 'B'.toUInt8 then some .command
  else if sub = 'C'.toUInt8 then some .output
  else if sub = 'D'.toUInt8 then some .none
  else none

/-- `str::parse::<i32>`. -/
def parseI32 (s : Str) : Option ℤ :=
  let digits := if s.head? = some '+' ∨ s.head? = some '-' then s.tail else s
  if digits ≠ [] ∧ digits.all Char.isDigit then
    let n : ℤ := digits.foldl (fun n c => n * 10 + (c.toNat - '0'.toNat : ℕ)) 0
    let n := if s.head? = some '-' then -n else n
    if -2 ^ 31 ≤ n ∧ n < 2 ^ 31 then some n else none
  else none

section

variable (base64 : Bytes → Option Bytes) (s : Bytes)

/-- The exit code of a `;D` mark, from what it has between its letter and its end. -/
def exitOf (sub : UInt8) (args : Bytes) : Option ℤ :=
  if sub = 'D'.toUInt8 then ((args.dropPrefix? [0x3b]).bind Utf8.fromUtf8).bind parseI32 else none

def cmdlinePrefix : Bytes := [0x3b, 0x63, 0x6d, 0x64, 0x6c, 0x69, 0x6e, 0x65, 0x3d]

/-- The command line of a `;C` mark. -/
def cmdlineOf (sub : UInt8) (args : Bytes) : Option Str :=
  if sub = 'C'.toUInt8 then
    ((args.dropPrefix? cmdlinePrefix).bind base64).bind Utf8.fromUtf8
  else none

/-- A mark that ends at `term`.  Only the letters that take arguments look at them. -/
def sniffedMark (sub : UInt8) (len term : ℕ) : Option SniffedOsc := do
  let args ← if sub = 'C'.toUInt8 ∨ sub = 'D'.toUInt8 then slice s (osc133Prefix.length + 1) term else some []
  some (.mark len sub (exitOf sub args) (regionFor sub) (cmdlineOf base64 sub args))

/-- The search for the terminator from `i` on, over `n` bytes. -/
def findTerminator (sub : UInt8) (limit : ℕ) : ℕ → ℕ → Option SniffedOsc
  | 0, _ => some (if s.length < limit then .incomplete else .malformed)
  | n + 1, i => do
    let b ← s[i]?
    if b = bel then sniffedMark base64 s sub (i + 1) i
    else if b = esc then
      if i + 1 < s.length then
        let next ← s[i + 1]?
        if next = backslash then sniffedMark base64 s sub (i + 2) i else some .malformed
      else some .incomplete
    else findTerminator sub limit n (i + 1)

def parseSniffedOsc : Option SniffedOsc := do
  let pn := min s.length osc133Prefix.length
  if (← slice s 0 pn) ≠ (← slice osc133Prefix 0 pn) then some .notMark
  else if s.length ≤ osc133Prefix.length then some .incomplete
  else
    let sub ← s[osc133Prefix.length]?
    let limit := if sub = 'C'.toUInt8 then osc133Max else shortMarkMax
    findTerminator base64 s sub limit (min s.length limit - osc133Prefix.length) osc133Prefix.length

end

/-! ## The lifecycle -/

inductive ShellBoundaryTrust
  | untrusted
  | trusted
  deriving DecidableEq

inductive ShellLifecycleProgress
  | awaitPrompt
  | inPrompt
  | inCommand
  | inOutput
  deriving DecidableEq

/-- A reading of the clock, as the number of readings before it. -/
abbrev SystemTime := ℕ

structure CommandStart where
  seq : ℕ
  command : Option Str
  cwd : Option Str
  startedAt : SystemTime
  deriving DecidableEq

structure CommandCapture where
  seq : ℕ
  command : Option Str
  exitCode : Option ℤ
  cwd : Option Str
  startedAt : SystemTime
  endedAt : SystemTime
  deriving DecidableEq

/-- `readings` is how often the clock was read. -/
structure PromptSniffer where
  region : PromptRegion := .none
  boundaryTrust : ShellBoundaryTrust := .untrusted
  boundaryTrustChanged : Option Bool := none
  lifecycle : ShellLifecycleProgress := .awaitPrompt
  carry : Bytes := []
  commandBuf : Bytes := []
  commandStartedAt : Option SystemTime := none
  currentCommand : Option Str := none
  promptStartEdge : Bool := false
  commandStartedEdge : Bool := false
  commandFinished : Option CommandCapture := none
  historyClearedEdge : Bool := false
  readings : ℕ := 0
  deriving DecidableEq

structure SnifferMark where
  bytes : Bytes
  trusted : Bool
  promptStarted : Bool
  commandStarted : Option CommandStart
  commandFinished : Option CommandCapture
  historyCleared : Bool
  deriving DecidableEq

/-- What the hooks of a feed hear, in order, and where the boundary state was reset, which no hook hears. -/
inductive SnifferEvent
  | forward (region : PromptRegion) (trusted : Bool) (bytes : Bytes)
  | mark (mark : SnifferMark)
  | reset

namespace PromptSniffer

def boundaryTrusted (s : PromptSniffer) : Bool := s.boundaryTrust = .trusted

def setBoundaryTrust (s : PromptSniffer) (trusted : Bool) : PromptSniffer :=
  let next : ShellBoundaryTrust := if trusted then .trusted else .untrusted
  if s.boundaryTrust ≠ next then { s with boundaryTrust := next, boundaryTrustChanged := some trusted } else s

/-- A finished command is kept. -/
def resetBoundaryState (s : PromptSniffer) : PromptSniffer :=
  { s.setBoundaryTrust false with
    lifecycle := .awaitPrompt
    region := .none
    commandBuf := []
    commandStartedAt := none
    currentCommand := none
    promptStartEdge := false
    commandStartedEdge := false }

/-- `none` where the lifecycle has no such step. -/
def advanceLifecycle (s : PromptSniffer) (r : PromptRegion) : Option PromptSniffer :=
  match s.lifecycle, r with
  | .awaitPrompt, .prompt => some { s with lifecycle := .inPrompt }
  | .inPrompt, .prompt => some { s with lifecycle := .inPrompt }
  | .inPrompt, .command => some { s with lifecycle := .inCommand }
  | .inCommand, .command => some { s with lifecycle := .inCommand }
  | .inCommand, .output => some { s with lifecycle := .inOutput }
  | .inOutput, .none => some ({ s with lifecycle := .awaitPrompt }.setBoundaryTrust true)
  | _, _ => none

def validTransition : PromptRegion → PromptRegion → Bool
  | .none, .none => true
  | .none, .prompt => true
  | .prompt, .prompt => true
  | .prompt, .command => true
  | .command, .command => true
  | .command, .output => true
  | .output, .none => true
  | .output, .prompt => true
  | _, _ => false

/-- The sniffer with the lifecycle one step on, if the mark is one that may come now. -/
def advance (s : PromptSniffer) (r : PromptRegion) : Option PromptSniffer :=
  if validTransition s.region r then s.advanceLifecycle r else none

/-- The output of a command begins. -/
def startOutput (s : PromptSniffer) (wasTrusted : Bool) (cmdline : Option Str) : PromptSniffer :=
  let (command, executed) : Option Str × Bool :=
    match cmdline with
    | some text => if trim text = [] then (none, false) else (some text, true)
    | none =>
      let echo := renderCommandEcho s.commandBuf
      (if echo = [] then none else some echo, true)
  { s with
    currentCommand := command
    commandStartedAt := if executed then some s.readings else none
    readings := if executed then s.readings + 1 else s.readings
    commandStartedEdge := wasTrusted && executed }

/-- A command is over. -/
def finishOutput (s : PromptSniffer) (wasTrusted : Bool) (exit : Option ℤ) : PromptSniffer :=
  let s' := { s with commandStartedAt := none, currentCommand := none, commandBuf := [] }
  match s.commandStartedAt with
  | some startedAt =>
    if wasTrusted then
      { s' with
        commandFinished := some ⟨0, s.currentCommand, exit, none, startedAt, s.readings⟩
        readings := s.readings + 1 }
    else s'
  | none => s'

def apply (s : PromptSniffer) (sub : UInt8) (next : Option PromptRegion) (exit : Option ℤ) (cmdline : Option Str) :
    PromptSniffer :=
  match next with
  | none => if sub = 'K'.toUInt8 then { s with historyClearedEdge := true } else s
  | some r =>
    match s.advance r with
    | none => s.resetBoundaryState
    | some a =>
      let a := if r = .prompt then { a with promptStartEdge := true } else a
      let a := if r = .output ∧ a.region ≠ .output then a.startOutput s.boundaryTrusted cmdline else a
      let a := if r = .command then { a with commandBuf := [] } else a
      let a := if sub = 'D'.toUInt8 ∧ r = .none then a.finishOutput s.boundaryTrusted exit else a
      { a with region := r }

/-- A mark that may not come now resets the boundary state. -/
def rejects (s : PromptSniffer) (next : Option PromptRegion) : Bool := next.any fun r => (s.advance r).isNone

def drainMark (s : PromptSniffer) (bytes : Bytes) : PromptSniffer × SnifferMark :=
  let now := s.commandStartedEdge && s.commandStartedAt.isNone
  ({ s with
      promptStartEdge := false, commandStartedEdge := false, commandFinished := none, historyClearedEdge := false
      readings := if now then s.readings + 1 else s.readings },
    { bytes
      trusted := s.boundaryTrusted
      promptStarted := s.promptStartEdge
      commandStarted :=
        if s.commandStartedEdge then some ⟨0, s.currentCommand, none, s.commandStartedAt.getD s.readings⟩ else none
      commandFinished := s.commandFinished
      historyCleared := s.historyClearedEdge })

def preForward (s : PromptSniffer) (seg : Bytes) : PromptSniffer :=
  if s.region = .command then { s with commandBuf := s.commandBuf ++ seg } else s

/-- A run of bytes that are no mark. -/
def forwardSeg (s : PromptSniffer) (seg : Bytes) : PromptSniffer × List SnifferEvent :=
  (s.preForward seg, [.forward s.region s.boundaryTrusted seg])

def onMark (s : PromptSniffer) (sub : UInt8) (exit : Option ℤ) (next : Option PromptRegion) (cmdline : Option Str)
    (bytes : Bytes) : PromptSniffer × List SnifferEvent :=
  let (s', mark) := (s.apply sub next exit cmdline).drainMark bytes
  (s', (if s.rejects next then [.reset] else []) ++ [.mark mark])

/-! ## A read -/

section

variable (base64 : Bytes → Option Bytes)

def forwardRun (s : PromptSniffer) (input : Bytes) (segStart last : ℕ) : Option (PromptSniffer × List SnifferEvent) :=
  if segStart < last then (slice input segStart last).map s.forwardSeg else some (s, [])

/-- The main scan, which takes no more steps than the first number. -/
def mainScan (input : Bytes) : ℕ → PromptSniffer → ℕ → ℕ → Option (PromptSniffer × List SnifferEvent)
  | 0, _, _, _ => none
  | n + 1, s, pos, segStart =>
    if pos < input.length then do
      let rest ← slice input pos input.length
      match rest.idxOf? esc with
      | none => s.forwardRun input segStart input.length
      | some off =>
        let at_ := pos + off
        let tail ← slice input at_ input.length
        match ← parseSniffedOsc base64 tail with
        | .mark len sub exit next cmdline =>
          let (s, before) ← s.forwardRun input segStart at_
          let (s, events) := s.onMark sub exit next cmdline (← slice input at_ (at_ + len))
          let (s, later) ← mainScan input n s (at_ + len) (at_ + len)
          some (s, before ++ (events ++ later))
        | .incomplete =>
          let (s, before) ← s.forwardRun input segStart at_
          let held ← slice tail 0 (min tail.length osc133Max)
          some ({ s with carry := s.carry ++ held }, before)
        | .notMark => mainScan input n s (at_ + 1) segStart
        | .malformed =>
          let (s, before) ← s.forwardRun input segStart at_
          let (s, later) ← mainScan input n s.resetBoundaryState (at_ + 1) at_
          some (s, before ++ (.reset :: later))
    else s.forwardRun input segStart input.length

/-- The start of a mark that an earlier read left.  The number is where the main scan begins; without one, the read
is used up. -/
def resolveCarry (s : PromptSniffer) (input : Bytes) : Option (PromptSniffer × List SnifferEvent × Option ℕ) := do
  let cl := s.carry.length
  let take := min (← checkedSub osc133Max cl) input.length
  let buf := s.carry ++ (← slice input 0 take)
  let s := { s with carry := [] }
  match ← parseSniffedOsc base64 buf with
  | .mark len sub exit next cmdline =>
    let (s, events) := s.onMark sub exit next cmdline (← slice buf 0 len)
    some (s, events, some (← checkedSub len cl))
  | .notMark =>
    let (s, events) := s.forwardSeg (← slice buf 0 cl)
    some (s, events, some 0)
  | result =>
    if result = .incomplete ∧ cl + take < osc133Max then some ({ s with carry := buf }, [], none)
    else
      let s := s.resetBoundaryState
      some (s, [.reset, .forward s.region s.boundaryTrusted (← slice buf 0 cl)], some 0)

def feedHooked (s : PromptSniffer) (input : Bytes) : Option (PromptSniffer × List SnifferEvent) :=
  if s.carry = [] then s.mainScan base64 input (input.length + 1) 0 0
  else do
    let (s, events, pos) ← s.resolveCarry base64 input
    match pos with
    | none => some (s, events)
    | some pos =>
      let (s, later) ← s.mainScan base64 input (input.length + 1) pos pos
      some (s, events ++ later)

/-- Reads, one after another. -/
def feedAll (s : PromptSniffer) : List Bytes → Option (PromptSniffer × List SnifferEvent)
  | [] => some (s, [])
  | input :: rest => do
    let (s, events) ← s.feedHooked base64 input
    let (s, later) ← s.feedAll rest
    some (s, events ++ later)

end

end PromptSniffer

end NiumaTerm.Terminal
