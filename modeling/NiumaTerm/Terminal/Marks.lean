import NiumaTerm.Lib.Transition
import NiumaTerm.Terminal.SnifferFeed

/-!
# What a terminal makes of the marks

`applySnifferMark` is the hook of the sniffer.  `Shell` is the sniffer with what the hook keeps, and
`shellSystem` has one step for a mark, for a reset and for some bytes: every read is a run of it
(`onReads_run`).
-/

namespace NiumaTerm.Terminal

open Rust Endian Transition List

/-! ## The hook -/

/-- What the engine does, which is Ghostty's. -/
structure Vt (Engine : Type) where
  write : Engine → UInt8 → Engine
  currentDirectory : Engine → Option Str
  altScreen : Engine → Bool
  /-- Whether there was a block to finish. -/
  finishBlock : Engine → Bool × Engine
  blockCount : Engine → ℕ
  clearBlocks : Engine → Engine

/-- `ESC [ 2 J ESC [ 3 J ESC [ H`. -/
def blockBoundaryClear : Bytes := [0x1b, 0x5b, 0x32, 0x4a, 0x1b, 0x5b, 0x33, 0x4a, 0x1b, 0x5b, 0x48]

inductive TerminalEvent
  | promptBoundaryTrusted (trusted : Bool)
  | promptStarted
  | commandStarted (start : CommandStart)
  | engineBlock (meta_ : CommandCapture)
  | commandFinished (cmd : CommandCapture)
  | historyCleared

variable {Engine : Type}

/-- What the hook is given of the terminal. -/
structure Owner (Engine : Type) where
  ghostty : Engine
  launchCwd : Option (Option Str) := none
  markSeq : ℕ := 0

namespace Owner

variable (vt : Vt Engine) (engineBlocks : Bool)

def writeVt (o : Owner Engine) (bytes : Bytes) : Owner Engine := { o with ghostty := bytes.foldl vt.write o.ghostty }

def promptMark (o : Owner Engine) (m : SnifferMark) : Owner Engine × List TerminalEvent :=
  if m.promptStarted && m.trusted then ({ o with markSeq := o.markSeq + 1 }, [.promptStarted]) else (o, [])

def startMark (o : Owner Engine) (m : SnifferMark) : Owner Engine × List TerminalEvent :=
  match m.commandStarted with
  | some start =>
    let cwd := vt.currentDirectory o.ghostty
    ({ o with launchCwd := some cwd }, [.commandStarted { start with seq := o.markSeq, cwd }])
  | none => (o, [])

def finishMark (o : Owner Engine) (m : SnifferMark) : Owner Engine × List TerminalEvent :=
  match m.commandFinished with
  | some cmd =>
    let cmd := { cmd with seq := o.markSeq, cwd := o.launchCwd.getD none }
    let o := { o with launchCwd := none }
    if m.trusted && !vt.altScreen o.ghostty && engineBlocks then
      let (finished, ghostty) := vt.finishBlock o.ghostty
      ({ o with ghostty }.writeVt vt blockBoundaryClear, (if finished then [.engineBlock cmd] else []) ++ [.commandFinished cmd])
    else (o, [.commandFinished cmd])
  | none => (o, [])

def clearMark (o : Owner Engine) (m : SnifferMark) : Owner Engine × List TerminalEvent :=
  if (m.historyCleared && m.trusted && engineBlocks) && !vt.altScreen o.ghostty then
    let o := o.writeVt vt blockBoundaryClear
    ({ o with ghostty := vt.clearBlocks o.ghostty }, [.historyCleared])
  else (o, [])

def applySnifferMark (o : Owner Engine) (m : SnifferMark) : Owner Engine × List TerminalEvent :=
  let o := o.writeVt vt m.bytes
  let (o, prompt) := o.promptMark m
  let (o, start) := o.startMark vt m
  let (o, finish) := o.finishMark vt engineBlocks m
  let (o, clear) := o.clearMark vt engineBlocks m
  (o, prompt ++ start ++ finish ++ clear)

/-- A hook of the sniffer. -/
def hear (o : Owner Engine) : SnifferEvent → Owner Engine × List TerminalEvent
  | .forward _ _ seg => (o.writeVt vt seg, [])
  | .mark m => o.applySnifferMark vt engineBlocks m
  | .reset => (o, [])

def hearAll (o : Owner Engine) : List SnifferEvent → Owner Engine × List TerminalEvent
  | [] => (o, [])
  | e :: rest =>
    let (o, now) := o.hear vt engineBlocks e
    let (o, later) := o.hearAll rest
    (o, now ++ later)

end Owner

structure Shell (Engine : Type) where
  owner : Owner Engine
  sniffer : PromptSniffer := {}

/-- A read of the PTY.  At the first read of a stream that was restarted, the terminal is a replica that starts anew. -/
inductive Read
  | chunk (input : Bytes)
  | streamReset

namespace Shell

variable (base64 : Bytes → Option Bytes) (vt : Vt Engine) (engineBlocks : Bool)

def onPtyChunk (sh : Shell Engine) (input : Bytes) : Option (Shell Engine × List TerminalEvent) := do
  let (sniffer, events) ← sh.sniffer.feedHooked base64 input
  let (owner, told) := sh.owner.hearAll vt engineBlocks events
  some ({ owner, sniffer := { sniffer with boundaryTrustChanged := none } },
    told ++ (sniffer.boundaryTrustChanged.map .promptBoundaryTrusted).toList)

def resetReplica (sh : Shell Engine) : Shell Engine × List TerminalEvent :=
  let owner := { sh.owner with launchCwd := none }
  let sniffer := { readings := sh.sniffer.readings }
  if engineBlocks && 0 < vt.blockCount owner.ghostty then
    (⟨{ owner with ghostty := vt.clearBlocks owner.ghostty }, sniffer⟩, [.historyCleared])
  else (⟨owner, sniffer⟩, [])

def onRead (sh : Shell Engine) : Read → Option (Shell Engine × List TerminalEvent)
  | .chunk input => sh.onPtyChunk base64 vt engineBlocks input
  | .streamReset => some (sh.resetReplica vt engineBlocks)

def onReads (sh : Shell Engine) : List Read → Option (Shell Engine × List TerminalEvent)
  | [] => some (sh, [])
  | r :: rest => do
    let (sh, now) ← sh.onRead base64 vt engineBlocks r
    let (sh, later) ← sh.onReads rest
    some (sh, now ++ later)

end Shell

/-! ## As a system -/

/-- A mark as the terminal took it: its letter, whether it was one that could come, the command line it reports, whether
the shell was trusted before it, the directory when it was written, and what the frontend was told. -/
structure MarkStep where
  letter : UInt8
  accepted : Bool
  cmdline : Option Str
  trusted : Bool
  cwd : Option Str
  events : List TerminalEvent

inductive Label
  | quiet (events : List TerminalEvent)
  | mark (m : MarkStep)
  | reset (events : List TerminalEvent)

def Label.events : Label → List TerminalEvent
  | .quiet events => events
  | .mark m => m.events
  | .reset events => events

section

variable (base64 : Bytes → Option Bytes) (vt : Vt Engine) (engineBlocks : Bool)

def takeMark (sh : Shell Engine) (sub : UInt8) (exit : Option ℤ) (next : Option PromptRegion) (cmdline : Option Str)
    (bytes : Bytes) : MarkStep × Shell Engine :=
  let (sniffer, m) := (sh.sniffer.apply sub next exit cmdline).drainMark bytes
  let (owner, events) := sh.owner.applySnifferMark vt engineBlocks m
  (⟨sub, !sh.sniffer.rejects next, cmdline, sh.sniffer.boundaryTrusted,
    vt.currentDirectory (bytes.foldl vt.write sh.owner.ghostty), events⟩, ⟨owner, sniffer⟩)

inductive Step : Shell Engine → Label → Shell Engine → Prop
  | bytes (sh : Shell Engine) (seg : Bytes) :
    Step sh (.quiet []) ⟨sh.owner.writeVt vt seg, sh.sniffer.preForward seg⟩
  | hold (sh : Shell Engine) (carry : Bytes) : Step sh (.quiet []) ⟨sh.owner, sh.sniffer.hold carry⟩
  | told (sh : Shell Engine) : Step sh (.quiet (sh.sniffer.boundaryTrustChanged.map .promptBoundaryTrusted).toList)
      ⟨sh.owner, { sh.sniffer with boundaryTrustChanged := none }⟩
  | mark (sh : Shell Engine) {bytes : Bytes} {sub : UInt8} {exit : Option ℤ} {next : Option PromptRegion}
      {cmdline : Option Str} (h : parseOsc base64 bytes = .mark bytes.length sub exit next cmdline) :
    Step sh (.mark (takeMark vt engineBlocks sh sub exit next cmdline bytes).1)
      (takeMark vt engineBlocks sh sub exit next cmdline bytes).2
  | reset (sh : Shell Engine) : Step sh (.reset []) ⟨sh.owner, sh.sniffer.resetBoundaryState⟩
  | replica (sh : Shell Engine) : Step sh (.reset (sh.resetReplica vt engineBlocks).2) (sh.resetReplica vt engineBlocks).1

/-- The system begins with an engine and nothing else. -/
def shellSystem : System (Shell Engine) Label where
  init sh := ∃ engine, sh = ⟨{ ghostty := engine }, {}⟩
  step := Step base64 vt engineBlocks

end

/-! ## Reads are runs -/

namespace Owner

variable (vt : Vt Engine) (engineBlocks : Bool)

def hearPiece (o : Owner Engine) : Piece → Owner Engine × List TerminalEvent
  | .byte _ _ b => (o.writeVt vt [b], [])
  | .mark m => o.applySnifferMark vt engineBlocks m
  | .reset => (o, [])

def hearPieces (o : Owner Engine) : List Piece → Owner Engine × List TerminalEvent
  | [] => (o, [])
  | p :: rest =>
    let (o, now) := o.hearPiece vt engineBlocks p
    let (o, later) := o.hearPieces rest
    (o, now ++ later)

variable {vt : Vt Engine} {engineBlocks : Bool} {o : Owner Engine}

theorem hearPieces_append (l m : List Piece) : o.hearPieces vt engineBlocks (l ++ m) =
    (((o.hearPieces vt engineBlocks l).1.hearPieces vt engineBlocks m).1,
      (o.hearPieces vt engineBlocks l).2 ++ ((o.hearPieces vt engineBlocks l).1.hearPieces vt engineBlocks m).2) := by
  induction l generalizing o with
  | nil => rfl
  | cons p l ih =>
    rw [cons_append, hearPieces, hearPieces]
    dsimp only
    rw [ih, append_assoc]

theorem hearPieces_bytes (region : PromptRegion) (trusted : Bool) (seg : Bytes) :
    o.hearPieces vt engineBlocks (seg.map (.byte region trusted)) = (o.writeVt vt seg, []) := by
  induction seg generalizing o with
  | nil => rfl
  | cons b seg ih =>
    rw [map_cons, hearPieces]
    dsimp only
    rw [ih]
    rfl

theorem hearAll_eq (events : List SnifferEvent) :
    o.hearAll vt engineBlocks events = o.hearPieces vt engineBlocks (events.flatMap SnifferEvent.pieces) := by
  induction events generalizing o with
  | nil => rfl
  | cons e events ih =>
    rw [flatMap_cons, hearPieces_append, hearAll]
    cases e with
    | forward region trusted seg =>
      rw [SnifferEvent.pieces, hearPieces_bytes]
      dsimp only [hear]
      rw [ih]
    | mark m =>
      dsimp only [hear, SnifferEvent.pieces, hearPieces, hearPiece]
      rw [ih, append_nil]
    | reset =>
      dsimp only [hear, SnifferEvent.pieces, hearPieces, hearPiece]
      rw [ih]
      rfl

end Owner

namespace PromptSniffer

variable {base64 : Bytes → Option Bytes} {vt : Vt Engine} {engineBlocks : Bool} {s : PromptSniffer}

/-- Whoever owns the sniffer, the pieces are steps of the system. -/
def Plays (base64 : Bytes → Option Bytes) (vt : Vt Engine) (engineBlocks : Bool) (s : PromptSniffer)
    (r : PromptSniffer × List Piece) : Prop :=
  ∀ o : Owner Engine, ∃ labels, Steps (shellSystem base64 vt engineBlocks) ⟨o, s⟩ labels
      ⟨(o.hearPieces vt engineBlocks r.2).1, r.1⟩ ∧
    labels.flatMap Label.events = (o.hearPieces vt engineBlocks r.2).2

theorem Plays.andThen {r : PromptSniffer × List Piece} {f : PromptSniffer → PromptSniffer × List Piece}
    (h : Plays base64 vt engineBlocks s r) (hf : Plays base64 vt engineBlocks r.1 (f r.1)) :
    Plays base64 vt engineBlocks s (PromptSniffer.andThen r f) := by
  intro o
  obtain ⟨first, hfirst, hnow⟩ := h o
  obtain ⟨second, hsecond, hlater⟩ := hf (o.hearPieces vt engineBlocks r.2).1
  refine ⟨first ++ second, ?_, ?_⟩
  · rw [andThen_fst, andThen_snd, Owner.hearPieces_append]
    exact hfirst.trans hsecond
  · rw [flatMap_append, hnow, hlater, andThen_snd, Owner.hearPieces_append]

theorem plays_done : Plays base64 vt engineBlocks s (s, []) := fun _ => ⟨[], .refl _, rfl⟩

theorem plays_hold (carry : Bytes) : Plays base64 vt engineBlocks s (s.hold carry, []) :=
  fun o => ⟨_, .single (.hold ⟨o, s⟩ carry), rfl⟩

theorem plays_put (seg : Bytes) : Plays base64 vt engineBlocks s (s.put seg) := by
  intro o
  refine ⟨[.quiet []], ?_, ?_⟩
  · rw [put, Owner.hearPieces_bytes]
    exact .single (.bytes ⟨o, s⟩ seg)
  · rw [put, Owner.hearPieces_bytes]
    rfl

theorem plays_reset : Plays base64 vt engineBlocks s (s.resetBoundaryState, [.reset]) :=
  fun o => ⟨_, .single (.reset ⟨o, s⟩), rfl⟩

theorem plays_onMark {bytes : Bytes} {sub : UInt8} {exit : Option ℤ} {next : Option PromptRegion}
    {cmdline : Option Str} (h : parseOsc base64 bytes = .mark bytes.length sub exit next cmdline) :
    Plays base64 vt engineBlocks s (flat (s.onMark sub exit next cmdline bytes)) := by
  intro o
  have hpieces : o.hearPieces vt engineBlocks (flat (s.onMark sub exit next cmdline bytes)).2 =
      o.applySnifferMark vt engineBlocks ((s.apply sub next exit cmdline).drainMark bytes).2 := by
    by_cases hr : s.rejects next = true
    · simp [flat, onMark, hr, SnifferEvent.pieces, Owner.hearPieces, Owner.hearPiece]
    · simp [flat, onMark, hr, SnifferEvent.pieces, Owner.hearPieces, Owner.hearPiece]
  refine ⟨[.mark (takeMark vt engineBlocks ⟨o, s⟩ sub exit next cmdline bytes).1], ?_, ?_⟩
  · rw [hpieces]
    exact .single (.mark ⟨o, s⟩ h)
  · rw [hpieces]
    exact append_nil _

theorem take_mark {a : Bytes} {len : ℕ} {sub : UInt8} {exit : Option ℤ} {next : Option PromptRegion}
    {cmdline : Option Str} (h : parseOsc base64 a = .mark len sub exit next cmdline) :
    parseOsc base64 (a.take len) = .mark (a.take len).length sub exit next cmdline := by
  obtain ⟨-, hlen, htake⟩ := parseOsc_mark h
  rw [htake, length_take, Nat.min_eq_left hlen]

theorem scan_plays (input : Bytes) : Plays base64 vt engineBlocks s (scan base64 s input) := by
  induction hn : input.length using Nat.strongRecOn generalizing s input with
  | ind n ih =>
    cases input with
    | nil =>
      rw [scan_nil]
      exact plays_done
    | cons b rest =>
      subst hn
      have hrest (s : PromptSniffer) : Plays base64 vt engineBlocks s (scan base64 s rest) :=
        ih rest.length (Nat.lt_succ_self _) rest rfl
      by_cases hb : b = esc
      · subst hb
        cases hparse : parseOsc base64 (esc :: rest) with
        | mark len sub exit next cmdline =>
          rw [scan_esc_mark hparse]
          have hpos := (parseOsc_mark hparse).1
          refine (plays_onMark (take_mark hparse)).andThen (ih ((esc :: rest).drop len).length ?_ _ rfl)
          rw [length_drop, length_cons]
          omega
        | incomplete =>
          rw [scan_esc_incomplete hparse]
          exact plays_hold (esc :: rest)
        | notMark =>
          rw [scan_esc_notMark hparse]
          exact (plays_put [esc]).andThen (hrest _)
        | malformed =>
          rw [scan_esc_malformed hparse]
          exact plays_reset.andThen ((plays_put [esc]).andThen (hrest _))
      · rw [scan, if_neg hb]
        exact (plays_put [b]).andThen (hrest _)

theorem giveUp_plays (carry input : Bytes) : Plays base64 vt engineBlocks s (giveUp base64 s carry input) :=
  plays_reset.andThen ((plays_put carry).andThen (scan_plays input))

variable (base64) (vt) (engineBlocks) in
theorem feed_plays (input : Bytes) : Plays base64 vt engineBlocks s (s.feed base64 input) := by
  unfold feed
  have hidle {r : PromptSniffer × List Piece} (h : Plays base64 vt engineBlocks (s.hold []) r) :
      Plays base64 vt engineBlocks s r := (plays_hold []).andThen (f := fun _ => r) h
  by_cases hc : s.carry = []
  · rw [if_pos hc]
    exact scan_plays input
  · rw [if_neg hc]
    cases hparse : parseOsc base64 ((s.carry ++ input).take osc133Max) with
    | mark len sub exit next cmdline =>
      have hall := parseOsc_of_take hparse SniffedOsc.noConfusion
      exact hidle ((plays_onMark (take_mark hall)).andThen (scan_plays _))
    | incomplete =>
      dsimp only
      split
      · exact plays_hold _
      · exact hidle (giveUp_plays _ _)
    | notMark => exact hidle ((plays_put _).andThen (scan_plays _))
    | malformed => exact hidle (giveUp_plays _ _)

end PromptSniffer

namespace Shell

variable {base64 : Bytes → Option Bytes} {vt : Vt Engine} {engineBlocks : Bool} {sh : Shell Engine}

variable (vt) (engineBlocks) in
theorem onRead_steps (h : PromptSniffer.Held base64 sh.sniffer.carry) (r : Read) : ∃ sh' labels,
    sh.onRead base64 vt engineBlocks r = some (sh', labels.flatMap Label.events) ∧
      Steps (shellSystem base64 vt engineBlocks) sh labels sh' ∧ PromptSniffer.Held base64 sh'.sniffer.carry := by
  cases r with
  | chunk input =>
    obtain ⟨⟨sniffer, events⟩, hr, hflat⟩ := PromptSniffer.feedHooked_eq h input
    obtain ⟨hfst, hsnd⟩ := PromptSniffer.flat_eq hflat
    have hheld := (PromptSniffer.feed_total base64 (s := sh.sniffer) input).2
    obtain ⟨labels, hsteps, htold⟩ := PromptSniffer.feed_plays base64 vt engineBlocks
      (s := sh.sniffer) input sh.owner
    rw [← hfst, ← hsnd, ← Owner.hearAll_eq] at hsteps
    rw [← hsnd, ← Owner.hearAll_eq] at htold
    have hlast : (shellSystem base64 vt engineBlocks).step ⟨(sh.owner.hearAll vt engineBlocks events).1, sniffer⟩
        (.quiet (sniffer.boundaryTrustChanged.map .promptBoundaryTrusted).toList)
        ⟨(sh.owner.hearAll vt engineBlocks events).1, { sniffer with boundaryTrustChanged := none }⟩ :=
      .told ⟨(sh.owner.hearAll vt engineBlocks events).1, sniffer⟩
    rw [← hfst] at hheld
    refine ⟨_, _, ?_, hsteps.tail hlast, hheld⟩
    rw [onRead, onPtyChunk, hr, flatMap_append, htold, flatMap_singleton]
    rfl
  | streamReset =>
    refine ⟨_, [.reset _], ?_, .single (.replica sh), ?_⟩
    · rw [onRead, flatMap_singleton]
      rfl
    · have hcarry : (sh.resetReplica vt engineBlocks).1.sniffer.carry = [] := by
        unfold resetReplica
        dsimp only
        split <;> rfl
      rw [hcarry]
      rfl

/-- **Reads are a run.** -/
theorem onReads_run (base64 : Bytes → Option Bytes) (vt : Vt Engine) (engineBlocks : Bool) (engine : Engine)
    (reads : List Read) : ∃ sh labels,
      (⟨{ ghostty := engine }, {}⟩ : Shell Engine).onReads base64 vt engineBlocks reads =
        some (sh, labels.flatMap Label.events) ∧
      Run (shellSystem base64 vt engineBlocks) labels sh := by
  suffices h : ∀ (sh : Shell Engine), PromptSniffer.Held base64 sh.sniffer.carry → ∃ sh' labels,
      sh.onReads base64 vt engineBlocks reads = some (sh', labels.flatMap Label.events) ∧
        Steps (shellSystem base64 vt engineBlocks) sh labels sh' by
    obtain ⟨sh, labels, hreads, hsteps⟩ := h ⟨{ ghostty := engine }, {}⟩ rfl
    have hinit : (shellSystem base64 vt engineBlocks).init ⟨{ ghostty := engine }, {}⟩ := ⟨engine, rfl⟩
    exact ⟨sh, labels, hreads, (Run.init hinit).append hsteps⟩
  intro sh hheld
  induction reads generalizing sh with
  | nil => exact ⟨sh, [], rfl, .refl sh⟩
  | cons r reads ih =>
    obtain ⟨sh₁, first, hread, hsteps, hheld⟩ := onRead_steps vt engineBlocks hheld r
    obtain ⟨sh₂, rest, hreads, hlater⟩ := ih sh₁ hheld
    refine ⟨sh₂, first ++ rest, ?_, hsteps.trans hlater⟩
    rw [onReads, hread, flatMap_append]
    dsimp only [Option.bind_eq_bind, Option.bind_some]
    rw [hreads]
    rfl

end Shell

end NiumaTerm.Terminal
