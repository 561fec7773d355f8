import NiumaTerm.Terminal.Checkpoint
import NiumaTerm.Terminal.CommandLifecycle

/-!
# Replayed marks

A checkpoint carries `replayMarks`, and a new sniffer that is fed these bytes goes on for the one they were
taken from.  `Sim`: two sniffers stand at the same place; the texts of a command that was under way may
differ.
-/

namespace NiumaTerm.Terminal

open Rust Endian List

/-! ## What is told of commands -/

/-- A command's start and finish, without their times. -/
inductive CommandEvent
  | started (command : Option Str)
  | finished (command : Option Str) (exitCode : Option ℤ)
  deriving DecidableEq

namespace SnifferMark

variable (base64 : Bytes → Option Bytes)

/-- The mark begins a new text: it is a prompt, a new command line or an end, or it reports the
command line itself. -/
def renews (m : SnifferMark) : Bool :=
  match parseSniffedOsc base64 m.bytes with
  | some (.mark _ sub _ next cmdline) =>
    if sub = 'C'.toUInt8 then cmdline.isSome else next.isSome
  | _ => false

/-- What the mark tells of commands.  A text that was under way is left out. -/
def commands (m : SnifferMark) (underWay : Bool) : List CommandEvent :=
  (m.commandStarted.map fun start =>
      .started (if underWay && !m.renews base64 then none else start.command)).toList ++
    (m.commandFinished.map fun cmd =>
      .finished (if underWay then none else cmd.command) cmd.exitCode).toList

end SnifferMark

section

variable (base64 : Bytes → Option Bytes)

/-- Whether a text is still under way after a piece. -/
def Piece.underWay (underWay : Bool) : Piece → Bool
  | .byte _ _ _ => underWay
  | .mark m => underWay && !m.renews base64
  | .reset => false

def Piece.commands (underWay : Bool) : Piece → List CommandEvent
  | .mark m => m.commands base64 underWay
  | .byte _ _ _ => []
  | .reset => []

/-- What pieces tell of commands, when a text is under way before them or not. -/
def commands : Bool → List Piece → List CommandEvent
  | _, [] => []
  | underWay, piece :: rest =>
    piece.commands base64 underWay ++ commands (piece.underWay base64 underWay) rest

end

namespace PromptSniffer

/-- A command has a text in the region or behind it. -/
def textUnderWay (s : PromptSniffer) : Bool := s.region = .command || s.region = .output

/-- **The marks restore the sniffer**: a new one that is fed them does from then on what this one
does, but for the texts of the command that is under way. -/
def Restores (base64 : Bytes → Option Bytes) (s : PromptSniffer) : Prop :=
  ∀ later : List Bytes, ∃ fresh replica original,
    ({} : PromptSniffer).feedHooked base64 s.replayMarks = some fresh ∧
    fresh.1.feedAll base64 later = some replica ∧ s.feedAll base64 later = some original ∧
    replica.1.region = original.1.region ∧
    replica.1.boundaryTrusted = original.1.boundaryTrusted ∧
    commands base64 s.textUnderWay (flat replica).2 =
      commands base64 s.textUnderWay (flat original).2

/-- Nothing is held, or a mark other than `;A` that any byte ends or breaks off. -/
def Harmless (carry : Bytes) : Prop :=
  carry = [] ∨ osc133Prefix.length < carry.length ∧ carry[osc133Prefix.length]? ≠ some 'A'.toUInt8 ∧
    (carry.getLast? = some esc ∨ carry.length + 1 = osc133Max)

/-- Where the marks restore the sniffer. -/
def Restorable (s : PromptSniffer) : Prop :=
  if s.boundaryTrusted then s.carry = [] ∧ ¬ (s.region = .output ∧ s.commandStartedAt = none)
  else s.region = .none ∧ Harmless s.carry

/-! ## Sniffers at the same place -/

/-- A command is only under way in its output. -/
structure Sound (s : PromptSniffer) : Prop where
  tidy : s.Tidy
  command : s.lifecycle ≠ .inOutput → s.currentCommand = none
  started : s.lifecycle ≠ .inOutput → s.commandStartedAt = none

structure Sim (underWay : Bool) (s t : PromptSniffer) : Prop where
  sound : s.Sound
  sound' : t.Sound
  lifecycle : s.lifecycle = t.lifecycle
  trust : s.boundaryTrusted = t.boundaryTrusted
  carry : s.carry = t.carry
  running : s.commandStartedAt.isSome = t.commandStartedAt.isSome
  buf : underWay = false → s.lifecycle = .inCommand → s.commandBuf = t.commandBuf
  title : underWay = false → s.currentCommand = t.currentCommand

variable {base64 : Bytes → Option Bytes} {s t a : PromptSniffer} {u : Bool} {r : PromptRegion}
  {sub : UInt8} {exit : Option ℤ} {cmdline : Option Str} {bytes : Bytes}

theorem Tidy.advance (h : s.Tidy) (r : PromptRegion) : s.advance r = s.advanceLifecycle r := by
  rw [PromptSniffer.advance, h.matched]
  cases hs : s.lifecycle <;> cases r <;> simp [ShellLifecycleProgress.region, validTransition,
    advanceLifecycle, hs]

theorem Sound.reset (h : s.Sound) : s.resetBoundaryState.Sound :=
  ⟨resetBoundaryState_tidy h.tidy, fun _ => rfl, fun _ => rfl⟩

/-- A sniffer that reset its boundary state stands where every other one stands that did. -/
theorem Sim.reset (h : Sim u s t) : Sim false s.resetBoundaryState t.resetBoundaryState where
  sound := h.sound.reset
  sound' := h.sound'.reset
  lifecycle := rfl
  trust := resetBoundaryState_untrusted.trans resetBoundaryState_untrusted.symm
  carry := by rw [resetBoundaryState_carry, resetBoundaryState_carry, h.carry]
  running := rfl
  buf := fun _ _ => rfl
  title := fun _ => rfl

theorem Sim.region (h : Sim u s t) : s.region = t.region := by
  rw [h.sound.tidy.matched, h.sound'.tidy.matched, h.lifecycle]

theorem preForward_sound (h : s.Sound) (seg : Bytes) : (s.preForward seg).Sound := by
  unfold preForward
  split
  · exact ⟨⟨h.tidy.matched, h.tidy.promptStartEdge, h.tidy.commandStartedEdge,
      h.tidy.commandFinished⟩, h.command, h.started⟩
  · exact h

theorem Sim.preForward (h : Sim u s t) (seg : Bytes) :
    Sim u (s.preForward seg) (t.preForward seg) := by
  have hs := preForward_sound h.sound seg
  have ht := preForward_sound h.sound' seg
  have hregion := h.region
  unfold PromptSniffer.preForward at *
  by_cases hc : s.region = .command
  · rw [if_pos hc] at hs ⊢
    rw [hregion] at hc
    rw [if_pos hc] at ht ⊢
    exact ⟨hs, ht, h.lifecycle, h.trust, h.carry, h.running,
      fun hu hl => by rw [h.buf hu hl], h.title⟩
  · rw [if_neg hc] at hs ⊢
    rw [hregion] at hc
    rw [if_neg hc] at ht ⊢
    exact h

/-! ### A mark -/

theorem Sim.advance_none (h : Sim u s t) (hs : s.advance r = none) : t.advance r = none := by
  rw [h.sound.tidy.advance] at hs
  rw [h.sound'.tidy.advance]
  unfold advanceLifecycle at hs ⊢
  rw [← h.lifecycle]
  cases hl : s.lifecycle <;> cases r <;> simp_all

/-- Two runs that tell the same, with a text under way before them or not, and end alike. -/
structure SimRun (base64 : Bytes → Option Bytes) (u : Bool) (r q : PromptSniffer × List Piece) :
    Prop where
  told : commands base64 u r.2 = commands base64 u q.2
  underWay : r.2.foldl (Piece.underWay base64) u = q.2.foldl (Piece.underWay base64) u
  sim : Sim (r.2.foldl (Piece.underWay base64) u) r.1 q.1

theorem flat_onMark (s : PromptSniffer) (sub : UInt8) (exit : Option ℤ) (next : Option PromptRegion)
    (cmdline : Option Str) (bytes : Bytes) : flat (s.onMark sub exit next cmdline bytes) =
      (((s.apply sub next exit cmdline).drainMark bytes).1,
        (if s.rejects next then [.reset] else []) ++
          [.mark ((s.apply sub next exit cmdline).drainMark bytes).2]) := by
  cases h : s.rejects next <;> simp [flat, onMark, h, SnifferEvent.pieces]

/-- A mark begins a new text. -/
def renewal (sub : UInt8) (next : Option PromptRegion) (cmdline : Option Str) : Bool :=
  if sub = 'C'.toUInt8 then cmdline.isSome else next.isSome

section

variable {len : ℕ} {next : Option PromptRegion}

variable (base64) in
theorem renews_of_parse (hparse : parseOsc base64 bytes = .mark len sub exit next cmdline)
    (s : PromptSniffer) : (s.drainMark bytes).2.renews base64 = renewal sub next cmdline := by
  have hbytes : (s.drainMark bytes).2.bytes = bytes := rfl
  rw [SnifferMark.renews, hbytes, parseSniffedOsc_eq, hparse]
  rfl

theorem simRun_mark (hparse : parseOsc base64 bytes = .mark len sub exit next cmdline)
    (hs : s.rejects next = false) (ht : t.rejects next = false)
    (hstart : ((s.apply sub next exit cmdline).drainMark bytes).2.commandStarted.map
        (fun start => if u && !renewal sub next cmdline then none else start.command) =
      ((t.apply sub next exit cmdline).drainMark bytes).2.commandStarted.map
        (fun start => if u && !renewal sub next cmdline then none else start.command))
    (hfinish : ((s.apply sub next exit cmdline).drainMark bytes).2.commandFinished.map
        (fun cmd => (if u then none else cmd.command, cmd.exitCode)) =
      ((t.apply sub next exit cmdline).drainMark bytes).2.commandFinished.map
        (fun cmd => (if u then none else cmd.command, cmd.exitCode)))
    (hsim : Sim (u && !renewal sub next cmdline) ((s.apply sub next exit cmdline).drainMark bytes).1
      ((t.apply sub next exit cmdline).drainMark bytes).1) :
    SimRun base64 u (flat (s.onMark sub exit next cmdline bytes))
      (flat (t.onMark sub exit next cmdline bytes)) := by
  have hrenews := renews_of_parse base64 hparse
  rw [flat_onMark, flat_onMark, hs, ht]
  refine ⟨?_, ?_, ?_⟩
  · have hstarted := congrArg (Option.map CommandEvent.started) hstart
    have hfinished := congrArg (Option.map fun f : Option Str × Option ℤ =>
      CommandEvent.finished f.1 f.2) hfinish
    rw [Option.map_map, Option.map_map] at hstarted hfinished
    simp only [Bool.false_eq_true, if_false, nil_append, commands, Piece.commands,
      SnifferMark.commands, hrenews]
    exact congrArg₂ (fun a b => (a.toList ++ b.toList) ++ []) hstarted hfinished
  · simp [Piece.underWay, hrenews]
  · simpa [Piece.underWay, hrenews] using hsim

theorem accepts (h : s.advance r = some a) : s.rejects (some r) = false := by
  simp [rejects, h]

theorem Sim.rejected (h : Sim u s t) (hs : s.advance r = none) :
    SimRun base64 u (flat (s.onMark sub exit (some r) cmdline bytes))
      (flat (t.onMark sub exit (some r) cmdline bytes)) := by
  have ht := h.advance_none hs
  have hm := takes_rejected sub exit cmdline bytes h.sound.tidy hs
  have hm' := takes_rejected sub exit cmdline bytes h.sound'.tidy ht
  have hreset := h.reset
  have hsr : s.rejects (some r) = true := by simp [rejects, hs]
  have htr : t.rejects (some r) = true := by simp [rejects, ht]
  rw [flat_onMark, flat_onMark, hsr, htr]
  refine ⟨?_, rfl, ?_⟩
  · simp [commands, Piece.commands, SnifferMark.commands, hm.start, hm.finish, hm'.start,
      hm'.finish]
  · rw [apply_rejected hs] at hm ⊢
    rw [apply_rejected ht] at hm' ⊢
    exact ⟨⟨hm.tidy, hreset.sound.command, hreset.sound.started⟩,
      ⟨hm'.tidy, hreset.sound'.command, hreset.sound'.started⟩, rfl, hreset.trust, hreset.carry,
      rfl, fun _ _ => rfl, fun _ => rfl⟩

theorem Sim.other (h : Sim u s t) (hsub : sub ≠ 'C'.toUInt8)
    (hparse : parseOsc base64 bytes = .mark len sub exit none cmdline) :
    SimRun base64 u (flat (s.onMark sub exit none cmdline bytes))
      (flat (t.onMark sub exit none cmdline bytes)) := by
  obtain ⟨hm, -⟩ := takes_other sub exit cmdline bytes h.sound.tidy
  obtain ⟨hm', -⟩ := takes_other sub exit cmdline bytes h.sound'.tidy
  refine simRun_mark hparse rfl rfl ?_ ?_ ?_
  · rw [hm.start, hm'.start]
  · rw [hm.finish, hm'.finish]
  · have hrenewal : (u && !renewal sub none cmdline) = u := by
      rw [renewal, if_neg hsub]
      exact Bool.and_true u
    have htidy := hm.tidy
    have htidy' := hm'.tidy
    rw [hrenewal]
    unfold apply at htidy htidy' ⊢
    by_cases hk : sub = 'K'.toUInt8
    · simp only [if_pos hk] at htidy htidy' ⊢
      exact ⟨⟨htidy, h.sound.command, h.sound.started⟩,
        ⟨htidy', h.sound'.command, h.sound'.started⟩, h.lifecycle, h.trust, h.carry, h.running,
        h.buf, h.title⟩
    · simp only [if_neg hk] at htidy htidy' ⊢
      exact ⟨⟨htidy, h.sound.command, h.sound.started⟩,
        ⟨htidy', h.sound'.command, h.sound'.started⟩, h.lifecycle, h.trust, h.carry, h.running,
        h.buf, h.title⟩

theorem Sim.prompt (h : Sim u s t)
    (hparse : parseOsc base64 bytes = .mark len sub exit (some .prompt) cmdline)
    (hl : s.lifecycle = .awaitPrompt ∨ s.lifecycle = .inPrompt)
    (hs : s.advance .prompt = some { s with lifecycle := .inPrompt })
    (ht : t.advance .prompt = some { t with lifecycle := .inPrompt }) :
    SimRun base64 u (flat (s.onMark sub exit (some .prompt) cmdline bytes))
      (flat (t.onMark sub exit (some .prompt) cmdline bytes)) := by
  have hm := takes_prompt sub exit cmdline bytes h.sound.tidy hs
  have hm' := takes_prompt sub exit cmdline bytes h.sound'.tidy ht
  refine simRun_mark hparse (accepts hs) (accepts ht) ?_ ?_ ?_
  · rw [hm.start, hm'.start]
  · rw [hm.finish, hm'.finish]
  · have hnot : s.lifecycle ≠ .inOutput := by rcases hl with hl | hl <;> simp [hl]
    have hnot' : t.lifecycle ≠ .inOutput := h.lifecycle ▸ hnot
    rw [apply_prompt hs] at hm ⊢
    rw [apply_prompt ht] at hm' ⊢
    exact ⟨⟨hm.tidy, fun _ => h.sound.command hnot, fun _ => h.sound.started hnot⟩,
      ⟨hm'.tidy, fun _ => h.sound'.command hnot', fun _ => h.sound'.started hnot'⟩,
      rfl, h.trust, h.carry, h.running, fun _ hc => ShellLifecycleProgress.noConfusion hc,
      fun _ => (h.sound.command hnot).trans (h.sound'.command hnot').symm⟩

theorem Sim.command (h : Sim u s t)
    (hparse : parseOsc base64 bytes = .mark len sub exit (some .command) cmdline)
    (hl : s.lifecycle = .inPrompt ∨ s.lifecycle = .inCommand)
    (hs : s.advance .command = some { s with lifecycle := .inCommand })
    (ht : t.advance .command = some { t with lifecycle := .inCommand }) :
    SimRun base64 u (flat (s.onMark sub exit (some .command) cmdline bytes))
      (flat (t.onMark sub exit (some .command) cmdline bytes)) := by
  have hm := takes_command sub exit cmdline bytes h.sound.tidy hs
  have hm' := takes_command sub exit cmdline bytes h.sound'.tidy ht
  refine simRun_mark hparse (accepts hs) (accepts ht) ?_ ?_ ?_
  · rw [hm.start, hm'.start]
  · rw [hm.finish, hm'.finish]
  · have hnot : s.lifecycle ≠ .inOutput := by rcases hl with hl | hl <;> simp [hl]
    have hnot' : t.lifecycle ≠ .inOutput := h.lifecycle ▸ hnot
    rw [apply_command hs] at hm ⊢
    rw [apply_command ht] at hm' ⊢
    exact ⟨⟨hm.tidy, fun _ => h.sound.command hnot, fun _ => h.sound.started hnot⟩,
      ⟨hm'.tidy, fun _ => h.sound'.command hnot', fun _ => h.sound'.started hnot'⟩,
      rfl, h.trust, h.carry, h.running, fun _ _ => rfl,
      fun _ => (h.sound.command hnot).trans (h.sound'.command hnot').symm⟩

/-- The output begins.  Where a text is under way, only the shell's report makes the titles the
same. -/
theorem Sim.output (h : Sim u s t)
    (hparse : parseOsc base64 bytes = .mark len 'C'.toUInt8 exit (some .output) cmdline)
    (hl : s.lifecycle = .inCommand)
    (hs : s.advance .output = some { s with lifecycle := .inOutput })
    (ht : t.advance .output = some { t with lifecycle := .inOutput }) :
    SimRun base64 u (flat (s.onMark 'C'.toUInt8 exit (some .output) cmdline bytes))
      (flat (t.onMark 'C'.toUInt8 exit (some .output) cmdline bytes)) := by
  have hl' : t.lifecycle = .inCommand := h.lifecycle ▸ hl
  have hregion := h.sound.tidy.region_of_inCommand hl
  have hregion' := h.sound'.tidy.region_of_inCommand hl'
  have hrenewal : renewal 'C'.toUInt8 (some .output) cmdline = cmdline.isSome := rfl
  by_cases hblank : blank cmdline
  · obtain ⟨hm, -⟩ := takes_output 'C'.toUInt8 exit bytes h.sound.tidy hl hs hblank
    obtain ⟨hm', -⟩ := takes_output 'C'.toUInt8 exit bytes h.sound'.tidy hl' ht hblank
    refine simRun_mark hparse (accepts hs) (accepts ht) ?_ ?_ ?_
    · rw [hm.start, hm'.start]
    · rw [hm.finish, hm'.finish]
    · rw [apply_blank hregion hs hblank] at hm ⊢
      rw [apply_blank hregion' ht hblank] at hm' ⊢
      exact ⟨⟨hm.tidy, fun _ => rfl, fun _ => rfl⟩, ⟨hm'.tidy, fun _ => rfl, fun _ => rfl⟩, rfl,
        h.trust, h.carry, rfl, fun _ hc => ShellLifecycleProgress.noConfusion hc, fun _ => rfl⟩
  · obtain ⟨hm, -⟩ := takes_output_run 'C'.toUInt8 exit bytes h.sound.tidy hl hs hblank
    obtain ⟨hm', -⟩ := takes_output_run 'C'.toUInt8 exit bytes h.sound'.tidy hl' ht hblank
    have htitle (hu : (u && !cmdline.isSome) = false) : titleOf s cmdline = titleOf t cmdline := by
      cases cmdline with
      | some text => rfl
      | none => rw [titleOf, titleOf, h.buf (by simpa using hu) hl]
    refine simRun_mark hparse (accepts hs) (accepts ht) ?_ ?_ ?_
    · rw [hm.start, hm'.start, ← h.trust, hrenewal]
      cases s.boundaryTrusted with
      | false => rfl
      | true =>
        cases hu : u && !cmdline.isSome with
        | true => rfl
        | false => exact congrArg some (htitle hu)
    · rw [hm.finish, hm'.finish]
    · rw [apply_run hregion hs hblank] at hm ⊢
      rw [apply_run hregion' ht hblank] at hm' ⊢
      exact ⟨⟨hm.tidy, fun hn => absurd rfl hn, fun hn => absurd rfl hn⟩,
        ⟨hm'.tidy, fun hn => absurd rfl hn, fun hn => absurd rfl hn⟩, rfl, h.trust, h.carry, rfl,
        fun _ hc => ShellLifecycleProgress.noConfusion hc, htitle⟩

theorem Sim.finish (h : Sim u s t)
    (hparse : parseOsc base64 bytes = .mark len 'D'.toUInt8 exit (some .none) cmdline)
    (hs : s.advance .none = some ({ s with lifecycle := .awaitPrompt }.setBoundaryTrust true))
    (ht : t.advance .none = some ({ t with lifecycle := .awaitPrompt }.setBoundaryTrust true)) :
    SimRun base64 u (flat (s.onMark 'D'.toUInt8 exit (some .none) cmdline bytes))
      (flat (t.onMark 'D'.toUInt8 exit (some .none) cmdline bytes)) := by
  have hm := takes_finish exit cmdline bytes h.sound.tidy hs
  have hm' := takes_finish exit cmdline bytes h.sound'.tidy ht
  refine simRun_mark hparse (accepts hs) (accepts ht) ?_ ?_ ?_
  · rw [hm.start, hm'.start]
  · rw [hm.finish, hm'.finish, ← h.trust]
    have hrunning := h.running
    cases s.boundaryTrusted with
    | false => rfl
    | true =>
      cases hs : s.commandStartedAt <;> cases ht : t.commandStartedAt <;> rw [hs, ht] at hrunning
      · rfl
      · cases hrunning
      · cases hrunning
      · cases hu : u with
        | true => rfl
        | false =>
          show some (s.currentCommand, exit) = some (t.currentCommand, exit)
          rw [h.title hu]
  · obtain ⟨_, happly⟩ := apply_finish exit cmdline h.sound.tidy hs
    obtain ⟨_, happly'⟩ := apply_finish exit cmdline h.sound'.tidy ht
    rw [happly] at hm ⊢
    rw [happly'] at hm' ⊢
    exact ⟨⟨hm.tidy, fun _ => rfl, fun _ => rfl⟩, ⟨hm'.tidy, fun _ => rfl, fun _ => rfl⟩, rfl, rfl,
      h.carry, rfl, fun _ hc => ShellLifecycleProgress.noConfusion hc, fun _ => rfl⟩

theorem eq_c_of_output (h : regionFor sub = some .output) : sub = 'C'.toUInt8 := by
  rcases regionFor_cases sub with ⟨-, hr⟩ | ⟨-, hr⟩ | ⟨hc, -⟩ | ⟨-, hr⟩ | ⟨hr, -⟩
  · rw [hr] at h; cases h
  · rw [hr] at h; cases h
  · exact hc
  · rw [hr] at h; cases h
  · rw [hr] at h; cases h

theorem eq_d_of_none (h : regionFor sub = some .none) : sub = 'D'.toUInt8 := by
  rcases regionFor_cases sub with ⟨-, hr⟩ | ⟨-, hr⟩ | ⟨-, hr⟩ | ⟨hd, -⟩ | ⟨hr, -⟩
  · rw [hr] at h; cases h
  · rw [hr] at h; cases h
  · rw [hr] at h; cases h
  · exact hd
  · rw [hr] at h; cases h

/-- **A mark** keeps two sniffers alike, whichever it is. -/
theorem Sim.onMark (h : Sim u s t)
    (hparse : parseOsc base64 bytes = .mark len sub exit next cmdline) :
    SimRun base64 u (flat (s.onMark sub exit next cmdline bytes))
      (flat (t.onMark sub exit next cmdline bytes)) := by
  obtain rfl := parseOsc_next hparse
  cases hnext : regionFor sub with
  | none =>
    rw [hnext] at hparse
    refine h.other (fun hc => ?_) hparse
    rw [hc] at hnext
    cases hnext
  | some r =>
    rw [hnext] at hparse
    cases hs : s.advance r with
    | none => exact h.rejected hs
    | some a =>
      have ht := h.sound'.tidy.advance r
      unfold advanceLifecycle at ht
      rw [← h.lifecycle] at ht
      rcases advance_cases hs with ⟨rfl, hl, rfl⟩ | ⟨rfl, hl, rfl⟩ | ⟨rfl, hl, rfl⟩ | ⟨rfl, hl, rfl⟩
      · exact h.prompt hparse hl hs (by rcases hl with hl | hl <;> simpa [hl] using ht)
      · exact h.command hparse hl hs (by rcases hl with hl | hl <;> simpa [hl] using ht)
      · obtain rfl := eq_c_of_output hnext
        exact h.output hparse hl hs (by simpa [hl] using ht)
      · obtain rfl := eq_d_of_none hnext
        exact h.finish hparse hs (by simpa [hl] using ht)

end

/-! ### A read -/

theorem commands_append (l m : List Piece) : commands base64 u (l ++ m) =
    commands base64 u l ++ commands base64 (l.foldl (Piece.underWay base64) u) m := by
  induction l generalizing u with
  | nil => rfl
  | cons piece l ih =>
    rw [cons_append, commands, ih, commands, append_assoc, foldl_cons]

variable (base64) in
theorem put_told (seg : Bytes) : commands base64 u (s.put seg).2 = [] ∧
    (s.put seg).2.foldl (Piece.underWay base64) u = u := by
  rw [put]
  induction seg with
  | nil => exact ⟨rfl, rfl⟩
  | cons b seg ih => exact ih

theorem SimRun.andThen {r q : PromptSniffer × List Piece}
    {f g : PromptSniffer → PromptSniffer × List Piece} (h : SimRun base64 u r q)
    (hf : ∀ v, Sim v r.1 q.1 → SimRun base64 v (f r.1) (g q.1)) :
    SimRun base64 u (andThen r f) (andThen q g) := by
  have hlater := hf _ h.sim
  refine ⟨?_, ?_, ?_⟩
  · rw [andThen_snd, andThen_snd, commands_append, commands_append, h.told, ← h.underWay,
      hlater.told]
  · rw [andThen_snd, andThen_snd, foldl_append, foldl_append, ← h.underWay, hlater.underWay]
  · rw [andThen_snd, foldl_append]
    exact hlater.sim

theorem Sim.done (h : Sim u s t) : SimRun base64 u (s, []) (t, []) := ⟨rfl, rfl, h⟩

theorem Sim.put (h : Sim u s t) (seg : Bytes) : SimRun base64 u (s.put seg) (t.put seg) := by
  obtain ⟨hs, hsu⟩ := put_told base64 (u := u) (s := s) seg
  obtain ⟨ht, htu⟩ := put_told base64 (u := u) (s := t) seg
  refine ⟨hs.trans ht.symm, hsu.trans htu.symm, ?_⟩
  rw [hsu]
  exact h.preForward seg

theorem Sim.doReset (h : Sim u s t) :
    SimRun base64 u (s.resetBoundaryState, [.reset]) (t.resetBoundaryState, [.reset]) :=
  ⟨rfl, rfl, h.reset⟩

theorem Sim.hold (h : Sim u s t) (carry : Bytes) : Sim u (s.hold carry) (t.hold carry) :=
  ⟨⟨⟨h.sound.tidy.matched, h.sound.tidy.promptStartEdge, h.sound.tidy.commandStartedEdge,
      h.sound.tidy.commandFinished⟩, h.sound.command, h.sound.started⟩,
    ⟨⟨h.sound'.tidy.matched, h.sound'.tidy.promptStartEdge, h.sound'.tidy.commandStartedEdge,
      h.sound'.tidy.commandFinished⟩, h.sound'.command, h.sound'.started⟩,
    h.lifecycle, h.trust, rfl, h.running, h.buf, h.title⟩

theorem scan_sim (h : Sim u s t) (input : Bytes) :
    SimRun base64 u (scan base64 s input) (scan base64 t input) := by
  induction hn : input.length using Nat.strongRecOn generalizing s t u input with
  | ind n ih =>
    cases input with
    | nil =>
      rw [scan_nil, scan_nil]
      exact h.done
    | cons b rest =>
      subst hn
      have hrest {s t : PromptSniffer} (v : Bool) (h : Sim v s t) :=
        ih rest.length (Nat.lt_succ_self _) h rest rfl
      by_cases hb : b = esc
      · subst hb
        cases hparse : parseOsc base64 (esc :: rest) with
        | mark len sub exit next cmdline =>
          obtain ⟨hpos, -, htake⟩ := parseOsc_mark hparse
          rw [scan_esc_mark hparse, scan_esc_mark hparse]
          refine (h.onMark htake).andThen fun v hv => ih _ ?_ hv _ rfl
          rw [length_drop, length_cons]
          omega
        | incomplete =>
          rw [scan_esc_incomplete hparse, scan_esc_incomplete hparse]
          exact (h.hold (esc :: rest)).done
        | notMark =>
          rw [scan_esc_notMark hparse, scan_esc_notMark hparse]
          exact (h.put [esc]).andThen hrest
        | malformed =>
          rw [scan_esc_malformed hparse, scan_esc_malformed hparse]
          exact h.doReset.andThen fun v hv => (hv.put [esc]).andThen hrest
      · rw [scan, if_neg hb, scan, if_neg hb]
        exact (h.put [b]).andThen hrest

theorem giveUp_sim (h : Sim u s t) (carry input : Bytes) :
    SimRun base64 u (giveUp base64 s carry input) (giveUp base64 t carry input) :=
  h.doReset.andThen fun _ hv => (hv.put carry).andThen fun _ hw => scan_sim hw input

theorem feed_sim (h : Sim u s t) (input : Bytes) :
    SimRun base64 u (s.feed base64 input) (t.feed base64 input) := by
  unfold feed
  rw [h.carry]
  by_cases hc : t.carry = []
  · rw [if_pos hc, if_pos hc]
    exact scan_sim h input
  · rw [if_neg hc, if_neg hc]
    have hhold := h.hold []
    cases hparse : parseOsc base64 ((t.carry ++ input).take osc133Max) with
    | mark len sub exit next cmdline =>
      obtain ⟨-, hle, htake⟩ := parseOsc_mark hparse
      rw [take_take, Nat.min_eq_left (hle.trans (length_take_le ..))] at htake
      exact (hhold.onMark htake).andThen fun _ hv => scan_sim hv _
    | incomplete =>
      dsimp only
      split
      · exact (h.hold _).done
      · exact giveUp_sim hhold _ _
    | notMark => exact (hhold.put _).andThen fun _ hv => scan_sim hv input
    | malformed => exact giveUp_sim hhold _ _

variable (base64) in
/-- **Sniffers that are alike stay alike**, whatever they read, and tell the same. -/
theorem feedReads_sim (h : Sim u s t) (reads : List Bytes) :
    SimRun base64 u (s.feedReads base64 reads) (t.feedReads base64 reads) := by
  induction reads generalizing s t u with
  | nil => exact h.done
  | cons input rest ih => exact (feed_sim h input).andThen fun _ hv => ih hv

end PromptSniffer

/-! ## More bytes after what is held -/

/-- The ending of bytes that stand behind `k` others. -/
def Ending.shift (k : ℕ) : Ending → Ending
  | .ends after width => .ends (after + k) width
  | .incomplete => .incomplete
  | .malformed => .malformed

section

variable {n : ℕ} {l : Bytes}

/-- Of what is held without an ESC at its end, nothing is decided. -/
theorem ending_open (h : ending n l = .incomplete) (hlast : l.getLast? ≠ some esc) (t : Bytes) :
    ending n (l ++ t) = (ending (n - l.length) t).shift l.length := by
  induction n generalizing l with
  | zero => cases h
  | succ n ih =>
    cases l with
    | nil => cases hs : ending (n + 1) t <;> simp [Ending.shift, hs]
    | cons b rest =>
      rw [ending] at h
      rw [cons_append, ending]
      by_cases hbel : b = bel
      · rw [if_pos hbel] at h
        cases h
      · rw [if_neg hbel] at h ⊢
        by_cases hesc : b = esc
        · rw [if_pos hesc] at h
          by_cases hrest : rest = []
          · rw [hrest, hesc] at hlast
            exact absurd rfl hlast
          · rw [if_neg hrest] at h
            split at h <;> cases h
        · rw [if_neg hesc] at h ⊢
          have hrest : ending n rest = .incomplete := later_eq_incomplete h
          have hlast' : rest.getLast? ≠ some esc := by
            intro he
            rw [getLast?_cons, he] at hlast
            exact hlast rfl
          rw [ih hrest hlast', length_cons, Nat.add_sub_add_right]
          cases ending (n - rest.length) t with
          | ends after width => rw [Ending.shift, Ending.shift, Ending.later, Nat.add_assoc]
          | incomplete | malformed => rfl

/-- After an ESC the next byte decides. -/
theorem ending_esc (h : ending n l = .incomplete) (hlast : l.getLast? = some esc) (b : UInt8)
    (t : Bytes) : ending n (l ++ b :: t) =
      if b = backslash then .ends (l.length - 1) 2 else .malformed := by
  induction n generalizing l with
  | zero => cases h
  | succ n ih =>
    cases l with
    | nil => cases hlast
    | cons c rest =>
      rw [ending] at h
      rw [cons_append, ending]
      by_cases hbel : c = bel
      · rw [if_pos hbel] at h
        cases h
      · rw [if_neg hbel] at h ⊢
        by_cases hesc : c = esc
        · rw [if_pos hesc] at h ⊢
          by_cases hrest : rest = []
          · subst hrest
            simp
          · rw [if_neg hrest] at h
            split at h <;> cases h
        · rw [if_neg hesc] at h ⊢
          have hrest : rest ≠ [] := by
            rintro rfl
            rw [getLast?_singleton, Option.some.injEq] at hlast
            exact hesc hlast
          have hlast' : rest.getLast? = some esc := by
            rwa [getLast?_cons_of_ne_nil hrest] at hlast
          rw [ih (later_eq_incomplete h) hlast']
          have hpos := length_pos_of_ne_nil hrest
          split
          · rw [Ending.later, length_cons, Nat.sub_add_cancel hpos, Nat.add_sub_cancel]
          · rfl

end

namespace PromptSniffer

variable {base64 : Bytes → Option Bytes} {s : PromptSniffer} {carry : Bytes}

theorem held_cases (h : Held base64 carry) : carry <+: osc133Prefix ∨
    ∃ sub rest, carry = osc133Prefix ++ sub :: rest ∧
      ending (limitOf sub - osc133Prefix.length) (sub :: rest) = .incomplete := by
  rcases parseOsc_cases base64 carry with ⟨sub, rest, rfl, hs⟩ | ⟨hpre, -⟩ | ⟨-, -, hs⟩
  · rw [Held, hs, parseArgs] at h
    refine .inr ⟨sub, rest, rfl, ?_⟩
    split at h
    · cases h
    · next he => exact he
    · cases h
  · exact .inl hpre
  · rw [Held, hs] at h
    cases h

section

variable {sub : UInt8} {rest : Bytes}

theorem parse_longer (t : Bytes) : parseOsc base64 (osc133Prefix ++ sub :: rest ++ t) =
    parseArgs base64 sub ((sub :: rest) ++ t) := by
  rw [append_assoc, cons_append, parseOsc_prefix]

variable (base64) in
theorem parse_ends {t : Bytes} {k w : ℕ}
    (h : ending (limitOf sub - osc133Prefix.length) ((sub :: rest) ++ t) = .ends k w) :
    ∃ exit cmdline, parseOsc base64 (osc133Prefix ++ sub :: rest ++ t) =
      .mark (osc133Prefix.length + k + w) sub exit (regionFor sub) cmdline := by
  rw [parse_longer, parseArgs, h]
  exact ⟨_, _, rfl⟩

theorem parse_malformed {t : Bytes}
    (h : ending (limitOf sub - osc133Prefix.length) ((sub :: rest) ++ t) = .malformed) :
    parseOsc base64 (osc133Prefix ++ sub :: rest ++ t) = .malformed := by
  rw [parse_longer, parseArgs, h]

theorem getLast?_held : (osc133Prefix ++ sub :: rest).getLast? = (sub :: rest).getLast? :=
  getLast?_append_of_ne_nil _ (cons_ne_nil _ _)

end

/-- Bytes that break off a mark, whatever of it is held. -/
def breakOff (carry : Bytes) : Bytes :=
  osc133Prefix.drop carry.length ++ ['A'.toUInt8, esc, 'x'.toUInt8]

theorem parse_breakOff (h : Held base64 carry) :
    parseOsc base64 (carry ++ breakOff carry) = .malformed := by
  rcases held_cases h with ⟨more, hmore⟩ | ⟨sub, rest, rfl, he⟩
  · have hwhole : carry ++ breakOff carry = osc133Prefix ++ ['A'.toUInt8, esc, 'x'.toUInt8] := by
      rw [breakOff, ← append_assoc, ← hmore, drop_left]
    rw [hwhole]
    rfl
  · have hdrop : breakOff (osc133Prefix ++ sub :: rest) = ['A'.toUInt8, esc, 'x'.toUInt8] := by
      rw [breakOff, drop_eq_nil_of_le (by simp), nil_append]
    rw [hdrop]
    refine parse_malformed ?_
    by_cases hlast : (sub :: rest).getLast? = some esc
    · rw [ending_esc he hlast]
      rfl
    · rw [ending_open he hlast]
      generalize limitOf sub - osc133Prefix.length - (sub :: rest).length = fuel
      obtain _ | _ | fuel := fuel <;> rfl

theorem esc_not_mem_drop {n : ℕ} (hn : n ≠ 0) : esc ∉ osc133Prefix.drop n := by
  obtain ⟨n, rfl⟩ := Nat.exists_eq_succ_of_ne_zero hn
  intro hmem
  have : esc ∈ osc133Prefix.tail := (drop_sublist n osc133Prefix.tail).subset hmem
  revert this
  decide

/-- Text that is no mark leaves region and trust. -/
theorem scan_text {a : Bytes} (ha : esc ∉ a) : (scan base64 s a).1 = s.preForward a := by
  rw [← append_nil a, scan_plain base64 ha, andThen_fst, scan_nil, append_nil]
  rfl

theorem scan_breakOff (hne : carry ≠ []) :
    (scan base64 s (breakOff carry)).1.boundaryTrusted = s.boundaryTrusted := by
  have hplain : esc ∉ osc133Prefix.drop carry.length ++ ['A'.toUInt8] := by
    rw [mem_append, not_or]
    exact ⟨esc_not_mem_drop (length_pos_of_ne_nil hne).ne', by decide⟩
  have hnot : parseOsc base64 [esc, 'x'.toUInt8] = .notMark := rfl
  have hsplit : breakOff carry = (osc133Prefix.drop carry.length ++ ['A'.toUInt8]) ++
      [esc, 'x'.toUInt8] := by
    rw [breakOff, append_assoc]
    rfl
  rw [hsplit, scan_plain base64 hplain, andThen_fst, scan_esc_notMark hnot, andThen_fst,
    scan_text (by decide)]
  simp [put]

/-! ## A new sniffer -/

theorem sound_new : ({} : PromptSniffer).Sound := ⟨⟨rfl, rfl, rfl, rfl⟩, fun _ => rfl, fun _ => rfl⟩

theorem Sim.refl (h : s.Sound) (u : Bool) : Sim u s s :=
  ⟨h, h, rfl, rfl, rfl, rfl, fun _ _ => rfl, fun _ => rfl⟩

variable (base64) in
theorem feedReads_sound (h : s.Sound) (reads : List Bytes) : (s.feedReads base64 reads).1.Sound :=
  (feedReads_sim base64 (Sim.refl h true) reads).sim.sound

/-- A new sniffer after the marks of one that is trusted. -/
def freshAt (region : PromptRegion) : PromptSniffer where
  region := region
  boundaryTrust := .trusted
  boundaryTrustChanged := some true
  lifecycle :=
    match region with
    | .none => .awaitPrompt
    | .prompt => .inPrompt
    | .command => .inCommand
    | .output => .inOutput
  commandStartedAt := if region = .output then some 1 else none
  readings := if region = .output then 2 else 1

def markBytes (letter : Char) : Bytes := osc133Prefix ++ [letter.toUInt8, bel]

variable (base64) in
theorem parse_markBytes {letter : Char} (h : letter ∈ ['A', 'B', 'C', 'D']) (rest : Bytes) :
    parseOsc base64 (markBytes letter ++ rest) =
      .mark 8 letter.toUInt8 none (regionFor letter.toUInt8) none := by
  rw [markBytes, append_assoc, cons_append, parseOsc_prefix]
  simp only [mem_cons, not_mem_nil, or_false] at h
  rcases h with rfl | rfl | rfl | rfl <;> rfl

/-- A mark without arguments. -/
def takeLetter (s : PromptSniffer) (letter : Char) : PromptSniffer × List SnifferEvent :=
  s.onMark letter.toUInt8 none (regionFor letter.toUInt8) none (markBytes letter)

theorem scan_markBytes {letter : Char} (h : letter ∈ ['A', 'B', 'C', 'D']) (rest : Bytes) :
    scan base64 s (markBytes letter ++ rest) =
      andThen (flat (s.takeLetter letter)) fun s => scan base64 s rest :=
  scan_esc_mark (parse_markBytes base64 h rest)

theorem scan_letters {letters : List Char} (h : ∀ letter ∈ letters, letter ∈ ['A', 'B', 'C', 'D']) :
    (scan base64 s (letters.flatMap markBytes)).1 =
      letters.foldl (fun s letter => (s.takeLetter letter).1) s := by
  induction letters generalizing s with
  | nil => rw [flatMap_nil, scan_nil, foldl_nil]
  | cons letter letters ih =>
    rw [flatMap_cons, scan_markBytes (h letter (.head _)), andThen_fst,
      ih fun letter hl => h letter (.tail _ hl)]
    rfl

def lettersTo : PromptRegion → List Char
  | .none => []
  | .prompt => ['A']
  | .command => ['A', 'B']
  | .output => ['A', 'B', 'C']

theorem takeLetters_fresh (region : PromptRegion) :
    (['A', 'B', 'C', 'D'] ++ lettersTo region).foldl (fun s letter => (s.takeLetter letter).1) {} =
      freshAt region := by
  cases region <;> decide +kernel

variable (base64) in
theorem replayMarks_fresh (h : s.boundaryTrusted) : ∃ events,
    ({} : PromptSniffer).feedHooked base64 s.replayMarks = some (freshAt s.region, events) := by
  have hbytes : s.replayMarks = (['A', 'B', 'C', 'D'] ++ lettersTo s.region).flatMap markBytes := by
    rw [replayMarks, if_pos h, flatMap_append]
    cases s.region <;> rfl
  have hheld : Held base64 ({} : PromptSniffer).carry := rfl
  obtain ⟨r, hr, hflat⟩ := feedHooked_eq hheld s.replayMarks
  have hletters : ∀ letter ∈ ['A', 'B', 'C', 'D'] ++ lettersTo s.region,
      letter ∈ ['A', 'B', 'C', 'D'] := by
    cases s.region <;> simp [lettersTo]
  have hstate : r.1 = freshAt s.region := by
    rw [(flat_eq hflat).1, feed, if_pos rfl, hbytes, scan_letters hletters, takeLetters_fresh]
  exact ⟨r.2, by rw [hr, ← hstate]⟩

theorem sound_freshAt (region : PromptRegion) : (freshAt region).Sound := by
  refine ⟨⟨?_, rfl, rfl, rfl⟩, fun _ => rfl, fun hn => ?_⟩
  · cases region <;> rfl
  · cases region with
    | output => exact absurd rfl hn
    | _ => rfl

theorem replayMarks_untrusted (base64 : Bytes → Option Bytes) (h : s.boundaryTrusted = false) :
    ({} : PromptSniffer).feedHooked base64 s.replayMarks = some ({}, []) := by
  rw [replayMarks, h]
  rfl

/-! ## What the claim compares -/

structure Agrees (base64 : Bytes → Option Bytes) (s fresh : PromptSniffer) (later : List Bytes) :
    Prop where
  region : (fresh.feedReads base64 later).1.region = (s.feedReads base64 later).1.region
  trust : (fresh.feedReads base64 later).1.boundaryTrusted =
    (s.feedReads base64 later).1.boundaryTrusted
  told : commands base64 s.textUnderWay (fresh.feedReads base64 later).2 =
    commands base64 s.textUnderWay (s.feedReads base64 later).2

theorem SimRun.agrees {fresh : PromptSniffer} {later : List Bytes}
    (h : SimRun base64 s.textUnderWay (fresh.feedReads base64 later) (s.feedReads base64 later)) :
    Agrees base64 s fresh later :=
  ⟨h.sim.region, h.sim.trust, h.told⟩

theorem restores_iff {fresh : PromptSniffer × List SnifferEvent} (hs : Held base64 s.carry)
    (hfresh : ({} : PromptSniffer).feedHooked base64 s.replayMarks = some fresh)
    (hcarry : fresh.1.carry = []) :
    Restores base64 s ↔ ∀ later, Agrees base64 s fresh.1 later := by
  refine forall_congr' fun later => ?_
  have hheld : Held base64 fresh.1.carry := hcarry ▸ rfl
  obtain ⟨replica, hreplica, hflat⟩ := feedAll_eq hheld later
  obtain ⟨original, horiginal, hflat'⟩ := feedAll_eq hs later
  obtain ⟨hfst, -⟩ := flat_eq hflat
  obtain ⟨hfst', -⟩ := flat_eq hflat'
  constructor
  · rintro ⟨fresh', replica', original', hf, hr, ho, hregion, htrust, htold⟩
    cases hfresh.symm.trans hf
    cases hreplica.symm.trans hr
    cases horiginal.symm.trans ho
    rw [hflat, hflat'] at htold
    rw [hfst, hfst'] at hregion htrust
    exact ⟨hregion, htrust, htold⟩
  · intro h
    refine ⟨fresh, replica, original, hfresh, hreplica, horiginal, ?_, ?_, ?_⟩
    · rw [hfst, hfst', h.region]
    · rw [hfst, hfst', h.trust]
    · rw [hflat, hflat', h.told]

/-! ## Where the marks suffice -/

theorem sim_freshAt (hs : s.Sound) (htrust : s.boundaryTrusted) (hcarry : s.carry = [])
    (hrunning : ¬ (s.region = .output ∧ s.commandStartedAt = none)) :
    Sim s.textUnderWay (freshAt s.region) s := by
  have hregion := hs.tidy.matched
  refine ⟨sound_freshAt _, hs, ?_, htrust.symm, hcarry.symm, ?_, ?_, ?_⟩
  · rw [hregion]
    cases s.lifecycle <;> rfl
  · by_cases ho : s.region = .output
    · have hsome : s.commandStartedAt ≠ none := fun hn => hrunning ⟨ho, hn⟩
      rw [ho]
      exact (Option.isSome_iff_ne_none.mpr hsome).symm
    · have hl : s.lifecycle ≠ .inOutput := fun hl => ho (by rw [hregion, hl]; rfl)
      rw [hs.started hl]
      exact congrArg Option.isSome (if_neg ho)
  · intro hu hl
    have hr : s.region = .command := by
      revert hl
      cases s.region <;> simp [freshAt]
    rw [textUnderWay, hr] at hu
    cases hu
  · intro hu
    have hl : s.lifecycle ≠ .inOutput := fun hl => by
      rw [textUnderWay, hregion, hl] at hu
      cases hu
    exact (hs.command hl).symm

/-! ### What is held may be harmless -/

/-- The next byte decides what becomes of a harmless start of a mark. -/
theorem harmless_next (h : Held base64 carry) (hharm : Harmless carry) (hne : carry ≠ [])
    (b : UInt8) (t : Bytes) :
    (parseOsc base64 ((carry ++ b :: t).take osc133Max) = .malformed ∨
      parseOsc base64 ((carry ++ b :: t).take osc133Max) = .incomplete ∧
        osc133Max ≤ (carry ++ b :: t).length) ∨
    b ≠ esc ∧ ∃ sub exit cmdline, sub ≠ 'A'.toUInt8 ∧
      parseOsc base64 ((carry ++ b :: t).take osc133Max) =
        .mark (carry.length + 1) sub exit (regionFor sub) cmdline := by
  have hle := h.length_le
  obtain ⟨hlen, hletter, hend⟩ := hharm.resolve_left hne
  rcases held_cases h with hpre | ⟨sub, rest, rfl, he⟩
  · exact absurd hpre.length_le (Nat.not_le_of_lt hlen)
  have hsub : sub ≠ 'A'.toUInt8 := by
    rintro rfl
    exact hletter (by simp)
  have hlength : (osc133Prefix ++ sub :: rest).length =
      osc133Prefix.length + (sub :: rest).length := length_append
  by_cases hlast : (sub :: rest).getLast? = some esc
  · rcases Nat.lt_or_eq_of_le hle with hlt | hmax
    · obtain ⟨k, hk⟩ := Nat.exists_eq_add_of_lt hlt
      have htake : (osc133Prefix ++ sub :: rest ++ b :: t).take osc133Max =
          osc133Prefix ++ sub :: rest ++ b :: t.take k := by
        rw [take_append, take_of_length_le hle, hk, Nat.add_assoc, Nat.add_sub_cancel_left]
        rfl
      rw [htake]
      have hesc := ending_esc he hlast b (t.take k)
      by_cases hb : b = backslash
      · rw [if_pos hb] at hesc
        obtain ⟨exit, cmdline, hmark⟩ := parse_ends base64 hesc
        refine .inr ⟨by rw [hb]; decide, sub, exit, cmdline, hsub, ?_⟩
        rw [hmark, hlength, length_cons]
        congr 1
      · rw [if_neg hb] at hesc
        exact .inl (.inl (parse_malformed hesc))
    · refine .inl (.inr ⟨?_, ?_⟩)
      · rw [← hmax, take_left]
        exact h
      · rw [length_append, hmax]
        exact Nat.le_add_right _ _
  · have hfull : (osc133Prefix ++ sub :: rest).length + 1 = osc133Max := by
      refine hend.resolve_left fun he => hlast ?_
      rwa [getLast?_held] at he
    have htake : (osc133Prefix ++ sub :: rest ++ b :: t).take osc133Max =
        osc133Prefix ++ sub :: rest ++ [b] := by
      rw [← hfull, take_append, take_of_length_le (Nat.le_succ _), Nat.add_sub_cancel_left]
      rfl
    have hfuel : limitOf sub - osc133Prefix.length - (sub :: rest).length = 1 := by
      have hfit := (ending_incomplete he).1
      have hmax : osc133Max = 16 * 1024 := rfl
      have hpre : osc133Prefix.length = 6 := rfl
      have hshort : shortMarkMax = 32 := rfl
      unfold limitOf at hfit ⊢
      split at hfit <;> split <;> omega
    have hopen := ending_open he hlast [b]
    rw [hfuel] at hopen
    rw [htake]
    by_cases hbel : b = bel
    · rw [hbel] at hopen ⊢
      obtain ⟨exit, cmdline, hmark⟩ := parse_ends base64 hopen
      refine .inr ⟨by decide, sub, exit, cmdline, hsub, ?_⟩
      rw [hmark, hlength]
      congr 1
      omega
    · rw [ending, if_neg hbel] at hopen
      by_cases hesc : b = esc
      · rw [if_pos hesc] at hopen
        refine .inl (.inr ⟨?_, ?_⟩)
        · rw [parse_longer, parseArgs, hopen]
          rfl
        · rw [length_append, length_cons]
          omega
      · rw [if_neg hesc] at hopen
        exact .inl (.inl (parse_malformed hopen))

/-- A sniffer that stands where a new one does, what it holds apart. -/
theorem sim_new (hs : s.Sound) (htrust : s.boundaryTrusted = false) (hregion : s.region = .none) :
    Sim false {} (s.hold []) := by
  have hl : s.lifecycle = .awaitPrompt := by
    have hmatched := hs.tidy.matched
    rw [hregion] at hmatched
    revert hmatched
    cases s.lifecycle <;> simp [ShellLifecycleProgress.region]
  have hnot : s.lifecycle ≠ .inOutput := by rw [hl]; decide
  have hhold : (s.hold []).Sound :=
    ⟨⟨hs.tidy.matched, hs.tidy.promptStartEdge, hs.tidy.commandStartedEdge,
      hs.tidy.commandFinished⟩, hs.command, hs.started⟩
  exact ⟨sound_new, hhold, hl.symm, htrust.symm, rfl, by rw [hhold.started hnot],
    fun _ hc => ShellLifecycleProgress.noConfusion hc, fun _ => (hs.command hnot).symm⟩

theorem not_underWay (pieces : List Piece) :
    pieces.foldl (Piece.underWay base64) false = false := by
  induction pieces with
  | nil => rfl
  | cons piece pieces ih => cases piece <;> exact ih

/-- Pieces that tell nothing may come before one of two runs. -/
theorem SimRun.after {r q : PromptSniffer × List Piece}
    {f : PromptSniffer → PromptSniffer × List Piece} (hr : commands base64 false r.2 = [])
    (h : SimRun base64 false q (f r.1)) :
    SimRun base64 false q (PromptSniffer.andThen r f) := by
  refine ⟨?_, ?_, ?_⟩
  · rw [andThen_snd, commands_append, hr, not_underWay, h.told]
    rfl
  · rw [not_underWay, not_underWay]
  · rw [not_underWay]
    have hsim := h.sim
    rwa [not_underWay] at hsim

variable (base64) in
/-- A mark other than `;A` does nothing to a new sniffer. -/
theorem new_onMark {sub : UInt8} (hsub : sub ≠ 'A'.toUInt8) (exit : Option ℤ) (cmdline : Option Str)
    (bytes : Bytes) :
    (flat (({} : PromptSniffer).onMark sub exit (regionFor sub) cmdline bytes)).1 = {} ∧
      commands base64 false
        (flat (({} : PromptSniffer).onMark sub exit (regionFor sub) cmdline bytes)).2 = [] := by
  rcases regionFor_cases sub with ⟨rfl, -⟩ | ⟨rfl, hr⟩ | ⟨rfl, hr⟩ | ⟨rfl, hr⟩ | ⟨hr, -⟩
  · exact absurd rfl hsub
  · exact ⟨rfl, rfl⟩
  · exact ⟨rfl, rfl⟩
  · exact ⟨rfl, rfl⟩
  · rw [hr]
    by_cases hk : sub = 'K'.toUInt8
    · subst hk
      exact ⟨rfl, rfl⟩
    · rw [flat_onMark, apply, if_neg hk]
      exact ⟨rfl, rfl⟩

section

variable (hs : s.Sound) (htrust : s.boundaryTrusted = false) (hregion : s.region = .none)

include hs htrust hregion

variable (base64) in
theorem giveUp_new (carry input : Bytes) :
    SimRun base64 false (scan base64 {} input) (giveUp base64 (s.hold []) carry input) := by
  have hreset := (sim_new hs htrust hregion).reset
  have hput := hreset.preForward carry
  refine SimRun.after rfl (SimRun.after (put_told base64 carry).1 ?_)
  exact scan_sim hput input

theorem feed_new (hheld : Held base64 s.carry) (hharm : Harmless s.carry) (hne : s.carry ≠ [])
    (input : Bytes) : input = [] ∧ s.feed base64 input = (s, []) ∨
      SimRun base64 false (({} : PromptSniffer).feed base64 input) (s.feed base64 input) := by
  have hscan : ({} : PromptSniffer).feed base64 input = scan base64 {} input := if_pos rfl
  rw [hscan]
  have hgiveUp := giveUp_new base64 hs htrust hregion s.carry input
  cases input with
  | nil =>
    have hparse : parseOsc base64 ((s.carry ++ []).take osc133Max) = .incomplete := by
      rw [append_nil, take_of_length_le hheld.length_le]
      exact hheld
    rw [feed, if_neg hne, hparse]
    dsimp only
    split
    · refine .inl ⟨rfl, ?_⟩
      rw [append_nil]
      rfl
    · exact .inr hgiveUp
  | cons b t =>
    refine .inr ?_
    rw [feed, if_neg hne]
    rcases harmless_next hheld hharm hne b t with
      (hparse | ⟨hparse, hlong⟩) | ⟨hb, sub, exit, cmdline, hsub, hparse⟩
    · rw [hparse]
      exact hgiveUp
    · rw [hparse]
      dsimp only
      rw [if_neg (Nat.not_lt_of_le hlong)]
      exact hgiveUp
    · obtain ⟨-, hle, htake⟩ := parseOsc_mark hparse
      rw [take_take, Nat.min_eq_left (hle.trans (length_take_le ..))] at htake
      have hmark := (sim_new hs htrust hregion).onMark htake
      obtain ⟨hstate, htold⟩ := new_onMark base64 hsub exit cmdline
        ((s.carry ++ b :: t).take (s.carry.length + 1))
      have hdrop : (s.carry ++ b :: t).drop (s.carry.length + 1) = t := by
        rw [← drop_drop, drop_left]
        rfl
      rw [hparse, scan, if_neg hb]
      dsimp only
      rw [hdrop]
      have hsim := hmark.sim
      rw [not_underWay, hstate] at hsim
      have hfirst : SimRun base64 false (({} : PromptSniffer).put [b])
          (flat ((s.hold []).onMark sub exit (regionFor sub) cmdline
            ((s.carry ++ b :: t).take (s.carry.length + 1)))) := by
        refine ⟨?_, ?_, ?_⟩
        · rw [(put_told base64 [b]).1, ← hmark.told, htold]
        · rw [not_underWay, not_underWay]
        · rw [not_underWay]
          exact hsim
      exact hfirst.andThen fun _ hv => scan_sim hv t

theorem harmless_agrees (hheld : Held base64 s.carry) (hharm : Harmless s.carry)
    (hne : s.carry ≠ []) (later : List Bytes) : Agrees base64 s {} later := by
  have hu : s.textUnderWay = false := by rw [textUnderWay, hregion]; rfl
  induction later with
  | nil => exact ⟨hregion.symm, htrust.symm, rfl⟩
  | cons input rest ih =>
    rcases feed_new hs htrust hregion hheld hharm hne input with ⟨rfl, hfeed⟩ | hrun
    · have hnew : ({} : PromptSniffer).feed base64 [] = ({}, []) := (if_pos rfl).trans scan_nil
      have hs : s.feedReads base64 ([] :: rest) = s.feedReads base64 rest := by
        rw [feedReads, hfeed, nil_andThen]
      have ht : ({} : PromptSniffer).feedReads base64 ([] :: rest) =
          ({} : PromptSniffer).feedReads base64 rest := by
        rw [feedReads, hnew, nil_andThen]
      exact ⟨by rw [hs, ht, ih.region], by rw [hs, ht, ih.trust], by rw [hs, ht, ih.told]⟩
    · refine SimRun.agrees ?_
      rw [hu]
      exact hrun.andThen fun _ hv => feedReads_sim base64 hv rest

end

/-! ## Where they do not -/

theorem feedReads_single (input : Bytes) : s.feedReads base64 [input] = s.feed base64 input :=
  andThen_done _

theorem told_finish (hs : s.Sound) (hregion : s.region = .output) (htrust : s.boundaryTrusted)
    (hcarry : s.carry = []) (u : Bool) :
    commands base64 u (s.feedReads base64 [markBytes 'D']).2 = [] ↔ s.commandStartedAt = none := by
  have hl : s.lifecycle = .inOutput := by
    have hmatched := hs.tidy.matched
    rw [hregion] at hmatched
    revert hmatched
    cases s.lifecycle <;> simp [ShellLifecycleProgress.region]
  have hadvance : s.advance .none =
      some ({ s with lifecycle := .awaitPrompt }.setBoundaryTrust true) := by
    rw [hs.tidy.advance]
    unfold advanceLifecycle
    rw [hl]
  have hm := takes_finish none none (markBytes 'D') hs.tidy hadvance
  have hletter : 'D' ∈ ['A', 'B', 'C', 'D'] := by decide
  have hscan : scan base64 s (markBytes 'D' ++ []) = _ := scan_markBytes hletter []
  rw [append_nil] at hscan
  rw [feedReads_single, feed, if_pos hcarry, hscan, andThen_snd, scan_nil, append_nil,
    takeLetter, flat_onMark]
  have hnext : regionFor 'D'.toUInt8 = some .none := rfl
  rw [hnext, accepts hadvance]
  simp only [Bool.false_eq_true, if_false, nil_append, commands, Piece.commands,
    SnifferMark.commands, hm.start, hm.finish, htrust, if_true]
  cases s.commandStartedAt <;> simp

/-- A sniffer that holds something can lose its trust where a trusted new one does not. -/
theorem carry_of_agrees (hheld : Held base64 s.carry)
    (h : ∀ later, Agrees base64 s (freshAt s.region) later) : s.carry = [] := by
  by_contra hne
  have htrusts := (h [breakOff s.carry]).trust
  rw [feedReads_single, feedReads_single, feed_of_malformed hne (parse_breakOff hheld)] at htrusts
  have hfresh : (freshAt s.region).feed base64 (breakOff s.carry) =
      scan base64 (freshAt s.region) (breakOff s.carry) := if_pos rfl
  rw [hfresh, scan_breakOff hne, giveUp, andThen_fst, andThen_fst, scan_breakOff hne] at htrusts
  simp only [put, preForward_boundaryTrusted, resetBoundaryState_untrusted] at htrusts
  cases htrusts

/-- A new sniffer finishes a command that was blank. -/
theorem running_of_agrees (hs : s.Sound) (hheld : Held base64 s.carry) (htrust : s.boundaryTrusted)
    (h : ∀ later, Agrees base64 s (freshAt s.region) later) :
    ¬ (s.region = .output ∧ s.commandStartedAt = none) := by
  rintro ⟨hregion, hnone⟩
  have htold := (h [markBytes 'D']).told
  have hcarry := carry_of_agrees hheld h
  rw [(told_finish hs hregion htrust hcarry _).mpr hnone] at htold
  have hfresh := (told_finish (sound_freshAt s.region) hregion rfl rfl _).mp htold
  rw [hregion] at hfresh
  cases hfresh

/-- The last byte of a `;A` opens the prompt. -/
theorem feed_prompt (hs : s.Sound) (hl : s.lifecycle = .awaitPrompt) (hne : s.carry ≠ [])
    {input : Bytes} {len : ℕ} {exit : Option ℤ} {cmdline : Option Str}
    (hlen : (s.carry ++ input).length = len) (hmax : len ≤ osc133Max)
    (hparse : parseOsc base64 (s.carry ++ input) =
      .mark len 'A'.toUInt8 exit (some .prompt) cmdline) :
    (s.feedReads base64 [input]).1.region = .prompt := by
  have hadvance : (s.hold []).advance .prompt = some { s.hold [] with lifecycle := .inPrompt } := by
    rw [((Sim.refl hs false).hold []).sound.tidy.advance]
    unfold advanceLifecycle
    rw [show (s.hold []).lifecycle = .awaitPrompt from hl]
  rw [feedReads_single, feed, if_neg hne, take_of_length_le (hlen.trans_le hmax), hparse]
  dsimp only
  rw [andThen_fst, drop_eq_nil_of_le hlen.le, scan_nil, flat_onMark, apply_prompt hadvance]
  rfl

theorem feed_plain (hs : s.carry = []) {input : Bytes} (h : esc ∉ input) :
    (s.feedReads base64 [input]).1.region = s.region := by
  rw [feedReads_single, feed, if_pos hs, scan_text h, preForward_region]

/-- `;A` without its ESC. -/
def openingTail : Bytes := osc133Prefix.tail ++ ['A'.toUInt8, bel]

/-- What a new sniffer makes of a mark that is cut behind its ESC. -/
theorem new_cut :
    (({} : PromptSniffer).feedReads base64 [[esc], openingTail]).1.region = .prompt := by
  have hparse : parseOsc base64 [esc] = .incomplete := rfl
  have hfirst : ({} : PromptSniffer).feed base64 [esc] = ({ carry := [esc] }, []) := by
    rw [feed, if_pos rfl, scan_esc_incomplete hparse]
  have hsound : PromptSniffer.Sound { carry := [esc] } :=
    ⟨⟨rfl, rfl, rfl, rfl⟩, fun _ => rfl, fun _ => rfl⟩
  have hletter : 'A' ∈ ['A', 'B', 'C', 'D'] := by decide
  have hmark := parse_markBytes base64 hletter []
  rw [feedReads, hfirst]
  exact feed_prompt hsound rfl (cons_ne_nil _ _) rfl (by decide) hmark

/-- What a sniffer makes of it that holds the start of another mark. -/
theorem held_cut (hheld : Held base64 s.carry) (hlong : osc133Prefix.length < s.carry.length)
    (hlast : s.carry.getLast? ≠ some esc) (hlt : s.carry.length + 1 < osc133Max) :
    (s.feedReads base64 [[esc], openingTail]).1.region = .none := by
  have hne : s.carry ≠ [] := ne_nil_of_length_pos (Nat.zero_lt_of_lt hlong)
  rcases held_cases hheld with hpre | ⟨sub, rest, hcarry, he⟩
  · exact absurd hpre.length_le (Nat.not_le_of_lt hlong)
  have hlast' : (sub :: rest).getLast? ≠ some esc := by
    rwa [hcarry, getLast?_held] at hlast
  obtain ⟨hfit, -, hfull⟩ := ending_incomplete he
  obtain ⟨k, hk⟩ := Nat.exists_eq_add_of_lt (Nat.lt_of_le_of_ne hfit fun hf => hlast' (hfull hf).2)
  have hfuel : (sub :: rest).length + k + 1 - (sub :: rest).length = k + 1 := by omega
  have hopen :
      ending (limitOf sub - osc133Prefix.length) ((sub :: rest) ++ [esc]) = .incomplete := by
    rw [ending_open he hlast', hk, hfuel]
    rfl
  have hparse : parseOsc base64 (s.carry ++ [esc]) = .incomplete := by
    rw [hcarry, parse_longer, parseArgs, hopen]
  have hlength : (s.carry ++ [esc]).length < osc133Max := by
    rwa [length_append]
  have hfirst : s.feed base64 [esc] = (s.hold (s.carry ++ [esc]), []) := by
    rw [feed, if_neg hne, take_of_length_le hlength.le, hparse]
    exact if_pos hlength
  have hbroken : parseOsc base64 (s.carry ++ [esc] ++ openingTail) = .malformed := by
    have hesc := ending_esc hopen getLast?_concat ']'.toUInt8 openingTail.tail
    rw [if_neg (by decide), append_assoc] at hesc
    rw [hcarry, append_assoc]
    exact parse_malformed hesc
  have hne' : (s.hold (s.carry ++ [esc])).carry ≠ [] := by simp [hold]
  rw [feedReads, hfirst, nil_andThen, feedReads_single, feed_of_malformed hne' hbroken, giveUp,
    andThen_fst, andThen_fst, scan_text (by decide), preForward_region]
  exact preForward_region

section

variable (hs : s.Sound) (hheld : Held base64 s.carry)
  (hregion : s.region = .none) (h : ∀ later, Agrees base64 s {} later)

include hs h

theorem not_prompt (hl : s.lifecycle = .awaitPrompt) (hne : s.carry ≠ []) {input : Bytes} {len : ℕ}
    {exit : Option ℤ} {cmdline : Option Str} (hlen : (s.carry ++ input).length = len)
    (hmax : len ≤ osc133Max) (hplain : esc ∉ input) :
    parseOsc base64 (s.carry ++ input) ≠ .mark len 'A'.toUInt8 exit (some .prompt) cmdline := by
  intro hparse
  have hr := (h [input]).region
  rw [feed_prompt hs hl hne hlen hmax hparse, feed_plain rfl hplain] at hr
  cases hr

include hheld hregion

/-- What is held is harmless. -/
theorem harmless_of_agrees : Harmless s.carry := by
  have hl : s.lifecycle = .awaitPrompt := by
    have hmatched := hs.tidy.matched
    rw [hregion] at hmatched
    revert hmatched
    cases s.lifecycle <;> simp [ShellLifecycleProgress.region]
  by_cases hne : s.carry = []
  · exact .inl hne
  have hlength := hheld.length_le
  rcases held_cases hheld with ⟨more, hmore⟩ | ⟨sub, rest, hcarry, he⟩
  · -- the rest of a whole `;A` may still come
    exfalso
    have hwhole : s.carry ++ (osc133Prefix.drop s.carry.length ++ ['A'.toUInt8, bel]) =
        markBytes 'A' := by
      rw [← append_assoc, ← hmore, drop_left, hmore]
      rfl
    have hplain : esc ∉ osc133Prefix.drop s.carry.length ++ ['A'.toUInt8, bel] := by
      rw [mem_append, not_or]
      exact ⟨esc_not_mem_drop (length_pos_of_ne_nil hne).ne', by decide⟩
    have hletter : 'A' ∈ ['A', 'B', 'C', 'D'] := by decide
    have hparse := parse_markBytes base64 hletter []
    rw [append_nil, ← hwhole] at hparse
    exact not_prompt hs h hl hne (congrArg List.length hwhole) (by decide) hplain hparse
  · have hlist : (sub :: rest).length + 6 = s.carry.length := by
      rw [hcarry, length_append, Nat.add_comm]
      rfl
    obtain ⟨hfit, -, hfull⟩ := ending_incomplete he
    refine .inr ⟨by rw [hcarry]; simp, ?_, ?_⟩
    · intro hletter
      have hsub : sub = 'A'.toUInt8 := by simpa [hcarry] using hletter
      subst hsub
      have hlimit : limitOf 'A'.toUInt8 - osc133Prefix.length = 26 := by decide
      have hmax : osc133Max = 16384 := rfl
      have hpos : (Char.toUInt8 'A' :: rest).length = rest.length + 1 := rfl
      rw [hlimit] at he hfit hfull
      by_cases hlast : ('A'.toUInt8 :: rest).getLast? = some esc
      · -- the terminator may be completed
        have hends := ending_esc he hlast backslash []
        rw [if_pos rfl, ← hlimit] at hends
        obtain ⟨exit, cmdline, hmark⟩ := parse_ends base64 hends
        rw [← hcarry] at hmark
        refine not_prompt hs h hl hne ?_ ?_ (by decide) hmark
        · rw [length_append, ← hlist, hpos]
          show _ = 6 + _ + 2
          simp
          omega
        · show 6 + _ + 2 ≤ _
          omega
      · -- a terminator may come
        have hshort : ('A'.toUInt8 :: rest).length < 26 :=
          Nat.lt_of_le_of_ne hfit fun hf => hlast (hfull hf).2
        have hends := ending_open he hlast [bel]
        obtain ⟨k, hk⟩ := Nat.exists_eq_add_of_lt hshort
        rw [show 26 - ('A'.toUInt8 :: rest).length = k + 1 by omega, ← hlimit] at hends
        obtain ⟨exit, cmdline, hmark⟩ := parse_ends base64 hends
        rw [← hcarry] at hmark
        refine not_prompt hs h hl hne ?_ ?_ (by decide) hmark
        · rw [length_append, ← hlist]
          show _ = 6 + (0 + _) + 1
          simp
          omega
        · show 6 + (0 + _) + 1 ≤ _
          omega
    · -- the start of another mark may come
      by_contra hnot
      rw [not_or] at hnot
      have hbound := parseOsc_incomplete hheld hne
      have hlt : s.carry.length + 1 < osc133Max := by
        have hne' : s.carry.length ≠ osc133Max := fun hm => hnot.1 (hbound.2.1 hm)
        have hne'' := hnot.2
        omega
      have hlong : osc133Prefix.length < s.carry.length := by
        rw [hcarry]
        simp
      have hr := (h [[esc], openingTail]).region
      rw [new_cut, held_cut hheld hlong hnot.1 hlt] at hr
      cases hr

end

theorem restores_iff_of_trusted (hs : s.Sound) (hheld : Held base64 s.carry)
    (htrust : s.boundaryTrusted) :
    Restores base64 s ↔ s.carry = [] ∧ ¬ (s.region = .output ∧ s.commandStartedAt = none) := by
  obtain ⟨events, hfresh⟩ := replayMarks_fresh base64 htrust
  rw [restores_iff hheld hfresh rfl]
  constructor
  · intro h
    exact ⟨carry_of_agrees hheld h, running_of_agrees hs hheld htrust h⟩
  · rintro ⟨hcarry, hrunning⟩ later
    exact (feedReads_sim base64 (sim_freshAt hs htrust hcarry hrunning) later).agrees

theorem restores_iff_of_untrusted (hs : s.Sound) (hheld : Held base64 s.carry)
    (htrust : s.boundaryTrusted = false) :
    Restores base64 s ↔ s.region = .none ∧ Harmless s.carry := by
  rw [restores_iff hheld (replayMarks_untrusted base64 htrust) rfl]
  constructor
  · intro h
    have hregion : s.region = .none := (h []).region.symm
    exact ⟨hregion, harmless_of_agrees hs hheld hregion h⟩
  · rintro ⟨hregion, hharm⟩ later
    by_cases hne : s.carry = []
    · have hsim := sim_new hs htrust hregion
      rw [hold_of_carry hne] at hsim
      refine SimRun.agrees ?_
      rw [textUnderWay, hregion]
      exact feedReads_sim base64 hsim later
    · exact harmless_agrees hs htrust hregion hheld hharm hne later

/-- **When the marks restore a sniffer.**  Whatever it has read, and however that was cut: a trusted
sniffer must hold nothing and not be in the output of a blank command; one that is not trusted must
be outside a command, and hold nothing that a new sniffer would miss. -/
theorem replay_restores (base64 : Bytes → Option Bytes) (reads : List Bytes) : ∃ s events,
    ({} : PromptSniffer).feedAll base64 reads = some (s, events) ∧
      (Restores base64 s ↔ Restorable s) := by
  have hnew : Held base64 ({} : PromptSniffer).carry := rfl
  obtain ⟨⟨s, events⟩, hr, hflat⟩ := feedAll_eq hnew reads
  obtain rfl : s = _ := (flat_eq hflat).1
  refine ⟨_, events, hr, ?_⟩
  have hs := feedReads_sound base64 sound_new reads
  have hheld := feedReads_held hnew reads
  rw [Restorable]
  split
  · next htrust => exact restores_iff_of_trusted hs hheld htrust
  · next htrust => exact restores_iff_of_untrusted hs hheld (Bool.eq_false_iff.mpr htrust)

/-- A decoder that knows the empty text. -/
def decodesEmpty (bytes : Bytes) : Option Bytes := if bytes = [] then some [] else none

/-- A cycle that earns trust, then a command line that the shell reports as empty. -/
def blankCommand : Bytes :=
  ['A', 'B', 'C', 'D', 'A', 'B'].flatMap markBytes ++
    (osc133Prefix ++ 'C'.toUInt8 :: cmdlinePrefix ++ [bel])

/-- **A blank command is finished by a sniffer that was restored** (the first list), and not by the
one that the marks are from (the second). -/
theorem blank_command_finishes :
    (do
      let (s, _) ← ({} : PromptSniffer).feedAll decodesEmpty [blankCommand]
      let (fresh, _) ← ({} : PromptSniffer).feedHooked decodesEmpty s.replayMarks
      let replica ← fresh.feedAll decodesEmpty [markBytes 'D']
      let original ← s.feedAll decodesEmpty [markBytes 'D']
      return (commands decodesEmpty s.textUnderWay (flat replica).2,
        commands decodesEmpty s.textUnderWay (flat original).2)) =
      some ([.finished none none], []) := by
  decide +kernel

end PromptSniffer

end NiumaTerm.Terminal
