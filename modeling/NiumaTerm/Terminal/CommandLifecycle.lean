import NiumaTerm.Lib.History
import NiumaTerm.Terminal.Marks

/-!
# Commands begin and finish in pairs

The invariant `Inv` of `shellSystem`: the marks since the last reset or `;D` are the part of a cycle that
the lifecycle stands for (`Cycle`), trust was earned by a `;D` that closed a whole cycle (`TrustEarned`), and
a start that nothing has followed is what the next finish will say (`pending`).
-/

namespace NiumaTerm.Terminal

open Rust Endian Transition History List

/-! ## What a label says -/

def TerminalEvent.start? : TerminalEvent → Option CommandStart
  | .commandStarted start => some start
  | _ => none

def TerminalEvent.finish? : TerminalEvent → Option CommandCapture
  | .commandFinished cmd => some cmd
  | _ => none

namespace Label

def starts (l : Label) : List CommandStart := l.events.filterMap TerminalEvent.start?

def finishes (l : Label) : List CommandCapture := l.events.filterMap TerminalEvent.finish?

/-- The boundary state was reset, by a mark that could not come, by a malformed one or by a new stream. -/
def resets : Label → Bool
  | .quiet _ => false
  | .mark m => !m.accepted
  | .reset _ => true

/-- A mark that could come, with one of those letters. -/
def isMark (letter : Char) : Label → Bool
  | .mark m => m.accepted && m.letter == letter.toUInt8
  | _ => false

/-- The letter of a mark that has a region. -/
def letters : Label → List UInt8
  | .mark m => if (regionFor m.letter).isSome then [m.letter] else []
  | _ => []

end Label

/-- The letters since the last reset or `;D`. -/
def cycle (labels : List Label) : List UInt8 :=
  (recent (fun l => l.resets || l.isMark 'D') labels).flatMap Label.letters

/-- The starts since the last reset or finish. -/
def starts (labels : List Label) : List CommandStart :=
  (recent (fun l => l.resets || l.finishes ≠ []) labels).flatMap Label.starts

/-- The part of a cycle that a lifecycle stands for: prompts, then command lines, then output. -/
def Cycle (letters : List UInt8) : ShellLifecycleProgress → Prop
  | .awaitPrompt => letters = []
  | .inPrompt => ∃ i, letters = replicate (i + 1) 'A'.toUInt8
  | .inCommand => ∃ i j, letters = replicate (i + 1) 'A'.toUInt8 ++ replicate (j + 1) 'B'.toUInt8
  | .inOutput =>
    ∃ i j, letters = replicate (i + 1) 'A'.toUInt8 ++ replicate (j + 1) 'B'.toUInt8 ++ ['C'.toUInt8]

/-- A `;D` has closed a whole cycle, and no reset has come since. -/
def TrustEarned (labels : List Label) : Prop :=
  ∃ before l after, labels = before ++ l :: after ∧ l.isMark 'D' ∧ Cycle (cycle before) .inOutput ∧
    ∀ x ∈ after, x.resets = false

def ShellLifecycleProgress.region : ShellLifecycleProgress → PromptRegion
  | .awaitPrompt => .none
  | .inPrompt => .prompt
  | .inCommand => .command
  | .inOutput => .output

def blank (cmdline : Option Str) : Prop := ∃ text, cmdline = some text ∧ trim text = []

/-- The finish of a command: the execution is the last `;C`, its start is the only one since the last finish or reset, and
the finish says the same. -/
def Finishes (before : List Label) (cmd : CommandCapture) : Prop :=
  ∃ m start, (Label.mark m).isMark 'C' ∧ Since before (.mark m) (·.isMark 'C') ∧
    starts before = [start] ∧ (Label.mark m).starts = [start] ∧
    cmd.command = start.command ∧ cmd.startedAt = start.startedAt ∧ cmd.seq = start.seq ∧ cmd.cwd = start.cwd ∧
    start.cwd = m.cwd ∧ m.trusted ∧ ¬ blank m.cmdline

/-! ## The hook -/

namespace Owner

variable {Engine : Type} {vt : Vt Engine} {engineBlocks : Bool} {o : Owner Engine} {m : SnifferMark}

/-- What the hook keeps and says of a mark. -/
structure Applies (vt : Vt Engine) (o : Owner Engine) (m : SnifferMark) (r : Owner Engine × List TerminalEvent) : Prop where
  markSeq : r.1.markSeq = if m.promptStarted && m.trusted then o.markSeq + 1 else o.markSeq
  launchCwd : r.1.launchCwd = if m.commandFinished.isSome then none
    else if m.commandStarted.isSome then some (vt.currentDirectory (m.bytes.foldl vt.write o.ghostty)) else o.launchCwd
  starts : r.2.filterMap TerminalEvent.start? = (m.commandStarted.map fun start =>
    { start with seq := r.1.markSeq, cwd := vt.currentDirectory (m.bytes.foldl vt.write o.ghostty) }).toList
  finishes : r.2.filterMap TerminalEvent.finish? = (m.commandFinished.map fun cmd =>
    { cmd with seq := r.1.markSeq, cwd := if m.commandStarted.isSome
      then vt.currentDirectory (m.bytes.foldl vt.write o.ghostty) else o.launchCwd.getD none }).toList

variable (vt) (engineBlocks) in
/-- The clear of the history keeps what the hook keeps, and begins and finishes nothing. -/
theorem clearMark_keeps : (o.clearMark vt engineBlocks m).1.markSeq = o.markSeq ∧
    (o.clearMark vt engineBlocks m).1.launchCwd = o.launchCwd ∧
    (o.clearMark vt engineBlocks m).2.filterMap TerminalEvent.start? = [] ∧
    (o.clearMark vt engineBlocks m).2.filterMap TerminalEvent.finish? = [] := by
  unfold clearMark
  split <;> exact ⟨rfl, rfl, rfl, rfl⟩

theorem promptMark_keeps : (o.promptMark m).1.launchCwd = o.launchCwd ∧ (o.promptMark m).1.ghostty = o.ghostty ∧
    (o.promptMark m).2.filterMap TerminalEvent.start? = [] ∧
    (o.promptMark m).2.filterMap TerminalEvent.finish? = [] := by
  unfold promptMark
  split <;> exact ⟨rfl, rfl, rfl, rfl⟩

variable (vt) in
theorem startMark_eq : (o.startMark vt m).1.markSeq = o.markSeq ∧
    (o.startMark vt m).1.launchCwd =
      (if m.commandStarted.isSome then some (vt.currentDirectory o.ghostty) else o.launchCwd) ∧
    (o.startMark vt m).2.filterMap TerminalEvent.start? = (m.commandStarted.map fun start =>
      { start with seq := o.markSeq, cwd := vt.currentDirectory o.ghostty }).toList ∧
    (o.startMark vt m).2.filterMap TerminalEvent.finish? = [] := by
  unfold startMark
  cases m.commandStarted with
  | none | some start => exact ⟨rfl, rfl, rfl, rfl⟩

variable (vt) (engineBlocks) in
theorem finishMark_eq : (o.finishMark vt engineBlocks m).1.markSeq = o.markSeq ∧
    (o.finishMark vt engineBlocks m).1.launchCwd = (if m.commandFinished.isSome then none else o.launchCwd) ∧
    (o.finishMark vt engineBlocks m).2.filterMap TerminalEvent.start? = [] ∧
    (o.finishMark vt engineBlocks m).2.filterMap TerminalEvent.finish? = (m.commandFinished.map fun cmd =>
      { cmd with seq := o.markSeq, cwd := o.launchCwd.getD none }).toList := by
  unfold finishMark
  cases m.commandFinished with
  | none => exact ⟨rfl, rfl, rfl, rfl⟩
  | some cmd =>
    rcases hfinish : vt.finishBlock o.ghostty with ⟨finished, ghostty⟩
    simp only [hfinish]
    by_cases hblock : (m.trusted && !vt.altScreen o.ghostty && engineBlocks) = true
    · rw [if_pos hblock]
      cases finished <;> exact ⟨rfl, rfl, rfl, rfl⟩
    · rw [if_neg hblock]
      exact ⟨rfl, rfl, rfl, rfl⟩

variable (vt) (engineBlocks) in
theorem applies (o : Owner Engine) (m : SnifferMark) : Applies vt o m (o.applySnifferMark vt engineBlocks m) := by
  have hprompt := promptMark_keeps (o := o.writeVt vt m.bytes) (m := m)
  have hstart := startMark_eq vt (o := ((o.writeVt vt m.bytes).promptMark m).1) (m := m)
  have hfinish := finishMark_eq vt engineBlocks
    (o := (((o.writeVt vt m.bytes).promptMark m).1.startMark vt m).1) (m := m)
  have hclear := clearMark_keeps vt engineBlocks
    (o := ((((o.writeVt vt m.bytes).promptMark m).1.startMark vt m).1.finishMark vt engineBlocks m).1) (m := m)
  have hseq : ((o.writeVt vt m.bytes).promptMark m).1.markSeq =
      if m.promptStarted && m.trusted then o.markSeq + 1 else o.markSeq := by
    unfold promptMark
    split <;> rfl
  have hlast : (o.applySnifferMark vt engineBlocks m).1.markSeq = ((o.writeVt vt m.bytes).promptMark m).1.markSeq :=
    hclear.1.trans (hfinish.1.trans hstart.1)
  refine ⟨hlast.trans hseq, ?_, ?_, ?_⟩
  · refine hclear.2.1.trans (hfinish.2.1.trans ?_)
    rw [hstart.2.1, hprompt.1, hprompt.2.1]
    rfl
  · rw [hlast]
    unfold applySnifferMark
    dsimp only
    rw [filterMap_append, filterMap_append, filterMap_append, hprompt.2.2.1, hstart.2.2.1, hfinish.2.2.1,
      hclear.2.2.1, hprompt.2.1, append_nil, append_nil, nil_append]
    rfl
  · rw [hlast]
    unfold applySnifferMark
    dsimp only
    rw [filterMap_append, filterMap_append, filterMap_append, hprompt.2.2.2, hstart.2.2.2, hfinish.2.2.2,
      hclear.2.2.2, hstart.1, hstart.2.1, hprompt.1, hprompt.2.1, append_nil, append_nil, nil_append]
    cases m.commandStarted <;> rfl

end Owner

/-! ## Steps of the lifecycle -/

namespace PromptSniffer

variable {s a : PromptSniffer} {r : PromptRegion}

theorem advance_cases (h : s.advance r = some a) :
    (r = .prompt ∧ (s.lifecycle = .awaitPrompt ∨ s.lifecycle = .inPrompt) ∧ a = { s with lifecycle := .inPrompt }) ∨
    (r = .command ∧ (s.lifecycle = .inPrompt ∨ s.lifecycle = .inCommand) ∧ a = { s with lifecycle := .inCommand }) ∨
    (r = .output ∧ s.lifecycle = .inCommand ∧ a = { s with lifecycle := .inOutput }) ∨
    (r = .none ∧ s.lifecycle = .inOutput ∧ a = { s with lifecycle := .awaitPrompt }.setBoundaryTrust true) := by
  unfold advance advanceLifecycle at h
  by_cases hv : validTransition s.region r = true
  · rw [if_pos hv] at h
    split at h
    · next hl => cases h; exact .inl ⟨rfl, .inl hl, rfl⟩
    · next hl => cases h; exact .inl ⟨rfl, .inr hl, rfl⟩
    · next hl => cases h; exact .inr (.inl ⟨rfl, .inl hl, rfl⟩)
    · next hl => cases h; exact .inr (.inl ⟨rfl, .inr hl, rfl⟩)
    · next hl => cases h; exact .inr (.inr (.inl ⟨rfl, hl, rfl⟩))
    · next hl => cases h; exact .inr (.inr (.inr ⟨rfl, hl, rfl⟩))
    · cases h
  · rw [if_neg hv] at h
    cases h

/-- Region and lifecycle are a pair, and nothing waits for a mark to tell it. -/
structure Tidy (s : PromptSniffer) : Prop where
  matched : s.region = s.lifecycle.region
  promptStartEdge : s.promptStartEdge = false
  commandStartedEdge : s.commandStartedEdge = false
  commandFinished : s.commandFinished = none

/-- A mark, with the lifecycle and the trust it leaves and what it says began and finished. -/
structure Took (t : PromptSniffer × SnifferMark) (bytes : Bytes) (lifecycle : ShellLifecycleProgress) (trusted : Bool)
    (promptStarted : Bool) (start : Option CommandStart) (finish : Option CommandCapture) : Prop where
  tidy : Tidy t.1
  lifecycle : t.1.lifecycle = lifecycle
  trusted : t.1.boundaryTrusted = trusted
  bytes : t.2.bytes = bytes
  promptStarted : t.2.promptStarted = promptStarted
  start : t.2.commandStarted = start
  finish : t.2.commandFinished = finish

variable {sub : UInt8} {exit : Option ℤ} {cmdline : Option Str} {bytes : Bytes}

variable (sub) (exit) (cmdline) (bytes) in
theorem takes_other (h : Tidy s) :
    Took ((s.apply sub none exit cmdline).drainMark bytes) bytes s.lifecycle s.boundaryTrusted false none none ∧
      ((s.apply sub none exit cmdline).drainMark bytes).1.commandStartedAt = s.commandStartedAt ∧
      ((s.apply sub none exit cmdline).drainMark bytes).1.currentCommand = s.currentCommand := by
  unfold apply
  by_cases hk : sub = 'K'.toUInt8
  · rw [if_pos hk]
    exact ⟨⟨⟨h.matched, rfl, rfl, rfl⟩, rfl, rfl, rfl, h.promptStartEdge,
      if_neg (by simp [h.commandStartedEdge]), h.commandFinished⟩, rfl, rfl⟩
  · rw [if_neg hk]
    exact ⟨⟨⟨h.matched, rfl, rfl, rfl⟩, rfl, rfl, rfl, h.promptStartEdge,
      if_neg (by simp [h.commandStartedEdge]), h.commandFinished⟩, rfl, rfl⟩

/-- The trust is set, and nothing else but the note that it changed. -/
theorem setBoundaryTrust_eq (s : PromptSniffer) (trusted : Bool) : ∃ changed, s.setBoundaryTrust trusted =
    { s with boundaryTrust := if trusted then .trusted else .untrusted, boundaryTrustChanged := changed } := by
  unfold setBoundaryTrust
  dsimp only
  by_cases h : s.boundaryTrust = if trusted then .trusted else .untrusted
  · exact ⟨s.boundaryTrustChanged, by rw [if_neg (not_not.mpr h), ← h]⟩
  · exact ⟨some trusted, if_pos h⟩

theorem resetBoundaryState_untrusted : s.resetBoundaryState.boundaryTrusted = false := by
  obtain ⟨changed, heq⟩ := s.setBoundaryTrust_eq false
  rw [resetBoundaryState, heq]
  rfl

theorem resetBoundaryState_tidy (h : Tidy s) : Tidy s.resetBoundaryState := by
  obtain ⟨changed, heq⟩ := s.setBoundaryTrust_eq false
  rw [resetBoundaryState, heq]
  exact ⟨rfl, rfl, rfl, h.commandFinished⟩

theorem apply_rejected (hr : s.advance r = none) : s.apply sub (some r) exit cmdline = s.resetBoundaryState := by
  unfold apply
  simp only [hr]

variable (sub) (exit) (cmdline) (bytes) in
theorem takes_rejected (h : Tidy s) (hr : s.advance r = none) :
    Took ((s.apply sub (some r) exit cmdline).drainMark bytes) bytes .awaitPrompt false false none none := by
  have htidy := resetBoundaryState_tidy h
  rw [apply_rejected hr]
  exact ⟨⟨rfl, rfl, rfl, rfl⟩, rfl, resetBoundaryState_untrusted, rfl, rfl, rfl, htidy.commandFinished⟩

theorem apply_prompt (hr : s.advance .prompt = some { s with lifecycle := .inPrompt }) :
    s.apply sub (some .prompt) exit cmdline =
      { s with lifecycle := .inPrompt, promptStartEdge := true, region := .prompt } := by
  unfold apply
  simp [hr]

variable (sub) (exit) (cmdline) (bytes) in
theorem takes_prompt (h : Tidy s) (hr : s.advance .prompt = some { s with lifecycle := .inPrompt }) :
    Took ((s.apply sub (some .prompt) exit cmdline).drainMark bytes) bytes .inPrompt s.boundaryTrusted true none none := by
  rw [apply_prompt hr]
  exact ⟨⟨rfl, rfl, rfl, rfl⟩, rfl, rfl, rfl, rfl, if_neg (by simp [h.commandStartedEdge]), h.commandFinished⟩

theorem apply_command (hr : s.advance .command = some { s with lifecycle := .inCommand }) :
    s.apply sub (some .command) exit cmdline =
      { s with lifecycle := .inCommand, commandBuf := [], region := .command } := by
  unfold apply
  simp [hr]

variable (sub) (exit) (cmdline) (bytes) in
theorem takes_command (h : Tidy s) (hr : s.advance .command = some { s with lifecycle := .inCommand }) :
    Took ((s.apply sub (some .command) exit cmdline).drainMark bytes) bytes .inCommand s.boundaryTrusted false none none := by
  rw [apply_command hr]
  exact ⟨⟨rfl, rfl, rfl, rfl⟩, rfl, rfl, rfl, h.promptStartEdge, if_neg (by simp [h.commandStartedEdge]),
    h.commandFinished⟩

/-- What an execution is called: what the shell reports, else the echo. -/
def titleOf (s : PromptSniffer) (cmdline : Option Str) : Option Str :=
  match cmdline with
  | some text => some text
  | none => if renderCommandEcho s.commandBuf = [] then none else some (renderCommandEcho s.commandBuf)

theorem apply_blank (hregion : s.region = .command) (hr : s.advance .output = some { s with lifecycle := .inOutput })
    (hblank : blank cmdline) : s.apply sub (some .output) exit cmdline =
      { s with
        lifecycle := .inOutput, currentCommand := none, commandStartedAt := none, commandStartedEdge := false
        region := .output } := by
  obtain ⟨text, rfl, htext⟩ := hblank
  unfold apply
  simp [hr, hregion, startOutput, htext]

theorem apply_run (hregion : s.region = .command) (hr : s.advance .output = some { s with lifecycle := .inOutput })
    (hblank : ¬ blank cmdline) : s.apply sub (some .output) exit cmdline =
      { s with
        lifecycle := .inOutput, currentCommand := titleOf s cmdline, commandStartedAt := some s.readings
        commandStartedEdge := s.boundaryTrusted, region := .output, readings := s.readings + 1 } := by
  unfold apply titleOf
  cases cmdline with
  | none => simp [hr, hregion, startOutput]
  | some text =>
    have htext : ¬ trim text = [] := fun he => hblank ⟨text, rfl, he⟩
    simp [hr, hregion, startOutput, htext]

theorem Tidy.region_of_inCommand (h : Tidy s) (hs : s.lifecycle = .inCommand) : s.region = .command :=
  h.matched.trans (by rw [hs]; rfl)

variable (sub) (exit) (bytes) in
theorem takes_output (h : Tidy s) (hs : s.lifecycle = .inCommand)
    (hr : s.advance .output = some { s with lifecycle := .inOutput }) (hblank : blank cmdline) :
    Took ((s.apply sub (some .output) exit cmdline).drainMark bytes) bytes .inOutput s.boundaryTrusted false none none ∧
      ((s.apply sub (some .output) exit cmdline).drainMark bytes).1.commandStartedAt = none := by
  rw [apply_blank (h.region_of_inCommand hs) hr hblank]
  exact ⟨⟨⟨rfl, rfl, rfl, rfl⟩, rfl, rfl, rfl, h.promptStartEdge, rfl, h.commandFinished⟩, rfl⟩

variable (sub) (exit) (bytes) in
theorem takes_output_run (h : Tidy s) (hs : s.lifecycle = .inCommand)
    (hr : s.advance .output = some { s with lifecycle := .inOutput }) (hblank : ¬ blank cmdline) :
    Took ((s.apply sub (some .output) exit cmdline).drainMark bytes) bytes .inOutput s.boundaryTrusted false
        (if s.boundaryTrusted then some ⟨0, titleOf s cmdline, none, s.readings⟩ else none) none ∧
      ((s.apply sub (some .output) exit cmdline).drainMark bytes).1.commandStartedAt = some s.readings ∧
      ((s.apply sub (some .output) exit cmdline).drainMark bytes).1.currentCommand = titleOf s cmdline := by
  rw [apply_run (h.region_of_inCommand hs) hr hblank]
  refine ⟨⟨⟨rfl, rfl, rfl, rfl⟩, rfl, rfl, rfl, h.promptStartEdge, ?_, h.commandFinished⟩, rfl, rfl⟩
  rfl

variable (exit) (cmdline) in
theorem apply_finish (h : Tidy s)
    (hr : s.advance .none = some ({ s with lifecycle := .awaitPrompt }.setBoundaryTrust true)) :
    ∃ changed, s.apply 'D'.toUInt8 (some .none) exit cmdline =
      { s with
        lifecycle := .awaitPrompt, boundaryTrust := .trusted, boundaryTrustChanged := changed, region := .none
        commandStartedAt := none, currentCommand := none, commandBuf := []
        commandFinished := if s.boundaryTrusted then
            s.commandStartedAt.map fun startedAt => ⟨0, s.currentCommand, exit, none, startedAt, s.readings⟩
          else none
        readings := if s.boundaryTrusted && s.commandStartedAt.isSome then s.readings + 1 else s.readings } := by
  obtain ⟨changed, heq⟩ := setBoundaryTrust_eq { s with lifecycle := .awaitPrompt } true
  rw [heq] at hr
  refine ⟨changed, ?_⟩
  unfold apply
  simp only [hr]
  cases hstart : s.commandStartedAt with
  | none => simp [finishOutput, h.commandFinished]
  | some startedAt =>
    by_cases htrust : s.boundaryTrusted = true
    · simp [finishOutput, htrust]
    · simp [finishOutput, htrust, h.commandFinished]

variable (exit) (cmdline) (bytes) in
theorem takes_finish (h : Tidy s) (hr : s.advance .none = some ({ s with lifecycle := .awaitPrompt }.setBoundaryTrust true)) :
    Took ((s.apply 'D'.toUInt8 (some .none) exit cmdline).drainMark bytes) bytes .awaitPrompt true false none
      (if s.boundaryTrusted then
        s.commandStartedAt.map fun startedAt => ⟨0, s.currentCommand, exit, none, startedAt, s.readings⟩
      else none) := by
  obtain ⟨changed, happly⟩ := apply_finish exit cmdline h hr
  rw [happly]
  exact ⟨⟨rfl, rfl, rfl, rfl⟩, rfl, rfl, rfl, h.promptStartEdge, if_neg (by simp [h.commandStartedEdge]), rfl⟩

end PromptSniffer

/-! ## The invariant -/

section

variable {Engine : Type} {base64 : Bytes → Option Bytes} {vt : Vt Engine} {engineBlocks : Bool}
  {sh sh' : Shell Engine} {labels : List Label} {l : Label}

/-- What the next `;D` would finish. -/
def pending (sh : Shell Engine) : Option CommandStart :=
  if sh.sniffer.lifecycle = .inOutput ∧ sh.sniffer.boundaryTrusted then
    sh.sniffer.commandStartedAt.map fun startedAt =>
      ⟨sh.owner.markSeq, sh.sniffer.currentCommand, sh.owner.launchCwd.getD none, startedAt⟩
  else none

/-- The execution whose output comes: its `;C`, and the start that this told. -/
structure Execution (labels : List Label) (sh : Shell Engine) (m : MarkStep) : Prop where
  isMark : (Label.mark m).isMark 'C'
  since : Since labels (.mark m) (·.isMark 'C')
  trusted : m.trusted = sh.sniffer.boundaryTrusted
  blank : blank m.cmdline → sh.sniffer.commandStartedAt = none
  start : ∀ start, pending sh = some start → (Label.mark m).starts = [start] ∧ start.cwd = m.cwd

structure Inv (labels : List Label) (sh : Shell Engine) : Prop where
  tidy : sh.sniffer.Tidy
  cycle : Cycle (cycle labels) sh.sniffer.lifecycle
  earned : sh.sniffer.boundaryTrusted → TrustEarned labels
  starts : starts labels = (pending sh).toList
  execution : sh.sniffer.lifecycle = .inOutput → ∃ m, Execution labels sh m
  finishes : AtEach (fun before l => ∀ cmd ∈ l.finishes, Finishes before cmd) labels

theorem cycle_concat : cycle (labels ++ [l]) = if l.resets || l.isMark 'D' then [] else cycle labels ++ l.letters := by
  unfold cycle
  rw [recent_concat]
  split <;> simp

theorem starts_concat :
    starts (labels ++ [l]) = if l.resets || l.finishes ≠ [] then [] else starts labels ++ l.starts := by
  unfold starts
  rw [recent_concat]
  split <;> simp

theorem TrustEarned.concat (h : TrustEarned labels) (hl : l.resets = false) : TrustEarned (labels ++ [l]) := by
  obtain ⟨before, d, after, rfl, hd, hcycle, hafter⟩ := h
  refine ⟨before, d, after ++ [l], by simp, hd, hcycle, fun x hx => ?_⟩
  rcases mem_append.mp hx with hx | hx
  · exact hafter x hx
  · rw [mem_singleton.mp hx, hl]

theorem pending_of_ne (h : sh.sniffer.lifecycle ≠ .inOutput) : pending sh = none := if_neg fun hand => h hand.1

theorem pending_congr (hlife : sh'.sniffer.lifecycle = sh.sniffer.lifecycle)
    (htrust : sh'.sniffer.boundaryTrusted = sh.sniffer.boundaryTrusted)
    (hstarted : sh'.sniffer.commandStartedAt = sh.sniffer.commandStartedAt)
    (hcommand : sh'.sniffer.currentCommand = sh.sniffer.currentCommand)
    (hseq : sh'.owner.markSeq = sh.owner.markSeq) (hcwd : sh'.owner.launchCwd = sh.owner.launchCwd) :
    pending sh' = pending sh := by
  unfold pending
  rw [hlife, htrust, hstarted, hcommand, hseq, hcwd]

theorem finishes_concat (h : Inv labels sh) (hl : l.finishes = []) :
    AtEach (fun before l => ∀ cmd ∈ l.finishes, Finishes before cmd) (labels ++ [l]) := by
  refine h.finishes.concat fun cmd hcmd => ?_
  rw [hl] at hcmd
  cases hcmd

/-- What leaves the lifecycle, the trust and the execution as they are. -/
theorem Inv.keep (h : Inv labels sh) (hresets : l.resets = false) (hc : l.isMark 'C' = false) (hd : l.isMark 'D' = false)
    (hletters : l.letters = []) (hstarts : l.starts = []) (hfinishes : l.finishes = []) (htidy : sh'.sniffer.Tidy)
    (hlife : sh'.sniffer.lifecycle = sh.sniffer.lifecycle)
    (htrust : sh'.sniffer.boundaryTrusted = sh.sniffer.boundaryTrusted) (hpending : pending sh' = pending sh)
    (hstarted : sh'.sniffer.commandStartedAt = sh.sniffer.commandStartedAt) : Inv (labels ++ [l]) sh' := by
  refine ⟨htidy, ?_, fun ht => (h.earned (htrust ▸ ht)).concat hresets, ?_, fun hout => ?_, finishes_concat h hfinishes⟩
  · rw [cycle_concat, hresets, hd, hletters, hlife]
    simpa using h.cycle
  · rw [starts_concat, hresets, hfinishes, hstarts, hpending]
    simpa using h.starts
  · obtain ⟨m, hm⟩ := h.execution (hlife ▸ hout)
    refine ⟨m, hm.isMark, since_concat.mpr (.inr ⟨hm.since, by simp [hc]⟩), htrust ▸ hm.trusted,
      fun hblank => hstarted.trans (hm.blank hblank), fun start hstart => hm.start start (hpending ▸ hstart)⟩

theorem Inv.reset (h : Inv labels sh) (hresets : l.resets) (hfinishes : l.finishes = []) (htidy : sh'.sniffer.Tidy)
    (hlife : sh'.sniffer.lifecycle = .awaitPrompt) (htrust : sh'.sniffer.boundaryTrusted = false) :
    Inv (labels ++ [l]) sh' := by
  have hne : sh'.sniffer.lifecycle ≠ .inOutput := by
    rw [hlife]
    exact ShellLifecycleProgress.noConfusion
  refine ⟨htidy, ?_, fun ht => ?_, ?_, fun hout => absurd hout hne, finishes_concat h hfinishes⟩
  · rw [cycle_concat, hresets, hlife]
    rfl
  · rw [htrust] at ht
    cases ht
  · rw [starts_concat, hresets, pending_of_ne hne]
    rfl

theorem Inv.advance (h : Inv labels sh) (hresets : l.resets = false) (hd : l.isMark 'D' = false) (hstarts : l.starts = [])
    (hfinishes : l.finishes = []) (htidy : sh'.sniffer.Tidy) (hfrom : sh.sniffer.lifecycle ≠ .inOutput)
    (hto : sh'.sniffer.lifecycle ≠ .inOutput) (htrust : sh'.sniffer.boundaryTrusted = sh.sniffer.boundaryTrusted)
    (hcycle : Cycle (Terminal.cycle labels ++ l.letters) sh'.sniffer.lifecycle) : Inv (labels ++ [l]) sh' := by
  refine ⟨htidy, ?_, fun ht => (h.earned (htrust ▸ ht)).concat hresets, ?_, fun hout => absurd hout hto,
    finishes_concat h hfinishes⟩
  · rw [cycle_concat, hresets, hd]
    exact hcycle
  · have hnone := h.starts
    rw [pending_of_ne hfrom] at hnone
    rw [starts_concat, hresets, hfinishes, hstarts, pending_of_ne hto, hnone]
    rfl

/-- The output begins: the start that the mark tells is the one that waits for a finish. -/
theorem Inv.output (h : Inv labels sh) {m : MarkStep} (hmark : (Label.mark m).isMark 'C')
    (hfinishes : (Label.mark m).finishes = []) (htidy : sh'.sniffer.Tidy) (hfrom : sh.sniffer.lifecycle = .inCommand)
    (hto : sh'.sniffer.lifecycle = .inOutput) (htrust : sh'.sniffer.boundaryTrusted = sh.sniffer.boundaryTrusted)
    (hbefore : m.trusted = sh.sniffer.boundaryTrusted) (hblank : blank m.cmdline → sh'.sniffer.commandStartedAt = none)
    (hstarts : (Label.mark m).starts = (pending sh').toList)
    (hcwd : ∀ start, pending sh' = some start → start.cwd = m.cwd) : Inv (labels ++ [.mark m]) sh' := by
  have hand : m.accepted = true ∧ m.letter = 'C'.toUInt8 := by simpa [Label.isMark] using hmark
  have hresets : (Label.mark m).resets = false := by simp [Label.resets, hand.1]
  have hd : (Label.mark m).isMark 'D' = false := by
    simp only [Label.isMark, hand.1, hand.2]
    decide
  have hletters : (Label.mark m).letters = ['C'.toUInt8] := by
    simp only [Label.letters, hand.2]
    decide
  have hne : sh.sniffer.lifecycle ≠ .inOutput := by
    rw [hfrom]
    exact ShellLifecycleProgress.noConfusion
  refine ⟨htidy, ?_, fun ht => (h.earned (htrust ▸ ht)).concat hresets, ?_, fun _ => ?_, finishes_concat h hfinishes⟩
  · have hcycle := h.cycle
    rw [hfrom] at hcycle
    obtain ⟨i, j, hij⟩ := hcycle
    rw [cycle_concat, hresets, hd, hto, hletters, hij]
    exact ⟨i, j, rfl⟩
  · have hnone := h.starts
    rw [pending_of_ne hne] at hnone
    rw [starts_concat, hresets, hfinishes, hnone, hstarts]
    rfl
  · exact ⟨m, hmark, since_concat.mpr (.inl rfl), hbefore.trans htrust.symm, hblank,
      fun start hstart => ⟨by rw [hstarts, hstart]; rfl, hcwd start hstart⟩⟩

/-- The output ends: what waited for a finish is finished. -/
theorem Inv.finish (h : Inv labels sh) (hmark : l.isMark 'D') (htidy : sh'.sniffer.Tidy)
    (hfrom : sh.sniffer.lifecycle = .inOutput) (hto : sh'.sniffer.lifecycle = .awaitPrompt) (hstarts : l.starts = [])
    (hfinishes : ∀ cmd ∈ l.finishes, ∃ start, pending sh = some start ∧ cmd.command = start.command ∧
      cmd.startedAt = start.startedAt ∧ cmd.seq = start.seq ∧ cmd.cwd = start.cwd)
    (hnone : l.finishes = [] → pending sh = none) : Inv (labels ++ [l]) sh' := by
  have hresets : l.resets = false := by
    cases l with
    | mark m =>
      have hand : m.accepted = true ∧ m.letter = 'D'.toUInt8 := by simpa [Label.isMark] using hmark
      simp [Label.resets, hand.1]
    | quiet events => rfl
    | reset events => cases hmark
  have hne : sh'.sniffer.lifecycle ≠ .inOutput := by
    rw [hto]
    exact ShellLifecycleProgress.noConfusion
  have hcycle := h.cycle
  rw [hfrom] at hcycle
  refine ⟨htidy, ?_, fun _ => ⟨labels, l, [], rfl, hmark, hcycle, by simp⟩, ?_, fun hout => absurd hout hne,
    h.finishes.concat fun cmd hcmd => ?_⟩
  · rw [cycle_concat, hmark, Bool.or_true, hto]
    rfl
  · rw [pending_of_ne hne, starts_concat, hresets, hstarts, append_nil, h.starts]
    by_cases hl : l.finishes = []
    · rw [hnone hl]
      split <;> rfl
    · rw [if_pos (by simpa using hl)]
      rfl
  · obtain ⟨start, hstart, hcommand, hstarted, hseq, hcwd⟩ := hfinishes cmd hcmd
    obtain ⟨m, hm⟩ := h.execution hfrom
    obtain ⟨hmstarts, hmcwd⟩ := hm.start start hstart
    obtain ⟨hand, hmap⟩ : (sh.sniffer.lifecycle = .inOutput ∧ sh.sniffer.boundaryTrusted = true) ∧
        sh.sniffer.commandStartedAt ≠ none := by
      unfold pending at hstart
      split at hstart
      · next hand =>
        refine ⟨hand, fun hn => ?_⟩
        rw [hn] at hstart
        cases hstart
      · cases hstart
    refine ⟨m, start, hm.isMark, hm.since, ?_, hmstarts, hcommand, hstarted, hseq, hcwd, hmcwd, ?_, fun hblank => ?_⟩
    · rw [h.starts, hstart]
      rfl
    · rw [hm.trusted, hand.2]
    · exact hmap (hm.blank hblank)

/-! ## A mark -/

variable {sub : UInt8} {exit : Option ℤ} {next : Option PromptRegion} {cmdline : Option Str} {bytes : Bytes}
  {lifecycle : ShellLifecycleProgress} {trusted promptStarted : Bool} {start : Option CommandStart}
  {finish : Option CommandCapture}

/-- What a mark does to the whole terminal, from what it does to the sniffer. -/
structure TookMark (vt : Vt Engine) (sh : Shell Engine) (r : MarkStep × Shell Engine) (promptStarted trusted : Bool)
    (start : Option CommandStart) (finish : Option CommandCapture) : Prop where
  markSeq : r.2.owner.markSeq = if promptStarted && trusted then sh.owner.markSeq + 1 else sh.owner.markSeq
  launchCwd : r.2.owner.launchCwd = if finish.isSome then none
    else if start.isSome then some r.1.cwd else sh.owner.launchCwd
  starts : (Label.mark r.1).starts =
    (start.map fun start => { start with seq := r.2.owner.markSeq, cwd := r.1.cwd }).toList
  finishes : (Label.mark r.1).finishes = (finish.map fun cmd => { cmd with
    seq := r.2.owner.markSeq
    cwd := if start.isSome then r.1.cwd else sh.owner.launchCwd.getD none }).toList

variable (vt) (engineBlocks) in
theorem takeMark_took (h : PromptSniffer.Took ((sh.sniffer.apply sub next exit cmdline).drainMark bytes) bytes lifecycle
    trusted promptStarted start finish) :
    TookMark vt sh (takeMark vt engineBlocks sh sub exit next cmdline bytes) promptStarted trusted start finish := by
  have happlies := Owner.applies vt engineBlocks sh.owner
    ((sh.sniffer.apply sub next exit cmdline).drainMark bytes).2
  have htrusted : ((sh.sniffer.apply sub next exit cmdline).drainMark bytes).2.trusted = trusted := h.trusted
  refine ⟨?_, ?_, ?_, ?_⟩
  · have hseq := happlies.markSeq
    rw [h.promptStarted, htrusted] at hseq
    exact hseq
  · have hcwd := happlies.launchCwd
    rw [h.finish, h.start, h.bytes] at hcwd
    exact hcwd
  · have hstarts := happlies.starts
    rw [h.start, h.bytes] at hstarts
    exact hstarts
  · have hfinishes := happlies.finishes
    rw [h.finish, h.start, h.bytes] at hfinishes
    exact hfinishes

theorem parseOsc_next {len : ℕ} (h : parseOsc base64 bytes = .mark len sub exit next cmdline) : next = regionFor sub := by
  rcases parseOsc_cases base64 bytes with ⟨letter, rest, rfl, hs⟩ | ⟨-, hs⟩ | ⟨-, -, hs⟩
  · rw [hs, parseArgs] at h
    split at h
    · rw [markOf, SniffedOsc.mark.injEq] at h
      rw [← h.2.2.2.1, h.2.1]
    · cases h
    · cases h
  · rw [hs] at h
    cases h
  · rw [hs] at h
    cases h

theorem regionFor_cases (sub : UInt8) :
    (sub = 'A'.toUInt8 ∧ regionFor sub = some .prompt) ∨ (sub = 'B'.toUInt8 ∧ regionFor sub = some .command) ∨
    (sub = 'C'.toUInt8 ∧ regionFor sub = some .output) ∨ (sub = 'D'.toUInt8 ∧ regionFor sub = some .none) ∨
    (regionFor sub = none ∧ sub ≠ 'A'.toUInt8 ∧ sub ≠ 'B'.toUInt8 ∧ sub ≠ 'C'.toUInt8 ∧ sub ≠ 'D'.toUInt8) := by
  by_cases ha : sub = 'A'.toUInt8
  · exact .inl ⟨ha, by rw [ha]; rfl⟩
  by_cases hb : sub = 'B'.toUInt8
  · exact .inr (.inl ⟨hb, by rw [hb]; rfl⟩)
  by_cases hc : sub = 'C'.toUInt8
  · exact .inr (.inr (.inl ⟨hc, by rw [hc]; rfl⟩))
  by_cases hd : sub = 'D'.toUInt8
  · exact .inr (.inr (.inr (.inl ⟨hd, by rw [hd]; rfl⟩)))
  · refine .inr (.inr (.inr (.inr ⟨?_, ha, hb, hc, hd⟩)))
    rw [regionFor, if_neg ha, if_neg hb, if_neg hc, if_neg hd]

theorem rejects_of_advance {r : PromptRegion} {a : PromptSniffer} (h : sh.sniffer.advance r = some a) :
    sh.sniffer.rejects (some r) = false := by
  simp [PromptSniffer.rejects, h]

theorem Inv.rejected {r : PromptRegion} (h : Inv labels sh) (hr : sh.sniffer.advance r = none) :
    Inv (labels ++ [.mark (takeMark vt engineBlocks sh sub exit (some r) cmdline bytes).1])
      (takeMark vt engineBlocks sh sub exit (some r) cmdline bytes).2 := by
  have htook := PromptSniffer.takes_rejected sub exit cmdline bytes h.tidy hr
  have hmark := takeMark_took vt engineBlocks htook
  have hrejects : sh.sniffer.rejects (some r) = true := by simp [PromptSniffer.rejects, hr]
  exact h.reset (by simp [Label.resets, takeMark, hrejects]) hmark.finishes htook.tidy htook.lifecycle htook.trusted

theorem Inv.other (h : Inv labels sh) (hsub : regionFor sub = none) (hc : sub ≠ 'C'.toUInt8) (hd : sub ≠ 'D'.toUInt8) :
    Inv (labels ++ [.mark (takeMark vt engineBlocks sh sub exit none cmdline bytes).1])
      (takeMark vt engineBlocks sh sub exit none cmdline bytes).2 := by
  obtain ⟨htook, hstarted, hcommand⟩ := PromptSniffer.takes_other sub exit cmdline bytes h.tidy
  have hmark := takeMark_took vt engineBlocks htook
  have hpending : pending (takeMark vt engineBlocks sh sub exit none cmdline bytes).2 = pending sh :=
    pending_congr htook.lifecycle htook.trusted hstarted hcommand hmark.markSeq hmark.launchCwd
  exact h.keep rfl (by simp [Label.isMark, takeMark, hc]) (by simp [Label.isMark, takeMark, hd])
    (by simp [Label.letters, takeMark, hsub]) hmark.starts hmark.finishes htook.tidy htook.lifecycle htook.trusted
    hpending hstarted

theorem Inv.before {r : PromptRegion} (h : Inv labels sh) (hr : sh.sniffer.rejects (some r) = false)
    (htook : PromptSniffer.Took ((sh.sniffer.apply sub (some r) exit cmdline).drainMark bytes) bytes lifecycle
      sh.sniffer.boundaryTrusted promptStarted none none) (hsub : regionFor sub = some r) (hd : sub ≠ 'D'.toUInt8)
    (hfrom : sh.sniffer.lifecycle ≠ .inOutput) (hto : lifecycle ≠ .inOutput)
    (hcycle : Cycle (Terminal.cycle labels ++ [sub]) lifecycle) :
    Inv (labels ++ [.mark (takeMark vt engineBlocks sh sub exit (some r) cmdline bytes).1])
      (takeMark vt engineBlocks sh sub exit (some r) cmdline bytes).2 := by
  have hmark := takeMark_took vt engineBlocks htook
  have hlife : (takeMark vt engineBlocks sh sub exit (some r) cmdline bytes).2.sniffer.lifecycle = lifecycle := htook.lifecycle
  have hletters : (Label.mark (takeMark vt engineBlocks sh sub exit (some r) cmdline bytes).1).letters = [sub] := by
    simp [Label.letters, takeMark, hsub]
  refine h.advance (by simp [Label.resets, takeMark, hr]) (by simp [Label.isMark, takeMark, hd]) hmark.starts
    hmark.finishes htook.tidy hfrom (hlife ▸ hto) htook.trusted ?_
  rw [hlife, hletters]
  exact hcycle

theorem Inv.prompt {a : PromptSniffer} (h : Inv labels sh) (hr : sh.sniffer.advance .prompt = some a)
    (ha : a = { sh.sniffer with lifecycle := .inPrompt })
    (hfrom : sh.sniffer.lifecycle = .awaitPrompt ∨ sh.sniffer.lifecycle = .inPrompt) :
    Inv (labels ++ [.mark (takeMark vt engineBlocks sh 'A'.toUInt8 exit (some .prompt) cmdline bytes).1])
      (takeMark vt engineBlocks sh 'A'.toUInt8 exit (some .prompt) cmdline bytes).2 := by
  have htook := PromptSniffer.takes_prompt 'A'.toUInt8 exit cmdline bytes h.tidy (ha ▸ hr)
  have hcycle := h.cycle
  refine h.before (rejects_of_advance hr) htook rfl (by decide) ?_ ShellLifecycleProgress.noConfusion ?_
  · rcases hfrom with hfrom | hfrom <;> rw [hfrom] <;> exact ShellLifecycleProgress.noConfusion
  · rcases hfrom with hfrom | hfrom
    · rw [hfrom] at hcycle
      exact ⟨0, by rw [show Terminal.cycle labels = [] from hcycle]; rfl⟩
    · rw [hfrom] at hcycle
      obtain ⟨i, hi⟩ := hcycle
      exact ⟨i + 1, by rw [hi, ← replicate_succ']⟩

theorem Inv.command {a : PromptSniffer} (h : Inv labels sh) (hr : sh.sniffer.advance .command = some a)
    (ha : a = { sh.sniffer with lifecycle := .inCommand })
    (hfrom : sh.sniffer.lifecycle = .inPrompt ∨ sh.sniffer.lifecycle = .inCommand) :
    Inv (labels ++ [.mark (takeMark vt engineBlocks sh 'B'.toUInt8 exit (some .command) cmdline bytes).1])
      (takeMark vt engineBlocks sh 'B'.toUInt8 exit (some .command) cmdline bytes).2 := by
  have htook := PromptSniffer.takes_command 'B'.toUInt8 exit cmdline bytes h.tidy (ha ▸ hr)
  have hcycle := h.cycle
  refine h.before (rejects_of_advance hr) htook rfl (by decide) ?_ ShellLifecycleProgress.noConfusion ?_
  · rcases hfrom with hfrom | hfrom <;> rw [hfrom] <;> exact ShellLifecycleProgress.noConfusion
  · rcases hfrom with hfrom | hfrom
    · rw [hfrom] at hcycle
      obtain ⟨i, hi⟩ := hcycle
      exact ⟨i, 0, by rw [hi]; rfl⟩
    · rw [hfrom] at hcycle
      obtain ⟨i, j, hij⟩ := hcycle
      exact ⟨i, j + 1, by rw [hij, append_assoc, ← replicate_succ']⟩

theorem Inv.beginOutput {a : PromptSniffer} (h : Inv labels sh) (hr : sh.sniffer.advance .output = some a)
    (ha : a = { sh.sniffer with lifecycle := .inOutput }) (hfrom : sh.sniffer.lifecycle = .inCommand) :
    Inv (labels ++ [.mark (takeMark vt engineBlocks sh 'C'.toUInt8 exit (some .output) cmdline bytes).1])
      (takeMark vt engineBlocks sh 'C'.toUInt8 exit (some .output) cmdline bytes).2 := by
  have hmark : (Label.mark (takeMark vt engineBlocks sh 'C'.toUInt8 exit (some .output) cmdline bytes).1).isMark 'C' := by
    simp [Label.isMark, takeMark, rejects_of_advance hr]
  have hr' := ha ▸ hr
  by_cases hblank : blank cmdline
  · obtain ⟨htook, hstarted⟩ := PromptSniffer.takes_output 'C'.toUInt8 exit bytes
      h.tidy hfrom hr' hblank
    have hstep := takeMark_took vt engineBlocks htook
    have hpending : pending (takeMark vt engineBlocks sh 'C'.toUInt8 exit (some .output) cmdline bytes).2 = none := by
      have hnone : (takeMark vt engineBlocks sh 'C'.toUInt8 exit (some .output) cmdline bytes).2.sniffer.commandStartedAt =
          none := hstarted
      unfold pending
      rw [hnone]
      split <;> rfl
    refine h.output hmark hstep.finishes htook.tidy hfrom htook.lifecycle htook.trusted rfl (fun _ => hstarted) ?_ ?_
    · rw [hstep.starts, hpending]
      rfl
    · intro start hstart
      rw [hpending] at hstart
      cases hstart
  · obtain ⟨htook, hstarted, hcommand⟩ := PromptSniffer.takes_output_run 'C'.toUInt8 exit bytes h.tidy hfrom hr' hblank
    have hstep := takeMark_took vt engineBlocks htook
    have hpending : pending (takeMark vt engineBlocks sh 'C'.toUInt8 exit (some .output) cmdline bytes).2 =
        (if sh.sniffer.boundaryTrusted then some (⟨0, sh.sniffer.titleOf cmdline, none, sh.sniffer.readings⟩ : CommandStart)
          else none).map fun start => { start with
            seq := (takeMark vt engineBlocks sh 'C'.toUInt8 exit (some .output) cmdline bytes).2.owner.markSeq
            cwd := (takeMark vt engineBlocks sh 'C'.toUInt8 exit (some .output) cmdline bytes).1.cwd } := by
      have hcwd := hstep.launchCwd
      have hlife : (takeMark vt engineBlocks sh 'C'.toUInt8 exit (some .output) cmdline bytes).2.sniffer.lifecycle =
        .inOutput := htook.lifecycle
      have htrust : (takeMark vt engineBlocks sh 'C'.toUInt8 exit (some .output) cmdline bytes).2.sniffer.boundaryTrusted =
        sh.sniffer.boundaryTrusted := htook.trusted
      have hat : (takeMark vt engineBlocks sh 'C'.toUInt8 exit (some .output) cmdline bytes).2.sniffer.commandStartedAt =
        some sh.sniffer.readings := hstarted
      have htitle : (takeMark vt engineBlocks sh 'C'.toUInt8 exit (some .output) cmdline bytes).2.sniffer.currentCommand =
        sh.sniffer.titleOf cmdline := hcommand
      unfold pending
      rw [hlife, htrust, hat, htitle, hcwd]
      by_cases ht : sh.sniffer.boundaryTrusted = true
      · simp [ht]
      · simp [ht]
    refine h.output hmark hstep.finishes htook.tidy hfrom htook.lifecycle htook.trusted rfl
      (fun hb => absurd hb hblank) ?_ ?_
    · rw [hstep.starts, hpending]
    · intro start hstart
      rw [hpending, Option.map_eq_some_iff] at hstart
      obtain ⟨first, -, rfl⟩ := hstart
      rfl

theorem Inv.endOutput {a : PromptSniffer} (h : Inv labels sh) (hr : sh.sniffer.advance .none = some a)
    (ha : a = { sh.sniffer with lifecycle := .awaitPrompt }.setBoundaryTrust true)
    (hfrom : sh.sniffer.lifecycle = .inOutput) :
    Inv (labels ++ [.mark (takeMark vt engineBlocks sh 'D'.toUInt8 exit (some .none) cmdline bytes).1])
      (takeMark vt engineBlocks sh 'D'.toUInt8 exit (some .none) cmdline bytes).2 := by
  have hmark : (Label.mark (takeMark vt engineBlocks sh 'D'.toUInt8 exit (some .none) cmdline bytes).1).isMark 'D' := by
    simp [Label.isMark, takeMark, rejects_of_advance hr]
  have htook := PromptSniffer.takes_finish exit cmdline bytes h.tidy (ha ▸ hr)
  have hstep := takeMark_took vt engineBlocks htook
  have hpending : pending sh = if sh.sniffer.boundaryTrusted then sh.sniffer.commandStartedAt.map fun startedAt =>
      ⟨sh.owner.markSeq, sh.sniffer.currentCommand, sh.owner.launchCwd.getD none, startedAt⟩ else none := by
    unfold pending
    rw [hfrom]
    simp
  have hseq : (takeMark vt engineBlocks sh 'D'.toUInt8 exit (some .none) cmdline bytes).2.owner.markSeq = sh.owner.markSeq :=
    hstep.markSeq
  have hfinishes := hstep.finishes
  rw [hseq] at hfinishes
  refine h.finish hmark htook.tidy hfrom htook.lifecycle hstep.starts (fun cmd hcmd => ?_) fun hnone => ?_
  · rw [hfinishes] at hcmd
    by_cases ht : sh.sniffer.boundaryTrusted = true
    · cases hat : sh.sniffer.commandStartedAt with
      | none => simp [ht, hat] at hcmd
      | some startedAt =>
        rw [ht, hat] at hpending
        simp only [ht, hat, if_true, Option.map_some, Option.toList_some, mem_singleton] at hcmd
        subst hcmd
        exact ⟨_, hpending, rfl, rfl, rfl, rfl⟩
    · simp [ht] at hcmd
  · rw [hfinishes] at hnone
    rw [hpending]
    by_cases ht : sh.sniffer.boundaryTrusted = true
    · cases hat : sh.sniffer.commandStartedAt with
      | none => simp
      | some startedAt => simp [ht, hat] at hnone
    · simp [ht]

/-- The step of the invariant that a mark is. -/
theorem Inv.mark (h : Inv labels sh) (hnext : next = regionFor sub) :
    Inv (labels ++ [.mark (takeMark vt engineBlocks sh sub exit next cmdline bytes).1])
      (takeMark vt engineBlocks sh sub exit next cmdline bytes).2 := by
  subst hnext
  have haccept {r : PromptRegion} (hsub : regionFor sub = some r) (hgo : ∀ a, sh.sniffer.advance r = some a →
      Inv (labels ++ [.mark (takeMark vt engineBlocks sh sub exit (some r) cmdline bytes).1])
        (takeMark vt engineBlocks sh sub exit (some r) cmdline bytes).2) :
      Inv (labels ++ [.mark (takeMark vt engineBlocks sh sub exit (regionFor sub) cmdline bytes).1])
        (takeMark vt engineBlocks sh sub exit (regionFor sub) cmdline bytes).2 := by
    rw [hsub]
    cases hr : sh.sniffer.advance r with
    | none => exact h.rejected hr
    | some a => exact hgo a hr
  rcases regionFor_cases sub with ⟨rfl, hs⟩ | ⟨rfl, hs⟩ | ⟨rfl, hs⟩ | ⟨rfl, hs⟩ | ⟨hs, -, -, hc, hd⟩
  · refine haccept hs fun a hr => ?_
    rcases PromptSniffer.advance_cases hr with ⟨-, hfrom, ha⟩ | ⟨hne, -⟩ | ⟨hne, -⟩ | ⟨hne, -⟩
    · exact h.prompt hr ha hfrom
    all_goals cases hne
  · refine haccept hs fun a hr => ?_
    rcases PromptSniffer.advance_cases hr with ⟨hne, -⟩ | ⟨-, hfrom, ha⟩ | ⟨hne, -⟩ | ⟨hne, -⟩
    · cases hne
    · exact h.command hr ha hfrom
    all_goals cases hne
  · refine haccept hs fun a hr => ?_
    rcases PromptSniffer.advance_cases hr with ⟨hne, -⟩ | ⟨hne, -⟩ | ⟨-, hfrom, ha⟩ | ⟨hne, -⟩
    · cases hne
    · cases hne
    · exact h.beginOutput hr ha hfrom
    · cases hne
  · refine haccept hs fun a hr => ?_
    rcases PromptSniffer.advance_cases hr with ⟨hne, -⟩ | ⟨hne, -⟩ | ⟨hne, -⟩ | ⟨-, hfrom, ha⟩
    · cases hne
    · cases hne
    · cases hne
    · exact h.endOutput hr ha hfrom
  · rw [hs]
    exact h.other hs hc hd

theorem inv_init (h : (shellSystem base64 vt engineBlocks).init sh) : Inv [] sh := by
  obtain ⟨engine, rfl⟩ := h
  exact ⟨⟨rfl, rfl, rfl, rfl⟩, rfl, Bool.noConfusion, rfl, ShellLifecycleProgress.noConfusion, atEach_nil⟩

/-- The step lemma. -/
theorem inv_step (h : Inv labels sh) (hs : (shellSystem base64 vt engineBlocks).step sh l sh') : Inv (labels ++ [l]) sh' := by
  cases hs with
  | bytes seg =>
    have htidy : (sh.sniffer.preForward seg).Tidy := by
      unfold PromptSniffer.preForward
      split
      · exact ⟨h.tidy.matched, h.tidy.promptStartEdge, h.tidy.commandStartedEdge, h.tidy.commandFinished⟩
      · exact h.tidy
    have hkeep : (sh.sniffer.preForward seg).lifecycle = sh.sniffer.lifecycle ∧
        (sh.sniffer.preForward seg).commandStartedAt = sh.sniffer.commandStartedAt ∧
        (sh.sniffer.preForward seg).currentCommand = sh.sniffer.currentCommand := by
      unfold PromptSniffer.preForward
      split <;> exact ⟨rfl, rfl, rfl⟩
    exact h.keep rfl rfl rfl rfl rfl rfl htidy hkeep.1 PromptSniffer.preForward_boundaryTrusted
      (pending_congr hkeep.1 PromptSniffer.preForward_boundaryTrusted hkeep.2.1 hkeep.2.2 rfl rfl) hkeep.2.1
  | hold carry =>
    exact h.keep rfl rfl rfl rfl rfl rfl
      ⟨h.tidy.matched, h.tidy.promptStartEdge, h.tidy.commandStartedEdge, h.tidy.commandFinished⟩ rfl rfl rfl rfl
  | told =>
    have hevents : (Label.quiet (sh.sniffer.boundaryTrustChanged.map .promptBoundaryTrusted).toList).starts = [] ∧
        (Label.quiet (sh.sniffer.boundaryTrustChanged.map .promptBoundaryTrusted).toList).finishes = [] := by
      cases sh.sniffer.boundaryTrustChanged <;> exact ⟨rfl, rfl⟩
    exact h.keep rfl rfl rfl rfl hevents.1 hevents.2
      ⟨h.tidy.matched, h.tidy.promptStartEdge, h.tidy.commandStartedEdge, h.tidy.commandFinished⟩ rfl rfl rfl rfl
  | mark hparse => exact h.mark (parseOsc_next hparse)
  | reset =>
    exact h.reset rfl rfl (PromptSniffer.resetBoundaryState_tidy h.tidy) rfl PromptSniffer.resetBoundaryState_untrusted
  | replica =>
    have hsniffer : (sh.resetReplica vt engineBlocks).1.sniffer = { readings := sh.sniffer.readings } ∧
        (Label.reset (sh.resetReplica vt engineBlocks).2).finishes = [] := by
      unfold Shell.resetReplica
      dsimp only
      split <;> exact ⟨rfl, rfl⟩
    refine h.reset rfl hsniffer.2 ?_ (congrArg PromptSniffer.lifecycle hsniffer.1)
      (congrArg PromptSniffer.boundaryTrusted hsniffer.1)
    rw [hsniffer.1]
    exact ⟨rfl, rfl, rfl, rfl⟩

theorem run_inv (h : Run (shellSystem base64 vt engineBlocks) labels sh) : Inv labels sh :=
  h.history (fun _ hinit => inv_init hinit) fun _ _ _ _ hinv hs => inv_step hinv hs

/-- **Commands begin and finish in pairs.**  Reads of a PTY are runs, and in every state of a run region and lifecycle are a
pair, trust was earned by a `;D` that closed a whole cycle, and every finish has its one start. -/
theorem commands_paired (base64 : Bytes → Option Bytes) (vt : Vt Engine) (engineBlocks : Bool) :
    (∀ (engine : Engine) (reads : List Read), ∃ sh labels,
      (⟨{ ghostty := engine }, {}⟩ : Shell Engine).onReads base64 vt engineBlocks reads =
        some (sh, labels.flatMap Label.events) ∧ Run (shellSystem base64 vt engineBlocks) labels sh) ∧
    ∀ labels (sh : Shell Engine), Run (shellSystem base64 vt engineBlocks) labels sh →
      sh.sniffer.region = sh.sniffer.lifecycle.region ∧ (sh.sniffer.boundaryTrusted → TrustEarned labels) ∧
      AtEach (fun before l ↦ ∀ cmd ∈ l.finishes, Finishes before cmd) labels := by
  refine ⟨Shell.onReads_run base64 vt engineBlocks, fun labels sh h ↦ ?_⟩
  have hinv := run_inv h
  exact ⟨hinv.tidy.matched, hinv.earned, hinv.finishes⟩

end

/-- One cycle of marks, without a command line between `;B` and `;C` and without a report of one. -/
def emptyCycle : Bytes := ['A', 'B', 'C', 'D'].flatMap fun letter => osc133Prefix ++ [letter.toUInt8, bel]

/-- **A blank line that the shell does not report.**  The second cycle is trusted and its command line is blank, and yet
it is a command that began and finished. -/
theorem unreported_blank_finishes :
    ((⟨{ ghostty := () }, {}⟩ : Shell Unit).onReads (fun _ ↦ none)
        ⟨fun _ _ ↦ (), fun _ ↦ none, fun _ ↦ false, fun _ ↦ (true, ()), fun _ ↦ 0, fun _ ↦ ()⟩ false
        [.chunk (emptyCycle ++ emptyCycle)]).map (fun r ↦ r.2.filterMap TerminalEvent.finish?) =
      some [⟨1, none, none, none, 1, 2⟩] := by
  decide +kernel

end NiumaTerm.Terminal
