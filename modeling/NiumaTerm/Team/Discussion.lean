import Mathlib.Algebra.Group.Nat.Defs
import NiumaTerm.Team.Model

/-!
# Budgets, stages and discussions

The operations of `Budget`, `Stage` and `Discussion`.  A discussion is paused for a set of reasons;
resolving a reason leaves its state alone, so that only continuing and finishing let work go again.
-/

namespace NiumaTerm.Team

open Rust

/-! ## Budgets -/

inductive BudgetError
  | insufficientTurns
  | overflow
  deriving DecidableEq

namespace Budget

def defaultTurnLimit : ℕ := 12

/-- `u32::MAX` -/
def limitMax : ℕ := 2 ^ 32 - 1

/-- `Budget::discussion` -/
def ofDiscussion : Budget := { limit := defaultTurnLimit, reportReserved := true }

def direct : Budget := { ofDiscussion with reportReserved := false }

/-- Subtraction stops at zero, as `saturating_sub` does. -/
def remainingNonReportTurns (b : Budget) (attempts : List Attempt) : ℕ :=
  let reserved := attempts.any fun t => t.intent.purpose = .report && t.state = .reserved
  b.limit - attempts.length - (b.reportReserved && !reserved).toNat

def validate (b : Budget) (attempts : List Attempt) : Bool :=
  let reported := attempts.any fun t => t.intent.purpose = .report
  attempts.length + (b.reportReserved && !reported).toNat ≤ b.limit

/-- Reserve space for the entire batch before storing any attempt.  Unknown delivery and failed
dispatched work still consume their turns. -/
def checkBatch (b : Budget) (attempts : List Attempt) (purposes : List TurnPurpose) :
    Except BudgetError Unit :=
  let reserved := (attempts.any fun t => t.intent.purpose = .report && t.state = .reserved) ||
    purposes.any fun purpose => purpose = .report
  if attempts.length + purposes.length + (b.reportReserved && !reserved).toNat > b.limit then
    .error .insufficientTurns
  else .ok ()

def addTurns (b : Budget) (turns : ℕ) : Except BudgetError Budget :=
  if b.limit + turns > limitMax then .error .overflow else .ok { b with limit := b.limit + turns }

end Budget

/-! ## Stages -/

namespace Stage

/-- `Stage::pending`: a new stage with a pending arrangement for each recipient. -/
def pending (kind : StageKind) (recipients : List MemberId) (snapshot : PublicSnapshot)
    (serial : ℕ) : Stage where
  id := ⟨serial, 0⟩
  kind
  arrangements := recipients.mapIdx fun index recipient =>
    { operation := ⟨serial, index⟩, recipient, state := .pending }
  segments := [snapshot]
  decision := none

/-- Whether every arrangement reached an outcome that needs no more work. -/
def isSettled (s : Stage) : Bool := s.arrangements.all fun a => a.state.isSettled

def mapArrangements (f : Arrangement → ArrangementState) (s : Stage) : Stage :=
  { s with arrangements := s.arrangements.map fun a => { a with state := f a } }

end Stage

/-! ## Discussions -/

namespace Discussion

/-- `Discussion::new` -/
def new (objective : Str) (participants : List MemberId) (mode : DiscussionMode) (serial : ℕ) :
    Except DiscussionError Discussion :=
  if participants.isEmpty || !decide participants.Nodup then .error .invalidParticipants
  else
    .ok
      { id := ⟨serial, 0⟩
        request := { text := objective }
        participants
        mode
        state := .idle
        pauses := ∅
        stages := []
        budget := .ofDiscussion }

/-- All arrangements of the discussion, in order. -/
def arrangements (d : Discussion) : List Arrangement := d.stages.flatMap Stage.arrangements

def hasActiveWork (d : Discussion) : Bool := d.arrangements.any fun a => a.state.isActive

def settlePause (d : Discussion) : Discussion :=
  { d with state := if d.hasActiveWork then .pausing else .paused }

/-- `pause`: hold the discussion on a reason, unless it completed. -/
def pause (d : Discussion) (reason : PauseReason) : Bool × Discussion :=
  if d.state = .completed then (false, d)
  else (reason ∉ d.pauses, { d with pauses := insert reason d.pauses }.settlePause)

def paused (d : Discussion) (reason : PauseReason) : Discussion := (d.pause reason).2

/-- Whether work may be sent for this discussion. -/
def isDispatchable (d : Discussion) : Bool := d.pauses = ∅ && d.state.isGoing

def mapArrangements (f : Arrangement → ArrangementState) (d : Discussion) : Discussion :=
  { d with stages := d.stages.map (Stage.mapArrangements f) }

/-- `mark_operation`: set every arrangement made for an operation. -/
def markOperation (d : Discussion) (operation : OperationId) (state : ArrangementState) :
    Discussion :=
  d.mapArrangements fun a => if a.operation = operation then state else a.state

/-- Resolving one condition leaves the explicit continuation gate closed. -/
def resolvePause (d : Discussion) (reason : PauseReason) : Bool × Discussion :=
  (reason ∈ d.pauses, { d with pauses := d.pauses.erase reason })

def resolved (d : Discussion) (reason : PauseReason) : Discussion := (d.resolvePause reason).2

/-- `pauses.retain` -/
def retainPauses (keep : PauseReason → Bool) (d : Discussion) : Discussion :=
  { d with pauses := d.pauses.filter fun reason => keep reason }

def changeMode (d : Discussion) (mode : DiscussionMode) : Except DiscussionError Discussion :=
  if d.state = .completed then .error .completed
  else
    let d := d.paused .modeChange
    if d.hasActiveWork then .error .stillRunning else .ok { d with mode }

theorem new_ok {objective : Str} {participants : List MemberId} {mode : DiscussionMode} {serial : ℕ}
    {d : Discussion} (h : new objective participants mode serial = .ok d) :
    participants.Nodup ∧ d = { id := ⟨serial, 0⟩, request := { text := objective }, participants, mode
                               state := .idle, pauses := ∅, stages := [], budget := .ofDiscussion } := by
  rw [new] at h
  split at h
  · cases h
  · next hp =>
    simp only [Bool.or_eq_true, Bool.not_eq_true', decide_eq_false_iff_not, not_or, not_not] at hp
    exact ⟨hp.2, (Except.ok.inj h).symm⟩

/-- Only a discussion without active work changes its mode. -/
theorem changeMode_ok {d changed : Discussion} {mode : DiscussionMode}
    (h : d.changeMode mode = .ok changed) :
    d.state ≠ .completed ∧ d.hasActiveWork = false ∧ changed = { d.paused .modeChange with mode } := by
  rw [changeMode] at h
  split at h
  · cases h
  next hc =>
  dsimp only at h
  split at h
  · cases h
  next ha =>
  refine ⟨hc, ?_, (Except.ok.inj h).symm⟩
  rw [paused, pause, if_neg hc] at ha
  exact Bool.eq_false_of_not_eq_true ha

/-! ### What operations leave alone -/

section

variable (d : Discussion) (reason : PauseReason) (keep : PauseReason → Bool)
  (f : Arrangement → ArrangementState)

@[simp] theorem retainPauses_stages : (d.retainPauses keep).stages = d.stages := rfl
@[simp] theorem mapArrangements_id : (d.mapArrangements f).id = d.id := rfl

variable {d}

theorem paused_of_completed (h : d.state = .completed) : d.paused reason = d := by
  rw [paused, pause, if_pos h]

theorem paused_of_not_completed (h : d.state ≠ .completed) :
    d.paused reason = { d with pauses := insert reason d.pauses }.settlePause := by
  rw [paused, pause, if_neg h]

variable (d)

@[simp] theorem paused_id : (d.paused reason).id = d.id := by
  rw [paused, pause]; split <;> rfl
@[simp] theorem paused_participants : (d.paused reason).participants = d.participants := by
  rw [paused, pause]; split <;> rfl
@[simp] theorem paused_mode : (d.paused reason).mode = d.mode := by
  rw [paused, pause]; split <;> rfl
@[simp] theorem paused_stages : (d.paused reason).stages = d.stages := by
  rw [paused, pause]; split <;> rfl
@[simp] theorem paused_budget : (d.paused reason).budget = d.budget := by
  rw [paused, pause]; split <;> rfl

theorem settlePause_state : d.settlePause.state = .pausing ∨ d.settlePause.state = .paused := by
  rw [settlePause]
  split
  · exact .inl rfl
  · exact .inr rfl

theorem settlePause_ne_completed : d.settlePause.state ≠ .completed := by
  rcases d.settlePause_state with h | h <;> simp [h]

theorem settlePause_not_going : d.settlePause.state.isGoing = false := by
  rcases d.settlePause_state with h | h <;> simp [h, DiscussionState.isGoing]

end

end Discussion

end NiumaTerm.Team
