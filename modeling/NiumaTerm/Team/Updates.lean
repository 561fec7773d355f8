import NiumaTerm.Team.Outcomes

/-!
# What operations do to a room

The room that each operation of a session commits, apart from the outcomes of attempts in
`Team/Outcomes.lean`.  The operations themselves, with what they check first, are in
`Team/Session.lean`.
-/

namespace NiumaTerm.Team

open Rust Checks

namespace Discussion

def pushStage (s : Stage) (d : Discussion) : Discussion := { d with stages := d.stages ++ [s] }

/-- `stages.last_mut()` -/
def modifyLastStage (f : Stage → Stage) (d : Discussion) : Discussion :=
  match d.stages.getLast? with
  | none => d
  | some s => { d with stages := d.stages.dropLast ++ [f s] }

@[simp] theorem modifyLastStage_id (f : Stage → Stage) (d : Discussion) :
    (d.modifyLastStage f).id = d.id := by rw [modifyLastStage]; split <;> rfl

@[simp] theorem modifyLastStage_participants (f : Stage → Stage) (d : Discussion) :
    (d.modifyLastStage f).participants = d.participants := by rw [modifyLastStage]; split <;> rfl

@[simp] theorem modifyLastStage_mode (f : Stage → Stage) (d : Discussion) :
    (d.modifyLastStage f).mode = d.mode := by rw [modifyLastStage]; split <;> rfl

@[simp] theorem modifyLastStage_pauses (f : Stage → Stage) (d : Discussion) :
    (d.modifyLastStage f).pauses = d.pauses := by rw [modifyLastStage]; split <;> rfl

@[simp] theorem modifyLastStage_budget (f : Stage → Stage) (d : Discussion) :
    (d.modifyLastStage f).budget = d.budget := by rw [modifyLastStage]; split <;> rfl

/-- Whether the moderator's last decision stage ended without a valid decision. -/
def isUndecided (d : Discussion) : Bool :=
  match d.mode with
  | .fixed _ => false
  | .moderated _ => d.stages.getLast?.any fun s =>
    s.kind = .moderatorDecision && s.decision.isNone && s.isSettled

/-- `continue_discussion`: work goes on with the public content of now.  An undecided moderator is
asked again. -/
def continued (snapshot : PublicSnapshot) (serial : ℕ) (d : Discussion) : Discussion :=
  let d := d.retainPauses fun reason => !reason.clearedByContinue
  let d :=
    if d.isUndecided then
      d.pushStage (.pending .moderatorDecision [d.mode.reportAuthor] snapshot serial)
    else d.modifyLastStage fun s => { s with segments := s.segments ++ [snapshot] }
  { d with state := .running }

@[simp] theorem continued_id (snapshot : PublicSnapshot) (serial : ℕ) (d : Discussion) :
    (d.continued snapshot serial).id = d.id := by
  rw [continued]
  split
  · rfl
  · exact modifyLastStage_id ..

@[simp] theorem continued_mode (snapshot : PublicSnapshot) (serial : ℕ) (d : Discussion) :
    (d.continued snapshot serial).mode = d.mode := by
  rw [continued]
  split
  · rfl
  · exact modifyLastStage_mode ..

@[simp] theorem continued_pauses (snapshot : PublicSnapshot) (serial : ℕ) (d : Discussion) :
    (d.continued snapshot serial).pauses = d.pauses.filter fun reason => !reason.clearedByContinue := by
  rw [continued]
  split
  · rfl
  · exact modifyLastStage_pauses ..

@[simp] theorem continued_budget (snapshot : PublicSnapshot) (serial : ℕ) (d : Discussion) :
    (d.continued snapshot serial).budget = d.budget := by
  rw [continued]
  split
  · rfl
  · exact modifyLastStage_budget ..

/-- Change the arrangements in stages of some kinds. -/
def mapStagesOf (p : StageKind → Bool) (f : Arrangement → ArrangementState) (d : Discussion) :
    Discussion :=
  { d with stages := d.stages.map fun s => if p s.kind then s.mapArrangements f else s }

def cancelPending (a : Arrangement) : ArrangementState :=
  if a.state = .pending then .cancelled else a.state

/-- `change_mode`, after `Discussion::change_mode`: the stages of the old moderator or report author
are cancelled, and no excluded member is waited for. -/
def modeChanged (isExcluded : MemberId → Bool) (d : Discussion) : Discussion :=
  (d.retainPauses fun reason =>
    match reason with
    | .memberUnavailable m => !isExcluded m
    | _ => true).mapStagesOf (fun kind => kind = .moderatorDecision || kind = .report) cancelPending

/-- Cancel an arrangement that waits or failed. -/
def cancelOpen (a : Arrangement) : ArrangementState :=
  match a.state with
  | .pending | .failed _ => .cancelled
  | state => state

/-- `finish_with_report` -/
def finishing (snapshot : PublicSnapshot) (serial : ℕ) (d : Discussion) : Discussion :=
  let d := (d.mapArrangements cancelOpen).retainPauses fun reason => !reason.clearedByFinish
  let d := d.pushStage (.pending .report [d.mode.reportAuthor] snapshot serial)
  { d with state := if d.pauses = ∅ then .finishing else .paused }

def cancelRecipient (m : MemberId) (a : Arrangement) : ArrangementState :=
  if a.recipient = m ∧ a.state = .pending then .cancelled else a.state

/-- `exclude_member`: only a mode that needs the member cannot go on without it. -/
def excluding (m : MemberId) (d : Discussion) : Discussion :=
  if d.state = .completed then d
  else
    let d := d.mapArrangements (cancelRecipient m)
    if d.mode.reportAuthor = m then d.paused (.memberUnavailable m) else d

/-- A discussion that is opened again. -/
def reopened (d : Discussion) : Discussion :=
  ((d.retainPauses fun reason => !reason.isInteraction).paused .reopened).mapArrangements fun a =>
    match a.state with
    | .active id => .uncertain id
    | state => state

end Discussion

namespace Room

variable (r : Room)

/-- `open`: no event can settle what was sent before. -/
def reopened : Room :=
  (r.mapDiscussions Discussion.reopened).mapAttempts fun t =>
    if t.state.isRunning then .uncertain else t.state

def withUserInput (message : PublicMessage) : Room :=
  (r.pushMessage message).mapDiscussions fun d => d.paused (.userInput message.id)

/-- `start_discussion`, once the discussion is created. -/
def started (d : Discussion) (input : UserInput) (serial : ℕ) : Room :=
  (r.pushMessage (publicRequest input serial)).modifyDiscussion d.id fun d =>
    { d with state := .running, request := input }

def cancelReservations (id : DiscussionId) : Room :=
  r.mapAttempts fun t =>
    if t.intent.budget = .discussion id ∧ t.state = .reserved then .rejected else t.state

def excluding (m : MemberId) : Room := r.mapDiscussions (Discussion.excluding m)

/-- Record the decision of a moderator at the last stage. -/
def decided (id : DiscussionId) (decision : ModeratorDecision) : Room :=
  r.modifyDiscussion id (Discussion.modifyLastStage fun s => { s with decision := some decision })

/-- `record_provider_identity` -/
def identified (id : MemberId) (providerId : Str) (registered : Bool) : Room :=
  r.modifyMember id fun m => { m with providerId := some providerId, moderatorRegistered := registered }

end Room

end NiumaTerm.Team
