import NiumaTerm.Team.Discussion

/-!
# Rooms

The operations of `Room`.  Ids are distinct, so `modifyDiscussion` and `modifyAttempt` change the one entry
that the source names.  `TeamText` holds what the texts of Team work are made with outside this repository.
-/

namespace NiumaTerm.Team

open Rust

/-- The JSON encoders and the lower case. -/
class TeamText where
  /-- `str::to_lowercase` -/
  toLowercase : Str → Str
  /-- `json!({"name": ..., "role": ...})` -/
  roleJson : Str → Str → Str
  /-- The scheduling context of a moderator: operation, stage, eligible members with their names, and
  remaining turns. -/
  schedulingJson : OperationId → Option StageId → List (MemberId × Str) → ℕ → Str
  /-- `serde_json::to_string` of a `PublicInput` -/
  publicInputJson : List PublicMessage → List Summary → Option Str
  /-- `serde_json::to_string` of a `UserInput` -/
  userInputJson : UserInput → Option Str

namespace Room

variable (r : Room)

def member (id : MemberId) : Option Member := r.members.find? (·.id = id)

def discussion (id : DiscussionId) : Option Discussion := r.discussions.find? (·.id = id)

def attempt (id : AttemptId) : Option Attempt := r.attempts.find? (·.id = id)

/-- `budget_attempts`: the attempts charged to a budget. -/
def budgetAttempts (scope : BudgetScope) : List Attempt :=
  r.attempts.filter fun t => t.intent.budget = scope && t.state != .rejected

/-- `discussion_mut` -/
def modifyDiscussion (id : DiscussionId) (f : Discussion → Discussion) : Room :=
  { r with discussions := r.discussions.map fun d => if d.id = id then f d else d }

/-- `for discussion in &mut room.discussions` -/
def mapDiscussions (f : Discussion → Discussion) : Room :=
  { r with discussions := r.discussions.map f }

def modifyAttempt (id : AttemptId) (f : Attempt → Attempt) : Room :=
  { r with attempts := r.attempts.map fun t => if t.id = id then f t else t }

def mapAttempts (f : Attempt → AttemptState) : Room :=
  { r with attempts := r.attempts.map fun t => { t with state := f t } }

def modifyMember (id : MemberId) (f : Member → Member) : Room :=
  { r with members := r.members.map fun m => if m.id = id then f m else m }

/-- `room.messages.push` -/
def pushMessage (message : PublicMessage) : Room := { r with messages := r.messages ++ [message] }

/-- `excluded_members`, as the test of membership. -/
def isExcluded (id : MemberId) : Bool := r.members.any fun m => m.id = id && m.excluded

def createDiscussion (objective : Str) (participants : List MemberId) (mode : DiscussionMode)
    (serial : ℕ) : Except DiscussionError (Discussion × Room) :=
  if r.discussions.any fun d => d.state != .completed then .error .alreadyActive
  else if (participants.any fun id => (r.member id).isNone) || (r.member mode.reportAuthor).isNone then
    .error .invalidParticipants
  else
    match Discussion.new objective participants mode serial with
    | .error e => .error e
    | .ok d => .ok (d, { r with discussions := r.discussions ++ [d] })

def availableName [TeamText] (name : Str) : Except MemberError Str :=
  let name := trim name
  if name.isEmpty || name.any isControl then .error .invalidName
  else if r.members.any fun m => TeamText.toLowercase m.name = TeamText.toLowercase name then
    .error .duplicateName
  else .ok name

def addMember [TeamText] (config : MemberConfig) (serial : ℕ) :
    Except MemberError (MemberId × Room) :=
  match r.availableName config.name with
  | .error e => .error e
  | .ok name =>
    let m : Member :=
      { id := ⟨serial, 0⟩, name, spec := config.spec, excluded := false, providerId := none
        moderatorRegistered := false }
    .ok (m.id, { r with members := r.members ++ [m] })

def setMemberSettings (id : MemberId) (settings : ThreadSettings) : Except MemberError Room :=
  if (r.member id).isNone then .error .missingMember
  else .ok (r.modifyMember id fun m => { m with spec := { m.spec with settings } })

def excludeMember (id : MemberId) : Except MemberError Room :=
  if (r.member id).isNone then .error .missingMember
  else .ok (r.modifyMember id fun m => { m with excluded := true })

/-- What a member has already been given: the context of each of its turns the provider accepted,
apart from summary turns, and its own replies. -/
def coverage (id : MemberId) : AcceptedCoverage :=
  let accepted := r.attempts.filter fun t =>
    t.intent.recipient = id && t.providerTurn.isSome && t.intent.purpose != .summary
  let own := r.messages.filter fun message =>
    match message.author with
    | .member author _ => author = id
    | .user => false
  { messages := (accepted.foldl (fun seen t => seen ∪ t.intent.coverage.messages) ∅) ∪
      (own.map PublicMessage.id).toFinset
    summaries := accepted.foldl (fun seen t => seen ∪ t.intent.coverage.summaries) ∅ }

def publicSnapshot : PublicSnapshot where
  messages := r.messages.map PublicMessage.id
  summaries := r.summaries.map Summary.id

/-- `remaining_non_report_turns` of a discussion of the room. -/
def remainingNonReportTurns (d : Discussion) : ℕ :=
  d.budget.remainingNonReportTurns (r.budgetAttempts (.discussion d.id))

variable {r}

/-- A discussion starts without stages, and when all others are completed. -/
theorem createDiscussion_ok {objective : Str} {participants : List MemberId} {mode : DiscussionMode}
    {serial : ℕ} {d : Discussion} {next : Room}
    (h : r.createDiscussion objective participants mode serial = .ok (d, next)) :
    (∀ e ∈ r.discussions, e.state = .completed) ∧ participants.Nodup ∧
      next = { r with discussions := r.discussions ++ [d] } ∧
      d = { id := ⟨serial, 0⟩, request := { text := objective }, participants, mode
            state := .idle, pauses := ∅, stages := [], budget := .ofDiscussion } := by
  rw [createDiscussion] at h
  split at h
  · cases h
  next hactive =>
  split at h
  · cases h
  split at h
  · cases h
  next hnew =>
  obtain ⟨rfl, rfl⟩ := Prod.mk.inj (Except.ok.inj h)
  obtain ⟨hn, hd⟩ := Discussion.new_ok hnew
  refine ⟨fun e he => ?_, hn, rfl, hd⟩
  simp only [List.any_eq_true, bne_iff_ne, not_exists, not_and, not_not] at hactive
  exact hactive e he

theorem excludeMember_ok {id : MemberId} {next : Room} (h : r.excludeMember id = .ok next) :
    next = r.modifyMember id fun m => { m with excluded := true } := by
  rw [excludeMember] at h
  split at h
  · cases h
  · exact (Except.ok.inj h).symm

end Room

end NiumaTerm.Team
