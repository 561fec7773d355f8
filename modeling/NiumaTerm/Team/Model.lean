import Mathlib.Data.Finset.Basic
import NiumaTerm.AgentSpec

/-!
# Team identities and records

What a room keeps: members, public messages, summaries, discussions with their stages, and the
attempts to have a member take a turn.  The operations on them are in `Team/Discussion.lean` and
`Team/Room.lean`.
-/

namespace NiumaTerm.Team

open Rust

/-! ## Identities -/

/-- A random UUID, which no two calls of `Uuid::new_v4` share: the operation of the room that made it,
and its place among the ones that operation made. -/
structure Uuid where
  serial : ℕ
  index : ℕ
  deriving DecidableEq

structure RoomId where
  uuid : Uuid
  deriving DecidableEq

structure MemberId where
  uuid : Uuid
  deriving DecidableEq

structure DiscussionId where
  uuid : Uuid
  deriving DecidableEq

structure StageId where
  uuid : Uuid
  deriving DecidableEq

structure OperationId where
  uuid : Uuid
  deriving DecidableEq

structure SummaryId where
  uuid : Uuid
  deriving DecidableEq

structure AttemptId where
  uuid : Uuid
  deriving DecidableEq

structure MessageId where
  uuid : Uuid
  deriving DecidableEq

/-! ## Public content -/

inductive Author
  | user
  | member (id : MemberId) (name : Str)
  deriving DecidableEq

inductive Publication
  | userInput
  | rootReply
  | moderatorDecision
  | report
  deriving DecidableEq

structure PublicMessage where
  id : MessageId
  author : Author
  publication : Publication
  text : Str
  repliesTo : List MessageId
  deriving DecidableEq

structure UserInput where
  text : Str := []
  references : List MessageId := []
  deriving DecidableEq

structure AttributedPosition where
  member : MemberId
  position : Str
  reasons : Str
  sources : List MessageId
  deriving DecidableEq

structure SourceFragment where
  source : MessageId
  start : ℕ
  stop : ℕ
  deriving DecidableEq

structure Summary where
  id : SummaryId
  version : ℕ
  owner : MemberId
  sources : List MessageId
  fragments : List SourceFragment
  priorSummaries : List SummaryId
  goals : Str
  constraints : Str
  agreements : Str
  disagreements : List AttributedPosition
  deriving DecidableEq

structure SummaryChunk where
  sources : List MessageId
  fragments : List SourceFragment
  deriving DecidableEq

structure ContextLimits where
  maxBytes : ℕ
  recentMessages : ℕ

inductive ContextError
  | missingSource
  | selectRange
  | summaryUnavailable
  | oversizedInput
  | encoding
  deriving DecidableEq

/-! ## Members -/

structure AcceptedCoverage where
  messages : Finset MessageId := ∅
  summaries : Finset SummaryId := ∅
  deriving DecidableEq

structure PreparedContext where
  text : Str
  coverage : AcceptedCoverage

structure Member where
  id : MemberId
  name : Str
  spec : AgentSpec
  excluded : Bool
  providerId : Option Str
  moderatorRegistered : Bool
  deriving DecidableEq

structure MemberConfig where
  name : Str
  spec : AgentSpec

inductive MemberError
  | invalidName
  | duplicateName
  | missingMember
  deriving DecidableEq

/-! ## Discussions -/

inductive DiscussionMode
  | fixed (reportAuthor : MemberId)
  | moderated (moderator : MemberId)
  deriving DecidableEq

/-- The member that a mode needs: the author of its report, and in a moderated discussion also its
moderator. -/
def DiscussionMode.reportAuthor : DiscussionMode → MemberId
  | fixed reportAuthor => reportAuthor
  | moderated moderator => moderator

inductive DiscussionState
  | idle
  | running
  | pausing
  | paused
  | finishing
  | completed
  deriving DecidableEq

/-- Whether work may be sent in this state. -/
def DiscussionState.isGoing : DiscussionState → Bool
  | running | finishing => true
  | _ => false

inductive TurnPurpose
  | response
  | moderation
  | summary
  | report
  deriving DecidableEq

inductive PauseReason
  | user
  | userInput (message : MessageId)
  | modeChange
  | memberUnavailable (member : MemberId)
  /-- The member is waiting on the user. -/
  | interaction (member : MemberId)
  | attemptFailed (attempt : AttemptId)
  | uncertainAttempt (attempt : AttemptId)
  | summaryFailed (attempt : AttemptId)
  | invalidModeration (operation : OperationId)
  | budget
  | contextSelection
  | dispatchUnavailable
  | storage
  | maintenance (member : Str)
  | reopened
  | closed
  deriving DecidableEq

namespace PauseReason

/-- Whether the user's explicit Continue clears this pause. -/
def clearedByContinue : PauseReason → Bool
  | user | userInput _ | modeChange | reopened | closed | invalidModeration _ | summaryFailed _
  | contextSelection | dispatchUnavailable | storage => true
  | _ => false

/-- Whether finishing with a report clears this pause. -/
def clearedByFinish : PauseReason → Bool
  | budget | attemptFailed _ => true
  | reason => reason.clearedByContinue

/-- `PauseReason::attempt_failed` -/
def ofFailure (attempt : AttemptId) (purpose : TurnPurpose) : PauseReason :=
  if purpose = .summary then summaryFailed attempt else attemptFailed attempt

/-- Whether the pause waits for a member to return. -/
def isInteraction : PauseReason → Bool
  | interaction _ => true
  | _ => false

end PauseReason

inductive StageKind
  | initialAnswers
  | peerResponses
  | moderatorDecision
  | invitedResponses
  | report
  | summary
  deriving DecidableEq

inductive ArrangementState
  | pending
  | active (attempt : AttemptId)
  | completed (attempt : AttemptId)
  | failed (attempt : AttemptId)
  | uncertain (attempt : AttemptId)
  | skipped
  | cancelled
  deriving DecidableEq

namespace ArrangementState

/-- An outcome that needs no more work. -/
def isSettled : ArrangementState → Bool
  | completed _ | skipped | cancelled => true
  | _ => false

/-- Work that was sent and has no outcome. -/
def isActive : ArrangementState → Bool
  | active _ | uncertain _ => true
  | _ => false

end ArrangementState

structure Arrangement where
  operation : OperationId
  recipient : MemberId
  state : ArrangementState
  deriving DecidableEq

structure PublicSnapshot where
  messages : List MessageId := []
  summaries : List SummaryId := []
  deriving DecidableEq

inductive ModeratorAction
  | invite (recipients : List MemberId)
  | report
  deriving DecidableEq

structure ModeratorDecision where
  operation : OperationId
  attempt : AttemptId
  actor : MemberId
  action : ModeratorAction
  deriving DecidableEq

structure Stage where
  id : StageId
  kind : StageKind
  arrangements : List Arrangement
  segments : List PublicSnapshot
  decision : Option ModeratorDecision
  deriving DecidableEq

structure Budget where
  limit : ℕ
  reportReserved : Bool
  deriving DecidableEq

structure Discussion where
  id : DiscussionId
  participants : List MemberId
  mode : DiscussionMode
  state : DiscussionState
  pauses : Finset PauseReason
  stages : List Stage
  budget : Budget
  request : UserInput
  deriving DecidableEq

inductive DiscussionError
  | invalidParticipants
  | alreadyActive
  | stillRunning
  | completed
  deriving DecidableEq

/-! ## Attempts -/

inductive BudgetScope
  | discussion (id : DiscussionId)
  | direct (operation : OperationId)
  deriving DecidableEq

inductive Invocation
  | memberConversation
  | publicSummary (sources : SummaryChunk)
  deriving DecidableEq

structure DispatchIntent where
  invocation : Invocation
  recipient : MemberId
  backendGeneration : ℕ
  operation : OperationId
  stage : Option StageId
  budget : BudgetScope
  purpose : TurnPurpose
  input : UserInput
  preparedText : Str
  snapshot : PublicSnapshot
  coverage : AcceptedCoverage
  deriving DecidableEq

inductive AttemptState
  | reserved
  | sending
  | accepted
  | rejected
  | completed (message : MessageId)
  | summarized (summary : SummaryId)
  | failed
  | uncertain
  | abandoned
  deriving DecidableEq

namespace AttemptState

/-- `in_flight`: sent, and without an outcome. -/
def inFlight : AttemptState → Bool
  | sending | accepted | uncertain => true
  | _ => false

/-- Sent under the generation that still reports about it. -/
def isRunning : AttemptState → Bool
  | sending | accepted => true
  | _ => false

theorem inFlight_of_isRunning {a : AttemptState} (h : a.isRunning = true) : a.inFlight = true := by
  rcases a with _ | _ | _ | _ | _ | _ | _ | _ | _ <;> simp_all [isRunning, inFlight]

end AttemptState

structure Attempt where
  id : AttemptId
  intent : DispatchIntent
  state : AttemptState
  providerTurn : Option Str
  deriving DecidableEq

/-! ## Rooms -/

structure RoomControls where
  automaticSummaries : Bool := true
  deriving DecidableEq

structure Room where
  id : RoomId
  workspace : AgentWorkspace
  members : List Member
  discussions : List Discussion
  messages : List PublicMessage
  summaries : List Summary
  controls : RoomControls
  attempts : List Attempt
  deriving DecidableEq

end NiumaTerm.Team
