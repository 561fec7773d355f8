import NiumaTerm.Team.Session

/-!
# Runs of a room

`teams` is the system of all runs of a room: a process creates it, asks for operations in any order, and
may stop at any time, after which the next one opens the file.  Stopping between two writes leaves the file
as a failed second write does, so the ends of `writes` with a `reopen` are the places to stop.
-/

namespace NiumaTerm.Team

open Rust Transition

/-- What a host can ask of a session. -/
inductive Operation
  /-- Open the room again, after the process that owned it has ended. -/
  | reopen (id : RoomId)
  | memberReady (id : MemberId) (backendGeneration : ℕ) (capabilities : ModeratorAdmission)
  | memberUnavailable (id : MemberId)
  | addMember (config : MemberConfig)
  | setMemberSettings (id : MemberId) (settings : ThreadSettings)
  | recordProviderIdentity (id : MemberId) (providerId : Str) (registered : Bool)
  | excludeMember (id : MemberId)
  | prepareDispatch (id : AttemptId)
  | finishDispatch (id : AttemptId) (outcome : SendOutcome)
  | acceptAttempt (key : AttemptEventKey) (providerTurn : Str)
  | completeReply (key : AttemptEventKey) (providerTurn text : Str)
  | failAttempt (key : AttemptEventKey) (uncertain : Bool)
  | abandonRestoredAttempt (id : AttemptId)
  | pauseDiscussion (id : DiscussionId) (reason : PauseReason)
  | resolvePause (id : DiscussionId) (reason : PauseReason)
  | close
  | startDiscussion (input : UserInput) (participants : List MemberId) (mode : DiscussionMode)
  | recordUserInput (input : UserInput)
  | directRequest (input : UserInput) (recipients : List MemberId) (limits : ContextLimits)
  | advanceDiscussion (id : DiscussionId) (limits : ContextLimits)
  | continueDiscussion (id : DiscussionId)
  | addTurns (id : DiscussionId) (turns : ℕ)
  | changeMode (id : DiscussionId) (mode : DiscussionMode)
  | finishWithReport (id : DiscussionId)
  | moderatorDecision (key : AttemptEventKey) (stage : StageId) (operation : OperationId)
    (action : ModeratorAction)

/-- Whether the operation opens the room. -/
def Operation.opens : Operation → Bool
  | reopen _ => true
  | _ => false

/-- Whether the operation also changes which members are ready or which attempts are unresolved. -/
def Operation.changesSession : Operation → Bool
  | reopen _ | memberReady _ _ _ | memberUnavailable _ | excludeMember _ | completeReply _ _ _
  | failAttempt _ _ | abandonRestoredAttempt _ => true
  | _ => false

def Operation.reserves : Operation → Bool
  | directRequest _ _ _ | advanceDiscussion _ _ => true
  | _ => false

namespace TeamSession

variable {J : Serde Room} [TeamText]

/-- The outcome of an operation without its result. -/
def Outcome.done {α : Type} (x : Outcome J α) : Outcome J (Option DispatchIntent) :=
  (x.1.map fun _ => none, x.2)

/-- What an operation does, and the intent that it hands to a transport. -/
def act (s : TeamSession J) : Operation → Outcome J (Option DispatchIntent)
  | .reopen id => (s.reopen id).done
  | .memberReady id generation capabilities => (s.memberReady id generation capabilities).done
  | .memberUnavailable id => (s.memberUnavailable id).done
  | .addMember config => (s.addMember config).done
  | .setMemberSettings id settings => (s.setMemberSettings id settings).done
  | .recordProviderIdentity id providerId registered =>
    (s.recordProviderIdentity id providerId registered).done
  | .excludeMember id => (s.excludeMember id).done
  | .prepareDispatch id =>
    match s.prepareDispatch id with
    | (result, s) => (result.map some, s)
  | .finishDispatch id outcome => (s.finishDispatch id outcome).done
  | .acceptAttempt key turn => (s.acceptAttempt key turn).done
  | .completeReply key turn text => (s.completeReply key turn text).done
  | .failAttempt key uncertain => (s.failAttempt key uncertain).done
  | .abandonRestoredAttempt id => (s.abandonRestoredAttempt id).done
  | .pauseDiscussion id reason => (s.pauseDiscussion id reason).done
  | .resolvePause id reason => (s.resolvePause id reason).done
  | .close => s.close.done
  | .startDiscussion input participants mode => (s.startDiscussion input participants mode).done
  | .recordUserInput input => (s.recordUserInput input).done
  | .directRequest input recipients limits => (s.directRequest input recipients limits).done
  | .advanceDiscussion id limits => (s.advanceDiscussion id limits).done
  | .continueDiscussion id => (s.continueDiscussion id).done
  | .addTurns id turns => (s.addTurns id turns).done
  | .changeMode id mode => (s.changeMode id mode).done
  | .finishWithReport id => (s.finishWithReport id).done
  | .moderatorDecision key stage operation action =>
    (s.moderatorDecision key stage operation action).done

/-- Perform an operation.  The next one makes other UUIDs. -/
def run (s : TeamSession J) (operation : Operation) : Outcome J (Option DispatchIntent) :=
  let (result, next) := s.act operation
  (result, { next with serial := s.serial + 1 })

end TeamSession

/-- A room before any work. -/
structure Room.Blank (r : Room) : Prop where
  discussions : r.discussions = []
  messages : r.messages = []
  summaries : r.summaries = []
  attempts : r.attempts = []

/-- A room and the process that owns it.  When opening the room failed no process owns it: only the
file of `session` is left. -/
structure TeamProcess (J : Serde Room) where
  session : TeamSession J
  isOpen : Bool

/-- One operation, how its writes end, and what it returns. -/
structure Call where
  operation : Operation
  writes : List WriteOutcome
  result : Except TeamError (Option DispatchIntent)

section

variable {J : Serde Room} [TeamText]

/-- Perform a call.  Opening the room decides whether a process owns it. -/
def TeamProcess.call (p : TeamProcess J) (operation : Operation) (writes : List WriteOutcome) :
    Except TeamError (Option DispatchIntent) × TeamProcess J :=
  let (result, session) := { p.session with writes }.run operation
  (result, { session, isOpen := if operation.opens then result.isOk else p.isOpen })

/-- All runs of a room. -/
def teams (J : Serde Room) : System (TeamProcess J) Call where
  init p := p.isOpen = true ∧ ∃ room outcome, room.Blank ∧
    TeamSession.create J room outcome = .ok p.session
  step p c p' := (p.isOpen = true ∨ c.operation.opens = true) ∧
    p.call c.operation c.writes = (c.result, p')

end

end NiumaTerm.Team
