import NiumaTerm.Team.Updates

/-!
# Team sessions

`TeamSession` owns a room: the store with its file, which members are ready, and the attempts that no
provider event can settle any more.  An operation that stops with an error keeps what it saved before.
`serial` makes the UUIDs of the running operation, and `writes` says how its next writes end.
-/

namespace NiumaTerm.Team

open Rust Checks

inductive ModeratorAdmission
  | unavailable
  | codexDynamicTools (backendGeneration : ℕ)

/-- Registered operations only admit the backend session that registered them. -/
def ModeratorAdmission.admits (backendGeneration : ℕ) : ModeratorAdmission → Bool
  | unavailable => false
  | codexDynamicTools registered => registered = backendGeneration

structure MemberReadiness where
  backendGeneration : ℕ
  capabilities : ModeratorAdmission

def roomFormat : SnapshotFormat where
  file := "room.json".toList
  field := "room".toList
  version := 3

structure TeamSession (J : Serde Room) where
  storage : Storage J
  readiness : MemberId → Option MemberReadiness
  /-- Uncertain attempts no provider event can settle anymore. -/
  unresolved : Finset AttemptId
  serial : ℕ
  writes : List WriteOutcome

namespace TeamSession

variable {J : Serde Room} {α β : Type} [TeamText] (s : TeamSession J)

/-- `self.store.room()` -/
def room : Room := s.storage.store.value

/-- A result and the session after it. -/
abbrev Outcome (J : Serde Room) (α : Type) := Except TeamError α × TeamSession J

/-- `?`, followed by the rest of an operation. -/
def andThen (x : Outcome J α) (f : α → TeamSession J → Outcome J β) : Outcome J β :=
  match x with
  | (.error e, s) => (.error e, s)
  | (.ok a, s) => f a s

/-- The check of `RoomStore::commit`. -/
def checkUpdate (previous next : Room) : Except StorageError Unit := do
  next.validate
  previous.validateUpdate next

/-- `RoomStore::commit` -/
def commit (next : Room) : Except StorageError Unit × TeamSession J :=
  let (result, storage) := s.storage.commit roomFormat
    { next, check := checkUpdate, write := s.writes.headD .done }
  (result, { s with storage, writes := s.writes.tail })

/-- Save a room, and go on with a result. -/
def save (wrap : StorageError → TeamError) (next : Room) (a : α) : Outcome J α :=
  match s.commit next with
  | (.error e, s) => (.error (wrap e), s)
  | (.ok (), s) => (.ok a, s)

/-- Save what a plan computed from the session. -/
def perform (plan : Except TeamError (α × Room)) : Outcome J α :=
  match plan with
  | .error e => (.error e, s)
  | .ok (a, next) => s.save .storage next a

/-- An error of the store inside `dispatch`. -/
def dispatchStorage (e : StorageError) : TeamError := .dispatch (.storage e)

def findDiscussion (id : DiscussionId) : Except TeamError Discussion :=
  okOr (s.room.discussion id) .unavailable

/-! ## Checks -/

def hasLiveAttempts : Bool :=
  s.room.attempts.any fun t => t.state.inFlight && t.id ∉ s.unresolved

def validateMember (id : MemberId) : Except TeamError Unit := do
  failIf (s.unresolved ≠ ∅) .unavailable
  let m ← okOr (s.room.member id) .unavailable
  failIf (s.readiness id).isNone .unavailable
  failIf m.excluded .unavailable

def validateRecipient (intent : DispatchIntent) : Except TeamError Unit := do
  let readiness ← okOr (s.readiness intent.recipient) .unavailable
  failIf (readiness.backendGeneration ≠ intent.backendGeneration) .unavailable
  s.validateMember intent.recipient

def validateMode (mode : DiscussionMode) : Except TeamError Unit := do
  let m ← okOr (s.room.member mode.reportAuthor) .unavailable
  failIf m.excluded .unavailable
  match mode with
  | .fixed _ => return
  | .moderated moderator =>
    let readiness ← okOr (s.readiness moderator) .unavailable
    failIf (!readiness.capabilities.admits readiness.backendGeneration) .unavailable

def validateInput (input : UserInput) : Except TeamError Unit :=
  failIf (input.references.any fun id => !s.room.hasMessage id) .unavailable

def prepareIntent (plan : DispatchPlan) (input : UserInput) (snapshot : PublicSnapshot)
    (limits : ContextLimits) : Except TeamError DispatchIntent := do
  let readiness ← okOr (s.readiness plan.recipient) .unavailable
  let intent ← buildIntent s.room plan readiness.backendGeneration input snapshot limits
  s.validateRecipient intent
  return intent

/-! ## Members -/

/-- The attempts sent to a member under an earlier backend generation. -/
def orphaned (r : Room) (id : MemberId) (backendGeneration : ℕ) : List Attempt :=
  r.attempts.filter fun t => t.intent.recipient = id &&
    t.intent.backendGeneration != backendGeneration && t.state.inFlight && t.id ∉ s.unresolved

/-- Mark attempts as uncertain.  Each is unresolved from then on, also when a later one stops the
operation. -/
def failAll : List Attempt → Room → Finset AttemptId → Except TeamError Room × Finset AttemptId
  | [], r, unresolved => (.ok r, unresolved)
  | t :: rest, r, unresolved =>
    match r.fail t true with
    | .error e => (.error e, unresolved)
    | .ok next => failAll rest next (insert t.id unresolved)

def memberReady (id : MemberId) (backendGeneration : ℕ) (capabilities : ModeratorAdmission) :
    Outcome J Unit :=
  match s.room.member id with
  | none => (.error .unavailable, s)
  | some m =>
    if m.excluded then (.error .unavailable, s)
    else
      let resolved := s.room.mapDiscussions fun d => d.resolved (.memberUnavailable id)
      let orphaned := s.orphaned resolved id backendGeneration
      let changed := (s.room.discussions.any fun d => .memberUnavailable id ∈ d.pauses) ||
        !orphaned.isEmpty
      let (next, unresolved) := failAll orphaned resolved s.unresolved
      let s := { s with unresolved }
      match next with
      | .error e => (.error e, s)
      | .ok next =>
        andThen (if changed then s.save .storage next () else (.ok (), s)) fun _ s =>
          (.ok (), { s with
            readiness := Function.update s.readiness id (some { backendGeneration, capabilities }) })

def memberUnavailable (m : MemberId) : Outcome J Unit :=
  let s := { s with readiness := Function.update s.readiness m none }
  s.save .storage (s.room.mapDiscussions fun d => d.paused (.memberUnavailable m)) ()

def addMember (config : MemberConfig) : Outcome J MemberId :=
  s.perform ((s.room.addMember config s.serial).mapError .member)

def setMemberSettings (id : MemberId) (settings : ThreadSettings) : Outcome J Unit :=
  s.perform (((s.room.setMemberSettings id settings).mapError .member).map fun next => ((), next))

def recordProviderIdentity (id : MemberId) (providerId : Str) (registered : Bool) : Outcome J Unit :=
  match s.room.member id with
  | none => (.error .unavailable, s)
  | some m =>
    if (trim providerId).isEmpty || m.providerId.any (· != providerId) then (.error .unavailable, s)
    else if m.providerId = some providerId && m.moderatorRegistered = registered then (.ok (), s)
    else s.save .storage (s.room.identified id providerId registered) ()

def excludeMember (id : MemberId) : Outcome J Unit :=
  if s.hasLiveAttempts || s.unresolved ≠ ∅ then (.error .busy, s)
  else
    andThen (s.perform (((s.room.excludeMember id).mapError .member).map fun next =>
      ((), next.excluding id))) fun _ s =>
      (.ok (), { s with readiness := Function.update s.readiness id none })

/-! ## Dispatch -/

def reserveDispatches (intents : List DispatchIntent) : Outcome J (List AttemptId) :=
  match intents.forM s.validateRecipient with
  | .error e => (.error e, s)
  | .ok () =>
    match s.room.reserve intents s.serial with
    | .error e => (.error (.dispatch e), s)
    | .ok (ids, next) => s.save dispatchStorage next ids

/-- A turn of a discussion is sent only while the discussion is running. -/
def checkDispatchable (scope : BudgetScope) : Except TeamError Unit :=
  match scope with
  | .discussion id => do
    let d ← s.findDiscussion id
    failIf (!d.isDispatchable) .paused
  | .direct _ => .ok ()

/-- What `prepare_dispatch` checks before it charges the attempt. -/
def checkDispatch (t : Attempt) : Except TeamError Unit := do
  s.validateRecipient t.intent
  s.checkDispatchable t.intent.budget
  failIf (s.room.attempts.any fun active =>
    active.intent.recipient = t.intent.recipient && active.state.inFlight) .busy

/-- Persist the charged attempt before handing its request to a transport. -/
def prepareDispatch (id : AttemptId) : Outcome J DispatchIntent :=
  match s.room.attempt id with
  | none => (.error .unavailable, s)
  | some t =>
    match s.checkDispatch t with
    | .error e => (.error e, s)
    | .ok () =>
      match s.room.prepare id with
      | .error e => (.error (.dispatch e), s)
      | .ok (intent, next) => s.save dispatchStorage next intent

/-- Record the transport result before processing provider events for it. -/
def finishDispatch (id : AttemptId) (outcome : SendOutcome) : Outcome J Unit :=
  match s.room.finish id outcome with
  | .error e => (.error (.dispatch e), s)
  | .ok none => (.ok (), s)
  | .ok (some next) => s.save dispatchStorage next ()

/-! ## Provider events -/

/-- Only a provider's identified turn acceptance advances delivered context. -/
def acceptAttempt (key : AttemptEventKey) (providerTurn : Str) : Outcome J Bool :=
  match s.room.eventAttempt key with
  | none => (.ok false, s)
  | some t =>
    if !t.accepts providerTurn then (.ok false, s)
    else s.perform ((s.room.accept t providerTurn).map fun next => (true, next))

def completeReply (key : AttemptEventKey) (providerTurn text : Str) : Outcome J (Option MessageId) :=
  match s.room.eventAttempt key with
  | none => (.ok none, s)
  | some t =>
    if !t.completes providerTurn then (.ok none, s)
    else
      andThen (s.perform (s.room.complete t text s.serial)) fun id s =>
        (.ok (some id), { s with unresolved := s.unresolved.erase key.attempt })

def failAttempt (key : AttemptEventKey) (uncertain : Bool) : Outcome J Bool :=
  match s.room.eventAttempt key with
  | none => (.ok false, s)
  | some t =>
    if !t.state.inFlight then (.ok false, s)
    else
      andThen (s.perform ((s.room.fail t uncertain).map fun next => ((), next))) fun _ s =>
        (.ok true, { s with
          unresolved := if uncertain then insert key.attempt s.unresolved
            else s.unresolved.erase key.attempt })

/-- The user can end tracking restored work without claiming that the provider never ran it. -/
def abandonRestoredAttempt (id : AttemptId) : Outcome J Unit :=
  if s.hasLiveAttempts || id ∉ s.unresolved then (.error .unresolved, s)
  else
    andThen (s.perform ((s.room.abandon id).map fun next => ((), next))) fun _ s =>
      (.ok (), { s with unresolved := s.unresolved.erase id })

/-! ## Pauses -/

def pauseDiscussion (id : DiscussionId) (reason : PauseReason) : Outcome J Bool :=
  match s.findDiscussion id with
  | .error e => (.error e, s)
  | .ok d =>
    if d.state = .completed ∨ reason ∈ d.pauses then (.ok false, s)
    else s.save .storage (s.room.modifyDiscussion id fun d => d.paused reason) (d.pause reason).1

def resolvePause (id : DiscussionId) (reason : PauseReason) : Outcome J Bool :=
  match s.findDiscussion id with
  | .error e => (.error e, s)
  | .ok d =>
    if reason ∉ d.pauses then (.ok false, s)
    else s.save .storage (s.room.modifyDiscussion id fun d => d.resolved reason) (d.resolvePause reason).1

/-- Why a failed dispatch pauses its discussion. -/
def pauseReasonOf : TeamError → PauseReason
  | .budget _ | .dispatch (.budget _) => .budget
  | .storage _ | .dispatch (.storage _) => .storage
  | .context _ => .contextSelection
  | _ => .dispatchUnavailable

def pauseFor (id : DiscussionId) (e : TeamError) : Outcome J α :=
  andThen (s.pauseDiscussion id (pauseReasonOf e)) fun _ s => (.error e, s)

def close : Outcome J Unit :=
  s.save .storage (s.room.mapDiscussions fun d => d.paused .closed) ()

/-! ## Requests of the user -/

def startDiscussion (input : UserInput) (participants : List MemberId) (mode : DiscussionMode) :
    Outcome J DiscussionId :=
  s.perform do
    s.validateInput input
    s.validateMode mode
    let (d, next) ← (s.room.createDiscussion input.text participants mode s.serial).mapError .discussion
    return (d.id, next.started d input s.serial)

def recordUserInput (input : UserInput) : Outcome J MessageId :=
  s.perform do
    s.validateInput input
    let message := publicRequest input s.serial
    return (message.id, s.room.withUserInput message)

def directIntents (input : UserInput) (recipients : List MemberId) (limits : ContextLimits) :
    Except TeamError (List DispatchIntent) := do
  s.validateInput input
  failIf (recipients.isEmpty || !decide recipients.Nodup) .unavailable
  let operation : OperationId := ⟨s.serial, 0⟩
  recipients.mapM fun recipient =>
    s.prepareIntent { recipient, operation, stage := none, budget := .direct operation
                      purpose := .response } input s.room.publicSnapshot limits

def directRequest (input : UserInput) (recipients : List MemberId) (limits : ContextLimits) :
    Outcome J (List AttemptId) :=
  match s.directIntents input recipients limits with
  | .error e => (.error e, s)
  | .ok intents => andThen (s.recordUserInput input) fun _ s => s.reserveDispatches intents

/-! ## Discussions -/

/-- What a stage still has to send: reserved attempts, and the intents of the others. -/
def stageIntents (d : Discussion) (stage : Stage) (snapshot : PublicSnapshot)
    (limits : ContextLimits) : Except TeamError (List AttemptId × List DispatchIntent) :=
  (stage.arrangements.filter fun a => a.state = .pending).foldlM (fun (ready, intents) a =>
    match s.room.attempts.find? fun t => t.intent.operation = a.operation && t.state = .reserved with
    | some t => .ok (ready ++ [t.id], intents)
    | none => do
      let intent ← s.prepareIntent
        { recipient := a.recipient, operation := a.operation, stage := some (stage.id, stage.kind)
          budget := .discussion d.id, purpose := stagePurpose stage.kind } d.request snapshot limits
      return (ready, intents ++ [intent])) ([], [])

/-- The discussion with its last stage and that stage's last segment. -/
def lastSegment (id : DiscussionId) : Option (Discussion × Stage × PublicSnapshot) := do
  let d ← s.room.discussion id
  let stage ← d.stages.getLast?
  let snapshot ← stage.segments.getLast?
  return (d, stage, snapshot)

/-- The second half of `advance_discussion`: reserve what the last stage waits for. -/
def reserveStage (id : DiscussionId) (limits : ContextLimits) : Outcome J (List AttemptId) :=
  match s.lastSegment id with
  | none => (.error .unavailable, s)
  | some (d, stage, snapshot) =>
    match s.stageIntents d stage snapshot limits with
    | .error e => s.pauseFor id e
    | .ok (ready, intents) =>
      if intents = [] then (.ok ready, s)
      else
        match s.reserveDispatches intents with
        | (.ok ids, s) => (.ok (ready ++ ids), s)
        | (.error e, s) => s.pauseFor id e

/-- A stage gets one public boundary before any recipient is dispatched. -/
def advanceDiscussion (id : DiscussionId) (limits : ContextLimits) : Outcome J (List AttemptId) :=
  match s.findDiscussion id with
  | .error e => (.error e, s)
  | .ok d =>
    if d.state = .completed then (.ok [], s)
    else if !d.isDispatchable then (.error .paused, s)
    else
      match s.validateMode d.mode with
      | .error e => (.error e, s)
      | .ok () =>
        if !d.stages.getLast?.all Stage.isSettled then s.reserveStage id limits
        else if s.hasLiveAttempts then (.ok [], s)
        else
          match nextStage d (s.room.remainingNonReportTurns d) s.room.isExcluded with
          | .error e => (.error e, s)
          | .ok (.invalidModeration operation) =>
            andThen (s.pauseDiscussion id (.invalidModeration operation)) fun _ s => (.error .paused, s)
          | .ok (.schedule kind recipients) =>
            let stage := Stage.pending kind recipients s.room.publicSnapshot s.serial
            andThen (s.save .storage (s.room.modifyDiscussion id (Discussion.pushStage stage)) ())
              fun _ s => s.reserveStage id limits

def continueDiscussion (id : DiscussionId) : Outcome J Unit :=
  if s.hasLiveAttempts || s.unresolved ≠ ∅ then (.error .busy, s)
  else
    s.perform do
      let d ← s.findDiscussion id
      failIf (d.state = .completed) .unavailable
      s.validateMode d.mode
      failIf ((d.retainPauses fun reason => !reason.clearedByContinue).pauses ≠ ∅) .paused
      return ((), (s.room.cancelReservations id).modifyDiscussion id
        (Discussion.continued s.room.publicSnapshot s.serial))

def addTurns (id : DiscussionId) (turns : ℕ) : Outcome J Unit :=
  s.perform do
    let d ← s.findDiscussion id
    let budget ← (d.budget.addTurns turns).mapError .budget
    return ((), s.room.modifyDiscussion id fun d => { d with budget }.resolved .budget)

def changeMode (id : DiscussionId) (mode : DiscussionMode) : Outcome J Unit :=
  andThen (s.pauseDiscussion id .modeChange) fun _ s =>
    if s.hasLiveAttempts then (.error .busy, s)
    else
      s.perform do
        s.validateMode mode
        let d ← s.findDiscussion id
        let changed ← (d.changeMode mode).mapError .discussion
        return ((), (s.room.cancelReservations id).modifyDiscussion id fun _ =>
          changed.modeChanged s.room.isExcluded)

def finishWithReport (id : DiscussionId) : Outcome J Unit :=
  andThen (s.pauseDiscussion id .user) fun _ s =>
    if s.hasLiveAttempts || s.unresolved ≠ ∅ then (.error .unresolved, s)
    else
      s.perform do
        let d ← s.findDiscussion id
        failIf (d.state = .completed) .unavailable
        return ((), (s.room.cancelReservations id).modifyDiscussion id
          (Discussion.finishing s.room.publicSnapshot s.serial))

/-! ## Decisions of a moderator -/

/-- Whether a decision comes from the turn that the last stage asked for it. -/
def isExpected (d : Discussion) (stage : Stage) (t : Attempt) (key : AttemptEventKey)
    (stageId : StageId) (operation : OperationId) : Bool :=
  stage.id = stageId && stage.kind = .moderatorDecision && d.mode = .moderated key.member &&
    t.intent.purpose = .moderation && t.intent.operation = operation &&
    t.intent.stage = some stageId && t.intent.recipient = key.member &&
    t.intent.backendGeneration = key.backendGeneration && t.state = .accepted &&
    (s.room.member key.member).isSome

/-- Whether the invited members can be asked. -/
def mayInvite (d : Discussion) (recipients : List MemberId) : Bool :=
  !recipients.isEmpty && decide recipients.Nodup && recipients.all fun m =>
    m ∈ d.participants && (s.validateMember m).isOk

/-- Whether the members that an action asks for can be asked. -/
def mayAsk (d : Discussion) : ModeratorAction → Bool
  | .invite recipients => s.mayInvite d recipients
  | .report => true

/-- The turns that a decision asks for. -/
def purposesOf : ModeratorAction → List TurnPurpose
  | .invite recipients => recipients.map fun _ => .response
  | .report => [.report]

/-- Record a decision that the last stage expects. -/
def recordDecision (d : Discussion) (key : AttemptEventKey) (operation : OperationId)
    (action : ModeratorAction) : Outcome J Bool :=
  match (do s.validateMode d.mode; s.validateMember key.member) with
  | .error e => (.error e, s)
  | .ok () =>
    if !s.mayAsk d action then
      andThen (s.pauseDiscussion d.id (.invalidModeration operation)) fun _ s => (.ok false, s)
    else
      match d.budget.checkBatch (s.room.budgetAttempts (.discussion d.id)) (purposesOf action) with
      | .error e => andThen (s.pauseDiscussion d.id .budget) fun _ s => (.error (.budget e), s)
      | .ok () =>
        s.save .storage (s.room.decided d.id
          { operation, attempt := key.attempt, actor := key.member, action }) true

/-- Adapters call this only for the registered control operation. -/
def moderatorDecision (key : AttemptEventKey) (stageId : StageId) (operation : OperationId)
    (action : ModeratorAction) : Outcome J Bool :=
  match s.room.attempt key.attempt with
  | none => (.ok false, s)
  | some t =>
    match t.intent.budget with
    | .direct _ => (.ok false, s)
    | .discussion id =>
      match s.findDiscussion id with
      | .error e => (.error e, s)
      | .ok d =>
        match d.stages.getLast? with
        | none => (.ok false, s)
        | some stage =>
          if stage.decision.isSome then (.ok false, s)
          else if !s.isExpected d stage t key stageId operation then
            andThen (s.pauseDiscussion id (.invalidModeration operation)) fun _ s => (.ok false, s)
          else s.recordDecision d key operation action

/-! ## Creating and opening -/

/-- `TeamSession::create` -/
def create (J : Serde Room) (room : Room) (outcome : WriteOutcome) :
    Except TeamError (TeamSession J) := do
  room.validate.mapError .storage
  let storage ← (createStore J roomFormat room outcome).mapError fun e =>
    .storage (FromSnapshot.fromSnapshot e)
  return { storage, readiness := fun _ => none, unresolved := ∅, serial := 0, writes := [] }

/-- `RoomStore::open` -/
def openRoom (id : RoomId) : Except TeamError (SnapshotStore Room) := do
  let store ← (openStore J roomFormat s.storage.file).mapError fun e =>
    .storage (FromSnapshot.fromSnapshot e)
  failIf (store.value.id ≠ id) (.storage (invalid "room identity changed"))
  store.value.validate.mapError .storage
  return store

/-- `TeamSession::open`, after the process that owned the room has ended.  What was in flight is
unresolved. -/
def reopen (id : RoomId) : Outcome J Unit :=
  match s.openRoom id with
  | .error e => (.error e, s)
  | .ok store =>
    let s := { s with storage := { s.storage with store }, readiness := fun _ => none, unresolved := ∅ }
    let next := s.room.reopened
    andThen (s.save .storage next ()) fun _ s =>
      (.ok (), { s with
        unresolved := ((next.attempts.filter fun t => t.state.inFlight).map Attempt.id).toFinset })

end TeamSession

end NiumaTerm.Team
