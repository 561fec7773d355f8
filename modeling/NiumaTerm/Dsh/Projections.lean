import NiumaTerm.ClaudeCode.Sessions.Progress

/-!
# The projections of a DeepSeek session

`ProjectionTracker` holds the latest value of each unit and republishes the combination.  Values come on
the control stream and with the page that a history is read from, and count when their number is not
below the last one of their key.
-/

namespace NiumaTerm.Dsh

open Rust ClaudeCode Progress

/-! ## Usage and controls -/

structure TokenUsageBreakdown where
  totalTokens : ℕ
  inputTokens : Option ℕ := none
  cacheReadInputTokens : Option ℕ := none
  cacheWriteInputTokens : Option ℕ := none
  outputTokens : Option ℕ := none
  reasoningOutputTokens : Option ℕ := none
deriving DecidableEq

inductive ContextUsageScope
  | thread
  | lastTurn
deriving DecidableEq

structure ScopedTokenUsage where
  scope : ContextUsageScope
  breakdown : TokenUsageBreakdown
deriving DecidableEq

structure ContextWindowUsage where
  current : TokenUsageBreakdown
  cumulative : Option ScopedTokenUsage
  maxTokens : Option ℕ
deriving DecidableEq

structure SessionStats where
  turns : ℕ
  steps : ℕ
  modelMs : ℕ
  toolMs : ℕ
  decodeTokens : ℕ
  decodeMs : ℕ
deriving DecidableEq

structure ApprovalPreset where
  value : Str
  label : Str
  description : Option Str
deriving DecidableEq

inductive Event
  | contextWindowUpdated (usage : ContextWindowUsage)
  | contextCompositionUpdated (composition : ContextComposition)
  | titleUpdated (title : Str)
  | approvalPresets (presets : List ApprovalPreset) (current : Option Str)
  | goalUpdated (goal : Option GoalStatus)
  | taskListUpdated (tasks : TaskList)
  | planModeUpdated (active : Bool)
  | sessionStatsUpdated (stats : SessionStats)
deriving DecidableEq

/-! ## Values of units -/

/-- A number of a value, or 0. -/
def count (value : Json) (name : String) : ℕ := (value.get name).asU64.getD 0

def cumulativeUsage (value : Json) : TokenUsageBreakdown :=
  let uncachedInput := count value "uncachedInputTokens"
  let output := count value "outputTokens"
  let cacheRead := count value "cacheReadTokens"
  let cacheWrite := count value "cacheWriteTokens"
  { totalTokens := uncachedInput + output + cacheRead + cacheWrite
    inputTokens := some (uncachedInput + cacheRead + cacheWrite)
    cacheReadInputTokens := some cacheRead
    cacheWriteInputTokens := some cacheWrite
    outputTokens := some output }

def usedTokensOf (value : Json) : Option ℕ :=
  (value.get "projectedTokens").asU64.or (value.get "pressureTokens").asU64

def contextWindowOf (value : Json) : Option ℕ := (value.get "contextWindow").asU64.filter (0 < ·)

def segmentsOf (value : Json) : List ContextSegment :=
  [("System prompt", "systemTokens"), ("Tools", "toolsTokens"),
    ("Messages", "messageTokens")].filterMap fun (label, field) =>
      (value.get field).asU64.map fun tokens => ⟨label.toList, tokens, none, false⟩

def titleOf (value : Json) : Option Str := value.asStr.filter fun title => !(trim title).isEmpty

def currentValueOf (value : Json) : Option Str := (value.get "currentValue").asStr

def goalStatus (value : Json) : Option GoalStatus :=
  let goal := value.get "goal"
  (goal.get "objective").asStr.map fun objective =>
    { objective
      phase := (goal.get "phase").asStr.getD []
      reason := ((goal.get "blockedReason").get "message").asStr
      roundsStarted := count value "roundsStarted"
      maxRounds := count goal "maxGoalRounds"
      tokensUsed := none
      tokenBudget := none
      elapsedSeconds := none }

def todoList (value : Json) : TaskList where
  items := ((value.asArray.getD []).zipIdx).filterMap fun (item, index) => do
    let content ← (item.get "content").asStr
    let status ← (item.get "status").asStr.bind TaskStatus.parse
    some (Task.indexed index content status)

/-- `pending` is a selection that is not yet recorded. -/
def planMode (value : Json) : Bool :=
  let active := (value.get "active").asBool.getD false
  if (value.get "pending").asBool = some true then !active else active

def sessionStatsOf (value : Json) : SessionStats where
  turns := count value "turns"
  steps := count value "steps"
  modelMs := count value "llmMs"
  toolMs := count value "toolMs"
  decodeTokens := count value "decodeTokens"
  decodeMs := count value "decodeMs"

/-- The presets this session can switch between, and the one it is on. -/
def permissionPresets (options : Json) (current : Option Str) : Option Event :=
  let presets := (options.asArray.getD []).filterMap fun option =>
    (option.get "value").asStr.map fun value =>
      ⟨value, (option.get "name").asStr.getD [], (option.get "description").asStr⟩
  if presets.isEmpty then none else some (.approvalPresets presets current)

/-! ## The tracker -/

structure ProjectionTracker where
  seen : String → Option ℤ := fun _ => none
  cumulative : Option TokenUsageBreakdown := none
  usedTokens : Option ℕ := none
  contextWindow : Option ℕ := none
  permission : Option Str := none
  permissionOptions : Json := .null
  presets : Option Event := none
  sessionStats : Option SessionStats := none

namespace ProjectionTracker

variable (t : ProjectionTracker)

/-- The window snapshot, once occupancy is known. -/
def windowEvent : Option Event :=
  t.usedTokens.map fun used => .contextWindowUpdated
    { current := { totalTokens := used }
      cumulative := t.cumulative.map (⟨.thread, ·⟩)
      maxTokens := t.contextWindow }

def compositionEvent (value : Json) : Option Event :=
  let segments := segmentsOf value
  if segments.isEmpty then none
  else some (.contextCompositionUpdated
    { segments
      usedTokens := (segments.map ContextSegment.tokens).sum
      maxTokens := t.contextWindow
      rawMaxTokens := none
      autoCompactThreshold := none })

def permissionEvent : ProjectionTracker × List Event :=
  let presets := permissionPresets t.permissionOptions t.permission
  ({ t with presets }, presets.toList)

def applyUnit (key : String) (value : Json) : ProjectionTracker × List Event :=
  if key = "tokenUsage" then
    let t := { t with cumulative := some (cumulativeUsage value) }
    (t, t.windowEvent.toList)
  else if key = "contextPressure" then
    let t := { t with usedTokens := usedTokensOf value, contextWindow := contextWindowOf value }
    (t, t.windowEvent.toList)
  else if key = "contextBreakdown" then (t, (t.compositionEvent value).toList)
  else if key = "title" then (t, ((titleOf value).map .titleUpdated).toList)
  else if key = "permissions" then
    { t with
      permissionOptions := (value.member? "options").getD t.permissionOptions
      permission := currentValueOf value }.permissionEvent
  else if key = "goal" then (t, [.goalUpdated (goalStatus value)])
  else if key = "todos" then (t, [.taskListUpdated (todoList value)])
  else if key = "plan" then (t, [.planModeUpdated (planMode value)])
  else if key = "sessionStats" then
    ({ t with sessionStats := some (sessionStatsOf value) },
      [.sessionStatsUpdated (sessionStatsOf value)])
  else (t, [])

/-- An older value cannot undo a newer one, but one with the same number can. -/
def applyAt (key : String) (value : Json) : Option ℤ → ProjectionTracker × List Event
  | some seq =>
    if (t.seen key).any (seq < ·) then (t, [])
    else { t with seen := Function.update t.seen key (some seq) }.applyUnit key value
  | none => t.applyUnit key value

/-- The values of a history page, in the order of its members. -/
def applyBaseline (values : Json) (seq : Option ℤ) : ProjectionTracker × List Event :=
  (values.asObject.getD []).foldl (fun (t, events) (key, value) =>
    let (t, more) := t.applyAt key value seq
    (t, events ++ more)) (t, [])

/-- The preset table of a host that serves it outside the projection. -/
def applyPermissionCatalog (catalog : Json) : ProjectionTracker × List Event :=
  { t with permissionOptions := catalog.get "options" }.permissionEvent

/-- The projection that a frame has for the session. -/
def frameUpdate (sessionId : Str) (frame : Json) : Option (String × Json × Option ℤ) :=
  let payload := frame.get "payload"
  if (payload.get "type").isText "session/projection" ∧
      (payload.get "sessionId").asStr = some sessionId then
    (payload.get "key").asStr.map fun key =>
      (String.ofList key, payload.get "value", (payload.get "seq").asI64)
  else none

def apply (frame : Json) (sessionId : Str) : Option (ProjectionTracker × List Event) :=
  (frameUpdate sessionId frame).map fun (key, value, seq) => t.applyAt key value seq

end ProjectionTracker

/-! ## The control stream -/

inductive RemoteRevision
  | v0_1
  | v0_2

def INBOX_PROJECTION : String := "inbox"

/-- The queue rows of a 0.1 host, from the inbox projection of a 0.2 host. -/
def inboxQueueItems (inbox : Json) : Json :=
  let messages (target : String) := (inbox.get target).asArray.getD []
  let row (message : Json) (placement : String) : Json :=
    .object [("id", message.get "id"), ("placement", .text placement),
      ("message", .object [("id", message.get "id"), ("content", message.get "content")])]
  .array ((messages "next-turn").map (row · "queued") ++
    (messages "next-step").map fun message =>
      row message (if ((message.get "source").get "kind").isText "user" then "steering"
        else "context"))

section

variable (sessionId : Str)

def queueFrame (items : Json) : Json :=
  .object [("payload", .object
    [("type", .text "session/queue"), ("sessionId", .string sessionId), ("items", items)])]

def jobsFrame (jobs : Json) : Json :=
  .object [("payload", .object
    [("type", .text "session/jobs"), ("sessionId", .string sessionId), ("jobs", jobs)])]

def projectionFrame (key : String) (value seq : Json) : Json :=
  .object [("payload", .object
    [("type", .text "session/projection"), ("sessionId", .string sessionId),
      ("key", .text key), ("value", value), ("seq", seq)])]

def baselineFrames (baseline : Json) : List Json × RemoteRevision :=
  let projections := (baseline.get "projections").get (String.ofList sessionId)
  let values := projections.get "values"
  let revision := if (baseline.member? "queues").isSome then RemoteRevision.v0_1 else .v0_2
  -- a session with nothing pending is sent an empty queue
  let queue := match revision with
    | .v0_1 => queueFrame sessionId ((baseline.get "queues").get (String.ofList sessionId))
    | .v0_2 => queueFrame sessionId (inboxQueueItems (values.get INBOX_PROJECTION))
  let updates := ((values.asObject.getD []).filter (·.1 ≠ INBOX_PROJECTION)).map
    fun (key, value) => projectionFrame sessionId key value (projections.get "asOfSeq")
  let jobs := (baseline.get "jobs").asObject.elim [] fun _ =>
    [jobsFrame sessionId ((baseline.get "jobs").get (String.ofList sessionId))]
  (queue :: updates ++ jobs, revision)

/-- The frames that a message of the control stream is delivered as, and the revision that it shows. -/
def onControl (value : Json) : List Json × Option RemoteRevision :=
  let own := (value.get "sessionId").asStr = some sessionId
  if (value.get "type").isText "baseline" then
    let (frames, revision) := baselineFrames sessionId (value.get "value")
    (frames, some revision)
  else if (value.get "type").isText "queue" ∧ own then
    ([queueFrame sessionId (value.get "items")], none)
  else if (value.get "type").isText "jobs" ∧ own then
    ([jobsFrame sessionId (value.get "jobs")], none)
  else if (value.get "type").isText "projection" ∧ own then
    match (value.get "key").asStr with
    | some key =>
      if String.ofList key = INBOX_PROJECTION then
        ([queueFrame sessionId (inboxQueueItems (value.get "value"))], none)
      else
        ([projectionFrame sessionId (String.ofList key) (value.get "value") (value.get "seq")],
          none)
    | none => ([], none)
  else ([], none)

end

end NiumaTerm.Dsh
