import NiumaTerm.ClaudeCode.Records

/-!
# A Claude Code session

The control side of one `claude` process.  `sessions` is the system of all calls that reach it, in any
order; its writer, its exit and the order of a hash map (`rehash`) are calls too.  The transcript, tasks,
workflows, catalogs and progress files are left out.
-/

namespace NiumaTerm.ClaudeCode

open Rust Subprocess Transition List

/-! ## Turns -/

inductive TurnState
  | idle
  | pending
  | running
deriving DecidableEq

/-- `user_prompt_text` gives a text. -/
def isUserPrompt (message : Json) : Bool :=
  (message.get "type").isText "user" && (message.get "parent_tool_use_id").isNull &&
    (message.get "isSynthetic").asBool ≠ some true &&
      match (message.get "message").get "content" with
      | .string _ => true
      | .array blocks =>
        blocks.any fun block => (block.get "type").isText "text" && (block.get "text").asStr.isSome
      | _ => false

def isModelOutput (message : Json) : Bool :=
  (message.get "type").isText "assistant" || (message.get "type").isText "stream_event"

def TurnState.observe (t : TurnState) (message : Json) : TurnState :=
  match t with
  | idle => if isModelOutput message || isUserPrompt message then running else idle
  | _ => running

/-! ## The session -/

structure MessageImage where
  mediaType : Str
  /-- The bytes in base64. -/
  data : Str

structure Session (Choice Form : Type) where
  process : JsonLineProcess Json
  control : ControlState Choice Form
  ready : Bool
  turn : TurnState
  appliedModel : Option Str
  appliedPermission : Option Str

def initRequestId : Str := "nmt-init".toList

def timeoutMethod : String := "nmt/claudeRequestDeadline"

def progressMethod : String := "nmt/claudeProgress"

def isUser (message : Json) : Bool := (message.get "type").isText "user"

def isDialogRequest (request : Json) : Bool :=
  (request.get "subtype").isText "request_user_dialog" || (request.get "subtype").isText "elicitation"

/-- The id of a request of the CLI. -/
def controlRequestId (message : Json) : Str := (message.get "request_id").asStr.getD []

def controlResponse (response : Json) : Json :=
  .object [("type", .text "control_response"), ("response", response)]

/-- The answer to a request of the CLI. -/
def successResponse (id : Str) (response : Json) : Json :=
  controlResponse (.object [("subtype", .text "success"), ("request_id", .string id),
    ("response", response)])

def errorResponse (id error : Str) : Json :=
  controlResponse (.object [("subtype", .text "error"), ("request_id", .string id),
    ("error", .string error)])

def approvalDescription (toolName : Str) (input : Json) : Str :=
  if toolName = "Bash".toList then
    "Run command: `".toList ++ (input.get "command").asStr.getD [] ++ "`".toList
  else if toolName ∈ ["Edit".toList, "Write".toList, "NotebookEdit".toList] then
    "Edit file: ".toList ++ (input.get "file_path").asStr.getD "(unknown file)".toList
  else if toolName = "ExitPlanMode".toList then
    "Approve Claude's plan:\n\n".toList ++ (input.get "plan").asStr.getD []
  else if (toolTitle input).isEmpty then toolName
  else toolName ++ ": ".toList ++ toolTitle input

variable {Choice Form : Type}

namespace Session

variable (s : Session Choice Form)

def supportedKinds : List String :=
  ["refusal_fallback_prompt", "fable_overage_consent_prompt", "auto_mode_server_fallback",
    "device_mcp_consent", "unattended_serving_consent"]

def initializeRequest : Json :=
  .object [("type", .text "control_request"), ("request_id", .string initRequestId),
    ("request", .object [("subtype", .text "initialize"), ("forwardSubagentText", .bool true),
      ("supportedDialogKinds", .array (supportedKinds.map .text))])]

/-- The session once the handshake was sent to a new process. -/
def spawn (model approval effort : Option Str) (now : ℕ) : Session Choice Form where
  process := (JsonLineProcess.new.writeLine isUser initializeRequest).2
  control := (ControlState.withEffort effort).admitEntry initRequestId .query none .init now
  ready := false
  turn := .idle
  appliedModel := model
  appliedPermission := approval

def trySend (message : Json) : Except Str Unit × Session Choice Form :=
  if s.control.closed then (.error "Claude is not connected".toList, s)
  else
    match s.process.writeLine isUser message with
    | (.ok (), process) => (.ok (), { s with process })
    | (.error _, process) => (.error "input closed".toList, { s with process })

/-- A required line. -/
def send (message : Json) : Session Choice Form :=
  { s with process := (s.process.writeLine isUser message).2 }

def controlClass (request : Json) : RequestClass :=
  if (request.get "subtype").isText "get_context_usage" then .query
  else if (request.get "subtype").isText "interrupt" || (request.get "subtype").isText "stop_task" then
    .control
  else .mutation

/-- The part `send_control` and `ask_side_question` share. -/
def admitControl (request : Json) (requestClass : RequestClass) (operation : Str → PendingControlOperation)
    (now : ℕ) : Except Str Str × Session Choice Form :=
  match s.control.checkConnected with
  | .error error => (.error error, s)
  | .ok () =>
    let ((id, message), control) := s.control.request request
    match s.process.writeTracked isUser [message] with
    | (.error _, process) => (.error "input closed".toList, { s with process, control })
    | (.ok ticket, process) =>
      (.ok id, { s with process, control := control.admitEntry id requestClass (some ticket) (operation id) now })

def sendControl (request : Json) (operation : PendingControlOperation) (now : ℕ) :
    Except Str Str × Session Choice Form :=
  s.admitControl request (controlClass request) (fun _ => operation) now

def isOk {ε α : Type} : Except ε α → Bool
  | .ok _ => true
  | .error _ => false

def requestContextComposition (now : ℕ) : Bool × Session Choice Form :=
  if !s.ready || !s.process.hasStdin || s.control.contains .contextComposition then (false, s)
  else
    let (sent, s) := s.sendControl (.object [("subtype", .text "get_context_usage")]) .contextComposition now
    (isOk sent, s)

def requestSessionTitle (description : Str) (now : ℕ) : Bool × Session Choice Form :=
  let text := (trim description).take 2000
  if !s.ready || !s.process.hasStdin || s.control.contains .sessionTitle || text.isEmpty then (false, s)
  else
    let (sent, s) := s.sendControl (.object [("subtype", .text "generate_session_title"),
      ("description", .string text), ("persist", .bool true)]) .sessionTitle now
    (isOk sent, s)

def renameSession (title : Str) (now : ℕ) : Bool × Session Choice Form :=
  let title := trim title
  if !s.ready || !s.process.hasStdin || title.isEmpty then (false, s)
  else
    match s.sendControl (.object [("subtype", .text "rename_session"), ("title", .string title)]) .other now with
    | (.error _, s) => (false, s)
    | (.ok _, s) =>
      let (control, stdin) := s.control.cancelGeneratedTitle s.process.stdin
      (true, { s with control, process := { s.process with stdin } })

def askSideQuestion (question : Str) (history : List (Str × Str)) (now : ℕ) :
    Except Str Str × Session Choice Form :=
  if !s.ready || !s.process.hasStdin then (.error "Claude is not ready".toList, s)
  else
    let exchange (entry : Str × Str) : Json :=
      .object [("question", .string entry.1), ("response", .string entry.2)]
    let request : List (String × Json) :=
      [("subtype", .text "side_question"), ("question", .string question)] ++
        if history.isEmpty then [] else [("history", .array (history.map exchange))]
    s.admitControl (.object request) .mutation .sideQuestion now

def cancelSideQuestion (id : Str) : Session Choice Form :=
  (s.trySend (.object [("type", .text "control_cancel_request"), ("request_id", .string id)])).2

def rewindFiles (userMessageId : Str) (now : ℕ) : Bool × Session Choice Form :=
  if !s.ready || !s.process.hasStdin || s.turn ≠ .idle || s.control.pendingApproval.isSome ||
    s.control.contains .fileRewind then (false, s)
  else
    let (sent, s) := s.sendControl (.object [("subtype", .text "rewind_files"),
      ("user_message_id", .string userMessageId)]) .fileRewind now
    (isOk sent, s)

def interrupt (now : ℕ) : Bool × Session Choice Form :=
  let (sent, s) := s.sendControl (.object [("subtype", .text "interrupt")]) .other now
  (isOk sent, s)

/-- `taskId` is the id that the task list has for the row. -/
def interruptBackgroundTask (taskId : Str) (now : ℕ) : Bool × Session Choice Form :=
  let (sent, s) := s.sendControl (.object [("subtype", .text "stop_task"), ("task_id", .string taskId)])
    .other now
  (isOk sent, s)

def ultracodeEffort : Str := "ultracode".toList

def effortChange (settings : ThreadSettings) : Option Str :=
  if settings.effort = s.control.effort.desired then none else settings.effort

def effortRequest (effort : Str) : Json :=
  let level := if effort = ultracodeEffort then "xhigh".toList else effort
  .object [("subtype", .text "apply_flag_settings"),
    ("settings", .object [("effortLevel", .string level), ("ultracode", .bool (effort = ultracodeEffort))])]

/-- The requests for changed settings, in the order they are written. -/
def settingRequests (settings : ThreadSettings) : List Json :=
  ((if settings.model = s.appliedModel then none else settings.model).map fun model =>
      .object [("subtype", .text "set_model"), ("model", .string model)]).toList ++
    ((if settings.approval = s.appliedPermission then none else settings.approval).map fun approval =>
      .object [("subtype", .text "set_permission_mode"), ("mode", .string approval)]).toList ++
    ((s.effortChange settings).map effortRequest).toList

/-- Requests are numbered one after another. -/
def numberRequests : List Json → ControlState Choice Form → List (Str × Json) × ControlState Choice Form
  | [], control => ([], control)
  | request :: rest, control =>
    let (message, control) := control.request request
    let (messages, control) := numberRequests rest control
    (message :: messages, control)

def userMessage (text : Str) (images : List MessageImage) : Json :=
  let image (i : MessageImage) : Json := .object [("type", .text "image"),
    ("source", .object [("type", .text "base64"), ("media_type", .string i.mediaType), ("data", .string i.data)])]
  .object [("type", .text "user"), ("message", .object [("role", .text "user"),
    ("content", .array (.object [("type", .text "text"), ("text", .string text)] :: images.map image))])]

inductive SendOutcome
  | startedTurn
  | steered
  | notReady
  | rejected (message : Str)

def sendUserMessage (text : Str) (settings : ThreadSettings) (images : List MessageImage) (now : ℕ) :
    SendOutcome × Session Choice Form :=
  if s.control.closed || !s.process.hasStdin then (.notReady, s)
  else
    let (requests, control) := numberRequests (s.settingRequests settings) s.control
    match s.process.writeTracked isUser (requests.map (·.2) ++ [userMessage text images]) with
    | (.error _, process) => (.rejected "input closed".toList, { s with process, control })
    | (.ok ticket, process) =>
      let control := requests.foldl
        (fun control request => control.admitEntry request.1 .mutation (some ticket) .other now) control
      -- The request for the effort is the last one.
      let control := match s.effortChange settings, requests.getLast? with
        | some effort, some (id, _) => control.recordEffort id effort
        | _, _ => control
      let s := { s with
        process, control
        appliedModel := settings.model.or s.appliedModel
        appliedPermission := settings.approval.or s.appliedPermission }
      if s.turn = .idle then (.startedTurn, { s with turn := .pending }) else (.steered, s)

def slashName (name : Str) : Str := (trim name).dropWhile (· = '/')

def uiOwnsSlashCommand (name : Str) : Bool :=
  (slashName name).map Char.toLower ∈ ["resume".toList, "rewind".toList]

def slashCommandText (name arguments : Str) : Str :=
  if (trim arguments).isEmpty then "/".toList ++ slashName name
  else "/".toList ++ slashName name ++ " ".toList ++ trim arguments

def executeSlashCommand (name arguments : Str) : Bool × Session Choice Form :=
  if uiOwnsSlashCommand name || !s.ready || !s.process.hasStdin || s.turn ≠ .idle then (false, s)
  else
    match s.process.tryWriteLine isUser (userMessage (slashCommandText name arguments) []) with
    | (.error _, process) => (false, { s with process })
    | (.ok (), process) => (true, { s with process, turn := .pending })

/-! ## The answers of the user -/

def approvalResponse (decision : Str) (pending : PendingApproval) : Json :=
  let allow := [("behavior", Json.text "allow"), ("updatedInput", pending.input)]
  if decision = "accept".toList then .object allow
  else if decision = "acceptForSession".toList then
    .object (allow ++ (pending.suggestions.map fun suggestions => ("updatedPermissions", suggestions)).toList)
  else if decision = "cancel".toList then
    .object [("behavior", .text "deny"), ("message", .text "User cancelled tool execution.")]
  else .object [("behavior", .text "deny"), ("message", .text "User declined tool execution.")]

def respondApproval (decision : Str) (now : ℕ) : Bool × Session Choice Form :=
  match s.control.pendingApproval with
  | none => (false, s)
  | some pending =>
    match s.trySend (successResponse pending.requestId (approvalResponse decision pending)) with
    | (.error _, s) => (false, s)
    | (.ok (), s) =>
      let s := { s with control := { s.control with pendingApproval := none } }
      (true, if decision = "cancel".toList then (s.interrupt now).2 else s)

def questionsResponse (answers : Option (List QuestionAnswer)) (pending : PendingQuestions) : Json :=
  let dismissed := Json.object [("behavior", .text "deny"),
    ("message", .text "The user dismissed the questions; make your best assumption and continue.")]
  match answers with
  | none => dismissed
  | some answers =>
    if answers.any fun answer => !answer.values.isEmpty then
      .object [("behavior", .text "allow"),
        ("updatedInput", mergeQuestionAnswers pending.input pending.questions answers)]
    else dismissed

def sendDialogReply (id : Str) (response : Json) : Except Str Unit × Session Choice Form :=
  match s.trySend (successResponse id response) with
  | (.error error, s) => (.error error, s)
  | (.ok (), s) => (.ok (), { s with control := { s.control with dialogs := (s.control.dialogs.retire id).2 } })

variable [ChoiceDialog Choice] [Elicitation Form]

def respondInput (id : Str) (answers : Option (List QuestionAnswer)) :
    Except Str Unit × Session Choice Form :=
  if s.control.dialogs.contains id then
    match s.control.dialogs.respond id answers with
    | .error error => (.error error, s)
    | .ok response => s.sendDialogReply id response
  else
    match s.control.pendingQuestions with
    | none => (.error "This question is no longer pending.".toList, s)
    | some pending =>
      if pending.requestId ≠ id then (.error "This question is no longer pending.".toList, s)
      else if answers.any fun answers => answers.length ≠ pending.questions.length then
        (.error "Complete every question before submitting.".toList, s)
      else
        match s.trySend (successResponse pending.requestId (questionsResponse answers pending)) with
        | (.error error, s) => (.error error, s)
        | (.ok (), s) => (.ok (), { s with control := { s.control with pendingQuestions := none } })

def declineInput (id : Str) : Except Str Unit × Session Choice Form :=
  match s.control.dialogs.decline id with
  | .error error => (.error error, s)
  | .ok response => s.sendDialogReply id response

/-! ## Messages of the CLI -/

/-- A request that is not one for a dialog: a tool's, or one that is not supported. -/
def onToolRequest (id : Str) (request : Json) : List Notice × Session Choice Form :=
  if (request.get "subtype").isText "can_use_tool" then
    let toolName := (request.get "tool_name").asStr.getD "tool".toList
    let input := request.get "input"
    if toolName = "AskUserQuestion".toList then
      let questions := parseQuestions input
      if questions.isEmpty then
        ([], s.send (successResponse id (.object [("behavior", .text "deny"),
          ("message", .text "The question payload was unusable; make your best assumption and continue.")])))
      else if s.control.pendingQuestions.any fun pending => pending.requestId = id then ([], s)
      else
        ((s.control.pendingQuestions.map fun previous =>
            { about := [], event := .inputExpired previous.requestId }).toList ++
          [{ about := [], event := .inputRequested { id, mode := .blocking, questions } }],
          { s with control := { s.control with pendingQuestions := some { requestId := id, input, questions } } })
    else
      let suggestions := request.get "permission_suggestions"
      ([{ about := [], event := .approvalRequested (approvalDescription toolName input) }],
        { s with control := { s.control with
            pendingApproval := some
              { requestId := id, input, suggestions := if suggestions.isNull then none else some suggestions } } })
  else ([], s.send (errorResponse id "not supported by NiumaTerm agent tab".toList))

def onControlRequest (message : Json) : List Notice × Session Choice Form :=
  let id := controlRequestId message
  let request := message.get "request"
  if isDialogRequest request then
    match s.control.dialogs.receive id request with
    | (.ok (some question), dialogs) =>
      ([{ about := [], event := .inputRequested question }], { s with control := { s.control with dialogs } })
    | (.ok none, dialogs) => ([], { s with control := { s.control with dialogs } })
    | (.error error, _) =>
      ([{ about := [], event := .error error false }], s.send (errorResponse id error))
  else s.onToolRequest id request

/-- `configured` is the permission mode that the settings file of the CLI names. -/
def onControlResponse (configured : Option Str) (message : Json) (now : ℕ) :
    List Notice × Session Choice Form :=
  let response := message.get "response"
  if (response.get "request_id").asStr = some initRequestId then
    let s := { s with control := s.control.complete initRequestId }
    if (response.get "subtype").isText "error" then
      ([{ about := [initRequestId],
          event := .error ((response.get "error").asStr.getD "unknown Claude control error".toList) true }], s)
    else if s.ready then ([], s)
    else
      let permission := (s.appliedPermission.or configured).getD "default".toList
      let model := s.appliedModel.getD "default".toList
      let s := { s with ready := true, appliedModel := some model, appliedPermission := some permission }
      ([{ about := [initRequestId],
          event := .ready { model := some model, approval := some permission, effort := none } }],
        (s.requestContextComposition now).2)
  else
    let (event, control) := s.control.resolve response
    (event.toList, { s with control })

def onInit (message : Json) (now : ℕ) : List Notice × Session Choice Form :=
  let model := if s.ready then s.appliedModel else (message.get "model").asStr
  let permission := (message.get "permissionMode").asStr
  let s := { s with
    control := s.control.complete initRequestId
    ready := true
    appliedModel := model
    appliedPermission := permission }
  ([{ about := [], event := .ready { model, approval := permission, effort := none } }],
    (s.requestContextComposition now).2)

def onSystem (message : Json) (now : ℕ) : List Notice × Session Choice Form :=
  let subtype := message.get "subtype"
  if subtype.isText "init" then s.onInit message now
  else if (subtype.isText "model_refusal_fallback" || subtype.isText "model_fallback" ||
      subtype.isText "model_consent_fallback") && !(message.get "scope").isText "local" then
    let revert := (message.get "direction").isText "revert"
    match ((message.get (if revert then "original_model" else "fallback_model")).asStr).or
      (message.get (if revert then "originalModel" else "fallbackModel")).asStr with
    | some model =>
      ([{ about := [], event := .modelSelection (some model) s.control.effort.desired }],
        { s with appliedModel := some model })
    | none => ([], s)
  else ([], s)

def onResult (now : ℕ) : List Notice × Session Choice Form :=
  let (events, control) := s.control.finishTurn
  let s := { s with control, turn := .idle }
  (events, (s.requestContextComposition now).2)

def onCancelRequest (id : Str) : List Notice × Session Choice Form :=
  let (retired, dialogs) := s.control.dialogs.retire id
  let (prompts, control) := { s.control with dialogs }.cancelPrompt id
  ((retired.map fun _ => { about := [], event := .inputExpired id }).toList ++ prompts, { s with control })

/-! ## Timeouts and the end -/

def cancelledMessage : Str :=
  "Claude request expired before writing and was cancelled; it was not sent.".toList

def batchMessage (message : Str) : Str := message ++ (" The entire settings-and-prompt batch was " ++
  "cancelled. Reopen the session before retrying.").toList

def close (message : Str) : List Notice × Session Choice Form :=
  let (events, control, stdin) := s.control.close message s.process.stdin
  (events, { s with control, process := { s.process with stdin } })

def cancelInput (input : Option InputTicket) : Bool × Session Choice Form :=
  match input with
  | some input =>
    let (cancelled, stdin) := s.process.stdin.cancel input
    (cancelled, { s with process := { s.process with stdin } })
  | none => (false, s)

def expiryMessage (expired : ExpiredControl) (cancelled : Bool) : Str :=
  if cancelled then cancelledMessage else expired.requestClass.timeoutMessage "Claude".toList

/-- What the loop does for a request that does not close the session. -/
def settleOne (expired : ExpiredControl) (cancelled : Bool) (control : ControlState Choice Form) :
    List Notice × ControlState Choice Form :=
  let message := expiryMessage expired cancelled
  let (effort, control) := if cancelled then (none, control) else control.expireEffort expired.id
  match effort with
  | some effort => (effort ++ [{ about := [expired.id], event := .error message false }], control)
  | none => control.failExpired expired message

/-- The loop over the requests that ran out of time. -/
def settleExpired : List ExpiredControl → Session Choice Form → List Notice × Session Choice Form
  | [], s => ([], s)
  | expired :: rest, s =>
    let (cancelled, s) := s.cancelInput expired.input
    let message := expiryMessage expired cancelled
    if cancelled && expired.input.any (·.batch) then
      let (events, s) := { s with process := s.process.abort }.close message
      (events ++ [{ about := [], event := .error (batchMessage message) true }], s)
    else if expired.operation = .init then
      let (events, s) := s.close message
      (events ++ [{ about := [expired.id], event := .error message true }], s)
    else
      let (settled, control) := settleOne expired cancelled s.control
      let (events, s) := settleExpired rest { s with control }
      (settled ++ events, s)

def pollTimeouts (now : ℕ) : List Notice × Session Choice Form :=
  let (expired, control) := s.control.expired now
  settleExpired expired { s with control }

def onExit : List Notice × Session Choice Form :=
  { s with ready := false, turn := .idle }.close
    "Claude exited before the control request completed.".toList

def shutdown (force : Bool) : List Notice × Session Choice Form :=
  let (events, s) := if force then s.onExit else ([], s)
  (events, { s with process := { s.process with stdin := s.process.stdin.dropSender } })

/-! ## One message -/

def onMessage (configured : Option Str) (message : Json) (now : ℕ) : List Notice × Session Choice Form :=
  let type := message.get "type"
  if type.isText "system" then s.onSystem message now
  else if type.isText "result" then s.onResult now
  else if type.isText "control_request" then s.onControlRequest message
  else if type.isText "control_response" then s.onControlResponse configured message now
  else if type.isText "control_cancel_request" then
    match (message.get "request_id").asStr with
    | some id => s.onCancelRequest id
    | none => ([], s)
  else ([], s)

/-- `process`, for one line of the CLI or one of the program's own notifications. -/
def handle (configured : Option Str) (message : Json) (now : ℕ) : List Notice × Session Choice Form :=
  if s.control.closed then ([], s)
  else if (message.get "method").isText timeoutMethod then s.pollTimeouts now
  else if (message.get "method").isText progressMethod then ([], s)
  else { s with turn := s.turn.observe message }.onMessage configured message now

end Session

/-! ## What a write does -/

namespace Session

/-- The session takes lines of the CLI, and its own lines are accepted. -/
structure Connected (s : Session Choice Form) : Prop where
  opened : s.control.closed = false
  accepts : s.process.Accepts

variable {s : Session Choice Form}

theorem trySend_cases (s : Session Choice Form) (message : Json) :
    (s.Connected ∧ ∃ process, s.trySend message = (.ok (), { s with process }) ∧ process.Accepts ∧
      process.written = s.process.written ++ [message]) ∨
    (¬ s.Connected ∧ ∃ error process, s.trySend message = (.error error, { s with process }) ∧
      ¬ ({ s with process } : Session Choice Form).Connected) := by
  unfold trySend
  by_cases hc : s.control.closed
  · refine .inr ⟨fun h => absurd h.opened (by simp [hc]), "Claude is not connected".toList, s.process, ?_,
      fun h => ?_⟩
    · rw [if_pos hc]
    · exact absurd h.opened (by simp [hc])
  rw [if_neg hc]
  rcases s.process.writeLine_cases isUser message with ⟨ha, p, hw, ha', hp⟩ | ⟨ha, p, hw, ha', -⟩
  · exact .inl ⟨⟨by simpa using hc, ha⟩, p, by rw [hw], ha', hp⟩
  · exact .inr ⟨fun h => ha h.accepts, "input closed".toList, p, by rw [hw], fun h => ha' h.accepts⟩

/-- A request is written and put in the table, or the session is not connected. -/
theorem admitControl_cases (s : Session Choice Form) (request : Json) (requestClass : RequestClass)
    (operation : Str → PendingControlOperation) (now : ℕ) :
    (s.Connected ∧ ∃ process ticket, process.Accepts ∧ ticket.batch = false ∧
      process.written = s.process.written ++ [(s.control.request request).1.2] ∧
      s.admitControl request requestClass operation now =
        (.ok (requestId s.control.nextId), { s with
          process
          control := (s.control.request request).2.admitEntry (requestId s.control.nextId) requestClass
            (some ticket) (operation (requestId s.control.nextId)) now })) ∨
    (¬ s.Connected ∧ ∃ error process nextId, s.control.nextId ≤ nextId ∧
      s.admitControl request requestClass operation now =
        (.error error, { s with process, control := { s.control with nextId } }) ∧
      ¬ ({ s with process } : Session Choice Form).Connected) := by
  unfold admitControl ControlState.checkConnected
  by_cases hc : s.control.closed
  · refine .inr ⟨fun h => absurd h.opened (by simp [hc]), "Claude is not connected".toList, s.process,
      s.control.nextId, le_refl _, ?_, fun h => ?_⟩
    · rw [if_pos hc]
    · exact absurd h.opened (by simp [hc])
  rw [if_neg hc]
  rcases s.process.writeTracked_cases isUser [(s.control.request request).1.2] (by simp) with
    ⟨ha, ticket, p, hw, ha', hp, hb⟩ | ⟨ha, p, hw, ha', -⟩
  · refine .inl ⟨⟨by simpa using hc, ha⟩, p, ticket, ha', ?_, hp, ?_⟩
    · rw [hb]
      simp [isUser, ControlState.request, Json.isText]
    simp only [hw]
    rfl
  · refine .inr ⟨fun h => ha h.accepts, "input closed".toList, p, s.control.nextId + 1, Nat.le_succ _, ?_,
      fun h => ha' h.accepts⟩
    simp only [hw]
    rfl

theorem numberRequests_snd (requests : List Json) (c : ControlState Choice Form) :
    (numberRequests requests c).2 = { c with nextId := c.nextId + requests.length } := by
  induction requests generalizing c with
  | nil => rfl
  | cons request rest ih =>
    rw [numberRequests]
    simp only [ih, length_cons]
    rw [show (c.request request).2 = { c with nextId := c.nextId + 1 } from rfl]
    simp only [Nat.add_assoc, Nat.add_comm 1]

theorem numberRequests_ids (requests : List Json) (c : ControlState Choice Form) :
    (numberRequests requests c).1.map (·.1) = (List.range' c.nextId requests.length).map requestId := by
  induction requests generalizing c with
  | nil => rfl
  | cons request rest ih =>
    rw [numberRequests, length_cons, range'_succ]
    simp only [map_cons, ih]
    rfl

/-- Every numbered request is one of the channel's. -/
theorem mem_numberRequests {requests : List Json} {c : ControlState Choice Form} {message : Str × Json}
    (h : message ∈ (numberRequests requests c).1) :
    ∃ (c' : ControlState Choice Form) (request : Json), message = (c'.request request).1 := by
  induction requests generalizing c with
  | nil => cases h
  | cons request rest ih =>
    rw [numberRequests] at h
    rcases mem_cons.mp h with rfl | h
    · exact ⟨c, request, rfl⟩
    · exact ih h

end Session

/-! ## Runs of a session -/

inductive Call
  | handle (configured : Option Str) (message : Json) (now : ℕ)
  | sendUserMessage (text : Str) (settings : ThreadSettings) (images : List MessageImage) (now : ℕ)
  | executeSlashCommand (name arguments : Str)
  | requestContextComposition (now : ℕ)
  | requestSessionTitle (description : Str) (now : ℕ)
  | renameSession (title : Str) (now : ℕ)
  | askSideQuestion (question : Str) (history : List (Str × Str)) (now : ℕ)
  | cancelSideQuestion (id : Str)
  | rewindFiles (userMessageId : Str) (now : ℕ)
  | interrupt (now : ℕ)
  | interruptBackgroundTask (taskId : Str) (now : ℕ)
  | respondApproval (decision : Str) (now : ℕ)
  | respondInput (id : Str) (answers : Option (List QuestionAnswer))
  | declineInput (id : Str)
  | pollTimeouts (now : ℕ)
  | onExit
  | shutdown (force : Bool)
  /-- The writer takes the next batch. -/
  | recv
  /-- The writer ends. -/
  | writerStopped
  /-- Another task ends the process tree. -/
  | kill
  | rehash (order : List (Str × PendingControl))

variable [ChoiceDialog Choice] [Elicitation Form]

def Session.perform (s : Session Choice Form) : Call → List Notice × Session Choice Form
  | .handle configured message now => s.handle configured message now
  | .sendUserMessage text settings images now => ([], (s.sendUserMessage text settings images now).2)
  | .executeSlashCommand name arguments => ([], (s.executeSlashCommand name arguments).2)
  | .requestContextComposition now => ([], (s.requestContextComposition now).2)
  | .requestSessionTitle description now => ([], (s.requestSessionTitle description now).2)
  | .renameSession title now => ([], (s.renameSession title now).2)
  | .askSideQuestion question history now => ([], (s.askSideQuestion question history now).2)
  | .cancelSideQuestion id => ([], s.cancelSideQuestion id)
  | .rewindFiles userMessageId now => ([], (s.rewindFiles userMessageId now).2)
  | .interrupt now => ([], (s.interrupt now).2)
  | .interruptBackgroundTask taskId now => ([], (s.interruptBackgroundTask taskId now).2)
  | .respondApproval decision now => ([], (s.respondApproval decision now).2)
  | .respondInput id answers => ([], (s.respondInput id answers).2)
  | .declineInput id => ([], (s.declineInput id).2)
  | .pollTimeouts now => s.pollTimeouts now
  | .onExit => s.onExit
  | .shutdown force => s.shutdown force
  | .recv => ([], { s with process := { s.process with stdin := s.process.stdin.recv.2 } })
  | .writerStopped => ([], { s with process := { s.process with stdin := s.process.stdin.dropReceiver } })
  | .kill => ([], { s with process := { s.process with killed := true } })
  | .rehash order => ([], { s with control := { s.control with pending := order } })

/-- A call with its events and the requests it put in the table. -/
structure Move where
  call : Call
  notices : List Notice
  opened : List (Str × PendingControlOperation)

/-- The entries of the table after a call that were not there before it. -/
def Session.opened (s s' : Session Choice Form) : List (Str × PendingControlOperation) :=
  (s'.control.pending.filter fun entry => entry.1 ∉ s.control.pending.map (·.1)).map fun entry =>
    (entry.1, entry.2.operation)

/-- The order of a table's entries may change, and nothing else about it. -/
def Session.Feasible (s : Session Choice Form) : Call → Prop
  | .rehash order => order.Perm s.control.pending
  | _ => True

def sessions : System (Session Choice Form) Move where
  init s := ∃ model approval effort now, s = .spawn model approval effort now
  step s move s' := s.Feasible move.call ∧ s.perform move.call = (move.notices, s') ∧
    move.opened = s.opened s'

def Session.move (s : Session Choice Form) (call : Call) : Move where
  call := call
  notices := (s.perform call).1
  opened := s.opened (s.perform call).2

def Session.after (s : Session Choice Form) (calls : List Call) : Session Choice Form :=
  calls.foldl (fun s call => (s.perform call).2) s

def Session.moves : Session Choice Form → List Call → List Move
  | _, [] => []
  | s, call :: rest => s.move call :: (s.perform call).2.moves rest

theorem Session.calls_moves (s : Session Choice Form) (calls : List Call) :
    (s.moves calls).map (·.call) = calls := by
  induction calls generalizing s with
  | nil => rfl
  | cons call rest ih => rw [moves, map_cons, ih, move]

/-- Every one of the calls may be made in its turn. -/
def Session.Allows (allowed : Session Choice Form → Call → Prop) : Session Choice Form → List Call → Prop
  | _, [] => True
  | s, call :: rest => (allowed s call ∧ s.Feasible call) ∧ (s.perform call).2.Allows allowed rest

theorem run_calls {allowed : Session Choice Form → Call → Prop} {moves : List Move}
    {s : Session Choice Form} (calls : List Call)
    (h : Run (sessions.restrict fun s (move : Move) => allowed s move.call) moves s)
    (hc : s.Allows allowed calls) :
    Run (sessions.restrict fun s (move : Move) => allowed s move.call) (moves ++ s.moves calls)
      (s.after calls) := by
  induction calls generalizing moves s with
  | nil => rwa [Session.moves, append_nil]
  | cons call rest ih =>
    have hs : (sessions.restrict fun s (move : Move) => allowed s move.call).step s (s.move call)
        (s.perform call).2 := ⟨hc.1.1, hc.1.2, rfl, rfl⟩
    have := ih (h.step hs) hc.2
    rwa [append_assoc] at this

end NiumaTerm.ClaudeCode
