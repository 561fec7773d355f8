import Mathlib.Algebra.GroupWithZero.Nat
import NiumaTerm.Lib.Json
import NiumaTerm.Subprocess.Process

/-!
# The control channel of a Claude Code session

`ControlState` keeps the requests sent to the CLI until they are answered or expire, and the prompts of
the CLI that the user has not answered.  The parsing of dialogs and forms is a parameter.  Nothing reads
a `Notice` or `EffortState.applied`: they tell what happened.
-/

namespace NiumaTerm.ClaudeCode

open Rust Subprocess

/-! ## Events -/

inductive QuestionInput
  | selectionOnly
  | text
  | secret
deriving DecidableEq

structure QuestionOption where
  label : Str
  description : Option Str
deriving DecidableEq

structure Question where
  header : Option Str
  question : Str
  multiSelect : Bool
  options : List QuestionOption
  input : QuestionInput
deriving DecidableEq

structure QuestionAnswer where
  selected : List Str
  custom : Option Str

def QuestionAnswer.values (answer : QuestionAnswer) : List Str := answer.selected ++ answer.custom.toList

inductive QuestionMode
  | blocking
  | form
  | dialog

structure QuestionRequest where
  id : Str
  mode : QuestionMode
  questions : List Question

structure ThreadSettings where
  model : Option Str
  approval : Option Str
  effort : Option Str

structure ContextSegment where
  label : Str
  tokens : ℕ
  color : Option Str
  deferred : Bool
deriving DecidableEq

structure ContextComposition where
  usedTokens : ℕ
  maxTokens : Option ℕ
  rawMaxTokens : Option ℕ
  autoCompactThreshold : Option ℕ
  segments : List ContextSegment
deriving DecidableEq

inductive Event
  | ready (settings : ThreadSettings)
  | modelSelection (model effort : Option Str)
  | inputRequested (question : QuestionRequest)
  /-- `InputResolved` with the resolution `Expired`. -/
  | inputExpired (id : Str)
  | approvalRequested (description : Str)
  | approvalResolved
  | error (message : Str) (fatal : Bool)
  | fileRewindCompleted (error : Option Str)
  | contextCompositionUpdated (composition : ContextComposition)
  | titleUpdated (title : Str)
  | sideQuestionAnswered (id : Str) (answer : Except Str Str)
  | effortRejected (message : Str) (effort : Option Str)

structure Notice where
  about : List Str
  event : Event

/-! ## Effort changes -/

inductive ChangeResult
  | applied
  | rejected (error : Str)
  | unknown
deriving DecidableEq

structure Change where
  id : Str
  value : Str
  result : Option ChangeResult

structure EffortState where
  confirmed : Option Str
  unconfirmed : Option Str
  pending : List Change
  applied : List Str

namespace EffortState

def new (confirmed : Option Str) : EffortState where
  confirmed := confirmed
  unconfirmed := none
  pending := []
  applied := []

def desired (e : EffortState) : Option Str :=
  (e.pending.getLast?.map (·.value)).or (e.unconfirmed.or e.confirmed)

def record (e : EffortState) (id value : Str) : EffortState :=
  { e with pending := e.pending ++ [{ id, value, result := none }] }

def contains (e : EffortState) (id : Str) : Bool := e.pending.any fun change => change.id = id

/-- The loop of `settle`, on what is left of the queue: the rejected changes with their errors. -/
def pop (e : EffortState) : List Change → List (Str × Str) × EffortState
  | [] => ([], { e with pending := [] })
  | change :: rest =>
    match change.result with
    | none => ([], { e with pending := change :: rest })
    | some .applied =>
      pop { e with confirmed := some change.value, unconfirmed := none,
                   applied := e.applied ++ [change.id] } rest
    | some (.rejected error) =>
      let (errors, e) := pop e rest
      ((change.id, error) :: errors, e)
    | some .unknown => pop { e with unconfirmed := some change.value } rest

def settle (e : EffortState) : Option Notice × EffortState :=
  match e.pop e.pending with
  | ([], e) => (none, e)
  | (errors, e) =>
    (some { about := errors.map (·.1),
            event := .effortRejected (List.intercalate "; ".toList (errors.map (·.2))) e.desired }, e)

def setResult (id : Str) (result : ChangeResult) : List Change → List Change
  | [] => []
  | change :: rest =>
    if change.id = id then { change with result := some result } :: rest
    else change :: setResult id result rest

/-- The part `resolve` and `expire` share: a change that has a result keeps it. -/
def conclude (e : EffortState) (id : Str) (result : ChangeResult) : Option Notice × EffortState :=
  match e.pending.find? fun change => change.id = id with
  | none => (none, e)
  | some change =>
    if change.result.isSome then (none, e)
    else { e with pending := setResult id result e.pending }.settle

def resolve (e : EffortState) (id : Str) (error : Option Str) : Option Notice × EffortState :=
  e.conclude id (error.elim .applied .rejected)

def expire (e : EffortState) (id : Str) : Option Notice × EffortState := e.conclude id .unknown

def close (e : EffortState) (message : Str) : Option Notice × EffortState :=
  let close (change : Change) : Change :=
    { change with result := change.result.or (some (.rejected message)) }
  { e with pending := e.pending.map close }.settle

end EffortState

/-! ## The prompts of the CLI -/

/-- Dialogs with a choice among listed options.  One can always be dismissed. -/
class ChoiceDialog (Choice : Type) where
  parse : Str → Json → Except Str (Option Choice)
  questions : Choice → List Question
  respond : Choice → Option (List QuestionAnswer) → Except Str Json
  respond_none : ∀ dialog, respond dialog none = .ok (.object [("behavior", .text "cancelled")])

/-- Forms with fields of a schema.  One can always be dismissed. -/
class Elicitation (Form : Type) where
  parse : Json → Except Str Form
  questions : Form → List Question
  respond : Form → Option (List QuestionAnswer) → Except Str Json
  respond_none : ∀ form, respond form none = .ok (.object [("action", .text "cancel")])

inductive Dialog (Choice Form : Type)
  | choice (dialog : Choice)
  | form (form : Form)

variable {Choice Form : Type}

section

variable [ChoiceDialog Choice] [Elicitation Form]

namespace Dialog

def parse (request : Json) : Except Str (Option (Dialog Choice Form)) :=
  if (request.get "subtype").isText "request_user_dialog" then
    match (request.get "dialog_kind").asStr with
    | none => .error "Claude sent a dialog without a type.".toList
    | some kind =>
      (ChoiceDialog.parse kind (request.get "payload")).map fun dialog => dialog.map .choice
  else if (request.get "subtype").isText "elicitation" then
    (Elicitation.parse request).map fun f => some (.form f)
  else .ok none

def request (id : Str) : Dialog Choice Form → QuestionRequest
  | .choice c => { id, mode := .dialog, questions := ChoiceDialog.questions c }
  | .form f => { id, mode := .form, questions := Elicitation.questions f }

def respond (answers : Option (List QuestionAnswer)) : Dialog Choice Form → Except Str Json
  | .choice c => ChoiceDialog.respond c answers
  | .form f => Elicitation.respond f answers

theorem respond_none (dialog : Dialog Choice Form) : ∃ response, dialog.respond none = .ok response := by
  cases dialog with
  | choice c => exact ⟨_, ChoiceDialog.respond_none c⟩
  | form f => exact ⟨_, Elicitation.respond_none f⟩

end Dialog

end

/-- `pending` is a map, `retired` a set. -/
structure Dialogs (Choice Form : Type) where
  pending : List (Str × Dialog Choice Form)
  retired : List Str

namespace Dialogs

def receive [ChoiceDialog Choice] [Elicitation Form] (d : Dialogs Choice Form) (id : Str) (request : Json) :
    Except Str (Option QuestionRequest) × Dialogs Choice Form :=
  if id.isEmpty then (.error "Claude sent a dialog without a request ID.".toList, d)
  else if (d.pending.lookup id).isSome || id ∈ d.retired then (.ok none, d)
  else
    match Dialog.parse request with
    | .error error => (.error error, d)
    | .ok none =>
      (.error ("This Claude dialog is not supported: ".toList ++
        (request.get "dialog_kind").asStr.getD "unknown".toList ++ ".".toList), d)
    | .ok (some dialog) =>
      (.ok (some (dialog.request id)), { d with pending := d.pending ++ [(id, dialog)] })

def contains (d : Dialogs Choice Form) (id : Str) : Bool := (d.pending.lookup id).isSome

def respond [ChoiceDialog Choice] [Elicitation Form] (d : Dialogs Choice Form) (id : Str)
    (answers : Option (List QuestionAnswer)) : Except Str Json :=
  match d.pending.lookup id with
  | none => .error "This dialog is no longer pending.".toList
  | some dialog => dialog.respond answers

def decline (d : Dialogs Choice Form) (id : Str) : Except Str Json :=
  match d.pending.lookup id with
  | some (.form _) => .ok (.object [("action", .text "decline")])
  | _ => .error "This request cannot be declined as a form.".toList

def retire (d : Dialogs Choice Form) (id : Str) : Option Unit × Dialogs Choice Form :=
  match d.pending.lookup id with
  | none => (none, d)
  | some _ =>
    (some (), { pending := d.pending.filter fun entry => entry.1 ≠ id, retired := d.retired.insert id })

def finish (d : Dialogs Choice Form) : List Str × Dialogs Choice Form :=
  (d.pending.map (·.1), { pending := [], retired := d.pending.map (·.1) ++ d.retired })

end Dialogs

structure PendingApproval where
  requestId : Str
  input : Json
  suggestions : Option Json

structure PendingQuestions where
  requestId : Str
  input : Json
  questions : List Question

def parseOption (option : Json) : Option QuestionOption :=
  (option.get "label").asStr.map fun label => { label, description := (option.get "description").asStr }

def parseQuestion (question : Json) : Option Question :=
  match (question.get "options").asArray with
  | none => none
  | some options =>
    let options := options.filterMap parseOption
    if options.length < 2 then none
    else
      (question.get "question").asStr.map fun text =>
        { header := (question.get "header").asStr, question := text,
          multiSelect := (question.get "multiSelect").asBool.getD false, options, input := .text }

/-- Questions that cannot be answered by picking are dropped. -/
def parseQuestions (input : Json) : List Question :=
  ((input.get "questions").asArray.getD []).filterMap parseQuestion

def mergeQuestionAnswers (input : Json) (questions : List Question) (answers : List QuestionAnswer) :
    Json :=
  let answered := (questions.zip answers).foldl (fun answered entry =>
    match entry.2.values with
    | [] => answered
    | label :: labels =>
      Json.setMember (String.ofList entry.1.question)
        (if entry.1.multiSelect then .array ((label :: labels).map .string) else .string label) answered) []
  input.set "answers" (.object answered)

/-! ## The control state -/

inductive PendingControlOperation
  | init
  | effort
  | other
  | fileRewind
  | contextComposition
  | sessionTitle
  | sideQuestion (id : Str)
deriving DecidableEq

structure PendingControl where
  expiresAt : ℕ
  requestClass : RequestClass
  input : Option InputTicket
  operation : PendingControlOperation

structure ExpiredControl where
  id : Str
  requestClass : RequestClass
  input : Option InputTicket
  operation : PendingControlOperation

/-- An entry of the table without its deadline. -/
def ExpiredControl.ofEntry (entry : Str × PendingControl) : ExpiredControl where
  id := entry.1
  requestClass := entry.2.requestClass
  input := entry.2.input
  operation := entry.2.operation

structure ControlState (Choice Form : Type) where
  nextId : ℕ
  closed : Bool
  pending : List (Str × PendingControl)
  effort : EffortState
  pendingApproval : Option PendingApproval
  pendingQuestions : Option PendingQuestions
  dialogs : Dialogs Choice Form

def controlResponseError (response : Json) : Option Str :=
  if (response.get "subtype").isText "success" then none
  else if (response.get "subtype").isText "error" then
    some ((response.get "error").asStr.getD "unknown Claude control error".toList)
  else some "Claude returned a malformed control response.".toList

/-- `str::trim` of a text that is not blank. -/
def nonBlank (value : Json) : Option Str :=
  (value.asStr.map trim).filter fun text => !text.isEmpty

def sideQuestionAnswer (payload : Json) : Except Str Str :=
  match nonBlank (payload.get "response") with
  | some answer => .ok answer
  | none => .error "Claude returned no answer to the side question.".toList

def nonUsageCategories : List Str :=
  ["Free space".toList, "Autocompact buffer".toList, "Compact buffer".toList]

def contextSegment (category : Json) : Option ContextSegment :=
  match (category.get "tokens").asU64, (category.get "name").asStr with
  | some tokens, some name =>
    if name ∈ nonUsageCategories then none
    else some { label := name, tokens, color := (category.get "color").asStr,
                deferred := (category.get "isDeferred").asBool.getD false }
  | _, _ => none

def parseContextComposition (payload : Json) : Option ContextComposition :=
  match (payload.get "categories").asArray with
  | none => none
  | some categories =>
    let segments := categories.filterMap contextSegment
    if segments.isEmpty then none
    else
      let limit (name : String) := (payload.get name).asU64.filter fun max => 0 < max
      some { usedTokens := (payload.get "totalTokens").asU64.getD (segments.map (·.tokens)).sum
             maxTokens := limit "maxTokens"
             rawMaxTokens := limit "rawMaxTokens"
             autoCompactThreshold := limit "autoCompactThreshold"
             segments }

def operationResolved (operation : PendingControlOperation) (response : Json) : Option Event :=
  let error := controlResponseError response
  match operation with
  | .init | .effort => none
  | .other => error.map fun message => .error message false
  | .fileRewind => some (.fileRewindCompleted error)
  | .contextComposition =>
    if error.isNone then
      (parseContextComposition (response.get "response")).map .contextCompositionUpdated
    else none
  | .sessionTitle =>
    if error.isNone then (nonBlank ((response.get "response").get "title")).map .titleUpdated
    else none
  | .sideQuestion question =>
    some (.sideQuestionAnswered question
      (error.elim (sideQuestionAnswer (response.get "response")) .error))

/-- The event for one operation that gets no answer any more. -/
def failPendingControlOperation (message : Str) : PendingControlOperation → Option Event
  | .init | .effort | .other | .contextComposition | .sessionTitle => none
  | .fileRewind => some (.fileRewindCompleted (some message))
  | .sideQuestion question => some (.sideQuestionAnswered question (.error message))

def failPendingControlOperations (operations : List (Str × PendingControlOperation))
    (message : Str) : List Notice :=
  operations.filterMap fun (id, operation) =>
    (failPendingControlOperation message operation).map fun event => { about := [id], event }

def requestId (n : ℕ) : Str := "nmt-".toList ++ Nat.toDigits 10 n

namespace ControlState

def withEffort (value : Option Str) : ControlState Choice Form where
  nextId := 1
  closed := false
  pending := []
  effort := .new value
  pendingApproval := none
  pendingQuestions := none
  dialogs := { pending := [], retired := [] }

variable (c : ControlState Choice Form)

def checkConnected : Except Str Unit :=
  if c.closed then .error "Claude is not connected".toList else .ok ()

def admitEntry (id : Str) (requestClass : RequestClass) (input : Option InputTicket)
    (operation : PendingControlOperation) (now : ℕ) : ControlState Choice Form :=
  if c.closed then c
  else
    { c with pending := (c.pending.filter fun entry => entry.1 ≠ id) ++
        [(id, { expiresAt := now + requestClass.timeout, requestClass, input, operation })] }

def complete (id : Str) : ControlState Choice Form :=
  { c with pending := c.pending.filter fun entry => entry.1 ≠ id }

def expired (now : ℕ) : List ExpiredControl × ControlState Choice Form :=
  ((c.pending.filter fun entry => entry.2.expiresAt ≤ now).map ExpiredControl.ofEntry,
    { c with pending := c.pending.filter fun entry => now < entry.2.expiresAt })

def expireEffort (id : Str) : Option (List Notice) × ControlState Choice Form :=
  if c.effort.contains id then
    let (event, effort) := c.effort.expire id
    (some event.toList, { c with effort })
  else (none, c)

def failExpired (expired : ExpiredControl) (message : Str) : List Notice × ControlState Choice Form :=
  let (events, c) :=
    if c.effort.contains expired.id then
      let (event, effort) := c.effort.resolve expired.id (some message)
      (event.toList, { c with effort })
    else (failPendingControlOperations [(expired.id, expired.operation)] message, c)
  (if events.isEmpty then [{ about := [expired.id], event := .error message false }] else events, c)

def recordEffort (id value : Str) : ControlState Choice Form :=
  if c.closed then c
  else
    let mark (entry : Str × PendingControl) : Str × PendingControl :=
      if entry.1 = id then (entry.1, { entry.2 with operation := .effort }) else entry
    { c with pending := c.pending.map mark, effort := c.effort.record id value }

def request (request : Json) : (Str × Json) × ControlState Choice Form :=
  ((requestId c.nextId, .object [("type", .text "control_request"),
      ("request_id", .string (requestId c.nextId)), ("request", request)]),
    { c with nextId := c.nextId + 1 })

def contains (operation : PendingControlOperation) : Bool :=
  c.pending.any fun entry => entry.2.operation = operation

def resolve (response : Json) : Option Notice × ControlState Choice Form :=
  match (response.get "request_id").asStr with
  | none => (none, c)
  | some id =>
    let pending := c.pending.lookup id
    let c := c.complete id
    if c.effort.contains id then
      let (event, effort) := c.effort.resolve id (controlResponseError response)
      (event, { c with effort })
    else
      (pending.bind fun pending => (operationResolved pending.operation response).map fun event =>
        { about := [id], event }, c)

/-- The queue whose input these requests may still be waiting in loses it. -/
def cancelInputs (stdin : Queue Json) (inputs : List InputTicket) : Queue Json :=
  inputs.foldl (fun stdin input => (stdin.cancel input).2) stdin

def cancelGeneratedTitle (stdin : Queue Json) : ControlState Choice Form × Queue Json :=
  let isTitle (entry : Str × PendingControl) : Bool := entry.2.operation = .sessionTitle
  ({ c with pending := c.pending.filter fun entry => !isTitle entry },
    cancelInputs stdin ((c.pending.filter isTitle).filterMap fun entry => entry.2.input))

def cancelPrompt (id : Str) : List Notice × ControlState Choice Form :=
  let approval := c.pendingApproval.any fun pending => pending.requestId = id
  let questions := c.pendingQuestions.any fun pending => pending.requestId = id
  ((if approval then [{ about := [], event := .approvalResolved }] else []) ++
      (if questions then [{ about := [], event := .inputExpired id }] else []),
    { c with pendingApproval := if approval then none else c.pendingApproval,
             pendingQuestions := if questions then none else c.pendingQuestions })

def finishTurn : List Notice × ControlState Choice Form :=
  let (ids, dialogs) := c.dialogs.finish
  let expired (id : Str) : Notice := { about := [], event := .inputExpired id }
  (ids.map expired ++ (c.pendingApproval.map fun _ => { about := [], event := .approvalResolved }).toList ++
      (c.pendingQuestions.map fun pending => expired pending.requestId).toList,
    { c with dialogs, pendingApproval := none, pendingQuestions := none })

def close (message : Str) (stdin : Queue Json) :
    List Notice × ControlState Choice Form × Queue Json :=
  let stdin := cancelInputs stdin
    ((c.pending.filter fun entry => entry.2.requestClass ≠ .control).filterMap fun entry => entry.2.input)
  let operations := c.pending.map fun entry => (entry.1, entry.2.operation)
  let (prompts, c) := { c with closed := true, pending := [] }.finishTurn
  let (rejected, effort) := c.effort.close message
  (prompts ++ rejected.toList ++ failPendingControlOperations operations message,
    { c with effort }, stdin)

/-- The prompts of the CLI are as before. -/
structure SamePrompts (c c' : ControlState Choice Form) : Prop where
  closed : c'.closed = c.closed
  approval : c'.pendingApproval = c.pendingApproval
  questions : c'.pendingQuestions = c.pendingQuestions
  dialogs : c'.dialogs = c.dialogs

variable {c} {c' c'' : ControlState Choice Form}

theorem SamePrompts.refl : c.SamePrompts c := ⟨rfl, rfl, rfl, rfl⟩

theorem SamePrompts.trans (h : c.SamePrompts c') (h' : c'.SamePrompts c'') : c.SamePrompts c'' :=
  ⟨h'.closed.trans h.closed, h'.approval.trans h.approval, h'.questions.trans h.questions,
    h'.dialogs.trans h.dialogs⟩

theorem samePrompts_admitEntry {id : Str} {requestClass : RequestClass} {input : Option InputTicket}
    {operation : PendingControlOperation} {now : ℕ} :
    c.SamePrompts (c.admitEntry id requestClass input operation now) := by
  unfold admitEntry
  split <;> exact ⟨rfl, rfl, rfl, rfl⟩

theorem samePrompts_recordEffort {id value : Str} : c.SamePrompts (c.recordEffort id value) := by
  unfold recordEffort
  split <;> exact ⟨rfl, rfl, rfl, rfl⟩

theorem samePrompts_resolve {response : Json} : c.SamePrompts (c.resolve response).2 := by
  unfold resolve
  split
  · exact .refl
  · dsimp only
    split <;> exact ⟨rfl, rfl, rfl, rfl⟩

theorem samePrompts_expireEffort {id : Str} : c.SamePrompts (c.expireEffort id).2 := by
  unfold expireEffort
  split <;> exact ⟨rfl, rfl, rfl, rfl⟩

theorem samePrompts_failExpired {expired : ExpiredControl} {message : Str} :
    c.SamePrompts (c.failExpired expired message).2 := by
  unfold failExpired
  by_cases h : c.effort.contains expired.id
  · rw [if_pos h]
    exact ⟨rfl, rfl, rfl, rfl⟩
  · rw [if_neg h]
    exact ⟨rfl, rfl, rfl, rfl⟩

end ControlState

end NiumaTerm.ClaudeCode
