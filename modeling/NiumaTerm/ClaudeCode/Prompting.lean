import NiumaTerm.ClaudeCode.Session

/-!
# What a call does to the prompts

A request of the CLI is refused at once, or held until the user answers it, the CLI cancels it, or its
turn ends.  `Session.Prompting` says what one call does to the requests held and the replies written.
-/

namespace NiumaTerm.ClaudeCode

open Rust Subprocess List

variable {Choice Form : Type}

/-! ## What the CLI waits for -/

/-- A line of the CLI, and none of the program's own notifications. -/
def Call.line : Call → Option Json
  | .handle _ message _ =>
    if (message.get "method").isText timeoutMethod || (message.get "method").isText progressMethod then none
    else some message
  | _ => none

/-- The id of the request that a call brings. -/
def Call.asks (call : Call) : Option Str :=
  call.line.bind fun message =>
    if (message.get "type").isText "control_request" then some (controlRequestId message) else none

def Call.cancels (call : Call) : Option Str :=
  call.line.bind fun message =>
    if (message.get "type").isText "control_cancel_request" then (message.get "request_id").asStr else none

def Call.endsTurn (call : Call) : Bool := call.line.any fun message => (message.get "type").isText "result"

def asked (calls : List Call) : List Str := calls.filterMap Call.asks

/-- One call's effect on the requests of the current turn that were not cancelled. -/
def stillOpen (ids : List Str) (call : Call) : List Str :=
  if call.endsTurn then []
  else (ids.filter fun id => call.cancels ≠ some id) ++ call.asks.toList

def openRequests (calls : List Call) : List Str := calls.foldl stillOpen []

/-! ## What the session holds and what it replied -/

def isReplyTo (id : Str) (message : Json) : Bool :=
  (message.get "type").isText "control_response" &&
    ((message.get "response").get "request_id").asStr = some id

namespace Session

def replies (s : Session Choice Form) (id : Str) : ℕ := s.process.written.countP (isReplyTo id)

def heldIds (s : Session Choice Form) : List Str :=
  (s.control.pendingApproval.map (·.requestId)).toList ++
    (s.control.pendingQuestions.map (·.requestId)).toList ++ s.control.dialogs.pending.map (·.1)

def Holds (s : Session Choice Form) (id : Str) : Prop := id ∈ s.heldIds

instance (s : Session Choice Form) (id : Str) : Decidable (s.Holds id) :=
  inferInstanceAs (Decidable (id ∈ s.heldIds))

end Session

def wantsTool (request : Json) : Bool :=
  !isDialogRequest request && (request.get "subtype").isText "can_use_tool"

def asksQuestions (request : Json) : Bool :=
  (request.get "tool_name").asStr.getD "tool".toList = "AskUserQuestion".toList

def wantsApproval (request : Json) : Bool := wantsTool request && !asksQuestions request

/-- The request is shown as questions. -/
def wantsAnswers (request : Json) : Bool :=
  wantsTool request && asksQuestions request && !(parseQuestions (request.get "input")).isEmpty

/-- No request comes whose slot another one has. -/
def Session.Roomy (s : Session Choice Form) (call : Call) : Prop :=
  ∀ message, call.line = some message → (message.get "type").isText "control_request" = true →
    (wantsApproval (message.get "request") = true → s.control.pendingApproval = none) ∧
    (wantsAnswers (message.get "request") = true → s.control.pendingQuestions = none)

/-! ## Calls that bring no prompt and no answer -/

theorem isReplyTo_successResponse (id x : Str) (response : Json) :
    isReplyTo x (successResponse id response) = decide (x = id) := by
  simp [isReplyTo, successResponse, controlResponse, Json.isText_text, eq_comm]

theorem isReplyTo_errorResponse (id x error : Str) :
    isReplyTo x (errorResponse id error) = decide (x = id) := by
  simp [isReplyTo, errorResponse, controlResponse, Json.isText_text, eq_comm]

theorem isReplyTo_request (c : ControlState Choice Form) (request : Json) (x : Str) :
    isReplyTo x (c.request request).1.2 = false := by
  simp [isReplyTo, ControlState.request, Json.isText]

theorem isReplyTo_userMessage (text : Str) (images : List MessageImage) (x : Str) :
    isReplyTo x (Session.userMessage text images) = false := by
  simp [isReplyTo, Session.userMessage, Json.isText]

namespace Session

/-- The requests of the CLI and the replies to them are as before. -/
structure Untouched (s s' : Session Choice Form) : Prop where
  connected : s.Connected
  approval : s'.control.pendingApproval = s.control.pendingApproval
  questions : s'.control.pendingQuestions = s.control.pendingQuestions
  dialogs : s'.control.dialogs = s.control.dialogs
  replies : ∀ id, s'.replies id = s.replies id

/-- As long as the session is connected afterwards. -/
def Quiet (s s' : Session Choice Form) : Prop := s'.Connected → s.Untouched s'

variable {s s' s'' : Session Choice Form}

theorem Quiet.refl (s : Session Choice Form) : s.Quiet s := fun h => ⟨h, rfl, rfl, rfl, fun _ => rfl⟩

theorem Quiet.trans (h : s.Quiet s') (h' : s'.Quiet s'') : s.Quiet s'' := by
  intro hc
  have h₂ := h' hc
  have h₁ := h h₂.connected
  exact ⟨h₁.connected, h₂.approval.trans h₁.approval, h₂.questions.trans h₁.questions,
    h₂.dialogs.trans h₁.dialogs, fun id => (h₂.replies id).trans (h₁.replies id)⟩

theorem Quiet.closed (h : s'.control.closed = true) : s.Quiet s' := by
  intro hc
  rw [hc.opened] at h
  cases h

theorem Quiet.disconnected (h : ¬ s'.Connected) : s.Quiet s' := fun hc => absurd hc h

/-- A change that leaves the prompts, the lines written and what the process accepts alone. -/
theorem Quiet.of_eq (h : s.control.SamePrompts s'.control)
    (ha : s'.process.Accepts → s.process.Accepts)
    (hw : s'.process.written = s.process.written) : s.Quiet s' := by
  intro hc
  refine ⟨⟨by rw [← h.closed, hc.opened], ha hc.accepts⟩, h.approval, h.questions, h.dialogs,
    fun id => ?_⟩
  rw [replies, replies, hw]

theorem quiet_trySend {message : Json} (hm : ∀ id, isReplyTo id message = false) :
    s.Quiet (s.trySend message).2 := by
  rcases s.trySend_cases message with ⟨hc, p, hp, ha, hw⟩ | ⟨-, e, p, hp, hc⟩
  · rw [hp]
    refine fun _ => ⟨hc, rfl, rfl, rfl, fun id => ?_⟩
    rw [replies, replies, hw, countP_append, countP_singleton, hm, if_neg (by simp), Nat.add_zero]
  · rw [hp]
    exact .disconnected hc

theorem quiet_admitControl (s : Session Choice Form) (request : Json) (requestClass : RequestClass)
    (operation : Str → PendingControlOperation) (now : ℕ) :
    s.Quiet (s.admitControl request requestClass operation now).2 := by
  rcases s.admitControl_cases request requestClass operation now with
    ⟨hc, p, ticket, ha, -, hw, hp⟩ | ⟨-, e, p, n, -, hp, hc⟩
  · rw [hp]
    have hopen := hc.opened
    refine fun _ => ⟨hc, ?_, ?_, ?_, fun id => ?_⟩
    · simp [ControlState.admitEntry, ControlState.request, hopen]
    · simp [ControlState.admitEntry, ControlState.request, hopen]
    · simp [ControlState.admitEntry, ControlState.request, hopen]
    · rw [replies, replies, hw, countP_append, countP_singleton, isReplyTo_request,
        if_neg (by simp), Nat.add_zero]
  · rw [hp]
    exact .disconnected fun h => hc ⟨h.opened, h.accepts⟩

theorem quiet_sendControl (s : Session Choice Form) (request : Json) (operation : PendingControlOperation)
    (now : ℕ) : s.Quiet (s.sendControl request operation now).2 := quiet_admitControl _ _ _ _ _

theorem quiet_requestContextComposition (s : Session Choice Form) (now : ℕ) :
    s.Quiet (s.requestContextComposition now).2 := by
  unfold requestContextComposition
  split_ifs
  · exact .refl s
  · exact quiet_sendControl _ _ _ _

theorem quiet_requestSessionTitle (s : Session Choice Form) (description : Str) (now : ℕ) :
    s.Quiet (s.requestSessionTitle description now).2 := by
  unfold requestSessionTitle
  dsimp only
  split_ifs
  · exact .refl s
  · exact quiet_sendControl _ _ _ _

theorem quiet_rewindFiles (s : Session Choice Form) (id : Str) (now : ℕ) :
    s.Quiet (s.rewindFiles id now).2 := by
  unfold rewindFiles
  split_ifs
  · exact .refl s
  · exact quiet_sendControl _ _ _ _

theorem quiet_askSideQuestion (s : Session Choice Form) (question : Str) (history : List (Str × Str))
    (now : ℕ) : s.Quiet (s.askSideQuestion question history now).2 := by
  unfold askSideQuestion
  split
  · exact .refl s
  · exact quiet_admitControl _ _ _ _ _

variable {p : JsonLineProcess Json} {id : Str}

theorem accepts_cancelInputs {inputs : List InputTicket} :
    ({ p with stdin := ControlState.cancelInputs p.stdin inputs } : JsonLineProcess Json).Accepts ↔
      p.Accepts := by
  have h : (ControlState.cancelInputs p.stdin inputs).state.senderOpen = p.stdin.state.senderOpen ∧
      (ControlState.cancelInputs p.stdin inputs).state.receiverOpen = p.stdin.state.receiverOpen := by
    unfold ControlState.cancelInputs
    generalize p.stdin = stdin
    induction inputs generalizing stdin with
    | nil => exact ⟨rfl, rfl⟩
    | cons input rest ih =>
      rw [foldl_cons, (ih _).1, (ih _).2, Queue.senderOpen_cancel, Queue.receiverOpen_cancel]
      exact ⟨rfl, rfl⟩
  rw [JsonLineProcess.Accepts, JsonLineProcess.hasStdin, h.1, h.2]
  exact Iff.rfl

theorem quiet_renameSession (s : Session Choice Form) (title : Str) (now : ℕ) :
    s.Quiet (s.renameSession title now).2 := by
  unfold renameSession
  dsimp only
  split_ifs
  · exact .refl s
  have hq := quiet_sendControl s (.object [("subtype", .text "rename_session"),
    ("title", .string (trim title))]) .other now
  generalize s.sendControl (.object [("subtype", .text "rename_session"),
    ("title", .string (trim title))]) .other now = r at hq ⊢
  obtain ⟨sent, s₁⟩ := r
  cases sent with
  | error e => exact hq
  | ok id => exact hq.trans (.of_eq ⟨rfl, rfl, rfl, rfl⟩ accepts_cancelInputs.mp rfl)

theorem samePrompts_foldl_admitEntry {requests : List (Str × Json)} {ticket : InputTicket} {now : ℕ}
    {c : ControlState Choice Form} : c.SamePrompts (requests.foldl
      (fun control request => control.admitEntry request.1 .mutation (some ticket) .other now) c) := by
  induction requests generalizing c with
  | nil => exact .refl
  | cons request rest ih => exact ControlState.samePrompts_admitEntry.trans ih

theorem quiet_sendUserMessage (s : Session Choice Form) (text : Str) (settings : ThreadSettings)
    (images : List MessageImage) (now : ℕ) : s.Quiet (s.sendUserMessage text settings images now).2 := by
  unfold sendUserMessage
  split_ifs with hc
  · exact .refl s
  have hopen : s.control.closed = false := by
    simp only [Bool.or_eq_true, not_or, Bool.not_eq_true] at hc
    exact hc.1
  have hn := numberRequests_snd (s.settingRequests settings) s.control
  have hmem : ∀ message ∈ (numberRequests (s.settingRequests settings) s.control).1,
      ∃ (c' : ControlState Choice Form) (request : Json), message = (c'.request request).1 :=
    fun _ hm => mem_numberRequests hm
  generalize numberRequests (s.settingRequests settings) s.control = numbered at hn hmem ⊢
  obtain ⟨requests, control⟩ := numbered
  dsimp only at hn hmem ⊢
  have hsame : s.control.SamePrompts control := by
    rw [hn]
    exact ⟨rfl, rfl, rfl, rfl⟩
  rcases s.process.writeTracked_cases isUser (requests.map (·.2) ++ [userMessage text images])
    (by simp) with ⟨ha, ticket, p, hw, -, hp, -⟩ | ⟨ha, p, hw, ha', -⟩
  · rw [hw]
    dsimp only
    have hrep : ∀ id, (p.written.countP (isReplyTo id)) = s.process.written.countP (isReplyTo id) := by
      intro id
      rw [hp, countP_append, Nat.add_eq_left, countP_eq_zero]
      intro m hm
      rcases mem_append.mp hm with hm | hm
      · obtain ⟨message, hmsg, rfl⟩ := mem_map.mp hm
        obtain ⟨c', request, rfl⟩ := hmem message hmsg
        simp [isReplyTo_request]
      · rw [mem_singleton.mp hm, isReplyTo_userMessage]
        simp
    set admitted := requests.foldl
      (fun control request => control.admitEntry request.1 .mutation (some ticket) .other now) control
    have hadm : s.control.SamePrompts admitted := hsame.trans samePrompts_foldl_admitEntry
    have hquiet : ∀ (c : ControlState Choice Form) (turn : TurnState), s.control.SamePrompts c →
        s.Quiet ⟨p, c, s.ready, turn, settings.model.or s.appliedModel,
          settings.approval.or s.appliedPermission⟩ :=
      fun c turn hc _ => ⟨⟨hopen, ha⟩, hc.approval, hc.questions, hc.dialogs, hrep⟩
    cases s.effortChange settings with
    | none =>
      dsimp only
      split_ifs <;> exact hquiet admitted _ hadm
    | some effort =>
      cases requests.getLast? with
      | none =>
        dsimp only
        split_ifs <;> exact hquiet admitted _ hadm
      | some last =>
        dsimp only
        split_ifs <;> exact hquiet _ _ (hadm.trans ControlState.samePrompts_recordEffort)
  · rw [hw]
    exact .disconnected fun h => ha' h.accepts

theorem quiet_executeSlashCommand (s : Session Choice Form) (name arguments : Str) :
    s.Quiet (s.executeSlashCommand name arguments).2 := by
  unfold executeSlashCommand JsonLineProcess.tryWriteLine
  split_ifs
  · exact .refl s
  rcases s.process.writeTracked_cases isUser
    [userMessage (slashCommandText name arguments) []] (by simp) with
    ⟨ha, ticket, p, hw, -, hp, -⟩ | ⟨ha, p, hw, ha', -⟩
  · rw [hw]
    refine fun hc => ⟨⟨hc.opened, ha⟩, rfl, rfl, rfl, fun id => ?_⟩
    rw [replies, replies, hp, countP_append, countP_singleton, isReplyTo_userMessage,
      if_neg (by simp), Nat.add_zero]
  · rw [hw]
    exact .disconnected fun h => ha' h.accepts

theorem quiet_onInit (s : Session Choice Form) (message : Json) (now : ℕ) :
    s.Quiet (s.onInit message now).2 := by
  unfold onInit
  dsimp only
  refine Quiet.trans ?_ (quiet_requestContextComposition _ now)
  exact .of_eq ⟨rfl, rfl, rfl, rfl⟩ id rfl

theorem quiet_onSystem (s : Session Choice Form) (message : Json) (now : ℕ) :
    s.Quiet (s.onSystem message now).2 := by
  unfold onSystem
  dsimp only
  split_ifs
  · exact quiet_onInit s message now
  · split
    · exact .of_eq ⟨rfl, rfl, rfl, rfl⟩ id rfl
    · exact .refl s
  · split
    · exact .of_eq ⟨rfl, rfl, rfl, rfl⟩ id rfl
    · exact .refl s
  · exact .refl s

theorem quiet_onControlResponse (s : Session Choice Form) (configured : Option Str) (message : Json)
    (now : ℕ) : s.Quiet (s.onControlResponse configured message now).2 := by
  unfold onControlResponse
  dsimp only
  split_ifs
  · exact .of_eq ⟨rfl, rfl, rfl, rfl⟩ id rfl
  · exact .of_eq ⟨rfl, rfl, rfl, rfl⟩ id rfl
  · refine Quiet.trans ?_ (quiet_requestContextComposition _ now)
    exact .of_eq ⟨rfl, rfl, rfl, rfl⟩ id rfl
  · exact .of_eq ControlState.samePrompts_resolve id rfl

theorem closed_close (s : Session Choice Form) (message : Str) :
    (s.close message).2.control.closed = true := rfl

theorem accepts_cancel {input : InputTicket} :
    ({ p with stdin := (p.stdin.cancel input).2 } : JsonLineProcess Json).Accepts ↔ p.Accepts := by
  rw [JsonLineProcess.Accepts, JsonLineProcess.hasStdin, Queue.senderOpen_cancel,
    Queue.receiverOpen_cancel]
  exact Iff.rfl

theorem quiet_cancelInput (s : Session Choice Form) (input : Option InputTicket) :
    s.Quiet (s.cancelInput input).2 := by
  cases input with
  | none => exact .refl s
  | some input => exact .of_eq .refl accepts_cancel.mp rfl

theorem samePrompts_settleOne {expired : ExpiredControl} {cancelled : Bool}
    {c : ControlState Choice Form} : c.SamePrompts (settleOne expired cancelled c).2 := by
  unfold settleOne
  cases cancelled with
  | true => exact ControlState.samePrompts_failExpired
  | false =>
    have h : c.SamePrompts (c.expireEffort expired.id).2 := ControlState.samePrompts_expireEffort
    dsimp only
    rw [if_neg (by simp)]
    generalize c.expireEffort expired.id = r at h ⊢
    obtain ⟨effort, c'⟩ := r
    cases effort with
    | some effort => exact h
    | none => exact h.trans ControlState.samePrompts_failExpired

/-- Requests that ran out of time touch no prompt unless they close the session. -/
theorem quiet_settleExpired (expired : List ExpiredControl) (s : Session Choice Form) :
    s.Quiet (settleExpired expired s).2 := by
  induction expired generalizing s with
  | nil => exact .refl s
  | cons expired rest ih =>
    rw [settleExpired]
    have hq := quiet_cancelInput s expired.input
    generalize s.cancelInput expired.input = r at hq ⊢
    obtain ⟨cancelled, s₁⟩ := r
    dsimp only at hq ⊢
    split_ifs
    · exact .closed (closed_close _ _)
    · exact .closed (closed_close _ _)
    · have hs : s₁.Quiet { s₁ with control := (settleOne expired cancelled s₁.control).2 } :=
        .of_eq samePrompts_settleOne id rfl
      exact (hq.trans hs).trans (ih _)

theorem quiet_pollTimeouts (s : Session Choice Form) (now : ℕ) : s.Quiet (s.pollTimeouts now).2 := by
  unfold pollTimeouts
  refine Quiet.trans ?_ (quiet_settleExpired _ _)
  exact .of_eq ⟨rfl, rfl, rfl, rfl⟩ id rfl

theorem quiet_shutdown (s : Session Choice Form) (force : Bool) : s.Quiet (s.shutdown force).2 := by
  refine .disconnected fun h => ?_
  have := h.accepts.1
  cases force <;> simp [shutdown, JsonLineProcess.hasStdin, Queue.dropSender] at this

theorem Untouched.heldIds (h : s.Untouched s') : s'.heldIds = s.heldIds := by
  rw [Session.heldIds, Session.heldIds, h.approval, h.questions, h.dialogs]

/-! ## What a call does to the prompts -/

/-- The requests held and the replies written, by the kind of the call. -/
inductive Prompting (s : Session Choice Form) (call : Call) (s' : Session Choice Form) : Prop
  | idle (ha : call.asks = none) (hc : call.cancels = none) (he : call.endsTurn = false)
    (hh : s'.heldIds = s.heldIds) (hr : ∀ id, s'.replies id = s.replies id)
  | finished (he : call.endsTurn = true) (hh : s'.heldIds = []) (hr : ∀ id, s'.replies id = s.replies id)
  | cancelled (id : Str) (ha : call.asks = none) (hc : call.cancels = some id) (he : call.endsTurn = false)
    (hh : s'.heldIds = s.heldIds.filter (· ≠ id)) (hr : ∀ id, s'.replies id = s.replies id)
  | answered (id : Str) (ha : call.asks = none) (hc : call.cancels = none) (he : call.endsTurn = false)
    (hi : s.Holds id) (hh : s'.heldIds = s.heldIds.filter (· ≠ id))
    (hr : ∀ x, s'.replies x = s.replies x + if x = id then 1 else 0)
  | refused (id : Str) (ha : call.asks = some id) (hc : call.cancels = none) (he : call.endsTurn = false)
    (hroom : s.Roomy call) (hh : s'.heldIds = s.heldIds) (hr : ∀ x, s'.replies x = s.replies x + if x = id then 1 else 0)
  | taken (id : Str) (ha : call.asks = some id) (hc : call.cancels = none) (he : call.endsTurn = false)
    (hroom : s.Roomy call) (hh : s'.heldIds.Perm (id :: s.heldIds)) (hr : ∀ id, s'.replies id = s.replies id)
  /-- The slot was not free. -/
  | replaced (id old : Str) (ha : call.asks = some id) (hc : call.cancels = none)
    (he : call.endsTurn = false) (hroom : ¬ s.Roomy call) (ho : s.Holds old)
    (hh : s'.heldIds.Perm (id :: s.heldIds.erase old)) (hr : ∀ id, s'.replies id = s.replies id)
  /-- A request with a known id. -/
  | ignored (id : Str) (ha : call.asks = some id) (hc : call.cancels = none) (he : call.endsTurn = false)
    (hi : s.Holds id ∨ id ∈ s.control.dialogs.retired) (hh : s'.heldIds = s.heldIds)
    (hr : ∀ id, s'.replies id = s.replies id)

/-- A call that brings no line of the CLI and no answer. -/
theorem Untouched.prompting {call : Call} (h : s.Untouched s') (hl : call.line = none) :
    s.Prompting call s' := by
  refine .idle ?_ ?_ ?_ h.heldIds h.replies
  · rw [Call.asks, hl, Option.bind_none]
  · rw [Call.cancels, hl, Option.bind_none]
  · rw [Call.endsTurn, hl, Option.any_none]

/-- A line that is no request, cancels none and ends no turn. -/
theorem Untouched.prompting_line {call : Call} {message : Json} (h : s.Untouched s')
    (hl : call.line = some message)
    (hr : (message.get "type").isText "control_request" = false)
    (hc : (message.get "type").isText "control_cancel_request" = false)
    (he : (message.get "type").isText "result" = false) : s.Prompting call s' := by
  refine .idle ?_ ?_ ?_ h.heldIds h.replies
  · simp [Call.asks, hl, hr]
  · simp [Call.cancels, hl, hc]
  · simp [Call.endsTurn, hl, he]

/-- A retired dialog was retired before, or held. -/
def Retires (s s' : Session Choice Form) : Prop :=
  ∀ id ∈ s'.control.dialogs.retired, id ∈ s.control.dialogs.retired ∨ s.Holds id

theorem Untouched.retires (h : s.Untouched s') : s.Retires s' := by
  intro id hi
  rw [h.dialogs] at hi
  exact .inl hi

/-- What a reply to a held request does: one more reply, and the request is given up. -/
structure Answered (s : Session Choice Form) (id : Str) (s' : Session Choice Form) : Prop where
  connected : s.Connected
  held : s.Holds id
  heldIds : s'.heldIds = s.heldIds.filter (· ≠ id)
  replies : ∀ x, s'.replies x = s.replies x + if x = id then 1 else 0
  retires : s.Retires s'

theorem Answered.prompting {call : Call} (h : s.Answered id s') (hl : call.line = none) :
    s.Prompting call s' := by
  refine .answered id ?_ ?_ ?_ h.held h.heldIds h.replies
  · rw [Call.asks, hl, Option.bind_none]
  · rw [Call.cancels, hl, Option.bind_none]
  · rw [Call.endsTurn, hl, Option.any_none]

theorem Answered.quiet (h : s.Answered id s') (h' : s'.Untouched s'') : s.Answered id s'' :=
  ⟨h.connected, h.held, h'.heldIds.trans h.heldIds, fun x => (h'.replies x).trans (h.replies x),
    fun x hx => h.retires x (h'.dialogs ▸ hx)⟩

theorem replies_reply {message : Json}
    (hw : p.written = s.process.written ++ [message]) (hm : ∀ x, isReplyTo x message = decide (x = id))
    (hp : s'.process = p) (x : Str) : s'.replies x = s.replies x + if x = id then 1 else 0 := by
  rw [replies, replies, hp, hw, countP_append, countP_singleton, hm]
  simp

/-- A key that is not there is not filtered out. -/
theorem filter_ne_of_not_mem {ids : List Str} (h : id ∉ ids) : ids.filter (· ≠ id) = ids := by
  rw [filter_eq_self]
  intro x hx
  simp only [ne_eq, decide_eq_true_eq]
  rintro rfl
  exact h hx

theorem respondApproval_answered (hn : s.Connected → s.heldIds.Nodup) (decision : Str) (now : ℕ)
    (hc : (s.respondApproval decision now).2.Connected) :
    s.Untouched (s.respondApproval decision now).2 ∨
      ∃ id, s.Answered id (s.respondApproval decision now).2 := by
  unfold respondApproval at hc ⊢
  cases hp : s.control.pendingApproval with
  | none =>
    rw [hp] at hc
    exact .inl (Quiet.refl s hc)
  | some pending =>
    rw [hp] at hc
    dsimp only at hc ⊢
    rcases s.trySend_cases (successResponse pending.requestId (approvalResponse decision pending)) with
      ⟨hs, p, ht, -, hw⟩ | ⟨-, e, p, ht, hs⟩
    · rw [ht] at hc ⊢
      dsimp only at hc ⊢
      refine .inr ⟨pending.requestId, ?_⟩
      set s₁ : Session Choice Form :=
        { s with process := p, control := { s.control with pendingApproval := none } } with h₁
      have hans : s.Answered pending.requestId s₁ := by
        have hids : s.heldIds = pending.requestId :: s₁.heldIds := by
          simp [heldIds, hp, h₁]
        have hn := hn hs
        rw [hids, nodup_cons] at hn
        refine ⟨hs, ?_, ?_, replies_reply hw (isReplyTo_successResponse _ · _) rfl, fun _ => .inl⟩
        · rw [Holds, hids]
          exact mem_cons_self
        · rw [hids, filter_cons_of_neg (by simp), filter_ne_of_not_mem hn.1]
      split_ifs at hc ⊢
      · exact hans.quiet (quiet_sendControl s₁ _ _ now hc)
      · exact hans
    · rw [ht] at hc
      exact absurd hc hs

theorem keys_filter (id : Str) (entries : List (Str × Dialog Choice Form)) :
    (entries.filter fun entry => entry.1 ≠ id).map (·.1) = (entries.map (·.1)).filter (· ≠ id) := by
  rw [filter_map]
  rfl

theorem lookup_isSome_iff {entries : List (Str × Dialog Choice Form)} :
    (entries.lookup id).isSome = true ↔ id ∈ entries.map (·.1) := by
  rw [Option.isSome_iff_ne_none, ne_eq, lookup_eq_none_iff]
  simp only [bne_iff_ne, ne_eq, not_forall, not_not, mem_map]
  constructor
  · rintro ⟨entry, he, rfl⟩
    exact ⟨entry, he, rfl⟩
  · rintro ⟨entry, he, rfl⟩
    exact ⟨entry, he, rfl⟩

theorem retire_pending (d : Dialogs Choice Form) (id : Str) :
    (d.retire id).2.pending.map (·.1) = (d.pending.map (·.1)).filter (· ≠ id) := by
  unfold Dialogs.retire
  cases hl : d.pending.lookup id with
  | none =>
    rw [filter_ne_of_not_mem]
    intro hi
    rw [← lookup_isSome_iff, hl] at hi
    cases hi
  | some dialog => exact keys_filter id d.pending

theorem mem_retire_retired {d : Dialogs Choice Form} {id x : Str} (h : x ∈ (d.retire id).2.retired) :
    x ∈ d.retired ∨ x ∈ d.pending.map (·.1) := by
  unfold Dialogs.retire at h
  cases hl : d.pending.lookup id with
  | none =>
    rw [hl] at h
    exact .inl h
  | some dialog =>
    rw [hl] at h
    rcases mem_insert_iff.mp h with rfl | h
    · exact .inr (lookup_isSome_iff.mp (by rw [hl]; rfl))
    · exact .inl h

theorem sendDialogReply_answered (hn : s.Connected → s.heldIds.Nodup) (response : Json)
    (hi : id ∈ s.control.dialogs.pending.map (·.1))
    (hc : (s.sendDialogReply id response).2.Connected) :
    s.Answered id (s.sendDialogReply id response).2 := by
  unfold sendDialogReply at hc ⊢
  rcases s.trySend_cases (successResponse id response) with ⟨hs, p, ht, -, hw⟩ | ⟨-, e, p, ht, hs⟩
  · rw [ht]
    refine ⟨hs, mem_append_right _ hi, ?_, replies_reply hw (isReplyTo_successResponse _ · _) rfl,
      fun x hx => (mem_retire_retired hx).imp_right (mem_append_right _)⟩
    have hn := hn hs
    rw [heldIds, nodup_append] at hn
    have hnot := fun h => hn.2.2 id h id hi rfl
    rw [heldIds, heldIds, filter_append, filter_ne_of_not_mem hnot]
    exact congrArg _ (retire_pending s.control.dialogs id)
  · rw [ht] at hc
    exact absurd hc hs

theorem dialog_contains : s.control.dialogs.contains id = true ↔
    id ∈ s.control.dialogs.pending.map (·.1) := lookup_isSome_iff

theorem line_kind {call : Call} {message : Json} {kind : String} (hl : call.line = some message)
    (ht : (message.get "type").isText kind = true) :
    (call.asks = if kind = "control_request" then some (controlRequestId message) else none) ∧
    (call.cancels = if kind = "control_cancel_request" then (message.get "request_id").asStr else none) ∧
    call.endsTurn = decide (kind = "result") := by
  have hk : ∀ other, (message.get "type").isText other = decide (kind = other) := by
    intro other
    by_cases h : kind = other
    · rw [← h, ht, decide_eq_true rfl]
    · rw [decide_eq_false h, ← Bool.not_eq_true]
      exact fun ho => h (Json.isText_unique ht ho)
  refine ⟨?_, ?_, ?_⟩
  · simp [Call.asks, hl, hk]
  · simp [Call.cancels, hl, hk]
  · simp [Call.endsTurn, hl, hk]

theorem replies_send {message : Json} (hm : ∀ x, isReplyTo x message = decide (x = id))
    (hc : (s.send message).Connected) :
    s.Connected ∧ ∀ x, (s.send message).replies x = s.replies x + if x = id then 1 else 0 := by
  rcases s.process.writeLine_cases isUser message with ⟨ha, p, hp, -, hw⟩ | ⟨-, p, hp, ha, -⟩
  · exact ⟨⟨hc.opened, ha⟩, replies_reply hw hm (by rw [send, hp])⟩
  · have := hc.accepts
    rw [send, hp] at this
    exact absurd this ha

/-- One id in the place of another. -/
theorem perm_replace {ids ids' : List Str} {id old : Str} (rest : List Str) (h : ids.Perm (old :: rest))
    (h' : ids'.Perm (id :: rest)) : ids'.Perm (id :: ids.erase old) := by
  have : (ids.erase old).Perm rest := by simpa using h.erase old
  exact h'.trans (this.symm.cons id)

variable {call : Call} {message : Json} {t : TurnState}

theorem prompting_onResult (now : ℕ) (hl : call.line = some message)
    (ht : (message.get "type").isText "result" = true)
    (hc : ({ s with turn := t }.onResult now).2.Connected) :
    s.Connected ∧ s.Retires ({ s with turn := t }.onResult now).2 ∧
      s.Prompting call ({ s with turn := t }.onResult now).2 := by
  unfold onResult at hc ⊢
  dsimp only at hc ⊢
  obtain ⟨-, -, hends⟩ := line_kind hl ht
  have hq := quiet_requestContextComposition _ now hc
  refine ⟨⟨hq.connected.opened, hq.connected.accepts⟩, ?_, .finished hends hq.heldIds hq.replies⟩
  intro id hi
  rw [hq.dialogs] at hi
  rcases mem_append.mp hi with hi | hi
  · exact .inr (mem_append_right _ hi)
  · exact .inl hi

theorem prompting_onCancelRequest (hl : call.line = some message)
    (ht : (message.get "type").isText "control_cancel_request" = true)
    (hid : (message.get "request_id").asStr = some id)
    (hc : ({ s with turn := t }.onCancelRequest id).2.Connected) :
    s.Connected ∧ s.Retires ({ s with turn := t }.onCancelRequest id).2 ∧
      s.Prompting call ({ s with turn := t }.onCancelRequest id).2 := by
  obtain ⟨hasks, hcancels, hends⟩ := line_kind hl ht
  simp only [if_true, String.reduceEq, if_false, decide_false, hid] at hasks hcancels hends
  refine ⟨⟨hc.opened, hc.accepts⟩, ?_, .cancelled id hasks hcancels hends ?_ fun _ => rfl⟩
  · exact fun x hx => (mem_retire_retired hx).imp_right (mem_append_right _)
  · rw [heldIds, heldIds, filter_append, filter_append, ← retire_pending]
    congr 2
    · simp only [onCancelRequest, ControlState.cancelPrompt]
      cases hp : s.control.pendingApproval with
      | none => simp
      | some pending => by_cases h : pending.requestId = id <;> simp [h]
    · simp only [onCancelRequest, ControlState.cancelPrompt]
      cases hp : s.control.pendingQuestions with
      | none => simp
      | some pending => by_cases h : pending.requestId = id <;> simp [h]

theorem declineInput_answered (hn : s.Connected → s.heldIds.Nodup) (id : Str) (hc : (s.declineInput id).2.Connected) :
    s.Untouched (s.declineInput id).2 ∨ s.Answered id (s.declineInput id).2 := by
  unfold declineInput Dialogs.decline at hc ⊢
  cases hl : s.control.dialogs.pending.lookup id with
  | none =>
    rw [hl] at hc
    exact .inl (Quiet.refl s hc)
  | some dialog =>
    rw [hl] at hc
    cases dialog with
    | choice c => exact .inl (Quiet.refl s hc)
    | form f =>
      exact .inr (sendDialogReply_answered hn _ (lookup_isSome_iff.mp (by rw [hl]; rfl)) hc)

theorem roomy_of (hl : call.line = some message)
    (ha : wantsApproval (message.get "request") = true → s.control.pendingApproval = none)
    (hq : wantsAnswers (message.get "request") = true → s.control.pendingQuestions = none) :
    s.Roomy call := by
  intro message' hl' _
  obtain rfl := Option.some.inj (hl.symm.trans hl')
  exact ⟨ha, hq⟩

theorem prompting_onToolRequest (hl : call.line = some message)
    (ht : (message.get "type").isText "control_request" = true)
    (hd : isDialogRequest (message.get "request") = false)
    (hc : ({ s with turn := t }.onToolRequest (controlRequestId message) (message.get "request")).2.Connected) :
    s.Connected ∧ s.Prompting call
      ({ s with turn := t }.onToolRequest (controlRequestId message) (message.get "request")).2 := by
  obtain ⟨hasks, hcancels, hends⟩ := line_kind hl ht
  simp only [if_true, String.reduceEq, if_false, decide_false] at hasks hcancels hends
  set id := controlRequestId message with hid
  set request := message.get "request" with hreq
  unfold onToolRequest at hc ⊢
  by_cases htool : (request.get "subtype").isText "can_use_tool"
  swap
  · rw [if_neg htool] at hc ⊢
    obtain ⟨hs, hr⟩ := replies_send (isReplyTo_errorResponse _ · _) hc
    have hroom : s.Roomy call := roomy_of hl
      (fun h => by simp [wantsApproval, wantsTool, ← hreq, htool] at h)
      (fun h => by simp [wantsAnswers, wantsTool, ← hreq, htool] at h)
    exact ⟨⟨hs.opened, hs.accepts⟩, .refused id hasks hcancels hends hroom rfl hr⟩
  rw [if_pos htool] at hc ⊢
  dsimp only at hc ⊢
  by_cases hq : (request.get "tool_name").asStr.getD "tool".toList = "AskUserQuestion".toList
  · rw [if_pos hq] at hc ⊢
    have hnotApproval : ¬ wantsApproval (message.get "request") = true := by
      rw [← hreq, wantsApproval, asksQuestions, decide_eq_true hq, Bool.not_true, Bool.and_false]
      simp
    by_cases he : (parseQuestions (request.get "input")).isEmpty
    · rw [if_pos he] at hc ⊢
      obtain ⟨hs, hr⟩ := replies_send (isReplyTo_successResponse _ · _) hc
      have hroom : s.Roomy call := roomy_of hl (fun h => absurd h hnotApproval)
        (fun h => by rw [wantsAnswers, ← hreq, he, Bool.not_true, Bool.and_false] at h; cases h)
      exact ⟨⟨hs.opened, hs.accepts⟩, .refused id hasks hcancels hends hroom rfl hr⟩
    rw [if_neg he] at hc ⊢
    have hs : s.Connected := by
      split_ifs at hc
      · exact ⟨hc.opened, hc.accepts⟩
      · exact ⟨hc.opened, hc.accepts⟩
    refine ⟨hs, ?_⟩
    cases hp : s.control.pendingQuestions with
    | none =>
      rw [if_neg (by simp)]
      refine .taken id hasks hcancels hends (roomy_of hl (fun h => absurd h hnotApproval) fun _ => hp) ?_
        fun _ => rfl
      simp only [heldIds, hp, Option.map_none, Option.toList_none, append_nil, Option.map_some,
        Option.toList_some, append_assoc]
      exact perm_middle
    | some previous =>
      by_cases hid' : previous.requestId = id
      · rw [if_pos (by simpa using hid')]
        refine .ignored id hasks hcancels hends (.inl ?_) rfl fun _ => rfl
        simp [Holds, heldIds, hp, hid']
      · rw [if_neg (by simpa using hid')]
        have hw : wantsAnswers request = true := by
          rw [wantsAnswers, wantsTool, asksQuestions, hd, htool, decide_eq_true hq,
            (Bool.not_eq_true _).mp he]
          rfl
        refine .replaced id previous.requestId hasks hcancels hends ?_ ?_ ?_ fun _ => rfl
        · intro hroom
          have := (hroom message hl ht).2 hw
          rw [hp] at this
          cases this
        · simp [Holds, heldIds, hp]
        · refine perm_replace ((s.control.pendingApproval.map (·.requestId)).toList ++
            s.control.dialogs.pending.map (·.1)) ?_ ?_
          · simp only [heldIds, hp, Option.map_some, Option.toList_some, append_assoc]
            exact perm_middle
          · simp only [heldIds, Option.map_some, Option.toList_some, append_assoc]
            exact perm_middle
  · rw [if_neg hq] at hc ⊢
    refine ⟨⟨hc.opened, hc.accepts⟩, ?_⟩
    cases hp : s.control.pendingApproval with
    | none =>
      have hnotAnswers : ¬ wantsAnswers (message.get "request") = true := by
        rw [← hreq, wantsAnswers, asksQuestions, decide_eq_false hq, Bool.and_false, Bool.false_and]
        simp
      refine .taken id hasks hcancels hends (roomy_of hl (fun _ => hp) fun h => absurd h hnotAnswers) ?_
        fun _ => rfl
      simp [heldIds, hp]
    | some previous =>
      have hw : wantsApproval request = true := by
        rw [wantsApproval, wantsTool, asksQuestions, hd, htool, decide_eq_false hq]
        rfl
      refine .replaced id previous.requestId hasks hcancels hends ?_ ?_ ?_ fun _ => rfl
      · intro hroom
        have := (hroom message hl ht).1 hw
        rw [hp] at this
        cases this
      · simp [Holds, heldIds, hp]
      · refine perm_replace ((s.control.pendingQuestions.map (·.requestId)).toList ++
          s.control.dialogs.pending.map (·.1)) ?_ ?_
        · simp [heldIds, hp]
        · simp [heldIds]

section

variable [ChoiceDialog Choice] [Elicitation Form]

theorem respondInput_answered (hn : s.Connected → s.heldIds.Nodup) (id : Str) (answers : Option (List QuestionAnswer))
    (hc : (s.respondInput id answers).2.Connected) :
    s.Untouched (s.respondInput id answers).2 ∨ s.Answered id (s.respondInput id answers).2 := by
  unfold respondInput at hc ⊢
  by_cases hd : s.control.dialogs.contains id
  · rw [if_pos hd] at hc ⊢
    cases hr : s.control.dialogs.respond id answers with
    | error e =>
      rw [hr] at hc
      exact .inl (Quiet.refl s hc)
    | ok response =>
      rw [hr] at hc
      exact .inr (sendDialogReply_answered hn response (dialog_contains.mp hd) hc)
  rw [if_neg hd] at hc ⊢
  cases hp : s.control.pendingQuestions with
  | none =>
    rw [hp] at hc
    exact .inl (Quiet.refl s hc)
  | some pending =>
    rw [hp] at hc
    dsimp only at hc ⊢
    split_ifs at hc ⊢ with hid hl
    · exact .inl (Quiet.refl s hc)
    · exact .inl (Quiet.refl s hc)
    have hid : pending.requestId = id := not_not.mp hid
    rcases s.trySend_cases (successResponse pending.requestId (questionsResponse answers pending)) with
      ⟨hs, p, ht, -, hw⟩ | ⟨-, e, p, ht, hs⟩
    · rw [ht]
      refine .inr ⟨hs, ?_, ?_, replies_reply hw (hid ▸ isReplyTo_successResponse _ · _) rfl, fun _ => .inl⟩
      · simp [Holds, heldIds, hp, hid]
      · have hperm : s.heldIds = (s.control.pendingApproval.map (·.requestId)).toList ++
            id :: s.control.dialogs.pending.map (·.1) := by
          simp [heldIds, hp, hid]
        have hn := hn hs
        rw [hperm, nodup_append, nodup_cons] at hn
        have h₁ : id ∉ (s.control.pendingApproval.map (·.requestId)).toList :=
          fun h => hn.2.2 id h id mem_cons_self rfl
        rw [hperm, filter_append, filter_cons_of_neg (by simp), filter_ne_of_not_mem h₁,
          filter_ne_of_not_mem hn.2.1.1]
        simp [heldIds]
    · rw [ht] at hc
      exact absurd hc hs

theorem prompting_onControlRequest (hl : call.line = some message)
    (ht : (message.get "type").isText "control_request" = true)
    (hc : ({ s with turn := t }.onControlRequest message).2.Connected) :
    s.Connected ∧ s.Prompting call ({ s with turn := t }.onControlRequest message).2 := by
  unfold onControlRequest at hc ⊢
  dsimp only at hc ⊢
  by_cases hd : isDialogRequest (message.get "request")
  swap
  · rw [if_neg hd] at hc ⊢
    exact prompting_onToolRequest hl ht ((Bool.not_eq_true _).mp hd) hc
  rw [if_pos hd] at hc ⊢
  obtain ⟨hasks, hcancels, hends⟩ := line_kind hl ht
  simp only [if_true, String.reduceEq, if_false, decide_false] at hasks hcancels hends
  set id := controlRequestId message with hid
  have hroom : s.Roomy call := roomy_of hl (fun h => by simp [wantsApproval, wantsTool, hd] at h)
    (fun h => by simp [wantsAnswers, wantsTool, hd] at h)
  have hrefused : ∀ error, ({ s with turn := t }.send (errorResponse id error)).Connected →
      s.Connected ∧ s.Prompting call ({ s with turn := t }.send (errorResponse id error)) := by
    intro error hc
    obtain ⟨hs, hr⟩ := replies_send (isReplyTo_errorResponse id · error) hc
    exact ⟨⟨hs.opened, hs.accepts⟩, .refused id hasks hcancels hends hroom rfl hr⟩
  unfold Dialogs.receive at hc ⊢
  by_cases hempty : id.isEmpty
  · rw [if_pos hempty] at hc ⊢
    exact hrefused _ hc
  rw [if_neg hempty] at hc ⊢
  by_cases hknown : ((s.control.dialogs.pending.lookup id).isSome || id ∈ s.control.dialogs.retired) = true
  · rw [if_pos hknown] at hc ⊢
    refine ⟨⟨hc.opened, hc.accepts⟩, .ignored id hasks hcancels hends ?_ rfl fun _ => rfl⟩
    rw [Bool.or_eq_true, lookup_isSome_iff, decide_eq_true_eq] at hknown
    exact hknown.imp_left (mem_append_right _)
  rw [if_neg hknown] at hc ⊢
  cases hp : (Dialog.parse (message.get "request") : Except Str (Option (Dialog Choice Form))) with
  | error error =>
    rw [hp] at hc
    exact hrefused _ hc
  | ok dialog =>
    rw [hp] at hc
    cases dialog with
    | none => exact hrefused _ hc
    | some dialog =>
      refine ⟨⟨hc.opened, hc.accepts⟩, .taken id hasks hcancels hends hroom ?_ fun _ => rfl⟩
      simp only [heldIds, map_append, map_cons, map_nil, ← append_assoc]
      exact perm_append_singleton id _

theorem retires_onControlRequest : s.Retires ({ s with turn := t }.onControlRequest message).2 := by
  have hsend : ∀ m, s.Retires ({ s with turn := t }.send m) := fun _ _ => .inl
  unfold onControlRequest
  dsimp only
  split_ifs with hd
  · unfold Dialogs.receive
    split_ifs
    · exact hsend _
    · exact fun _ => .inl
    · cases (Dialog.parse (message.get "request") : Except Str (Option (Dialog Choice Form))) with
      | error error => exact hsend _
      | ok dialog =>
        cases dialog with
        | none => exact hsend _
        | some dialog => exact fun _ => .inl
  · unfold onToolRequest
    dsimp only
    split_ifs
    · exact hsend _
    · exact fun _ => .inl
    · exact fun _ => .inl
    · exact fun _ => .inl
    · exact fun _ => .inl
    · exact hsend _

theorem prompting_handle (configured : Option Str) (message : Json) (now : ℕ)
    (hc : (s.handle configured message now).2.Connected) :
    s.Connected ∧ s.Retires (s.handle configured message now).2 ∧
      s.Prompting (.handle configured message now) (s.handle configured message now).2 := by
  unfold handle at hc ⊢
  by_cases hclosed : s.control.closed
  · rw [if_pos hclosed] at hc
    have := hc.opened
    rw [hclosed] at this
    cases this
  rw [if_neg hclosed] at hc ⊢
  by_cases htimeout : (message.get "method").isText timeoutMethod
  · rw [if_pos htimeout] at hc ⊢
    have hu := quiet_pollTimeouts s now hc
    exact ⟨hu.connected, hu.retires, hu.prompting (by simp [Call.line, htimeout])⟩
  rw [if_neg htimeout] at hc ⊢
  by_cases hprogress : (message.get "method").isText progressMethod
  · rw [if_pos hprogress] at hc ⊢
    have hu := Quiet.refl s hc
    exact ⟨hu.connected, hu.retires, hu.prompting (by simp [Call.line, hprogress])⟩
  rw [if_neg hprogress] at hc ⊢
  have hl : (Call.handle configured message now).line = some message := by
    simp [Call.line, htimeout, hprogress]
  have hquiet : s.Quiet { s with turn := s.turn.observe message } := .of_eq .refl id rfl
  have hkind : ∀ {kind other : String}, (message.get "type").isText kind = true → kind ≠ other →
      (message.get "type").isText other = false := by
    intro kind other hk hne
    rw [← Bool.not_eq_true]
    exact fun ho => hne (Json.isText_unique hk ho)
  unfold onMessage at hc ⊢
  dsimp only at hc ⊢
  by_cases hsystem : (message.get "type").isText "system"
  · rw [if_pos hsystem] at hc ⊢
    have hu := (hquiet.trans (quiet_onSystem _ message now)) hc
    exact ⟨hu.connected, hu.retires, hu.prompting_line hl (hkind hsystem (by decide))
      (hkind hsystem (by decide)) (hkind hsystem (by decide))⟩
  rw [if_neg hsystem] at hc ⊢
  by_cases hresult : (message.get "type").isText "result"
  · rw [if_pos hresult] at hc ⊢
    exact prompting_onResult now hl hresult hc
  rw [if_neg hresult] at hc ⊢
  by_cases hrequest : (message.get "type").isText "control_request"
  · rw [if_pos hrequest] at hc ⊢
    obtain ⟨hs, hp⟩ := prompting_onControlRequest hl hrequest hc
    exact ⟨hs, retires_onControlRequest, hp⟩
  rw [if_neg hrequest] at hc ⊢
  by_cases hresponse : (message.get "type").isText "control_response"
  · rw [if_pos hresponse] at hc ⊢
    have hu := (hquiet.trans (quiet_onControlResponse _ configured message now)) hc
    exact ⟨hu.connected, hu.retires, hu.prompting_line hl (hkind hresponse (by decide))
      (hkind hresponse (by decide)) (hkind hresponse (by decide))⟩
  rw [if_neg hresponse] at hc ⊢
  by_cases hcancel : (message.get "type").isText "control_cancel_request"
  · rw [if_pos hcancel] at hc ⊢
    cases hid : (message.get "request_id").asStr with
    | some id =>
      rw [hid] at hc
      exact prompting_onCancelRequest hl hcancel hid hc
    | none =>
      rw [hid] at hc
      have hu := hquiet hc
      obtain ⟨hasks, hcancels, hends⟩ := line_kind hl hcancel
      simp only [if_true, String.reduceEq, if_false, decide_false, hid] at hasks hcancels hends
      exact ⟨hu.connected, hu.retires, .idle hasks hcancels hends hu.heldIds hu.replies⟩
  rw [if_neg hcancel] at hc ⊢
  have hu := hquiet hc
  exact ⟨hu.connected, hu.retires, hu.prompting_line hl ((Bool.not_eq_true _).mp hrequest)
    ((Bool.not_eq_true _).mp hcancel) ((Bool.not_eq_true _).mp hresult)⟩

theorem perform_prompting (hn : s.Connected → s.heldIds.Nodup) (call : Call) (hc : (s.perform call).2.Connected) :
    s.Connected ∧ s.Retires (s.perform call).2 ∧ s.Prompting call (s.perform call).2 := by
  have hquiet : s.Quiet (s.perform call).2 → call.line = none →
      s.Connected ∧ s.Retires (s.perform call).2 ∧ s.Prompting call (s.perform call).2 := by
    intro hq hl
    exact ⟨(hq hc).connected, (hq hc).retires, (hq hc).prompting hl⟩
  have hanswer : ∀ id, s.Answered id (s.perform call).2 → call.line = none →
      s.Connected ∧ s.Retires (s.perform call).2 ∧ s.Prompting call (s.perform call).2 :=
    fun id ha hl => ⟨ha.connected, ha.retires, ha.prompting hl⟩
  cases call with
  | handle configured message now => exact prompting_handle configured message now hc
  | sendUserMessage text settings images now => exact hquiet (quiet_sendUserMessage s _ _ _ _) rfl
  | executeSlashCommand name arguments => exact hquiet (quiet_executeSlashCommand s _ _) rfl
  | requestContextComposition now => exact hquiet (quiet_requestContextComposition s _) rfl
  | requestSessionTitle description now => exact hquiet (quiet_requestSessionTitle s _ _) rfl
  | renameSession title now => exact hquiet (quiet_renameSession s _ _) rfl
  | askSideQuestion question history now => exact hquiet (quiet_askSideQuestion s _ _ _) rfl
  | cancelSideQuestion id =>
    refine hquiet (quiet_trySend fun x => ?_) rfl
    simp [isReplyTo, Json.isText]
  | rewindFiles id now => exact hquiet (quiet_rewindFiles s _ _) rfl
  | interrupt now | interruptBackgroundTask id now => exact hquiet (quiet_sendControl s _ _ _) rfl
  | respondApproval decision now =>
    rcases respondApproval_answered hn decision now hc with hu | ⟨id, ha⟩
    · exact hquiet (fun _ => hu) rfl
    · exact hanswer id ha rfl
  | respondInput id answers =>
    rcases respondInput_answered hn id answers hc with hu | ha
    · exact hquiet (fun _ => hu) rfl
    · exact hanswer id ha rfl
  | declineInput id =>
    rcases declineInput_answered hn id hc with hu | ha
    · exact hquiet (fun _ => hu) rfl
    · exact hanswer id ha rfl
  | pollTimeouts now => exact hquiet (quiet_pollTimeouts s now) rfl
  | onExit => exact hquiet (.closed (closed_close _ _)) rfl
  | shutdown force => exact hquiet (quiet_shutdown s force) rfl
  | recv =>
    refine hquiet (.of_eq .refl ?_ rfl) rfl
    simp only [perform, JsonLineProcess.Accepts, JsonLineProcess.hasStdin, Queue.recv]
    split <;> exact id
  | writerStopped =>
    refine hquiet (.disconnected fun h => ?_) rfl
    cases h.accepts.2
  | kill =>
    refine hquiet (.disconnected fun h => ?_) rfl
    have := h.accepts.1
    simp [perform, JsonLineProcess.hasStdin] at this
  | rehash order => exact hquiet (.of_eq ⟨rfl, rfl, rfl, rfl⟩ id rfl) rfl

end

end Session

end NiumaTerm.ClaudeCode
