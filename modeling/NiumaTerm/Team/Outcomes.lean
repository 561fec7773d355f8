import NiumaTerm.Team.Planning

/-!
# What happens to an attempt

Each function takes the room before and gives the room that is committed: reserving attempts,
preparing and finishing a dispatch, and the provider's reports about a sent attempt.  The outcomes of
one attempt all have one shape, `Room.settle`: the attempt changes, and so does the discussion that it
is charged to.
-/

namespace NiumaTerm.Team

open Rust Checks

/-- Outcome of a session's `send_user_message`. -/
inductive SendOutcome
  | startedTurn
  | steered
  | notReady
  | rejected (message : Str)

structure AttemptEventKey where
  attempt : AttemptId
  member : MemberId
  backendGeneration : ℕ

namespace Room

variable (r : Room)

/-- Change an attempt, and the discussion it is charged to. -/
def settle (t : Attempt) (change : Attempt → Attempt) (mark : Discussion → Discussion) : Room :=
  let next := r.modifyAttempt t.id change
  match t.intent.budget with
  | .discussion id => next.modifyDiscussion id mark
  | .direct _ => next

section

variable {r} (t : Attempt) (change : Attempt → Attempt) (mark : Discussion → Discussion)

@[simp] theorem settle_attempts :
    (r.settle t change mark).attempts = (r.modifyAttempt t.id change).attempts := by
  unfold settle; split <;> rfl

@[simp] theorem settle_messages : (r.settle t change mark).messages = r.messages := by
  unfold settle; split <;> rfl

@[simp] theorem settle_members : (r.settle t change mark).members = r.members := by
  unfold settle; split <;> rfl

variable {t}

theorem settle_of_discussion {id : DiscussionId} (h : t.intent.budget = .discussion id) :
    r.settle t change mark = (r.modifyAttempt t.id change).modifyDiscussion id mark := by
  rw [settle, h]

theorem settle_of_direct {o : OperationId} (h : t.intent.budget = .direct o) :
    r.settle t change mark = r.modifyAttempt t.id change := by
  rw [settle, h]

end

/-! ## Dispatch -/

/-- The budget that an intent is charged to. -/
def budgetOf (scope : BudgetScope) : Except DispatchError Budget :=
  match scope with
  | .discussion id => (okOr (r.discussion id) .ineligible).map Discussion.budget
  | .direct _ => .ok .direct

/-- Reserve one attempt of a batch. -/
def reserveOne (serial : ℕ) (r : Room) (entry : DispatchIntent × ℕ) : Except DispatchError Room := do
  let (intent, index) := entry
  failIf (r.member intent.recipient).isNone .ineligible
  let budget ← r.budgetOf intent.budget
  (budget.checkBatch (r.budgetAttempts intent.budget) [intent.purpose]).mapError .budget
  return { r with
    attempts := r.attempts ++ [{ id := ⟨serial, index⟩, intent, state := .reserved, providerTurn := none }] }

def reserve (intents : List DispatchIntent) (serial : ℕ) :
    Except DispatchError (List AttemptId × Room) := do
  let next ← intents.zipIdx.foldlM (reserveOne serial) r
  return (intents.zipIdx.map fun entry => ⟨serial, entry.2⟩, next)

/-- `prepare`: charge a reserved attempt.  An operation has one arrangement. -/
def prepare (id : AttemptId) : Except DispatchError (DispatchIntent × Room) := do
  let t ← okOr (r.attempt id) .ineligible
  failIf (t.state ≠ .reserved || (r.member t.intent.recipient).isNone) .ineligible
  let sending (t : Attempt) : Attempt := { t with state := .sending }
  match t.intent.budget with
  | .discussion discussion =>
    if t.intent.purpose = .summary then return (t.intent, r.modifyAttempt id sending)
    else
      let d ← okOr (r.discussion discussion) .ineligible
      let a ← okOr (d.arrangements.find? (·.operation = t.intent.operation)) .ineligible
      failIf (a.state ≠ .pending) .ineligible
      return (t.intent, r.settle t sending fun d => d.markOperation t.intent.operation (.active id))
  | .direct _ => return (t.intent, r.modifyAttempt id sending)

/-- The discussion of a turn that failed, or whose outcome is uncertain. -/
def failTurn (t : Attempt) (uncertain : Bool) (d : Discussion) : Discussion :=
  if uncertain then
    (d.markOperation t.intent.operation (.uncertain t.id)).paused (.uncertainAttempt t.id)
  else (d.markOperation t.intent.operation (.failed t.id)).paused (.ofFailure t.id t.intent.purpose)

/-- `finish`: the room to commit after the transport answered, if any. -/
def finish (id : AttemptId) (outcome : SendOutcome) : Except DispatchError (Option Room) := do
  let t ← okOr (r.attempt id) .ineligible
  failIf (t.state ≠ .sending) .ineligible
  match outcome with
  | .startedTurn => return none
  | .steered | .rejected _ =>
    failIf (r.missingDiscussion t) .ineligible
    return some (r.settle t (fun t => { t with state := .uncertain }) (failTurn t true))
  | .notReady =>
    failIf (r.missingDiscussion t) .ineligible
    return some (r.settle t (fun t => { t with state := .rejected }) (failTurn t false))

/-! ## Reports of a provider -/

def eventAttempt (key : AttemptEventKey) : Option Attempt :=
  if (r.member key.member).isNone then none
  else r.attempts.find? fun t => t.id = key.attempt && t.intent.recipient = key.member &&
    t.intent.backendGeneration = key.backendGeneration

/-- Other pauses still hold a discussion that a turn has just run for. -/
def settleHeld (d : Discussion) : Discussion := if d.pauses = ∅ then d else d.settlePause

def accept (t : Attempt) (providerTurn : Str) : Except TeamError Room :=
  let accepted (t : Attempt) : Attempt := { t with providerTurn := some providerTurn, state := .accepted }
  if t.state = .uncertain then do
    failIf (r.missingDiscussion t) .unavailable
    return r.settle t accepted fun d =>
      settleHeld ((d.markOperation t.intent.operation (.active t.id)).resolved (.uncertainAttempt t.id))
  else .ok (r.modifyAttempt t.id accepted)

def publicationOf : TurnPurpose → Publication
  | .report => .report
  | .moderation => .moderatorDecision
  | _ => .rootReply

def replyOf (t : Attempt) (m : Member) (text : Str) (serial : ℕ) : PublicMessage where
  id := ⟨serial, 0⟩
  author := .member m.id m.name
  publication := publicationOf t.intent.purpose
  text
  repliesTo := t.intent.input.references

/-- The discussion of a completed turn: a report ends it. -/
def completeTurn (t : Attempt) (d : Discussion) : Discussion :=
  let d := (d.markOperation t.intent.operation (.completed t.id)).resolved (.uncertainAttempt t.id)
  if t.intent.purpose = .report then { d with state := .completed } else settleHeld d

def complete (t : Attempt) (text : Str) (serial : ℕ) : Except TeamError (MessageId × Room) := do
  let m ← okOr (r.member t.intent.recipient) .unavailable
  let reply := replyOf t m text serial
  failIf (r.missingDiscussion t) .unavailable
  return (reply.id, (r.pushMessage reply).settle t (fun t => { t with state := .completed reply.id })
    (completeTurn t))

def fail (t : Attempt) (uncertain : Bool) : Except TeamError Room := do
  failIf (r.missingDiscussion t) .unavailable
  return r.settle t (fun t => { t with state := if uncertain then .uncertain else .failed })
    (failTurn t uncertain)

/-- An arrangement whose attempt is no longer tracked. -/
def abandonArrangement (id : AttemptId) (a : Arrangement) : ArrangementState :=
  if a.state = .active id ∨ a.state = .uncertain id then .skipped else a.state

/-- Each discussion of a room that stops tracking an attempt: it waits for the user to continue. -/
def abandonDiscussion (id : AttemptId) (d : Discussion) : Discussion :=
  (((d.mapArrangements (abandonArrangement id)).resolved (.uncertainAttempt id)).paused .user).settlePause

def abandon (id : AttemptId) : Except TeamError Room := do
  failIf (r.attempt id).isNone .unavailable
  return (r.modifyAttempt id fun t => { t with state := .abandoned }).mapDiscussions
    (abandonDiscussion id)

end Room

/-! ## What a success says -/

namespace Room

variable {r r' : Room} {t : Attempt}

/-- The attempt that `reserve_dispatches` stores for an intent. -/
def reservedAttempt (serial : ℕ) (entry : DispatchIntent × ℕ) : Attempt :=
  { id := ⟨serial, entry.2⟩, intent := entry.1, state := .reserved, providerTurn := none }

variable {serial : ℕ} {id : AttemptId}

theorem reserveOne_ok {entry : DispatchIntent × ℕ} (h : reserveOne serial r entry = .ok r') :
    r' = { r with attempts := r.attempts ++ [reservedAttempt serial entry] } ∧
      ∃ budget, r.budgetOf entry.1.budget = .ok budget ∧
        budget.checkBatch (r.budgetAttempts entry.1.budget) [entry.1.purpose] = .ok () := by
  simp only [reserveOne, bind_ok, failIf_ok, mapError_ok] at h
  obtain ⟨_, -, budget, hb, _, hc, h⟩ := h
  exact ⟨(Except.ok.inj h).symm, budget, hb, hc⟩

/-- Reserving adds a reserved attempt for each intent. -/
theorem reserve_ok {intents : List DispatchIntent} {ids : List AttemptId}
    (h : r.reserve intents serial = .ok (ids, r')) :
    r' = { r with attempts := r.attempts ++ intents.zipIdx.map (reservedAttempt serial) } ∧
      ids = (intents.zipIdx.map (reservedAttempt serial)).map Attempt.id := by
  simp only [reserve, bind_ok] at h
  obtain ⟨next, hfold, he⟩ := h
  obtain ⟨rfl, rfl⟩ := Prod.mk.inj (Except.ok.inj he)
  refine ⟨?_, by simp [reservedAttempt]⟩
  generalize intents.zipIdx = entries at hfold
  clear he
  induction entries generalizing r with
  | nil =>
    obtain rfl := Except.ok.inj hfold
    simp
  | cons entry rest ih =>
    obtain ⟨mid, hone, hrest⟩ := bind_ok.mp hfold
    rw [ih hrest, (reserveOne_ok hone).1]
    simp

theorem prepare_ok {intent : DispatchIntent} (h : r.prepare id = .ok (intent, r')) :
    ∃ t, r.attempt id = some t ∧ t.state = .reserved ∧ intent = t.intent ∧
      ((∃ d d' a, t.intent.budget = .discussion d ∧ t.intent.purpose ≠ .summary ∧
          r.discussion d = some d' ∧
          d'.arrangements.find? (·.operation = t.intent.operation) = some a ∧ a.state = .pending ∧
          r' = r.settle t (fun t => { t with state := .sending })
            fun d => d.markOperation t.intent.operation (.active t.id)) ∨
        ((∃ d, t.intent.budget = .discussion d ∧ t.intent.purpose = .summary) ∨
            ∃ o, t.intent.budget = .direct o) ∧
          r' = r.modifyAttempt id fun t => { t with state := .sending }) := by
  simp only [prepare, bind_ok, failIf_ok, okOr_ok] at h
  obtain ⟨t, ht, _, hs, h⟩ := h
  simp only [Bool.or_eq_true, decide_eq_true_eq, not_or, not_not] at hs
  have hid : t.id = id := by simpa using List.find?_some ht
  refine ⟨t, ht, hs.1, ?_⟩
  split at h
  · next d hb =>
    split at h
    · next hp =>
      obtain ⟨rfl, rfl⟩ := Prod.mk.inj (Except.ok.inj h)
      exact ⟨rfl, .inr ⟨.inl ⟨d, hb, hp⟩, rfl⟩⟩
    · next hp =>
      simp only [bind_ok, failIf_ok, okOr_ok, not_not] at h
      obtain ⟨d', hd, a, ha, _, hpending, h⟩ := h
      obtain ⟨rfl, rfl⟩ := Prod.mk.inj (Except.ok.inj h)
      subst hid
      exact ⟨rfl, .inl ⟨d, d', a, hb, hp, hd, ha, hpending, rfl⟩⟩
  · next o hb =>
    obtain ⟨rfl, rfl⟩ := Prod.mk.inj (Except.ok.inj h)
    exact ⟨rfl, .inr ⟨.inr ⟨o, hb⟩, rfl⟩⟩

theorem finish_ok {outcome : SendOutcome} (h : r.finish id outcome = .ok (some r')) :
    ∃ t, r.attempt id = some t ∧ t.state = .sending ∧
      (outcome = .notReady ∧
          r' = r.settle t (fun t => { t with state := .rejected }) (failTurn t false) ∨
        r' = r.settle t (fun t => { t with state := .uncertain }) (failTurn t true)) := by
  simp only [finish, bind_ok, failIf_ok, okOr_ok] at h
  obtain ⟨t, ht, _, hs, h⟩ := h
  refine ⟨t, ht, by simpa using hs, ?_⟩
  split at h
  · cases h
  all_goals
    simp only [bind_ok, failIf_ok] at h
    obtain ⟨_, -, h⟩ := h
    obtain rfl := Option.some.inj (Except.ok.inj h)
  · exact .inr rfl
  · exact .inr rfl
  · exact .inl ⟨rfl, rfl⟩

theorem eventAttempt_some {key : AttemptEventKey} (h : r.eventAttempt key = some t) :
    t ∈ r.attempts ∧ t.id = key.attempt ∧ t.intent.recipient = key.member ∧
      t.intent.backendGeneration = key.backendGeneration := by
  rw [eventAttempt] at h
  split at h
  · cases h
  · have hp := List.find?_some h
    simp only [Bool.and_eq_true, decide_eq_true_eq] at hp
    exact ⟨List.mem_of_find?_eq_some h, hp.1.1, hp.1.2, hp.2⟩

/-- The discussion of an attempt whose turn the provider accepted after all. -/
def reacceptTurn (t : Attempt) (d : Discussion) : Discussion :=
  settleHeld ((d.markOperation t.intent.operation (.active t.id)).resolved (.uncertainAttempt t.id))

theorem accept_ok {turn : Str} (h : r.accept t turn = .ok r') :
    (t.state = .uncertain ∧ r' = r.settle t
        (fun t => { t with providerTurn := some turn, state := .accepted }) (reacceptTurn t)) ∨
      t.state ≠ .uncertain ∧ r' = r.modifyAttempt t.id fun t =>
        { t with providerTurn := some turn, state := .accepted } := by
  rw [accept] at h
  split at h
  · next hs =>
    simp only [bind_ok, failIf_ok] at h
    obtain ⟨_, -, h⟩ := h
    exact .inl ⟨hs, (Except.ok.inj h).symm⟩
  · next hs => exact .inr ⟨hs, (Except.ok.inj h).symm⟩

theorem complete_ok {text : Str} {id : MessageId} (h : r.complete t text serial = .ok (id, r')) :
    ∃ m, r.member t.intent.recipient = some m ∧ id = (replyOf t m text serial).id ∧
      r' = (r.pushMessage (replyOf t m text serial)).settle t
        (fun t => { t with state := .completed id }) (completeTurn t) := by
  simp only [complete, bind_ok, failIf_ok, okOr_ok] at h
  obtain ⟨m, hm, _, -, h⟩ := h
  obtain ⟨rfl, rfl⟩ := Prod.mk.inj (Except.ok.inj h)
  exact ⟨m, hm, rfl, rfl⟩

theorem fail_ok {uncertain : Bool} (h : r.fail t uncertain = .ok r') :
    r' = r.settle t (fun t => { t with state := if uncertain then .uncertain else .failed })
      (failTurn t uncertain) := by
  simp only [fail, bind_ok, failIf_ok] at h
  obtain ⟨_, -, h⟩ := h
  exact (Except.ok.inj h).symm

theorem abandon_ok (h : r.abandon id = .ok r') :
    r' = (r.modifyAttempt id fun t => { t with state := .abandoned }).mapDiscussions
      (abandonDiscussion id) := by
  simp only [abandon, bind_ok, failIf_ok] at h
  obtain ⟨_, -, h⟩ := h
  exact (Except.ok.inj h).symm

end Room

namespace Attempt

/-- `accepts`: the attempt can take a turn as its acceptance. -/
def accepts (t : Attempt) (providerTurn : Str) : Bool :=
  !providerTurn.isEmpty && (t.state = .sending || t.state = .uncertain) &&
    t.providerTurn.all (· = providerTurn)

theorem inFlight_of_accepts {t : Attempt} {turn : Str} (h : t.accepts turn = true) : t.state.inFlight = true := by
  simp only [accepts, Bool.and_eq_true, Bool.or_eq_true, decide_eq_true_eq] at h
  rcases h.1.2 with hs | hs <;> rw [hs] <;> rfl

/-- `completes`: the attempt can be completed by a reply to a turn. -/
def completes (t : Attempt) (providerTurn : Str) : Bool :=
  t.state = .accepted && t.providerTurn = some providerTurn && t.intent.purpose != .summary

theorem accepted_of_completes {t : Attempt} {turn : Str} (h : t.completes turn = true) : t.state = .accepted := by
  simp only [completes, Bool.and_eq_true, decide_eq_true_eq] at h
  exact h.1.1

end Attempt

end NiumaTerm.Team
