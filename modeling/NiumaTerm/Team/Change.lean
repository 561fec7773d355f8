import NiumaTerm.Team.Process
import NiumaTerm.Team.Status

/-!
# What an operation may do to a room

`Change n op r r'`: operation `op`, whose UUIDs have serial `n`, may try to save `r'` when the room is `r`,
with what it has checked.  Later results need nothing else of an operation.  Operations that leave the work
of the room alone are one constructor, `quiet`.
-/

namespace NiumaTerm.Team

open Rust List

/-! ## Quiet changes -/

/-- The operations that report a member as unavailable to a discussion. -/
def Operation.Reports (op : Operation) (m : MemberId) (d : DiscussionId) : Prop :=
  op = .memberUnavailable m ∨ op = .pauseDiscussion d (.memberUnavailable m)

/-- Neither the stages of the discussion nor its mode change, and no work starts to go again. -/
structure Discussion.Quiet (op : Operation) (d d' : Discussion) : Prop where
  id : d'.id = d.id
  participants : d'.participants = d.participants
  mode : d'.mode = d.mode
  stages : d'.stages = d.stages
  reserved : d'.budget.reportReserved = d.budget.reportReserved
  limit : d.budget.limit ≤ d'.budget.limit
  completed : d'.state = .completed ↔ d.state = .completed
  going : d'.state.isGoing = true → d.state.isGoing = true
  unavailable : ∀ m, .memberUnavailable m ∈ d'.pauses → .memberUnavailable m ∈ d.pauses ∨
    d.state ≠ .completed ∧ op.Reports m d.id
  accurate : d.Accurate → d'.Accurate

/-- Only the discussions change, quietly, and the settings of members. -/
structure Room.Quiet (op : Operation) (r r' : Room) : Prop where
  messages : r'.messages = r.messages
  summaries : r'.summaries = r.summaries
  attempts : r'.attempts = r.attempts
  excluded : ∀ id, r'.isExcluded id = r.isExcluded id
  discussions : Forall₂ (Discussion.Quiet op) r.discussions r'.discussions

namespace Discussion

variable {op : Operation} {d : Discussion}

theorem Quiet.refl (op : Operation) (d : Discussion) : Quiet op d d :=
  ⟨rfl, rfl, rfl, rfl, rfl, le_rfl, .rfl, fun h => h, fun _ => .inl, fun h => h⟩

/-- A pause is quiet, and holds the discussion for its reason only. -/
theorem quiet_paused {reason : PauseReason}
    (h : ∀ m, reason = .memberUnavailable m → op.Reports m d.id) : Quiet op d (d.paused reason) := by
  rcases eq_or_ne d.state .completed with hc | hc
  · rw [paused_of_completed _ hc]
    exact .refl op d
  rw [paused_of_not_completed _ hc]
  refine ⟨rfl, rfl, rfl, rfl, rfl, le_rfl, ?_, fun hg => ?_, fun m hm => ?_,
    fun _ => accurate_settlePause _⟩
  · exact iff_of_false (settlePause_ne_completed _) hc
  · rw [settlePause_not_going] at hg
    cases hg
  · rcases Finset.mem_insert.mp hm with rfl | hm
    · exact .inr ⟨hc, h m rfl⟩
    · exact .inl hm

theorem quiet_resolved (reason : PauseReason) : Quiet op d (d.resolved reason) :=
  ⟨rfl, rfl, rfl, rfl, rfl, le_rfl, .rfl, fun h => h, fun _ hm => .inl (Finset.mem_of_mem_erase hm),
    fun h => h.resolved⟩

/-- Adding turns raises the limit and resolves the pause for the budget. -/
theorem quiet_addTurns {turns : ℕ} {budget : Budget} (h : d.budget.addTurns turns = .ok budget) :
    Quiet op d ({ d with budget }.resolved .budget) := by
  rw [Budget.addTurns] at h
  split at h
  · cases h
  · obtain rfl := Except.ok.inj h
    exact ⟨rfl, rfl, rfl, rfl, rfl, Nat.le_add_right _ _, .rfl, fun h => h,
      fun _ hm => .inl (Finset.mem_of_mem_erase hm),
      fun h => h.of_same rfl (Finset.erase_subset _ _) rfl⟩

end Discussion

namespace Room

variable {op : Operation} {r : Room}

theorem quiet_mapDiscussions {f : Discussion → Discussion}
    (h : ∀ d ∈ r.discussions, Discussion.Quiet op d (f d)) : Quiet op r (r.mapDiscussions f) :=
  ⟨rfl, rfl, rfl, fun _ => rfl, by simpa [mapDiscussions, forall₂_map_right_iff] using h⟩

theorem quiet_modifyDiscussion {id : DiscussionId} {f : Discussion → Discussion}
    (h : ∀ d ∈ r.discussions, d.id = id → Discussion.Quiet op d (f d)) :
    Quiet op r (r.modifyDiscussion id f) := by
  refine quiet_mapDiscussions fun d hd => ?_
  split
  · next hid => exact h d hd hid
  · exact .refl op d

/-- A change of members that excludes nobody and lets nobody return. -/
theorem quiet_members {members : List Member}
    (h : ∀ id, { r with members }.isExcluded id = r.isExcluded id) : Quiet op r { r with members } :=
  ⟨rfl, rfl, rfl, h, forall₂_same.mpr fun d _ => .refl op d⟩

theorem quiet_modifyMember {id : MemberId} {f : Member → Member}
    (h : ∀ m, (f m).id = m.id ∧ (f m).excluded = m.excluded) :
    Quiet op r (r.modifyMember id f) := by
  refine quiet_members fun key => ?_
  rw [isExcluded, isExcluded, any_map]
  congr 1
  funext m
  simp only [Function.comp]
  split
  · rw [(h m).1, (h m).2]
  · rfl

end Room

/-! ## Changes -/

/-- A member that may be given work. -/
def Room.Available (r : Room) (id : MemberId) : Prop := ∃ m, r.member id = some m ∧ m.excluded = false

/-- All operations named in the room were made before the current one. -/
structure Room.Below (n : ℕ) (r : Room) : Prop where
  arrangements : ∀ a ∈ r.arrangements, a.operation.uuid.serial < n
  attempts : ∀ t ∈ r.attempts, t.intent.operation.uuid.serial < n

theorem Room.Quiet.arrangements {op : Operation} {r r' : Room} (h : Room.Quiet op r r') :
    r'.arrangements = r.arrangements := by
  have hs : ∀ ds ds' : List Discussion, Forall₂ (Discussion.Quiet op) ds ds' →
      ds'.flatMap Discussion.arrangements = ds.flatMap Discussion.arrangements := by
    intro ds ds' hds
    induction hds with
    | nil => rfl
    | cons hd _ ih => rw [flatMap_cons, flatMap_cons, ih, Discussion.arrangements,
        Discussion.arrangements, hd.stages]
  exact hs _ _ h.discussions

theorem Room.Quiet.below {op : Operation} {r r' : Room} {n : ℕ} (h : Room.Quiet op r r')
    (hb : r.Below n) : r'.Below n :=
  ⟨by rw [h.arrangements]; exact hb.arrangements, by rw [h.attempts]; exact hb.attempts⟩

/-- The intents that are reserved: of a direct request, or for an arrangement that the last stage of a
discussion waits for. -/
inductive Room.Asks (n : ℕ) (r : Room) (intent : DispatchIntent) : Prop
  | direct (hb : intent.budget = .direct ⟨n, 0⟩) (ho : intent.operation = ⟨n, 0⟩)
  | stage (d : Discussion) (s : Stage) (a : Arrangement) (hd : d ∈ r.discussions)
    (hs : d.stages.getLast? = some s) (ha : a ∈ s.arrangements) (hp : a.state = .pending)
    (hsnap : s.segments.getLast? = some intent.snapshot) (hb : intent.budget = .discussion d.id)
    (ho : intent.operation = a.operation) (hr : intent.recipient = a.recipient)
    (hstage : intent.stage = some s.id) (hpurpose : intent.purpose = stagePurpose s.kind)

variable [TeamText]

/-- What may be saved, and what was checked before. -/
inductive Change (n : ℕ) : Operation → Room → Room → Prop
  | quiet {op : Operation} {r r' : Room} (h : Room.Quiet op r r') : Change n op r r'
  | reopened {id : RoomId} {r : Room} : Change n (.reopen id) r r.reopened
  | ready {id : MemberId} {generation : ℕ} {capabilities : ModeratorAdmission} {r r' : Room}
    (orphaned : List Attempt) (ho : ∀ t ∈ orphaned, t ∈ r.attempts ∧ t.state.inFlight = true)
    (hn : (orphaned.map Attempt.id).Nodup)
    (h : orphaned.foldlM (fun r t => r.fail t true)
      (r.mapDiscussions fun d => d.resolved (.memberUnavailable id)) = .ok r') :
    Change n (.memberReady id generation capabilities) r r'
  | excluded {id : MemberId} {r next : Room} (hidle : ∀ t ∈ r.attempts, t.state.inFlight = false)
    (h : r.excludeMember id = .ok next) : Change n (.excludeMember id) r (next.excluding id)
  | reserved {op : Operation} {r r' : Room} (intents : List DispatchIntent) (ids : List AttemptId)
    (hb : r.Below n ∨ ∀ intent ∈ intents, ∀ o, intent.budget ≠ .direct o)
    (hi : ∀ intent ∈ intents, r.Asks n intent ∧ intent.Shows r ∧ r.Available intent.recipient)
    (h : r.reserve intents n = .ok (ids, r')) (hop : op.reserves = true) : Change n op r r'
  | prepared {id : AttemptId} {r r' : Room} (t : Attempt) (intent : DispatchIntent)
    (ht : r.attempt id = some t) (ha : r.Available t.intent.recipient)
    (hgo : ∀ d, t.intent.budget = .discussion d →
      ∃ d', r.discussion d = some d' ∧ d'.isDispatchable = true)
    (hidle : ∀ u ∈ r.attempts, u.intent.recipient = t.intent.recipient → u.state.inFlight = false)
    (h : r.prepare id = .ok (intent, r')) : Change n (.prepareDispatch id) r r'
  | finished {id : AttemptId} {outcome : SendOutcome} {r r' : Room}
    (h : r.finish id outcome = .ok (some r')) : Change n (.finishDispatch id outcome) r r'
  | accepted {key : AttemptEventKey} {turn : Str} {r r' : Room} (t : Attempt)
    (ht : r.eventAttempt key = some t) (ha : t.accepts turn = true)
    (h : r.accept t turn = .ok r') : Change n (.acceptAttempt key turn) r r'
  | completed {key : AttemptEventKey} {turn text : Str} {r r' : Room} (t : Attempt)
    (reply : MessageId) (ht : r.eventAttempt key = some t) (hc : t.completes turn = true)
    (h : r.complete t text n = .ok (reply, r')) : Change n (.completeReply key turn text) r r'
  | failed {key : AttemptEventKey} {uncertain : Bool} {r r' : Room} (t : Attempt)
    (ht : r.eventAttempt key = some t) (hf : t.state.inFlight = true)
    (h : r.fail t uncertain = .ok r') : Change n (.failAttempt key uncertain) r r'
  | abandoned {id : AttemptId} {r r' : Room}
    (ht : ∃ t ∈ r.attempts, t.id = id ∧ t.state.inFlight = true)
    (h : r.abandon id = .ok r') : Change n (.abandonRestoredAttempt id) r r'
  | started {input : UserInput} {participants : List MemberId} {mode : DiscussionMode}
    {r next : Room} (d : Discussion) (hm : r.Available mode.reportAuthor)
    (h : r.createDiscussion input.text participants mode n = .ok (d, next)) :
    Change n (.startDiscussion input participants mode) r (next.started d input n)
  | userInput {op : Operation} {r : Room} (input : UserInput) :
    Change n op r (r.withUserInput (publicRequest input n))
  | stageOpened {id : DiscussionId} {limits : ContextLimits} {r : Room} (d : Discussion)
    (kind : StageKind) (recipients : List MemberId) (hb : r.Below n) (hd : r.discussion id = some d)
    (hc : d.state ≠ .completed) (hgo : d.isDispatchable = true)
    (hs : d.stages.getLast?.all Stage.isSettled = true)
    (hnext : nextStage d (r.remainingNonReportTurns d) r.isExcluded = .ok (.schedule kind recipients)) :
    Change n (.advanceDiscussion id limits) r
      (r.modifyDiscussion id (Discussion.pushStage (.pending kind recipients r.publicSnapshot n)))
  | continued {id : DiscussionId} {r : Room} (d : Discussion) (hb : r.Below n)
    (hidle : ∀ t ∈ r.attempts, t.state.inFlight = false) (hd : r.discussion id = some d)
    (hc : d.state ≠ .completed) (hm : r.Available d.mode.reportAuthor)
    (hp : (d.retainPauses fun reason => !reason.clearedByContinue).pauses = ∅) :
    Change n (.continueDiscussion id) r
      ((r.cancelReservations id).modifyDiscussion id (Discussion.continued r.publicSnapshot n))
  | modeChanged {id : DiscussionId} {mode : DiscussionMode} {r : Room} (d changed : Discussion)
    (hm : r.Available mode.reportAuthor) (hd : r.discussion id = some d)
    (h : d.changeMode mode = .ok changed) :
    Change n (.changeMode id mode) r ((r.cancelReservations id).modifyDiscussion id fun _ =>
      changed.modeChanged r.isExcluded)
  | finishing {id : DiscussionId} {r : Room} (d : Discussion) (hb : r.Below n)
    (hidle : ∀ t ∈ r.attempts, t.state.inFlight = false) (hd : r.discussion id = some d)
    (hc : d.state ≠ .completed) :
    Change n (.finishWithReport id) r
      ((r.cancelReservations id).modifyDiscussion id (Discussion.finishing r.publicSnapshot n))
  | decided {key : AttemptEventKey} {stage : StageId} {operation : OperationId}
    {action : ModeratorAction} {r : Room} (d : Discussion) (s : Stage) (t : Attempt)
    (ht : r.attempt key.attempt = some t) (hb : t.intent.budget = .discussion d.id)
    (hd : r.discussion d.id = some d) (hs : d.stages.getLast? = some s) (hn : s.decision = none)
    (he : s.id = stage ∧ s.kind = .moderatorDecision ∧ d.mode = .moderated key.member ∧
      t.intent.purpose = .moderation ∧ t.intent.operation = operation ∧
      t.intent.stage = some stage ∧ t.intent.recipient = key.member ∧
      t.intent.backendGeneration = key.backendGeneration ∧ t.state = .accepted)
    (hi : ∀ recipients, action = .invite recipients → recipients ≠ [] ∧ recipients.Nodup ∧
      ∀ m ∈ recipients, m ∈ d.participants ∧ r.Available m) :
    Change n (.moderatorDecision key stage operation action) r
      (r.decided d.id { operation, attempt := key.attempt, actor := key.member, action })

end NiumaTerm.Team
