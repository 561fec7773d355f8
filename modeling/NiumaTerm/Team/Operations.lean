import NiumaTerm.Team.Effect

/-!
# Every operation saves only what a change leads to

One lemma for each operation of a session, following its definition, and `saved_act` for all of them.
What an operation needs of the session besides its own checks are two facts that hold in every run:
the operations named in the room were made before (`Room.Below`), and the unresolved attempts are in
flight.
-/

namespace NiumaTerm.Team
namespace TeamSession

open Rust Checks List

variable {J : Serde Room} {s : TeamSession J}

/-! ## What the checks of a session establish -/

variable {id : DiscussionId} {d : Discussion} {t : Attempt} {mode : DiscussionMode}
  {recipients : List MemberId} {input : UserInput} {limits : ContextLimits}
  {intents : List DispatchIntent} {reason : PauseReason} {key : AttemptEventKey}

theorem findDiscussion_ok : s.findDiscussion id = .ok d ↔ s.room.discussion id = some d := okOr_ok

theorem id_of_discussion {r : Room} (h : r.discussion id = some d) : d ∈ r.discussions ∧ d.id = id :=
  ⟨mem_of_find?_eq_some h, by simpa using find?_some h⟩

theorem id_of_attempt {r : Room} {id : AttemptId}
    (h : r.attempt id = some t) : t ∈ r.attempts ∧ t.id = id :=
  ⟨mem_of_find?_eq_some h, by simpa using find?_some h⟩

theorem validateMember_ok {id : MemberId} (h : s.validateMember id = .ok ()) :
    s.unresolved = ∅ ∧ s.room.Available id ∧ (s.readiness id).isSome = true := by
  simp only [validateMember, bind_ok, failIf_ok, okOr_ok] at h
  obtain ⟨_, hu, m, hm, _, hr, he⟩ := h
  exact ⟨by simpa using hu, ⟨m, hm, by simpa using he⟩, by
    simpa [Option.isSome_iff_ne_none] using hr⟩

theorem validateRecipient_ok {intent : DispatchIntent} (h : s.validateRecipient intent = .ok ()) :
    s.room.Available intent.recipient ∧ (s.readiness intent.recipient).isSome = true := by
  simp only [validateRecipient, bind_ok, failIf_ok, okOr_ok] at h
  obtain ⟨_, -, _, -, h⟩ := h
  exact (validateMember_ok h).2

theorem validateMode_ok (h : s.validateMode mode = .ok ()) :
    s.room.Available mode.reportAuthor := by
  simp only [validateMode, bind_ok, failIf_ok, okOr_ok] at h
  obtain ⟨m, hm, _, he, -⟩ := h
  exact ⟨m, hm, by simpa using he⟩

theorem idle_of_not_live (h : ¬(s.hasLiveAttempts || s.unresolved ≠ ∅) = true) :
    ∀ t ∈ s.room.attempts, t.state.inFlight = false := by
  simp only [Bool.or_eq_true, decide_eq_true_eq, not_or, Bool.not_eq_true, not_not] at h
  obtain ⟨hl, hu⟩ := h
  intro t ht
  rw [hasLiveAttempts, any_eq_false] at hl
  simpa [hu] using hl t ht

theorem checkDispatch_ok (h : s.checkDispatch t = .ok ()) :
    s.room.Available t.intent.recipient ∧
      (∀ d, t.intent.budget = .discussion d →
        ∃ d', s.room.discussion d = some d' ∧ d'.isDispatchable = true) ∧
      ∀ u ∈ s.room.attempts, u.intent.recipient = t.intent.recipient → u.state.inFlight = false := by
  simp only [checkDispatch, bind_ok, failIf_ok] at h
  obtain ⟨_, hr, _, hgo, hidle⟩ := h
  refine ⟨(validateRecipient_ok hr).1, fun d hd => ?_, fun u hu he => ?_⟩
  · rw [hd, checkDispatchable] at hgo
    simp only [bind_ok, findDiscussion_ok, failIf_ok, Bool.not_eq_true', Bool.not_eq_false] at hgo
    exact hgo
  · simp only [any_eq_true, Bool.and_eq_true, decide_eq_true_eq, not_exists, not_and] at hidle
    simpa using hidle u hu he

theorem pauseReasonOf_ne (e : TeamError) (m : MemberId) : pauseReasonOf e ≠ .memberUnavailable m := by
  unfold pauseReasonOf
  split <;> simp

theorem mayInvite_ok (h : s.mayInvite d recipients = true) : recipients ≠ [] ∧ recipients.Nodup ∧
      ∀ m ∈ recipients, m ∈ d.participants ∧ s.room.Available m := by
  simp only [mayInvite, Bool.and_eq_true, Bool.not_eq_true', isEmpty_eq_false_iff,
    decide_eq_true_eq, all_eq_true] at h
  refine ⟨h.1.1, h.1.2, fun m hm => ⟨(h.2 m hm).1, ?_⟩⟩
  have hok := (h.2 m hm).2
  rcases hv : s.validateMember m with e | _
  · rw [hv] at hok
    cases hok
  · exact (validateMember_ok hv).2.1

/-- The attempts are marked one after the other, and are unresolved from then on. -/
theorem failAll_fst (orphaned : List Attempt) (r : Room) (unresolved : Finset AttemptId) :
    (failAll orphaned r unresolved).1 = orphaned.foldlM (fun r t => r.fail t true) r := by
  induction orphaned generalizing r unresolved with
  | nil => rfl
  | cons t rest ih =>
    rw [failAll, foldlM_cons]
    rcases r.fail t true with e | next
    · rfl
    · exact ih next _

variable [TeamText]

theorem prepareIntent_ok {plan : DispatchPlan} {snapshot : PublicSnapshot} {intent : DispatchIntent}
    (h : s.prepareIntent plan input snapshot limits = .ok intent) :
    intent.Follows plan snapshot ∧ intent.Shows s.room ∧ s.room.Available intent.recipient := by
  simp only [prepareIntent, bind_ok, okOr_ok] at h
  obtain ⟨readiness, -, built, hb, _, hv, h⟩ := h
  obtain rfl := Except.ok.inj h
  obtain ⟨hf, -, hs⟩ := buildIntent_ok hb
  exact ⟨hf, hs, (validateRecipient_ok hv).1⟩

/-- The intents of a direct request have its operation. -/
theorem directIntents_ok (h : s.directIntents input recipients limits = .ok intents) :
    ∀ intent ∈ intents, (intent.budget = .direct ⟨s.serial, 0⟩ ∧ intent.operation = ⟨s.serial, 0⟩) ∧
      intent.Shows s.room ∧ s.room.Available intent.recipient := by
  simp only [directIntents, bind_ok, failIf_ok] at h
  obtain ⟨_, -, _, -, h⟩ := h
  intro intent hi
  obtain ⟨recipient, -, hp⟩ := mapM_ok h intent hi
  obtain ⟨hf, hs, ha⟩ := prepareIntent_ok hp
  exact ⟨⟨hf.budget, hf.operation⟩, hs, ha⟩

/-- The intents of a stage are for arrangements that it waits for. -/
theorem stageIntents_ok {stage : Stage} {snapshot : PublicSnapshot} {ready : List AttemptId}
    (hl : s.lastSegment id = some (d, stage, snapshot))
    (h : s.stageIntents d stage snapshot limits = .ok (ready, intents)) :
    ∀ intent ∈ intents, (∀ o, intent.budget ≠ .direct o) ∧ s.room.Asks s.serial intent ∧
      intent.Shows s.room ∧ s.room.Available intent.recipient := by
  simp only [lastSegment, Option.bind_eq_bind, Option.bind_eq_some_iff, Option.pure_def,
    Option.some.injEq, Prod.mk.injEq] at hl
  obtain ⟨_, hd, _, hs, _, hsnap, rfl, rfl, rfl⟩ := hl
  refine foldlM_ok (I := fun state : List AttemptId × List DispatchIntent => ∀ intent ∈ state.2,
    (∀ o, intent.budget ≠ .direct o) ∧ s.room.Asks s.serial intent ∧ intent.Shows s.room ∧
      s.room.Available intent.recipient) h (by simp) fun state a ha state' hi hstep => ?_
  obtain ⟨ha, hp⟩ := mem_filter.mp ha
  dsimp only at hstep
  split at hstep
  · obtain rfl := Except.ok.inj hstep
    exact hi
  · obtain ⟨intent, hintent, hstep⟩ := bind_ok.mp hstep
    obtain rfl := Except.ok.inj hstep
    obtain ⟨hf, hshows, havail⟩ := prepareIntent_ok hintent
    intro intent' hmem
    rcases mem_append.mp hmem with hmem | hmem
    · exact hi intent' hmem
    · obtain rfl := mem_singleton.mp hmem
      refine ⟨by simp [hf.budget], .stage _ _ a (id_of_discussion hd).1 hs ha (by simpa using hp) ?_ hf.budget
        hf.operation hf.recipient hf.stage hf.purpose, hshows, havail⟩
      rw [hsnap, hf.snapshot]

/-! ## Pauses -/

variable {op : Operation} {n : ℕ} {α : Type}

theorem traced_pauseDiscussion (h : ∀ m, reason = .memberUnavailable m → op.Reports m id) :
    Traced n op s (s.pauseDiscussion id reason) := by
  rw [pauseDiscussion]
  split
  · next he => exact .error (plain_findDiscussion _ he)
  split
  · exact .ok false
  · refine .save (fun _ => rfl) (.quiet (Room.quiet_modifyDiscussion fun d _ hid => ?_))
    subst hid
    exact Discussion.quiet_paused h

theorem traced_resolvePause : Traced n op s (s.resolvePause id reason) := by
  rw [resolvePause]
  split
  · next he => exact .error (plain_findDiscussion _ he)
  split
  · exact .ok false
  · exact .save (fun _ => rfl) (.quiet (Room.quiet_modifyDiscussion fun _ _ _ =>
      Discussion.quiet_resolved reason))

/-- A discussion is paused for an error before the error is returned. -/
theorem traced_pauseFor {β : Type} {s' : TeamSession J} {e : TeamError}
    (h : Traced n op s ((.error e, s') : Outcome J β)) :
    Traced n op s (s'.pauseFor id e : Outcome J α) :=
  h.handle (traced_pauseDiscussion fun m hm => absurd hm (pauseReasonOf_ne e m))

theorem traced_close : Traced n op s s.close :=
  .save (fun _ => rfl) (.quiet (Room.quiet_mapDiscussions fun _ _ =>
    Discussion.quiet_paused fun _ h => by cases h))

/-! ## Members -/

theorem traced_addMember {config : MemberConfig} : Traced n op s (s.addMember config) := by
  refine .perform (.mapError fun _ _ => rfl) fun id next h => ?_
  rw [mapError_ok, Room.addMember] at h
  split at h
  · cases h
  · obtain ⟨-, rfl⟩ := Prod.mk.inj (Except.ok.inj h)
    refine .quiet (Room.quiet_members fun key => ?_)
    simp [Room.isExcluded]

theorem traced_setMemberSettings {id : MemberId} {settings : ThreadSettings} :
    Traced n op s (s.setMemberSettings id settings) := by
  refine .perform (.map (.mapError fun _ _ => rfl)) fun _ next h => ?_
  obtain ⟨_, hr, he⟩ := map_ok.mp h
  obtain ⟨-, rfl⟩ := Prod.mk.inj he
  rw [mapError_ok, Room.setMemberSettings] at hr
  split at hr
  · cases hr
  · obtain rfl := Except.ok.inj hr
    exact .quiet (Room.quiet_modifyMember fun _ => ⟨rfl, rfl⟩)

theorem traced_recordProviderIdentity {id : MemberId} {providerId : Str} {registered : Bool} :
    Traced n op s (s.recordProviderIdentity id providerId registered) := by
  rw [recordProviderIdentity]
  split
  · exact .error rfl
  split
  · exact .error rfl
  split
  · exact .ok ()
  · exact .save (fun _ => rfl) (.quiet (Room.quiet_modifyMember fun _ => ⟨rfl, rfl⟩))

/-! ## Dispatch -/

theorem traced_reserveDispatches (hop : op.reserves = true) (hn : s.serial = n)
    (hb : s.room.Below n ∨ ∀ intent ∈ intents, ∀ o, intent.budget ≠ .direct o)
    (hi : ∀ intent ∈ intents, s.room.Asks n intent ∧ intent.Shows s.room ∧
      s.room.Available intent.recipient) :
    Traced n op s (s.reserveDispatches intents) := by
  rw [reserveDispatches]
  split
  · next he =>
    have hplain : FailsWith TeamError.IsPlain (intents.forM s.validateRecipient) :=
      .forM fun _ => plain_validateRecipient
    exact .error (hplain _ he)
  split
  · next he => exact .error (Room.plain_reserve _ he)
  · next he =>
    rw [hn] at he
    exact .save (fun _ => rfl) (.reserved intents _ hb hi he hop)

theorem traced_prepareDispatch {id : AttemptId} :
    Traced n (.prepareDispatch id) s (s.prepareDispatch id) := by
  rw [prepareDispatch]
  split
  · exact .error rfl
  next t ht =>
  split
  · next he => exact .error (plain_checkDispatch _ he)
  next hc =>
  obtain ⟨ha, hgo, hidle⟩ := checkDispatch_ok hc
  split
  · next he => exact .error (Room.plain_prepare _ he)
  · next intent next he => exact .save (fun _ => rfl) (.prepared t intent ht ha hgo hidle he)

theorem traced_finishDispatch {id : AttemptId} {outcome : SendOutcome} :
    Traced n (.finishDispatch id outcome) s (s.finishDispatch id outcome) := by
  rw [finishDispatch]
  split
  · next he => exact .error (Room.plain_finish _ he)
  · exact .ok ()
  · next next he => exact .save (fun _ => rfl) (.finished he)

/-! ## Provider events -/

theorem traced_acceptAttempt {turn : Str} :
    Traced n (.acceptAttempt key turn) s (s.acceptAttempt key turn) := by
  rw [acceptAttempt]
  split
  · exact .ok false
  next t ht =>
  split
  · exact .ok false
  next ha =>
  refine .perform Room.plain_accept.map fun _ next h => ?_
  obtain ⟨_, hr, he⟩ := map_ok.mp h
  obtain ⟨-, rfl⟩ := Prod.mk.inj he
  exact .accepted t ht (by simpa using ha) hr

/-- What `complete_reply` saves before it ends the tracking of the attempt. -/
theorem traced_complete {turn text : Str} (hn : s.serial = n)
    (ht : s.room.eventAttempt key = some t) (hc : t.completes turn = true) :
    Traced n (.completeReply key turn text) s (s.perform (s.room.complete t text s.serial)) := by
  refine .perform Room.plain_complete fun reply next h => ?_
  rw [hn] at h
  exact .completed t reply ht hc h

/-- What `fail_attempt` saves before it changes the tracking of the attempt. -/
theorem traced_fail {uncertain : Bool}
    (ht : s.room.eventAttempt key = some t) (hf : t.state.inFlight = true) :
    Traced n (.failAttempt key uncertain) s
      (s.perform ((s.room.fail t uncertain).map fun next => ((), next))) := by
  refine .perform Room.plain_fail.map fun _ next h => ?_
  obtain ⟨_, hr, he⟩ := map_ok.mp h
  obtain ⟨-, rfl⟩ := Prod.mk.inj he
  exact .failed t ht hf hr

/-- What `abandon_restored_attempt` saves before it ends the tracking of the attempt. -/
theorem traced_abandon {id : AttemptId}
    (ht : ∃ t ∈ s.room.attempts, t.id = id ∧ t.state.inFlight = true) :
    Traced n (.abandonRestoredAttempt id) s
      (s.perform ((s.room.abandon id).map fun next => ((), next))) := by
  refine .perform Room.plain_abandon.map fun _ next h => ?_
  obtain ⟨_, hr, he⟩ := map_ok.mp h
  obtain ⟨-, rfl⟩ := Prod.mk.inj he
  exact .abandoned ht hr

/-! ## Requests of the user -/

theorem traced_startDiscussion {participants : List MemberId} (hn : s.serial = n) :
    Traced n (.startDiscussion input participants mode) s
      (s.startDiscussion input participants mode) := by
  refine .perform ?_ fun id next h => ?_
  · exact .bind plain_validateInput fun _ => .bind plain_validateMode fun _ =>
      .bind (.mapError fun _ _ => rfl) fun _ => .ok _
  · simp only [bind_ok, mapError_ok, hn] at h
    obtain ⟨_, -, _, hm, ⟨d, created⟩, hd, h⟩ := h
    obtain ⟨-, rfl⟩ := Prod.mk.inj (Except.ok.inj h)
    exact .started d (validateMode_ok hm) hd

theorem traced_recordUserInput (hn : s.serial = n) : Traced n op s (s.recordUserInput input) := by
  refine .perform (.bind plain_validateInput fun _ => .ok _) fun id next h => ?_
  obtain ⟨_, -, h⟩ := bind_ok.mp h
  obtain ⟨-, rfl⟩ := Prod.mk.inj (Except.ok.inj h)
  rw [hn]
  exact .userInput input

/-- A request is public before the turns for it are reserved. -/
theorem traced_directRequest (hop : op.reserves = true) (hn : s.serial = n) (hb : s.room.Below n) :
    Traced n op s (s.directRequest input recipients limits) := by
  rw [directRequest]
  split
  · next he => exact .error (plain_directIntents _ he)
  next intents hi =>
  have hrecord : Traced n op s (s.recordUserInput input) := traced_recordUserInput hn
  refine hrecord.andThen fun _ s' hs' => ?_
  rw [hs'] at hrecord
  have hroom : s'.room = s.room.withUserInput (publicRequest input n) := by
    have hp := perform_ok hs'
    simp only [bind_ok] at hp
    obtain ⟨_, -, hp⟩ := hp
    rw [← (Prod.mk.inj (Except.ok.inj hp)).2, hn]
  have hquiet : Room.Quiet op { s.room with messages := s'.room.messages } s'.room := by
    rw [hroom]
    refine ⟨rfl, rfl, rfl, fun _ => rfl, forall₂_map_right_iff.mpr ?_⟩
    exact forall₂_same.mpr fun d _ => Discussion.quiet_paused fun _ h => by cases h
  have hbelow : s'.room.Below n := hquiet.below ⟨hb.arrangements, hb.attempts⟩
  refine traced_reserveDispatches hop (hrecord.serial.trans hn) (.inl hbelow) fun intent hmem => ?_
  obtain ⟨⟨hbudget, hoperation⟩, hshows, havail⟩ := directIntents_ok hi intent hmem
  rw [hn] at hbudget hoperation
  refine ⟨.direct hbudget hoperation, hshows.mono ?_ ?_, ?_⟩
  · rw [hroom]
    exact subset_append_left _ _
  · rw [hroom]
    rfl
  · rw [hroom]
    exact havail

/-! ## Discussions -/

/-- The room after a pause that reports nobody as unavailable. -/
theorem quiet_of_pauseDiscussion {b : Bool}
    {s' : TeamSession J} (h : s.pauseDiscussion id reason = (.ok b, s'))
    (hr : ∀ m, reason ≠ .memberUnavailable m) : Room.Quiet op s.room s'.room := by
  rw [pauseDiscussion] at h
  split at h
  · cases h
  split at h
  · cases h
    exact ⟨rfl, rfl, rfl, fun _ => rfl, forall₂_same.mpr fun d _ => .refl op d⟩
  · rw [save_ok h]
    exact Room.quiet_modifyDiscussion fun d _ _ =>
      Discussion.quiet_paused fun m hm => absurd hm (hr m)

theorem traced_reserveStage (hop : op.reserves = true) (hn : s.serial = n) :
    Traced n op s (s.reserveStage id limits) := by
  rw [reserveStage]
  split
  · exact .error rfl
  next d stage snapshot hl =>
  split
  · next he => exact traced_pauseFor (β := Unit) (.error (plain_stageIntents _ he))
  next ready intents hi =>
  have hasks := stageIntents_ok hl hi
  rw [hn] at hasks
  split
  · exact .ok ready
  have hreserve : Traced n op s (s.reserveDispatches intents) := by
    exact traced_reserveDispatches hop hn (.inr fun intent hmem => (hasks intent hmem).1) fun intent hmem =>
      (hasks intent hmem).2
  split
  · next ids s' he =>
    rw [he] at hreserve
    exact ⟨⟨hreserve.saves, .ok _⟩, hreserve.readiness, hreserve.unresolved, hreserve.serial⟩
  · next e s' he =>
    rw [he] at hreserve
    exact traced_pauseFor hreserve

theorem traced_advanceDiscussion (hn : s.serial = n) (hb : s.room.Below n) :
    Traced n (.advanceDiscussion id limits) s (s.advanceDiscussion id limits) := by
  rw [advanceDiscussion]
  split
  · next he => exact .error (plain_findDiscussion _ he)
  next d hd =>
  split
  · exact .ok []
  next hc =>
  split
  · exact .error rfl
  next hgo =>
  split
  · next he => exact .error (plain_validateMode _ he)
  split
  · exact traced_reserveStage rfl hn
  next hs =>
  split
  · exact .ok []
  split
  · next he => exact .error (plain_nextStage _ he)
  · refine (traced_pauseDiscussion fun _ h => by cases h).andThen fun _ _ _ => .error rfl
  · next kind recipients hnext =>
    have hsave : Traced n (.advanceDiscussion id limits) s (s.save .storage (s.room.modifyDiscussion id
        (Discussion.pushStage (.pending kind recipients s.room.publicSnapshot s.serial))) ()) := by
      refine .save (fun _ => rfl) ?_
      rw [hn]
      exact .stageOpened d kind recipients hb (findDiscussion_ok.mp hd) hc (by simpa using hgo)
        (by simpa using hs) hnext
    refine hsave.andThen fun _ s' hs' => ?_
    rw [hs'] at hsave
    exact traced_reserveStage rfl (hsave.serial.trans hn)

theorem traced_continueDiscussion (hn : s.serial = n) (hb : s.room.Below n) :
    Traced n (.continueDiscussion id) s (s.continueDiscussion id) := by
  rw [continueDiscussion]
  split
  · exact .error rfl
  next hidle =>
  refine .perform ?_ fun _ next h => ?_
  · exact .bind plain_findDiscussion fun _ => .bind (.failIf rfl) fun _ =>
      .bind plain_validateMode fun _ => .bind (.failIf rfl) fun _ => .ok _
  · simp only [bind_ok, failIf_ok, findDiscussion_ok] at h
    obtain ⟨d, hd, _, hc, _, hm, _, hp, h⟩ := h
    obtain ⟨-, rfl⟩ := Prod.mk.inj (Except.ok.inj h)
    rw [hn]
    exact .continued d hb (idle_of_not_live hidle) hd hc (validateMode_ok hm) (by simpa using hp)

theorem traced_addTurns {turns : ℕ} (hv : s.room.Valid) : Traced n op s (s.addTurns id turns) := by
  refine .perform ?_ fun _ next h => ?_
  · exact .bind plain_findDiscussion fun _ => .bind (.mapError fun _ _ => rfl) fun _ => .ok _
  · simp only [bind_ok, mapError_ok, findDiscussion_ok] at h
    obtain ⟨d, hd, budget, hbudget, h⟩ := h
    obtain ⟨-, rfl⟩ := Prod.mk.inj (Except.ok.inj h)
    refine .quiet (Room.quiet_modifyDiscussion fun d' hd' hid => ?_)
    obtain ⟨hmem, rfl⟩ := id_of_discussion hd
    obtain rfl := hv.discussion_eq hd' hmem hid
    exact Discussion.quiet_addTurns hbudget

theorem traced_changeMode : Traced n (.changeMode id mode) s (s.changeMode id mode) := by
  refine (traced_pauseDiscussion fun _ h => by cases h).andThen fun _ s' _ => ?_
  split
  · exact .error rfl
  refine .perform ?_ fun _ next h => ?_
  · exact .bind plain_validateMode fun _ => .bind plain_findDiscussion fun _ =>
      .bind (.mapError fun _ _ => rfl) fun _ => .ok _
  · simp only [bind_ok, mapError_ok, findDiscussion_ok] at h
    obtain ⟨_, hm, d, hd, changed, hchanged, h⟩ := h
    obtain ⟨-, rfl⟩ := Prod.mk.inj (Except.ok.inj h)
    exact .modeChanged d changed (validateMode_ok hm) hd hchanged

theorem traced_finishWithReport (hn : s.serial = n) (hb : s.room.Below n) :
    Traced n (.finishWithReport id) s (s.finishWithReport id) := by
  have hpause : Traced n (.finishWithReport id) s (s.pauseDiscussion id .user) :=
    traced_pauseDiscussion fun _ h => by cases h
  refine hpause.andThen fun _ s' hs' => ?_
  rw [hs'] at hpause
  have hquiet : Room.Quiet (.finishWithReport id) s.room s'.room :=
    quiet_of_pauseDiscussion hs' fun m => nofun
  split
  · exact .error rfl
  next hidle =>
  refine .perform ?_ fun _ next h => ?_
  · exact .bind plain_findDiscussion fun _ => .bind (.failIf rfl) fun _ => .ok _
  · simp only [bind_ok, failIf_ok, findDiscussion_ok] at h
    obtain ⟨d, hd, _, hc, h⟩ := h
    obtain ⟨-, rfl⟩ := Prod.mk.inj (Except.ok.inj h)
    rw [hpause.serial, hn]
    exact .finishing d (hquiet.below hb) (idle_of_not_live hidle) hd hc

/-! ## Decisions of a moderator -/

theorem traced_recordDecision {stage : Stage} {stageId : StageId} {operation : OperationId} {action : ModeratorAction}
    (ht : s.room.attempt key.attempt = some t) (hb : t.intent.budget = .discussion d.id)
    (hd : s.room.discussion d.id = some d) (hs : d.stages.getLast? = some stage)
    (hn : stage.decision = none)
    (he : s.isExpected d stage t key stageId operation = true) :
    Traced n (.moderatorDecision key stageId operation action) s
      (s.recordDecision d key operation action) := by
  unfold recordDecision
  split
  · next e hv =>
    exact .error ((plain_validateMode.bind fun _ => plain_validateMember) e hv)
  split
  · exact (traced_pauseDiscussion fun _ h => by cases h).andThen fun _ _ _ => .ok false
  next hinvites =>
  split
  · exact (traced_pauseDiscussion fun _ h => by cases h).andThen fun _ _ _ => .error rfl
  · refine .save (fun _ => rfl) (.decided d stage t ht hb hd hs hn ?_ fun recipients ha => ?_)
    · simp only [isExpected, Bool.and_eq_true, decide_eq_true_eq] at he
      tauto
    · subst ha
      exact mayInvite_ok (by simpa [mayAsk] using hinvites)

theorem traced_moderatorDecision {stageId : StageId}
    {operation : OperationId} {action : ModeratorAction} :
    Traced n (.moderatorDecision key stageId operation action) s
      (s.moderatorDecision key stageId operation action) := by
  rw [moderatorDecision]
  split
  · exact .ok false
  next t ht =>
  split
  · exact .ok false
  next id hb =>
  split
  · next he => exact .error (plain_findDiscussion _ he)
  next d hd =>
  split
  · exact .ok false
  next stage hs =>
  split
  · exact .ok false
  next hn =>
  split
  · exact (traced_pauseDiscussion fun _ h => by cases h).andThen fun _ _ _ => .ok false
  next he =>
  obtain ⟨-, rfl⟩ := id_of_discussion (findDiscussion_ok.mp hd)
  exact traced_recordDecision ht hb (findDiscussion_ok.mp hd) hs (by simpa using hn) (by simpa using he)

/-! ## Operations that change what a session knows -/

theorem saved_memberUnavailable {m : MemberId} :
    Saved n (.memberUnavailable m) s.storage (s.memberUnavailable m) := by
  have h : Traced n (.memberUnavailable m) { s with readiness := Function.update s.readiness m none }
      (s.memberUnavailable m) :=
    .save (fun _ => rfl) (.quiet (Room.quiet_mapDiscussions fun d _ =>
      Discussion.quiet_paused fun m' hm => by cases hm; exact .inl rfl))
  exact h.toSaved

/-- What `exclude_member` saves before the member stops being ready. -/
theorem traced_exclude {id : MemberId} (hidle : ∀ t ∈ s.room.attempts, t.state.inFlight = false) :
    Traced n (.excludeMember id) s (s.perform
      (((s.room.excludeMember id).mapError TeamError.member).map fun next =>
        ((), next.excluding id))) := by
  refine .perform (.map (.mapError fun _ _ => rfl)) fun _ next h => ?_
  obtain ⟨excluded, he, h⟩ := map_ok.mp h
  obtain ⟨-, rfl⟩ := Prod.mk.inj h
  exact .excluded hidle (mapError_ok.mp he)

theorem saved_excludeMember {id : MemberId} :
    Saved n (.excludeMember id) s.storage (s.excludeMember id) := by
  rw [excludeMember]
  split
  · exact .error rfl
  next hidle =>
  exact (traced_exclude (idle_of_not_live hidle)).saved_andThen fun _ s' => ⟨rfl, (), rfl⟩

theorem saved_completeReply {turn text : Str} (hn : s.serial = n) :
    Saved n (.completeReply key turn text) s.storage (s.completeReply key turn text) := by
  rw [completeReply]
  split
  · exact .ok none
  next t ht =>
  split
  · exact .ok none
  next hc =>
  exact (traced_complete hn ht (by simpa using hc)).saved_andThen fun id s' => ⟨rfl, some id, rfl⟩

theorem saved_failAttempt {uncertain : Bool} :
    Saved n (.failAttempt key uncertain) s.storage (s.failAttempt key uncertain) := by
  rw [failAttempt]
  split
  · exact .ok false
  next t ht =>
  split
  · exact .ok false
  next hf =>
  exact (traced_fail ht (by simpa using hf)).saved_andThen fun _ s' => ⟨rfl, true, rfl⟩

theorem saved_abandonRestoredAttempt {id : AttemptId}
    (hu : ∀ id ∈ s.unresolved, ∃ t ∈ s.room.attempts, t.id = id ∧ t.state.inFlight = true) :
    Saved n (.abandonRestoredAttempt id) s.storage (s.abandonRestoredAttempt id) := by
  rw [abandonRestoredAttempt]
  split
  · exact .error rfl
  next hidle =>
  simp only [Bool.or_eq_true, decide_eq_true_eq, not_or, Bool.not_eq_true, not_not] at hidle
  exact (traced_abandon (hu id hidle.2)).saved_andThen fun _ s' => ⟨rfl, (), rfl⟩

theorem saved_memberReady {id : MemberId} {generation : ℕ} {capabilities : ModeratorAdmission}
    (hv : s.room.Valid) :
    Saved n (.memberReady id generation capabilities) s.storage
      (s.memberReady id generation capabilities) := by
  rw [memberReady]
  split
  · exact .error rfl
  split
  · exact .error rfl
  dsimp only
  split
  · next e he =>
    have hplain : FailsWith TeamError.IsPlain (failAll (s.orphaned (s.room.mapDiscussions fun d =>
        d.resolved (.memberUnavailable id)) id generation) (s.room.mapDiscussions fun d =>
        d.resolved (.memberUnavailable id)) s.unresolved).1 := by
      rw [failAll_fst]
      exact .foldlM fun _ _ => Room.plain_fail
    exact ⟨.refl _, .error fun e' he' => by rw [hplain e he] at he'; cases he'⟩
  next next he =>
  rw [failAll_fst] at he
  have hc : Change n (.memberReady id generation capabilities) s.room next := by
    refine .ready _ (fun t ht => ?_) ?_ he
    · simp only [orphaned, mem_filter, Bool.and_eq_true] at ht
      exact ⟨ht.1, ht.2.1.2⟩
    · exact (hv.attempts_nodup.sublist (filter_sublist.map _))
  split
  · generalize (failAll _ _ _).2 = marked
    have hsave : Traced n (.memberReady id generation capabilities) { s with unresolved := marked }
        ({ s with unresolved := marked }.save .storage next ()) := .save (fun _ => rfl) hc
    exact Traced.saved_andThen (s := { s with unresolved := marked }) hsave
      fun _ s' => ⟨rfl, (), rfl⟩
  · exact ⟨.refl _, .ok ()⟩

/-! ## All operations -/

theorem Saved.done {x : Outcome J α} {st : Storage J} (h : Saved n op st x) :
    Saved n op st x.done :=
  ⟨h.saves, h.refused.map⟩

theorem Traced.done {x : Outcome J α} (h : Traced n op s x) : Traced n op s x.done :=
  ⟨h.toSaved.done, h.readiness, h.unresolved, h.serial⟩

/-- **Most operations change nothing in the session but its store.** -/
theorem traced_act (hv : s.room.Valid) (hb : s.room.Below s.serial)
    (hop : op.changesSession = false) : Traced s.serial op s (s.act op) := by
  rcases op with _ | _ | _ | _ | _ | _ | _ | _ | _ | _ | _ | _ | _ | _ | _ | _ | _ | _ | _ | _ | _ | _
    | _ | _ | _
  case reopen | memberReady | memberUnavailable | excludeMember | completeReply | failAttempt |
    abandonRestoredAttempt => cases hop
  case addMember => exact traced_addMember.done
  case setMemberSettings => exact traced_setMemberSettings.done
  case recordProviderIdentity => exact traced_recordProviderIdentity.done
  case prepareDispatch id =>
    have h : Traced s.serial (.prepareDispatch id) s (s.prepareDispatch id) := traced_prepareDispatch
    exact ⟨⟨h.saves, h.refused.map⟩, h.readiness, h.unresolved, h.serial⟩
  case finishDispatch => exact traced_finishDispatch.done
  case acceptAttempt => exact traced_acceptAttempt.done
  case pauseDiscussion id reason =>
    exact (traced_pauseDiscussion fun m hm => .inr (by rw [hm])).done
  case resolvePause => exact traced_resolvePause.done
  case close => exact traced_close.done
  case startDiscussion => exact (traced_startDiscussion rfl).done
  case recordUserInput => exact (traced_recordUserInput rfl).done
  case directRequest => exact (traced_directRequest rfl rfl hb).done
  case advanceDiscussion => exact (traced_advanceDiscussion rfl hb).done
  case continueDiscussion => exact (traced_continueDiscussion rfl hb).done
  case addTurns => exact (traced_addTurns hv).done
  case changeMode => exact traced_changeMode.done
  case finishWithReport => exact (traced_finishWithReport rfl hb).done
  case moderatorDecision => exact traced_moderatorDecision.done

/-- **An operation saves only what its changes lead to.** -/
theorem saved_act (hv : s.room.Valid) (hb : s.room.Below s.serial)
    (hu : ∀ id ∈ s.unresolved, ∃ t ∈ s.room.attempts, t.id = id ∧ t.state.inFlight = true)
    (hop : op.opens = false) : Saved s.serial op s.storage (s.act op) := by
  rcases hc : op.changesSession with _ | _
  · exact (traced_act hv hb hc).toSaved
  unfold Operation.changesSession at hc
  split at hc
  · cases hop
  · exact (saved_memberReady hv).done
  · exact saved_memberUnavailable.done
  · exact saved_excludeMember.done
  · exact (saved_completeReply rfl).done
  · exact saved_failAttempt.done
  · exact (saved_abandonRestoredAttempt hu).done
  · cases hc

end TeamSession
end NiumaTerm.Team
