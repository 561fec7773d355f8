import NiumaTerm.Team.Coherence
import NiumaTerm.Team.Runs

/-!
# Completed discussions

Every change leaves completed discussions completed but `abandon`: `abandonDiscussion` settles the pause of
every discussion without looking at its state.  `completed_final` is about the runs without it.
-/

namespace NiumaTerm.Team

open Checks Transition List

/-- Completed discussions are still there, and completed. -/
def Room.KeepsCompleted (r r' : Room) : Prop := ∀ d ∈ r.discussions, d.state = .completed →
  ∃ d' ∈ r'.discussions, d'.id = d.id ∧ d'.state = .completed

def Room.Unfinished (r : Room) : Prop := ∀ d ∈ r.discussions, d.state ≠ .completed

namespace Room.KeepsCompleted

variable {r q : Room}

theorem refl (r : Room) : r.KeepsCompleted r := fun d hd hc => ⟨d, hd, rfl, hc⟩

theorem trans {r'' : Room} (h : r.KeepsCompleted q) (h' : q.KeepsCompleted r'') :
    r.KeepsCompleted r'' := by
  intro d hd hc
  obtain ⟨e, he, hid, hc⟩ := h d hd hc
  obtain ⟨e', he', hid', hc⟩ := h' e he hc
  exact ⟨e', he', hid'.trans hid, hc⟩

variable {f : Discussion → Discussion}

theorem mapDiscussions
    (hf : ∀ d ∈ r.discussions, d.state = .completed → (f d).id = d.id ∧ (f d).state = .completed) :
    r.KeepsCompleted (r.mapDiscussions f) :=
  fun d hd hc => ⟨f d, mem_map_of_mem hd, hf d hd hc⟩

theorem modifyDiscussion {id : DiscussionId}
    (hf : ∀ d ∈ r.discussions, d.id = id → d.state = .completed →
      (f d).id = d.id ∧ (f d).state = .completed) : r.KeepsCompleted (r.modifyDiscussion id f) := by
  refine mapDiscussions fun d hd hc => ?_
  split
  · next hid => exact hf d hd hid hc
  · exact ⟨rfl, hc⟩

/-- What happens to the one discussion that an operation names, when it is not completed. -/
theorem modifyOther {d : Discussion}
    (hn : (r.discussions.map Discussion.id).Nodup) (hd : d ∈ r.discussions)
    (hc : d.state ≠ .completed) : r.KeepsCompleted (r.modifyDiscussion d.id f) := by
  refine modifyDiscussion fun e he hid hce => absurd hce ?_
  rwa [inj_on_of_nodup_map hn he hd hid]

/-- The discussion of an attempt in flight is not completed. -/
theorem settle (hr : r.Coherent) (hn : (r.discussions.map Discussion.id).Nodup) {t : Attempt}
    (ht : t ∈ r.attempts) (hf : t.state.inFlight = true) {change : Attempt → Attempt}
    {mark : Discussion → Discussion} : r.KeepsCompleted (r.settle t change mark) := by
  rw [Room.settle]
  split
  · next id hb =>
    refine modifyDiscussion (r := r.modifyAttempt t.id change) fun d hd hid hc => absurd hc ?_
    exact (hr.turn ht (hb.trans (congrArg _ hid.symm)) hn hd hf).1
  · exact refl r

end Room.KeepsCompleted

theorem Discussion.paused_completed {d : Discussion} (h : d.state = .completed) (reason : PauseReason) :
    (d.paused reason).id = d.id ∧ (d.paused reason).state = .completed := by
  rw [paused_of_completed reason h]
  exact ⟨rfl, h⟩

theorem Discussion.paused_unfinished {d : Discussion} (h : d.state ≠ .completed)
    (reason : PauseReason) : (d.paused reason).state ≠ .completed := by
  rw [paused_of_not_completed reason h]
  exact settlePause_ne_completed _

section

variable [TeamText] {n : ℕ} {op : Operation} {r r' : Room}

/-- **Only abandoning an attempt reopens a completed discussion.** -/
theorem Room.Step.keepsCompleted (h : r.Step n op r') (hr : r.Coherent)
    (hop : ∀ id, op = .abandonRestoredAttempt id → r.Unfinished) : r.KeepsCompleted r' := by
  obtain ⟨hv, hv', hb, hc⟩ := h
  have hn := hv.attempts_nodup
  have hd := hv.discussions_nodup
  cases hc with
  | quiet hq =>
    intro d hmem hc
    obtain ⟨d', hd', hdd'⟩ := (Growth.Grows.of_forall₂ (N := fun _ => False)
      hq.discussions).exists_of_mem hmem
    exact ⟨d', hd', hdd'.id, hdd'.completed.mpr hc⟩
  | reopened =>
    refine (KeepsCompleted.mapDiscussions fun d _ hc => ?_).trans (.refl _)
    exact Discussion.paused_completed (d := d.retainPauses _) hc .reopened
  | ready _ ho hon h =>
    refine (Room.fails_induction (P := fun q => r.KeepsCompleted q ∧ q.Coherent ∧
      (q.discussions.map Discussion.id).Nodup) h hon hn ho ?_ fun q t q' hq ht hf hp hfail => ?_).1
    · refine ⟨.mapDiscussions fun d _ hc => ⟨rfl, hc⟩,
        hr.mapDiscussions fun d hmem => ⟨rfl, (hr.orderly d hmem).resolved⟩, ?_⟩
      rw [Room.mapDiscussions_ids (f := fun d => d.resolved _) fun _ => rfl]
      exact hd
    · refine ⟨?_, hp.2.1.fail hq hp.2.2 ht hf hfail, ?_⟩
      · rw [Room.fail_ok hfail]
        exact hp.1.trans (.settle hp.2.1 hp.2.2 ht hf)
      · rw [Room.fail_ok hfail, Room.settle_ids fun _ => Discussion.failTurn_id]
        exact hp.2.2
  | excluded _ h =>
    rw [Room.excludeMember_ok h]
    refine .mapDiscussions fun d _ hc => ?_
    rw [Discussion.excluding, if_pos hc]
    exact ⟨rfl, hc⟩
  | reserved _ _ _ _ h =>
    obtain ⟨rfl, -⟩ := Room.reserve_ok h
    exact .refl r
  | prepared t _ ht _ _ _ h =>
    obtain ⟨t, ht, hs, -, h⟩ := Room.prepare_ok h
    rcases h with ⟨id, -, -, hbudget, -, -, -, -, rfl⟩ | ⟨-, rfl⟩
    · rw [settle_of_discussion _ _ hbudget]
      exact .modifyDiscussion fun d _ _ hc => ⟨rfl, hc⟩
    · exact .refl r
  | finished h =>
    obtain ⟨t, ht, hs, h'⟩ := Room.finish_ok h
    clear h
    have hflight : t.state.inFlight = true := by rw [hs]; rfl
    rcases h' with ⟨-, rfl⟩ | rfl
    all_goals exact .settle hr hd (TeamSession.id_of_attempt ht).1 hflight
  | accepted _ ht _ h =>
    have hmem := (Room.eventAttempt_some ht).1
    rcases Room.accept_ok h with ⟨hs, rfl⟩ | ⟨-, rfl⟩
    · exact .settle hr hd hmem (by rw [hs]; rfl)
    · exact .refl r
  | completed t _ ht hc h =>
    obtain ⟨m, -, -, rfl⟩ := Room.complete_ok h
    have hs := Attempt.accepted_of_completes hc
    exact .settle hr.pushMessage hd (Room.eventAttempt_some ht).1 (by rw [hs]; rfl)
  | failed _ ht hf h =>
    rw [Room.fail_ok h]
    exact .settle hr hd (Room.eventAttempt_some ht).1 hf
  | abandoned hx =>
    obtain ⟨t, ht, rfl, hf⟩ := hx
    exact fun d hmem hc => absurd hc (hop _ rfl d hmem)
  | started _ _ h =>
    obtain ⟨hall, -, rfl, -⟩ := Room.createDiscussion_ok h
    intro e he hc
    exact ⟨e, mem_map.mpr ⟨e, mem_append_left _ he, if_neg (hv'.started_ne e he)⟩, rfl, hc⟩
  | userInput => exact .mapDiscussions fun d _ hc => Discussion.paused_completed hc _
  | stageOpened d _ _ _ _ hc => exact .modifyDiscussion fun d _ _ hc => ⟨rfl, hc⟩
  | continued d _ _ hd' hc | finishing d _ _ hd' hc =>
    obtain ⟨hmem, rfl⟩ := TeamSession.id_of_discussion hd'
    exact .modifyOther (r := r.cancelReservations d.id) hd hmem hc
  | modeChanged d _ _ hd' h =>
    obtain ⟨hmem, rfl⟩ := TeamSession.id_of_discussion hd'
    exact .modifyOther (r := r.cancelReservations d.id) hd hmem (Discussion.changeMode_ok h).1
  | decided =>
    refine .modifyDiscussion fun e _ _ hc => ?_
    rw [Discussion.modifyLastStage]
    split <;> exact ⟨rfl, hc⟩

/-- Abandoning an attempt completes no discussion. -/
theorem Change.unfinished {id : AttemptId} (h : Change n (.abandonRestoredAttempt id) r r')
    (hr : r.Unfinished) : r'.Unfinished := by
  rcases h with hq | _ | _ | _ | ⟨intents, ids, -, -, h⟩ | _ | _ | _ | _ | _ | ⟨-, h⟩ | _ | ⟨input⟩ | _
  case quiet =>
    intro d' hd' hc
    obtain ⟨d, hd, hdd'⟩ := hq.of_mem hd'
    exact hr d hd (hdd'.completed.mp hc)
  case reserved =>
    obtain ⟨rfl, -⟩ := Room.reserve_ok h
    exact hr
  case abandoned =>
    rw [Room.abandon_ok h]
    intro d' hd'
    obtain ⟨d, -, rfl⟩ := mem_map.mp hd'
    exact Discussion.settlePause_ne_completed _
  case userInput =>
    intro d' hd'
    obtain ⟨d, hd, rfl⟩ := mem_map.mp hd'
    exact Discussion.paused_unfinished (hr d hd) _

end

/-! ## Runs -/

/-- The checks of `abandon_restored_attempt`. -/
def TeamSession.mayAbandon {J : Serde Room} (s : TeamSession J) (id : AttemptId) : Bool :=
  !s.hasLiveAttempts && decide (id ∈ s.unresolved)

/-- Attempts are abandoned only while no discussion of the room has completed. -/
def AbandonsUnfinished {J : Serde Room} (p : TeamProcess J) (c : Call) : Prop :=
  ∀ id, c.operation = .abandonRestoredAttempt id → p.session.mayAbandon id = true →
    p.session.room.Unfinished

section

variable {J : Serde Room} [TeamText]

theorem preserved_completed : Preserved
    (fun op r => ∀ id, op = .abandonRestoredAttempt id → r.Unfinished) Room.Coherent
    Room.KeepsCompleted where
  blank _ h := h.coherent
  refl := .refl
  trans _ _ _ := .trans
  opening _ _ := nofun
  step _ op _ _ hs hL hr := by
    refine ⟨hs.coherent hr, hs.keepsCompleted hr hL, fun id hop => ?_⟩
    have hc := hs.change
    rw [hop] at hc
    exact hc.unfinished (hL id hop)

/-- Nothing is saved when the checks refuse. -/
theorem unfinished_or_kept (p : TeamProcess J) (c : Call) (p' : TeamProcess J)
    (h : AbandonsUnfinished p c) (hstep : (teams J).step p c p') :
    (∀ id, c.operation = .abandonRestoredAttempt id → p.session.room.Unfinished) ∨
      p'.session.storage = p.session.storage := by
  by_cases hop : ∃ id, c.operation = .abandonRestoredAttempt id ∧ p.session.mayAbandon id = false
  · obtain ⟨id, hop, hmay⟩ := hop
    obtain ⟨s', hact, hp', -⟩ := TeamProcess.step_act hstep
    rw [hop, TeamSession.act, TeamSession.abandonRestoredAttempt, if_pos] at hact
    · obtain ⟨-, rfl⟩ := Prod.mk.inj hact
      exact .inr (by rw [hp'])
    · simp only [TeamSession.mayAbandon, Bool.and_eq_false_iff, Bool.not_eq_false',
        decide_eq_false_iff_not] at hmay
      have hguard : (p.session.hasLiveAttempts || decide (id ∉ p.session.unresolved)) = true := by
        simpa using hmay
      exact hguard
  · refine .inl fun id hid => h id hid ?_
    by_contra hmay
    exact hop ⟨id, hid, Bool.eq_false_of_not_eq_true hmay⟩

/-- The room without the attempt passes the store's check. -/
theorem checkUpdate_abandon {r : Room} {t : Attempt} (hvalid : r.validate = .ok ())
    (ht : t ∈ r.attempts) (hf : t.state.inFlight = true) (hr : r.Unfinished) :
    ∃ next, r.abandon t.id = .ok next ∧ TeamSession.checkUpdate r next = .ok () := by
  have hv := valid_of_validate hvalid
  have hsome : (r.attempt t.id).isNone = false := by
    rcases h : r.attempt t.id with _ | _
    · simpa using find?_eq_none.mp h t ht
    · rfl
  refine ⟨_, by rw [Room.abandon, hsome]; rfl, ?_⟩
  have hshape : r.SameShape ((r.modifyAttempt t.id fun t => { t with state := .abandoned }).mapDiscussions
      (Room.abandonDiscussion t.id)) := by
    refine .mapDiscussions (.modifyAttempt (.refl r) fun u hu hid => ?_) fun d hd =>
      .abandonDiscussion (.refl d) (hr d hd)
    rw [hv.attempt_eq hu ht hid]
    exact .of_inFlight hf (.inr rfl)
  exact bind_ok.mpr ⟨(), hshape.validate hvalid, hshape.validateUpdate hv⟩

/-- **A completed discussion is final** as long as attempts are abandoned only while none has
completed: it stays completed, at most one discussion is not completed, and the store never refuses to
abandon an unresolved attempt. -/
theorem completed_final {labels : List Call} {p : TeamProcess J}
    (hr : Run ((teams J).restrict AbandonsUnfinished) labels p) :
    p.session.room.activeDiscussions.length ≤ 1 ∧
    ∀ c p', AbandonsUnfinished p c → (teams J).step p c p' →
      p.session.room.KeepsCompleted p'.session.room ∧
      ∀ id, c.operation = .abandonRestoredAttempt id → p.session.mayAbandon id = true →
        ∃ next, p.session.room.abandon id = .ok next ∧
          TeamSession.checkUpdate p.session.room next = .ok () := by
  obtain ⟨hs, hp⟩ := preserved_completed.run unfinished_or_kept hr
  refine ⟨hs.valid.active, fun c p' hallowed hstep ↦ ⟨?_, fun id hop hmay ↦ ?_⟩⟩
  · exact (preserved_completed.step_or hs hp (unfinished_or_kept p c p' hallowed hstep) hstep).2
  · have hopen : p.isOpen = true := hstep.1.resolve_right (by rw [hop]; exact nofun)
    have hu : id ∈ p.session.unresolved := by
      simp only [TeamSession.mayAbandon, Bool.and_eq_true, decide_eq_true_eq] at hmay
      exact hmay.2
    obtain ⟨t, ht, rfl, hf, -⟩ := hs.tracked hopen id hu
    exact checkUpdate_abandon (hs.rooms _ p.holds_room).1 ht hf (hallowed _ hop hmay)

end

/-! ## The run that reopens a discussion -/

section

attribute [local instance] plainText

instance (r r' : Room) : Decidable (r.KeepsCompleted r') :=
  inferInstanceAs (Decidable (∀ d ∈ r.discussions, _ → ∃ d' ∈ r'.discussions, _))

theorem completed_final_alice :
    (aliceAfter reportThenRequest).session.room.activeDiscussions.length ≤ 1 := by
  obtain ⟨labels, hr⟩ := run_alice AbandonsUnfinished reportThenRequest reportThenRequest_may
    fun p c hc id hid ↦ by simp [hid, reportThenRequest] at hc
  exact (completed_final hr).1

/-- Abandoning the request reopens the completed discussion. -/
theorem completed_reopened : ∃ labels c p',
    Run (teams (.plain Room)) labels (aliceAfter reportThenRequest) ∧
    (teams (.plain Room)).step (aliceAfter reportThenRequest) c p' ∧
    ¬ (aliceAfter reportThenRequest).session.room.KeepsCompleted p'.session.room := by
  obtain ⟨labels, hr⟩ := reportThenRequest_run
  refine ⟨labels, _, _, hr,
    TeamProcess.step_call (.abandonRestoredAttempt ⟨⟨7, 0⟩⟩) [] ?_, ?_⟩
  all_goals decide +kernel

end

end NiumaTerm.Team
