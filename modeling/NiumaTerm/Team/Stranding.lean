import NiumaTerm.Team.Coherence
import NiumaTerm.Team.Runs

/-!
# The status of discussions in runs

Every change of a room keeps the status of its discussions accurate, apart from the completion of a turn
that strands its discussion: an interaction pauses it while a turn runs and is resolved before the turn
completes (`status_stranded`).
-/

namespace NiumaTerm.Team

open Rust Transition Durable List

/-! ## Changes -/

namespace Room

variable {r : Room} {t : Attempt}

/-- The operation completes the last active turn of a discussion that is pausing although nothing
but that turn's uncertainty pauses it. -/
def Strands (r : Room) : Operation → Prop
  | .completeReply key turn _ => ∃ t d, r.eventAttempt key = some t ∧ t.completes turn = true ∧
      d ∈ r.discussions ∧ t.intent.budget = .discussion d.id ∧ d.Strands t
  | _ => False

/-- The discussions of a room after the outcome of an attempt. -/
theorem accurate_settle {change : Attempt → Attempt} {mark : Discussion → Discussion}
    (h : ∀ d ∈ r.discussions, d.Accurate)
    (hmark : ∀ d ∈ r.discussions, t.intent.budget = .discussion d.id → (mark d).Accurate) :
    ∀ d ∈ (r.settle t change mark).discussions, d.Accurate := by
  intro d' hd'
  rw [Room.settle] at hd'
  split at hd'
  · next id hb =>
    obtain ⟨d, hd, rfl⟩ := mem_map.mp hd'
    split
    · next hid => exact hmark d hd (by rw [hid]; exact hb)
    · exact h d hd
  · exact h d' hd'

theorem accurate_modify {id : DiscussionId} {f : Discussion → Discussion}
    (h : ∀ d ∈ r.discussions, d.Accurate) (hf : ∀ d ∈ r.discussions, d.id = id → (f d).Accurate) :
    ∀ d ∈ (r.modifyDiscussion id f).discussions, d.Accurate := by
  intro d' hd'
  obtain ⟨d, hd, rfl⟩ := mem_map.mp hd'
  split
  · next hid => exact hf d hd hid
  · exact h d hd

end Room

section

variable [TeamText] {n : ℕ} {op : Operation} {r r' : Room}

/-- **Every change keeps the status of the discussions accurate,** unless it strands one. -/
theorem Room.Step.accurate (h : r.Step n op r') (hr : r.Coherent) (hs : ¬ r.Strands op)
    (ha : ∀ d ∈ r.discussions, d.Accurate) : ∀ d ∈ r'.discussions, d.Accurate := by
  obtain ⟨hv, hv', hb, hc⟩ := h
  have hn := hv.attempts_nodup
  cases hc with
  | quiet hq =>
    intro d' hd'
    obtain ⟨d, hd, hdd⟩ := hq.of_mem hd'
    exact hdd.accurate (ha d hd)
  | reopened =>
    intro d' hd'
    obtain ⟨d, -, rfl⟩ := mem_map.mp hd'
    exact Discussion.accurate_reopened d
  | ready _ ho hon h =>
    refine Room.fails_induction (P := fun q => ∀ d ∈ q.discussions, d.Accurate) h hon hn ho ?_
      fun q t q' _ _ _ hq hfail => ?_
    · intro d' hd'
      obtain ⟨d, hd, rfl⟩ := mem_map.mp hd'
      exact (ha d hd).resolved
    · rw [Room.fail_ok hfail]
      exact Room.accurate_settle hq fun d _ _ => Discussion.accurate_failTurn t true d
  | @excluded id _ _ _ h =>
    rw [Room.excludeMember_ok h]
    intro d' hd'
    obtain ⟨d, hd, rfl⟩ := mem_map.mp hd'
    exact (ha d hd).excluding id
  | reserved _ _ _ _ h =>
    obtain ⟨rfl, -⟩ := Room.reserve_ok h
    exact ha
  | prepared _ _ ht _ hgo _ h =>
    obtain ⟨u, hu, -, -, h'⟩ := Room.prepare_ok h
    obtain rfl := Option.some.inj (hu.symm.trans ht)
    rcases h' with ⟨-, -, -, -, -, -, -, -, rfl⟩ | ⟨-, rfl⟩
    · refine Room.accurate_settle ha fun d hd hbudget => (ha d hd).markGoing ?_
      obtain ⟨e, he, hdispatchable⟩ := hgo d.id hbudget
      obtain ⟨hmem, hid⟩ := TeamSession.id_of_discussion he
      obtain rfl := hv.discussion_eq hd hmem hid.symm
      simp only [Discussion.isDispatchable, Bool.and_eq_true] at hdispatchable
      exact hdispatchable.2
    · exact ha
  | finished h =>
    obtain ⟨t, -, -, h' | h'⟩ := Room.finish_ok h
    · rw [h'.2]
      exact Room.accurate_settle ha fun d _ _ => Discussion.accurate_failTurn t false d
    · rw [h']
      exact Room.accurate_settle ha fun d _ _ => Discussion.accurate_failTurn t true d
  | accepted t ht _ h =>
    rcases Room.accept_ok h with ⟨hu, rfl⟩ | ⟨-, rfl⟩
    · refine Room.accurate_settle ha fun d hd hbudget => (ha d hd).reacceptTurn ?_ t
      obtain ⟨-, s, a, hlast, hmem, -, hactive, -⟩ := hr.turn (Room.eventAttempt_some ht).1 hbudget
        hv.discussions_nodup hd (by rw [hu]; rfl)
      rw [Discussion.hasActiveWork, any_eq_true]
      exact ⟨a, Discussion.mem_arrangements.mpr ⟨s, mem_of_getLast? hlast, hmem⟩, hactive⟩
    · exact ha
  | completed t _ ht hc h =>
    obtain ⟨m, -, -, rfl⟩ := Room.complete_ok h
    refine Room.accurate_settle (r := r.pushMessage _) ha fun d hd hbudget => ?_
    exact (Discussion.accurate_completeTurn (ha d hd) t).mpr fun hstrands =>
      hs ⟨t, d, ht, hc, hd, hbudget, hstrands⟩
  | @failed _ uncertain _ _ t _ _ h =>
    rw [Room.fail_ok h]
    exact Room.accurate_settle ha fun d _ _ => Discussion.accurate_failTurn t uncertain d
  | abandoned hx h =>
    obtain ⟨t, ht, rfl, hf⟩ := hx
    rw [Room.abandon_ok h]
    intro d' hd'
    obtain ⟨d, -, rfl⟩ := mem_map.mp hd'
    exact Discussion.accurate_abandonDiscussion t.id d
  | started d _ h =>
    obtain ⟨-, -, rfl, hd⟩ := Room.createDiscussion_ok h
    have hnew := hv'.started_ne
    refine Room.accurate_modify
      (r := Room.pushMessage { r with discussions := r.discussions ++ [d] } _)
      (fun e he => ?_) fun e he hid => ?_
    · rcases mem_append.mp he with he | he
      · exact ha e he
      · rw [mem_singleton.mp he, hd]
        exact ⟨by rintro ⟨⟩, by rintro ⟨⟩, by rintro ⟨⟩⟩
    · rcases mem_append.mp he with he | he
      · exact absurd hid (hnew e he)
      · rw [mem_singleton.mp he, hd]
        exact ⟨fun _ => rfl, by rintro ⟨⟩, by rintro ⟨⟩⟩
  | userInput =>
    intro d' hd'
    obtain ⟨d, -, rfl⟩ := mem_map.mp hd'
    exact Discussion.accurate_paused d _
  | stageOpened d =>
    exact Room.accurate_modify ha fun d hd _ => (ha d hd).pushPending
  | continued _ _ _ hd' _ _ hp =>
    refine Room.accurate_modify ha fun e he hid => Discussion.accurate_continued ?_
    obtain ⟨hmem, rfl⟩ := TeamSession.id_of_discussion hd'
    rw [hv.discussion_eq he hmem hid]
    exact hp
  | modeChanged _ _ _ _ h =>
    exact Room.accurate_modify ha fun _ _ _ => (Discussion.accurate_changeMode h).modeChanged _
  | finishing d _ hidle =>
    refine Room.accurate_modify ha fun d hd _ => Discussion.accurate_finishing ?_
    exact Discussion.not_hasActiveWork.mpr (hr.not_active hidle d hd)
  | decided d =>
    exact Room.accurate_modify ha fun d hd _ => (ha d hd).modifyLastStage fun _ => rfl

end

/-! ## Runs -/

section

variable {J : Serde Room} [TeamText] {p p' : TeamProcess J} {c : Call}

/-- The records agree, and so does the status of the discussions. -/
def Room.Tidy (r : Room) : Prop := r.Coherent ∧ ∀ d ∈ r.discussions, d.Accurate

/-- Operations other than completions. -/
theorem kept_tidy : Kept (fun op _ => ∀ key turn text, op ≠ .completeReply key turn text) Room.Tidy
    fun _ _ => True where
  refl _ := trivial
  trans _ _ _ _ _ := trivial
  opening _ _ := nofun
  step n op r r' hstep hop htidy := by
    have hstrands : ¬ r.Strands op := by
      intro hs
      unfold Room.Strands at hs
      split at hs
      · exact hop _ _ _ rfl
      · exact hs
    exact ⟨⟨hstep.coherent htidy.1, hstep.accurate htidy.1 hstrands htidy.2⟩, trivial, hop⟩

/-- A completion saves nothing, or the room that `complete` gives. -/
theorem TeamSession.storage_completeReply (s : TeamSession J) (key : AttemptEventKey)
    (turn text : Str) : (s.completeReply key turn text).2.storage = s.storage ∨
      ∃ t reply next, s.room.eventAttempt key = some t ∧ t.completes turn = true ∧
        s.room.complete t text s.serial = .ok (reply, next) ∧
        (s.completeReply key turn text).2.storage =
          (s.storage.commit roomFormat (saving next (s.writes.headD .done))).2 := by
  rw [completeReply]
  split
  · exact .inl rfl
  next t ht =>
  split
  · exact .inl rfl
  next hc =>
  have hcompletes : t.completes turn = true := by simpa using hc
  have hthen : ∀ x : Outcome J MessageId, (andThen x fun id s =>
      (.ok (some id), { s with unresolved := s.unresolved.erase key.attempt }) :
        Outcome J (Option MessageId)).2.storage = x.2.storage := by
    rintro ⟨_ | _, _⟩ <;> rfl
  rw [hthen]
  cases hplan : s.room.complete t text s.serial with
  | error e => exact .inl rfl
  | ok result =>
    obtain ⟨reply, next⟩ := result
    exact .inr ⟨t, reply, next, ht, hcompletes, hplan, save_storage⟩

/-- **A completion** that does not strand its discussion. -/
theorem TeamProcess.tidy_completeReply (hs : p.Sound) (hp : ∀ r, p.Holds r → r.Tidy)
    {key : AttemptEventKey} {turn text : Str} (hop : c.operation = .completeReply key turn text)
    (hstrands : ¬ p.session.room.Strands c.operation) (h : (teams J).step p c p') :
    ∀ r, p'.Holds r → r.Tidy := by
  rintro r ⟨revision, hheld⟩
  have hvalid := (sound_step hs h).rooms r ⟨revision, hheld⟩
  obtain ⟨s', hact, hp', -⟩ := step_act h
  rw [hop, TeamSession.act] at hact
  let s : TeamSession J := { p.session with writes := c.writes }
  have hstorage : p'.session.storage = (s.completeReply key turn text).2.storage := by
    rw [hp']
    exact congrArg (fun x => x.2.storage) hact.symm
  obtain ⟨cell, hr⟩ := hs.cell
  rw [hstorage] at hheld
  rcases s.storage_completeReply key turn text with
    hsame | ⟨t, reply, next, ht, hc, hplan, hsave⟩
  · rw [hsame] at hheld
    exact hp r ⟨revision, hheld⟩
  rw [hsave] at hheld
  rcases hr.holds_commit rfl hheld with hold | hnext
  · exact hp r ⟨revision, hold⟩
  obtain rfl : r = next := hnext
  obtain ⟨hcoherent, haccurate⟩ := hp _ p.holds_room
  have hstep : Room.Step p.session.serial c.operation p.session.room r := by
    refine ⟨hs.valid, valid_of_validate hvalid.1, (hs.rooms _ p.holds_room).2.mono, ?_⟩
    rw [hop]
    exact .completed t reply ht hc hplan
  exact ⟨hstep.coherent hcoherent, hstep.accurate hcoherent hstrands haccurate⟩

/-- The steps that strand no discussion. -/
def TeamProcess.StrandsNone (p : TeamProcess J) (c : Call) : Prop :=
  ¬ p.session.room.Strands c.operation

/-- **The status of every discussion** agrees with its pauses and its work, in every run whose
completions strand no discussion. -/
theorem status_accurate {labels : List Call}
    (h : Run ((teams J).restrict TeamProcess.StrandsNone) labels p) :
    ∀ d ∈ p.session.room.discussions, d.Accurate := by
  have hinv : p.Sound ∧ ∀ r, p.Holds r → r.Tidy := by
    refine h.invariant (I := fun p ↦ p.Sound ∧ ∀ r, p.Holds r → r.Tidy) (fun p hi ↦ ?_) ?_
    · refine ⟨TeamProcess.sound_init hi, fun r hr ↦ ?_⟩
      have hblank : ∀ r : Room, r.Blank → r.Tidy := fun r hb ↦
        ⟨hb.coherent, fun d hd ↦ by simp [hb.discussions] at hd⟩
      exact (({ kept_tidy with blank := hblank } : Preserved _ _ _).init hi r hr).1
    · rintro p c p' ⟨hs, hp⟩ ⟨hallowed, hstep⟩
      refine ⟨TeamProcess.sound_step hs hstep, ?_⟩
      by_cases hop : ∃ key turn text, c.operation = .completeReply key turn text
      · obtain ⟨key, turn, text, hop⟩ := hop
        exact TeamProcess.tidy_completeReply hs hp hop hallowed hstep
      · have hother : ∀ key turn text, c.operation ≠ .completeReply key turn text :=
          fun key turn text he ↦ hop ⟨key, turn, text, he⟩
        have hkept := kept_tidy.step_rule hs (fun r hr ↦ ⟨hp r hr, trivial⟩) hother hstep
        exact fun r hr ↦ (hkept.1 r hr).1
  exact (hinv.2 _ p.holds_room).2

end

section

attribute [local instance] plainText

/-- A turn of Alice runs. -/
def turnRunning : List Operation := [
  .memberReady aliceId 1 .unavailable,
  .startDiscussion { text := "plan".toList } [aliceId] (.fixed aliceId),
  .advanceDiscussion ⟨⟨1, 0⟩⟩ aliceLimits,
  .prepareDispatch ⟨⟨2, 0⟩⟩,
  .acceptAttempt ⟨⟨⟨2, 0⟩⟩, aliceId, 1⟩ "turn".toList]

/-- The turn completes. -/
def answered : Operation := .completeReply ⟨⟨⟨2, 0⟩⟩, aliceId, 1⟩ "turn".toList "answer".toList

/-- The user pauses the discussion while the turn runs. -/
def pausedTurn : List Operation := turnRunning ++ [.pauseDiscussion ⟨⟨1, 0⟩⟩ .user]

theorem status_accurate_paused : ∃ p : TeamProcess (.plain Room),
    (∃ d ∈ p.session.room.discussions, d.state = .paused) ∧
      ∀ d ∈ p.session.room.discussions, d.Accurate := by
  have hstate : aliceMay pausedTurn = true ∧ (aliceAfter pausedTurn).isOpen = true ∧
      (∀ d ∈ (aliceAfter pausedTurn).session.room.discussions, .user ∈ d.pauses) ∧
      ∃ d ∈ ((aliceAfter pausedTurn).call answered []).2.session.room.discussions,
        d.state = .paused := by decide +kernel
  obtain ⟨hmay, hopen, hpauses, hpaused⟩ := hstate
  obtain ⟨labels, hr⟩ := run_alice TeamProcess.StrandsNone pausedTurn hmay fun p c hc ↦ by
    simp only [pausedTurn, turnRunning, cons_append, nil_append, mem_cons,
      not_mem_nil, or_false] at hc
    rcases hc with hc | hc | hc | hc | hc | hc <;> rw [TeamProcess.StrandsNone, hc] <;>
      exact not_false
  have hstep := TeamProcess.step_call (J := .plain Room) answered [] (p := aliceAfter pausedTurn)
    (by rw [hopen]; rfl)
  have hrun := hr.step ⟨?_, hstep⟩
  · exact ⟨_, hpaused, status_accurate hrun⟩
  · rintro ⟨t, d, -, -, hd, -, -, -, hown, -⟩
    cases hown _ (hpauses d hd)

/-- An interaction of Alice pauses the discussion while the turn runs; it is resolved, and the turn
completes. -/
def interactedTurn : List Operation := turnRunning ++ [
  .pauseDiscussion ⟨⟨1, 0⟩⟩ (.interaction aliceId),
  .resolvePause ⟨⟨1, 0⟩⟩ (.interaction aliceId),
  answered]

/-- The discussion is pausing although nothing of it is active. -/
theorem status_stranded : ∃ labels, Run (teams (.plain Room)) labels (aliceAfter interactedTurn) ∧
    (aliceAfter interactedTurn).isOpen = true ∧
    ∃ d ∈ (aliceAfter interactedTurn).session.room.discussions, d.state = .pausing ∧
      ∀ a ∈ d.arrangements, a.state.isActive = false := by
  have hstate : aliceMay interactedTurn = true ∧ (aliceAfter interactedTurn).isOpen = true ∧
      ∃ d ∈ (aliceAfter interactedTurn).session.room.discussions, d.state = .pausing ∧
        ∀ a ∈ d.arrangements, a.state.isActive = false := by decide +kernel
  obtain ⟨labels, hr⟩ := run_alice (fun _ _ ↦ True) interactedTurn hstate.1 fun _ _ _ ↦ trivial
  exact ⟨labels, hr.of_restrict, hstate.2⟩

end

end NiumaTerm.Team
