import NiumaTerm.Team.Progress
import NiumaTerm.Team.Sending

/-!
# No stale and no leaking turns

A turn of a discussion is given the last segment of the stage it serves, and nothing outside it.  While a
discussion is going, that segment holds every user message (`Room.Fresh`).
-/

namespace NiumaTerm.Team

open Transition List

/-! ## Going discussions have seen every user message -/

/-- The public content of now: the last segment of the last stage. -/
def Discussion.boundary (d : Discussion) : Option PublicSnapshot :=
  d.stages.getLast?.bind fun s => s.segments.getLast?

/-- A discussion that is going has seen every user message. -/
def Room.Fresh (r : Room) : Prop := ∀ d ∈ r.discussions, d.state.isGoing = true →
  ∀ snapshot, d.boundary = some snapshot → ∀ m ∈ r.messages, m.author = .user → m.id ∈ snapshot.messages

section

variable {n : ℕ} {op : Operation} {r r' : Room}

theorem Discussion.boundary_of_outline {d d' : Discussion} (h : d'.outline = d.outline) :
    d'.boundary = d.boundary := by
  have hb (e : Discussion) : e.boundary = e.outline.getLast?.bind fun s => s.segments.getLast? := by
    rw [boundary, outline, getLast?_map]
    rcases e.stages.getLast? <;> rfl
  rw [hb, hb, h]

variable {d : Discussion}

theorem Discussion.boundary_pushStage {s : Stage} :
    (d.pushStage s).boundary = s.segments.getLast? := by
  rw [boundary, pushStage, getLast?_concat, Option.bind_some]

theorem Discussion.boundary_continued {snapshot boundary : PublicSnapshot}
    (h : (d.continued snapshot n).boundary = some boundary) : boundary = snapshot := by
  rw [continued] at h
  split at h
  · have hp := boundary_pushStage (d := d.retainPauses fun reason => !reason.clearedByContinue)
      (s := .pending .moderatorDecision [d.mode.reportAuthor] snapshot n)
    exact Option.some.inj (h.symm.trans hp)
  · rw [modifyLastStage] at h
    split at h
    · next hl =>
      rw [Discussion.boundary, hl] at h
      cases h
    · rw [Discussion.boundary, getLast?_concat, Option.bind_some, getLast?_concat] at h
      exact (Option.some.inj h).symm

theorem Discussion.boundary_finishing {snapshot : PublicSnapshot} :
    (d.finishing snapshot n).boundary = some snapshot := by
  rw [finishing]
  exact boundary_pushStage

theorem Discussion.boundary_decided {decision : ModeratorDecision} :
    (d.modifyLastStage fun s => { s with decision := some decision }).boundary = d.boundary := by
  rw [modifyLastStage]
  split
  · rfl
  · next s hs =>
    rw [boundary, boundary, hs, getLast?_concat]
    rfl

/-- A discussion whose mode changed waits for the user. -/
theorem Discussion.modeChanged_not_going {d changed : Discussion} {mode : DiscussionMode}
    {isExcluded : MemberId → Bool} (h : d.changeMode mode = .ok changed) :
    (changed.modeChanged isExcluded).state.isGoing = false := by
  obtain ⟨hc, -, rfl⟩ := changeMode_ok h
  change (d.paused .modeChange).state.isGoing = false
  rw [paused_of_not_completed _ hc]
  exact settlePause_not_going _

variable [TeamText]

theorem Room.Step.fresh (h : r.Step n op r') (hr : r.Fresh) : r'.Fresh := by
  intro d' hd' hgo snapshot hs m hm hu
  rcases h.progress.messages m hm hu with hm | hstop
  case inr =>
    rw [Discussion.boundary, hstop d' hd' hgo] at hs
    cases hs
  have hnow : m.id ∈ r.publicSnapshot.messages := mem_map_of_mem hm
  rcases h.progress.discussions d' hd' with ⟨hd, hcalm⟩ | _ | ⟨hd, -, -, -, -, -⟩ | ⟨hd, -, -, -⟩ |
    ⟨hd, -, -, h⟩ | ⟨hd, -, -⟩ | ⟨hd, -, -⟩
  case calm =>
    rw [Discussion.boundary_of_outline hcalm.outline] at hs
    exact hr _ hd (hcalm.going hgo) snapshot hs m hm hu
  case started => cases hs
  case opened =>
    rw [Discussion.boundary_pushStage] at hs
    rwa [← Option.some.inj hs]
  case continued => rwa [Discussion.boundary_continued hs]
  case modeChanged =>
    rw [Discussion.modeChanged_not_going h] at hgo
    cases hgo
  case finishing =>
    rw [Discussion.boundary_finishing] at hs
    rwa [← Option.some.inj hs]
  case decided =>
    rw [Discussion.boundary_decided] at hs
    refine hr _ hd ?_ snapshot hs m hm hu
    rw [Discussion.modifyLastStage] at hgo
    split at hgo <;> exact hgo

/-- The text of every attempt shows only what is within its snapshot. -/
def Room.Showing (r : Room) : Prop := ∀ t ∈ r.attempts, t.intent.Shows r

theorem Room.Step.showing (h : r.Step n op r') (hr : r.Showing) : r'.Showing := by
  have he := h.evolves
  intro t' ht'
  suffices t'.intent.Shows r from this.mono he.messages.subset he.summaries
  rcases h.tame with htame | ⟨t, hstart⟩ | ⟨t, reply, hp⟩
  · obtain ⟨t, ht, htt⟩ | ⟨-, -, hshows⟩ := htame.attempts.of_mem ht'
    · rw [htt.intent]
      exact hr t ht
    · exact hshows
  · rw [hstart.attempts] at ht'
    obtain ⟨u, hu, rfl⟩ := mem_map.mp ht'
    split <;> exact hr u hu
  · rw [hp.attempts] at ht'
    obtain ⟨u, hu, rfl⟩ := mem_map.mp ht'
    split <;> exact hr u hu

end

/-! ## What a turn is given -/

section

variable {r : Room} {id : DiscussionId} {s : Stage} {intent : DispatchIntent}

/-- An intent is for an arrangement of a stage, and has its last segment. -/
structure Stage.IsServedBy (s : Stage) (intent : DispatchIntent) : Prop where
  stage : intent.stage = some s.id
  arrangement : ∃ a ∈ s.arrangements, a.operation = intent.operation ∧ a.recipient = intent.recipient
  snapshot : s.segments.getLast? = some intent.snapshot

/-- An attempt of a discussion that can be prepared serves the last stage. -/
theorem Room.Coherent.isServedBy {next : Room} {attempt : AttemptId} (hr : r.Coherent) (hv : r.Valid)
    (h : r.prepare attempt = .ok (intent, next)) (hb : intent.budget = .discussion id) :
    ∃ d ∈ r.discussions, d.id = id ∧ ∃ s, d.stages.getLast? = some s ∧ s.IsServedBy intent := by
  obtain ⟨t, ht, hs, rfl, hcases⟩ := prepare_ok h
  obtain ⟨hmem, rfl⟩ := TeamSession.id_of_attempt ht
  obtain ⟨w, hw, hfor⟩ := hr.linked.tracked t hmem id hb
  have hcurrent := hr.linked.current t hmem hs w hw hfor.operation
  rcases hcases with ⟨_, d', a, -, -, hd', ha, hpending, -⟩ | ⟨⟨-, -, hsummary⟩ | ⟨o, ho⟩, -⟩
  · obtain ⟨d, hd, hwd⟩ := mem_works.mp hw
    obtain ⟨s, hs, b, hbs, rfl⟩ := Discussion.mem_works.mp hwd
    obtain rfl : d.id = id := by simpa [hb] using hfor.budget.symm
    have haop : a.operation = t.intent.operation := by simpa using find?_some ha
    have hba : b = a := by
      obtain ⟨s', hs', ha'⟩ := Discussion.mem_arrangements.mp (mem_of_find?_eq_some ha)
      exact inj_on_of_nodup_map hv.operations_nodup (mem_arrangements.mpr ⟨d, hd, s, hs, hbs⟩)
        (mem_arrangements.mpr ⟨d', (TeamSession.id_of_discussion hd').1, s', hs', ha'⟩)
        (hfor.operation.symm.trans haop.symm)
    have hlast : d.stages.getLast? = some s := by
      rcases hl : d.stages.getLast? with _ | last
      · rw [getLast?_eq_none_iff.mp hl] at hs
        cases hs
      · rcases (Discussion.mem_stages_of_getLast? hl).mp hs with hs | rfl
        · have hset := (hr.orderly d hd).settled s hs
          rw [Stage.isSettled, all_eq_true] at hset
          have hset := hset b hbs
          rw [hba, hpending] at hset
          cases hset
        · rfl
    exact ⟨d, hd, rfl, s, hlast, hfor.stage, ⟨b, hbs, hfor.operation.symm, hfor.recipient.symm⟩, hcurrent⟩
  · rw [hfor.purpose] at hsummary
    exact absurd hsummary (stagePurpose_ne_summary _)
  · rw [ho] at hb
    cases hb

end

section

variable {J : Serde Room} [TeamText] {p p' q : TeamProcess J} {c : Call} {labels : List Call}

theorem preserved_fresh : Preserved (fun _ _ => True)
    (fun r => r.Coherent ∧ r.Fresh ∧ r.Showing) fun r r' => r.messages <+: r'.messages where
  blank r hr := ⟨hr.coherent, fun d hd => by simp [hr.discussions] at hd,
    fun t ht => by simp [hr.attempts] at ht⟩
  refl _ := prefix_rfl
  trans _ _ _ := List.IsPrefix.trans
  opening _ _ := trivial
  step _ _ _ _ hs _ h :=
    ⟨⟨hs.coherent h.1, hs.fresh h.2.1, hs.showing h.2.2⟩, hs.evolves.messages, trivial⟩

theorem messages_retained {before after : List Call} (hq : Run (teams J) before q)
    (hs : Steps (teams J) q after p) : q.session.room.messages <+: p.session.room.messages := by
  obtain ⟨hsound, hrooms⟩ := preserved_fresh.always hq
  refine (hs.stable (P := fun p => (p.Sound ∧ ∀ r, p.Holds r → (r.Coherent ∧ r.Fresh ∧ r.Showing) ∧
    p.session.room.messages <+: r.messages) ∧ q.session.room.messages <+: p.session.room.messages)
    (fun p c p' ⟨⟨hsound, hrooms⟩, hpre⟩ hstep => ?_) ⟨⟨hsound, hrooms⟩, prefix_rfl⟩).2
  obtain ⟨hrooms', hq'⟩ := preserved_fresh.toKept.step_rule hsound hrooms trivial hstep
  exact ⟨⟨TeamProcess.sound_step hsound hstep, hrooms'⟩, hpre.trans hq'⟩

/-- **No stale and no leaking turn.**  A discussion's attempt that is handed out serves the last stage
with that stage's last segment, which holds every user message; its text shows nothing outside the
segment, and so no message recorded after the segment was opened. -/
theorem turn_fresh {attempt : AttemptId} {intent : DispatchIntent} {id : DiscussionId}
    (h : Run (teams J) labels p) (hs : (teams J).step p c p')
    (hc : c.handed? = some (attempt, intent)) (hb : intent.budget = .discussion id) :
    (∃ d ∈ p.session.room.discussions, d.id = id ∧
      ∃ s, d.stages.getLast? = some s ∧ s.IsServedBy intent) ∧
    (∀ m ∈ p.session.room.messages, m.author = .user → m.id ∈ intent.snapshot.messages) ∧
    intent.Shows p.session.room ∧
    ∀ before after q, Run (teams J) before q → Steps (teams J) q after p →
      (∃ d ∈ q.session.room.discussions, ∃ s ∈ d.stages, intent.snapshot ∈ s.segments) →
      ∀ m ∈ p.session.room.messages, m ∉ q.session.room.messages →
        m.id ∉ intent.snapshot.messages := by
  obtain ⟨hsound, hrooms⟩ := preserved_fresh.always h
  obtain ⟨⟨hcoherent, hfresh, hshowing⟩, -⟩ := hrooms _ p.holds_room
  obtain ⟨hprepare, -, hgo⟩ := TeamProcess.step_handed hs (TeamProcess.sound_step hsound hs) hc
  obtain ⟨d, hd, hid, s, hlast, hserved⟩ := hcoherent.isServedBy hsound.valid hprepare hb
  obtain ⟨t, ht, -, hintent, -⟩ := Room.prepare_ok hprepare
  refine ⟨⟨d, hd, hid, s, hlast, hserved⟩, ?_, ?_, ?_⟩
  · refine hfresh d hd ?_ _ ?_
    · obtain ⟨d', hd', hdispatchable⟩ := hgo id hb
      obtain ⟨hmem', rfl⟩ := TeamSession.id_of_discussion hd'
      obtain rfl := hsound.valid.discussion_eq hd hmem' hid
      simp only [Discussion.isDispatchable, Bool.and_eq_true] at hdispatchable
      exact hdispatchable.2
    · rw [Discussion.boundary, hlast, Option.bind_some, hserved.snapshot]
  · rw [hintent]
    exact hshowing t (TeamSession.id_of_attempt ht).1
  · rintro before after q hq hsteps ⟨e, he, s', hs', hsnap⟩ m hm hnew hmem
    have hseg := (preserved_fresh.always hq).1.valid.segments e he s' hs' _ hsnap m.id hmem
    simp only [Room.hasMessage, any_eq_true, decide_eq_true_eq] at hseg
    obtain ⟨old, hold, hid'⟩ := hseg
    have hkept := (messages_retained hq hsteps).subset hold
    rw [inj_on_of_nodup_map hsound.valid.messages_nodup hkept hm hid'] at hold
    exact hnew hold

end

section

attribute [local instance] plainText

/-- The room when the report is about to be sent. -/
def reportAsked : TeamProcess (.plain Room) := aliceAfter (reportThenRequest.take 4)

def isTurnOf (id : DiscussionId) : Except TeamError (Option DispatchIntent) → Bool
  | .ok (some intent) => intent.budget = .discussion id
  | _ => false

theorem turn_fresh_alice : ∃ intent,
    (reportAsked.call (.prepareDispatch ⟨⟨3, 0⟩⟩) []).1 = .ok (some intent) ∧
    ∀ m ∈ reportAsked.session.room.messages, m.author = .user → m.id ∈ intent.snapshot.messages := by
  have hturn : aliceMay (reportThenRequest.take 4) = true ∧ reportAsked.isOpen = true ∧
      isTurnOf ⟨⟨1, 0⟩⟩ (reportAsked.call (.prepareDispatch ⟨⟨3, 0⟩⟩) []).1 = true := by decide +kernel
  obtain ⟨hmay, hopen, hturn⟩ := hturn
  obtain ⟨labels, hr⟩ := run_alice (fun _ _ ↦ True) (reportThenRequest.take 4) hmay fun _ _ _ ↦ trivial
  have hstep := TeamProcess.step_call (J := .plain Room) (.prepareDispatch ⟨⟨3, 0⟩⟩) []
    (p := reportAsked) (by rw [hopen]; rfl)
  unfold isTurnOf at hturn
  split at hturn
  · next intent hresult =>
    refine ⟨intent, hresult, ?_⟩
    rw [decide_eq_true_eq] at hturn
    rw [hresult] at hstep
    exact (turn_fresh hr.of_restrict hstep rfl hturn).2.1
  · cases hturn

end

end NiumaTerm.Team
