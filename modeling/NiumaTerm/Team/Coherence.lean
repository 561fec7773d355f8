import NiumaTerm.Team.Reach
import NiumaTerm.Team.Works

/-!
# What the records of a room agree on

`Room.Coherent` collects what every change keeps: attempts and arrangements are linked, only the last
stage of a discussion has open work, and a completed discussion has none.  `Change.coherent` says that
every change keeps it.
-/

namespace NiumaTerm.Team

open Rust Checks List

/-- The stages of a discussion are worked through in order. -/
structure Discussion.Orderly (d : Discussion) : Prop where
  /-- Only the last stage has open work. -/
  settled : ∀ s ∈ d.stages.dropLast, s.isSettled = true
  /-- One member writes the report. -/
  report : ∀ s ∈ d.stages, s.kind = .report → s.arrangements.length = 1
  /-- Nothing runs for a completed discussion. -/
  idle : d.state = .completed → d.hasActiveWork = false

structure Room.Coherent (r : Room) : Prop where
  linked : Linked r.works r.attempts
  orderly : ∀ d ∈ r.discussions, d.Orderly

/-- No turn of a stage is a summary. -/
theorem stagePurpose_ne_summary (kind : StageKind) : stagePurpose kind ≠ .summary := by
  cases kind <;> exact nofun

/-! ## The works of a discussion -/

namespace Discussion

variable {d e : Discussion} {f : Arrangement → ArrangementState}

theorem works_of_stages (hid : e.id = d.id) (hs : e.stages = d.stages) : e.works = d.works := by
  rw [works, works, hid, hs]

theorem mem_works {w : Work} : w ∈ d.works ↔ ∃ s ∈ d.stages, ∃ a ∈ s.arrangements,
    w = { discussion := d.id, stage := s.id, kind := s.kind, boundary := s.segments.getLast?,
          arrangement := a } := by
  simp [works, eq_comm]

theorem mem_arrangements {a : Arrangement} : a ∈ d.arrangements ↔
    ∃ s ∈ d.stages, a ∈ s.arrangements := by
  simp [arrangements]

@[simp] theorem works_paused (reason : PauseReason) : (d.paused reason).works = d.works :=
  works_of_stages (d.paused_id reason) (d.paused_stages reason)

@[simp] theorem works_resolved (reason : PauseReason) : (d.resolved reason).works = d.works := rfl

@[simp] theorem works_retainPauses (keep : PauseReason → Bool) :
    (d.retainPauses keep).works = d.works := rfl

@[simp] theorem works_settlePause : d.settlePause.works = d.works := rfl

@[simp] theorem works_settleHeld : (Room.settleHeld d).works = d.works := by
  rw [Room.settleHeld]
  split <;> rfl

theorem works_mapArrangements : (d.mapArrangements f).works =
    d.works.map fun w => w.withState (f w.arrangement) := by
  simp [works, mapArrangements, Stage.mapArrangements, flatMap_map, map_flatMap,
    Function.comp_def, Work.withState]

theorem works_mapStagesOf {p : StageKind → Bool} : (d.mapStagesOf p f).works =
    d.works.map fun w => w.withState (if p w.kind then f w.arrangement else w.state) := by
  simp only [works, mapStagesOf, flatMap_map, map_flatMap, map_map]
  refine flatMap_congr fun s _ => ?_
  split <;> simp_all [Stage.mapArrangements, Function.comp_def, Work.withState, Work.state]

def markWork (operation : OperationId) (a : ArrangementState) (w : Work) : Work :=
  w.withState (if w.operation = operation then a else w.state)

theorem works_markOperation {operation : OperationId} {a : ArrangementState} :
    (d.markOperation operation a).works = d.works.map (markWork operation a) :=
  works_mapArrangements

variable {s : Stage} {F : Stage → Stage}

theorem works_pushStage : (d.pushStage s).works = d.works ++ s.arrangements.map fun a =>
    { discussion := d.id, stage := s.id, kind := s.kind, boundary := s.segments.getLast?
      arrangement := a } := by
  simp [works, pushStage]

theorem modifyLastStage_of_some (hs : d.stages.getLast? = some s) :
    d.modifyLastStage F = { d with stages := d.stages.dropLast ++ [F s] } := by
  rw [modifyLastStage, hs]

theorem mem_stages_of_getLast? {s t : Stage} (hs : d.stages.getLast? = some s) :
    t ∈ d.stages ↔ t ∈ d.stages.dropLast ∨ t = s := by
  nth_rewrite 1 [← dropLast_append_getLast? s hs]
  rw [mem_append, mem_singleton]

theorem works_decided
    (hF : ∀ s, (F s).id = s.id ∧ (F s).kind = s.kind ∧ (F s).arrangements = s.arrangements ∧
      (F s).segments = s.segments) : (d.modifyLastStage F).works = d.works := by
  rcases hl : d.stages.getLast? with _ | s
  · rw [modifyLastStage, hl]
  obtain ⟨hid, hk, ha, hs⟩ := hF s
  have hstages := dropLast_append_getLast? s hl
  rw [modifyLastStage_of_some hl, works, works]
  conv_rhs => rw [← hstages]
  simp only [flatMap_append, flatMap_cons, flatMap_nil, hid, hk, ha, hs]

/-- A change of the last stage other than of its arrangements changes at most boundaries. -/
theorem works_modifyLastStage
    (hF : ∀ s, (F s).id = s.id ∧ (F s).kind = s.kind ∧ (F s).arrangements = s.arrangements) :
    (∀ w ∈ d.works, ∃ boundary, { w with boundary } ∈ (d.modifyLastStage F).works) ∧
      ∀ w' ∈ (d.modifyLastStage F).works, ∃ w ∈ d.works, ∃ boundary, w' = { w with boundary } := by
  rcases hl : d.stages.getLast? with _ | s
  · rw [modifyLastStage, hl]
    exact ⟨fun w hw => ⟨w.boundary, hw⟩, fun w hw => ⟨w, hw, w.boundary, rfl⟩⟩
  obtain ⟨hid, hk, ha⟩ := hF s
  rw [modifyLastStage_of_some hl]
  refine ⟨fun w hw => ?_, fun w' hw' => ?_⟩
  · obtain ⟨t, ht, a, hmem, rfl⟩ := mem_works.mp hw
    rcases (mem_stages_of_getLast? hl).mp ht with ht | rfl
    · exact ⟨t.segments.getLast?, mem_works.mpr ⟨t, mem_append_left _ ht, a, hmem, rfl⟩⟩
    · refine ⟨(F t).segments.getLast?, mem_works.mpr ⟨F t, mem_append_right _
        (mem_singleton_self _), a, by rwa [ha], ?_⟩⟩
      rw [hid, hk]
  · obtain ⟨t, ht, a, hmem, rfl⟩ := mem_works.mp hw'
    rcases mem_append.mp ht with ht | ht
    · exact ⟨_, mem_works.mpr ⟨t, (mem_stages_of_getLast? hl).mpr (.inl ht), a, hmem, rfl⟩, _, rfl⟩
    · rw [mem_singleton.mp ht] at hmem ⊢
      rw [ha] at hmem
      refine ⟨_, mem_works.mpr ⟨s, (mem_stages_of_getLast? hl).mpr (.inr rfl), a, hmem, rfl⟩,
        (F s).segments.getLast?, ?_⟩
      rw [hid, hk]

end Discussion

/-! ## The works of a room -/

namespace Room

variable {r : Room}

theorem mem_works {w : Work} : w ∈ r.works ↔ ∃ d ∈ r.discussions, w ∈ d.works := by
  simp [works]

theorem works_arrangements : r.works.map Work.arrangement = r.arrangements := by
  rw [works, map_flatMap]
  refine flatMap_congr fun d _ => ?_
  simp [Discussion.works, Discussion.arrangements, map_flatMap, Function.comp_def]

theorem Valid.work_eq (h : r.Valid) {w w' : Work} (hw : w ∈ r.works) (hw' : w' ∈ r.works)
    (he : w.operation = w'.operation) : w = w' := by
  have hn := h.operations_nodup
  rw [← works_arrangements, map_map] at hn
  exact inj_on_of_nodup_map hn hw hw' he

theorem works_mapDiscussions {f : Discussion → Discussion} {k : Work → Work}
    (h : ∀ d ∈ r.discussions, (f d).works = d.works.map k) :
    (r.mapDiscussions f).works = r.works.map k := by
  simp only [works, mapDiscussions, flatMap_map, map_flatMap]
  exact flatMap_congr h

theorem works_modifyDiscussion {id : DiscussionId} {f : Discussion → Discussion} {k : Work → Work}
    (h : ∀ d ∈ r.discussions, d.id = id → (f d).works = d.works.map k)
    (hk : ∀ w ∈ r.works, w.discussion ≠ id → k w = w) :
    (r.modifyDiscussion id f).works = r.works.map k := by
  refine works_mapDiscussions fun d hd => ?_
  split
  · next hid => exact h d hd hid
  · next hid =>
    refine ((map_congr_left fun w hw => ?_).trans (map_id _)).symm
    refine hk w (mem_works.mpr ⟨d, hd, hw⟩) ?_
    obtain ⟨s, -, a, -, rfl⟩ := Discussion.mem_works.mp hw
    exact hid

end Room

/-! ## Stages in order -/

namespace Discussion

variable {d e : Discussion} {f : Arrangement → ArrangementState}

theorem not_hasActiveWork : d.hasActiveWork = false ↔
    ∀ a ∈ d.arrangements, a.state.isActive = false := by
  simp [hasActiveWork]

theorem isActive_of_isSettled {a : ArrangementState} (h : a.isSettled = true) :
    a.isActive = false := by
  rcases a with _ | _ | _ | _ | _ | _ | _ <;> first | rfl | cases h

namespace Orderly

theorem of_stages (h : d.Orderly) (hs : e.stages = d.stages)
    (hc : e.state = .completed → d.state = .completed) : e.Orderly where
  settled := by rw [hs]; exact h.settled
  report := by rw [hs]; exact h.report
  idle hcompleted := by
    rw [hasActiveWork, arrangements, hs]
    exact h.idle (hc hcompleted)

theorem paused (h : d.Orderly) {reason : PauseReason} : (d.paused reason).Orderly := by
  refine h.of_stages (d.paused_stages reason) fun hc => ?_
  by_contra hne
  rw [paused_of_not_completed _ hne] at hc
  exact settlePause_ne_completed _ hc

theorem settlePause (h : d.Orderly) : d.settlePause.Orderly :=
  h.of_stages rfl fun hc => absurd hc (settlePause_ne_completed _)

theorem resolved (h : d.Orderly) {reason : PauseReason} : (d.resolved reason).Orderly :=
  h.of_stages rfl fun hc => hc

theorem retainPauses (h : d.Orderly) {keep : PauseReason → Bool} : (d.retainPauses keep).Orderly :=
  h.of_stages rfl fun hc => hc

theorem settleHeld (h : d.Orderly) : (Room.settleHeld d).Orderly := by
  rw [Room.settleHeld]
  split
  · exact h
  · exact h.settlePause

/-- Nothing but the states of arrangements changes, and settled work stays settled. -/
theorem mapStages {F : Stage → Stage} (h : d.Orderly)
    (hk : ∀ s ∈ d.stages, (F s).kind = s.kind ∧ (F s).arrangements.length = s.arrangements.length)
    (hs : ∀ s ∈ d.stages, s.isSettled = true → (F s).isSettled = true)
    (hc : d.state = .completed → ∀ s ∈ d.stages, ∀ a ∈ (F s).arrangements, a.state.isActive = false) :
    Orderly { d with stages := d.stages.map F } where
  settled := by
    intro s' hs'
    rw [← map_dropLast] at hs'
    obtain ⟨s, hmem, rfl⟩ := mem_map.mp hs'
    exact hs s (mem_of_mem_dropLast hmem) (h.settled s hmem)
  report := by
    intro s' hs' hr
    obtain ⟨s, hmem, rfl⟩ := mem_map.mp hs'
    rw [(hk s hmem).2]
    exact h.report s hmem ((hk s hmem).1.symm.trans hr)
  idle hcompleted := by
    refine not_hasActiveWork.mpr fun a ha => ?_
    obtain ⟨s', hs', ha⟩ := mem_arrangements.mp ha
    obtain ⟨s, hmem, rfl⟩ := mem_map.mp hs'
    exact hc hcompleted s hmem a ha

/-- Arrangements that a change leaves settled, and does not start. -/
structure Keeps (d : Discussion) (f : Arrangement → ArrangementState) : Prop where
  settled : ∀ a ∈ d.arrangements, a.state.isSettled = true → (f a).isSettled = true
  active : d.state = .completed → ∀ a ∈ d.arrangements, (f a).isActive = true →
    a.state.isActive = true

theorem isSettled_mapArrangements {s : Stage} (hs : s ∈ d.stages) (hf : Keeps d f)
    (h : s.isSettled = true) : (s.mapArrangements f).isSettled = true := by
  rw [Stage.isSettled, all_eq_true] at h
  rw [Stage.isSettled, Stage.mapArrangements, all_map, all_eq_true]
  exact fun a ha => hf.settled a (mem_arrangements.mpr ⟨s, hs, ha⟩) (h a ha)

theorem not_active_mapArrangements (h : d.Orderly) (hf : Keeps d f) (hc : d.state = .completed)
    {s : Stage} (hs : s ∈ d.stages) : ∀ a ∈ (s.mapArrangements f).arrangements,
    a.state.isActive = false := by
  intro a' ha'
  obtain ⟨a, ha, rfl⟩ := mem_map.mp ha'
  have hmem := mem_arrangements.mpr ⟨s, hs, ha⟩
  have hidle := not_hasActiveWork.mp (h.idle hc) a hmem
  by_contra hactive
  rw [Bool.not_eq_false] at hactive
  rw [hf.active hc a hmem hactive] at hidle
  cases hidle

theorem mapArrangements (h : d.Orderly) (hf : Keeps d f) : (d.mapArrangements f).Orderly :=
  h.mapStages (fun s _ => ⟨rfl, by simp [Stage.mapArrangements]⟩)
    (fun _ hs => isSettled_mapArrangements hs hf) fun hc _ hs => h.not_active_mapArrangements hf hc hs

theorem mapStagesOf (h : d.Orderly) {p : StageKind → Bool} (hf : Keeps d f) :
    (d.mapStagesOf p f).Orderly := by
  refine h.mapStages (fun s _ => ?_) (fun s hs hset => ?_) fun hc s hs => ?_
  · split
    · exact ⟨rfl, by simp [Stage.mapArrangements]⟩
    · exact ⟨rfl, rfl⟩
  · split
    · exact isSettled_mapArrangements hs hf hset
    · exact hset
  · split
    · exact h.not_active_mapArrangements hf hc hs
    · exact fun a ha => not_hasActiveWork.mp (h.idle hc) a (mem_arrangements.mpr ⟨s, hs, ha⟩)

/-- Open work of a discussion that goes on. -/
theorem markOperation (h : d.Orderly) {operation : OperationId} {a : ArrangementState}
    (hc : d.state ≠ .completed)
    (hop : ∀ b ∈ d.arrangements, b.operation = operation → b.state.isSettled = false) :
    (d.markOperation operation a).Orderly := by
  refine h.mapArrangements ⟨fun b hb hs => ?_, fun hc' => absurd hc' hc⟩
  rw [if_neg]
  · exact hs
  · intro he
    rw [hop b hb he] at hs
    cases hs

theorem pushStage (h : d.Orderly) {s : Stage} (hc : d.state ≠ .completed)
    (hs : d.stages.getLast?.all Stage.isSettled = true)
    (hr : s.kind = .report → s.arrangements.length = 1) : (d.pushStage s).Orderly where
  settled := by
    rw [Discussion.pushStage, dropLast_concat]
    intro s' hs'
    rcases hl : d.stages.getLast? with _ | last
    · rw [getLast?_eq_none_iff.mp hl] at hs'
      cases hs'
    · rw [← dropLast_append_getLast? last hl] at hs'
      rcases mem_append.mp hs' with hs' | hs'
      · exact h.settled s' hs'
      · rw [mem_singleton.mp hs']
        simpa [hl] using hs
  report := by
    intro s' hs'
    rcases mem_append.mp hs' with hs' | hs'
    · exact h.report s' hs'
    · rw [mem_singleton.mp hs']
      exact hr
  idle hcompleted := absurd hcompleted hc

theorem modifyLastStage (h : d.Orderly) {F : Stage → Stage}
    (hF : ∀ s, (F s).kind = s.kind ∧ (F s).arrangements = s.arrangements) :
    (d.modifyLastStage F).Orderly := by
  rw [Discussion.modifyLastStage]
  split
  · exact h
  next s hs =>
  have hstages := dropLast_append_getLast? s hs
  refine ⟨?_, ?_, fun hc => ?_⟩
  · rw [dropLast_concat]
    exact h.settled
  · intro s' hs' hr
    rcases mem_append.mp hs' with hs' | hs'
    · exact h.report s' (mem_of_mem_dropLast hs') hr
    · rw [mem_singleton.mp hs'] at hr ⊢
      rw [(hF s).2]
      exact h.report s (mem_of_getLast? hs) ((hF s).1.symm.trans hr)
  · have hidle := h.idle hc
    rw [hasActiveWork, arrangements, ← hstages] at hidle
    rw [hasActiveWork, arrangements]
    simpa [(hF s).2] using hidle

end Orderly

end Discussion

/-! ## Coherent rooms -/

namespace Room.Coherent

variable {r : Room}

/-- The stages stay, and no discussion completes. -/
theorem mapDiscussions (h : r.Coherent) {f : Discussion → Discussion}
    (hf : ∀ d ∈ r.discussions, (f d).works = d.works ∧ (f d).Orderly) :
    (r.mapDiscussions f).Coherent where
  linked := by
    have hworks : (r.mapDiscussions f).works = r.works := by
      rw [works, Room.mapDiscussions, flatMap_map]
      exact flatMap_congr fun d hd => (hf d hd).1
    rw [hworks]
    exact h.linked
  orderly := by
    intro d' hd'
    obtain ⟨d, hd, rfl⟩ := mem_map.mp hd'
    exact (hf d hd).2

theorem modifyDiscussion (h : r.Coherent) {k : DiscussionId} {f : Discussion → Discussion}
    (hf : ∀ d ∈ r.discussions, d.id = k → (f d).works = d.works ∧ (f d).Orderly) :
    (r.modifyDiscussion k f).Coherent := by
  refine h.mapDiscussions fun d hd => ?_
  split
  · next hid => exact hf d hd hid
  · exact ⟨rfl, h.orderly d hd⟩

/-- Where the turn of an attempt in flight runs: in the last stage of a discussion that is not
completed. -/
theorem turn (h : r.Coherent) {t : Attempt} {d : Discussion} (ht : t ∈ r.attempts)
    (hb : t.intent.budget = .discussion d.id) (hn : (r.discussions.map Discussion.id).Nodup)
    (hd : d ∈ r.discussions) (hf : t.state.inFlight = true) :
    d.state ≠ .completed ∧ ∃ s a, d.stages.getLast? = some s ∧ a ∈ s.arrangements ∧
      a.operation = t.intent.operation ∧ a.state.isActive = true ∧ t.intent.purpose = stagePurpose s.kind := by
  obtain ⟨w, hw, hfor⟩ := h.linked.tracked t ht d.id hb
  obtain ⟨d', hd', hwd⟩ := mem_works.mp hw
  obtain ⟨s, hs, a, ha, rfl⟩ := Discussion.mem_works.mp hwd
  have hid : d.id = d'.id := BudgetScope.discussion.inj (hb.symm.trans hfor.budget)
  obtain rfl := inj_on_of_nodup_map hn hd hd' hid
  have hactive : a.state.isActive = true :=
    (h.linked.live t ht hf _ hw hfor.operation).isActive hf
  refine ⟨fun hc => ?_, s, a, ?_, ha, hfor.operation.symm, hactive, hfor.purpose⟩
  · have := Discussion.not_hasActiveWork.mp ((h.orderly d hd).idle hc) a
      (Discussion.mem_arrangements.mpr ⟨s, hs, ha⟩)
    rw [hactive] at this
    cases this
  · by_contra hlast
    have hmem : s ∈ d.stages.dropLast := by
      rcases hl : d.stages.getLast? with _ | last
      · rw [getLast?_eq_none_iff.mp hl] at hs
        cases hs
      · rw [← dropLast_append_getLast? last hl] at hs
        rcases mem_append.mp hs with hs | hs
        · exact hs
        · rw [mem_singleton.mp hs] at hlast
          exact absurd hl hlast
    have hsettled := (h.orderly d hd).settled s hmem
    rw [Stage.isSettled, all_eq_true] at hsettled
    rw [Discussion.isActive_of_isSettled (hsettled a ha)] at hactive
    cases hactive

/-- The only arrangement of the operation of an attempt in flight. -/
theorem not_settled (h : r.Coherent) {t : Attempt} {d : Discussion} (ht : t ∈ r.attempts)
    (hd : d ∈ r.discussions) (hf : t.state.inFlight = true) :
    ∀ a ∈ d.arrangements, a.operation = t.intent.operation → a.state.isSettled = false := by
  intro a ha hop
  obtain ⟨s, hs, ha⟩ := Discussion.mem_arrangements.mp ha
  have hw := mem_works.mpr ⟨d, hd, Discussion.mem_works.mpr ⟨s, hs, a, ha, rfl⟩⟩
  have hactive := (h.linked.live t ht hf _ hw hop.symm).isActive hf
  by_contra hset
  rw [Bool.not_eq_false] at hset
  have := Discussion.isActive_of_isSettled hset
  rw [Work.state, this] at hactive
  cases hactive

variable {change : Attempt → Attempt} {mark : Discussion → Discussion}

/-- What settling an attempt does to the works of the room. -/
theorem works_settle (h : r.Coherent) {t : Attempt} (ht : t ∈ r.attempts) {a : ArrangementState}
    (hmark : ∀ d : Discussion, (mark d).works = d.works.map (Discussion.markWork t.intent.operation a)) :
    (r.settle t change mark).works = r.works.map (Discussion.markWork t.intent.operation a) := by
  have hother : ∀ w ∈ r.works, t.intent.budget ≠ .discussion w.discussion →
      Discussion.markWork t.intent.operation a w = w := by
    intro w hw hb
    rw [Discussion.markWork, if_neg]
    · rfl
    · exact fun he => hb (h.linked.owned t ht w hw he.symm)
  rcases hb : t.intent.budget with id | o
  · rw [settle_of_discussion _ _ hb]
    refine works_modifyDiscussion (fun d _ _ => hmark d) fun w hw hne => hother w hw ?_
    rw [hb]
    exact fun he => hne (BudgetScope.discussion.inj he).symm
  · rw [settle_of_direct _ _ hb]
    refine ((map_congr_left fun w hw => hother w hw ?_).trans (map_id _)).symm
    rw [hb]
    exact nofun

/-- **The outcome of an attempt keeps the records in agreement.** -/
theorem settle (h : r.Coherent) (hn : (r.attempts.map Attempt.id).Nodup) {t : Attempt}
    (ht : t ∈ r.attempts)
    {a : ArrangementState}
    (hc : (change t).intent = t.intent) (hr : (change t).state ≠ .reserved)
    (hsent : t.state.inFlight = true ∨
      ∀ w ∈ r.works, t.intent.operation = w.operation → w.state = .pending)
    (htells : a.Tells (change t))
    (hmark : ∀ d : Discussion, (mark d).works = d.works.map (Discussion.markWork t.intent.operation a))
    (hord : ∀ d ∈ r.discussions, t.intent.budget = .discussion d.id → (mark d).Orderly) :
    (r.settle t change mark).Coherent where
  linked := by
    rw [works_settle h ht hmark, settle_attempts]
    exact h.linked.settle hn ht hc hr hsent fun _ => htells
  orderly := by
    intro d hd
    rw [Room.settle] at hd
    split at hd
    · next id hb =>
      obtain ⟨e, he, rfl⟩ := mem_map.mp hd
      split
      · next hid => exact hord e he (by rw [hid]; exact hb)
      · exact h.orderly e he
    · exact h.orderly d hd

theorem pushMessage (h : r.Coherent) {message : PublicMessage} : (r.pushMessage message).Coherent :=
  ⟨h.linked, h.orderly⟩

theorem quiet {op : Operation} {r' : Room} (h : r.Coherent) (hq : Room.Quiet op r r') :
    r'.Coherent where
  linked := by
    have hworks : r'.works = r.works := by
      have hd := hq.discussions
      rw [works, works]
      generalize r.discussions = ds, r'.discussions = ds' at hd
      induction hd with
      | nil => rfl
      | cons hq _ ih =>
        rw [flatMap_cons, flatMap_cons, ih, Discussion.works_of_stages hq.id hq.stages]
    rw [hworks, hq.attempts]
    exact h.linked
  orderly := by
    intro d' hd'
    obtain ⟨d, hd, hdd'⟩ := hq.of_mem hd'
    exact (h.orderly d hd).of_stages hdd'.stages hdd'.completed.mp

/-- Reservations of a discussion are cancelled, and work of it that does not run. -/
theorem cancel (h : r.Coherent) {id : DiscussionId} {f : Discussion → Discussion}
    {F : Work → ArrangementState}
    (hworks : ∀ d ∈ r.discussions, d.id = id → (f d).works = d.works.map fun w => w.withState (F w))
    (hF : ∀ w ∈ r.works, F w = w.state ∨ w.state.isActive = false ∧ (F w).attempt? = none)
    (hord : ∀ d ∈ r.discussions, d.id = id → (f d).Orderly) :
    ((r.cancelReservations id).modifyDiscussion id f).Coherent where
  linked := by
    have hw : ((r.cancelReservations id).modifyDiscussion id f).works =
        r.works.map fun w => w.withState (if w.discussion = id then F w else w.state) := by
      refine works_modifyDiscussion (fun d hd hid => ?_) fun w _ hne => ?_
      · rw [hworks d hd hid]
        refine map_congr_left fun w hw => ?_
        obtain ⟨s, -, a, -, rfl⟩ := Discussion.mem_works.mp hw
        rw [if_pos hid]
      · rw [if_neg hne]
        rfl
    rw [hw]
    refine h.linked.cancel (fun t _ => ?_) fun w hw => ?_
    · dsimp only
      split
      · next hs => exact .inr ⟨hs.2, rfl⟩
      · exact .inl rfl
    · split
      · exact hF w hw
      · exact .inl rfl
  orderly := by
    intro d' hd'
    obtain ⟨d, hd, rfl⟩ := mem_map.mp hd'
    split
    · next hid => exact hord d hd hid
    · exact h.orderly d hd

/-- A new stage, with operations that were never used. -/
theorem pushStage (h : r.Coherent) {d : Discussion} {s : Stage} (hd : d ∈ r.discussions)
    (hn : (r.discussions.map Discussion.id).Nodup)
    (hpending : ∀ a ∈ s.arrangements, a.state = .pending)
    (hnew : ∀ a ∈ s.arrangements, ∀ t ∈ r.attempts, t.intent.operation ≠ a.operation)
    (hc : d.state ≠ .completed) (hs : d.stages.getLast?.all Stage.isSettled = true)
    (hr : s.kind = .report → s.arrangements.length = 1) :
    (r.modifyDiscussion d.id (Discussion.pushStage s)).Coherent where
  linked := by
    let work (a : Arrangement) : Work :=
      { discussion := d.id, stage := s.id, kind := s.kind, boundary := s.segments.getLast?
        arrangement := a }
    have hadd : Linked (r.works ++ s.arrangements.map work) r.attempts :=
      h.linked.addWorks fun w hw => ?_
    refine hadd.congr fun w => ?_
    rotate_left
    · obtain ⟨a, ha, rfl⟩ := mem_map.mp hw
      exact ⟨by rw [Work.state, hpending a ha]; rfl, hnew a ha⟩
    · rw [mem_append, mem_works, mem_works]
      constructor
      · rintro ⟨d', hd', hw⟩
        obtain ⟨e, he, rfl⟩ := mem_map.mp hd'
        split at hw
        · next hid =>
          obtain rfl := inj_on_of_nodup_map hn he hd hid
          rw [Discussion.works_pushStage, mem_append] at hw
          exact hw.imp_left fun hw => ⟨e, he, hw⟩
        · exact .inl ⟨e, he, hw⟩
      · rintro (⟨e, he, hw⟩ | hw)
        · refine ⟨_, mem_map_of_mem he, ?_⟩
          split
          · rw [Discussion.works_pushStage, mem_append]
            exact .inl hw
          · exact hw
        · refine ⟨_, mem_map_of_mem hd, ?_⟩
          rw [if_pos rfl, Discussion.works_pushStage, mem_append]
          exact .inr hw
  orderly := by
    intro d' hd'
    obtain ⟨e, he, rfl⟩ := mem_map.mp hd'
    split
    · next hid =>
      obtain rfl := inj_on_of_nodup_map hn he hd hid
      exact (h.orderly e he).pushStage hc hs hr
    · exact h.orderly e he

theorem outcome (h : r.Coherent) (hn : (r.attempts.map Attempt.id).Nodup)
    (hd : (r.discussions.map Discussion.id).Nodup) {t : Attempt} (ht : t ∈ r.attempts)
    (hf : t.state.inFlight = true) {a : ArrangementState} (hc : (change t).intent = t.intent) (hr : (change t).state ≠ .reserved)
    (htells : a.Tells (change t))
    (hmark : ∀ d : Discussion, (mark d).works = d.works.map (Discussion.markWork t.intent.operation a))
    (hord : ∀ d ∈ r.discussions, t.intent.budget = .discussion d.id →
      (d.markOperation t.intent.operation a).Orderly → (mark d).Orderly) :
    (r.settle t change mark).Coherent :=
  h.settle hn ht hc hr (.inl hf) htells hmark fun d hmem hb =>
    hord d hmem hb ((h.orderly d hmem).markOperation (h.turn ht hb hd hmem hf).1
      (h.not_settled ht hmem hf))

end Room.Coherent

namespace Discussion

variable {d : Discussion} {t : Attempt}

@[simp] theorem failTurn_id {uncertain : Bool} : (Room.failTurn t uncertain d).id = d.id := by
  rw [Room.failTurn]
  split <;> simp [markOperation]

theorem works_failTurn {uncertain : Bool} : (Room.failTurn t uncertain d).works =
    d.works.map (markWork t.intent.operation (if uncertain then .uncertain t.id else .failed t.id)) := by
  rw [Room.failTurn]
  split <;> rw [works_paused, works_markOperation]

theorem works_reacceptTurn : (Room.reacceptTurn t d).works =
    d.works.map (markWork t.intent.operation (.active t.id)) := by
  rw [Room.reacceptTurn, works_settleHeld, works_resolved, works_markOperation]

theorem works_completeTurn : (Room.completeTurn t d).works =
    d.works.map (markWork t.intent.operation (.completed t.id)) := by
  rw [← works_markOperation, Room.completeTurn]
  split
  · exact works_of_stages rfl rfl
  · rw [works_settleHeld, works_resolved]

theorem Orderly.failTurn {uncertain : Bool} (h : (d.markOperation t.intent.operation
      (if uncertain then .uncertain t.id else .failed t.id)).Orderly) :
    (Room.failTurn t uncertain d).Orderly := by
  rw [Room.failTurn]
  split <;> simp_all [Orderly.paused]

end Discussion

namespace Room.Coherent

variable {r : Room}

theorem fail (h : r.Coherent) (hn : (r.attempts.map Attempt.id).Nodup)
    (hd : (r.discussions.map Discussion.id).Nodup) {t : Attempt} (ht : t ∈ r.attempts)
    (hf : t.state.inFlight = true) {uncertain : Bool} {r' : Room}
    (hr : r.fail t uncertain = .ok r') : r'.Coherent := by
  rw [fail_ok hr]
  refine h.outcome hn hd ht hf rfl ?_ ?_ (fun _ => Discussion.works_failTurn) fun _ _ _ => .failTurn
  · dsimp only
    split <;> exact nofun
  · split
    · exact ⟨rfl, rfl⟩
    · exact ⟨rfl, .inl rfl⟩

theorem kind_of_report {kind : StageKind} (h : stagePurpose kind = .report) : kind = .report := by
  rcases kind with _ | _ | _ | _ | _ | _ <;> first | rfl | cases h

/-- A report completes its discussion, in which nothing runs any more. -/
theorem completeTurn (h : r.Coherent) (hd : (r.discussions.map Discussion.id).Nodup) {t : Attempt}
    (ht : t ∈ r.attempts) (hf : t.state.inFlight = true) {d : Discussion} (hmem : d ∈ r.discussions)
    (hb : t.intent.budget = .discussion d.id)
    (hmark : (d.markOperation t.intent.operation (.completed t.id)).Orderly) :
    (Room.completeTurn t d).Orderly := by
  rw [Room.completeTurn]
  split
  · next hreport =>
    refine ⟨hmark.settled, hmark.report, fun _ => Discussion.not_hasActiveWork.mpr fun b hmem' => ?_⟩
    obtain ⟨-, s, a, hs, ha, hop, -, hpurpose⟩ := h.turn ht hb hd hmem hf
    have hkind := kind_of_report (hpurpose.symm.trans hreport)
    obtain ⟨c, hc⟩ := length_eq_one_iff.mp ((h.orderly d hmem).report s (mem_of_getLast? hs) hkind)
    rw [hc, mem_singleton] at ha
    subst ha
    obtain ⟨s', hs', hb'⟩ := Discussion.mem_arrangements.mp hmem'
    obtain ⟨s'', hs'', rfl⟩ := mem_map.mp hs'
    rw [← dropLast_append_getLast? s hs] at hs''
    rcases mem_append.mp hs'' with hs'' | hs''
    · have hsettled := hmark.settled (s''.mapArrangements _)
        (by rw [Discussion.markOperation, Discussion.mapArrangements, ← map_dropLast]
            exact mem_map_of_mem hs'')
      rw [Stage.isSettled, all_eq_true] at hsettled
      exact Discussion.isActive_of_isSettled (hsettled b hb')
    · rw [mem_singleton.mp hs''] at hb'
      simp only [Stage.mapArrangements, hc, map_cons, map_nil, mem_singleton] at hb'
      rw [hb', if_pos hop]
      rfl
  · exact hmark.resolved.settleHeld

end Room.Coherent

/-! ## Every change -/

/-- What is running when a room is opened is uncertain. -/
def ArrangementState.interrupted : ArrangementState → ArrangementState
  | active id => .uncertain id
  | state => state

namespace ArrangementState

variable {a : ArrangementState}

theorem attempt?_interrupted : a.interrupted.attempt? = a.attempt? := by
  rcases a with _ | _ | _ | _ | _ | _ | _ <;> rfl

theorem Tells.interrupted {t : Attempt} (h : a.Tells t) : a.interrupted.Tells
    { t with state := if t.state.isRunning then .uncertain else t.state } := by
  rcases a with _ | _ | _ | _ | _ | _ | _
  case pending | skipped | cancelled => exact h
  case active => exact ⟨h.1, if_pos h.2⟩
  case uncertain =>
    refine ⟨h.1, ?_⟩
    dsimp only
    rw [h.2]
    rfl
  case completed =>
    obtain ⟨hid, m, hm⟩ := h
    refine ⟨hid, m, ?_⟩
    dsimp only
    rw [hm]
    rfl
  case failed =>
    refine ⟨h.1, ?_⟩
    dsimp only
    rcases h.2 with hs | hs <;> rw [hs]
    · exact .inl rfl
    · exact .inr rfl

end ArrangementState

theorem Discussion.works_reopened {d : Discussion} : d.reopened.works =
    d.works.map fun w => w.withState w.state.interrupted := by
  rw [reopened, works_mapArrangements, works_paused, works_retainPauses]
  rfl

theorem Discussion.Orderly.reopened {d : Discussion} (h : d.Orderly) : d.reopened.Orderly := by
  refine h.retainPauses.paused.mapArrangements ⟨fun a _ hs => ?_, fun _ a _ ha => ?_⟩
  · split
    · next he => rw [he] at hs; cases hs
    · exact hs
  · split at ha
    · next he => rw [he]; rfl
    · exact ha

namespace Room.Coherent

variable {r : Room}

theorem reopened (h : r.Coherent) : r.reopened.Coherent where
  linked := by
    have hworks : r.reopened.works = r.works.map fun w => w.withState w.state.interrupted :=
      works_mapDiscussions fun d _ => Discussion.works_reopened
    rw [hworks]
    refine h.linked.map (fun t _ => ⟨rfl, fun hs => ?_⟩) (fun t ht w hw hop hf => ?_)
      fun w hw id hid => ?_
    · dsimp only at hs
      split at hs
      · cases hs
      · exact hs
    · have hflight : t.state.inFlight = true := by
        dsimp only at hf
        split at hf
        · next hrun => exact AttemptState.inFlight_of_isRunning hrun
        · exact hf
      exact (h.linked.live t ht hflight w hw hop).interrupted
    · obtain ⟨t, ht, hop, htells⟩ := h.linked.shown w hw id (by rwa [ArrangementState.attempt?_interrupted] at hid)
      exact ⟨t, ht, hop, htells.interrupted⟩
  orderly := by
    intro d' hd'
    obtain ⟨d, hd, rfl⟩ := mem_map.mp hd'
    exact (h.orderly d hd).reopened

/-- Only the arrangements of a member that wait are cancelled. -/
theorem excluding (h : r.Coherent) (hn : (r.discussions.map Discussion.id).Nodup) {m : MemberId} :
    (r.excluding m).Coherent where
  linked := by
    have hworks : (r.excluding m).works = r.works.map fun w => w.withState
        (if ∃ d ∈ r.discussions, d.id = w.discussion ∧ d.state = .completed then w.state
          else Discussion.cancelRecipient m w.arrangement) := by
      refine works_mapDiscussions fun d hd => ?_
      have hd' : ∀ w ∈ d.works, (∃ e ∈ r.discussions, e.id = w.discussion ∧ e.state = .completed) ↔
          d.state = .completed := by
        intro w hw
        obtain ⟨s, -, a, -, rfl⟩ := Discussion.mem_works.mp hw
        refine ⟨?_, fun hc => ⟨d, hd, rfl, hc⟩⟩
        rintro ⟨e, he, hid, hc⟩
        rwa [inj_on_of_nodup_map hn he hd hid] at hc
      by_cases hc : d.state = .completed
      · rw [Discussion.excluding, if_pos hc]
        refine ((map_congr_left fun w hw => ?_).trans (map_id _)).symm
        rw [if_pos ((hd' w hw).mpr hc)]
        rfl
      · have hdw : (Discussion.excluding m d).works =
            (d.mapArrangements (Discussion.cancelRecipient m)).works := by
          rw [Discussion.excluding, if_neg hc]
          dsimp only
          split
          · exact Discussion.works_paused _
          · rfl
        rw [hdw, Discussion.works_mapArrangements]
        refine map_congr_left fun w hw => ?_
        rw [if_neg (mt (hd' w hw).mp hc)]
    have hcancel := h.linked.cancel (g := fun t => t) (f := fun w =>
      if ∃ d ∈ r.discussions, d.id = w.discussion ∧ d.state = .completed then w.state
        else Discussion.cancelRecipient m w.arrangement) (fun t _ => .inl rfl) fun w _ => ?_
    · rw [hworks]
      rwa [map_id'] at hcancel
    · split
      · exact .inl rfl
      · rw [Discussion.cancelRecipient]
        split
        · next hp => exact .inr ⟨by rw [Work.state, hp.2]; rfl, rfl⟩
        · exact .inl rfl
  orderly := by
    intro d' hd'
    obtain ⟨d, hd, rfl⟩ := mem_map.mp hd'
    have hkeeps : Discussion.Orderly.Keeps d (Discussion.cancelRecipient m) := by
      refine ⟨fun a _ hs => ?_, fun _ a _ ha => ?_⟩
      · rw [Discussion.cancelRecipient]
        split
        · rfl
        · exact hs
      · rw [Discussion.cancelRecipient] at ha
        split at ha
        · cases ha
        · exact ha
    have hmapped := (h.orderly d hd).mapArrangements hkeeps
    rw [Discussion.excluding]
    split
    · exact h.orderly d hd
    dsimp only
    split
    · exact hmapped.paused
    · exact hmapped

/-- Attempts are reserved for arrangements that wait, or for a new request. -/
theorem reserved (h : r.Coherent) (hv : r.Valid) {n : ℕ} {intents : List DispatchIntent}
    (hb : r.Below n ∨ ∀ intent ∈ intents, ∀ o, intent.budget ≠ .direct o)
    (hi : ∀ intent ∈ intents, r.Asks n intent) :
    Coherent { r with attempts := r.attempts ++ intents.zipIdx.map (reservedAttempt n) } where
  linked := by
    refine h.linked.addAttempts fun t ht => ?_
    obtain ⟨⟨intent, index⟩, hmem, rfl⟩ := mem_map.mp ht
    have hmem := fst_mem_of_mem_zipIdx hmem
    refine ⟨rfl, ?_⟩
    rcases hi intent hmem with ⟨hd, ho⟩ | ⟨d, s, a, hd, hs, ha, -, hsnap, hbudget, ho, hr, hstage, hp⟩
    · refine .inl ⟨fun id hid => ?_, fun w hw hop => ?_⟩
      · change intent.budget = _ at hid
        rw [hd] at hid
        cases hid
      · have hbelow := hb.resolve_right fun hne => hne intent hmem _ hd
        have hlt := hbelow.arrangements w.arrangement
          (by rw [← works_arrangements]; exact mem_map_of_mem hw)
        change intent.operation = w.arrangement.operation at hop
        rw [← hop, ho] at hlt
        exact absurd hlt (lt_irrefl n)
    · have hw := mem_works.mpr ⟨d, hd, Discussion.mem_works.mpr ⟨s, mem_of_getLast? hs, a, ha, rfl⟩⟩
      exact .inr ⟨_, hw, ⟨ho, hbudget, hr, hstage, hp⟩, hsnap, fun w' hw' he => hv.work_eq hw' hw he⟩
  orderly := h.orderly

theorem prepared (h : r.Coherent) (hv : r.Valid) {id : AttemptId} {t : Attempt}
    {intent : DispatchIntent} {r' : Room} (ht : r.attempt id = some t)
    (hgo : ∀ d, t.intent.budget = .discussion d →
      ∃ d', r.discussion d = some d' ∧ d'.isDispatchable = true)
    (hr : r.prepare id = .ok (intent, r')) : r'.Coherent := by
  obtain ⟨u, hu, hs, -, hr⟩ := prepare_ok hr
  obtain rfl := Option.some.inj (ht.symm.trans hu)
  obtain ⟨hmem, rfl⟩ := TeamSession.id_of_attempt ht
  rcases hr with ⟨id, d, a, hb, -, hd, ha, hp, rfl⟩ | ⟨⟨id, hb, hsummary⟩ | ⟨o, hb⟩, rfl⟩
  · obtain ⟨hdmem, rfl⟩ := TeamSession.id_of_discussion hd
    have hop : a.operation = t.intent.operation := by simpa using find?_some ha
    obtain ⟨s, hs', ha'⟩ := Discussion.mem_arrangements.mp (mem_of_find?_eq_some ha)
    have hw := mem_works.mpr ⟨d, hdmem, Discussion.mem_works.mpr ⟨s, hs', a, ha', rfl⟩⟩
    have hpending : ∀ w ∈ r.works, t.intent.operation = w.operation → w.state = .pending := by
      intro w hw' he
      rw [hv.work_eq hw' hw (he.symm.trans hop.symm)]
      exact hp
    refine h.settle hv.attempts_nodup hmem rfl nofun (.inr hpending) (a := .active t.id) ⟨rfl, rfl⟩
      (fun _ => Discussion.works_markOperation) fun e he hid => ?_
    obtain ⟨d', hd', hgoing⟩ := hgo _ hb
    have hed : e = d' := by
      obtain rfl := Option.some.inj (hd.symm.trans hd')
      exact hv.discussion_eq he hdmem (BudgetScope.discussion.inj (hid.symm.trans hb))
    refine (h.orderly e he).markOperation ?_ fun b hb' hbop => ?_
    · rw [hed]
      intro hc
      simp [Discussion.isDispatchable, hc, DiscussionState.isGoing] at hgoing
    · obtain ⟨s', hs', hb'⟩ := Discussion.mem_arrangements.mp hb'
      have hw' := mem_works.mpr ⟨e, he, Discussion.mem_works.mpr ⟨s', hs', b, hb', rfl⟩⟩
      have hb'' : b.state = .pending := hpending _ hw' hbop.symm
      rw [hb'']
      rfl
  · obtain ⟨w, hw, hfor⟩ := h.linked.tracked t hmem id hb
    have hpurpose := hsummary.symm.trans hfor.purpose
    rcases hk : w.kind <;> simp [hk, stagePurpose] at hpurpose
  · rw [← settle_of_direct _ (Discussion.markOperation · t.intent.operation (.active t.id)) hb]
    refine h.settle hv.attempts_nodup hmem rfl nofun (.inr fun w hw he => ?_) (a := .active t.id)
      ⟨rfl, rfl⟩ (fun _ => Discussion.works_markOperation) fun e _ hid => ?_
    · have := h.linked.owned t hmem w hw he
      rw [hb] at this
      cases this
    · rw [hb] at hid
      cases hid

theorem accepted (h : r.Coherent) (hv : r.Valid) {t : Attempt} {turn : Str} {r' : Room}
    (ht : t ∈ r.attempts) (ha : t.accepts turn = true) (hr : r.accept t turn = .ok r') :
    r'.Coherent := by
  simp only [Attempt.accepts, Bool.and_eq_true, Bool.or_eq_true, decide_eq_true_eq] at ha
  rcases accept_ok hr with ⟨hs, rfl⟩ | ⟨hs, rfl⟩
  · refine h.outcome hv.attempts_nodup hv.discussions_nodup ht (by rw [hs]; rfl) rfl (by simp)
      (a := .active t.id) ⟨rfl, rfl⟩ (fun _ => Discussion.works_reacceptTurn) fun d _ _ hd => ?_
    exact hd.resolved.settleHeld
  · have hs := ha.1.2.resolve_right hs
    have hlinked := h.linked.settle hv.attempts_nodup ht
      (f := fun t => { t with providerTurn := some turn, state := .accepted })
      (a := .active t.id) rfl (by simp) (.inl (by rw [hs]; rfl)) fun _ => ⟨rfl, rfl⟩
    refine ⟨?_, h.orderly⟩
    have hworks : (r.works.map fun w => w.withState
        (if w.operation = t.intent.operation then .active t.id else w.state)) = r.works := by
      refine (map_congr_left fun w hw => ?_).trans (map_id _)
      split
      · next hop =>
        have htells := h.linked.live t ht (by rw [hs]; rfl) w hw hop.symm
        rw [← ArrangementState.Tells.eq_active htells (by rw [hs]; rfl)]
        rfl
      · rfl
    rwa [hworks] at hlinked

theorem abandoned (h : r.Coherent) (hv : r.Valid) {t : Attempt} {r' : Room} (ht : t ∈ r.attempts)
    (hf : t.state.inFlight = true) (hr : r.abandon t.id = .ok r') : r'.Coherent := by
  rw [abandon_ok hr]
  have heq : ∀ u ∈ r.attempts, u.id = t.id → u = t := fun u hu hid => hv.attempt_eq hu ht hid
  refine ⟨?_, fun d' hd' => ?_⟩
  · have hworks : ((r.modifyAttempt t.id fun t => { t with state := .abandoned }).mapDiscussions
        (abandonDiscussion t.id)).works =
        r.works.map fun w => w.withState (abandonArrangement t.id w.arrangement) := by
      refine works_mapDiscussions (r := r.modifyAttempt t.id _) fun d _ => ?_
      rw [abandonDiscussion, Discussion.works_settlePause, Discussion.works_paused,
        Discussion.works_resolved, Discussion.works_mapArrangements]
    rw [hworks]
    refine h.linked.map (fun u _ => ?_) (fun u hu w hw hop hfl => ?_) fun w hw key hkey => ?_
    · split
      · exact ⟨rfl, by simp⟩
      · exact ⟨rfl, fun hs => hs⟩
    · by_cases hid : u.id = t.id
      · rw [if_pos hid] at hfl
        cases hfl
      · rw [if_neg hid] at hfl ⊢
        have hold := h.linked.live u hu hfl w hw hop
        rw [abandonArrangement, if_neg]
        · exact hold
        · have hname := hold.attempt
          rintro (he | he) <;> rw [Work.state, he] at hname <;> exact hid (Option.some.inj hname).symm
    · rw [abandonArrangement] at hkey ⊢
      split at hkey
      · cases hkey
      next hne =>
      obtain ⟨u, hu, hop, hold⟩ := h.linked.shown w hw key hkey
      refine ⟨u, hu, hop, ?_⟩
      rw [if_neg hne, if_neg]
      · exact hold
      · intro hid
        rw [heq u hu hid] at hold
        exact hne (hold.active_or_uncertain hf)
  · obtain ⟨d, hd, rfl⟩ := mem_map.mp hd'
    refine ((Discussion.Orderly.mapArrangements (h.orderly d hd) ⟨fun a _ hs => ?_,
      fun _ a _ ha => ?_⟩).resolved.paused).settlePause
    · rw [abandonArrangement]
      split
      · rfl
      · exact hs
    · rw [abandonArrangement] at ha
      split at ha
      · cases ha
      · exact ha

/-- Nothing is in flight when a discussion is continued or finished. -/
theorem not_active (h : r.Coherent) (hidle : ∀ t ∈ r.attempts, t.state.inFlight = false) :
    ∀ d ∈ r.discussions, ∀ a ∈ d.arrangements, a.state.isActive = false := by
  intro d hd a ha
  obtain ⟨s, hs, ha⟩ := Discussion.mem_arrangements.mp ha
  have hw := mem_works.mpr ⟨d, hd, Discussion.mem_works.mpr ⟨s, hs, a, ha, rfl⟩⟩
  by_contra hactive
  rw [Bool.not_eq_false] at hactive
  obtain ⟨id, hid⟩ := ArrangementState.attempt?_of_isActive hactive
  obtain ⟨t, ht, -, htells⟩ := h.linked.shown _ hw id hid
  have := htells.inFlight hactive
  rw [hidle t ht] at this
  cases this

/-- A discussion without reservations goes on with a new segment of its last stage. -/
theorem newSegment (h : r.Coherent) {id : DiscussionId}
    (hr : ∀ t ∈ r.attempts, t.intent.budget = .discussion id → t.state ≠ .reserved)
    {f : Discussion → Discussion} {F : Stage → Stage}
    (hF : ∀ s, (F s).id = s.id ∧ (F s).kind = s.kind ∧ (F s).arrangements = s.arrangements)
    (hf : ∀ d ∈ r.discussions, d.id = id → (f d).works = (d.modifyLastStage F).works ∧ (f d).Orderly) :
    (r.modifyDiscussion id f).Coherent where
  linked := by
    refine h.linked.rebase (fun w hw => ?_) fun w' hw' => ?_
    · obtain ⟨d, hd, hw⟩ := mem_works.mp hw
      by_cases hid : d.id = id
      · obtain ⟨boundary, hb⟩ := (Discussion.works_modifyLastStage hF).1 w hw
        refine ⟨boundary, mem_works.mpr ⟨_, mem_map_of_mem hd, ?_⟩⟩
        rwa [if_pos hid, (hf d hd hid).1]
      · refine ⟨w.boundary, mem_works.mpr ⟨_, mem_map_of_mem hd, ?_⟩⟩
        rwa [if_neg hid]
    · obtain ⟨d', hd', hw'⟩ := mem_works.mp hw'
      obtain ⟨d, hd, rfl⟩ := mem_map.mp hd'
      split at hw'
      · next hid =>
        rw [(hf d hd hid).1] at hw'
        obtain ⟨w, hw, boundary, rfl⟩ := (Discussion.works_modifyLastStage hF).2 w' hw'
        refine ⟨w, mem_works.mpr ⟨d, hd, hw⟩, boundary, rfl, .inr fun t ht hb => hr t ht ?_⟩
        obtain ⟨s, -, a, -, rfl⟩ := Discussion.mem_works.mp hw
        rw [hb, ← hid]
      · exact ⟨w', mem_works.mpr ⟨d, hd, hw'⟩, w'.boundary, rfl, .inl rfl⟩
  orderly := by
    intro d' hd'
    obtain ⟨d, hd, rfl⟩ := mem_map.mp hd'
    split
    · next hid => exact (hf d hd hid).2
    · exact h.orderly d hd

theorem cancelReservations (h : r.Coherent) {id : DiscussionId} :
    (r.cancelReservations id).Coherent := by
  have hcancel : ((r.cancelReservations id).modifyDiscussion id fun d => d).Coherent :=
    h.cancel (F := Work.state)
    (fun d _ _ => (map_id _).symm) (fun _ _ => .inl rfl) fun d hd _ => h.orderly d hd
  simpa [Room.modifyDiscussion] using hcancel

end Room.Coherent

namespace Room

variable {r : Room} {d : Discussion} {f g : Discussion → Discussion}

/-- Only the discussion of an id is changed. -/
theorem modifyDiscussion_congr (hn : (r.discussions.map Discussion.id).Nodup)
    (hd : d ∈ r.discussions) (h : f d = g d) :
    r.modifyDiscussion d.id f = r.modifyDiscussion d.id g := by
  rw [modifyDiscussion, modifyDiscussion]
  congr 1
  refine map_congr_left fun e he => ?_
  split
  · next hid => rw [inj_on_of_nodup_map hn he hd hid, h]
  · rfl

theorem mapDiscussions_ids (h : ∀ d, (f d).id = d.id) :
    (r.mapDiscussions f).discussions.map Discussion.id = r.discussions.map Discussion.id := by
  rw [mapDiscussions, map_map]
  exact map_congr_left fun e _ => h e

theorem modifyDiscussion_ids {id : DiscussionId} (h : ∀ d, (f d).id = d.id) :
    (r.modifyDiscussion id f).discussions.map Discussion.id = r.discussions.map Discussion.id := by
  refine mapDiscussions_ids fun d => ?_
  split
  · exact h d
  · rfl

theorem settle_ids {t : Attempt} {change : Attempt → Attempt} (h : ∀ d, (f d).id = d.id) :
    (r.settle t change f).discussions.map Discussion.id = r.discussions.map Discussion.id := by
  rw [settle]
  split
  · exact modifyDiscussion_ids h
  · rfl

theorem modifyDiscussion_comp {id : DiscussionId} (h : ∀ d, (f d).id = d.id) :
    (r.modifyDiscussion id f).modifyDiscussion id g = r.modifyDiscussion id fun d => g (f d) := by
  simp only [modifyDiscussion, map_map]
  congr 1
  refine map_congr_left fun e _ => ?_
  dsimp only [Function.comp]
  by_cases hid : e.id = id
  · simp only [hid, ↓reduceIte, h]
  · simp only [hid, ↓reduceIte]

end Room

theorem Stage.pending_arrangement {kind : StageKind} {recipients : List MemberId}
    {snapshot : PublicSnapshot} {n : ℕ} : ∀ a ∈ (Stage.pending kind recipients snapshot n).arrangements,
    a.state = .pending ∧ a.operation.uuid.serial = n ∧ a.recipient ∈ recipients := by
  intro a ha
  simp only [Stage.pending, mem_mapIdx] at ha
  obtain ⟨i, hi, rfl⟩ := ha
  exact ⟨rfl, rfl, getElem_mem hi⟩

/-- The report is for one member. -/
theorem length_of_nextStage {d : Discussion} {remaining : ℕ} {isExcluded : MemberId → Bool}
    {recipients : List MemberId}
    (h : nextStage d remaining isExcluded = .ok (.schedule .report recipients)) :
    recipients.length = 1 := by
  rw [nextStage] at h
  split at h
  · obtain ⟨-, rfl⟩ := NextStage.schedule.inj (Except.ok.inj h)
    rfl
  split at h
  · obtain ⟨hk, rfl⟩ := NextStage.schedule.inj (Except.ok.inj h)
    rw [if_pos hk]
    rfl
  · rw [moderatedNextStage] at h
    split at h
    · cases h
    split at h
    · split at h
      · cases h
      · obtain ⟨-, rfl⟩ := NextStage.schedule.inj (Except.ok.inj h)
        rfl
    · simp only [bind_ok] at h
      obtain ⟨_, -, h⟩ := h
      cases h

theorem Room.Below.cancelReservations {r : Room} {n : ℕ} (h : r.Below n) {id : DiscussionId} :
    ∀ t ∈ (r.cancelReservations id).attempts, t.intent.operation.uuid.serial < n := by
  intro t ht
  obtain ⟨u, hu, rfl⟩ := mem_map.mp ht
  exact h.attempts u hu

namespace Room.Coherent

variable {r : Room} {n : ℕ}

/-- A new stage, with operations of the current serial. -/
theorem pushPending (h : r.Coherent) (hb : ∀ t ∈ r.attempts, t.intent.operation.uuid.serial < n)
    {d : Discussion} (hd : d ∈ r.discussions) (hn : (r.discussions.map Discussion.id).Nodup)
    (kind : StageKind) (recipients : List MemberId) (snapshot : PublicSnapshot) (hc : d.state ≠ .completed)
    (hs : d.stages.getLast?.all Stage.isSettled = true)
    (hr : kind = .report → recipients.length = 1) :
    (r.modifyDiscussion d.id
      (Discussion.pushStage (.pending kind recipients snapshot n))).Coherent := by
  refine h.pushStage hd hn (fun a ha => (Stage.pending_arrangement a ha).1) (fun a ha t ht he => ?_)
    hc hs fun hk => by simpa [Stage.pending] using hr hk
  have hlt := hb t ht
  rw [he, (Stage.pending_arrangement a ha).2.1] at hlt
  exact absurd hlt (lt_irrefl n)

theorem continued (h : r.Coherent) (hb : r.Below n) {d : Discussion} (hd : d ∈ r.discussions)
    (hn : (r.discussions.map Discussion.id).Nodup) (hc : d.state ≠ .completed)
    {snapshot : PublicSnapshot} :
    ((r.cancelReservations d.id).modifyDiscussion d.id (Discussion.continued snapshot n)).Coherent := by
  have hcancelled : (r.cancelReservations d.id).Coherent := h.cancelReservations
  by_cases hu : (d.retainPauses fun reason => !reason.clearedByContinue).isUndecided = true
  · have hlast : d.stages.getLast?.all Stage.isSettled = true := by
      rw [Discussion.isUndecided] at hu
      split at hu
      · cases hu
      · simp only [Discussion.retainPauses_stages] at hu
        rcases hl : d.stages.getLast? with _ | s
        · rfl
        · rw [hl] at hu
          simp only [Option.any_some, Bool.and_eq_true] at hu
          exact hu.2
    have hpushed := hcancelled.pushPending hb.cancelReservations hd hn .moderatorDecision
      [d.mode.reportAuthor] snapshot hc hlast (by simp)
    have hrunning := hpushed.modifyDiscussion (k := d.id) (f := fun e =>
      { e.retainPauses (fun reason => !reason.clearedByContinue) with state := .running })
      fun e he _ => ⟨rfl, (hpushed.orderly e he).of_stages rfl (by simp)⟩
    rw [modifyDiscussion_comp (f := Discussion.pushStage _) fun _ => rfl] at hrunning
    rw [modifyDiscussion_congr (r := r.cancelReservations d.id) hn hd]
    · exact hrunning
    · rw [Discussion.continued]
      dsimp only
      rw [if_pos hu]
      rfl
  · let F (s : Stage) : Stage := { s with segments := s.segments ++ [snapshot] }
    let f (e : Discussion) : Discussion :=
      { (e.retainPauses fun reason => !reason.clearedByContinue).modifyLastStage F with state := .running }
    have hreserved : ∀ t ∈ (r.cancelReservations d.id).attempts,
        t.intent.budget = .discussion d.id → t.state ≠ .reserved := by
      intro t ht hbudget hs
      obtain ⟨u, hu', rfl⟩ := mem_map.mp ht
      dsimp only at hs hbudget
      split at hs
      · cases hs
      · next hne => exact hne ⟨hbudget, hs⟩
    have hf : ∀ e ∈ r.discussions, (f e).works = (e.modifyLastStage F).works ∧ (f e).Orderly := by
      refine fun e he => ⟨?_, ?_⟩
      · dsimp only [f]
        rw [Discussion.modifyLastStage, Discussion.modifyLastStage]
        dsimp only [Discussion.retainPauses_stages]
        split <;> rfl
      · exact ((hcancelled.orderly e he).retainPauses.modifyLastStage (F := F)
          fun s => ⟨rfl, rfl⟩).of_stages rfl (by simp)
    have hsegment := hcancelled.newSegment (f := f) (F := F) hreserved (fun s => ⟨rfl, rfl, rfl⟩)
      fun e he _ => hf e he
    rw [modifyDiscussion_congr (r := r.cancelReservations d.id) hn hd]
    · exact hsegment
    · rw [Discussion.continued, if_neg hu]

theorem modeChanged (h : r.Coherent) {d changed : Discussion} {mode : DiscussionMode}
    (hd : d ∈ r.discussions) (hn : (r.discussions.map Discussion.id).Nodup)
    (hm : d.changeMode mode = .ok changed) {isExcluded : MemberId → Bool} :
    ((r.cancelReservations d.id).modifyDiscussion d.id fun _ =>
      changed.modeChanged isExcluded).Coherent := by
  obtain ⟨hc, -, rfl⟩ := Discussion.changeMode_ok hm
  have hkeeps : Discussion.Orderly.Keeps d Discussion.cancelPending := by
    refine ⟨fun a _ hs => ?_, fun hc' => absurd hc' hc⟩
    rw [Discussion.cancelPending]
    split
    · rfl
    · exact hs
  have hpaused : ({ d.paused .modeChange with mode } : Discussion).Orderly :=
    (h.orderly d hd).of_stages (d.paused_stages _) fun hc' => by
      rw [Discussion.paused_of_not_completed _ hc] at hc'
      exact absurd hc' (Discussion.settlePause_ne_completed _)
  refine h.cancel (F := fun w => if w.kind = .moderatorDecision || w.kind = .report then
    Discussion.cancelPending w.arrangement else w.state) (fun e he hid => ?_) (fun w _ => ?_)
    fun e he hid => ?_
  · rw [inj_on_of_nodup_map hn he hd hid, Discussion.modeChanged, Discussion.works_mapStagesOf,
      Discussion.works_retainPauses]
    exact congrArg (List.map _) (Discussion.works_of_stages (d.paused_id _) (d.paused_stages _))
  · split
    · rw [Discussion.cancelPending]
      split
      · next hp => exact .inr ⟨by rw [Work.state, hp]; rfl, rfl⟩
      · exact .inl rfl
    · exact .inl rfl
  · refine Discussion.Orderly.mapStagesOf hpaused.retainPauses ?_
    refine ⟨fun a ha => hkeeps.settled a ?_, fun hc' => ?_⟩
    · simpa [Discussion.arrangements] using ha
    · change (d.paused .modeChange).state = .completed at hc'
      rw [Discussion.paused_of_not_completed _ hc] at hc'
      exact absurd hc' (Discussion.settlePause_ne_completed _)

theorem finishing (h : r.Coherent) (hb : r.Below n) {d : Discussion} (hd : d ∈ r.discussions)
    (hn : (r.discussions.map Discussion.id).Nodup) (hc : d.state ≠ .completed)
    (hidle : ∀ t ∈ r.attempts, t.state.inFlight = false) {snapshot : PublicSnapshot} :
    ((r.cancelReservations d.id).modifyDiscussion d.id (Discussion.finishing snapshot n)).Coherent := by
  have hkeeps : ∀ e ∈ r.discussions, Discussion.Orderly.Keeps e Discussion.cancelOpen := by
    refine fun e _ => ⟨fun a _ hs => ?_, fun _ a _ ha => ?_⟩
    · unfold Discussion.cancelOpen
      split <;> first | rfl | exact hs
    · unfold Discussion.cancelOpen at ha
      split at ha <;> first | cases ha | exact ha
  have hopen : ((r.cancelReservations d.id).modifyDiscussion d.id
      (Discussion.mapArrangements Discussion.cancelOpen)).Coherent := by
    refine h.cancel (F := fun w => Discussion.cancelOpen w.arrangement)
      (fun e _ _ => Discussion.works_mapArrangements) (fun w _ => ?_)
      fun e he _ => (h.orderly e he).mapArrangements (hkeeps e he)
    unfold Discussion.cancelOpen
    split
    · next hp => exact .inr ⟨by rw [Work.state, hp]; rfl, rfl⟩
    · next hp => exact .inr ⟨by rw [Work.state, hp]; rfl, rfl⟩
    · exact .inl rfl
  have hsettled : ∀ s ∈ d.stages, (s.mapArrangements Discussion.cancelOpen).isSettled = true := by
    intro s hs
    rw [Stage.isSettled, Stage.mapArrangements, all_map, all_eq_true]
    intro a ha
    have hidle := h.not_active hidle d hd a (Discussion.mem_arrangements.mpr ⟨s, hs, ha⟩)
    dsimp only [Function.comp]
    unfold Discussion.cancelOpen
    rcases ha' : a.state <;> rw [ha'] at hidle <;> first | rfl | cases hidle
  let e := d.mapArrangements Discussion.cancelOpen
  have he : e ∈ ((r.cancelReservations d.id).modifyDiscussion d.id
      (Discussion.mapArrangements Discussion.cancelOpen)).discussions :=
    mem_map.mpr ⟨d, hd, if_pos rfl⟩
  have hids : (((r.cancelReservations d.id).modifyDiscussion d.id
      (Discussion.mapArrangements Discussion.cancelOpen)).discussions.map Discussion.id).Nodup := by
    rw [modifyDiscussion_ids (f := Discussion.mapArrangements _) fun _ => rfl]
    exact hn
  have hlast : e.stages.getLast?.all Stage.isSettled = true := by
    dsimp only [e, Discussion.mapArrangements]
    rw [getLast?_map]
    rcases hl : d.stages.getLast? with _ | s
    · rfl
    · exact hsettled s (mem_of_getLast? hl)
  have hpushed := hopen.pushPending hb.cancelReservations he hids .report [d.mode.reportAuthor]
    snapshot hc hlast fun _ => rfl
  let finish (e : Discussion) : Discussion :=
    let e := e.retainPauses fun reason => !reason.clearedByFinish
    { e with state := if e.pauses = ∅ then .finishing else .paused }
  have hfinished := hpushed.modifyDiscussion (k := d.id) (f := finish) fun e he _ => ⟨rfl,
    (hpushed.orderly e he).of_stages rfl fun hs => by dsimp only [finish] at hs; split at hs <;> cases hs⟩
  have heid : e.id = d.id := rfl
  rw [heid, modifyDiscussion_comp (f := Discussion.mapArrangements _) fun _ => rfl,
    modifyDiscussion_comp (f := fun e => Discussion.pushStage _ (Discussion.mapArrangements _ e))
      fun _ => rfl] at hfinished
  rwa [modifyDiscussion_congr (r := r.cancelReservations d.id) hn hd]
  rfl

end Room.Coherent

/-- A discussion that is started has an id of its own. -/
theorem Room.Valid.started_ne {r : Room} {d : Discussion} {input : UserInput} {n : ℕ}
    (h : (started { r with discussions := r.discussions ++ [d] } d input n).Valid) :
    ∀ e ∈ r.discussions, e.id ≠ d.id := by
  intro e he
  have hids := h.discussions_nodup
  rw [started, modifyDiscussion_ids (f := fun d => { d with state := _, request := input })
    fun _ => rfl] at hids
  simp only [pushMessage, map_append, map_cons, map_nil, nodup_append] at hids
  exact hids.2.2 _ (mem_map_of_mem he) _ mem_cons_self

theorem Room.Coherent.newDiscussion {r : Room} {d : Discussion} (h : r.Coherent)
    (hs : d.stages = []) : Coherent { r with discussions := r.discussions ++ [d] } where
  linked := by
    have hworks : Room.works { r with discussions := r.discussions ++ [d] } = r.works := by
      simp [works, Discussion.works, hs]
    rw [hworks]
    exact h.linked
  orderly := by
    intro e he
    rcases mem_append.mp he with he | he
    · exact h.orderly e he
    · rw [mem_singleton.mp he]
      constructor <;> simp [hs, Discussion.hasActiveWork, Discussion.arrangements]

/-- A room before any work. -/
theorem Room.Blank.coherent {r : Room} (h : r.Blank) : r.Coherent where
  linked := by
    rw [works, h.discussions, h.attempts]
    exact .nil
  orderly := by simp [h.discussions]

section

variable [TeamText] {n : ℕ} {op : Operation} {r r' : Room}

/-- **Every change keeps the records in agreement.** -/
theorem Room.Step.coherent (h : r.Step n op r') (hr : r.Coherent) : r'.Coherent := by
  obtain ⟨hv, hv', hb, hc⟩ := h
  have hn := hv.attempts_nodup
  have hd := hv.discussions_nodup
  cases hc with
  | quiet hq => exact hr.quiet hq
  | reopened => exact hr.reopened
  | ready _ ho hon h =>
    refine (Room.fails_induction (P := fun r => r.Coherent ∧ (r.discussions.map Discussion.id).Nodup)
      h hon hn ho ?_ fun q t q' hq ht hf hp hfail => ?_).1
    · refine ⟨hr.mapDiscussions fun d hmem => ⟨rfl, (hr.orderly d hmem).resolved⟩, ?_⟩
      rw [Room.mapDiscussions_ids (f := fun d => d.resolved _) fun _ => rfl]
      exact hd
    · refine ⟨hp.1.fail hq hp.2 ht hf hfail, ?_⟩
      rw [Room.fail_ok hfail, Room.settle_ids fun _ => Discussion.failTurn_id]
      exact hp.2
  | @excluded id _ _ _ h =>
    rw [Room.excludeMember_ok h]
    have hmembers : (r.modifyMember id fun m => { m with excluded := true }).Coherent :=
      ⟨hr.linked, hr.orderly⟩
    exact hmembers.excluding hd
  | reserved _ _ hbelow hi h =>
    obtain ⟨rfl, -⟩ := Room.reserve_ok h
    exact hr.reserved hv hbelow fun intent hmem => (hi intent hmem).1
  | prepared _ _ ht _ hgo _ h => exact hr.prepared hv ht hgo h
  | finished h =>
    obtain ⟨t, ht, hs, h'⟩ := Room.finish_ok h
    clear h
    have hmem := (TeamSession.id_of_attempt ht).1
    have hflight : t.state.inFlight = true := by rw [hs]; rfl
    rcases h' with ⟨-, rfl⟩ | rfl
    · exact hr.outcome hn hd hmem hflight rfl (by simp) (a := .failed t.id) ⟨rfl, .inr rfl⟩
        (fun _ => Discussion.works_failTurn) fun _ _ _ hmark => .failTurn hmark
    · exact hr.outcome hn hd hmem hflight rfl (by simp) (a := .uncertain t.id) ⟨rfl, rfl⟩
        (fun _ => Discussion.works_failTurn) fun _ _ _ hmark => .failTurn hmark
  | accepted _ ht ha h => exact hr.accepted hv (Room.eventAttempt_some ht).1 ha h
  | completed t _ ht hc h =>
    obtain ⟨m, -, -, rfl⟩ := Room.complete_ok h
    have hmem := (Room.eventAttempt_some ht).1
    have hs := Attempt.accepted_of_completes hc
    have hflight : t.state.inFlight = true := by rw [hs]; rfl
    exact hr.pushMessage.outcome hn hd hmem hflight rfl (by simp) (a := .completed t.id)
      ⟨rfl, _, rfl⟩ (fun _ => Discussion.works_completeTurn) fun d hdmem hbudget hmark =>
        hr.completeTurn hd hmem hflight hdmem hbudget hmark
  | failed _ ht hf h => exact hr.fail hn hd (Room.eventAttempt_some ht).1 hf h
  | abandoned hx h =>
    obtain ⟨t, ht, rfl, hf⟩ := hx
    exact hr.abandoned hv ht hf h
  | started d _ h =>
    obtain ⟨-, -, rfl, hd⟩ := Room.createDiscussion_ok h
    have hnext := hr.newDiscussion (d := d) (by rw [hd])
    exact hnext.pushMessage.modifyDiscussion fun e he _ =>
      ⟨rfl, (hnext.orderly e he).of_stages rfl (by simp)⟩
  | userInput =>
    exact hr.pushMessage.mapDiscussions fun d hmem =>
      ⟨Discussion.works_paused _, (hr.orderly d hmem).paused⟩
  | stageOpened _ _ _ hb hd' hc _ hs hnext =>
    obtain ⟨hmem, rfl⟩ := TeamSession.id_of_discussion hd'
    exact hr.pushPending hb.attempts hmem hd _ _ _ hc hs fun hk => by
      subst hk
      exact length_of_nextStage hnext
  | continued _ hb _ hd' hc =>
    obtain ⟨hmem, rfl⟩ := TeamSession.id_of_discussion hd'
    exact hr.continued hb hmem hd hc
  | modeChanged _ _ _ hd' h =>
    obtain ⟨hmem, rfl⟩ := TeamSession.id_of_discussion hd'
    exact hr.modeChanged hmem hd h
  | finishing _ hb hidle hd' hc =>
    obtain ⟨hmem, rfl⟩ := TeamSession.id_of_discussion hd'
    exact hr.finishing hb hmem hd hc hidle
  | decided =>
    refine hr.modifyDiscussion fun e he _ => ⟨?_, (hr.orderly e he).modifyLastStage fun s => ⟨rfl, rfl⟩⟩
    exact Discussion.works_decided fun s => ⟨rfl, rfl, rfl, rfl⟩

end

end NiumaTerm.Team
