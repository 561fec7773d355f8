import NiumaTerm.Team.Moves
import NiumaTerm.Team.Progress
import NiumaTerm.Team.Runs

/-!
# Excluded members

An excluded member never becomes ready again, so nothing may wait for it (`Room.Spares`).  Three things
break that: `exclude_member` keeps the reserved turns and the pauses of the member, an excluded member can
be reported as unavailable, and an earlier decision still invites it.
-/

namespace NiumaTerm.Team

open Transition List

/-! ## What nothing may wait for -/

/-- What a stage asks, and of whom. -/
structure StagePlan where
  id : StageId
  kind : StageKind
  recipients : List MemberId
  deriving DecidableEq

def Stage.plan (s : Stage) : StagePlan where
  id := s.id
  kind := s.kind
  recipients := s.arrangements.map Arrangement.recipient

def Discussion.plans (d : Discussion) : List StagePlan := d.stages.map Stage.plan

/-- The members that a recorded decision invites. -/
def Stage.invited (s : Stage) : List MemberId :=
  match s.decision with
  | some { action := .invite recipients, .. } => recipients
  | _ => []

/-- The members that the last stage's moderator has decided to ask next. -/
def Discussion.invitees (d : Discussion) : List MemberId :=
  match d.mode with
  | .fixed _ => []
  | .moderated moderator =>
    ((d.stages.getLast?.filter fun s => s.isDecidedBy moderator && s.isSettled).map Stage.invited).getD []

/-- No reserved turn and no pause of a discussion waits for an excluded member, other than a pause of a
discussion whose mode needs the member. -/
structure Room.Spares (r : Room) : Prop where
  turns : ∀ t ∈ r.attempts, r.isExcluded t.intent.recipient = true → t.state = .reserved →
    ∀ d, t.intent.budget ≠ .discussion d
  pauses : ∀ d ∈ r.discussions, ∀ m, r.isExcluded m = true → .memberUnavailable m ∈ d.pauses →
    d.mode.reportAuthor = m

/-- Whether an operation on a room leaves excluded members out. -/
def Operation.HonoursExclusion (op : Operation) (r : Room) : Prop :=
  match op with
  | .excludeMember m =>
    (∀ t ∈ r.attempts, t.intent.recipient = m → t.state = .reserved →
      ∀ d, t.intent.budget ≠ .discussion d) ∧
    ∀ d ∈ r.discussions, .memberUnavailable m ∈ d.pauses → d.mode.reportAuthor = m
  | .memberUnavailable m => r.isExcluded m = true → ∀ d ∈ r.discussions, d.state ≠ .completed →
    d.mode.reportAuthor = m
  | .pauseDiscussion id (.memberUnavailable m) => r.isExcluded m = true → ∀ d ∈ r.discussions,
    d.id = id → d.state ≠ .completed → d.mode.reportAuthor = m
  | .advanceDiscussion id _ => ∀ d ∈ r.discussions, d.id = id → d.state.isGoing = true →
    ∀ m ∈ d.invitees, r.isExcluded m = false
  | _ => True

/-- A plan asks no excluded member, other than as the moderator or the report author of a mode. -/
def Room.LeavesOut (r : Room) (mode : DiscussionMode) (plan : StagePlan) : Prop :=
  ∀ m ∈ plan.recipients, r.isExcluded m = true →
    m = mode.reportAuthor ∧ (plan.kind = .moderatorDecision ∨ plan.kind = .report)

/-- Whether the operation advances or continues a discussion. -/
def Operation.OpensStages : Operation → Prop
  | advanceDiscussion _ _ | continueDiscussion _ => True
  | _ => False

/-- The stages that the room has besides leave excluded members out. -/
structure Room.Opens (r r' : Room) : Prop where
  excluded : ∀ m, r'.isExcluded m = r.isExcluded m
  discussions : ∀ d' ∈ r'.discussions, ∃ d ∈ r.discussions, d.id = d'.id ∧ d.mode = d'.mode ∧
    ∀ plan ∈ d'.plans, plan ∈ d.plans ∨ r.LeavesOut d.mode plan

section

variable {n : ℕ} {op : Operation} {r r' : Room}

theorem Stage.plan_outline (s : Stage) : s.outline.plan = s.plan := by
  simp [Stage.plan, Stage.outline, Stage.mapArrangements]

theorem Discussion.plans_of_outline {d d' : Discussion} (h : d'.outline = d.outline) :
    d'.plans = d.plans := by
  have hp (e : Discussion) : e.plans = e.outline.map Stage.plan := by
    rw [plans, outline, map_map]
    exact map_congr_left fun s _ => (s.plan_outline).symm
  rw [hp, hp, h]

theorem Room.Available.not_excluded {m : MemberId} (h : r.Available m) (hv : r.Valid) :
    r.isExcluded m = false := by
  obtain ⟨k, hk, he⟩ := h
  by_contra hex
  rw [Bool.not_eq_false, Room.isExcluded, any_eq_true] at hex
  obtain ⟨k', hk', h'⟩ := hex
  simp only [Bool.and_eq_true, decide_eq_true_eq] at h'
  have hid : k.id = m := by simpa using find?_some hk
  obtain rfl := inj_on_of_nodup_map hv.members_nodup hk' (mem_of_find?_eq_some hk)
    (h'.1.trans hid.symm)
  rw [he] at h'
  exact Bool.false_ne_true h'.2

variable {d : Discussion} {kind : StageKind} {recipients : List MemberId}

/-- A stage that is planned next leaves excluded members out, unless a decision invited them or the
mode needs them. -/
theorem nextStage_recipients {turns : ℕ} {isExcluded : MemberId → Bool}
        (h : nextStage d turns isExcluded = .ok (.schedule kind recipients))
    (hs : d.stages.getLast?.all Stage.isSettled = true) :
    (∀ m ∈ recipients, isExcluded m = false) ∨ recipients = d.invitees ∨
      recipients = [d.mode.reportAuthor] ∧ (kind = .moderatorDecision ∨ kind = .report) := by
  rw [nextStage] at h
  split at h
  · obtain ⟨rfl, rfl⟩ := NextStage.schedule.inj (Except.ok.inj h)
    exact .inr (.inr ⟨rfl, .inr rfl⟩)
  split at h
  · next author hmode =>
    obtain ⟨rfl, rfl⟩ := NextStage.schedule.inj (Except.ok.inj h)
    split
    · next hk => exact .inr (.inr ⟨by rw [hmode]; rfl, .inr hk⟩)
    · exact .inl fun m hm => by simpa using (mem_filter.mp hm).2
  · next moderator hmode =>
    rw [moderatedNextStage] at h
    split at h
    · obtain ⟨rfl, rfl⟩ := NextStage.schedule.inj (Except.ok.inj h)
      exact .inr (.inr ⟨by rw [hmode]; rfl, .inl rfl⟩)
    · next s hlast =>
      split at h
      · next decision hdecision =>
        split at h
        · next invited haction =>
          obtain ⟨rfl, rfl⟩ := NextStage.schedule.inj (Except.ok.inj h)
          refine .inr (.inl ?_)
          obtain ⟨hl, hd⟩ := Option.filter_eq_some_iff.mp hlast
          have hset : s.isSettled = true := by rw [hl] at hs; exact hs
          have hfilter : (d.stages.getLast?.filter fun s => s.isDecidedBy moderator && s.isSettled) = some s := by
            rw [Option.filter_eq_some_iff, hd, hset]
            exact ⟨hl, rfl⟩
          rw [Discussion.invitees, hmode]
          dsimp only
          rw [hfilter, Option.map_some, Option.getD_some, Stage.invited, hdecision]
          obtain ⟨_, _, _, action⟩ := decision
          dsimp only at haction
          rw [haction]
        · obtain ⟨rfl, rfl⟩ := NextStage.schedule.inj (Except.ok.inj h)
          exact .inr (.inr ⟨by rw [hmode]; rfl, .inr rfl⟩)
      · rcases hh : s.arrangements.head? with _ | a <;> rw [hh] at h <;> cases h

/-- A stage that has just been planned has not decided anything. -/
theorem Discussion.invitees_pushStage
    {snapshot : PublicSnapshot} : (d.pushStage (.pending kind recipients snapshot n)).invitees = [] := by
  rw [invitees]
  split
  · rfl
  · rw [pushStage, getLast?_concat]
    rcases hf : (some (Stage.pending kind recipients snapshot n)).filter _ with _ | s
    · rfl
    · obtain ⟨he, -⟩ := Option.filter_eq_some_iff.mp hf
      obtain rfl := Option.some.inj he
      rfl

variable [TeamText]

/-- Whoever is excluded after an operation other than `exclude_member` was excluded before. -/
theorem Room.Step.excluded_before (h : r.Step n op r') {m : MemberId} (hm : r'.isExcluded m = true)
    (hop : op ≠ .excludeMember m) : r.isExcluded m = true :=
  (h.progress.excluded m hm).resolve_right hop

/-- What is reserved for a member after a change was reserved before, or the member is available. -/
theorem Room.Step.reserved_before (h : r.Step n op r') {t' : Attempt} (ht : t' ∈ r'.attempts)
    (hs : t'.state = .reserved) :
    (∃ t ∈ r.attempts, t.intent = t'.intent ∧ t.state = .reserved) ∨
      op.reserves = true ∧ r.isExcluded t'.intent.recipient = false := by
  rcases (h.change.moves h.valid).of_mem ht with ⟨t, ht, hm⟩ | hnew
  · exact .inl ⟨t, ht, hm.intent.symm, hm.reserved hs⟩
  · exact .inr ⟨hnew.operation, hnew.available.not_excluded h.valid⟩

/-- Reporting a member, or pausing a discussion, changes no mode and finishes nothing. -/
theorem Room.Step.of_pausing (h : r.Step n op r')
    (hop : (∃ m, op = .memberUnavailable m) ∨ ∃ id reason, op = .pauseDiscussion id reason) :
    ∀ d' ∈ r'.discussions, ∃ d ∈ r.discussions, d.id = d'.id ∧ d.mode = d'.mode ∧
      (d.state = .completed → d'.state = .completed) := by
  intro d' hd'
  have hquiet (hq : r.Quiet op r') : ∃ d ∈ r.discussions, d.id = d'.id ∧ d.mode = d'.mode ∧
      (d.state = .completed → d'.state = .completed) := by
    obtain ⟨d, hd, hdd⟩ := hq.of_mem hd'
    exact ⟨d, hd, hdd.id.symm, hdd.mode.symm, hdd.completed.mpr⟩
  have hinput (input : UserInput) (he : r' = r.withUserInput (publicRequest input n)) :
      ∃ d ∈ r.discussions, d.id = d'.id ∧ d.mode = d'.mode ∧
        (d.state = .completed → d'.state = .completed) := by
    subst he
    obtain ⟨d, hd, rfl⟩ := mem_map.mp hd'
    exact ⟨d, hd, (d.paused_id _).symm, (d.paused_mode _).symm, fun hc => by
      rwa [Discussion.paused_of_completed _ hc]⟩
  rcases hop with ⟨m, rfl⟩ | ⟨id, reason, rfl⟩
  all_goals
    cases h.change with
    | quiet hq => exact hquiet hq
    | reserved _ _ _ _ _ hop => cases hop
    | userInput => exact hinput _ rfl

/-- An operation that honours exclusion does so until its last save. -/
theorem Room.Step.honours (h : r.Step n op r') (hL : op.HonoursExclusion r) :
    op.HonoursExclusion r' := by
  cases op
  case excludeMember m =>
    refine ⟨fun t' ht' hm hs d => ?_, fun d' hd' hp => ?_⟩
    · rcases h.reserved_before ht' hs with ⟨t, ht, hi, hs⟩ | ⟨hop, -⟩
      · rw [← hi] at hm ⊢
        exact hL.1 t ht hm hs d
      · cases hop
    · rcases h.progress.discussions d' hd' with ⟨hd, hcalm⟩ | ⟨⟨⟩⟩ | ⟨-, ⟨⟩⟩ | ⟨-, ⟨⟩⟩ | ⟨-, ⟨⟩⟩ | ⟨-, ⟨⟩⟩ | ⟨-, ⟨⟩⟩
      rw [hcalm.mode]
      rcases hcalm.unavailable m hp with hp | ⟨-, hr | hr⟩ | ⟨-, ha⟩
      · exact hL.2 _ hd hp
      · cases hr
      · cases hr
      · exact ha
  case memberUnavailable m =>
    intro hm d' hd' hc
    obtain ⟨d, hd, -, hmode, hstays⟩ := h.of_pausing (.inl ⟨m, rfl⟩) d' hd'
    rw [← hmode]
    exact hL (h.excluded_before hm (by simp)) d hd fun he => hc (hstays he)
  case pauseDiscussion id reason =>
    cases reason
    case memberUnavailable m =>
      intro hm d' hd' hid hc
      obtain ⟨d, hd, hdid, hmode, hstays⟩ := h.of_pausing (.inr ⟨id, _, rfl⟩) d' hd'
      rw [← hmode]
      exact hL (h.excluded_before hm (by simp)) d hd (hdid.trans hid) fun he => hc (hstays he)
    all_goals trivial
  case advanceDiscussion id limits =>
    intro d' hd' hid hgo m hm
    rw [Bool.eq_false_iff]
    intro hex
    have hkept : ∀ d ∈ r.discussions, d'.id = d.id → (d'.state.isGoing = true → d.state.isGoing = true) →
        d'.mode = d.mode → d'.stages = d.stages → False := by
      intro d hd he hgoing hmode hstages
      rw [Discussion.invitees, hmode, hstages] at hm
      have := hL d hd (he.symm.trans hid) (hgoing hgo) m hm
      rw [h.excluded_before hex (by simp)] at this
      cases this
    rcases h.change with hq | _ | _ | _ | ⟨intents, ids, -, -, h, -⟩ | _ | _ | _ | _ | _ | _ | _ |
      ⟨input⟩ | _
    case quiet =>
      obtain ⟨d, hd, hdd⟩ := hq.of_mem hd'
      exact hkept d hd hdd.id hdd.going hdd.mode hdd.stages
    case reserved =>
      obtain ⟨rfl, -⟩ := Room.reserve_ok h
      exact hkept d' hd' rfl (fun h => h) rfl rfl
    case userInput =>
      rw [Discussion.invitees, Room.Progress.stopped_of_paused d' hd' hgo] at hm
      split at hm <;> cases hm
    case stageOpened =>
      obtain ⟨d, hd, rfl⟩ := mem_map.mp hd'
      split at hm
      · rw [Discussion.invitees_pushStage] at hm
        cases hm
      · next hne =>
        rw [if_neg hne] at hkept
        exact hkept d hd rfl (fun h => h) rfl rfl
  all_goals trivial

/-- **Operations that honour exclusion keep every turn and every pause off excluded members.** -/
theorem Room.Step.spares (h : r.Step n op r') (hL : op.HonoursExclusion r) (hr : r.Spares) : r'.Spares := by
  refine ⟨fun t' ht' hex hs d => ?_, fun d' hd' m hex hp => ?_⟩
  · rcases h.reserved_before ht' hs with ⟨t, ht, hi, hs⟩ | ⟨hop, ha⟩
    · rw [← hi] at hex ⊢
      rcases h.progress.excluded _ hex with hex | rfl
      · exact hr.turns t ht hex hs d
      · exact hL.1 t ht rfl hs d
    · rw [h.excluded_before hex (by rintro rfl; cases hop)] at ha
      cases ha
  have hkept (d : Discussion) (hd : d ∈ r.discussions) (hmode : d'.mode = d.mode)
      (hpauses : .memberUnavailable m ∈ d.pauses) : d'.mode.reportAuthor = m := by
    rw [hmode]
    rcases h.progress.excluded m hex with hex | rfl
    · exact hr.pauses d hd m hex hpauses
    · exact hL.2 d hd hpauses
  rcases h.progress.discussions d' hd' with ⟨hd, hcalm⟩ | _ | ⟨hd, -, -, -, -, -⟩ | ⟨hd, -, -, -⟩ |
    ⟨hd, hop, -, h'⟩ | ⟨hd, -, -⟩ | ⟨hd, -, -⟩
  case calm =>
    rcases hcalm.unavailable m hp with hp | ⟨hc, rfl | rfl⟩ | ⟨rfl, ha⟩
    · exact hkept _ hd hcalm.mode hp
    · rw [hcalm.mode]
      exact hL (h.excluded_before hex (by simp)) _ hd hc
    · rw [hcalm.mode]
      exact hL (h.excluded_before hex (by simp)) _ hd rfl hc
    · rw [hcalm.mode, ha]
  case started => cases hp
  case opened => exact hkept _ hd rfl hp
  case continued =>
    rw [Discussion.continued_pauses] at hp
    exact hkept _ hd (Discussion.continued_mode ..) (Finset.mem_filter.mp hp).1
  case modeChanged =>
    have hbefore := h.excluded_before hex (by rw [hop]; simp)
    have := (Finset.mem_filter.mp hp).2
    dsimp only at this
    rw [hbefore] at this
    cases this
  case finishing => exact hkept _ hd rfl (Finset.mem_filter.mp hp).1
  case decided =>
    rw [Discussion.modifyLastStage_pauses] at hp
    exact hkept _ hd (Discussion.modifyLastStage_mode ..) hp

/-! ### Stages that are opened -/

omit [TeamText] in
theorem Room.Opens.refl (r : Room) : r.Opens r :=
  ⟨fun _ => rfl, fun d hd => ⟨d, hd, rfl, rfl, fun _ hs => .inl hs⟩⟩

omit [TeamText] in
theorem Room.Opens.trans {r'' : Room} (h : r.Opens r') (h' : r'.Opens r'') : r.Opens r'' := by
  refine ⟨fun m => (h'.excluded m).trans (h.excluded m), fun d'' hd'' => ?_⟩
  obtain ⟨d', hd', hid', hmode', hplans'⟩ := h'.discussions d'' hd''
  obtain ⟨d, hd, hid, hmode, hplans⟩ := h.discussions d' hd'
  refine ⟨d, hd, hid.trans hid', hmode.trans hmode', fun plan hp => ?_⟩
  rcases hplans' plan hp with hp | hasks
  · exact hplans plan hp
  · rw [hmode]
    exact .inr fun m hm hex => hasks m hm ((h.excluded m).trans hex)

omit [TeamText] in
theorem Discussion.plans_pushStage
    {snapshot : PublicSnapshot} : (d.pushStage (.pending kind recipients snapshot n)).plans =
      d.plans ++ [⟨⟨n, 0⟩, kind, recipients⟩] := by
  have hrecipients : (Stage.pending kind recipients snapshot n).arrangements.map Arrangement.recipient =
      recipients := by
    refine ext_getElem (by simp [Stage.pending]) fun i hi hi' => ?_
    simp [Stage.pending]
  rw [plans, pushStage, map_append, map_singleton, Stage.plan, hrecipients]
  rfl

omit [TeamText] in
theorem Discussion.plans_modifyLastStage {F : Stage → Stage}
    (hF : ∀ s, (F s).plan = s.plan) : (d.modifyLastStage F).plans = d.plans := by
  rw [modifyLastStage]
  split
  · rfl
  · next s hs =>
    obtain ⟨before, hb⟩ := getLast?_eq_some_iff.mp hs
    rw [plans, plans, hb, dropLast_concat, map_append, map_append, map_singleton, map_singleton, hF]

omit [TeamText] in
/-- Continuing a discussion asks at most its moderator again. -/
theorem Discussion.plans_continued (d : Discussion) (snapshot : PublicSnapshot) :
    (d.continued snapshot n).plans = d.plans ∨
      (d.continued snapshot n).plans = d.plans ++ [⟨⟨n, 0⟩, .moderatorDecision, [d.mode.reportAuthor]⟩] := by
  rw [continued]
  split
  · exact .inr (plans_pushStage (d := d.retainPauses _))
  · exact .inl (plans_modifyLastStage (d := d.retainPauses _) fun _ => rfl)

/-- **What advancing and continuing a discussion open.** -/
theorem Room.Step.opens (h : r.Step n op r') (hL : op.HonoursExclusion r) (hop : op.OpensStages) :
    r.Opens r' := by
  have hne : ∀ m, op ≠ .excludeMember m := by
    rintro m rfl
    cases hop
  have hex : ∀ m, r'.isExcluded m = r.isExcluded m := fun m =>
    Bool.eq_iff_iff.mpr ⟨fun hm => h.excluded_before hm (hne m), h.progress.kept m⟩
  refine ⟨hex, fun d' hd' => ?_⟩
  rcases h.progress.discussions d' hd' with ⟨hd, hcalm⟩ | ⟨rfl⟩ | ⟨hd, rfl, hgo, hc, hs, hnext⟩ |
    ⟨hd, -, -, -⟩ | ⟨-, rfl⟩ | ⟨-, rfl⟩ | ⟨-, rfl⟩
  case calm =>
    refine ⟨_, hd, hcalm.id.symm, hcalm.mode.symm, fun plan hp => .inl ?_⟩
    rwa [← Discussion.plans_of_outline hcalm.outline]
  case opened d limits kind recipients =>
    refine ⟨d, hd, rfl, rfl, fun plan hp => ?_⟩
    rw [Discussion.plans_pushStage] at hp
    rcases mem_append.mp hp with hp | hp
    · exact .inl hp
    refine .inr ?_
    rw [mem_singleton.mp hp]
    rcases nextStage_recipients hnext hs with hr | rfl | ⟨rfl, hk⟩
    · intro m hm hex
      rw [hr m hm] at hex
      cases hex
    · simp only [Discussion.isDispatchable, Bool.and_eq_true] at hgo
      intro m hm hex
      rw [hL d hd rfl hgo.2 m hm] at hex
      cases hex
    · exact fun m hm _ => ⟨mem_singleton.mp hm, hk⟩
  case continued d =>
    refine ⟨d, hd, (Discussion.continued_id ..).symm, (Discussion.continued_mode ..).symm, fun plan hp => ?_⟩
    rcases Discussion.plans_continued (n := n) d r.publicSnapshot with he | he
    · rw [he] at hp
      exact .inl hp
    · rw [he] at hp
      rcases mem_append.mp hp with hp | hp
      · exact .inl hp
      · rw [mem_singleton.mp hp]
        exact .inr fun m hm _ => ⟨mem_singleton.mp hm, .inl rfl⟩
  all_goals cases hop

end

/-! ## Runs -/

section

variable {J : Serde Room} [TeamText] {s : TeamSession J} {p p' : TeamProcess J} {c : Call} {labels : List Call}

omit [TeamText] in
/-- Whether the operation, one that excludes a member or advances a discussion, returns before it plans
anything. -/
def TeamSession.refuses (s : TeamSession J) : Operation → Bool
  | .excludeMember m => s.hasLiveAttempts || s.unresolved ≠ ∅ || (s.room.member m).isNone
  | .advanceDiscussion id _ =>
    match s.room.discussion id with
    | none => true
    | some d => !d.isDispatchable || !(s.validateMode d.mode).isOk ||
      d.stages.getLast?.all Stage.isSettled && s.hasLiveAttempts
  | _ => false

/-- The operations that leave excluded members out. -/
def TeamProcess.HonoursExclusion (p : TeamProcess J) (c : Call) : Prop :=
  p.session.refuses c.operation = true ∨ c.operation.HonoursExclusion p.session.room

theorem TeamSession.storage_of_refuses {op : Operation} (h : s.refuses op = true) :
    (s.act op).2.storage = s.storage := by
  unfold refuses at h
  split at h
  · next m =>
    simp only [Bool.or_eq_true] at h
    rw [act, Outcome.done, excludeMember]
    split
    · rfl
    · next hbusy =>
      have hnone : (s.room.member m).isNone = true := by
        rcases h with h | h
        · exact absurd (by simpa using h) hbusy
        · exact h
      rw [Room.excludeMember, if_pos hnone]
      rfl
  · next id limits =>
    rw [act, Outcome.done, advanceDiscussion]
    split at h
    · next hd =>
      rw [findDiscussion, hd]
      rfl
    next d hd =>
    rw [findDiscussion_ok.mpr hd]
    dsimp only
    simp only [Bool.or_eq_true, Bool.not_eq_true'] at h
    split
    · rfl
    split
    · rfl
    next hgo =>
    rcases hm : s.validateMode d.mode with e | _
    · rfl
    have hlast := h.resolve_left fun h => h.elim (fun h => hgo (by rw [h]; rfl)) fun h => by
      rw [hm] at h
      cases h
    rw [Bool.and_eq_true] at hlast
    dsimp only
    rw [if_neg (by simp [hlast.1]), if_pos hlast.2]
  · cases h

/-- After `exclude_member` succeeded the member is excluded. -/
theorem TeamSession.excludeMember_excludes {m : MemberId} {s' : TeamSession J}
    (h : s.excludeMember m = (.ok (), s')) : s'.room.isExcluded m = true := by
  rw [excludeMember] at h
  split at h
  · cases h
  rw [Room.excludeMember] at h
  split at h
  · cases h
  next hsome =>
  rcases hk : s.room.member m with _ | k
  · rw [hk] at hsome
    exact absurd rfl hsome
  let next := (s.room.modifyMember m fun m => { m with excluded := true }).excluding m
  change TeamSession.andThen (s.save .storage next ()) _ = _ at h
  rcases hx : s.save .storage next () with ⟨e | _, s''⟩
  · rw [hx] at h
    cases h
  · rw [hx] at h
    cases h
    change s''.room.isExcluded m = true
    rw [save_ok hx, Room.isExcluded, any_eq_true]
    have hid : k.id = m := by simpa using find?_some hk
    refine ⟨_, mem_map_of_mem (mem_of_find?_eq_some hk), ?_⟩
    simp [hid]

/-- A step that refuses saves nothing. -/
theorem TeamProcess.step_refused (h : (teams J).step p c p') (hr : p.session.refuses c.operation = true) :
    p'.session.storage = p.session.storage := by
  obtain ⟨s', hact, hp', -⟩ := step_act h
  have hst := TeamSession.storage_of_refuses (s := { p.session with writes := c.writes }) hr
  rw [hact] at hst
  rw [hp']
  exact hst

theorem TeamProcess.step_excluded {m : MemberId} (h : (teams J).step p c p')
    (hop : c.operation = .excludeMember m) (hc : c.result.isOk = true) :
    p'.session.room.isExcluded m = true := by
  obtain ⟨s', hact, hp', -⟩ := step_act h
  rw [hop, TeamSession.act] at hact
  rcases hx : ({ p.session with writes := c.writes } : TeamSession J).excludeMember m with ⟨e | _, s''⟩
  · rw [hx] at hact
    obtain ⟨hresult, -⟩ := Prod.mk.inj hact
    rw [← hresult] at hc
    cases hc
  · rw [hx] at hact
    obtain ⟨-, rfl⟩ := Prod.mk.inj hact
    have hex := TeamSession.excludeMember_excludes hx
    rw [hp']
    exact hex

theorem preserved_spares : Preserved Operation.HonoursExclusion Room.Spares
    fun r r' => ∀ m, r.isExcluded m = true → r'.isExcluded m = true where
  blank r hr := ⟨fun t ht => by simp [hr.attempts] at ht, fun d hd => by simp [hr.discussions] at hd⟩
  refl _ _ h := h
  trans _ _ _ h h' m hm := h' m (h m hm)
  opening _ _ := trivial
  step _ _ _ _ hs hL h := ⟨hs.spares hL h, hs.progress.kept, hs.honours hL⟩

theorem TeamProcess.step_opens (hsound : p.Sound) (h : (teams J).step p c p') (hL : p.HonoursExclusion c)
    (hop : c.operation.OpensStages) : p.session.room.Opens p'.session.room := by
  rcases hL with hL | hL
  · rw [TeamSession.room, TeamSession.room, step_refused h hL]
    exact .refl _
  obtain ⟨st, -, -, hsaves, hst⟩ := exists_saves hsound h
  obtain rfl := hst.resolve_right fun ho => by
    obtain ⟨id, hid⟩ := exists_reopen ho.1
    rw [hid] at hop
    cases hop
  have hb := (hsound.rooms _ p.holds_room).2.mono
  exact (hsaves.memory (G := fun r => (r.Valid ∧ r.Below (p.session.serial + 1)) ∧
    c.operation.HonoursExclusion r ∧ p.session.room.Opens r) ⟨⟨hsound.valid, hb⟩, hL, .refl _⟩
    fun r r' hkept hv' hc => by
      obtain ⟨⟨hv, hb⟩, hL, ho⟩ := hkept
      have hs : Room.Step _ _ r r' := ⟨hv, valid_of_validate hv', hb, hc⟩
      exact ⟨⟨hs.valid', hs.below'⟩, hs.honours hL, ho.trans (hs.opens hL hop)⟩).2.2

/-- **No discussion waits for an excluded member**, in the runs whose operations honour exclusion: a
member stays excluded, no turn or pause waits for one, and no stage that is opened later asks one. -/
theorem exclusion_honoured (h : Run ((teams J).restrict TeamProcess.HonoursExclusion) labels p) :
    (∀ c ∈ labels, ∀ m, c.operation = .excludeMember m → c.result.isOk = true →
      p.session.room.isExcluded m = true) ∧
    p.session.room.Spares ∧
    ∀ c p', p.HonoursExclusion c → (teams J).step p c p' → c.operation.OpensStages →
      p.session.room.Opens p'.session.room := by
  have hL : ∀ p c p', p.HonoursExclusion c → (teams J).step p c p' →
      c.operation.HonoursExclusion p.session.room ∨ p'.session.storage = p.session.storage :=
    fun p c p' hL hs ↦ hL.symm.imp_right (TeamProcess.step_refused hs)
  obtain ⟨⟨hsound, hrooms⟩, hexcluded⟩ := Run.history (S := (teams J).restrict TeamProcess.HonoursExclusion)
    (I := fun labels p ↦ (p.Sound ∧ ∀ r, p.Holds r → r.Spares ∧
      ∀ m, p.session.room.isExcluded m = true → r.isExcluded m = true) ∧
    ∀ c ∈ labels, ∀ m, c.operation = .excludeMember m → c.result.isOk = true →
      p.session.room.isExcluded m = true)
    (fun p hi ↦ ⟨⟨TeamProcess.sound_init hi, preserved_spares.init hi⟩, by simp⟩)
    (fun labels p c p' ⟨⟨hsound, hrooms⟩, hexcluded⟩ ⟨hallowed, hs⟩ ↦ by
      obtain ⟨hrooms', hkept⟩ := preserved_spares.step_or hsound hrooms (hL p c p' hallowed hs) hs
      refine ⟨⟨TeamProcess.sound_step hsound hs, hrooms'⟩, fun e he m hop hok ↦ ?_⟩
      rcases mem_append.mp he with he | he
      · exact hkept m (hexcluded e he m hop hok)
      · obtain rfl := mem_singleton.mp he
        exact TeamProcess.step_excluded hs hop hok) h
  exact ⟨hexcluded, (hrooms _ p.holds_room).1, fun c p' hc hs hop ↦
    TeamProcess.step_opens hsound hs hc hop⟩

end

/-! ## Runs that ignore exclusion -/

section

attribute [local instance] plainText

def bobId : MemberId := ⟨⟨0, 0⟩⟩

def addBob : Operation :=
  .addMember { name := "bob".toList
               spec := { profile := { kind := .codex, name := [] }, roots := {}, settings := {}, role := [] } }

/-- Bob is excluded before there is work for him. -/
def excludeBob : List Operation := [
  addBob,
  .memberReady aliceId 1 .unavailable,
  .startDiscussion { text := "plan".toList } [aliceId, bobId] (.fixed aliceId)]

theorem exclusion_honoured_bob : ∃ p : TeamProcess (.plain Room),
    p.session.room.isExcluded bobId = true ∧ p.session.room.Spares := by
  have hstate : aliceMay excludeBob = true ∧ (aliceAfter excludeBob).isOpen = true ∧
      (aliceAfter excludeBob).session.room.attempts = [] ∧
      (∀ d ∈ (aliceAfter excludeBob).session.room.discussions, d.pauses = ∅) ∧
      ((aliceAfter excludeBob).call (.excludeMember bobId) []).1.isOk = true := by decide +kernel
  obtain ⟨hmay, hopen, hattempts, hpauses, hok⟩ := hstate
  obtain ⟨labels, hr⟩ := run_alice TeamProcess.HonoursExclusion excludeBob hmay fun p c hc ↦ by
    simp only [excludeBob, addBob, mem_cons, not_mem_nil, or_false] at hc
    rcases hc with hc | hc | hc <;> exact .inr (by rw [hc]; trivial)
  have hstep := TeamProcess.step_call (J := .plain Room) (.excludeMember bobId) []
    (p := aliceAfter excludeBob) (by rw [hopen]; rfl)
  have hhonours : (Operation.excludeMember bobId).HonoursExclusion (aliceAfter excludeBob).session.room := by
    refine ⟨fun t ht ↦ ?_, fun d hd hp ↦ ?_⟩
    · rw [hattempts] at ht
      cases ht
    · rw [hpauses d hd] at hp
      cases hp
  have hrun := hr.step ⟨.inr hhonours, hstep⟩
  have h := exclusion_honoured hrun
  exact ⟨_, h.1 _ (mem_append_right _ (mem_singleton_self _)) bobId rfl hok, h.2.1⟩

/-- Bob is excluded while a turn is reserved for him and the discussion is paused for him. -/
def keptForBob : List Operation := [
  addBob,
  .memberReady aliceId 1 .unavailable,
  .memberReady bobId 1 .unavailable,
  .startDiscussion { text := "plan".toList } [aliceId, bobId] (.fixed aliceId),
  .advanceDiscussion ⟨⟨3, 0⟩⟩ aliceLimits,
  .memberUnavailable bobId,
  .excludeMember bobId]

/-- Bob is excluded after Alice decided to invite him. -/
def invitedBob : List Operation := [
  addBob,
  .memberReady aliceId 1 (.codexDynamicTools 1),
  .memberReady bobId 1 .unavailable,
  .startDiscussion { text := "plan".toList } [aliceId, bobId] (.moderated aliceId),
  .advanceDiscussion ⟨⟨3, 0⟩⟩ aliceLimits,
  .prepareDispatch ⟨⟨4, 0⟩⟩,
  .acceptAttempt ⟨⟨⟨4, 0⟩⟩, aliceId, 1⟩ "turn".toList,
  .moderatorDecision ⟨⟨⟨4, 0⟩⟩, aliceId, 1⟩ ⟨⟨4, 0⟩⟩ ⟨⟨4, 0⟩⟩ (.invite [bobId]),
  .completeReply ⟨⟨⟨4, 0⟩⟩, aliceId, 1⟩ "turn".toList "bob".toList,
  .excludeMember bobId]

/-- Exclusion leaves a reserved turn and a pause of a discussion that does not need Bob, and a decision
still opens a stage for him. -/
theorem exclusion_ignored :
    ((∃ labels, Run (teams (.plain Room)) labels (aliceAfter keptForBob)) ∧
      (aliceAfter keptForBob).session.room.isExcluded bobId = true ∧
      (∃ t ∈ (aliceAfter keptForBob).session.room.attempts, t.intent.recipient = bobId ∧
        t.state = .reserved ∧ t.intent.budget = .discussion ⟨⟨3, 0⟩⟩) ∧
      ∃ d ∈ (aliceAfter keptForBob).session.room.discussions, .memberUnavailable bobId ∈ d.pauses ∧
        d.mode.reportAuthor ≠ bobId) ∧
    ∃ labels p', Run (teams (.plain Room)) labels (aliceAfter invitedBob) ∧
      (aliceAfter invitedBob).session.room.isExcluded bobId = true ∧
      (∃ c, c.operation = .advanceDiscussion ⟨⟨3, 0⟩⟩ aliceLimits ∧
        (teams (.plain Room)).step (aliceAfter invitedBob) c p') ∧
      ∃ d ∈ p'.session.room.discussions, ⟨⟨⟨10, 0⟩⟩, .invitedResponses, [bobId]⟩ ∈ d.plans := by
  have hkept : aliceMay keptForBob = true ∧
      (aliceAfter keptForBob).session.room.isExcluded bobId = true ∧
      (∃ t ∈ (aliceAfter keptForBob).session.room.attempts, t.intent.recipient = bobId ∧
        t.state = .reserved ∧ t.intent.budget = .discussion ⟨⟨3, 0⟩⟩) ∧
      ∃ d ∈ (aliceAfter keptForBob).session.room.discussions, .memberUnavailable bobId ∈ d.pauses ∧
        d.mode.reportAuthor ≠ bobId := by decide +kernel
  have hinvited : aliceMay invitedBob = true ∧
      (aliceAfter invitedBob).session.room.isExcluded bobId = true ∧
      (aliceAfter invitedBob).isOpen = true ∧
      ∃ d ∈ ((aliceAfter invitedBob).call (.advanceDiscussion ⟨⟨3, 0⟩⟩ aliceLimits) []).2.session.room.discussions,
        ⟨⟨⟨10, 0⟩⟩, .invitedResponses, [bobId]⟩ ∈ d.plans := by decide +kernel
  obtain ⟨kept, hk⟩ := run_alice (fun _ _ ↦ True) keptForBob hkept.1 fun _ _ _ ↦ trivial
  obtain ⟨invited, hi⟩ := run_alice (fun _ _ ↦ True) invitedBob hinvited.1 fun _ _ _ ↦ trivial
  have hstep := TeamProcess.step_call (J := .plain Room) (.advanceDiscussion ⟨⟨3, 0⟩⟩ aliceLimits) []
    (p := aliceAfter invitedBob) (by rw [hinvited.2.2.1]; rfl)
  exact ⟨⟨⟨kept, hk.of_restrict⟩, hkept.2⟩, invited, _, hi.of_restrict, hinvited.2.1, ⟨_, rfl, hstep⟩,
    hinvited.2.2.2⟩

end

end NiumaTerm.Team
