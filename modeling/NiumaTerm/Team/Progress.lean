import NiumaTerm.Team.Coherence

/-!
# How discussions progress

`Room.Step.progress` says where each discussion of a room comes from when the room changes: it is new,
it got a stage or a segment, its mode changed, its moderator decided, or the change was calm.  A calm
change leaves everything of the stages except the states of arrangements, and lets no work go again.
-/

namespace NiumaTerm.Team

open List

/-! ## Calm changes -/

/-- A stage without what became of its arrangements. -/
def Stage.outline (s : Stage) : Stage := s.mapArrangements fun _ => .pending

/-- The stages of a discussion without what became of their arrangements. -/
def Discussion.outline (d : Discussion) : List Stage := d.stages.map Stage.outline

/-- Whether the operation may hold the discussion for a member. -/
def Operation.Holds (op : Operation) (m : MemberId) (d : Discussion) : Prop :=
  d.state ≠ .completed ∧ op.Reports m d.id ∨ op = .excludeMember m ∧ d.mode.reportAuthor = m

/-- Nothing is planned or decided, and no work starts to go. -/
structure Discussion.Calm (op : Operation) (d d' : Discussion) : Prop where
  id : d'.id = d.id
  participants : d'.participants = d.participants
  mode : d'.mode = d.mode
  outline : d'.outline = d.outline
  reserved : d'.budget.reportReserved = d.budget.reportReserved
  limit : d.budget.limit ≤ d'.budget.limit
  going : d'.state.isGoing = true → d.state.isGoing = true
  unavailable : ∀ m, .memberUnavailable m ∈ d'.pauses →
    .memberUnavailable m ∈ d.pauses ∨ op.Holds m d

namespace Discussion

variable {op : Operation} {d e : Discussion}

theorem outline_mapStages {F : Stage → Stage} (hF : ∀ s, (F s).outline = s.outline) :
    ({ d with stages := d.stages.map F } : Discussion).outline = d.outline := by
  rw [outline, outline, map_map]
  exact map_congr_left fun s _ => hF s

theorem Quiet.calm (h : Quiet op d e) : d.Calm op e where
  id := h.id
  participants := h.participants
  mode := h.mode
  outline := by rw [outline, h.stages, outline]
  reserved := h.reserved
  limit := h.limit
  going := h.going
  unavailable m hm := (h.unavailable m hm).imp_right .inl

namespace Calm

theorem refl (op : Operation) (d : Discussion) : d.Calm op d :=
  ⟨rfl, rfl, rfl, rfl, rfl, le_rfl, fun h => h, fun _ => .inl⟩

/-- A discussion that does not go. -/
theorem withState (h : d.Calm op e) {state : DiscussionState} (hs : state.isGoing = false) :
    d.Calm op { e with state } :=
  ⟨h.id, h.participants, h.mode, h.outline, h.reserved, h.limit,
    fun hg => absurd (hs.symm.trans hg) Bool.false_ne_true, h.unavailable⟩

theorem settlePause (h : d.Calm op e) : d.Calm op e.settlePause :=
  h.withState (settlePause_not_going e)

theorem paused (h : d.Calm op e) {reason : PauseReason}
    (hr : ∀ m, reason = .memberUnavailable m → op.Holds m d) : d.Calm op (e.paused reason) := by
  rcases eq_or_ne e.state .completed with hc | hc
  · rwa [paused_of_completed _ hc]
  rw [paused_of_not_completed _ hc]
  refine ⟨h.id, h.participants, h.mode, h.outline, h.reserved, h.limit, fun hg => ?_, fun m hm => ?_⟩
  · rw [settlePause_not_going] at hg
    cases hg
  · rcases Finset.mem_insert.mp hm with hm | hm
    · exact .inr (hr m hm.symm)
    · exact h.unavailable m hm

theorem retainPauses (h : d.Calm op e) {keep : PauseReason → Bool} : d.Calm op (e.retainPauses keep) :=
  ⟨h.id, h.participants, h.mode, h.outline, h.reserved, h.limit, h.going,
    fun m hm => h.unavailable m (Finset.mem_filter.mp hm).1⟩

theorem resolved (h : d.Calm op e) {reason : PauseReason} : d.Calm op (e.resolved reason) :=
  ⟨h.id, h.participants, h.mode, h.outline, h.reserved, h.limit, h.going,
    fun m hm => h.unavailable m (Finset.mem_of_mem_erase hm)⟩

theorem settleHeld (h : d.Calm op e) : d.Calm op (Room.settleHeld e) := by
  rw [Room.settleHeld]
  split
  · exact h
  · exact h.settlePause

theorem mapArrangements (h : d.Calm op e) {f : Arrangement → ArrangementState} :
    d.Calm op (e.mapArrangements f) := by
  refine ⟨h.id, h.participants, h.mode, ?_, h.reserved, h.limit, h.going, h.unavailable⟩
  refine (outline_mapStages fun s => ?_).trans h.outline
  simp [Stage.outline, Stage.mapArrangements]

theorem failTurn (h : d.Calm op e) {t : Attempt} {uncertain : Bool} :
    d.Calm op (Room.failTurn t uncertain e) := by
  rw [Room.failTurn]
  split
  · exact h.mapArrangements.paused fun _ hm => by cases hm
  · refine h.mapArrangements.paused fun m hm => ?_
    rw [PauseReason.ofFailure] at hm
    split at hm <;> cases hm

theorem reacceptTurn {t : Attempt} : d.Calm op (Room.reacceptTurn t d) :=
  (refl op d).mapArrangements.resolved.settleHeld

theorem completeTurn {t : Attempt} : d.Calm op (Room.completeTurn t d) := by
  have hmarked : d.Calm op ((d.markOperation t.intent.operation (.completed t.id)).resolved
      (.uncertainAttempt t.id)) := (refl op d).mapArrangements.resolved
  rw [Room.completeTurn]
  split
  · exact hmarked.withState rfl
  · exact hmarked.settleHeld

theorem abandonDiscussion {id : AttemptId} : d.Calm op (Room.abandonDiscussion id d) :=
  ((refl op d).mapArrangements.resolved.paused fun _ h => by cases h).settlePause

/-- Only a discussion that needs the excluded member waits for it. -/
theorem excluding {m : MemberId} : d.Calm (.excludeMember m) (d.excluding m) := by
  rw [Discussion.excluding]
  split
  · exact .refl _ d
  dsimp only
  split
  · next hm =>
    refine (refl _ d).mapArrangements.paused fun m' hm' => ?_
    obtain rfl := PauseReason.memberUnavailable.inj hm'
    exact .inr ⟨rfl, hm⟩
  · exact (refl _ d).mapArrangements

theorem reopened : d.Calm op d.reopened := ((refl op d).retainPauses.paused fun _ h => by cases h).mapArrangements

end Calm

end Discussion

/-! ## Where a discussion comes from -/

/-- What `moderator_decision` has checked of the discussion, its last stage and the attempt. -/
structure Discussion.Decides (r : Room) (d : Discussion) (s : Stage) (t : Attempt)
    (key : AttemptEventKey) (stage : StageId) (operation : OperationId) (action : ModeratorAction) :
    Prop where
  attempt : r.attempt key.attempt = some t
  budget : t.intent.budget = .discussion d.id
  last : d.stages.getLast? = some s
  undecided : s.decision = none
  current : s.id = stage
  kind : s.kind = .moderatorDecision
  mode : d.mode = .moderated key.member
  purpose : t.intent.purpose = .moderation
  operation : t.intent.operation = operation
  intended : t.intent.stage = some stage
  recipient : t.intent.recipient = key.member
  generation : t.intent.backendGeneration = key.backendGeneration
  accepted : t.state = .accepted
  invited : ∀ recipients, action = .invite recipients → recipients ≠ [] ∧ recipients.Nodup ∧
    ∀ m ∈ recipients, m ∈ d.participants ∧ r.Available m

inductive Discussion.Next (n : ℕ) (op : Operation) (r : Room) : Discussion → Prop
  | calm {d d' : Discussion} (hd : d ∈ r.discussions) (h : d.Calm op d') : Next n op r d'
  | started {input : UserInput} {participants : List MemberId} {mode : DiscussionMode}
    (hop : op = .startDiscussion input participants mode) (hm : r.Available mode.reportAuthor)
    (hn : participants.Nodup) : Next n op r
      { id := ⟨n, 0⟩, request := input, participants, mode, state := .running, pauses := ∅, stages := []
        budget := .ofDiscussion }
  | opened {d : Discussion} {limits : ContextLimits} {kind : StageKind} {recipients : List MemberId}
    (hd : d ∈ r.discussions) (hop : op = .advanceDiscussion d.id limits)
    (hgo : d.isDispatchable = true) (hc : d.state ≠ .completed)
    (hs : d.stages.getLast?.all Stage.isSettled = true)
    (hnext : nextStage d (r.remainingNonReportTurns d) r.isExcluded = .ok (.schedule kind recipients)) :
    Next n op r (d.pushStage (.pending kind recipients r.publicSnapshot n))
  | continued {d : Discussion} (hd : d ∈ r.discussions) (hop : op = .continueDiscussion d.id)
    (hc : d.state ≠ .completed) (hm : r.Available d.mode.reportAuthor) :
    Next n op r (d.continued r.publicSnapshot n)
  | modeChanged {d changed : Discussion} {mode : DiscussionMode} (hd : d ∈ r.discussions)
    (hop : op = .changeMode d.id mode) (hm : r.Available mode.reportAuthor)
    (h : d.changeMode mode = .ok changed) : Next n op r (changed.modeChanged r.isExcluded)
  | finishing {d : Discussion} (hd : d ∈ r.discussions) (hop : op = .finishWithReport d.id)
    (hc : d.state ≠ .completed) : Next n op r (d.finishing r.publicSnapshot n)
  | decided {d : Discussion} {s : Stage} {t : Attempt} {key : AttemptEventKey} {stage : StageId}
    {operation : OperationId} {action : ModeratorAction} (hd : d ∈ r.discussions)
    (hop : op = .moderatorDecision key stage operation action)
    (h : d.Decides r s t key stage operation action) : Next n op r
      (d.modifyLastStage fun s => { s with
        decision := some { operation, attempt := key.attempt, actor := key.member, action } })

/-- What a change does to the discussions of a room, its messages, and who is excluded. -/
structure Room.Progress (n : ℕ) (op : Operation) (r r' : Room) : Prop where
  discussions : ∀ d' ∈ r'.discussions, Discussion.Next n op r d'
  /-- A message of a user stops every discussion that has stages. -/
  messages : ∀ m ∈ r'.messages, m.author = .user → m ∈ r.messages ∨
    ∀ d ∈ r'.discussions, d.state.isGoing = true → d.stages = []
  excluded : ∀ m, r'.isExcluded m = true → r.isExcluded m = true ∨ op = .excludeMember m
  kept : ∀ m, r.isExcluded m = true → r'.isExcluded m = true

namespace Room.Progress

variable {n : ℕ} {op : Operation} {r q r' : Room}

/-- Members and the messages of users stay. -/
theorem of_next (hm : ∀ m ∈ r'.messages, m.author = .user → m ∈ r.messages)
    (hmembers : r'.members = r.members)
    (hd : ∀ d' ∈ r'.discussions, Discussion.Next n op r d') : Progress n op r r' := by
  refine ⟨hd, fun m hmem hu => .inl (hm m hmem hu), fun m hex => .inl ?_, fun m hex => ?_⟩
  · rwa [isExcluded, hmembers] at hex
  · rwa [isExcluded, hmembers]

theorem of_calm (hm : r'.messages = r.messages) (hmembers : r'.members = r.members)
    (hd : ∀ d' ∈ r'.discussions, ∃ d ∈ r.discussions, d.Calm op d') : Progress n op r r' := by
  refine .of_next (fun m hmem _ => hm ▸ hmem) hmembers fun d' hd' => ?_
  obtain ⟨d, hmem, h⟩ := hd d' hd'
  exact .calm hmem h

/-- A change of one discussion. -/
theorem of_modify {id : DiscussionId} {f : Discussion → Discussion} (hm : q.messages = r.messages)
    (hmembers : q.members = r.members) (hdiscussions : q.discussions = r.discussions)
    (hf : ∀ d ∈ r.discussions, d.id = id → Discussion.Next n op r (f d)) :
    Progress n op r (q.modifyDiscussion id f) := by
  refine .of_next (fun m hmem _ => hm ▸ hmem) hmembers fun d' hd' => ?_
  obtain ⟨d, hd, rfl⟩ := mem_map.mp hd'
  rw [hdiscussions] at hd
  split
  · next hid => exact hf d hd hid
  · exact .calm hd (.refl op d)

theorem exists_of_settle {t : Attempt} {change : Attempt → Attempt} {mark : Discussion → Discussion}
    {d' : Discussion} (hd' : d' ∈ (r.settle t change mark).discussions) :
    ∃ d ∈ r.discussions, d' = d ∨ d' = mark d := by
  unfold Room.settle at hd'
  split at hd'
  · obtain ⟨d, hd, rfl⟩ := mem_map.mp hd'
    split
    · exact ⟨d, hd, .inr rfl⟩
    · exact ⟨d, hd, .inl rfl⟩
  · exact ⟨d', hd', .inl rfl⟩

/-- The outcome of an attempt. -/
theorem settle {t : Attempt} {change : Attempt → Attempt} {mark : Discussion → Discussion}
    (hm : ∀ d : Discussion, d.Calm op (mark d)) : Progress n op r (r.settle t change mark) := by
  refine .of_calm (settle_messages _ _ _) (settle_members _ _ _) fun d' hd' => ?_
  obtain ⟨d, hd, rfl | rfl⟩ := exists_of_settle hd'
  · exact ⟨_, hd, .refl op _⟩
  · exact ⟨d, hd, hm d⟩

/-- Nothing goes after a message of a user. -/
theorem stopped_of_paused {reason : PauseReason} :
    ∀ d ∈ (r.mapDiscussions fun d => d.paused reason).discussions, d.state.isGoing = true →
      d.stages = [] := by
  intro d' hd' hgo
  obtain ⟨d, hd, rfl⟩ := mem_map.mp hd'
  rcases eq_or_ne d.state .completed with hc | hc
  · rw [Discussion.paused_of_completed _ hc, hc] at hgo
    cases hgo
  · rw [Discussion.paused_of_not_completed _ hc, Discussion.settlePause_not_going] at hgo
    cases hgo

end Room.Progress

section

variable [TeamText] {n : ℕ} {op : Operation} {r r' : Room}

/-- **What a change does to discussions.** -/
theorem Room.Step.progress (h : r.Step n op r') : r.Progress n op r' := by
  obtain ⟨hv, hv', hb, hc⟩ := h
  have hn := hv.attempts_nodup
  cases hc with
  | quiet hq =>
    refine ⟨fun d' hd' => ?_, fun m hm _ => .inl (hq.messages ▸ hm), fun m hm => .inl ?_, fun m hm => ?_⟩
    · obtain ⟨d, hd, hdd⟩ := hq.of_mem hd'
      exact .calm hd hdd.calm
    · rwa [hq.excluded] at hm
    · rwa [hq.excluded]
  | reopened =>
    refine .of_calm rfl rfl fun d' hd' => ?_
    obtain ⟨d, hd, rfl⟩ := mem_map.mp hd'
    exact ⟨d, hd, .reopened⟩
  | @ready id generation capabilities _ _ _ ho hon h =>
    obtain ⟨hm, hmembers, hd⟩ := Room.fails_induction (P := fun q => q.messages = r.messages ∧
      q.members = r.members ∧ ∀ d' ∈ q.discussions, ∃ d ∈ r.discussions,
        d.Calm (.memberReady id generation capabilities) d') h hon hn ho
      (⟨rfl, rfl, fun d' hd' => by
        obtain ⟨d, hd, rfl⟩ := mem_map.mp hd'
        exact ⟨d, hd, (Discussion.Calm.refl _ d).resolved⟩⟩)
      fun q t q' _ _ _ ⟨hm, hmembers, hd⟩ h => by
        rw [Room.fail_ok h]
        refine ⟨(settle_messages _ _ _).trans hm, (settle_members _ _ _).trans hmembers, fun d' hd' => ?_⟩
        obtain ⟨e, he, rfl | rfl⟩ := Progress.exists_of_settle hd'
        · exact hd d' he
        · obtain ⟨d, hdmem, hde⟩ := hd e he
          exact ⟨d, hdmem, hde.failTurn⟩
    exact .of_calm hm hmembers hd
  | @excluded id _ next _ h =>
    rw [Room.excludeMember_ok h]
    refine ⟨fun d' hd' => ?_, fun m hm _ => .inl hm, fun m hm => ?_, fun m hm => ?_⟩
    · obtain ⟨d, hd, rfl⟩ := mem_map.mp hd'
      exact .calm hd .excluding
    · by_cases hid : m = id
      · exact .inr (by rw [hid])
      · left
        rw [isExcluded, any_eq_true] at hm ⊢
        obtain ⟨k', hk', he⟩ := hm
        obtain ⟨k, hk, rfl⟩ := mem_map.mp hk'
        refine ⟨k, hk, ?_⟩
        simp only [Bool.and_eq_true, decide_eq_true_eq] at he ⊢
        split at he
        · next hkid => exact absurd (he.1.symm.trans hkid) hid
        · exact he
    · rw [isExcluded, any_eq_true] at hm ⊢
      obtain ⟨k, hk, he⟩ := hm
      refine ⟨_, mem_map_of_mem hk, ?_⟩
      simp only [Bool.and_eq_true, decide_eq_true_eq] at he ⊢
      split
      · exact ⟨he.1, rfl⟩
      · exact he
  | reserved _ _ _ _ h =>
    obtain ⟨rfl, -⟩ := Room.reserve_ok h
    exact .of_calm rfl rfl fun d hd => ⟨d, hd, .refl _ d⟩
  | prepared _ _ _ _ _ _ h =>
    obtain ⟨u, hu, hs, -, h⟩ := Room.prepare_ok h
    rcases h with ⟨-, -, -, -, -, -, -, -, rfl⟩ | ⟨-, rfl⟩
    · exact .settle fun d => (Discussion.Calm.refl _ d).mapArrangements
    · exact .of_calm rfl rfl fun d hd => ⟨d, hd, .refl _ d⟩
  | finished h =>
    obtain ⟨t, ht, hs, h'⟩ := Room.finish_ok h
    clear h
    rcases h' with ⟨-, rfl⟩ | rfl
    all_goals exact .settle fun d => (Discussion.Calm.refl _ d).failTurn
  | accepted _ _ _ h =>
    rcases Room.accept_ok h with ⟨-, rfl⟩ | ⟨-, rfl⟩
    · exact .settle fun d => .reacceptTurn
    · exact .of_calm rfl rfl fun d hd => ⟨d, hd, .refl _ d⟩
  | completed _ _ _ _ h =>
    obtain ⟨m, hm, rfl, rfl⟩ := Room.complete_ok h
    refine .of_next (fun m' hm' hu => ?_) (settle_members _ _ _) fun d' hd' => ?_
    · rw [settle_messages] at hm'
      rcases mem_append.mp hm' with hm' | hm'
      · exact hm'
      · rw [mem_singleton.mp hm'] at hu
        cases hu
    · obtain ⟨d, hd, rfl | rfl⟩ := Progress.exists_of_settle hd'
      · exact .calm hd (.refl _ d')
      · exact .calm hd .completeTurn
  | failed _ _ _ h =>
    rw [Room.fail_ok h]
    exact .settle fun d => (Discussion.Calm.refl _ d).failTurn
  | abandoned hx h =>
    obtain ⟨t, ht, rfl, hf⟩ := hx
    rw [Room.abandon_ok h]
    refine .of_calm rfl rfl fun d' hd' => ?_
    obtain ⟨d, hd, rfl⟩ := mem_map.mp hd'
    exact ⟨d, hd, .abandonDiscussion⟩
  | @started input _ _ _ _ d hm h =>
    obtain ⟨hall, hnodup, rfl, hdnew⟩ := Room.createDiscussion_ok h
    have hfrom : ∀ d' ∈ (started { r with discussions := r.discussions ++ [d] } d input n).discussions,
        d' ∈ r.discussions ∨ d' = { d with state := .running, request := input } := by
      intro d' hd'
      obtain ⟨e, he, rfl⟩ := mem_map.mp hd'
      rcases mem_append.mp he with he | he
      · rw [if_neg (hv'.started_ne e he)]
        exact .inl he
      · rw [mem_singleton.mp he, if_pos rfl]
        exact .inr rfl
    subst hdnew
    refine ⟨fun d' hd' => ?_, fun m _ _ => .inr fun d' hd' hgo => ?_, fun m hm => .inl hm, fun m hm => hm⟩
    · rcases hfrom d' hd' with hd | rfl
      · exact .calm hd (.refl _ d')
      · exact .started rfl hm hnodup
    · rcases hfrom d' hd' with hd | rfl
      · rw [hall d' hd] at hgo
        cases hgo
      · rfl
  | userInput =>
    refine ⟨fun d' hd' => ?_, fun m _ _ => .inr Progress.stopped_of_paused, fun m hm => .inl hm,
      fun m hm => hm⟩
    obtain ⟨d, hd, rfl⟩ := mem_map.mp hd'
    exact .calm hd ((Discussion.Calm.refl _ d).paused fun _ h => by cases h)
  | stageOpened _ _ _ _ hd' hc hgo hs hnext =>
    obtain ⟨hmem, rfl⟩ := TeamSession.id_of_discussion hd'
    refine .of_modify rfl rfl rfl fun e he hid => ?_
    obtain rfl := hv.discussion_eq he hmem hid
    exact .opened he rfl hgo hc hs hnext
  | continued _ _ _ hd' hc hm =>
    obtain ⟨hmem, rfl⟩ := TeamSession.id_of_discussion hd'
    refine .of_modify rfl rfl rfl fun e he hid => ?_
    obtain rfl := hv.discussion_eq he hmem hid
    exact .continued he rfl hc hm
  | modeChanged _ _ hm hd' h =>
    obtain ⟨hmem, rfl⟩ := TeamSession.id_of_discussion hd'
    exact .of_modify rfl rfl rfl fun e _ _ => .modeChanged hmem rfl hm h
  | finishing _ _ _ hd' hc =>
    obtain ⟨hmem, rfl⟩ := TeamSession.id_of_discussion hd'
    refine .of_modify rfl rfl rfl fun e he hid => ?_
    obtain rfl := hv.discussion_eq he hmem hid
    exact .finishing he rfl hc
  | decided _ _ _ ht hbudget hd' hs hnone he hi =>
    obtain ⟨hmem, -⟩ := TeamSession.id_of_discussion hd'
    obtain ⟨h₁, h₂, h₃, h₄, h₅, h₆, h₇, h₈, h₉⟩ := he
    refine .of_modify rfl rfl rfl fun e hemem hid => ?_
    obtain rfl := hv.discussion_eq hemem hmem hid
    exact .decided hemem rfl ⟨ht, hbudget, hs, hnone, h₁, h₂, h₃, h₄, h₅, h₆, h₇, h₈, h₉, hi⟩

end

end NiumaTerm.Team
