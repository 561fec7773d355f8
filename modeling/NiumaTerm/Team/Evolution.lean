import NiumaTerm.Lib.Growth
import NiumaTerm.Team.Operations

/-!
# How a room evolves

What no change ever undoes (`Room.Evolves`): messages, discussions, stages and attempts are only added
to; an attempt that was sent is not sent again, and an outcome is final; an arrangement that was sent
does not wait again.  `Change.evolves` says so of every change.
-/

namespace NiumaTerm.Team

open Growth Checks List

/-! ## The relation -/

namespace AttemptState

/-- A turn is reserved, then sent, then has an outcome. -/
def rank : AttemptState → ℕ
  | reserved => 0
  | sending | accepted | uncertain => 1
  | _ => 2

/-- The states that can follow a state, itself included. -/
def Leads (a b : AttemptState) : Prop := a = b ∨ a.rank ≤ b.rank ∧ a.rank < 2 ∧ 0 < b.rank

theorem Leads.refl (a : AttemptState) : a.Leads a := .inl rfl

theorem Leads.trans {a b c : AttemptState} (h : a.Leads b) (h' : b.Leads c) : a.Leads c := by
  rcases h with rfl | ⟨hab, ha, hb⟩
  · exact h'
  · rcases h' with rfl | ⟨hbc, -, hc⟩
    · exact .inr ⟨hab, ha, hb⟩
    · exact .inr ⟨hab.trans hbc, ha, hc⟩

variable {b a : AttemptState}

theorem leads_of_reserved (hb : 0 < b.rank) : reserved.Leads b :=
  .inr ⟨Nat.zero_le _, by decide, hb⟩

theorem leads_of_inFlight (ha : a.inFlight = true) (hb : 0 < b.rank) : a.Leads b := by
  have hrank : a.rank = 1 := by
    rcases a with _ | _ | _ | _ | _ | _ | _ | _ | _ <;> simp_all [inFlight, rank]
  exact .inr ⟨by omega, by omega, hb⟩

/-- An outcome is final. -/
theorem Leads.eq_of_final (h : a.Leads b) (ha : a.rank = 2) : b = a := by
  rcases h with rfl | ⟨-, h, -⟩
  · rfl
  · omega

/-- What was sent is not waiting to be sent. -/
theorem Leads.ne_reserved (h : a.Leads b) (ha : a ≠ .reserved) : b ≠ .reserved := by
  rcases h with rfl | ⟨-, -, hb⟩
  · exact ha
  · rintro rfl
    simp [rank] at hb

end AttemptState

structure Attempt.Evolves (t t' : Attempt) : Prop where
  id : t'.id = t.id
  intent : t'.intent = t.intent
  state : t.state.Leads t'.state

structure Arrangement.Evolves (a a' : Arrangement) : Prop where
  operation : a'.operation = a.operation
  recipient : a'.recipient = a.recipient
  sent : a.state ≠ .pending → a'.state ≠ .pending

structure Stage.Evolves (s s' : Stage) : Prop where
  id : s'.id = s.id
  kind : s'.kind = s.kind
  /-- No arrangement is added. -/
  arrangements : Grows Arrangement.Evolves (fun _ => False) s.arrangements s'.arrangements
  segments : s.segments <+: s'.segments
  decision : s.decision.isSome = true → s'.decision = s.decision

/-- A stage whose operations were made by the operation of a serial. -/
def Stage.MadeBy (n : ℕ) (s : Stage) : Prop := ∀ a ∈ s.arrangements, a.operation.uuid.serial = n

structure Discussion.Evolves (n : ℕ) (d d' : Discussion) : Prop where
  id : d'.id = d.id
  participants : d'.participants = d.participants
  stages : Grows Stage.Evolves (Stage.MadeBy n) d.stages d'.stages

/-- The room only grows. -/
structure Room.Evolves (n : ℕ) (r r' : Room) : Prop where
  messages : r.messages <+: r'.messages
  summaries : r'.summaries = r.summaries
  attempts : Grows Attempt.Evolves (fun t => t.intent.operation.uuid.serial ≤ n) r.attempts r'.attempts
  discussions : Grows (Discussion.Evolves n) (fun d => ∀ s ∈ d.stages, s.MadeBy n)
    r.discussions r'.discussions

/-! ## It is a preorder -/

theorem Attempt.Evolves.refl (t : Attempt) : t.Evolves t := ⟨rfl, rfl, .refl _⟩

theorem Attempt.Evolves.trans {t t' t'' : Attempt} (h : t.Evolves t') (h' : t'.Evolves t'') :
    t.Evolves t'' :=
  ⟨h'.id.trans h.id, h'.intent.trans h.intent, h.state.trans h'.state⟩

theorem Arrangement.Evolves.refl (a : Arrangement) : a.Evolves a := ⟨rfl, rfl, id⟩

theorem Arrangement.Evolves.trans {a a' a'' : Arrangement} (h : a.Evolves a') (h' : a'.Evolves a'') :
    a.Evolves a'' :=
  ⟨h'.operation.trans h.operation, h'.recipient.trans h.recipient, fun hs => h'.sent (h.sent hs)⟩

theorem Stage.Evolves.refl (s : Stage) : s.Evolves s :=
  ⟨rfl, rfl, .refl fun a _ => .refl a, prefix_rfl, fun _ => rfl⟩

theorem Stage.Evolves.trans {s s' s'' : Stage} (h : s.Evolves s') (h' : s'.Evolves s'') :
    s.Evolves s'' where
  id := h'.id.trans h.id
  kind := h'.kind.trans h.kind
  arrangements := h.arrangements.trans h'.arrangements (fun _ _ _ => Arrangement.Evolves.trans)
    fun _ _ hn _ => hn
  segments := h.segments.trans h'.segments
  decision hd := by
    rw [h'.decision (by rw [h.decision hd]; exact hd), h.decision hd]

theorem Stage.Evolves.madeBy {n : ℕ} {s s' : Stage} (h : s.Evolves s') (hs : s.MadeBy n) :
    s'.MadeBy n := by
  intro a' ha'
  obtain ⟨a, ha, he⟩ := (h.arrangements.of_mem ha').resolve_right not_false
  rw [he.operation]
  exact hs a ha

theorem Discussion.Evolves.refl {n : ℕ} (d : Discussion) : d.Evolves n d :=
  ⟨rfl, rfl, .refl fun s _ => .refl s⟩

theorem Discussion.Evolves.trans {n : ℕ} {d d' d'' : Discussion} (h : d.Evolves n d')
    (h' : d'.Evolves n d'') : d.Evolves n d'' where
  id := h'.id.trans h.id
  participants := h'.participants.trans h.participants
  stages := h.stages.trans h'.stages (fun _ _ _ => Stage.Evolves.trans) fun _ _ hn he => he.madeBy hn

theorem Discussion.Evolves.madeBy {n : ℕ} {d d' : Discussion} (h : d.Evolves n d')
    (hs : ∀ s ∈ d.stages, s.MadeBy n) : ∀ s ∈ d'.stages, s.MadeBy n := by
  intro s' hs'
  obtain ⟨s, hmem, he⟩ | hn := h.stages.of_mem hs'
  · exact he.madeBy (hs s hmem)
  · exact hn

theorem Room.Evolves.refl {n : ℕ} (r : Room) : r.Evolves n r :=
  ⟨prefix_rfl, rfl, .refl fun t _ => .refl t, .refl fun d _ => .refl d⟩

theorem Room.Evolves.trans {n : ℕ} {r r' r'' : Room} (h : r.Evolves n r') (h' : r'.Evolves n r'') :
    r.Evolves n r'' where
  messages := h.messages.trans h'.messages
  summaries := h'.summaries.trans h.summaries
  attempts := h.attempts.trans h'.attempts (fun _ _ _ => Attempt.Evolves.trans)
    fun _ _ hn he => by rw [he.intent]; exact hn
  discussions := h.discussions.trans h'.discussions (fun _ _ _ => Discussion.Evolves.trans)
    fun _ _ hn he => he.madeBy hn

/-! ## What operations on discussions do -/

namespace Discussion

variable {n : ℕ} {d e : Discussion}

/-- No arrangement waits that did not wait before. -/
def KeepsSent (f : Arrangement → ArrangementState) : Prop :=
  ∀ a, a.state ≠ .pending → f a ≠ .pending

theorem evolves_mapArrangements {f : Arrangement → ArrangementState} (hf : KeepsSent f)
    (s : Stage) : s.Evolves (s.mapArrangements f) :=
  ⟨rfl, rfl, .map fun a _ => ⟨rfl, rfl, hf a⟩, prefix_rfl, fun _ => rfl⟩

namespace Evolves

/-- Only the stages matter. -/
theorem of_stages {e' : Discussion} (h : d.Evolves n e) (hid : e'.id = e.id)
    (hp : e'.participants = e.participants) (hs : e'.stages = e.stages) : d.Evolves n e' :=
  ⟨hid.trans h.id, hp.trans h.participants, by rw [hs]; exact h.stages⟩

theorem paused (h : d.Evolves n e) {reason : PauseReason} : d.Evolves n (e.paused reason) :=
  h.of_stages (e.paused_id reason) (e.paused_participants reason) (e.paused_stages reason)

theorem resolved (h : d.Evolves n e) {reason : PauseReason} : d.Evolves n (e.resolved reason) :=
  h.of_stages rfl rfl rfl

theorem retainPauses (h : d.Evolves n e) {keep : PauseReason → Bool} :
    d.Evolves n (e.retainPauses keep) := h.of_stages rfl rfl rfl

theorem settlePause (h : d.Evolves n e) : d.Evolves n e.settlePause := h.of_stages rfl rfl rfl

theorem withState (h : d.Evolves n e) {state : DiscussionState} :
    d.Evolves n { e with state } := h.of_stages rfl rfl rfl

theorem mapArrangements (h : d.Evolves n e) {f : Arrangement → ArrangementState} (hf : KeepsSent f) :
    d.Evolves n (e.mapArrangements f) :=
  h.trans ⟨rfl, rfl, .map fun s _ => Discussion.evolves_mapArrangements hf s⟩

theorem mapStagesOf (h : d.Evolves n e) {p : StageKind → Bool} {f : Arrangement → ArrangementState}
    (hf : KeepsSent f) : d.Evolves n (e.mapStagesOf p f) := by
  refine h.trans ⟨rfl, rfl, .map fun s _ => ?_⟩
  split
  · exact Discussion.evolves_mapArrangements hf s
  · exact .refl s

theorem markOperation (h : d.Evolves n e) {operation : OperationId} {state : ArrangementState}
    (hs : state ≠ .pending) : d.Evolves n (e.markOperation operation state) := by
  refine h.mapArrangements fun a ha => ?_
  split
  · exact hs
  · exact ha

theorem pushStage (h : d.Evolves n e) {s : Stage} (hs : s.MadeBy n) : d.Evolves n (e.pushStage s) := by
  refine h.trans ⟨rfl, rfl, .append (fun s _ => .refl s) fun s' hs' => ?_⟩
  rw [mem_singleton.mp hs']
  exact hs

theorem modifyLastStage (h : d.Evolves n e) {f : Stage → Stage}
    (hf : ∀ s, e.stages.getLast? = some s → s.Evolves (f s)) : d.Evolves n (e.modifyLastStage f) := by
  rw [Discussion.modifyLastStage]
  split
  · exact h
  next s hs =>
  refine h.trans ⟨rfl, rfl, ?_⟩
  have hg : Grows Stage.Evolves (Stage.MadeBy n) (e.stages.dropLast ++ [s])
      (e.stages.dropLast ++ [f s]) := .concat (fun s _ => .refl s) (hf s hs)
  rwa [dropLast_append_getLast? s hs] at hg

theorem settleHeld (h : d.Evolves n e) : d.Evolves n (Room.settleHeld e) := by
  rw [Room.settleHeld]
  split
  · exact h
  · exact h.settlePause

end Evolves

variable {snapshot : PublicSnapshot} {t : Attempt}

theorem madeBy_pending {kind : StageKind} {recipients : List MemberId} :
    (Stage.pending kind recipients snapshot n).MadeBy n := by
  intro a ha
  simp only [Stage.pending, mem_mapIdx] at ha
  obtain ⟨i, hi, rfl⟩ := ha
  rfl

theorem keepsSent_cancelPending : KeepsSent cancelPending := by
  intro a ha
  rw [cancelPending, if_neg ha]
  exact ha

theorem keepsSent_cancelOpen : KeepsSent cancelOpen := by
  intro a ha
  unfold cancelOpen
  split
  · exact nofun
  · exact nofun
  · exact ha

theorem keepsSent_cancelRecipient {m : MemberId} : KeepsSent (cancelRecipient m) := by
  intro a ha
  rw [cancelRecipient, if_neg fun h => ha h.2]
  exact ha

theorem keepsSent_abandonArrangement {id : AttemptId} : KeepsSent (Room.abandonArrangement id) := by
  intro a ha
  rw [Room.abandonArrangement]
  split
  · exact nofun
  · exact ha

theorem evolves_continued : d.Evolves n (d.continued snapshot n) := by
  rw [continued]
  split
  · exact .withState (.pushStage (.retainPauses (.refl d)) madeBy_pending)
  · refine .withState (.modifyLastStage (.retainPauses (.refl d)) fun s _ => ?_)
    exact ⟨rfl, rfl, .refl fun a _ => .refl a, prefix_append _ _, fun _ => rfl⟩

theorem evolves_modeChanged {mode : DiscussionMode} {isExcluded : MemberId → Bool}
    (h : d.changeMode mode = .ok e) : d.Evolves n (e.modeChanged isExcluded) := by
  obtain ⟨-, -, rfl⟩ := changeMode_ok h
  have hpaused : d.Evolves n { d.paused .modeChange with mode } :=
    .of_stages (.paused (.refl d)) rfl rfl rfl
  exact .mapStagesOf (.retainPauses hpaused) keepsSent_cancelPending

theorem evolves_finishing : d.Evolves n (d.finishing snapshot n) :=
  .withState (.pushStage (.retainPauses (.mapArrangements (.refl d) keepsSent_cancelOpen))
    madeBy_pending)

theorem evolves_excluding {m : MemberId} : d.Evolves n (d.excluding m) := by
  rw [excluding]
  split
  · exact .refl d
  dsimp only
  split
  · exact .paused (.mapArrangements (.refl d) keepsSent_cancelRecipient)
  · exact .mapArrangements (.refl d) keepsSent_cancelRecipient

theorem evolves_reopened : d.Evolves n d.reopened := by
  refine .mapArrangements (.paused (.retainPauses (.refl d))) fun a ha => ?_
  split
  · exact nofun
  · exact ha

theorem evolves_failTurn {uncertain : Bool} : d.Evolves n (Room.failTurn t uncertain d) := by
  rw [Room.failTurn]
  split
  all_goals
    refine .paused (.markOperation (.refl d) ?_)
    rintro ⟨⟩

theorem evolves_reacceptTurn : d.Evolves n (Room.reacceptTurn t d) := by
  have hm : d.Evolves n (d.markOperation t.intent.operation (.active t.id)) :=
    .markOperation (.refl d) nofun
  exact .settleHeld (.resolved hm)

theorem evolves_completeTurn : d.Evolves n (Room.completeTurn t d) := by
  have hm : d.Evolves n (d.markOperation t.intent.operation (.completed t.id)) :=
    .markOperation (.refl d) nofun
  rw [Room.completeTurn]
  split
  · exact .withState (.resolved hm)
  · exact .settleHeld (.resolved hm)

theorem evolves_abandonDiscussion {id : AttemptId} : d.Evolves n (Room.abandonDiscussion id d) :=
  .settlePause (.paused (.resolved (.mapArrangements (.refl d) keepsSent_abandonArrangement)))

end Discussion

/-! ## What operations on rooms do -/

namespace Room

variable {n : ℕ} {r q : Room}

namespace Evolves

theorem mapDiscussions (h : r.Evolves n q) {f : Discussion → Discussion}
    (hf : ∀ d ∈ q.discussions, d.Evolves n (f d)) : r.Evolves n (q.mapDiscussions f) :=
  h.trans ⟨prefix_rfl, rfl, .refl fun t _ => .refl t, .map hf⟩

theorem modifyDiscussion (h : r.Evolves n q) {id : DiscussionId} {f : Discussion → Discussion}
    (hf : ∀ d ∈ q.discussions, d.id = id → d.Evolves n (f d)) :
    r.Evolves n (q.modifyDiscussion id f) := by
  refine h.mapDiscussions fun d hd => ?_
  split
  · next hid => exact hf d hd hid
  · exact .refl d

theorem modifyAttempt (h : r.Evolves n q) {id : AttemptId} {f : Attempt → Attempt}
    (hf : ∀ t ∈ q.attempts, t.id = id → t.Evolves (f t)) : r.Evolves n (q.modifyAttempt id f) := by
  refine h.trans ⟨prefix_rfl, rfl, .map fun t ht => ?_, .refl fun d _ => .refl d⟩
  split
  · next hid => exact hf t ht hid
  · exact .refl t

theorem mapAttempts (h : r.Evolves n q) {f : Attempt → AttemptState}
    (hf : ∀ t ∈ q.attempts, t.state.Leads (f t)) : r.Evolves n (q.mapAttempts f) :=
  h.trans ⟨prefix_rfl, rfl, .map fun t ht => ⟨rfl, rfl, hf t ht⟩, .refl fun d _ => .refl d⟩

theorem pushMessage (h : r.Evolves n q) {message : PublicMessage} :
    r.Evolves n (q.pushMessage message) :=
  h.trans ⟨prefix_append _ _, rfl, .refl fun t _ => .refl t, .refl fun d _ => .refl d⟩

/-- The outcome of an attempt of the room. -/
theorem settle (h : r.Evolves n q) {t : Attempt} {change : Attempt → Attempt}
    {mark : Discussion → Discussion} (hn : (q.attempts.map Attempt.id).Nodup) (ht : t ∈ q.attempts)
    (hc : t.Evolves (change t)) (hm : ∀ d : Discussion, d.Evolves n (mark d)) :
    r.Evolves n (q.settle t change mark) := by
  have hmodify : r.Evolves n (q.modifyAttempt t.id change) := by
    refine h.modifyAttempt fun u hu hid => ?_
    obtain rfl := inj_on_of_nodup_map hn hu ht hid
    exact hc
  unfold Room.settle
  split
  · exact hmodify.modifyDiscussion fun d _ _ => hm d
  · exact hmodify

theorem cancelReservations (h : r.Evolves n q) {id : DiscussionId} :
    r.Evolves n (q.cancelReservations id) := by
  refine h.mapAttempts fun t _ => ?_
  split
  · next hs =>
    rw [hs.2]
    exact .inr ⟨by decide, by decide, by decide⟩
  · exact .refl _

end Evolves

theorem modifyAttempt_ids {id : AttemptId} {f : Attempt → Attempt} (h : ∀ t, (f t).id = t.id) :
    (r.modifyAttempt id f).attempts.map Attempt.id = r.attempts.map Attempt.id := by
  rw [modifyAttempt, map_map]
  refine map_congr_left fun t _ => ?_
  dsimp only [Function.comp]
  split
  · exact h t
  · rfl

/-- Changing one attempt leaves the others. -/
theorem mem_modifyAttempt {t : Attempt} {id : AttemptId} {f : Attempt → Attempt} (ht : t ∈ r.attempts)
    (hne : t.id ≠ id) : t ∈ (r.modifyAttempt id f).attempts :=
  mem_map.mpr ⟨t, ht, if_neg hne⟩

/-- **Marking several attempts as uncertain.**  What marking one of them keeps is kept. -/
theorem fails_induction {P : Room → Prop} {orphaned : List Attempt} {r' : Room}
    (h : orphaned.foldlM (fun r t => r.fail t true) r = .ok r')
    (hn : (orphaned.map Attempt.id).Nodup) (hr : (r.attempts.map Attempt.id).Nodup)
    (ho : ∀ t ∈ orphaned, t ∈ r.attempts ∧ t.state.inFlight = true) (hp : P r)
    (hstep : ∀ q t q', (q.attempts.map Attempt.id).Nodup → t ∈ q.attempts →
      t.state.inFlight = true → P q → q.fail t true = .ok q' → P q') : P r' := by
  induction orphaned generalizing r with
  | nil =>
    obtain rfl := Except.ok.inj h
    exact hp
  | cons t rest ih =>
    obtain ⟨mid, ht, hrest⟩ := bind_ok.mp h
    rw [map_cons, nodup_cons] at hn
    obtain ⟨hmem, hflight⟩ := ho t mem_cons_self
    refine ih hrest hn.2 ?_ (fun u hu => ?_) (hstep r t mid hr hmem hflight hp ht)
    · rw [fail_ok ht, settle_attempts, modifyAttempt_ids]
      · exact hr
      · exact fun _ => rfl
    · obtain ⟨hu', hf⟩ := ho u (mem_cons_of_mem _ hu)
      rw [fail_ok ht, settle_attempts]
      exact ⟨mem_modifyAttempt hu' fun he => hn.1 (he ▸ mem_map_of_mem hu), hf⟩

end Room

/-! ## Every change -/

section

variable {n : ℕ} {op : Operation} {r r' : Room}

theorem evolves_fail {t : Attempt} {uncertain : Bool} (hn : (r.attempts.map Attempt.id).Nodup)
    (ht : t ∈ r.attempts) (hf : t.state.inFlight = true) (h : r.fail t uncertain = .ok r') :
    r.Evolves n r' := by
  rw [Room.fail_ok h]
  refine .settle (.refl r) hn ht ⟨rfl, rfl, AttemptState.leads_of_inFlight hf ?_⟩ fun _ =>
    Discussion.evolves_failTurn
  dsimp only
  split <;> decide

theorem Discussion.Quiet.evolves {d d' : Discussion} (h : Discussion.Quiet op d d') :
    d.Evolves n d' := (Evolves.refl d).of_stages h.id h.participants h.stages

theorem Room.Quiet.evolves (h : Room.Quiet op r r') : r.Evolves n r' where
  messages := by rw [h.messages]
  summaries := h.summaries
  attempts := by
    rw [h.attempts]
    exact .refl fun t _ => .refl t
  discussions := Grows.of_forall₂ (h.discussions.imp fun _ _ hq => hq.evolves)

/-- Where the discussions of a quiet change come from. -/
theorem Room.Quiet.of_mem (h : Room.Quiet op r r') {d' : Discussion} (hd' : d' ∈ r'.discussions) :
    ∃ d ∈ r.discussions, Discussion.Quiet op d d' :=
  ((Grows.of_forall₂ (N := fun _ => False) h.discussions).of_mem hd').resolve_right not_false

/-- The operations that intents are for were made by now. -/
theorem Room.Asks.serial_le {intent : DispatchIntent} (h : r.Asks n intent) (hb : r.Below (n + 1)) :
    intent.operation.uuid.serial ≤ n := by
  rcases h with ⟨-, ho⟩ | ⟨d, s, a, hd, hs, ha, -, -, -, ho, -, -, -⟩
  · rw [ho]
  · rw [ho]
    have hmem : a ∈ r.arrangements :=
      Room.mem_arrangements.mpr ⟨d, hd, s, mem_of_getLast? hs, ha⟩
    have := hb.arrangements a hmem
    omega

variable [TeamText]

/-- **Every change only adds to the room.** -/
theorem Change.evolves (hv : r.Valid) (hb : r.Below (n + 1)) (h : Change n op r r') :
    r.Evolves n r' := by
  have hn := hv.attempts_nodup
  cases h with
  | quiet hq => exact hq.evolves
  | reopened =>
    refine .mapAttempts (.mapDiscussions (.refl r) fun d _ => Discussion.evolves_reopened) fun t _ => ?_
    split
    · next hrun =>
      exact AttemptState.leads_of_inFlight (AttemptState.inFlight_of_isRunning hrun) Nat.one_pos
    · exact .refl _
  | ready _ ho hon h =>
    refine Room.fails_induction h hon hn ho ?_ fun q t q' hq ht hf hp h => hp.trans (evolves_fail hq ht hf h)
    exact .mapDiscussions (.refl r) fun d _ => .resolved (.refl d)
  | @excluded _ _ next _ h =>
    have hmembers : r.Evolves n next := by
      rw [Room.excludeMember_ok h]
      exact ⟨prefix_rfl, rfl, .refl fun t _ => .refl t, .refl fun d _ => .refl d⟩
    exact hmembers.mapDiscussions fun d _ => Discussion.evolves_excluding
  | reserved _ _ _ hi h =>
    obtain ⟨rfl, -⟩ := Room.reserve_ok h
    refine ⟨prefix_rfl, rfl, .append (fun t _ => .refl t) fun t ht => ?_, .refl fun d _ => .refl d⟩
    obtain ⟨⟨intent, i⟩, hmem, rfl⟩ := mem_map.mp ht
    exact (hi intent (fst_mem_of_mem_zipIdx hmem)).1.serial_le hb
  | prepared t _ _ _ _ _ h =>
    obtain ⟨t, ht, hs, -, h⟩ := Room.prepare_ok h
    obtain ⟨hmem, rfl⟩ := TeamSession.id_of_attempt ht
    have hsent : t.Evolves { t with state := .sending } :=
      ⟨rfl, rfl, by rw [hs]; exact AttemptState.leads_of_reserved Nat.one_pos⟩
    rcases h with ⟨-, -, -, -, -, -, -, -, rfl⟩ | ⟨-, rfl⟩
    · exact .settle (.refl r) hn hmem hsent fun d => .markOperation (.refl d) nofun
    · refine .modifyAttempt (.refl r) fun u hu hid => ?_
      obtain rfl := hv.attempt_eq hu hmem hid
      exact hsent
  | finished h =>
    obtain ⟨t, ht, hs, ⟨-, rfl⟩ | rfl⟩ := Room.finish_ok h
    all_goals
      refine .settle (.refl r) hn (TeamSession.id_of_attempt ht).1
        ⟨rfl, rfl, AttemptState.leads_of_inFlight (by rw [hs]; rfl) ?_⟩ fun d => Discussion.evolves_failTurn
    · exact Nat.two_pos
    · exact Nat.one_pos
  | @accepted _ turn _ _ t ht ha h =>
    have hmem := (Room.eventAttempt_some ht).1
    have hflight := Attempt.inFlight_of_accepts ha
    have hsent : t.Evolves { t with providerTurn := some turn, state := .accepted } :=
      ⟨rfl, rfl, AttemptState.leads_of_inFlight hflight Nat.one_pos⟩
    rcases Room.accept_ok h with ⟨-, rfl⟩ | ⟨-, rfl⟩
    · exact .settle (.refl r) hn hmem hsent fun d => Discussion.evolves_reacceptTurn
    · refine .modifyAttempt (.refl r) fun u hu hid => ?_
      obtain rfl := hv.attempt_eq hu hmem hid
      exact hsent
  | completed t _ ht hc h =>
    obtain ⟨m, -, -, rfl⟩ := Room.complete_ok h
    have hs := Attempt.accepted_of_completes hc
    exact .settle (.pushMessage (.refl r)) hn (Room.eventAttempt_some ht).1
      ⟨rfl, rfl, AttemptState.leads_of_inFlight (by rw [hs]; rfl) Nat.two_pos⟩
      fun d => Discussion.evolves_completeTurn
  | failed _ ht hf h => exact evolves_fail hn (Room.eventAttempt_some ht).1 hf h
  | abandoned hx h =>
    obtain ⟨t, ht, rfl, hf⟩ := hx
    rw [Room.abandon_ok h]
    refine .mapDiscussions (.modifyAttempt (.refl r) fun u hu hid => ?_) fun d _ =>
      Discussion.evolves_abandonDiscussion
    obtain rfl := hv.attempt_eq hu ht hid
    exact ⟨rfl, rfl, AttemptState.leads_of_inFlight hf Nat.two_pos⟩
  | started d _ h =>
    obtain ⟨-, -, rfl, hd⟩ := Room.createDiscussion_ok h
    refine .modifyDiscussion (.pushMessage ?_) fun d _ _ => .of_stages (.refl d) rfl rfl rfl
    refine ⟨prefix_rfl, rfl, .refl fun t _ => .refl t, .append (fun d _ => .refl d) fun e he => ?_⟩
    rw [mem_singleton.mp he, hd]
    simp
  | userInput =>
    exact .mapDiscussions (.pushMessage (.refl r)) fun d _ => .paused (.refl d)
  | stageOpened d =>
    exact .modifyDiscussion (.refl r) fun d _ _ => .pushStage (.refl d) Discussion.madeBy_pending
  | continued d =>
    exact .modifyDiscussion (.cancelReservations (.refl r)) fun d _ _ => Discussion.evolves_continued
  | modeChanged _ _ _ hd h =>
    obtain ⟨hmem, rfl⟩ := TeamSession.id_of_discussion hd
    refine .modifyDiscussion (.cancelReservations (.refl r)) fun e he hid => ?_
    obtain rfl := hv.discussion_eq he hmem hid
    exact Discussion.evolves_modeChanged h
  | finishing d =>
    exact .modifyDiscussion (.cancelReservations (.refl r)) fun d _ _ => Discussion.evolves_finishing
  | decided _ _ _ _ _ hd hs hn' =>
    obtain ⟨hmem, -⟩ := TeamSession.id_of_discussion hd
    refine .modifyDiscussion (.refl r) fun e he hid => .modifyLastStage (.refl e) fun s' hs' => ?_
    obtain rfl := hv.discussion_eq he hmem hid
    obtain rfl := Option.some.inj (hs'.symm.trans hs)
    exact ⟨rfl, rfl, .refl fun a _ => .refl a, prefix_rfl, fun hsome => by simp [hn'] at hsome⟩

end

end NiumaTerm.Team
