import NiumaTerm.Team.Outcomes

/-!
# Changes that the store always accepts

A change that moves attempts only between states without an outcome of their own, and discussions only
between states that are not final, keeps the shape of the room (`Room.SameShape`).
-/

namespace NiumaTerm.Team

open Checks List

structure Arrangement.SameShape (a a' : Arrangement) : Prop where
  operation : a'.operation = a.operation
  recipient : a'.recipient = a.recipient

structure Stage.SameShape (s s' : Stage) : Prop where
  id : s'.id = s.id
  segments : s'.segments = s.segments
  arrangements : Forall₂ Arrangement.SameShape s.arrangements s'.arrangements

structure Discussion.SameShape (d d' : Discussion) : Prop where
  id : d'.id = d.id
  participants : d'.participants = d.participants
  mode : d'.mode = d.mode
  budget : d'.budget = d.budget
  stages : Forall₂ Stage.SameShape d.stages d'.stages
  /-- A completed discussion stays completed. -/
  completed : d'.state = .completed ↔ d.state = .completed

structure Attempt.SameShape (t t' : Attempt) : Prop where
  id : t'.id = t.id
  intent : t'.intent = t.intent
  providerTurn : t'.providerTurn = t.providerTurn
  rejected : t'.state = .rejected ↔ t.state = .rejected
  accepted : t'.state = .accepted → t.state = .accepted
  completed : ∀ m, t'.state = .completed m → t.state = .completed m

structure Room.SameShape (r r' : Room) : Prop where
  id : r'.id = r.id
  workspace : r'.workspace = r.workspace
  members : r'.members = r.members
  messages : r'.messages = r.messages
  summaries : r'.summaries = r.summaries
  discussions : Forall₂ Discussion.SameShape r.discussions r'.discussions
  attempts : Forall₂ Attempt.SameShape r.attempts r'.attempts

section

variable {r r' : Room}

theorem map_eq_of_forall₂ {α β : Type} {R : α → α → Prop} {f : α → β} {xs ys : List α}
    (h : Forall₂ R xs ys) (hf : ∀ x y, R x y → f y = f x) : ys.map f = xs.map f := by
  induction h with
  | nil => rfl
  | cons hr _ ih => rw [map_cons, map_cons, hf _ _ hr, ih]

theorem any_eq_of_forall₂ {α : Type} {R : α → α → Prop} {p : α → Bool} {xs ys : List α}
    (h : Forall₂ R xs ys) (hp : ∀ x y, R x y → p y = p x) : ys.any p = xs.any p := by
  induction h with
  | nil => rfl
  | cons hr _ ih => rw [any_cons, any_cons, hp _ _ hr, ih]

theorem all_eq_of_forall₂ {α : Type} {R : α → α → Prop} {p : α → Bool} {xs ys : List α}
    (h : Forall₂ R xs ys) (hp : ∀ x y, R x y → p y = p x) : ys.all p = xs.all p := by
  induction h with
  | nil => rfl
  | cons hr _ ih => rw [all_cons, all_cons, hp _ _ hr, ih]

theorem find?_of_nodup {α β : Type} [DecidableEq β] {key : α → β} {xs : List α}
    (hn : (xs.map key).Nodup) {x : α} (hx : x ∈ xs) : xs.find? (fun y => key y = key x) = some x := by
  induction xs with
  | nil => simp at hx
  | cons y ys ih =>
    rw [map_cons, nodup_cons] at hn
    rcases mem_cons.mp hx with rfl | hx
    · simp
    · have hne : key y ≠ key x := fun he => hn.1 (he ▸ mem_map_of_mem hx)
      rw [find?_cons_of_neg (by simpa using hne), ih hn.2 hx]

namespace Room.SameShape

variable (h : r.SameShape r')

include h

theorem hasMember (id : MemberId) : r'.hasMember id = r.hasMember id := by
  rw [Room.hasMember, Room.hasMember, h.members]

theorem hasMessage (id : MessageId) : r'.hasMessage id = r.hasMessage id := by
  rw [Room.hasMessage, Room.hasMessage, h.messages]

theorem hasSummary (id : SummaryId) : r'.hasSummary id = r.hasSummary id := by
  rw [Room.hasSummary, Room.hasSummary, h.summaries]

theorem hasDiscussion (id : DiscussionId) : r'.hasDiscussion id = r.hasDiscussion id :=
  any_eq_of_forall₂ h.discussions fun _ _ hd => by rw [hd.id]

/-- The attempts charged to a budget are as many, and for the same purposes. -/
theorem budgetAttempts (scope : BudgetScope) :
    Forall₂ Attempt.SameShape (r.budgetAttempts scope) (r'.budgetAttempts scope) := by
  refine rel_filter (fun t t' ht => ?_) h.attempts
  simp only [Bool.and_eq_true, decide_eq_true_eq, bne_iff_ne, ne_eq, ht.intent, ht.rejected]

theorem validate_budget (b : Budget) (scope : BudgetScope) :
    b.validate (r'.budgetAttempts scope) = b.validate (r.budgetAttempts scope) := by
  have hb := h.budgetAttempts scope
  rw [Budget.validate, Budget.validate, hb.length_eq,
    any_eq_of_forall₂ hb fun _ _ ht => by rw [ht.intent]]

theorem checkStage {seen seen' : List Stage} {s s' : Stage}
    (hs : Forall₂ Stage.SameShape seen seen') (hss : s.SameShape s')
    (hc : r.checkStage seen s = .ok ()) : r'.checkStage seen' s' = .ok () := by
  simp only [Room.checkStage, bind_ok, failIf_ok] at hc ⊢
  obtain ⟨_, hid, _, harr, hseg⟩ := hc
  refine ⟨(), ?_, (), ?_, ?_⟩
  · rwa [hss.id, map_eq_of_forall₂ hs fun _ _ ht => ht.id]
  · have hearlier : (seen'.flatMap Stage.arrangements).map Arrangement.operation =
        (seen.flatMap Stage.arrangements).map Arrangement.operation :=
      map_eq_of_forall₂ (rel_flatMap hs fun _ _ ht => ht.arrangements) fun _ _ ha => ha.operation
    refine checkEach_imp (fun before before' a a' hb ha hca => ?_) .nil hss.arrangements harr
    rw [Room.checkArrangement, failIf_ok] at hca ⊢
    rw [ha.recipient, ha.operation, h.hasMember, map_eq_of_forall₂ hb fun _ _ ht => ht.recipient,
      map_append, hearlier, map_eq_of_forall₂ hb fun _ _ ht => ht.operation, ← map_append]
    exact hca
  · simpa only [hss.segments, h.hasMessage, h.hasSummary] using hseg

theorem checkDiscussion {seen seen' : List Discussion} {d d' : Discussion}
    (hs : Forall₂ Discussion.SameShape seen seen') (hd : d.SameShape d')
    (hc : r.checkDiscussion seen d = .ok ()) : r'.checkDiscussion seen' d' = .ok () := by
  simp only [Room.checkDiscussion, bind_ok, failIf_ok] at hc ⊢
  obtain ⟨_, hid, _, hparticipants, _, hbudget, hstages⟩ := hc
  refine ⟨(), ?_, (), ?_, (), ?_, ?_⟩
  · rwa [hd.id, map_eq_of_forall₂ hs fun _ _ ht => ht.id]
  · simpa only [hd.participants, hd.mode, h.hasMember] using hparticipants
  · rwa [hd.budget, hd.id, h.validate_budget]
  · exact checkEach_imp (fun _ _ _ _ => h.checkStage) (rel_flatMap hs fun _ _ ht => ht.stages)
      hd.stages hstages

theorem activeDiscussions : r'.activeDiscussions.length = r.activeDiscussions.length := by
  refine (Forall₂.length_eq (rel_filter (fun d d' hd => ?_) h.discussions)).symm
  simp only [bne_iff_ne, ne_eq, hd.completed]

theorem checkAttempt {seen seen' : List Attempt} {t t' : Attempt}
    (hs : Forall₂ Attempt.SameShape seen seen') (ht : t.SameShape t')
    (hc : r.checkAttempt seen t = .ok ()) : r'.checkAttempt seen' t' = .ok () := by
  simp only [Room.checkAttempt, bind_ok, failIf_ok] at hc ⊢
  obtain ⟨_, hid, _, hcontext, _, hturn, _, haccepted, _, hreply, _, hdiscussion, hdirect⟩ := hc
  refine ⟨(), ?_, (), ?_, (), ?_, (), ?_, (), ?_, (), ?_, ?_⟩
  · rwa [ht.id, map_eq_of_forall₂ hs fun _ _ ht => ht.id, ht.intent, h.hasMember]
  · simpa only [Room.badContext, ht.intent, h.hasMessage, h.hasSummary] using hcontext
  · simp only [Room.reusedTurn, ht.providerTurn, ht.intent] at hturn ⊢
    split
    · next turn he =>
      rw [he] at hturn
      rwa [any_eq_of_forall₂ hs fun _ _ hu => by rw [hu.intent, hu.providerTurn]]
    · simp
  · intro ha
    simp only [Bool.and_eq_true, decide_eq_true_eq] at ha haccepted
    exact haccepted ⟨ht.accepted ha.1, by rw [← ht.providerTurn]; exact ha.2⟩
  · unfold Room.missingReply at hreply ⊢
    split
    · next m he =>
      rw [ht.completed m he] at hreply
      rwa [ht.intent, h.messages]
    · simp
  · unfold Room.missingDiscussion at hdiscussion ⊢
    simpa only [ht.intent, h.hasDiscussion] using hdiscussion
  · unfold Room.exceedsDirect at hdirect ⊢
    rw [ht.intent]
    split
    · simp
    · next o ho =>
      rw [ho] at hdirect ⊢
      rwa [h.validate_budget, all_eq_of_forall₂ hs fun _ _ hu => by rw [hu.intent]]

/-- **The store accepts a room of the same shape.** -/
theorem validate [TeamText] (hv : r.validate = .ok ()) : r'.validate = .ok () := by
  simp only [Room.validate, bind_ok, failIf_ok] at hv ⊢
  obtain ⟨_, hmembers, _, hmessages, _, hsummaries, _, hdiscussions, _, hactive, hattempts⟩ := hv
  refine ⟨(), ?_, (), ?_, (), ?_, (), ?_, (), ?_, ?_⟩
  · rwa [h.members]
  · rw [h.messages]
    refine checkEach_imp (R := (· = ·)) (fun seen seen' x y hs hxy hc => ?_)
      (by simp) (forall₂_same.mpr fun _ _ => rfl) hmessages
    rw [forall₂_eq_eq_eq] at hs
    subst hs hxy
    have hauthor : r'.missingAuthor x = r.missingAuthor x := by
      unfold Room.missingAuthor
      split
      · rw [h.hasMember]
      · rfl
    simpa only [Room.checkMessage, hauthor] using hc
  · rw [h.summaries]
    refine checkEach_imp (R := (· = ·)) (fun seen seen' x y hs hxy hc => ?_)
      (by simp) (forall₂_same.mpr fun _ _ => rfl) hsummaries
    rw [forall₂_eq_eq_eq] at hs
    subst hs hxy
    have hbad : r'.badFragment x = r.badFragment x := by
      funext part
      rw [Room.badFragment, Room.badFragment, h.messages]
    simpa only [Room.checkSummary, hbad, h.hasMember, h.hasMessage] using hc
  · exact checkEach_imp (fun _ _ _ _ => h.checkDiscussion) .nil h.discussions hdiscussions
  · rwa [h.activeDiscussions]
  · exact checkEach_imp (fun _ _ _ _ => h.checkAttempt) .nil h.attempts hattempts

theorem attempt_some {id : AttemptId} {t : Attempt} (ht : r.attempt id = some t) :
    ∃ t', r'.attempt id = some t' ∧ t.SameShape t' := by
  have ha := h.attempts
  rw [Room.attempt] at ht ⊢
  clear h
  generalize r.attempts = ts, r'.attempts = ts' at ha ht
  induction ha with
  | nil => simp at ht
  | @cons u u' us us' hu _ ih =>
    rw [find?_cons] at ht ⊢
    rw [hu.id]
    split at ht
    · obtain rfl := Option.some.inj ht
      exact ⟨u', rfl, hu⟩
    · exact ih ht

/-- **The store accepts a change to a room of the same shape.** -/
theorem validateUpdate (hv : r.Valid) : r.validateUpdate r' = .ok () := by
  have hattempt : ∀ t ∈ r.attempts, ∃ t', r'.attempt t.id = some t' ∧ t.SameShape t' := fun t ht =>
    h.attempt_some (find?_of_nodup hv.attempts_nodup ht)
  have hmember : ∀ m ∈ r.members, r'.member m.id = some m := fun m hm => by
    rw [Room.member, h.members]
    exact find?_of_nodup hv.members_nodup hm
  simp only [Room.validateUpdate, bind_ok, failIf_ok]
  refine ⟨(), ?_, (), ?_, (), ?_, ?_⟩
  · simp [h.id, h.workspace]
  · simp only [h.messages, h.summaries, isPrefixOf_iff_prefix.mpr prefix_rfl, Bool.or_eq_true,
      any_eq_true, not_or, not_exists, not_and]
    refine ⟨⟨⟨by simp, fun m hm => ?_⟩, fun d hd => ?_⟩, fun t ht => ?_⟩
    · simp [hmember m hm]
    · have hmem : r.hasDiscussion d.id = true := any_eq_true.mpr ⟨d, hd, by simp⟩
      simp [h.hasDiscussion, hmem]
    · obtain ⟨t', ht', -⟩ := hattempt t ht
      simp [ht']
  · refine checkEach_ok.mpr fun before m after he => ?_
    simp [hmember m (he ▸ mem_append_right _ mem_cons_self), bind_ok]
  · refine checkEach_ok.mpr fun before t after he => ?_
    obtain ⟨t', ht', hs⟩ := hattempt t (he ▸ mem_append_right _ mem_cons_self)
    simp [bind_ok, ht', hs.intent, hs.providerTurn]

end Room.SameShape

/-! ## Changes that keep the shape -/

namespace Arrangement.SameShape

theorem refl (a : Arrangement) : a.SameShape a := ⟨rfl, rfl⟩

theorem trans {a a' a'' : Arrangement} (h : a.SameShape a') (h' : a'.SameShape a'') :
    a.SameShape a'' :=
  ⟨h'.operation.trans h.operation, h'.recipient.trans h.recipient⟩

end Arrangement.SameShape

theorem forall₂_trans {α : Type} {R : α → α → Prop} (htrans : ∀ x y z, R x y → R y z → R x z)
    {xs ys zs : List α} (h : Forall₂ R xs ys) (h' : Forall₂ R ys zs) :
    Forall₂ R xs zs := by
  induction h generalizing zs with
  | nil => exact h'
  | cons hr _ ih =>
    rcases h' with _ | ⟨hr', hs'⟩
    exact .cons (htrans _ _ _ hr hr') (ih hs')

namespace Stage.SameShape

theorem refl (s : Stage) : s.SameShape s := ⟨rfl, rfl, forall₂_same.mpr fun a _ => .refl a⟩

theorem trans {s s' s'' : Stage} (h : s.SameShape s') (h' : s'.SameShape s'') : s.SameShape s'' :=
  ⟨h'.id.trans h.id, h'.segments.trans h.segments,
    forall₂_trans (fun _ _ _ ha ha' => ha.trans ha') h.arrangements h'.arrangements⟩

end Stage.SameShape

namespace Discussion.SameShape

variable {d e e' : Discussion}

theorem refl (d : Discussion) : d.SameShape d :=
  ⟨rfl, rfl, rfl, rfl, forall₂_same.mpr fun s _ => .refl s, .rfl⟩

theorem trans (h : d.SameShape e) (h' : e.SameShape e') : d.SameShape e' :=
  ⟨h'.id.trans h.id, h'.participants.trans h.participants, h'.mode.trans h.mode,
    h'.budget.trans h.budget, forall₂_trans (fun _ _ _ hs hs' => hs.trans hs') h.stages h'.stages,
    h'.completed.trans h.completed⟩

theorem paused (h : d.SameShape e) {reason : PauseReason} : d.SameShape (e.paused reason) := by
  rcases eq_or_ne e.state .completed with hc | hc
  · rwa [Discussion.paused_of_completed _ hc]
  · rw [Discussion.paused_of_not_completed _ hc]
    exact ⟨h.id, h.participants, h.mode, h.budget, h.stages,
      iff_of_false (Discussion.settlePause_ne_completed _) (mt h.completed.mpr hc)⟩

theorem resolved (h : d.SameShape e) {reason : PauseReason} : d.SameShape (e.resolved reason) :=
  ⟨h.id, h.participants, h.mode, h.budget, h.stages, h.completed⟩

theorem settlePause (h : d.SameShape e) (hc : d.state ≠ .completed) : d.SameShape e.settlePause :=
  ⟨h.id, h.participants, h.mode, h.budget, h.stages,
    iff_of_false (Discussion.settlePause_ne_completed _) hc⟩

theorem mapArrangements (h : d.SameShape e) {f : Arrangement → ArrangementState} :
    d.SameShape (e.mapArrangements f) := by
  refine h.trans ⟨rfl, rfl, rfl, rfl, ?_, .rfl⟩
  refine forall₂_map_right_iff.mpr (forall₂_same.mpr fun s _ => ⟨rfl, rfl, ?_⟩)
  exact forall₂_map_right_iff.mpr (forall₂_same.mpr fun a _ => ⟨rfl, rfl⟩)

theorem failTurn (h : d.SameShape e) {t : Attempt} {uncertain : Bool} :
    d.SameShape (Room.failTurn t uncertain e) := by
  rw [Room.failTurn]
  split
  · exact h.mapArrangements.paused
  · exact h.mapArrangements.paused

theorem abandonDiscussion (h : d.SameShape e) (hc : d.state ≠ .completed) {id : AttemptId} :
    d.SameShape (Room.abandonDiscussion id e) := h.mapArrangements.resolved.paused.settlePause hc

end Discussion.SameShape

namespace Attempt.SameShape

variable {t t' t'' : Attempt}

theorem refl (t : Attempt) : t.SameShape t := ⟨rfl, rfl, rfl, .rfl, fun h => h, fun _ h => h⟩

theorem trans (h : t.SameShape t') (h' : t'.SameShape t'') : t.SameShape t'' :=
  ⟨h'.id.trans h.id, h'.intent.trans h.intent, h'.providerTurn.trans h.providerTurn,
    h'.rejected.trans h.rejected, h.accepted ∘ h'.accepted,
    fun m => h.completed m ∘ h'.completed m⟩

/-- A sent attempt whose outcome is not known, or not tracked. -/
theorem of_inFlight {state : AttemptState} (h : t.state.inFlight = true)
    (hs : state = .uncertain ∨ state = .abandoned) : t.SameShape { t with state } := by
  refine ⟨rfl, rfl, rfl, iff_of_false ?_ fun he => ?_, fun he => ?_, fun m he => ?_⟩
  · rcases hs with rfl | rfl <;> exact nofun
  · simp [he, AttemptState.inFlight] at h
  · rcases hs with rfl | rfl <;> cases he
  · rcases hs with rfl | rfl <;> cases he

end Attempt.SameShape

namespace Room.SameShape

variable {q : Room}

theorem refl (r : Room) : r.SameShape r :=
  ⟨rfl, rfl, rfl, rfl, rfl, forall₂_same.mpr fun d _ => .refl d,
    forall₂_same.mpr fun t _ => .refl t⟩

theorem trans {r'' : Room} (h : r.SameShape r') (h' : r'.SameShape r'') : r.SameShape r'' :=
  ⟨h'.id.trans h.id, h'.workspace.trans h.workspace, h'.members.trans h.members,
    h'.messages.trans h.messages, h'.summaries.trans h.summaries,
    forall₂_trans (fun _ _ _ hd hd' => hd.trans hd') h.discussions h'.discussions,
    forall₂_trans (fun _ _ _ ht ht' => ht.trans ht') h.attempts h'.attempts⟩

theorem mapDiscussions (h : r.SameShape q) {f : Discussion → Discussion}
    (hf : ∀ d ∈ q.discussions, d.SameShape (f d)) : r.SameShape (q.mapDiscussions f) :=
  h.trans ⟨rfl, rfl, rfl, rfl, rfl, forall₂_map_right_iff.mpr (forall₂_same.mpr hf),
    forall₂_same.mpr fun t _ => .refl t⟩

theorem modifyAttempt (h : r.SameShape q) {id : AttemptId} {f : Attempt → Attempt}
    (hf : ∀ t ∈ q.attempts, t.id = id → t.SameShape (f t)) : r.SameShape (q.modifyAttempt id f) := by
  refine h.trans ⟨rfl, rfl, rfl, rfl, rfl, forall₂_same.mpr fun d _ => .refl d, ?_⟩
  refine forall₂_map_right_iff.mpr (forall₂_same.mpr fun t ht => ?_)
  split
  · next hid => exact hf t ht hid
  · exact .refl t

/-- The outcome of a sent attempt is uncertain. -/
theorem fail (h : r.SameShape q) {t : Attempt} {q' : Room} (hn : (q.attempts.map Attempt.id).Nodup)
    (ht : t ∈ q.attempts) (hf : t.state.inFlight = true) (hfail : q.fail t true = .ok q') :
    r.SameShape q' := by
  have hmodify : r.SameShape (q.modifyAttempt t.id fun t => { t with state := .uncertain }) := by
    refine h.modifyAttempt fun u hu hid => ?_
    obtain rfl := inj_on_of_nodup_map hn hu ht hid
    exact .of_inFlight hf (.inl rfl)
  rw [Room.fail_ok hfail, if_pos rfl]
  unfold Room.settle
  split
  · refine hmodify.mapDiscussions fun d _ => ?_
    split
    · exact .failTurn (.refl d)
    · exact .refl d
  · exact hmodify

end Room.SameShape

end

end NiumaTerm.Team
