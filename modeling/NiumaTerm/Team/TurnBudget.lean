import NiumaTerm.Team.Moves
import NiumaTerm.Team.Progress
import NiumaTerm.Team.Runs

/-!
# Turn budgets

A turn is charged when it is reserved, and given back when it is cancelled before it is sent or the member
refuses it.  Three functions count the charged turns; `turnsNeeded` is the count that they agree on: the
turns that are charged, and one more until a report is among them.
-/

namespace NiumaTerm.Team

open Rust Checks Growth Transition List

/-! ## Counting turns -/

/-- The turns that a discussion needs: those that are charged, and the report. -/
def turnsNeeded (purposes : List TurnPurpose) : ℕ :=
  purposes.length + if .report ∈ purposes then 0 else 1

def Room.purposes (r : Room) (id : DiscussionId) : List TurnPurpose :=
  (r.budgetAttempts (.discussion id)).map fun t => t.intent.purpose

/-- Giving turns back needs no more turns. -/
theorem turnsNeeded_sublist {ps qs : List TurnPurpose} (h : ps.Sublist qs) :
    turnsNeeded ps ≤ turnsNeeded qs := by
  rcases h.length_le.lt_or_eq with hlt | heq
  · unfold turnsNeeded
    split <;> omega
  · rw [h.eq_of_length heq]

namespace Budget

variable {b : Budget} {attempts : List Attempt}

theorem any_report : (attempts.any fun t => t.intent.purpose = .report) = true ↔
    .report ∈ attempts.map fun t => t.intent.purpose := by
  simp

/-- What the store checks. -/
theorem validate_iff (hb : b.reportReserved = true) : b.validate attempts = true ↔
    turnsNeeded (attempts.map fun t => t.intent.purpose) ≤ b.limit := by
  rw [validate, turnsNeeded, hb, decide_eq_true_eq, length_map]
  by_cases h : TurnPurpose.report ∈ attempts.map fun t => t.intent.purpose
  · rw [any_report.mpr h, if_pos h]
    rfl
  · rw [Bool.eq_false_iff.mpr fun hr => h (any_report.mp hr), if_neg h]
    rfl

/-- What a reservation checks is enough for the store. -/
theorem needed_of_checkBatch {purpose : TurnPurpose} (hb : b.reportReserved = true)
    (h : b.checkBatch attempts [purpose] = .ok ()) :
    turnsNeeded ((attempts.map fun t => t.intent.purpose) ++ [purpose]) ≤ b.limit := by
  rw [checkBatch, hb] at h
  split at h
  · cases h
  next hle =>
  rw [turnsNeeded, length_append, length_map]
  by_cases hr : TurnPurpose.report ∈ (attempts.map fun t => t.intent.purpose) ++ [purpose]
  · rw [if_pos hr]
    simp only [length_singleton] at hle ⊢
    omega
  · rw [if_neg hr]
    have hnone : ((attempts.any fun t => t.intent.purpose = .report && t.state = .reserved) ||
        [purpose].any fun purpose => purpose = .report) = false := by
      rw [Bool.or_eq_false_iff, any_eq_false, any_eq_false]
      refine ⟨fun t ht hp => hr ?_, fun p hp he => hr ?_⟩
      · simp only [Bool.and_eq_true, decide_eq_true_eq] at hp
        exact mem_append_left _ (hp.1 ▸ mem_map_of_mem ht)
      · rw [decide_eq_true_eq] at he
        exact mem_append_right _ (he ▸ hp)
    rw [hnone] at hle
    simp only [Bool.true_and, Bool.not_false, Bool.toNat_true, length_singleton] at hle ⊢
    omega

/-- **The report can always be reserved** while no other report is charged. -/
theorem checkBatch_report (h : turnsNeeded (attempts.map fun t => t.intent.purpose) ≤ b.limit)
    (hr : .report ∉ attempts.map fun t => t.intent.purpose) :
    b.checkBatch attempts [.report] = .ok () := by
  rw [turnsNeeded, if_neg hr, length_map] at h
  rw [checkBatch, if_neg]
  simp only [any_cons, decide_true, Bool.true_or, Bool.or_true, Bool.not_true, Bool.and_false,
    Bool.toNat_false, length_singleton]
  omega

end Budget

/-- Moves charge nothing. -/
theorem purposes_sublist {op : Operation} {ts ts' : List Attempt} {scope : BudgetScope}
    (h : Grows (Attempt.Moves op) (fun _ => False) ts ts') :
    ((ts'.filter fun t => t.intent.budget = scope && t.state != .rejected).map
      fun t => t.intent.purpose).Sublist
    ((ts.filter fun t => t.intent.budget = scope && t.state != .rejected).map
      fun t => t.intent.purpose) := by
  induction h with
  | @nil ys hn =>
    rcases ys with _ | ⟨y, ys⟩
    · exact .slnil
    · exact (hn y mem_cons_self).elim
  | @cons t t' ts ts' hm _ ih =>
    rw [filter_cons, filter_cons]
    split
    · next hc' =>
      have hc : (t.intent.budget = scope && t.state != .rejected) = true := by
        simp only [Bool.and_eq_true, decide_eq_true_eq, bne_iff_ne] at hc' ⊢
        rw [hm.intent] at hc'
        exact ⟨hc'.1, fun hs => hc'.2 (hm.stays_rejected hs)⟩
      rw [if_pos hc, map_cons, map_cons, hm.intent]
      exact ih.cons_cons _
    · split
      · exact ih.cons _
      · exact ih

/-! ## The budgets of a room -/

/-- A discussion whose limit did not shrink. -/
structure Discussion.KeepsBudget (d d' : Discussion) : Prop where
  id : d'.id = d.id
  reserved : d'.budget.reportReserved = d.budget.reportReserved
  limit : d.budget.limit ≤ d'.budget.limit

/-- Each discussion was in the room with its budget. -/
def Room.KeepsBudgets (r r' : Room) : Prop := ∀ d' ∈ r'.discussions, ∃ d ∈ r.discussions, d.KeepsBudget d'

/-- Every discussion has a turn for its report, and the turns that it needs. -/
def Room.Solvent (r : Room) : Prop := ∀ d ∈ r.discussions,
  d.budget.reportReserved = true ∧ turnsNeeded (r.purposes d.id) ≤ d.budget.limit

theorem Discussion.Calm.keepsBudget {op : Operation} {d d' : Discussion} (h : d.Calm op d') :
    d.KeepsBudget d' := ⟨h.id, h.reserved, h.limit⟩

theorem Discussion.KeepsBudget.of_budget {d d' : Discussion} (hid : d'.id = d.id)
    (hb : d'.budget = d.budget) : d.KeepsBudget d' := ⟨hid, by rw [hb], by rw [hb]⟩

namespace Room.KeepsBudgets

variable {r q r' : Room}

theorem refl (r : Room) : r.KeepsBudgets r := fun d hd => ⟨d, hd, .of_budget rfl rfl⟩

theorem trans (h : r.KeepsBudgets q) (h' : q.KeepsBudgets r') : r.KeepsBudgets r' := by
  intro d' hd'
  obtain ⟨e, he, hk'⟩ := h' d' hd'
  obtain ⟨d, hd, hk⟩ := h e he
  exact ⟨d, hd, hk'.id.trans hk.id, hk'.reserved.trans hk.reserved, hk.limit.trans hk'.limit⟩

theorem mapDiscussions {f : Discussion → Discussion} (hf : ∀ d ∈ r.discussions, d.KeepsBudget (f d)) :
    r.KeepsBudgets (r.mapDiscussions f) := by
  intro d' hd'
  obtain ⟨d, hd, rfl⟩ := mem_map.mp hd'
  exact ⟨d, hd, hf d hd⟩

theorem modifyDiscussion {id : DiscussionId} {f : Discussion → Discussion}
    (hf : ∀ d ∈ r.discussions, d.id = id → d.KeepsBudget (f d)) : r.KeepsBudgets (r.modifyDiscussion id f) := by
  refine mapDiscussions fun d hd => ?_
  split
  · next hid => exact hf d hd hid
  · exact .of_budget rfl rfl

theorem settle {t : Attempt} {change : Attempt → Attempt} {mark : Discussion → Discussion}
    (hm : ∀ d : Discussion, d.KeepsBudget (mark d)) : r.KeepsBudgets (r.settle t change mark) := by
  intro d' hd'
  obtain ⟨d, hd, rfl | rfl⟩ := Progress.exists_of_settle hd'
  · exact ⟨_, hd, .of_budget rfl rfl⟩
  · exact ⟨d, hd, hm d⟩

end Room.KeepsBudgets

section

variable [TeamText] {n : ℕ} {op : Operation} {r r' : Room}

/-- **No change shrinks a budget**, and a discussion that starts has a whole one. -/
theorem Change.keepsBudgets (hv : r.Valid) (h : Change n op r r') : r.KeepsBudgets r' ∨
    r'.attempts = r.attempts ∧ ∃ before d, r'.discussions = before ++ [d] ∧
      d.budget = .ofDiscussion ∧ (∀ e ∈ before, ∃ e' ∈ r.discussions, e'.KeepsBudget e) ∧
      ∀ e' ∈ r.discussions, ∃ e ∈ before, e.id = e'.id := by
  have hn := hv.attempts_nodup
  refine or_iff_not_imp_right.mpr fun hnew => ?_
  cases h with
  | @started input _ _ _ _ _ _ h =>
    obtain ⟨hall, hnodup, rfl, hdnew⟩ := Room.createDiscussion_ok h
    subst hdnew
    let g (e : Discussion) : Discussion := if e.id = ⟨n, 0⟩ then { e with state := .running, request := input } else e
    have hg (e : Discussion) : e.KeepsBudget (g e) := by
      dsimp only [g]
      split <;> exact .of_budget rfl rfl
    refine absurd ⟨rfl, r.discussions.map g, _, map_append, ?_, fun e he => ?_, fun e' he' => ?_⟩ hnew
    · dsimp only
      split <;> rfl
    · obtain ⟨e', he', rfl⟩ := mem_map.mp he
      exact ⟨e', he', hg e'⟩
    · exact ⟨g e', mem_map_of_mem he', (hg e').id⟩
  | quiet hq =>
    intro d' hd'
    obtain ⟨d, hd, hdd⟩ := hq.of_mem hd'
    exact ⟨d, hd, hdd.id, hdd.reserved, hdd.limit⟩
  | reopened =>
    have hd (d : Discussion) : d.Calm .close d.reopened := .reopened
    exact .mapDiscussions fun d _ => (hd d).keepsBudget
  | ready _ ho hon h =>
    have hd (m : MemberId) (d : Discussion) : d.Calm .close (d.resolved (.memberUnavailable m)) :=
      (Discussion.Calm.refl _ d).resolved
    refine Room.fails_induction h hon hn ho (.mapDiscussions fun d _ => (hd _ d).keepsBudget)
      fun q t q' _ _ _ hp h => ?_
    rw [Room.fail_ok h]
    exact hp.trans (.settle fun d => ((Discussion.Calm.refl .close d).failTurn).keepsBudget)
  | @excluded m _ _ _ h =>
    rw [Room.excludeMember_ok h]
    have hd (d : Discussion) : d.Calm (.excludeMember m) (d.excluding m) := .excluding
    exact .mapDiscussions fun d _ => (hd d).keepsBudget
  | reserved _ _ _ _ h =>
    obtain ⟨rfl, -⟩ := Room.reserve_ok h
    exact .refl r
  | prepared t _ _ _ _ _ h =>
    obtain ⟨t, -, -, -, h⟩ := Room.prepare_ok h
    rcases h with ⟨-, -, -, -, -, -, -, -, rfl⟩ | ⟨-, rfl⟩
    · exact .settle fun d => .of_budget rfl rfl
    · exact .refl r
  | finished h =>
    obtain ⟨t, -, -, h'⟩ := Room.finish_ok h
    clear h
    rcases h' with ⟨-, rfl⟩ | rfl
    all_goals exact .settle fun d => ((Discussion.Calm.refl .close d).failTurn).keepsBudget
  | accepted t _ _ h =>
    rcases Room.accept_ok h with ⟨-, rfl⟩ | ⟨-, rfl⟩
    · have hd (d : Discussion) : d.Calm .close (Room.reacceptTurn t d) := .reacceptTurn
      exact .settle fun d => (hd d).keepsBudget
    · exact .refl r
  | completed t _ _ _ h =>
    obtain ⟨m, -, rfl, rfl⟩ := Room.complete_ok h
    have hd (d : Discussion) : d.Calm .close (Room.completeTurn t d) := .completeTurn
    exact Room.KeepsBudgets.settle (r := r.pushMessage _) fun d => (hd d).keepsBudget
  | failed _ _ _ h =>
    rw [Room.fail_ok h]
    exact .settle fun d => ((Discussion.Calm.refl .close d).failTurn).keepsBudget
  | abandoned hx h =>
    obtain ⟨t, ht, rfl, hf⟩ := hx
    rw [Room.abandon_ok h]
    have hd (d : Discussion) : d.Calm .close (Room.abandonDiscussion t.id d) := .abandonDiscussion
    exact .mapDiscussions fun d _ => (hd d).keepsBudget
  | userInput =>
    exact .mapDiscussions fun d _ => .of_budget (d.paused_id _) (d.paused_budget _)
  | stageOpened | finishing => exact .modifyDiscussion fun d _ _ => .of_budget rfl rfl
  | continued =>
    exact .modifyDiscussion fun d _ _ =>
      .of_budget (Discussion.continued_id ..) (Discussion.continued_budget ..)
  | modeChanged _ _ _ hd' h =>
    obtain ⟨hmem, rfl⟩ := TeamSession.id_of_discussion hd'
    obtain ⟨-, -, rfl⟩ := Discussion.changeMode_ok h
    refine .modifyDiscussion fun e he hid => ?_
    obtain rfl := hv.discussion_eq he hmem hid
    exact .of_budget (e.paused_id _) (e.paused_budget _)
  | decided =>
    exact .modifyDiscussion fun d _ _ =>
      .of_budget (Discussion.modifyLastStage_id ..) (Discussion.modifyLastStage_budget ..)

omit [TeamText] in
/-- Reserving a batch checks each of its turns. -/
theorem Room.Solvent.reserve {intents : List DispatchIntent} {ids : List AttemptId} (hr : r.Solvent)
    (hn : (r.discussions.map Discussion.id).Nodup) (h : r.reserve intents n = .ok (ids, r')) :
    r'.Solvent := by
  simp only [Room.reserve, bind_ok] at h
  obtain ⟨next, hfold, he⟩ := h
  obtain ⟨rfl, rfl⟩ := Prod.mk.inj (Except.ok.inj he)
  refine (foldlM_ok (I := fun q => q.discussions = r.discussions ∧ q.Solvent) hfold ⟨rfl, hr⟩
    fun q entry _ q' hkept hone => ?_).2
  obtain ⟨hd, hq⟩ := hkept
  obtain ⟨rfl, budget, hbudget, hcheck⟩ := Room.reserveOne_ok hone
  refine ⟨hd, fun d hmem => ?_⟩
  obtain ⟨hreserved, hneeded⟩ := hq d hmem
  refine ⟨hreserved, ?_⟩
  rw [Room.purposes, Room.budgetAttempts, filter_append, map_append]
  by_cases hscope : entry.1.budget = .discussion d.id
  · have hcharged : [Room.reservedAttempt n entry].filter
        (fun t => t.intent.budget = .discussion d.id && t.state != .rejected) =
        [Room.reservedAttempt n entry] := by
      rw [filter_eq_self]
      intro t ht
      rw [mem_singleton.mp ht, Room.reservedAttempt]
      simp only [hscope, decide_true, Bool.true_and]
      rfl
    rw [hcharged]
    rw [hscope, Room.budgetOf, map_ok] at hbudget
    obtain ⟨d', hd', rfl⟩ := hbudget
    obtain ⟨hmem', hid⟩ := TeamSession.id_of_discussion (okOr_ok.mp hd')
    rw [hd] at hmem hmem'
    obtain rfl := inj_on_of_nodup_map hn hmem' hmem hid
    rw [hscope] at hcheck
    exact Budget.needed_of_checkBatch hreserved hcheck
  · have hnone : [Room.reservedAttempt n entry].filter
        (fun t => t.intent.budget = .discussion d.id && t.state != .rejected) = [] := by
      simp [Room.reservedAttempt, hscope]
    rw [hnone, map_nil, append_nil]
    exact hneeded

/-- **Every change leaves discussions solvent.** -/
theorem Change.solvent (hv : r.Valid) (hr : r.Solvent) (h : Change n op r r') :
    ∀ before d after, r'.discussions = before ++ d :: after → d.id ∉ before.map Discussion.id →
      d.budget.reportReserved = true ∧ turnsNeeded (r'.purposes d.id) ≤ d.budget.limit := by
  intro before d after hsplit hnew
  have hmem : d ∈ r'.discussions := by
    rw [hsplit]
    exact mem_append_right _ mem_cons_self
  rcases h.moves_or hv with ⟨intents, ids, h, -, -⟩ | hmoves
  · exact hr.reserve hv.discussions_nodup h d hmem
  have hkept (e : Discussion) (he : e ∈ r.discussions) (hk : e.KeepsBudget d) :
      d.budget.reportReserved = true ∧ turnsNeeded (r'.purposes d.id) ≤ d.budget.limit := by
    obtain ⟨hreserved, hneeded⟩ := hr e he
    refine ⟨hk.reserved.trans hreserved, ?_⟩
    calc turnsNeeded (r'.purposes d.id) ≤ turnsNeeded (r.purposes d.id) :=
          turnsNeeded_sublist (purposes_sublist hmoves)
      _ = turnsNeeded (r.purposes e.id) := by rw [hk.id]
      _ ≤ e.budget.limit := hneeded
      _ ≤ d.budget.limit := hk.limit
  rcases h.keepsBudgets hv with hk | ⟨hattempts, old, started, hlist, hbudget, hold, hids⟩
  · obtain ⟨e, he, hk⟩ := hk d hmem
    exact hkept e he hk
  -- The new discussion is the last one: no attempt is charged to it.
  by_cases hd : d ∈ old
  · obtain ⟨e, he, hk⟩ := hold d hd
    exact hkept e he hk
  have hlast : before = old ∧ d = started := by
    rw [hsplit] at hlist
    rcases eq_nil_or_concat after with rfl | ⟨rest, e, rfl⟩
    · obtain ⟨hb, he⟩ := append_inj' hlist rfl
      exact ⟨hb, (List.cons.inj he).1⟩
    · rw [concat_eq_append, ← cons_append, ← append_assoc] at hlist
      obtain ⟨hb, -⟩ := append_inj' hlist rfl
      rw [← hb] at hd
      exact absurd (mem_append_right _ mem_cons_self) hd
  obtain ⟨rfl, rfl⟩ := hlast
  have hnone : r'.purposes d.id = [] := by
    rw [Room.purposes, Room.budgetAttempts, map_eq_nil_iff, filter_eq_nil_iff]
    intro t ht hc
    rw [hattempts] at ht
    simp only [Bool.and_eq_true, decide_eq_true_eq] at hc
    have hhas := hv.budgets t ht
    rw [Room.missingDiscussion, hc.1] at hhas
    simp only [Bool.not_eq_false', Room.hasDiscussion, any_eq_true, decide_eq_true_eq] at hhas
    obtain ⟨e', he', hid⟩ := hhas
    obtain ⟨e, he, hid'⟩ := hids e' he'
    exact hnew (by rw [← hid, ← hid']; exact mem_map_of_mem he)
  rw [hnone, hbudget]
  exact ⟨rfl, by decide⟩

end

/-! ## The store never refuses a budget -/

section

variable [TeamText] {n : ℕ} {op : Operation} {r r' : Room}

/-- What the store says when a discussion has more turns than its limit. -/
def budgetExceeded : StorageError := invalid "budget exceeds scheduled turn limit"

omit [TeamText] in
theorem Room.checkStage_fails {seen : List Stage} {s : Stage} :
    FailsWith (· ≠ budgetExceeded) (r.checkStage seen s) :=
  .bind (.failIf (by decide)) fun _ => .bind (.checkEach fun _ _ _ _ => .failIf (by decide)) fun _ =>
    .failIf (by decide)

omit [TeamText] in
theorem Room.checkDiscussion_fails {seen : List Discussion} {d : Discussion}
    (h : d.id ∉ seen.map Discussion.id → d.budget.validate (r.budgetAttempts (.discussion d.id)) = true) :
    FailsWith (· ≠ budgetExceeded) (r.checkDiscussion seen d) := by
  refine .bind_of (.failIf (by decide)) fun _ hnew => .bind (.failIf (by decide)) fun _ =>
    .bind (fun e he => ?_) fun _ => .checkEach fun _ _ _ _ => checkStage_fails
  rw [h (failIf_ok.mp hnew)] at he
  cases he

omit [TeamText] in
theorem Room.checkAttempt_fails {seen : List Attempt} {t : Attempt} :
    FailsWith (· ≠ budgetExceeded) (r.checkAttempt seen t) :=
  .bind (.failIf (by decide)) fun _ => .bind (.failIf (by decide)) fun _ =>
    .bind (.failIf (by decide)) fun _ => .bind (.failIf (by decide)) fun _ =>
    .bind (.failIf (by decide)) fun _ => .bind (.failIf (by decide)) fun _ => .failIf (by decide)

/-- A room whose budgets are kept is not refused for one. -/
theorem Room.validate_fails (h : ∀ before d after, r.discussions = before ++ d :: after →
    d.id ∉ before.map Discussion.id → d.budget.validate (r.budgetAttempts (.discussion d.id)) = true) :
    FailsWith (· ≠ budgetExceeded) r.validate := by
  refine .bind (.checkEach fun _ _ _ _ => ?_) fun _ => .bind (.checkEach fun _ _ _ _ => ?_) fun _ =>
    .bind (.checkEach fun _ _ _ _ => ?_) fun _ =>
    .bind (.checkEach fun before d after he => checkDiscussion_fails (h before d after he)) fun _ =>
    .bind (.failIf (by decide)) fun _ => .checkEach fun _ _ _ _ => checkAttempt_fails
  · exact .bind (.failIf (by decide)) fun _ => .bind (.failIf (by decide)) fun _ => .failIf (by decide)
  · exact .bind (.failIf (by decide)) fun _ => .bind (.failIf (by decide)) fun _ => .failIf (by decide)
  · exact .bind (.failIf (by decide)) fun _ => .failIf (by decide)

omit [TeamText] in
theorem Room.validateUpdate_fails : FailsWith (· ≠ budgetExceeded) (r.validateUpdate r') :=
  .bind (.failIf (by decide)) fun _ => .bind (.failIf (by decide)) fun _ =>
    .bind (.checkEach fun _ _ _ _ => .bind (.okOr (by decide)) fun _ => .failIf (by decide)) fun _ =>
    .checkEach fun _ _ _ _ => .bind (.okOr (by decide)) fun _ => .failIf (by decide)

/-- **No change of a solvent room is refused for a budget.** -/
theorem Change.checkUpdate_fails (hv : r.Valid) (hr : r.Solvent) (h : Change n op r r') :
    FailsWith (· ≠ budgetExceeded) (TeamSession.checkUpdate r r') := by
  refine .bind (Room.validate_fails fun before d after he hnew => ?_) fun _ => Room.validateUpdate_fails
  obtain ⟨hreserved, hneeded⟩ := h.solvent hv hr before d after he hnew
  exact (Budget.validate_iff hreserved).mpr hneeded

/-- The rooms that the store accepts stay solvent. -/
theorem Room.Step.solvent (h : r.Step n op r') (hr : r.Solvent) : r'.Solvent := by
  intro d hd
  obtain ⟨before, after, he⟩ := append_of_mem hd
  refine h.change.solvent h.valid hr before d after he fun hmem => ?_
  have hn := h.valid'.discussions_nodup
  rw [he, map_append, map_cons, nodup_append] at hn
  exact hn.2.2 _ hmem _ mem_cons_self rfl

end

/-! ## Turns that are given back -/

/-- What an operation, over all of its saves, makes of the turn of an attempt. -/
structure Attempt.Accounts (op : Operation) (t t' : Attempt) : Prop where
  id : t'.id = t.id
  intent : t'.intent = t.intent
  rejected : t.state = .rejected → t'.state = .rejected
  back : t'.state = .rejected → t.state = .rejected ∨ op.GivesBack t
  reserved : t'.state = .reserved → t.state = .reserved
  sending : t'.state = .sending → t.state = .sending ∨ ∃ id, op = .prepareDispatch id

namespace Attempt

variable {op : Operation} {t t' t'' : Attempt}

theorem Moves.accounts (h : t.Moves op t') : t.Accounts op t' :=
  ⟨h.id, h.intent, h.stays_rejected, h.rejected, h.reserved, fun hs => (h.sending hs).imp_right fun h => ⟨_, h⟩⟩

theorem Accounts.refl (t : Attempt) : t.Accounts op t :=
  ⟨rfl, rfl, fun h => h, .inl, fun h => h, .inl⟩

theorem Accounts.trans (h : t.Accounts op t') (h' : t'.Accounts op t'') : t.Accounts op t'' where
  id := h'.id.trans h.id
  intent := h'.intent.trans h.intent
  rejected hs := h'.rejected (h.rejected hs)
  back hs := by
    rcases h'.back hs with hs | ⟨hs, d, hb, hop⟩ | ⟨hs, hop⟩
    · exact h.back hs
    · rw [h.intent] at hb
      exact .inr (.inl ⟨h.reserved hs, d, hb, hop⟩)
    · rw [h.id] at hop
      rcases h.sending hs with hs | ⟨id, hp⟩
      · exact .inr (.inr ⟨hs, hop⟩)
      · rw [hop] at hp
        cases hp
  reserved hs := h.reserved (h'.reserved hs)
  sending hs := (h'.sending hs).elim h.sending .inr

end Attempt

/-! ## Batches -/

/-- A room in which every intent of a batch has a reserved turn. -/
def Room.withBatch (r : Room) (intents : List DispatchIntent) (serial : ℕ) : Room :=
  { r with attempts := r.attempts ++ intents.zipIdx.map (Room.reservedAttempt serial) }

section

variable {J : Serde Room} [TeamText] {s s' : TeamSession J}

/-- **Reserving a batch is all or nothing**, in memory and in the file. -/
structure TeamSession.ReservesAll (s : TeamSession J) (intents : List DispatchIntent) : Prop where
  all : (s.reserveDispatches intents).1.isOk = true →
    (s.reserveDispatches intents).2.room = s.room.withBatch intents s.serial
  nothing : (s.reserveDispatches intents).1.isOk = false →
    (s.reserveDispatches intents).2.room = s.room
  file : ∀ v, (s.reserveDispatches intents).2.storage.Holds roomFormat v →
    s.storage.Holds roomFormat v ∨ v.2 = s.room.withBatch intents s.serial

theorem TeamSession.reservesAll (hs : ∃ cell, s.storage.Represents roomFormat cell)
    (intents : List DispatchIntent) : s.ReservesAll intents := by
  have hunchanged (e : TeamError) (h : s.reserveDispatches intents = (.error e, s)) : s.ReservesAll intents := by
    refine ⟨fun hok => ?_, fun _ => by rw [h], fun v hv => .inl ?_⟩
    · rw [h] at hok
      cases hok
    · rwa [h] at hv
  rcases hvalid : intents.forM s.validateRecipient with e | _
  · exact hunchanged e (by rw [reserveDispatches, hvalid])
  rcases hreserve : s.room.reserve intents s.serial with e | ⟨ids, next⟩
  · exact hunchanged (.dispatch e) (by rw [reserveDispatches, hvalid, hreserve])
  have hnext : next = s.room.withBatch intents s.serial := (Room.reserve_ok hreserve).1
  have hsave : s.reserveDispatches intents = s.save dispatchStorage next ids := by
    rw [reserveDispatches, hvalid, hreserve]
  refine ⟨fun hok => ?_, fun herror => ?_, fun v hv => ?_⟩
  · rcases hx : s.save dispatchStorage next ids with ⟨e | b, s'⟩
    · rw [hsave, hx] at hok
      cases hok
    · rw [hsave, hx, ← hnext]
      exact save_ok hx
  · rcases hx : s.save dispatchStorage next ids with ⟨e | b, s'⟩
    · rw [hsave, hx]
      exact save_error hx
    · rw [hsave, hx] at herror
      cases herror
  · rw [hsave, save_storage] at hv
    obtain ⟨cell, hr⟩ := hs
    rcases hc : s.storage.commit roomFormat (saving next (s.writes.headD .done)) with ⟨result, st⟩
    rw [hc] at hv
    rw [← hnext]
    exact hr.holds_commit hc hv

end

/-! ## Runs -/

section

variable {J : Serde Room} [TeamText] {p p' : TeamProcess J} {c : Call} {labels : List Call}

/-- The error of an operation does not come from the check of a budget. -/
def TeamError.WithinBudget (e : TeamError) : Prop := e.storageError? ≠ some budgetExceeded

theorem commit_withinBudget {n : ℕ} {op : Operation} {st : Storage J} {next : Room}
    {write : WriteOutcome} {e : StorageError} (hv : st.store.value.Valid) (hr : st.store.value.Solvent)
    (hc : Change n op st.store.value next)
    (h : (st.commit roomFormat (TeamSession.saving next write)).1 = .error e) : e ≠ budgetExceeded := by
  rcases hx : st.commit roomFormat (TeamSession.saving next write) with ⟨result, st'⟩
  rw [hx] at h
  obtain rfl := h
  rcases Storage.commit_error roomFormat hx with he | ⟨e', hof, rfl⟩
  · exact hc.checkUpdate_fails hv hr e he
  · rcases e' with _ | _ | _ | message | _
    case unsupportedVersion => cases hof
    case invalid =>
      obtain rfl := hof
      decide
    all_goals decide

/-- A storage with a solvent room refuses no room that changes lead to. -/
theorem not_refuses {n : ℕ} {op : Operation} {st : Storage J} (hv : st.store.value.Valid)
    (hb : st.store.value.Below (n + 1)) (hr : st.store.value.Solvent) :
    ¬ TeamSession.Refuses n op st budgetExceeded := by
  rintro ⟨st', next, write, hsaves, hc, herror⟩
  have hmem := hsaves.memory (G := fun r => (r.Valid ∧ r.Below (n + 1)) ∧ r.Solvent) ⟨⟨hv, hb⟩, hr⟩
    fun r r' ⟨⟨hv, hb⟩, hr⟩ hv' hc => by
      have hstep : Room.Step _ _ r r' := ⟨hv, valid_of_validate hv', hb, hc⟩
      exact ⟨⟨hstep.valid', hstep.below'⟩, hstep.solvent hr⟩
  exact commit_withinBudget hmem.1.1 hmem.2 hc herror rfl

/-- What a room, or any later one, has charged stays known. -/
def Room.KeepsTurns (r r' : Room) : Prop := ∀ t ∈ r.attempts, ∃ t' ∈ r'.attempts,
  t'.id = t.id ∧ t'.intent = t.intent ∧ (t.state = .rejected → t'.state = .rejected)

theorem preserved_solvent : Preserved (fun _ _ => True) Room.Solvent Room.KeepsTurns where
  blank r hr d hd := by simp [hr.discussions] at hd
  refl r t ht := ⟨t, ht, rfl, rfl, fun h => h⟩
  trans r r' r'' h h' t ht := by
    obtain ⟨t', ht', hid, hi, hs⟩ := h t ht
    obtain ⟨t'', ht'', hid', hi', hs'⟩ := h' t' ht'
    exact ⟨t'', ht'', hid'.trans hid, hi'.trans hi, fun h => hs' (hs h)⟩
  opening _ _ := trivial
  step n op r r' hs _ hr := by
    refine ⟨hs.solvent hr, fun t ht => ?_, trivial⟩
    obtain ⟨t', ht', hm⟩ := (hs.change.moves hs.valid).exists_of_mem ht
    exact ⟨t', ht', hm.id, hm.intent, hm.stays_rejected⟩

/-- Opening a room is not refused for a budget. -/
theorem TeamProcess.reopen_withinBudget (hs : p.Sound) (hr : ∀ r, p.Holds r → r.Solvent)
    (id : RoomId) (writes : List WriteOutcome) :
    FailsWith TeamError.WithinBudget (({ p.session with writes } : TeamSession J).reopen id).1 := by
  obtain ⟨cell, hcell⟩ := hs.cell
  obtain ⟨cell, hcell, hexact⟩ := hcell.exact
  obtain ⟨v, hread, hv⟩ := hcell.openStore
  have hheld : p.Holds v.2 := ⟨v.1, hexact v hv⟩
  have hvalid := (hs.rooms _ hheld).1
  have hopen : FailsWith TeamError.WithinBudget
      (({ p.session with writes } : TeamSession J).openRoom id) := by
    rw [TeamSession.openRoom]
    refine .bind_of ?_ fun store hstore => ?_
    · change FailsWith _ ((openStore J roomFormat p.session.storage.file).mapError _)
      rw [hread]
      exact .ok _
    · obtain rfl := Except.ok.inj (hread.symm.trans (mapError_ok.mp hstore))
      refine .bind (.failIf fun h => ?_) fun _ => .bind ?_ fun _ => .ok _
      · have hne : invalid "room identity changed" ≠ budgetExceeded := by decide
        exact hne (Option.some.inj h)
      · rw [hvalid]
        exact .ok _
  rw [TeamSession.reopen]
  split
  · next e he => exact .error (hopen e he)
  next store hstore =>
  simp only [TeamSession.openRoom, bind_ok, mapError_ok, failIf_ok] at hstore
  obtain ⟨store', hstore, _, -, _, -, he⟩ := hstore
  obtain rfl := Except.ok.inj he
  obtain rfl := Except.ok.inj (hread.symm.trans hstore)
  let opened : TeamSession J := { p.session with
    storage := { p.session.storage with store := ⟨v.2, v.1, false⟩ }, readiness := fun _ => none
    unresolved := ∅, writes }
  have hsave : TeamSession.Traced p.session.serial (.reopen id) opened
    (opened.save .storage v.2.reopened ()) := .save (fun _ => rfl) .reopened
  intro e he hexceeded
  exact not_refuses (valid_of_validate hvalid) (hs.rooms _ hheld).2.mono (hr _ hheld)
    ((hsave.saved_andThen fun _ _ => ⟨rfl, _, rfl⟩).refused e he _ hexceeded)

/-- An operation is not refused for a budget. -/
theorem TeamProcess.step_withinBudget (hs : p.Sound) (hr : ∀ r, p.Holds r → r.Solvent)
    (h : (teams J).step p c p') : FailsWith TeamError.WithinBudget c.result := by
  obtain ⟨s', hact, -, -⟩ := step_act h
  rcases hop : c.operation.opens with _ | _
  · have hopen : p.isOpen = true := h.1.resolve_right (by simp [hop])
    have hsaved := TeamSession.saved_act (s := { p.session with writes := c.writes }) hs.valid
      (hs.rooms _ p.holds_room).2 (fun id hid => by
        obtain ⟨t, ht, he, hf, -⟩ := hs.tracked hopen id hid
        exact ⟨t, ht, he, hf⟩) hop
    rw [hact] at hsaved
    intro e he hexceeded
    exact not_refuses hs.valid (hs.rooms _ p.holds_room).2.mono (hr _ p.holds_room)
      (hsaved.refused e he _ hexceeded)
  · obtain ⟨id, hid⟩ := exists_reopen hop
    rw [hid, TeamSession.act] at hact
    rcases hx : ({ p.session with writes := c.writes } : TeamSession J).reopen id with ⟨result, s''⟩
    have hfails := reopen_withinBudget hs hr id c.writes
    rw [hx] at hact hfails
    obtain ⟨hresult, -⟩ := Prod.mk.inj hact
    rw [← hresult]
    exact hfails.map

/-- What one operation that does not open the room makes of the turns. -/
theorem TeamProcess.step_accounts (hs : p.Sound) (h : (teams J).step p c p')
    (hop : c.operation.opens = false) : ∀ t ∈ p.session.room.attempts,
      ∃ t' ∈ p'.session.room.attempts, t.Accounts c.operation t' := by
  obtain ⟨st, -, -, hsaves, hst⟩ := exists_saves hs h
  obtain rfl := hst.resolve_right fun ⟨ho, _⟩ => by
    rw [hop] at ho
    cases ho
  exact (hsaves.memory (G := fun r => (r.Valid ∧ r.Below (p.session.serial + 1)) ∧
    ∀ t ∈ p.session.room.attempts, ∃ t' ∈ r.attempts, t.Accounts c.operation t')
    ⟨⟨hs.valid, (hs.rooms _ p.holds_room).2.mono⟩, fun t ht => ⟨t, ht, .refl t⟩⟩
    fun r r' ⟨⟨hv, hb⟩, hr⟩ hv' hc => by
      have hstep : Room.Step _ _ r r' := ⟨hv, valid_of_validate hv', hb, hc⟩
      refine ⟨⟨hstep.valid', hstep.below'⟩, fun t ht => ?_⟩
      obtain ⟨t', ht', ha⟩ := hr t ht
      obtain ⟨t'', ht'', hm⟩ := (hc.moves hv).exists_of_mem ht'
      exact ⟨t'', ht'', ha.trans hm.accounts⟩).2

/-- A turn that was charged is given back exactly when its attempt became rejected, which is final. -/
structure Room.SettlesTurns (op : Operation) (r r' : Room) : Prop where
  charged : ∀ scope, ∀ t ∈ r.budgetAttempts scope, ∃ t' ∈ r'.attempts, t'.id = t.id ∧
    (t' ∉ r'.budgetAttempts scope ↔ t'.state = .rejected) ∧
    (op.opens = false → t'.state = .rejected → op.GivesBack t)
  rejected : ∀ t ∈ r.attempts, t.state = .rejected → ∃ t' ∈ r'.attempts,
    t'.id = t.id ∧ t'.state = .rejected

theorem TeamProcess.step_settlesTurns (hs : p.Sound) (hk : p.session.room.KeepsTurns p'.session.room)
    (h : (teams J).step p c p') : p.session.room.SettlesTurns c.operation p'.session.room := by
  refine ⟨fun scope t ht => ?_, fun t ht hr => ?_⟩
  · obtain ⟨hmem, hc⟩ := mem_filter.mp ht
    simp only [Bool.and_eq_true, decide_eq_true_eq, bne_iff_ne] at hc
    have hcharged (t' : Attempt) (ht' : t' ∈ p'.session.room.attempts) (hi : t'.intent = t.intent) :
        t' ∉ p'.session.room.budgetAttempts scope ↔ t'.state = .rejected := by
      rw [Room.budgetAttempts, mem_filter]
      simp [ht', hi, hc.1]
    rcases hop : c.operation.opens with _ | _
    · obtain ⟨t', ht', ha⟩ := step_accounts hs h hop t hmem
      exact ⟨t', ht', ha.id, hcharged t' ht' ha.intent, fun _ hr => (ha.back hr).resolve_left hc.2⟩
    · obtain ⟨t', ht', hid, hi, -⟩ := hk t hmem
      exact ⟨t', ht', hid, hcharged t' ht' hi, fun h => by cases h⟩
  · obtain ⟨t', ht', hid, -, hkept⟩ := hk t ht
    exact ⟨t', ht', hid, hkept hr⟩

/-- **Turn budgets.**  In every run each discussion keeps within its limit, with a turn for its report:
until a report is sent, one is reserved or could be.  Batches are reserved as a whole, no operation is
refused for a budget, and a turn is given back exactly when its attempt is rejected. -/
theorem turns_budgeted (h : Run (teams J) labels p) :
    (∀ d ∈ p.session.room.discussions,
      turnsNeeded (p.session.room.purposes d.id) ≤ d.budget.limit ∧
      ((∀ t ∈ p.session.room.budgetAttempts (.discussion d.id), t.intent.purpose = .report →
          t.state = .reserved) →
        (∃ t ∈ p.session.room.budgetAttempts (.discussion d.id), t.intent.purpose = .report ∧
          t.state = .reserved) ∨
        d.budget.checkBatch (p.session.room.budgetAttempts (.discussion d.id)) [.report] = .ok ())) ∧
    (∀ intents writes, ({ p.session with writes } : TeamSession J).ReservesAll intents) ∧
    ∀ c p', (teams J).step p c p' →
      (∀ e, c.result = .error e → e.WithinBudget) ∧
      p.session.room.SettlesTurns c.operation p'.session.room := by
  obtain ⟨hs, hrooms⟩ := preserved_solvent.always h
  have hsolvent : ∀ r, p.Holds r → r.Solvent := fun r hr ↦ (hrooms r hr).1
  refine ⟨fun d hd ↦ ?_, fun intents writes ↦ TeamSession.reservesAll (s := { p.session with writes }) hs.cell intents,
    fun c p' hstep ↦ ⟨TeamProcess.step_withinBudget hs hsolvent hstep, ?_⟩⟩
  · obtain ⟨-, hneeded⟩ := hsolvent _ p.holds_room d hd
    refine ⟨hneeded, fun hunsent ↦ ?_⟩
    by_cases hr : .report ∈ p.session.room.purposes d.id
    · obtain ⟨t, ht, hp⟩ := mem_map.mp hr
      exact .inl ⟨t, ht, hp, hunsent t ht hp⟩
    · exact .inr (Budget.checkBatch_report hneeded hr)
  · have hk := (preserved_solvent.toKept.step_rule hs hrooms trivial hstep).2
    exact TeamProcess.step_settlesTurns hs hk hstep

end

section

attribute [local instance] plainText

theorem turns_budgeted_alice :
    (∃ labels, Run (teams (.plain Room)) labels (aliceAfter reportThenRequest)) ∧
    ∀ d ∈ (aliceAfter reportThenRequest).session.room.discussions,
      turnsNeeded ((aliceAfter reportThenRequest).session.room.purposes d.id) ≤ d.budget.limit := by
  obtain ⟨labels, hr⟩ := reportThenRequest_run
  exact ⟨⟨labels, hr⟩, fun d hd ↦ ((turns_budgeted hr).1 d hd).1⟩

end

end NiumaTerm.Team
