import NiumaTerm.Team.Updates

/-!
# The status of a discussion

`Discussion.Accurate` says how the status of a discussion agrees with its pauses and with its work.
A pause makes it so, whatever the status was (`accurate_paused`); the lemmas below it are about the
operations that keep it.  The one that does not is the completion of a turn: `accurate_completeTurn`
gives the exact condition.
-/

namespace NiumaTerm

open List
namespace Team

namespace Discussion

variable {d e : Discussion} {f : Arrangement → ArrangementState}

/-- The status agrees with the pauses and with the work. -/
structure Accurate (d : Discussion) : Prop where
  going : d.state.isGoing = true → d.pauses = ∅
  pausing : d.state = .pausing → d.hasActiveWork = true
  paused : d.state = .paused → d.hasActiveWork = false

theorem Accurate.of_completed (h : d.state = .completed) : d.Accurate := by
  refine ⟨fun hg => ?_, fun hp => ?_, fun hp => ?_⟩
  · rw [h] at hg
    cases hg
  · cases h.symm.trans hp
  · cases h.symm.trans hp

theorem accurate_settlePause (d : Discussion) : d.settlePause.Accurate := by
  have hwork : d.settlePause.hasActiveWork = d.hasActiveWork := rfl
  refine ⟨fun hg => ?_, fun hp => ?_, fun hp => ?_⟩
  · rw [settlePause_not_going] at hg
    cases hg
  · rw [hwork]
    by_contra hidle
    rw [settlePause, if_neg hidle] at hp
    cases hp
  · rw [hwork]
    by_contra hactive
    rw [settlePause, if_pos (Bool.eq_true_of_not_eq_false hactive)] at hp
    cases hp

/-- **A pause makes the status accurate.** -/
theorem accurate_paused (d : Discussion) (reason : PauseReason) : (d.paused reason).Accurate := by
  by_cases hc : d.state = .completed
  · rw [paused_of_completed _ hc]
    exact .of_completed hc
  · rw [paused_of_not_completed _ hc]
    exact accurate_settlePause _

/-! ## Changes that keep it -/

/-- Pauses may go, if the status and the work stay. -/
theorem Accurate.of_same (h : d.Accurate) (hs : e.state = d.state) (hp : e.pauses ⊆ d.pauses)
    (hw : e.hasActiveWork = d.hasActiveWork) : e.Accurate := by
  refine ⟨fun hg => ?_, fun hs' => ?_, fun hs' => ?_⟩
  · rw [hs] at hg
    rw [h.going hg] at hp
    exact Finset.subset_empty.mp hp
  · rw [hw]
    exact h.pausing (hs.symm.trans hs')
  · rw [hw]
    exact h.paused (hs.symm.trans hs')

theorem Accurate.resolved (h : d.Accurate) {reason : PauseReason} : (d.resolved reason).Accurate :=
  h.of_same rfl (Finset.erase_subset _ _) rfl

theorem Accurate.retainPauses (h : d.Accurate) {keep : PauseReason → Bool} :
    (d.retainPauses keep).Accurate :=
  h.of_same rfl (Finset.filter_subset _ _) rfl

variable {F : Stage → Stage} {snapshot : PublicSnapshot} {n : ℕ} {operation : OperationId}

theorem hasActiveWork_mapStages (hF : ∀ s, (F s).arrangements.any (fun a => a.state.isActive) =
      s.arrangements.any fun a => a.state.isActive) :
    ({ d with stages := d.stages.map F } : Discussion).hasActiveWork = d.hasActiveWork := by
  simp only [hasActiveWork, arrangements, any_flatMap, any_map]
  congr 1
  exact funext hF

theorem any_mapArrangements (hf : ∀ a, (f a).isActive = a.state.isActive) (s : Stage) :
    (s.mapArrangements f).arrangements.any (fun a => a.state.isActive) =
      s.arrangements.any fun a => a.state.isActive := by
  simp only [Stage.mapArrangements, any_map]
  congr 1
  exact funext hf

/-- Changes of arrangements between states without active work, or with it. -/
theorem Accurate.mapArrangements (h : d.Accurate) (hf : ∀ a, (f a).isActive = a.state.isActive) :
    (d.mapArrangements f).Accurate :=
  h.of_same rfl (Finset.Subset.refl _) (hasActiveWork_mapStages (any_mapArrangements hf))

theorem Accurate.mapStagesOf (h : d.Accurate) {p : StageKind → Bool}
    (hf : ∀ a, (f a).isActive = a.state.isActive) : (d.mapStagesOf p f).Accurate := by
  refine h.of_same rfl (Finset.Subset.refl _) (hasActiveWork_mapStages fun s => ?_)
  split
  · exact any_mapArrangements hf s
  · rfl

theorem hasActiveWork_pushPending {kind : StageKind} {recipients : List MemberId} :
    (d.pushStage (.pending kind recipients snapshot n)).hasActiveWork = d.hasActiveWork := by
  have hpending : (Stage.pending kind recipients snapshot n).arrangements.any
      (fun a => a.state.isActive) = false := by
    rw [any_eq_false]
    intro a ha
    simp only [Stage.pending, mem_mapIdx] at ha
    obtain ⟨i, hi, rfl⟩ := ha
    exact Bool.false_ne_true
  simp only [hasActiveWork, arrangements, pushStage, flatMap_append, flatMap_cons,
    flatMap_nil, append_nil, any_append, hpending, Bool.or_false]

theorem Accurate.pushPending (h : d.Accurate) {kind : StageKind} {recipients : List MemberId} :
    (d.pushStage (.pending kind recipients snapshot n)).Accurate :=
  h.of_same rfl (Finset.Subset.refl _) hasActiveWork_pushPending

theorem hasActiveWork_modifyLastStage (hF : ∀ s, (F s).arrangements = s.arrangements) :
    (d.modifyLastStage F).hasActiveWork = d.hasActiveWork := by
  cases hlast : d.stages.getLast? with
  | none => rw [modifyLastStage, hlast]
  | some s =>
    rw [modifyLastStage, hlast]
    simp only [hasActiveWork, arrangements]
    conv_rhs => rw [← dropLast_append_getLast? s hlast]
    simp only [flatMap_append, flatMap_cons, flatMap_nil, hF]

theorem Accurate.modifyLastStage (h : d.Accurate)
    (hF : ∀ s, (F s).arrangements = s.arrangements) : (d.modifyLastStage F).Accurate := by
  refine h.of_same ?_ ?_ (hasActiveWork_modifyLastStage hF)
  · rw [Discussion.modifyLastStage]
    split <;> rfl
  · rw [modifyLastStage_pauses]

theorem accurate_continued
    (h : (d.retainPauses fun reason => !reason.clearedByContinue).pauses = ∅) :
    (d.continued snapshot n).Accurate := by
  refine ⟨fun _ => ?_, fun hs => ?_, fun hs => ?_⟩
  · rw [continued_pauses]
    exact h
  · cases hs
  · cases hs

theorem Accurate.modeChanged (h : d.Accurate) (isExcluded : MemberId → Bool) :
    (d.modeChanged isExcluded).Accurate := by
  refine h.retainPauses.mapStagesOf fun a => ?_
  rw [cancelPending]
  split
  · next hpending => rw [hpending]; rfl
  · rfl

theorem accurate_changeMode {changed : Discussion} {mode : DiscussionMode}
    (h : d.changeMode mode = .ok changed) : changed.Accurate := by
  obtain ⟨-, -, rfl⟩ := changeMode_ok h
  exact (accurate_paused d .modeChange).of_same rfl (Finset.Subset.refl _) rfl

/-- A report is asked for when nothing is active. -/
theorem accurate_finishing (h : d.hasActiveWork = false) : (d.finishing snapshot n).Accurate := by
  have hwork : (d.mapArrangements cancelOpen).hasActiveWork = d.hasActiveWork :=
    hasActiveWork_mapStages (any_mapArrangements fun a => by
      rw [cancelOpen]
      split <;> simp_all [ArrangementState.isActive])
  have hidle : (d.finishing snapshot n).hasActiveWork = false :=
    (hasActiveWork_pushPending.trans hwork).trans h
  refine ⟨fun hg => ?_, fun hs => ?_, fun _ => hidle⟩
  · by_contra hpauses
    have hstate : (d.finishing snapshot n).state = .paused := if_neg hpauses
    rw [hstate] at hg
    cases hg
  · rw [finishing] at hs
    dsimp only at hs
    split at hs <;> cases hs

theorem Accurate.excluding (h : d.Accurate) (m : MemberId) : (d.excluding m).Accurate := by
  have hcancelled : (d.mapArrangements (cancelRecipient m)).Accurate := by
    refine h.mapArrangements fun a => ?_
    rw [cancelRecipient]
    split
    · next hpending => rw [hpending.2]; rfl
    · rfl
  rw [Discussion.excluding]
  split
  · exact h
  dsimp only
  split
  · exact accurate_paused _ _
  · exact hcancelled

theorem accurate_reopened (d : Discussion) : d.reopened.Accurate := by
  refine (accurate_paused _ _).mapArrangements fun a => ?_
  split
  · next hactive => rw [hactive]; rfl
  · rfl

/-! ## Turns -/

theorem accurate_failTurn (t : Attempt) (uncertain : Bool) (d : Discussion) :
    (Room.failTurn t uncertain d).Accurate := by
  rw [Room.failTurn]
  split
  · exact accurate_paused _ _
  · exact accurate_paused _ _

theorem accurate_abandonDiscussion (id : AttemptId) (d : Discussion) :
    (Room.abandonDiscussion id d).Accurate :=
  accurate_settlePause _

theorem accurate_settleHeld (h : d.pauses = ∅ → d.Accurate) : (Room.settleHeld d).Accurate := by
  rw [Room.settleHeld]
  split
  · next hpauses => exact h hpauses
  · exact accurate_settlePause d

/-- A turn that starts to run, for a discussion that is going. -/
theorem Accurate.markGoing (h : d.Accurate) (hg : d.state.isGoing = true)
    {a : ArrangementState} : (d.markOperation operation a).Accurate := by
  refine ⟨fun _ => h.going hg, fun hs => ?_, fun hs => ?_⟩
  · have hs' : d.state = .pausing := hs
    rw [hs'] at hg
    cases hg
  · have hs' : d.state = .paused := hs
    rw [hs'] at hg
    cases hg

theorem hasActiveWork_markActive (h : d.hasActiveWork = true)
    {id : AttemptId} : (d.markOperation operation (.active id)).hasActiveWork = true := by
  simp only [hasActiveWork, arrangements, any_flatMap, any_eq_true] at h
  obtain ⟨s, hs, a, ha, hactive⟩ := h
  simp only [hasActiveWork, arrangements, markOperation, Discussion.mapArrangements,
    any_flatMap, any_map, any_eq_true]
  refine ⟨s, hs, ?_⟩
  simp only [Function.comp, Stage.mapArrangements, any_map, any_eq_true]
  refine ⟨a, ha, ?_⟩
  split
  · rfl
  · exact hactive

/-- A turn that turns out to run, while the discussion has work. -/
theorem Accurate.reacceptTurn (h : d.Accurate) (hw : d.hasActiveWork = true) (t : Attempt) :
    (Room.reacceptTurn t d).Accurate := by
  refine accurate_settleHeld fun hpauses => ⟨fun _ => hpauses, fun _ => ?_, fun hs => ?_⟩
  · exact hasActiveWork_markActive hw
  · have hidle := h.paused hs
    rw [hw] at hidle
    cases hidle

/-- The turn is the last active one of a discussion that is pausing, and nothing but the turn's own
uncertainty still pauses it. -/
def Strands (d : Discussion) (t : Attempt) : Prop :=
  t.intent.purpose ≠ .report ∧ d.state = .pausing ∧
    (∀ reason ∈ d.pauses, reason = .uncertainAttempt t.id) ∧
    ∀ a ∈ d.arrangements, a.state.isActive = true → a.operation = t.intent.operation

theorem hasActiveWork_markCompleted {id : AttemptId} :
    (d.markOperation operation (.completed id)).hasActiveWork = false ↔
      ∀ a ∈ d.arrangements, a.state.isActive = true → a.operation = operation := by
  simp only [hasActiveWork, arrangements, markOperation, Discussion.mapArrangements,
    any_eq_false, mem_flatMap, mem_map, Stage.mapArrangements]
  constructor
  · rintro h a ⟨s, hs, ha⟩ hactive
    by_contra hne
    refine h { a with state := if a.operation = operation then .completed id else a.state }
      ⟨_, ⟨s, hs, rfl⟩, mem_map_of_mem ha⟩ ?_
    rw [if_neg hne]
    exact hactive
  · rintro h a' ⟨s', ⟨s, hs, rfl⟩, ha'⟩
    obtain ⟨a, ha, rfl⟩ := mem_map.mp ha'
    dsimp only
    split
    · exact Bool.false_ne_true
    · next hne => exact fun hactive => hne (h a ⟨s, hs, ha⟩ hactive)

/-- **The completion of a turn** keeps the status accurate, unless it strands the discussion. -/
theorem accurate_completeTurn (h : d.Accurate) (t : Attempt) :
    (Room.completeTurn t d).Accurate ↔ ¬ d.Strands t := by
  rw [Room.completeTurn]
  by_cases hreport : t.intent.purpose = .report
  · rw [if_pos hreport]
    exact iff_of_true (.of_completed rfl) fun hstrands => hstrands.1 hreport
  rw [if_neg hreport]
  have hpauses : ((d.markOperation t.intent.operation (.completed t.id)).resolved
      (.uncertainAttempt t.id)).pauses = ∅ ↔
        ∀ reason ∈ d.pauses, reason = .uncertainAttempt t.id := by
    change d.pauses.erase (.uncertainAttempt t.id) = ∅ ↔ _
    rw [Finset.erase_eq_empty_iff, Finset.subset_singleton_iff'.symm, Finset.subset_singleton_iff]
  constructor
  · rintro haccurate ⟨-, hpausing, hown, hlast⟩
    rw [Room.settleHeld, if_pos (hpauses.mpr hown)] at haccurate
    have hactive := haccurate.pausing hpausing
    change (d.markOperation _ _).hasActiveWork = true at hactive
    rw [hasActiveWork_markCompleted.mpr hlast] at hactive
    cases hactive
  · intro hstrands
    refine accurate_settleHeld fun hempty => ⟨fun _ => hempty, fun hpausing => ?_, fun hs => ?_⟩
    · by_contra hidle
      exact hstrands ⟨hreport, hpausing, hpauses.mp hempty,
        hasActiveWork_markCompleted.mp (Bool.eq_false_of_not_eq_true hidle)⟩
    · have hidle := h.paused hs
      refine hasActiveWork_markCompleted.mpr fun a ha hactive => ?_
      rw [hasActiveWork, any_eq_false] at hidle
      exact absurd hactive (hidle a ha)

end Discussion

end Team
end NiumaTerm
