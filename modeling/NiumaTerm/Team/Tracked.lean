import Mathlib.Data.Finset.Lattice.Lemmas
import NiumaTerm.Team.Evolution
import NiumaTerm.Team.Shape

/-!
# Attempts that no event settles

A session lists as unresolved the attempts that no provider event can settle any more.  Each of them
is in flight: what was sent stays so until an operation gives it an outcome (`Change.holds`), and those
operations take it off the list.
-/

namespace NiumaTerm.Team

open Rust Checks List

/-! ## Work that is still tracked -/

/-- Sent, with nothing left of its dispatch: only a report or the user gives it an outcome. -/
def AttemptState.isHeld : AttemptState → Bool
  | accepted | uncertain => true
  | _ => false

theorem AttemptState.inFlight_of_isHeld {a : AttemptState} (h : a.isHeld = true) :
    a.inFlight = true := by
  rcases a with _ | _ | _ | _ | _ | _ | _ | _ | _ <;> simp_all [isHeld, inFlight]

/-- The operations that give an attempt an outcome. -/
def Operation.Settles (id : AttemptId) : Operation → Prop
  | completeReply key _ _ | failAttempt key _ => key.attempt = id
  | abandonRestoredAttempt attempt => attempt = id
  | _ => False

def Room.Holds (r : Room) (id : AttemptId) : Prop :=
  ∃ t ∈ r.attempts, t.id = id ∧ t.state.isHeld = true

namespace Room

variable {r : Room} {id : AttemptId}

theorem Holds.of_attempts {r' : Room} (h : r.Holds id) (hr : r'.attempts = r.attempts) :
    r'.Holds id := by
  rwa [Holds, hr]

theorem Holds.mapAttempts (h : r.Holds id) {f : Attempt → AttemptState}
    (hf : ∀ t ∈ r.attempts, t.state.isHeld = true → (f t).isHeld = true) :
    (r.mapAttempts f).Holds id := by
  obtain ⟨t, ht, hid, hs⟩ := h
  exact ⟨_, mem_map_of_mem ht, hid, hf t ht hs⟩

theorem Holds.modifyAttempt (h : r.Holds id) (key : AttemptId) {f : Attempt → Attempt}
    (hf : ∀ t ∈ r.attempts, t.id = key → t.id = id → t.state.isHeld = true →
      (f t).id = id ∧ (f t).state.isHeld = true) : (r.modifyAttempt key f).Holds id := by
  obtain ⟨t, ht, hid, hs⟩ := h
  refine ⟨_, mem_map_of_mem ht, ?_⟩
  split
  · next hkey => exact hf t ht hkey hid hs
  · exact ⟨hid, hs⟩

/-- The outcome of an attempt leaves the others alone. -/
theorem Holds.settle (h : r.Holds id) {t : Attempt} {change : Attempt → Attempt}
    {mark : Discussion → Discussion}
    (hf : ∀ u ∈ r.attempts, u.id = t.id → u.id = id → u.state.isHeld = true →
      (change u).id = id ∧ (change u).state.isHeld = true) : (r.settle t change mark).Holds id :=
  (h.modifyAttempt _ hf).of_attempts (settle_attempts _ _ _)

/-- The attempt that gets an outcome. -/
theorem holds_settle {t : Attempt} {change : Attempt → Attempt} {mark : Discussion → Discussion}
    (ht : t ∈ r.attempts) (hid : (change t).id = t.id) (hs : (change t).state.isHeld = true) :
    (r.settle t change mark).Holds t.id := by
  rw [Holds, settle_attempts]
  exact ⟨_, mem_map_of_mem ht, by rw [if_pos rfl, hid], by rw [if_pos rfl, hs]⟩

end Room

theorem Room.isHeld_cancelled {r : Room} {d : DiscussionId} : ∀ t ∈ r.attempts,
    t.state.isHeld = true → (if t.intent.budget = .discussion d ∧ t.state = .reserved then
      AttemptState.rejected else t.state).isHeld = true := by
  intro t _ hs
  rw [if_neg]
  · exact hs
  · rintro ⟨-, he⟩
    rw [he] at hs
    cases hs

theorem Room.Holds.fail {r r' : Room} {id : AttemptId} {t : Attempt} (h : r.Holds id)
    (hf : r.fail t true = .ok r') : r'.Holds id := by
  rw [Room.fail_ok hf]
  exact h.settle fun u _ _ hid _ => ⟨hid, rfl⟩

variable [TeamText]

/-- **What is held stays held until it gets an outcome.** -/
theorem Change.holds {n : ℕ} {op : Operation} {r r' : Room} {id : AttemptId} (hv : r.Valid)
    (h : Change n op r r') (hop : ¬ op.Settles id) (hid : r.Holds id) : r'.Holds id := by
  cases h with
  | quiet hq => exact hid.of_attempts hq.attempts
  | reopened =>
    refine (hid.of_attempts rfl).mapAttempts fun t _ hs => ?_
    split
    · rfl
    · exact hs
  | ready _ ho hon h =>
    refine Room.fails_induction (P := fun r => r.Holds id) h hon hv.attempts_nodup ho ?_
      fun _ _ _ _ _ _ hq hf => Room.Holds.fail hq hf
    exact hid.of_attempts rfl
  | excluded _ h =>
    rw [Room.excludeMember_ok h]
    exact hid.of_attempts rfl
  | reserved _ _ _ _ h =>
    obtain ⟨rfl, -⟩ := Room.reserve_ok h
    obtain ⟨t, ht, hs⟩ := hid
    exact ⟨t, mem_append_left _ ht, hs⟩
  | prepared t _ _ _ _ _ h =>
    obtain ⟨t, ht, hs, -, h⟩ := Room.prepare_ok h
    obtain ⟨hmem, rfl⟩ := TeamSession.id_of_attempt ht
    have hne : ∀ u ∈ r.attempts, u.id = t.id → u.state.isHeld ≠ true := by
      intro u hu he
      rw [hv.attempt_eq hu hmem he, hs]
      exact nofun
    rcases h with ⟨-, -, -, -, -, -, -, -, rfl⟩ | ⟨-, rfl⟩
    · exact hid.settle fun u hu he _ hs' => absurd hs' (hne u hu he)
    · exact hid.modifyAttempt _ fun u hu he _ hs' => absurd hs' (hne u hu he)
  | finished h =>
    obtain ⟨t, ht, hs, h'⟩ := Room.finish_ok h
    clear h
    obtain ⟨hmem, rfl⟩ := TeamSession.id_of_attempt ht
    have hne : ∀ u ∈ r.attempts, u.id = t.id → u.state.isHeld ≠ true := by
      intro u hu he
      rw [hv.attempt_eq hu hmem he, hs]
      exact nofun
    rcases h' with ⟨-, rfl⟩ | rfl
    all_goals exact hid.settle fun u hu he _ hs' => absurd hs' (hne u hu he)
  | accepted _ _ _ h =>
    rcases Room.accept_ok h with ⟨-, rfl⟩ | ⟨-, rfl⟩
    · exact hid.settle fun u _ _ he _ => ⟨he, rfl⟩
    · exact hid.modifyAttempt _ fun u _ _ he _ => ⟨he, rfl⟩
  | @completed _ _ text _ _ t _ ht _ h =>
    obtain ⟨m, -, -, rfl⟩ := Room.complete_ok h
    have hpushed : (r.pushMessage (Room.replyOf t m text n)).Holds id := hid.of_attempts rfl
    refine hpushed.settle fun u _ he hu _ => absurd ?_ hop
    exact (Room.eventAttempt_some ht).2.1.symm.trans (he.symm.trans hu)
  | failed _ ht _ h =>
    rw [Room.fail_ok h]
    refine hid.settle fun u _ he hu _ => absurd ?_ hop
    exact (Room.eventAttempt_some ht).2.1.symm.trans (he.symm.trans hu)
  | abandoned hx h =>
    obtain ⟨t, ht, rfl, hf⟩ := hx
    rw [Room.abandon_ok h]
    refine (hid.modifyAttempt t.id fun u _ he hu _ => absurd ?_ hop).of_attempts rfl
    exact he.symm.trans hu
  | started _ _ h =>
    obtain ⟨-, -, rfl, -⟩ := Room.createDiscussion_ok h
    exact hid.of_attempts rfl
  | userInput | stageOpened | decided => exact hid.of_attempts rfl
  | continued | modeChanged | finishing =>
    exact (hid.mapAttempts Room.isHeld_cancelled).of_attempts rfl

/-! ## Storages that are stuck -/

namespace TeamSession

section

variable {J : Serde Room} {n : ℕ} {op : Operation} {st st' : Storage J}

/-- Nothing is saved once a storage is stuck. -/
theorem Saves.eq_of_stuck (h : Saves n op st st') (hs : st.Stuck) : st' = st := by
  induction h with
  | refl => rfl
  | step write h _ ih =>
    subst ih
    exact Storage.commit_of_stuck hs _

/-- What changes keep holds of the room in memory after any of them was saved. -/
theorem Saves.memory {G : Room → Prop} (h : Saves n op st st') (hG : G st.store.value)
    (hstep : ∀ r r', G r → r'.validate = .ok () → Change n op r r' → G r') :
    G st'.store.value := by
  induction h with
  | refl => exact hG
  | @step st₁ next write _ hc ih =>
    rcases hcommit : st₁.commit roomFormat (saving next write) with ⟨result, st₂⟩
    rcases Storage.commitStep roomFormat hcommit with _ | - | ⟨_, hw, -, -⟩ | _
    · exact ih
    · exact ih
    · have hvalid := hw.checked
      simp only [saving, checkUpdate, bind_ok] at hvalid
      exact hstep _ _ ih hvalid.choose_spec.1 hc
    · exact ih

end

/-! ## The list of a session -/

variable {J : Serde Room}

/-- The attempt is in flight and, unless nothing can be saved any more, held. -/
def Tracks (s : TeamSession J) (id : AttemptId) : Prop :=
  ∃ t ∈ s.room.attempts, t.id = id ∧ t.state.inFlight = true ∧
    (s.storage.Stuck ∨ t.state.isHeld = true)

def Tracked (s : TeamSession J) : Prop := ∀ id ∈ s.unresolved, s.Tracks id

variable {n : ℕ} {op : Operation} {s s' : TeamSession J} {id : AttemptId}

/-- A save of a room that passes the check fails only when nothing can be saved any more. -/
theorem stuck_of_save_error {wrap : StorageError → TeamError} {next : Room} {α : Type} {a : α}
    {e : TeamError} (hcheck : checkUpdate s.room next = .ok ())
    (h : s.save wrap next a = (.error e, s')) : s'.storage.Stuck := by
  rw [save, commit] at h
  rcases hc : s.storage.commit roomFormat (saving next (s.writes.headD .done)) with ⟨e' | _, st⟩ <;>
    have hc' := hc <;> rw [saving] at hc <;> simp only [hc] at h <;> cases h
  exact Storage.stuck_of_error hcheck hc'

omit [TeamText] in
theorem Tracks.of_holds (h : s.room.Holds id) : s.Tracks id := by
  obtain ⟨t, ht, hid, hs⟩ := h
  exact ⟨t, ht, hid, AttemptState.inFlight_of_isHeld hs, .inr hs⟩

/-- An operation keeps track of an attempt, unless it gives it an outcome. -/
theorem Tracks.saves (h : s.Tracks id) (hv : s.room.Valid)
    (hs : Saves n op s.storage s'.storage) (hop : ¬ op.Settles id ∨ s'.room = s.room) :
    s'.Tracks id := by
  by_cases hstuck : s.storage.Stuck
  · have hst := hs.eq_of_stuck hstuck
    rwa [Tracks, room, hst]
  obtain ⟨t, ht, hid, hf, hh⟩ := h
  have hh := hh.resolve_left hstuck
  rcases hop with hop | hroom
  · have hmem := hs.memory (G := fun r => r.Valid ∧ r.Holds id) ⟨hv, t, ht, hid, hh⟩
      fun r r' hr hv' hc => ⟨valid_of_validate hv', hc.holds hr.1 hop hr.2⟩
    exact .of_holds hmem.2
  · refine .of_holds ?_
    rw [hroom]
    exact ⟨t, ht, hid, hh⟩

/-- An operation that leaves the list alone. -/
theorem Tracked.of_saved {α : Type} {x : Outcome J α} (h : s.Tracked) (hv : s.room.Valid)
    (hs : Saved n op s.storage x) (hu : x.2.unresolved = s.unresolved)
    (hop : ∀ id, ¬ op.Settles id) : x.2.Tracked := by
  intro id hid
  rw [hu] at hid
  exact (h id hid).saves hv hs.saves (.inl (hop id))

/-- An operation that takes an attempt off the list once its outcome is saved. -/
theorem Tracked.of_erase {α β : Type} {plan : Except TeamError (α × Room)} {f : α → β}
    (h : s.Tracked) (hv : s.room.Valid) (ht : Traced n op s (s.perform plan))
    (hop : ∀ key, op.Settles key → key = id) :
    (TeamSession.andThen (s.perform plan) fun a s =>
      (.ok (f a), { s with unresolved := s.unresolved.erase id })).2.Tracked := by
  rcases hx : s.perform plan with ⟨e | a, s'⟩
  · rw [hx] at ht
    have hroom := perform_error hx
    intro key hkey
    rw [TeamSession.andThen, ht.unresolved] at hkey
    exact (h key hkey).saves hv ht.saves (.inr hroom)
  · rw [hx] at ht
    intro key hkey
    rw [TeamSession.andThen] at hkey
    dsimp only at hkey
    rw [Finset.mem_erase, ht.unresolved] at hkey
    exact (h key hkey.2).saves hv ht.saves (.inl fun hs => hkey.1 (hop key hs))

theorem unresolved_memberUnavailable {m : MemberId} :
    (s.memberUnavailable m).2.unresolved = s.unresolved := by
  rw [memberUnavailable, save, commit]
  split <;> next h =>
    rw [← (Prod.mk.inj h).2]

theorem unresolved_excludeMember {m : MemberId} :
    (s.excludeMember m).2.unresolved = s.unresolved := by
  rw [excludeMember]
  split
  · rfl
  next hidle =>
  have h : Traced 0 (.excludeMember m) s _ := traced_exclude (idle_of_not_live hidle)
  replace h := h.unresolved
  unfold andThen
  split
  · next hx => rw [← h, hx]
  · next hx => rw [← h, hx]

theorem tracked_completeReply {key : AttemptEventKey} {turn text : Str} (h : s.Tracked)
    (hv : s.room.Valid) : (s.completeReply key turn text).2.Tracked := by
  rw [completeReply]
  split
  · exact h
  next t ht =>
  split
  · exact h
  next hc => exact h.of_erase hv (traced_complete rfl ht (by simpa using hc)) fun key hk => hk.symm

theorem tracked_abandonRestoredAttempt (h : s.Tracked) (hv : s.room.Valid) :
    (s.abandonRestoredAttempt id).2.Tracked := by
  rw [abandonRestoredAttempt]
  split
  · exact h
  next hidle =>
  simp only [Bool.or_eq_true, decide_eq_true_eq, not_or, Bool.not_eq_true, not_not] at hidle
  obtain ⟨t, ht, hid, hf, -⟩ := h id hidle.2
  exact h.of_erase hv (traced_abandon (n := 0) ⟨t, ht, hid, hf⟩) fun key hk => hk.symm

theorem tracked_failAttempt {key : AttemptEventKey} {uncertain : Bool} (h : s.Tracked)
    (hv : s.room.Valid) : (s.failAttempt key uncertain).2.Tracked := by
  rw [failAttempt]
  split
  · exact h
  next t ht =>
  split
  · exact h
  next hf =>
  have htr : Traced 0 (.failAttempt key uncertain) s
      (s.perform ((s.room.fail t uncertain).map fun next => ((), next))) :=
    traced_fail ht (by simpa using hf)
  rcases uncertain with _ | _
  · exact h.of_erase hv htr fun key hk => hk.symm
  rcases hx : s.perform ((s.room.fail t true).map fun next => ((), next)) with ⟨e | a, s'⟩
  · rw [hx] at htr
    intro key hkey
    rw [TeamSession.andThen, htr.unresolved] at hkey
    exact (h key hkey).saves hv htr.saves (.inr (perform_error hx))
  · rw [hx] at htr
    obtain ⟨next, hfail, he⟩ := map_ok.mp (perform_ok hx)
    obtain ⟨-, rfl⟩ := Prod.mk.inj he
    obtain ⟨hmem, hid, -⟩ := Room.eventAttempt_some ht
    intro key' hkey
    rw [TeamSession.andThen] at hkey
    dsimp only at hkey
    rw [if_pos rfl, Finset.mem_insert, htr.unresolved] at hkey
    by_cases hk : key' = key.attempt
    · refine .of_holds ?_
      change s'.room.Holds key'
      rw [Room.fail_ok hfail, hk, ← hid]
      exact Room.holds_settle hmem rfl rfl
    · exact (h key' (hkey.resolve_left hk)).saves hv htr.saves (.inl fun hs => hk hs.symm)

/-! ### A member that is ready again -/

omit [TeamText] in
theorem missingDiscussion_fail {r r' : Room} {t : Attempt} (h : r.fail t true = .ok r')
    (u : Attempt) : r'.missingDiscussion u = r.missingDiscussion u := by
  have hd (id : DiscussionId) : r'.hasDiscussion id = r.hasDiscussion id := by
    rw [Room.fail_ok h, Room.settle]
    split
    · rw [Room.hasDiscussion, Room.modifyDiscussion, any_map]
      refine congrArg (List.any r.discussions) (funext fun d => ?_)
      dsimp only [Function.comp]
      split
      · simp [Room.failTurn, Discussion.markOperation]
      · rfl
    · rfl
  unfold Room.missingDiscussion
  split
  · rw [hd]
  · rfl

omit [TeamText] in
/-- Marking the attempts of a room never fails, and all of them are held then. -/
theorem failAll_ok {orphaned : List Attempt} {r : Room} (unresolved : Finset AttemptId)
    (h : ∀ t ∈ orphaned, t ∈ r.attempts ∧ r.missingDiscussion t = false)
    (hn : (orphaned.map Attempt.id).Nodup) :
    ∃ next, failAll orphaned r unresolved =
      (.ok next, unresolved ∪ (orphaned.map Attempt.id).toFinset) ∧
      ∀ t ∈ orphaned, next.Holds t.id := by
  induction orphaned generalizing r unresolved with
  | nil => exact ⟨r, by simp [failAll], by simp⟩
  | cons t rest ih =>
    rw [map_cons, nodup_cons] at hn
    obtain ⟨hmem, hd⟩ := h t mem_cons_self
    obtain ⟨mid, hmid⟩ : ∃ mid, r.fail t true = .ok mid := by
      rw [Room.fail, hd]
      exact ⟨_, rfl⟩
    have hrest : ∀ u ∈ rest, u ∈ mid.attempts ∧ mid.missingDiscussion u = false := by
      intro u hu
      obtain ⟨hu', hd'⟩ := h u (mem_cons_of_mem _ hu)
      refine ⟨?_, (missingDiscussion_fail hmid u).trans hd'⟩
      rw [Room.fail_ok hmid, Room.settle_attempts]
      exact Room.mem_modifyAttempt hu' fun he => hn.1 (he ▸ mem_map_of_mem hu)
    obtain ⟨next, hnext, hholds⟩ := ih (insert t.id unresolved) hrest hn.2
    refine ⟨next, ?_, fun u hu => ?_⟩
    · rw [failAll, hmid]
      dsimp only
      rw [hnext, map_cons, toFinset_cons, Finset.insert_union, Finset.union_insert]
    · rcases mem_cons.mp hu with rfl | hu
      · have hfold := failAll_fst rest mid (insert u.id unresolved)
        rw [hnext] at hfold
        refine foldlM_ok (I := fun r => r.Holds u.id) hfold.symm ?_
          fun _ _ _ _ hr hf => Room.Holds.fail hr hf
        rw [Room.fail_ok hmid]
        exact Room.holds_settle hmem rfl rfl
      · exact hholds u hu

omit [TeamText] in
/-- Marking attempts as uncertain is no change that the store refuses. -/
theorem sameShape_ready {member : MemberId} {orphaned : List Attempt} {r next : Room}
    (hv : r.Valid) (ho : ∀ t ∈ orphaned, t ∈ r.attempts ∧ t.state.inFlight = true)
    (hn : (orphaned.map Attempt.id).Nodup)
    (h : orphaned.foldlM (fun r t => r.fail t true)
      (r.mapDiscussions fun d => d.resolved (.memberUnavailable member)) = .ok next) :
    r.SameShape next := by
  refine Room.fails_induction (P := r.SameShape) h hn hv.attempts_nodup ho ?_
    fun q t q' hq ht hf hp hfail => hp.fail hq ht hf hfail
  exact .mapDiscussions (.refl r) fun d _ => .resolved (.refl d)

theorem tracked_memberReady {member : MemberId} {generation : ℕ} {capabilities : ModeratorAdmission}
    (h : s.Tracked) (hvalid : s.room.validate = .ok ()) :
    (s.memberReady member generation capabilities).2.Tracked := by
  have hv := valid_of_validate hvalid
  rw [memberReady]
  split
  · exact h
  split
  · exact h
  dsimp only
  set resolved := s.room.mapDiscussions fun d => d.resolved (.memberUnavailable member) with hr
  set orphaned := s.orphaned resolved member generation with ho
  have horphaned : ∀ t ∈ orphaned, t ∈ s.room.attempts ∧ t.state.inFlight = true := by
    intro t ht
    simp only [ho, TeamSession.orphaned, mem_filter, Bool.and_eq_true] at ht
    exact ⟨ht.1, ht.2.1.2⟩
  have hn : (orphaned.map Attempt.id).Nodup :=
    hv.attempts_nodup.sublist (filter_sublist.map _)
  have hmissing (t : Attempt) : resolved.missingDiscussion t = s.room.missingDiscussion t := by
    unfold Room.missingDiscussion
    split
    · rw [hr, Room.hasDiscussion, Room.mapDiscussions, any_map]
      rfl
    · rfl
  obtain ⟨next, hfail, hholds⟩ := failAll_ok (r := resolved) s.unresolved
    (fun t ht => ⟨(horphaned t ht).1, (hmissing t).trans (hv.budgets t (horphaned t ht).1)⟩) hn
  have hfold := failAll_fst orphaned resolved s.unresolved
  rw [hfail] at hfold
  have hshape : s.room.SameShape next := sameShape_ready hv horphaned hn hfold.symm
  have hc : Change 0 (.memberReady member generation capabilities) s.room next :=
    .ready orphaned horphaned hn hfold.symm
  have hcheck : checkUpdate s.room next = .ok () :=
    bind_ok.mpr ⟨(), hshape.validate hvalid, hshape.validateUpdate hv⟩
  rw [hfail]
  dsimp only
  set marked := s.unresolved ∪ (orphaned.map Attempt.id).toFinset with hm
  split
  · have htr : Traced 0 (.memberReady member generation capabilities) { s with unresolved := marked }
        ({ s with unresolved := marked }.save .storage next ()) := .save (fun _ => rfl) hc
    rcases hx : ({ s with unresolved := marked } : TeamSession J).save .storage next () with
      ⟨e | _, s'⟩
    · rw [hx] at htr
      intro key hkey
      rw [TeamSession.andThen, htr.unresolved, hm, Finset.mem_union, mem_toFinset, mem_map] at hkey
      have hroom : s'.room = s.room :=
        save_error (s := { s with unresolved := marked }) hx
      rcases hkey with hkey | ⟨t, ht, rfl⟩
      · exact (h key hkey).saves hv htr.saves (.inr hroom)
      · obtain ⟨hmem, hf⟩ := horphaned t ht
        refine ⟨t, ?_, rfl, hf, .inl (stuck_of_save_error (s := { s with unresolved := marked })
          hcheck hx)⟩
        change t ∈ s'.room.attempts
        rwa [hroom]
    · rw [hx] at htr
      intro key hkey
      have hroom : s'.room = next := save_ok hx
      rw [TeamSession.andThen] at hkey
      dsimp only at hkey
      rw [htr.unresolved, hm, Finset.mem_union, mem_toFinset, mem_map] at hkey
      rcases hkey with hkey | ⟨t, ht, rfl⟩
      · exact (h key hkey).saves hv htr.saves (.inl fun h => h)
      · refine .of_holds ?_
        change s'.room.Holds t.id
        rw [hroom]
        exact hholds t ht
  · next hchanged =>
    intro key hkey
    simp only [Bool.or_eq_true, Bool.not_eq_true', isEmpty_eq_false_iff, not_or, not_not] at hchanged
    rw [TeamSession.andThen] at hkey
    simp only [hm, hchanged.2, map_nil, toFinset_nil, Finset.union_empty] at hkey
    exact h key hkey

/-! ### All operations -/

/-- **No operation loses track of an unresolved attempt.** -/
theorem tracked_act (h : s.Tracked) (hvalid : s.room.validate = .ok ()) (hb : s.room.Below s.serial)
    (hop : op.opens = false) : (s.act op).2.Tracked := by
  have hv := valid_of_validate hvalid
  have hs := saved_act hv hb (fun id hid => by
    obtain ⟨t, ht, he, hf, -⟩ := h id hid
    exact ⟨t, ht, he, hf⟩) hop
  rcases hc : op.changesSession with _ | _
  · refine h.of_saved hv hs (traced_act hv hb hc).unresolved fun id hid => ?_
    rcases op <;> simp_all [Operation.changesSession, Operation.Settles]
  unfold Operation.changesSession at hc
  split at hc
  · cases hop
  · exact tracked_memberReady h hvalid
  · refine h.of_saved hv hs ?_ fun _ => nofun
    exact unresolved_memberUnavailable
  · refine h.of_saved hv hs ?_ fun _ => nofun
    exact unresolved_excludeMember
  · exact tracked_completeReply h hv
  · exact tracked_failAttempt h hv
  · exact tracked_abandonRestoredAttempt h hv
  · cases hc

end TeamSession

end NiumaTerm.Team
