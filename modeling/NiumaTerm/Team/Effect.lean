import NiumaTerm.Team.Change

/-!
# What operations save

`Saves n op st st'`: the storage goes from `st` to `st'` by saving rooms that changes of `op` lead to.
`Traced` says that of an outcome, and that a storage error in its result comes from such a save.  The
lemmas about `save`, `perform` and `andThen` compose, so the lemma about an operation follows its
definition.
-/

namespace NiumaTerm.Team

open Rust Checks

/-- The error of the store in the error of an operation. -/
def TeamError.storageError? : TeamError → Option StorageError
  | .storage e | .dispatch (.storage e) => some e
  | _ => none

/-- An error that does not come from the store. -/
def TeamError.IsPlain (e : TeamError) : Prop := e.storageError? = none

/-! ## Errors that do not come from the store -/

section

variable {J : Serde Room} {s : TeamSession J}

/-- An error of a dispatch that does not come from the store. -/
abbrev PlainDispatch (e : DispatchError) : Prop := (TeamError.dispatch e).IsPlain

variable {r : Room} {id : AttemptId} {t : Attempt}

theorem Room.plain_reserve {n : ℕ} {intents : List DispatchIntent} :
    FailsWith PlainDispatch (r.reserve intents n) := by
  rw [Room.reserve]
  refine FailsWith.bind (FailsWith.foldlM fun r entry => ?_) fun _ => .ok _
  rw [Room.reserveOne]
  refine FailsWith.bind (.failIf rfl) fun _ => FailsWith.bind ?_ fun _ =>
    .bind (.mapError fun _ _ => rfl) fun _ => .ok _
  unfold Room.budgetOf
  split
  · exact .map (.okOr rfl)
  · exact .ok _

theorem Room.plain_prepare : FailsWith PlainDispatch (r.prepare id) := by
  rw [Room.prepare]
  refine FailsWith.bind (.okOr rfl) fun t => .bind (.failIf rfl) fun _ => ?_
  split
  · split
    · exact .ok _
    · exact FailsWith.bind (.okOr rfl) fun _ => .bind (.okOr rfl) fun _ =>
        .bind (.failIf rfl) fun _ => .ok _
  · exact .ok _

theorem Room.plain_finish {outcome : SendOutcome} :
    FailsWith PlainDispatch (r.finish id outcome) := by
  rw [Room.finish]
  refine FailsWith.bind (.okOr rfl) fun t => .bind (.failIf rfl) fun _ => ?_
  split
  · exact .ok _
  all_goals exact FailsWith.bind (.failIf rfl) fun _ => .ok _

theorem Room.plain_accept {turn : Str} : FailsWith TeamError.IsPlain (r.accept t turn) := by
  rw [Room.accept]
  split
  · exact FailsWith.bind (.failIf rfl) fun _ => .ok _
  · exact .ok _

theorem Room.plain_complete {n : ℕ} {text : Str} :
    FailsWith TeamError.IsPlain (r.complete t text n) := by
  rw [Room.complete]
  exact FailsWith.bind (.okOr rfl) fun _ => .bind (.failIf rfl) fun _ => .ok _

theorem Room.plain_fail {uncertain : Bool} : FailsWith TeamError.IsPlain (r.fail t uncertain) := by
  rw [Room.fail]
  exact FailsWith.bind (.failIf rfl) fun _ => .ok _

theorem Room.plain_abandon : FailsWith TeamError.IsPlain (r.abandon id) := by
  rw [Room.abandon]
  exact FailsWith.bind (.failIf rfl) fun _ => .ok _

namespace TeamSession

theorem plain_findDiscussion {id : DiscussionId} :
    FailsWith TeamError.IsPlain (s.findDiscussion id) := .okOr rfl

theorem plain_validateMember {id : MemberId} : FailsWith TeamError.IsPlain (s.validateMember id) :=
  FailsWith.bind (.failIf rfl) fun _ => .bind (.okOr rfl) fun _ =>
    .bind (.failIf rfl) fun _ => .failIf rfl

theorem plain_validateMode {mode : DiscussionMode} :
    FailsWith TeamError.IsPlain (s.validateMode mode) := by
  refine FailsWith.bind (.okOr rfl) fun _ => .bind (.failIf rfl) fun _ => ?_
  rcases mode with _ | moderator
  · exact .ok ()
  · exact FailsWith.bind (.okOr rfl) fun _ => .failIf rfl

variable {input : UserInput} {limits : ContextLimits}

theorem plain_validateInput : FailsWith TeamError.IsPlain (s.validateInput input) := .failIf rfl

theorem plain_nextStage {d : Discussion} {remaining : ℕ} {isExcluded : MemberId → Bool} :
    FailsWith TeamError.IsPlain (nextStage d remaining isExcluded) := by
  rw [nextStage]
  split
  · exact .ok _
  split
  · exact .ok _
  rw [moderatedNextStage]
  split
  · exact .ok _
  split
  · split <;> exact .ok _
  · exact FailsWith.bind (.okOr rfl) fun _ => .ok _

theorem plain_validateRecipient {intent : DispatchIntent} :
    FailsWith TeamError.IsPlain (s.validateRecipient intent) :=
  FailsWith.bind (.okOr rfl) fun _ => .bind (.failIf rfl) fun _ => plain_validateMember

theorem plain_checkDispatch {t : Attempt} : FailsWith TeamError.IsPlain (s.checkDispatch t) := by
  refine FailsWith.bind plain_validateRecipient fun _ => FailsWith.bind ?_ fun _ => .failIf rfl
  unfold checkDispatchable
  split
  · exact FailsWith.bind plain_findDiscussion fun _ => .failIf rfl
  · exact .ok ()

variable [TeamText]

theorem plain_instructions {r : Room} {plan : DispatchPlan} {m : Member} :
    FailsWith TeamError.IsPlain (instructions r plan m) := by
  rw [instructions]
  split
  · exact FailsWith.bind (.okOr rfl) fun _ => .ok _
  · exact .ok _

theorem plain_prepareIntent {plan : DispatchPlan} {snapshot : PublicSnapshot} :
    FailsWith TeamError.IsPlain (s.prepareIntent plan input snapshot limits) := by
  refine FailsWith.bind (.okOr rfl) fun _ => FailsWith.bind ?_ fun _ =>
    .bind plain_validateRecipient fun _ => .ok _
  exact FailsWith.bind (.okOr rfl) fun _ => .bind plain_instructions fun _ =>
    .bind (.failIf rfl) fun _ => .bind (.mapError fun _ _ => rfl) fun _ => .ok _

theorem plain_stageIntents {d : Discussion} {stage : Stage} {snapshot : PublicSnapshot} :
    FailsWith TeamError.IsPlain (s.stageIntents d stage snapshot limits) := by
  refine FailsWith.foldlM fun state a => ?_
  obtain ⟨ready, intents⟩ := state
  dsimp only
  split
  · exact .ok _
  · exact FailsWith.bind plain_prepareIntent fun _ => .ok _

theorem plain_directIntents {recipients : List MemberId} :
    FailsWith TeamError.IsPlain (s.directIntents input recipients limits) := by
  rw [directIntents]
  exact FailsWith.bind plain_validateInput fun _ => .bind (.failIf rfl) fun _ =>
    FailsWith.mapM fun _ => plain_prepareIntent

end TeamSession

end

/-! ## What is saved -/

variable {J : Serde Room} [TeamText] {n : ℕ} {op : Operation}

namespace TeamSession

def saving (next : Room) (write : WriteOutcome) : Commit Room StorageError :=
  { next, check := checkUpdate, write }

/-- Rooms that changes lead to are saved, one after the other. -/
inductive Saves (n : ℕ) (op : Operation) : Storage J → Storage J → Prop
  | refl (st : Storage J) : Saves n op st st
  | step {st st' : Storage J} {next : Room} (write : WriteOutcome) (h : Saves n op st st')
    (hc : Change n op st'.store.value next) :
    Saves n op st (st'.commit roomFormat (saving next write)).2

theorem Saves.trans {st st' st'' : Storage J} (h : Saves n op st st') (h' : Saves n op st' st'') :
    Saves n op st st'' := by
  induction h' with
  | refl => exact h
  | step write _ hc ih => exact ih.step write hc

/-- The store refuses, with an error, a room that a change leads to. -/
def Refuses (n : ℕ) (op : Operation) (st : Storage J) (e : StorageError) : Prop :=
  ∃ st' next write, Saves n op st st' ∧ Change n op st'.store.value next ∧
    (st'.commit roomFormat (saving next write)).1 = .error e

/-- What an outcome of an operation saves, and where its storage error comes from. -/
structure Saved (n : ℕ) (op : Operation) (st : Storage J) {α : Type} (x : Outcome J α) : Prop where
  saves : Saves n op st x.2.storage
  refused : FailsWith (fun e => ∀ e', e.storageError? = some e' → Refuses n op st e') x.1

/-- An outcome that saves, and changes nothing else in the session. -/
structure Traced (n : ℕ) (op : Operation) (s : TeamSession J) {α : Type} (x : Outcome J α) : Prop
    extends Saved n op s.storage x where
  readiness : x.2.readiness = s.readiness
  unresolved : x.2.unresolved = s.unresolved
  serial : x.2.serial = s.serial

section

variable {s : TeamSession J} {α β : Type}

theorem Traced.keep {result : Except TeamError α} (h : FailsWith TeamError.IsPlain result) :
    Traced n op s (result, s) := by
  refine ⟨⟨.refl _, fun e he e' he' => ?_⟩, rfl, rfl, rfl⟩
  rw [h e he] at he'
  cases he'

theorem Traced.ok (a : α) : Traced n op s (.ok a, s) := .keep (.ok a)

variable {e : TeamError} {s' : TeamSession J} {wrap : StorageError → TeamError} {next : Room}
  {a : α} {plan : Except TeamError (α × Room)}

theorem Traced.error (h : e.IsPlain) :
    Traced n op s ((.error e : Except TeamError α), s) := .keep (.error h)

theorem Saved.ok (a : α) : Saved n op s.storage ((.ok a, s) : Outcome J α) := (Traced.ok a).toSaved

theorem Saved.error (h : e.IsPlain) :
    Saved n op s.storage ((.error e, s) : Outcome J α) := (Traced.error h).toSaved

theorem Traced.andThen {x : Outcome J α} {f : α → TeamSession J → Outcome J β}
    (hx : Traced n op s x) (hf : ∀ a s', x = (.ok a, s') → Traced n op s' (f a s')) :
    Traced n op s (andThen x f) := by
  rcases x with ⟨e | a, s'⟩
  · exact ⟨⟨hx.saves, .error (hx.refused e rfl)⟩, hx.readiness, hx.unresolved, hx.serial⟩
  · have h := hf a s' rfl
    refine ⟨⟨hx.saves.trans h.saves, fun e he e' he' => ?_⟩, h.readiness.trans hx.readiness,
      h.unresolved.trans hx.unresolved, h.serial.trans hx.serial⟩
    obtain ⟨st, next, write, hs, hc, hr⟩ := h.refused e he e' he'
    exact ⟨st, next, write, hx.saves.trans hs, hc, hr⟩

/-- An outcome that is followed by a change of what the session knows. -/
theorem Traced.saved_andThen {x : Outcome J α} {f : α → TeamSession J → Outcome J β}
    (hx : Traced n op s x) (hf : ∀ a s', (f a s').2.storage = s'.storage ∧ ∃ b, (f a s').1 = .ok b) :
    Saved n op s.storage (TeamSession.andThen x f) := by
  rcases x with ⟨e | a, s'⟩
  · exact ⟨hx.saves, .error (hx.refused e rfl)⟩
  · obtain ⟨hst, b, hb⟩ := hf a s'
    refine ⟨?_, fun e he => ?_⟩
    · rw [TeamSession.andThen, hst]
      exact hx.saves
    · rw [TeamSession.andThen, hb] at he
      cases he

/-- Something else is saved before an error is returned. -/
theorem Traced.handle {γ : Type} {y : Outcome J γ}
    (hx : Traced n op s ((.error e, s') : Outcome J α)) (hy : Traced n op s' y) :
    Traced n op s (TeamSession.andThen y fun _ s => (.error e, s) : Outcome J β) := by
  rcases y with ⟨e' | c, t⟩
  · refine ⟨⟨hx.saves.trans hy.saves, .error fun e'' he => ?_⟩, hy.readiness.trans hx.readiness,
      hy.unresolved.trans hx.unresolved, hy.serial.trans hx.serial⟩
    obtain ⟨st, next, write, hs, hc, hr⟩ := hy.refused e' rfl e'' he
    exact ⟨st, next, write, hx.saves.trans hs, hc, hr⟩
  · exact ⟨⟨hx.saves.trans hy.saves, .error (hx.refused e rfl)⟩, hy.readiness.trans hx.readiness,
      hy.unresolved.trans hx.unresolved, hy.serial.trans hx.serial⟩

theorem Traced.save (hw : ∀ e, (wrap e).storageError? = some e) (hc : Change n op s.room next) :
    Traced n op s (s.save wrap next a) := by
  have hrefl : Saves n op s.storage s.storage := .refl s.storage
  have hsaves := hrefl.step (s.writes.headD .done) hc
  rw [TeamSession.save, TeamSession.commit]
  rcases h : s.storage.commit roomFormat (saving next (s.writes.headD .done)) with ⟨e | _, st⟩
  · rw [h] at hsaves
    simp only [saving] at h
    simp only [h]
    refine ⟨⟨hsaves, .error fun e' he' => ?_⟩, rfl, rfl, rfl⟩
    obtain rfl := Option.some.inj ((hw e).symm.trans he')
    exact ⟨_, next, s.writes.headD .done, .refl _, hc, by simp only [saving, h]⟩
  · rw [h] at hsaves
    simp only [saving] at h
    simp only [h]
    exact ⟨⟨hsaves, .ok a⟩, rfl, rfl, rfl⟩

theorem Traced.perform (hp : FailsWith TeamError.IsPlain plan)
    (hc : ∀ a next, plan = .ok (a, next) → Change n op s.room next) :
    Traced n op s (s.perform plan) := by
  rcases plan with e | ⟨a, next⟩
  · exact .error (hp e rfl)
  · exact .save (fun _ => rfl) (hc a next rfl)

theorem commit_ok {st st' : Storage J} {write : WriteOutcome}
    (h : st.commit roomFormat (saving next write) = (.ok (), st')) : st'.store.value = next := by
  rcases Storage.commitStep roomFormat h with - | ⟨-, he⟩ | ⟨image, hw, hs, hi⟩ | -
  · exact (beq_iff_eq.mp he).symm
  · rfl

/-- Memory keeps its room when the save fails. -/
theorem commit_error {st st' : Storage J} {write : WriteOutcome} {e : StorageError}
    (h : st.commit roomFormat (saving next write) = (.error e, st')) :
    st'.store.value = st.store.value := by
  rcases Storage.commitStep roomFormat h with _ | - | - | ⟨_, file, hw, hs, hf⟩ <;> rfl

theorem save_ok {a b : α} (h : s.save wrap next a = (.ok b, s')) : s'.room = next := by
  rw [TeamSession.save, TeamSession.commit] at h
  rcases hc : s.storage.commit roomFormat (saving next (s.writes.headD .done)) with ⟨e | _, st⟩ <;>
    have hc' := hc <;> rw [saving] at hc <;> simp only [hc] at h <;> cases h
  exact commit_ok hc'

theorem not_failed_of_save {a b : α}
    (h : s.save wrap next a = (.ok b, s')) : s'.storage.store.failed = false := by
  rw [TeamSession.save, TeamSession.commit] at h
  rcases hc : s.storage.commit roomFormat (saving next (s.writes.headD .done)) with ⟨e | _, st⟩ <;>
    have hc' := hc <;> rw [saving] at hc <;> simp only [hc] at h <;> cases h
  exact Storage.not_failed_of_ok roomFormat hc'

theorem save_error (h : s.save wrap next a = (.error e, s')) : s'.room = s.room := by
  rw [TeamSession.save, TeamSession.commit] at h
  rcases hc : s.storage.commit roomFormat (saving next (s.writes.headD .done)) with ⟨e | _, st⟩ <;>
    have hc' := hc <;> rw [saving] at hc <;> simp only [hc] at h <;> cases h
  exact commit_error hc'

theorem save_storage :
    (s.save wrap next a).2.storage =
      (s.storage.commit roomFormat (saving next (s.writes.headD .done))).2 := by
  rw [TeamSession.save, TeamSession.commit, saving]
  dsimp only
  rcases s.storage.commit roomFormat _ with ⟨e | _, st⟩ <;> rfl

theorem perform_ok (h : s.perform plan = (.ok a, s')) : plan = .ok (a, s'.room) := by
  rcases plan with e | ⟨b, next⟩
  · cases h
  · have hroom := save_ok h
    have ha : b = a := by
      rw [TeamSession.perform, TeamSession.save] at h
      split at h <;> cases h
      rfl
    rw [hroom, ha]

theorem perform_error (h : s.perform plan = (.error e, s')) : s'.room = s.room := by
  rcases plan with e | ⟨b, next⟩
  · cases h
    rfl
  · exact save_error h

end

end TeamSession

end NiumaTerm.Team
