import NiumaTerm.Orchestration.Consistency
import NiumaTerm.Orchestration.Store

/-!
# What a crash leaves of a run

The record in memory only moves on, also where a write fails or the run is opened again, and the file is
at most one transition ahead of it: `saving` refines `runs` (`saved_forward`).
-/

namespace NiumaTerm.Orchestration

open Rust Transition Durable List

variable {J : Serde RunRecord} {g : Graph} {s s' : Saving J} {labels : List SavingLabel}

/-- The action of a task names a node or slot of the graph. -/
def Task.InRange (g : Graph) : Task → Prop
  | .update action => action.InRange g
  | _ => True

instance (g : Graph) : DecidablePred (Task.InRange g)
  | .update action => inferInstanceAs (Decidable (action.InRange g))
  | .savePrompt .. | .saveOutput .. | .saveTranscript .. => inferInstanceAs (Decidable True)

/-- A job that starts is about nodes and slots of the graph. -/
def Saving.InRange (g : Graph) (s : Saving J) : SavingLabel → Prop
  | .start job => ∀ task ∈ job.tasks g s.store, task.InRange g
  | _ => True

instance (g : Graph) (s : Saving J) : DecidablePred (s.InRange g)
  | .start job => inferInstanceAs (Decidable (∀ task ∈ job.tasks g s.store, task.InRange g))
  | .write _ | .reopen _ => inferInstanceAs (Decidable True)

/-- One record is the other, or one transition ahead. -/
def Ahead (g : Graph) (r r' : RunRecord) : Prop := ∃ later, Steps (runs g) r later r' ∧ later.length ≤ 1

theorem Ahead.refl (g : Graph) (r : RunRecord) : Ahead g r r := ⟨[], .refl r, Nat.zero_le 1⟩

theorem Ahead.perform {a : Action} (ha : a.InRange g) (r : RunRecord) : Ahead g r (r.perform g a).2 :=
  ⟨[(a, (r.perform g a).1)], .single ⟨ha, rfl⟩, Nat.le_refl 1⟩

/-- What the file can be read as is memory's record or one transition ahead. -/
structure Saving.Follows (g : Graph) (s : Saving J) : Prop where
  file : ∃ cell, s.store.storage.Represents runFormat cell ∧ cell.All fun v => Ahead g s.store.run v.2
  job : ∀ task ∈ s.job, task.InRange g

/-- A task saves a file, or commits the record after its action. -/
theorem Task.storage_perform {store store' : RunStore J} {task : Task} {outcome : WriteOutcome}
    {result : Except RunStoreError Unit} (h : task.perform g store outcome = (result, store')) :
    store'.storage = store.storage ∨ ∃ a, task = .update a ∧
      store'.storage = (store.storage.commit runFormat (store.updating (·.perform g a) outcome)).2 := by
  rcases task with _ | _ | _ | a
  case update =>
    refine .inr ⟨a, rfl, ?_⟩
    have hs := congrArg RunStore.storage (store.update_snd (·.perform g a) outcome)
    rw [Task.perform] at h
    split at h <;> next he =>
      cases h
      rwa [he] at hs
  all_goals
    cases h
    exact .inl rfl

theorem Saving.Follows.write {store : RunStore J} {task : Task} {rest job : List Task} {outcome : WriteOutcome}
    {result : Except RunStoreError Unit} (h : s.Follows g) (hj : s.job = task :: rest) (hr : job ⊆ rest)
    (hp : task.perform g s.store outcome = (result, store)) :
    Saving.Follows g { store, job } ∧ Ahead g s.store.run store.run := by
  have hjob : ∀ task ∈ job, task.InRange g := fun task ht => h.job task (hj ▸ mem_cons_of_mem _ (hr ht))
  obtain ⟨cell, hrep, hall⟩ := h.file
  have hsame (hs : store.storage = s.store.storage) :
      Saving.Follows g { store, job } ∧ Ahead g s.store.run store.run := by
    have hrun : store.run = s.store.run := congrArg (·.store.value) hs
    exact ⟨⟨⟨cell, by rwa [hs], by rwa [hrun]⟩, hjob⟩, hrun ▸ .refl g _⟩
  rcases Task.storage_perform hp with hs | ⟨a, rfl, hs⟩
  · exact hsame hs
  have hc : s.store.storage.commit runFormat (s.store.updating (·.perform g a) outcome) = (_, store.storage) :=
    Prod.ext rfl hs.symm
  have hstep : Ahead g s.store.run (s.store.run.perform g a).2 := .perform (h.job (.update a) (hj ▸ mem_cons_self)) _
  have hmem : cell.memory.2 = s.store.run := congrArg Prod.snd hrep.memory
  rcases hrep.commit hc with hs | ⟨-, cell', hrep', hwrite⟩
  · exact hsame hs
  have hmem' : cell'.memory.2 = store.run := congrArg Prod.snd hrep'.memory
  rcases hwrite with ⟨v, -⟩ | ⟨v, -⟩
  · have hnew : store.run = (s.store.run.perform g a).2 := hmem'.symm
    exact ⟨⟨⟨_, hrep', Cell.all_settled.mpr (hmem' ▸ .refl g _)⟩, hjob⟩, hnew ▸ hstep⟩
  · have hold : store.run = s.store.run := hmem'.symm.trans hmem
    refine ⟨⟨⟨_, hrep', ?_⟩, hjob⟩, hold ▸ .refl g _⟩
    rintro w (rfl | rfl)
    · exact hmem' ▸ .refl g _
    · exact hold ▸ hstep

/-- **Every step goes on from the record in memory,** by at most one transition. -/
theorem Saving.Follows.step {label : SavingLabel} (h : s.Follows g) (hl : s.InRange g label)
    (hs : s.step g label = some s') : s'.Follows g ∧ Ahead g s.store.run s'.store.run := by
  rcases label with job | outcome | id <;> rw [Saving.step] at hs
  case start =>
    split at hs <;> cases hs
    exact ⟨⟨h.file, hl⟩, .refl g _⟩
  case write =>
    split at hs
    · cases hs
    next task rest hj =>
    split at hs <;> cases hs <;> next hp =>
      first
      | exact h.write hj (nil_subset _) hp
      | exact h.write hj (Subset.refl _) hp
  case reopen =>
    split at hs <;> cases hs
    next store hr =>
    obtain ⟨cell, hrep, hall⟩ := h.file
    obtain ⟨v, hv, hheld⟩ := hrep.openStore
    rw [RunStore.reopen, hv] at hr
    dsimp only at hr
    split at hr <;> cases hr
    refine ⟨⟨⟨_, .settled (synced_openStore hv), Cell.all_settled.mpr (.refl g _)⟩, ?_⟩, hall v hheld⟩
    intro task ht
    rw [mem_singleton.mp ht]
    trivial

end NiumaTerm.Orchestration
