import NiumaTerm.BackgroundTask.Registry
import NiumaTerm.Lib.Transition

/-!
# Restored rows

Rows are read back from storage while live updates come in.  `restored_exact` says for which of them a
newer row is only completed, and one that has not changed live takes the restored state.
-/

namespace NiumaTerm.BackgroundTask

open Transition List

/-! ## One patch -/

/-- What a patch makes of each field of a row. -/
structure Patched (row : BackgroundTaskSummary) (update : BackgroundTaskUpdate)
    (row' : BackgroundTaskSummary) : Prop where
  refs : row'.refs = update.refs.elim row.refs row.refs.mergeFrom
  kind : row'.kind = update.kind.getD row.kind
  state : row'.state = update.state.getD row.state
  displayName : row'.displayName = update.displayName.or row.displayName
  objective : row'.objective = update.objective.or row.objective
  status : row'.status = update.status.or row.status
  lastPreview : row'.lastPreview = update.lastPreview.or row.lastPreview
  startedAt : row'.startedAt = earliest row.startedAt update.startedAt
  completedAt : row'.completedAt = update.completedAt.or row.completedAt

theorem patched_mergeUpdate (row : BackgroundTaskSummary) (update : BackgroundTaskUpdate)
    (sequence : ℕ) : Patched row update (mergeUpdate row update sequence).2 := by
  rw [mergeUpdate]
  split
  · next h =>
    exact ⟨(congrArg (·.refs) h).symm, (congrArg (·.kind) h).symm, (congrArg (·.state) h).symm,
      (congrArg (·.displayName) h).symm, (congrArg (·.objective) h).symm,
      (congrArg (·.status) h).symm, (congrArg (·.lastPreview) h).symm,
      (congrArg (·.startedAt) h).symm, (congrArg (·.completedAt) h).symm⟩
  · exact ⟨rfl, rfl, rfl, rfl, rfl, rfl, rfl, rfl, rfl⟩

/-- A patch that changes nothing leaves the row, and any other numbers it. -/
theorem mergeUpdate_cases (row : BackgroundTaskSummary) (update : BackgroundTaskUpdate)
    (sequence : ℕ) : mergeUpdate row update sequence = (false, row) ∨
      (mergeUpdate row update sequence).1 = true ∧
        (mergeUpdate row update sequence).2.sequence = sequence := by
  rw [mergeUpdate]
  split
  · exact .inl rfl
  · exact .inr ⟨rfl, rfl⟩

namespace BackgroundTaskRegistry

variable {r : BackgroundTaskRegistry} {key : BackgroundTaskKey}

/-- The row that a patch for a key is applied to. -/
def rowFor (r : BackgroundTaskRegistry) (key : BackgroundTaskKey) (update : BackgroundTaskUpdate) :
    BackgroundTaskSummary :=
  (r.get key).getD
    { key, parentSession := r.parentSession, refs := update.refs.getD (defaultRefs key)
      sequence := r.sequence + 1 }

theorem get_apply_self (r : BackgroundTaskRegistry) (key : BackgroundTaskKey)
    (update : BackgroundTaskUpdate) : (r.apply key update).2.get key =
      some (mergeUpdate (r.rowFor key update) update (r.sequence + 1)).2 := by
  rw [apply, rowFor]
  split
  · next existing he =>
    rw [he, Option.getD_some]
    have hkey : existing.key = key := by simpa using find?_some he
    have hmerged := (mergeUpdate_key existing update (r.sequence + 1)).trans hkey
    obtain ⟨before, after, htasks, hbefore⟩ :
        ∃ before after, r.tasks = before ++ existing :: after ∧
          ∀ task ∈ before, task.key ≠ key := by
      obtain ⟨-, before, after, htasks, hbefore⟩ := find?_eq_some_iff_append.mp he
      exact ⟨before, after, htasks, fun task ht => by simpa using hbefore task ht⟩
    rw [get]
    dsimp only
    rw [htasks, map_append, map_cons, if_pos hkey, find?_append]
    have hnone : ((before.map fun task =>
        if task.key = key then (mergeUpdate existing update (r.sequence + 1)).2 else task).find?
          fun task => task.key = key) = none := by
      refine find?_eq_none.mpr fun task ht => ?_
      obtain ⟨old, hold, rfl⟩ := mem_map.mp ht
      simp [hbefore old hold]
    rw [hnone, Option.none_or, find?_cons_of_pos (by simpa using hmerged)]
  · next hnone =>
    rw [hnone, Option.getD_none, get, find?_append]
    rw [show r.tasks.find? (fun task => task.key = key) = none from hnone, Option.none_or]
    exact find?_cons_of_pos (by simp [mergeUpdate_key])

/-- What a patch does to the registry. -/
inductive Applied (r : BackgroundTaskRegistry) (key : BackgroundTaskKey)
    (update : BackgroundTaskUpdate) : Bool × BackgroundTaskRegistry → Prop
  | unchanged (row : BackgroundTaskSummary) (r' : BackgroundTaskRegistry)
    (hrow : r.get key = some row) (hpatched : Patched row update row) (hget : ∀ other, r'.get other = r.get other)
    (hsequence : r'.sequence = r.sequence) (hactivity : r'.activity = r.activity) :
    Applied r key update (false, r')
  | changed (row : BackgroundTaskSummary) (r' : BackgroundTaskRegistry)
    (hpatched : Patched (r.rowFor key update) update row) (hrow : r'.get key = some row)
    (hother : ∀ other, other ≠ key → r'.get other = r.get other)
    (hnew : row.sequence = r.sequence + 1) (hsequence : r'.sequence = r.sequence + 1)
    (hactivity : r'.activity = r.activity +
      if (r.get key).map (·.state) = some row.state then 0 else 1) :
    Applied r key update (true, r')

theorem applied_apply (r : BackgroundTaskRegistry) (key : BackgroundTaskKey)
    (update : BackgroundTaskUpdate) : r.Applied key update (r.apply key update) := by
  have hself := r.get_apply_self key update
  have hother (other : BackgroundTaskKey) (h : other ≠ key) := get_apply_of_ne (r := r) h update
  have hpatched := patched_mergeUpdate (r.rowFor key update) update (r.sequence + 1)
  have hmerge := mergeUpdate_cases (r.rowFor key update) update (r.sequence + 1)
  generalize hresult : r.apply key update = result at hself hother ⊢
  rw [apply] at hresult
  cases hget : r.get key with
  | some existing =>
    rw [rowFor, hget, Option.getD_some] at hself hpatched hmerge
    rw [hget] at hresult
    dsimp only at hresult
    rcases hmerge with hmerged | ⟨hchanged, hnew⟩
    · rw [hmerged] at hself hpatched hresult
      subst hresult
      refine .unchanged existing _ hget hpatched (fun other => ?_) rfl (if_pos rfl)
      by_cases h : other = key
      · rw [h, hget]
        exact hself
      · exact hother other h
    · rw [hchanged] at hresult
      subst hresult
      refine .changed _ _ ?_ hself hother hnew rfl ?_
      · rwa [rowFor, hget, Option.getD_some]
      · simp only [hget, Option.map_some, Option.some.injEq, @eq_comm _ existing.state]
        split <;> rfl
  | none =>
    rw [hget] at hresult
    subst hresult
    refine .changed _ _ hpatched hself hother ?_ rfl (by simp [hget])
    rcases hmerge with hmerged | ⟨-, hnew⟩
    · rw [hmerged, rowFor, hget]
      rfl
    · exact hnew

variable {update : BackgroundTaskUpdate}

/-- Rows are numbered, none above the registry. -/
def Numbered (r : BackgroundTaskRegistry) : Prop :=
  ∀ key, ∀ row ∈ r.get key, row.sequence ≤ r.sequence

theorem sequence_le_apply (r : BackgroundTaskRegistry) (key : BackgroundTaskKey)
    (update : BackgroundTaskUpdate) : r.sequence ≤ (r.apply key update).2.sequence := by
  have happlied := r.applied_apply key update
  generalize r.apply key update = result at happlied ⊢
  cases happlied with
  | unchanged _ _ _ _ _ hsequence => exact hsequence.ge
  | changed _ _ _ _ _ _ hsequence => exact hsequence.ge.trans' (Nat.le_succ _)

theorem Numbered.apply (h : r.Numbered) (key : BackgroundTaskKey) (update : BackgroundTaskUpdate) :
    (r.apply key update).2.Numbered := by
  have happlied := r.applied_apply key update
  generalize r.apply key update = result at happlied ⊢
  cases happlied with
  | unchanged _ r' _ _ hget hsequence =>
    intro other row hrow
    rw [hget] at hrow
    exact (h other row hrow).trans hsequence.ge
  | changed new r' _ hnew hother hrow hsequence =>
    intro other row hget
    by_cases hkey : other = key
    · subst hkey
      obtain rfl := Option.some.inj (hnew.symm.trans hget)
      exact hrow.le.trans hsequence.ge
    · rw [hother other hkey] at hget
      exact (h other row hget).trans (hsequence.ge.trans' (Nat.le_succ _))

theorem Numbered.newer (h : r.Numbered) {start : ℕ} {other : BackgroundTaskKey}
    (hnewer : ∃ row ∈ r.get other, start < row.sequence) (key : BackgroundTaskKey)
    (update : BackgroundTaskUpdate) :
    ∃ row ∈ (r.apply key update).2.get other, start < row.sequence := by
  obtain ⟨row, hrow, hlt⟩ := hnewer
  have happlied := r.applied_apply key update
  generalize r.apply key update = result at happlied ⊢
  cases happlied with
  | unchanged _ r' _ _ hget => exact ⟨row, by rwa [hget], hlt⟩
  | changed new r' _ hnew hother hsequence =>
    by_cases hkey : other = key
    · subst hkey
      have := h other row hrow
      exact ⟨new, hnew, by omega⟩
    · exact ⟨row, by rwa [hother other hkey], hlt⟩

end BackgroundTaskRegistry

/-! ## Reads of stored rows -/

/-- The sequence that was captured when the read began, and the rows that have changed live since.
-/
structure StoredRead where
  startingSequence : ℕ
  changed : List BackgroundTaskKey
  deriving DecidableEq

/-- A registry, and the reads that have begun. -/
structure Restoring where
  registry : BackgroundTaskRegistry
  reads : List StoredRead

inductive RestoreAction
  | live (key : BackgroundTaskKey) (update : BackgroundTaskUpdate)
  | readBegan
  | restored (read : ℕ) (key : BackgroundTaskKey) (update : BackgroundTaskUpdate)

namespace Restoring

variable (w : Restoring)

/-- The registry after a live update, and whether a row has changed. -/
def live (key : BackgroundTaskKey) (update : BackgroundTaskUpdate) : Restoring where
  registry := (w.registry.apply key update).2
  reads :=
    if (w.registry.apply key update).1 then
      w.reads.map fun read => { read with changed := key :: read.changed }
    else w.reads

def restore (read : StoredRead) (key : BackgroundTaskKey) (update : BackgroundTaskUpdate) :
    Restoring :=
  { w with registry := (w.registry.mergeRestored key update read.startingSequence).2 }

def perform : RestoreAction → Restoring
  | .live key update => w.live key update
  | .readBegan => { w with reads := w.reads ++ [⟨w.registry.sequence, []⟩] }
  | .restored index key update =>
    match w.reads[index]? with
    | some read => w.restore read key update
    | none => w

end Restoring

/-- All runs of a registry. -/
def restorations : System Restoring RestoreAction where
  init w := ∃ parentSession, w = ⟨.new parentSession, []⟩
  step w action w' := w' = w.perform action

/-! ## Restored rows -/

/-- A restored row leaves what is known of a row as it was, and fills what is missing; the earliest
start wins. -/
structure Completed (row : BackgroundTaskSummary) (update : BackgroundTaskUpdate)
    (row' : BackgroundTaskSummary) : Prop where
  state : row'.state = row.state
  completedAt : row'.completedAt = row.completedAt
  kind : row'.kind = row.kind
  refs : row'.refs = update.refs.elim row.refs row.refs.mergeFrom
  displayName : row'.displayName = row.displayName.or update.displayName
  objective : row'.objective = row.objective.or update.objective
  status : row'.status = row.status.or update.status
  lastPreview : row'.lastPreview = row.lastPreview.or update.lastPreview
  startedAt : row'.startedAt = earliest row.startedAt update.startedAt

/-- What is known already is not contradicted. -/
def Agrees {α : Type} (known incoming : Option α) : Prop := ∀ a ∈ known, ∀ b ∈ incoming, a = b

theorem or_comm_iff_agrees {α : Type} {known incoming : Option α} :
    incoming.or known = known.or incoming ↔ Agrees known incoming := by
  cases known <;> cases incoming <;> simp [Agrees, eq_comm]

/-- The row that is restored agrees with the one that is known. -/
structure Compatible (row : BackgroundTaskSummary) (update : BackgroundTaskUpdate) : Prop where
  kind : Agrees (some row.kind) update.kind
  displayName : Agrees row.displayName update.displayName
  objective : Agrees row.objective update.objective
  status : Agrees row.status update.status
  lastPreview : Agrees row.lastPreview update.lastPreview

theorem completed_iff_compatible {row row' : BackgroundTaskSummary} {update : BackgroundTaskUpdate}
    (h : Patched row { update with state := none, completedAt := none } row') :
    Completed row update row' ↔ Compatible row update := by
  have hkind : row'.kind = row.kind ↔ Agrees (some row.kind) update.kind := by
    rw [h.kind]
    cases update.kind <;> simp [Agrees, eq_comm]
  constructor
  · intro hc
    exact ⟨hkind.mp hc.kind, or_comm_iff_agrees.mp (h.displayName.symm.trans hc.displayName),
      or_comm_iff_agrees.mp (h.objective.symm.trans hc.objective),
      or_comm_iff_agrees.mp (h.status.symm.trans hc.status),
      or_comm_iff_agrees.mp (h.lastPreview.symm.trans hc.lastPreview)⟩
  · intro hc
    exact ⟨h.state, h.completedAt, hkind.mpr hc.kind, h.refs,
      h.displayName.trans (or_comm_iff_agrees.mpr hc.displayName),
      h.objective.trans (or_comm_iff_agrees.mpr hc.objective),
      h.status.trans (or_comm_iff_agrees.mpr hc.status),
      h.lastPreview.trans (or_comm_iff_agrees.mpr hc.lastPreview), h.startedAt⟩

namespace Restoring

variable (w : Restoring)

/-- A row that has changed live since the read began is only completed, and any other takes the
restored state. -/
structure Respects (read : StoredRead) (key : BackgroundTaskKey) (update : BackgroundTaskUpdate) :
    Prop where
  newer : key ∈ read.changed → ∃ row ∈ w.registry.get key,
    ∃ row' ∈ (w.restore read key update).registry.get key, Completed row update row'
  older : key ∉ read.changed → ∃ row' ∈ (w.restore read key update).registry.get key,
    ∀ state ∈ update.state, row'.state = state

/-- A row that has changed live agrees with the restored one; and a row that has not, has the
restored state unless no other read has changed it since this one began. -/
def Restores (read : StoredRead) (key : BackgroundTaskKey) (update : BackgroundTaskUpdate) : Prop :=
  ∀ row ∈ w.registry.get key, if key ∈ read.changed then Compatible row update
    else row.sequence ≤ read.startingSequence ∨ Agrees (some row.state) update.state

variable {w : Restoring} {read : StoredRead} {key : BackgroundTaskKey}

theorem get_restore_older (update : BackgroundTaskUpdate)
    (h : ∀ row ∈ w.registry.get key, row.sequence ≤ read.startingSequence) :
    ∃ row', (w.restore read key update).registry.get key = some row' ∧
      Patched (w.registry.rowFor key update) update row' := by
  have holder : ¬ (w.registry.get key).any (read.startingSequence < ·.sequence) = true := by
    rw [Option.any_eq_true]
    rintro ⟨row, hrow, hlt⟩
    exact absurd (of_decide_eq_true hlt) (Nat.not_lt.mpr (h row hrow))
  rw [restore, BackgroundTaskRegistry.mergeRestored, if_neg holder]
  exact ⟨_, w.registry.get_apply_self key update, patched_mergeUpdate ..⟩

/-- A newer row accepts neither a state nor a completion time. -/
theorem get_restore_newer (update : BackgroundTaskUpdate) {row : BackgroundTaskSummary}
    (hrow : w.registry.get key = some row) (h : read.startingSequence < row.sequence) :
    ∃ row', (w.restore read key update).registry.get key = some row' ∧
      Patched row { update with state := none, completedAt := none } row' := by
  have hnewer : (w.registry.get key).any (read.startingSequence < ·.sequence) = true := by
    rw [hrow]
    exact decide_eq_true h
  have hself := w.registry.get_apply_self key { update with state := none, completedAt := none }
  rw [BackgroundTaskRegistry.rowFor, hrow, Option.getD_some] at hself
  rw [restore, BackgroundTaskRegistry.mergeRestored, if_pos hnewer]
  exact ⟨_, hself, patched_mergeUpdate ..⟩

theorem respects_iff_of_live {update : BackgroundTaskUpdate} (hchanged : key ∈ read.changed)
    {row : BackgroundTaskSummary} (hrow : w.registry.get key = some row)
    (hlt : read.startingSequence < row.sequence) :
    w.Respects read key update ↔ w.Restores read key update := by
  obtain ⟨row', hrow', hpatched⟩ := get_restore_newer update hrow hlt
  have hcompleted := completed_iff_compatible hpatched
  constructor
  · intro h known hknown
    obtain rfl : row = known := Option.some.inj (hrow.symm.trans hknown)
    obtain ⟨_, hold, _, hnew, hc⟩ := h.newer hchanged
    obtain rfl := Option.some.inj (hrow.symm.trans hold)
    obtain rfl := Option.some.inj (hrow'.symm.trans hnew)
    rw [if_pos hchanged]
    exact hcompleted.mp hc
  · intro h
    have hc := h row hrow
    rw [if_pos hchanged] at hc
    exact ⟨fun _ => ⟨row, hrow, row', hrow', hcompleted.mpr hc⟩, fun hnot => absurd hchanged hnot⟩

theorem respects_iff_of_not_live {update : BackgroundTaskUpdate} (hchanged : key ∉ read.changed) :
    w.Respects read key update ↔ w.Restores read key update := by
  by_cases hnewer : ∃ row, w.registry.get key = some row ∧ read.startingSequence < row.sequence
  · obtain ⟨row, hrow, hlt⟩ := hnewer
    obtain ⟨row', hrow', hpatched⟩ := get_restore_newer update hrow hlt
    have hstate : row'.state = row.state := hpatched.state
    constructor
    · intro h known hknown
      obtain rfl : row = known := Option.some.inj (hrow.symm.trans hknown)
      obtain ⟨_, hnew, htaken⟩ := h.older hchanged
      obtain rfl := Option.some.inj (hrow'.symm.trans hnew)
      rw [if_neg hchanged]
      refine .inr fun a ha b hb => ?_
      rw [← Option.some.inj ha, ← htaken b hb, hstate]
    · intro h
      have hagrees := h row hrow
      rw [if_neg hchanged] at hagrees
      refine ⟨fun hmem => absurd hmem hchanged, fun _ => ⟨row', hrow', fun state hs => ?_⟩⟩
      rw [hstate]
      exact (hagrees.resolve_left (Nat.not_le.mpr hlt)) row.state rfl state hs
  · have hle : ∀ row ∈ w.registry.get key, row.sequence ≤ read.startingSequence :=
      fun row hrow => Nat.not_lt.mp fun hlt => hnewer ⟨row, hrow, hlt⟩
    obtain ⟨row', hrow', hpatched⟩ := get_restore_older update hle
    refine iff_of_true ⟨fun hmem => absurd hmem hchanged, fun _ => ⟨row', hrow', fun state hs => ?_⟩⟩
      fun row hrow => ?_
    · rw [hpatched.state, hs, Option.getD_some]
    · rw [if_neg hchanged]
      exact .inl (hle row hrow)

/-! ## Runs -/

/-- The registry numbers its rows, and a row that has changed live since a read began is newer than
the read. -/
structure Inv (w : Restoring) : Prop where
  numbered : w.registry.Numbered
  started : ∀ read ∈ w.reads, read.startingSequence ≤ w.registry.sequence
  newer : ∀ read ∈ w.reads, ∀ key ∈ read.changed,
    ∃ row ∈ w.registry.get key, read.startingSequence < row.sequence

theorem Inv.live (h : w.Inv) (key : BackgroundTaskKey) (update : BackgroundTaskUpdate) :
    (w.live key update).Inv := by
  have hle := w.registry.sequence_le_apply key update
  refine ⟨h.numbered.apply key update, fun read hread => ?_, fun read hread other hother => ?_⟩
  · rw [Restoring.live] at hread
    dsimp only at hread
    split at hread
    · obtain ⟨old, hold, rfl⟩ := mem_map.mp hread
      exact (h.started old hold).trans hle
    · exact (h.started read hread).trans hle
  · rw [Restoring.live] at hread
    dsimp only at hread
    split at hread
    · next hchanged =>
      obtain ⟨old, hold, rfl⟩ := mem_map.mp hread
      rcases mem_cons.mp hother with rfl | hother
      · -- the row that has just changed
        have hstart := h.started old hold
        have happlied := w.registry.applied_apply other update
        change ∃ row ∈ (w.registry.apply other update).2.get other,
          old.startingSequence < row.sequence
        generalize w.registry.apply other update = result at happlied hchanged ⊢
        cases happlied with
        | unchanged => cases hchanged
        | changed row _ _ hrow _ hnew => exact ⟨row, hrow, by omega⟩
      · exact h.numbered.newer (h.newer old hold other hother) key update
    · exact h.numbered.newer (h.newer read hread other hother) key update

theorem Inv.restore (h : w.Inv) (read : StoredRead) (key : BackgroundTaskKey)
    (update : BackgroundTaskUpdate) : (w.restore read key update).Inv := by
  obtain ⟨accepted, haccepted⟩ :=
    @BackgroundTaskRegistry.mergeRestored_eq w.registry key update read.startingSequence
  rw [Restoring.restore, haccepted]
  exact ⟨h.numbered.apply key accepted,
    fun read hread => (h.started read hread).trans (w.registry.sequence_le_apply key accepted),
    fun read hread other hother => h.numbered.newer (h.newer read hread other hother) key accepted⟩

theorem Inv.perform (h : w.Inv) (action : RestoreAction) : (w.perform action).Inv := by
  cases action with
  | live key update => exact h.live key update
  | readBegan =>
    refine ⟨h.numbered, fun read hread => ?_, fun read hread key hkey => ?_⟩
    · rcases mem_append.mp hread with hread | hread
      · exact h.started read hread
      · rw [mem_singleton.mp hread]
        exact Nat.le_refl _
    · rcases mem_append.mp hread with hread | hread
      · exact h.newer read hread key hkey
      · rw [mem_singleton.mp hread] at hkey
        cases hkey
  | restored index key update =>
    rw [Restoring.perform]
    split
    · exact h.restore _ key update
    · exact h

end Restoring

namespace BackgroundTaskRegistry

/-- The lifecycle state of a row, if there is one. -/
def rowState (r : BackgroundTaskRegistry) (key : BackgroundTaskKey) : Option BackgroundTaskState :=
  (r.get key).map (·.state)

/-- The activity counter grows by one exactly when a row appears or its lifecycle state changes. -/
def Counts (r r' : BackgroundTaskRegistry) : Prop :=
  (r'.activity = r.activity ∧ ∀ key, r'.rowState key = r.rowState key) ∨
    (r'.activity = r.activity + 1 ∧ ∃ key, r'.rowState key ≠ r.rowState key)

theorem counts_apply (r : BackgroundTaskRegistry) (key : BackgroundTaskKey)
    (update : BackgroundTaskUpdate) : r.Counts (r.apply key update).2 := by
  have happlied := r.applied_apply key update
  generalize r.apply key update = result at happlied ⊢
  cases happlied with
  | unchanged _ _ _ _ hget _ hactivity =>
    refine .inl ⟨hactivity, fun other => ?_⟩
    rw [rowState, hget, rowState]
  | changed row r' _ hrow hother _ _ hactivity =>
    have hstate : r'.rowState key = some row.state := by rw [rowState, hrow, Option.map_some]
    split at hactivity
    · next hsame =>
      refine .inl ⟨hactivity, fun other => ?_⟩
      by_cases hkey : other = key
      · rw [hkey, hstate, rowState, hsame]
      · rw [rowState, hother other hkey, rowState]
    · next hdiffers =>
      refine .inr ⟨hactivity, key, fun he => hdiffers ?_⟩
      exact he.symm.trans hstate

end BackgroundTaskRegistry

theorem Restoring.counts_perform (w : Restoring) (action : RestoreAction) :
    w.registry.Counts (w.perform action).registry := by
  cases action with
  | live key update => exact w.registry.counts_apply key update
  | readBegan => exact .inl ⟨rfl, fun _ => rfl⟩
  | restored index key update =>
    rw [Restoring.perform]
    split
    · next read _ =>
      obtain ⟨accepted, haccepted⟩ :=
        @BackgroundTaskRegistry.mergeRestored_eq w.registry key update read.startingSequence
      rw [Restoring.restore, haccepted]
      exact w.registry.counts_apply key accepted
    · exact .inl ⟨rfl, fun _ => rfl⟩

theorem Restoring.inv_of_run {actions : List RestoreAction} {w : Restoring}
    (h : Run restorations actions w) : w.Inv := by
  refine h.invariant (I := Restoring.Inv) ?_ ?_
  · rintro w ⟨parentSession, rfl⟩
    exact ⟨fun key row hrow => (by cases hrow), fun read hread => (by cases hread),
      fun read hread => (by cases hread)⟩
  · rintro w action _ hw rfl
    exact hw.perform action

/-- **Restored rows.**  In every run no row is numbered above the registry, the activity counter
counts the rows that appear or change their state, and a restored row respects what is newer just if
it agrees with it. -/
theorem restored_exact {actions : List RestoreAction} {w : Restoring}
    (h : Run restorations actions w) :
    w.registry.Numbered ∧ (∀ action, w.registry.Counts (w.perform action).registry) ∧
      ∀ read ∈ w.reads, ∀ key update, w.Respects read key update ↔ w.Restores read key update := by
  have hw := Restoring.inv_of_run h
  refine ⟨hw.numbered, w.counts_perform, fun read hread key update ↦ ?_⟩
  by_cases hchanged : key ∈ read.changed
  · obtain ⟨row, hrow, hlt⟩ := hw.newer read hread key hchanged
    exact Restoring.respects_iff_of_live hchanged hrow hlt
  · exact Restoring.respects_iff_of_not_live hchanged

def parentKey : BackgroundTaskKey := ⟨.codex, "parent".toList⟩

def childKey : BackgroundTaskKey := ⟨.codex, "child".toList⟩

/-- A read begins while a child works, and brings another name when the child is done. -/
def renamedChild : List RestoreAction :=
  [.live childKey { state := some .working, displayName := some "live".toList }, .readBegan,
    .live childKey { state := some .done, completedAt := some 5 }]

/-- A child is listed twice, first with its name only. -/
def listedTwice : List RestoreAction :=
  [.live childKey { state := some .working }, .readBegan,
    .restored 0 childKey { displayName := some "stored".toList }]

theorem restorations_perform (actions : List RestoreAction) :
    Run restorations actions (actions.foldl Restoring.perform ⟨.new parentKey, []⟩) := by
  induction actions using reverseRecOn with
  | nil => exact .init ⟨parentKey, rfl⟩
  | append_singleton actions action ih =>
    rw [foldl_append]
    exact ih.step rfl

theorem restored_exact_renamed :
    let w := renamedChild.foldl Restoring.perform ⟨.new parentKey, []⟩
    w.registry.Numbered ∧ (∀ action, w.registry.Counts (w.perform action).registry) ∧
      ∀ read ∈ w.reads, ∀ key update, w.Respects read key update ↔ w.Restores read key update :=
  restored_exact (restorations_perform renamedChild)

def doneChild : BackgroundTaskSummary where
  key := childKey
  parentSession := parentKey
  refs := .codex childKey.id
  displayName := some "live".toList
  state := .done
  sequence := 2
  completedAt := some 5

/-- The child after its first listing. -/
def listedChild : BackgroundTaskSummary where
  key := childKey
  parentSession := parentKey
  refs := .codex childKey.id
  displayName := some "stored".toList
  state := .working
  sequence := 2

/-- The stored name replaces the live one; and the second listing's state is not taken although the
child has not changed live. -/
theorem restored_overrides :
    (∃ w read, Run restorations renamedChild w ∧ read ∈ w.reads ∧ childKey ∈ read.changed ∧
      ¬ w.Respects read childKey { displayName := some "stored".toList }) ∧
    ∃ w read, Run restorations listedTwice w ∧ read ∈ w.reads ∧ childKey ∉ read.changed ∧
      ¬ w.Respects read childKey { state := some .stopped } := by
  constructor
  · let w := renamedChild.foldl Restoring.perform ⟨.new parentKey, []⟩
    have hrow : w.registry.get childKey = some doneChild := by decide +kernel
    refine ⟨w, ⟨1, [childKey]⟩, restorations_perform renamedChild, by decide +kernel, by decide, ?_⟩
    rw [Restoring.respects_iff_of_live (by decide) hrow (by decide)]
    intro h
    have hcompatible := h doneChild hrow
    rw [if_pos (by decide)] at hcompatible
    exact absurd (hcompatible.displayName _ rfl _ rfl) (by decide)
  · let w := listedTwice.foldl Restoring.perform ⟨.new parentKey, []⟩
    have hrow : w.registry.get childKey = some listedChild := by decide +kernel
    refine ⟨w, ⟨1, []⟩, restorations_perform listedTwice, by decide +kernel, by decide, ?_⟩
    rw [Restoring.respects_iff_of_not_live (by decide)]
    intro h
    have holder := h listedChild hrow
    rw [if_neg (by decide)] at holder
    rcases holder with hle | hagrees
    · exact absurd hle (by decide)
    · exact absurd (hagrees _ rfl _ rfl) (by decide)

end NiumaTerm.BackgroundTask
