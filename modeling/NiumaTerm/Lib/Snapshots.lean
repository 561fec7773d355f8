import Mathlib.Data.List.Nodup

/-!
# A file written from snapshots

Each change of a value under a lock takes a numbered snapshot, saved outside the lock in any order.
`Snapshots.Current`: the file has the newest snapshot or its save is under way.  A save keeps this if and
only if it is `InOrder`.
-/

variable {α : Type*}

structure Snapshot (α : Type*) where
  number : ℕ
  value : α
deriving DecidableEq

structure Snapshots (α : Type*) where
  file : α
  /-- The number of the snapshot in the file. -/
  written : ℕ
  taken : ℕ
  pending : List (Snapshot α)
deriving DecidableEq

namespace Snapshots

open List

def new (file : α) : Snapshots α where
  file := file
  written := 0
  taken := 0
  pending := []

variable (s : Snapshots α)

def take (value : α) : Snapshots α :=
  { s with taken := s.taken + 1, pending := s.pending ++ [{ number := s.taken + 1, value }] }

def finish [DecidableEq α] (snapshot : Snapshot α) (saved : Bool) : Snapshots α :=
  let s := { s with pending := s.pending.erase snapshot }
  if saved then { s with file := snapshot.value, written := snapshot.number } else s

/-- The snapshot's save may finish so. -/
def InOrder (snapshot : Snapshot α) (saved : Bool) : Prop :=
  if snapshot.number = s.taken then saved = true
  else saved = true → ∃ newest ∈ s.pending, newest.number = s.taken

/-- The numbers are those of the changes to `memory` so far. -/
structure Numbered (memory : α) : Prop where
  le : ∀ snapshot ∈ s.pending, snapshot.number ≤ s.taken
  newest : ∀ snapshot ∈ s.pending, snapshot.number = s.taken → snapshot.value = memory
  distinct : (s.pending.map Snapshot.number).Nodup
  written_le : s.written ≤ s.taken
  written : s.written = s.taken → s.file = memory
  /-- A snapshot is saved once. -/
  once : ∀ snapshot ∈ s.pending, snapshot.number ≠ s.written

/-- The newest snapshot is in the file or on its way there. -/
def Current : Prop := s.written = s.taken ∨ ∃ newest ∈ s.pending, newest.number = s.taken

variable {s} {memory : α}

theorem Numbered.new (file : α) : (new file).Numbered file where
  le := by simp [Snapshots.new]
  newest := by simp [Snapshots.new]
  distinct := by simp [Snapshots.new]
  written_le := Nat.le_refl _
  written _ := rfl
  once := by simp [Snapshots.new]

theorem Current.new (file : α) : (Snapshots.new file).Current := .inl rfl

theorem Numbered.take (h : s.Numbered memory) (value : α) : (s.take value).Numbered value := by
  have hmem : ∀ snapshot ∈ (s.take value).pending, snapshot ∈ s.pending ∨ snapshot = ⟨s.taken + 1, value⟩ := by
    intro snapshot hs
    simpa [Snapshots.take] using hs
  constructor
  · intro snapshot hs
    rcases hmem snapshot hs with hs | rfl
    · exact Nat.le_succ_of_le (h.le snapshot hs)
    · exact Nat.le_refl _
  · intro snapshot hs hn
    rcases hmem snapshot hs with hs | rfl
    · have := h.le snapshot hs
      simp only [Snapshots.take] at hn
      omega
    · rfl
  · simp only [Snapshots.take, map_append, map_cons, map_nil]
    refine nodup_append.mpr ⟨h.distinct, nodup_singleton _, fun n hn m hm => ?_⟩
    obtain ⟨snapshot, hs, rfl⟩ := mem_map.mp hn
    rw [mem_singleton.mp hm]
    have := h.le snapshot hs
    omega
  · exact Nat.le_succ_of_le h.written_le
  · intro hw
    have := h.written_le
    simp only [Snapshots.take] at hw
    omega
  · intro snapshot hs
    rcases hmem snapshot hs with hs | rfl
    · exact h.once snapshot hs
    · have := h.written_le
      simp only [Snapshots.take]
      omega

theorem Current.take (value : α) : (s.take value).Current :=
  .inr ⟨⟨s.taken + 1, value⟩, by simp [Snapshots.take], rfl⟩

variable {snapshot : Snapshot α}

theorem Numbered.eq_of_number (h : s.Numbered memory) {other : Snapshot α} (hs : snapshot ∈ s.pending)
    (ho : other ∈ s.pending) (hn : other.number = snapshot.number) : other = snapshot :=
  inj_on_of_nodup_map h.distinct ho hs hn

variable [DecidableEq α] {saved : Bool}

theorem Numbered.mem_erase_iff (h : s.Numbered memory) {other : Snapshot α} (hs : snapshot ∈ s.pending) :
    other ∈ s.pending.erase snapshot ↔ other ∈ s.pending ∧ other.number ≠ snapshot.number := by
  rw [List.Nodup.mem_erase_iff (List.Nodup.of_map _ h.distinct)]
  constructor
  · rintro ⟨hne, ho⟩
    exact ⟨ho, fun hn => hne (h.eq_of_number hs ho hn)⟩
  · rintro ⟨ho, hn⟩
    exact ⟨fun hne => hn (by rw [hne]), ho⟩

theorem Numbered.finish (h : s.Numbered memory) (hs : snapshot ∈ s.pending) :
    (s.finish snapshot saved).Numbered memory := by
  have hpending : (s.finish snapshot saved).pending = s.pending.erase snapshot := by
    cases saved <;> rfl
  have htaken : (s.finish snapshot saved).taken = s.taken := by cases saved <;> rfl
  have hmem {other : Snapshot α} (ho : other ∈ (s.finish snapshot saved).pending) :
      other ∈ s.pending ∧ other.number ≠ snapshot.number := by
    rw [hpending] at ho
    exact (h.mem_erase_iff hs).mp ho
  constructor
  · intro other ho
    rw [htaken]
    exact h.le other (hmem ho).1
  · intro other ho hn
    rw [htaken] at hn
    exact h.newest other (hmem ho).1 hn
  · rw [hpending]
    exact h.distinct.sublist ((erase_sublist ..).map _)
  · rw [htaken]
    cases saved with
    | false => exact h.written_le
    | true => exact h.le snapshot hs
  · rw [htaken]
    cases saved with
    | false => exact h.written
    | true => exact h.newest snapshot hs
  · intro other ho
    cases saved with
    | false => exact h.once other (hmem ho).1
    | true => exact (hmem ho).2

end Snapshots
