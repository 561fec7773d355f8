import Mathlib.Data.List.Induction
import Mathlib.Logic.Function.Iterate

/-!
# Timelines

A `Timeline` is a list of versions and a cursor at one of them.  Recording a version drops those after
the cursor; going back and forward moves it, as far as there are versions.
-/

variable {α : Type*}

@[ext]
structure Timeline (α : Type*) where
  versions : List α
  cursor : ℕ
  lt : cursor < versions.length

namespace Timeline

open List

/-- One version. -/
def start (a : α) : Timeline α where
  versions := [a]
  cursor := 0
  lt := Nat.zero_lt_one

variable (t : Timeline α)

def current : α := t.versions.get ⟨t.cursor, t.lt⟩

def past : List α := t.versions.take (t.cursor + 1)

theorem length_past : t.past.length = t.cursor + 1 := by
  rw [past, length_take]
  exact Nat.min_eq_left t.lt

def record (a : α) : Timeline α where
  versions := t.past ++ [a]
  cursor := t.cursor + 1
  lt := by
    rw [length_append, length_past]
    exact Nat.lt_succ_self _

def back : Timeline α where
  versions := t.versions
  cursor := t.cursor - 1
  lt := Nat.lt_of_le_of_lt (Nat.sub_le _ _) t.lt

def forward : Timeline α :=
  if h : t.cursor + 1 < t.versions.length then ⟨t.versions, t.cursor + 1, h⟩ else t

def recordAll (versions : List α) : Timeline α := versions.foldl record t

section

variable {t}

theorem getLast?_past : t.past.getLast? = some t.current := by
  rw [past, getLast?_take]
  simp [current, getElem?_eq_getElem t.lt]

theorem current_eq {t' : Timeline α} (h : t.past = t'.past) : t.current = t'.current := by
  have := t.getLast?_past
  rw [h, getLast?_past] at this
  exact (Option.some.inj this).symm

@[simp] theorem past_record (a : α) : (t.record a).past = t.past ++ [a] := by
  rw [past, take_of_length_le]
  · rfl
  · change (t.past ++ [a]).length ≤ _
    rw [length_append, length_past]
    exact Nat.le_refl _

@[simp] theorem cursor_back_iterate (k : ℕ) : (back^[k] t).cursor = t.cursor - k := by
  induction k with
  | zero => rfl
  | succ k ih =>
    rw [Function.iterate_succ_apply']
    exact congrArg (· - 1) ih

theorem forward_back (h : t.cursor ≠ 0) : t.back.forward = t := by
  have hc : t.cursor - 1 + 1 = t.cursor := Nat.succ_pred h
  have hlt : t.back.cursor + 1 < t.back.versions.length := by
    change t.cursor - 1 + 1 < t.versions.length
    rw [hc]
    exact t.lt
  rw [forward, dif_pos hlt]
  exact Timeline.ext rfl hc

/-- **Forward undoes back.** -/
theorem forward_iterate_back {k : ℕ} (h : k ≤ t.cursor) : forward^[k] (back^[k] t) = t := by
  induction k generalizing t with
  | zero => rfl
  | succ k ih =>
    have hk : k ≤ t.back.cursor := Nat.le_sub_one_of_lt h
    rw [Function.iterate_succ_apply' forward, Function.iterate_succ_apply, ih hk]
    exact forward_back (Nat.ne_of_gt (Nat.lt_of_lt_of_le (Nat.succ_pos k) h))

/-- Going back forgets the last version, but not the first. -/
theorem past_back : t.back.past = t.past.take (t.past.length - 1 - 1 + 1) := by
  have hle : t.cursor - 1 + 1 ≤ t.cursor + 1 := Nat.succ_le_succ (Nat.sub_le _ _)
  rw [length_past, Nat.add_sub_cancel, past, past, take_take, Nat.min_eq_left hle]
  rfl

theorem past_back_iterate {t' : Timeline α} (h : t.past = t'.past) (k : ℕ) :
    (back^[k] t).past = (back^[k] t').past := by
  induction k with
  | zero => exact h
  | succ k ih =>
    rw [Function.iterate_succ_apply', Function.iterate_succ_apply', past_back, past_back, ih]

theorem past_back_record (a : α) : (t.record a).back.past = t.past := by
  have hpos : 0 < t.past.length := by
    rw [length_past]
    exact Nat.succ_pos _
  rw [past_back, past_record, length_append, length_singleton, Nat.add_sub_cancel,
    Nat.sub_add_cancel hpos, take_left]

/-- **Back undoes recording.** -/
theorem past_recordAll (versions : List α) :
    (back^[versions.length] (t.recordAll versions)).past = t.past := by
  induction versions using reverseRecOn with
  | nil => rfl
  | append_singleton versions a ih =>
    rw [recordAll, foldl_append, length_append, length_singleton, Function.iterate_succ_apply]
    exact (past_back_iterate (past_back_record a) _).trans ih

@[simp] theorem versions_back_iterate (k : ℕ) : (back^[k] t).versions = t.versions := by
  induction k with
  | zero => rfl
  | succ k ih =>
    rw [Function.iterate_succ_apply']
    exact ih

@[simp] theorem versions_forward : t.forward.versions = t.versions := by
  rw [forward]
  split <;> rfl

/-- **Back to the first version.** -/
theorem head?_back_iterate {k : ℕ} (h : t.cursor ≤ k) :
    t.versions.head? = some (back^[k] t).current := by
  have hcursor : (back^[k] t).cursor = 0 := by
    rw [cursor_back_iterate]
    exact Nat.sub_eq_zero_of_le h
  have hpast := (back^[k] t).getLast?_past
  rw [past, hcursor, versions_back_iterate] at hpast
  rw [← hpast]
  cases t.versions <;> rfl

theorem head?_record (a : α) : (t.record a).versions.head? = t.versions.head? := by
  change (t.versions.take (t.cursor + 1) ++ [a]).head? = t.versions.head?
  cases hversions : t.versions with
  | nil =>
    have := t.lt
    rw [hversions] at this
    cases this
  | cons first rest => rfl

end

end Timeline
