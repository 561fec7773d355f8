import Mathlib.Data.List.Induction

/-!
# What has happened so far

A log is a list of events, the oldest first.  `AtEach` speaks of every event and what came before it,
`Since` and `recent` of what happened since the last event of a kind.  Each has a rule for one more event.
-/

namespace History

open List

variable {Event : Type*}

def AtEach (P : List Event → Event → Prop) (log : List Event) : Prop :=
  ∀ before e after, log = before ++ e :: after → P before e

def Since (log : List Event) (e : Event) (stop : Event → Prop) : Prop :=
  ∃ before after, log = before ++ e :: after ∧ ∀ x ∈ after, ¬ stop x

variable {P : List Event → Event → Prop} {log : List Event}

theorem atEach_nil : AtEach P [] := by
  intro before e after h
  simp at h

theorem AtEach.concat {e : Event} (h : AtEach P log) (he : P log e) : AtEach P (log ++ [e]) := by
  intro before x after hx
  obtain rfl | ⟨after, last, rfl⟩ := after.eq_nil_or_concat
  · obtain ⟨rfl, hex⟩ := append_inj' hx rfl
    cases hex
    exact he
  · rw [concat_eq_append, ← cons_append, ← append_assoc] at hx
    exact h _ _ _ (append_inj' hx rfl).1

theorem AtEach.append {more : List Event} (h : AtEach P log)
    (hmore : ∀ before e after, more = before ++ e :: after → P (log ++ before) e) : AtEach P (log ++ more) := by
  induction more using reverseRecOn with
  | nil => rwa [append_nil]
  | append_singleton more e ih =>
    rw [← append_assoc]
    refine AtEach.concat (ih fun before x after hx => ?_) (hmore more e [] rfl)
    exact hmore before x (after ++ [e]) (by rw [hx]; simp)

variable {e x : Event} {stop : Event → Prop}

theorem since_concat : Since (log ++ [x]) e stop ↔ x = e ∨ (Since log e stop ∧ ¬ stop x) := by
  constructor
  · rintro ⟨before, after, hl, hstop⟩
    obtain rfl | ⟨after, last, rfl⟩ := after.eq_nil_or_concat
    · obtain ⟨-, hex⟩ := append_inj' hl rfl
      cases hex
      exact .inl rfl
    · rw [concat_eq_append, ← cons_append, ← append_assoc] at hl
      obtain ⟨rfl, hlast⟩ := append_inj' hl rfl
      cases hlast
      exact .inr ⟨⟨before, after, rfl, fun y hy => hstop y (by simp [hy])⟩, hstop _ (by simp)⟩
  · rintro (rfl | ⟨⟨before, after, rfl, hstop⟩, hx⟩)
    · exact ⟨log, [], rfl, by simp⟩
    · refine ⟨before, after ++ [x], by simp, fun y hy => ?_⟩
      rcases mem_append.mp hy with hy | hy
      · exact hstop y hy
      · rw [mem_singleton.mp hy]
        exact hx

theorem not_since_nil : ¬ Since [] e stop := by
  rintro ⟨before, after, hl, -⟩
  simp at hl

/-- What a stop does not reach has happened since. -/
theorem Since.mem_of_stop {before after : List Event} (h : Since (before ++ x :: after) e stop) (hx : stop x) :
    x = e ∨ e ∈ after := by
  induction after using reverseRecOn with
  | nil => exact .inl ((since_concat.mp h).resolve_right fun h => h.2 hx)
  | append_singleton after last ih =>
    rw [← cons_append, ← append_assoc] at h
    rcases since_concat.mp h with rfl | ⟨h, -⟩
    · exact .inr (mem_append_right _ (.head _))
    · exact (ih h).imp id (mem_append_left _)

/-- The events after the last stop. -/
def recent (stop : Event → Bool) (log : List Event) : List Event :=
  log.foldl (fun events e => if stop e then [] else events ++ [e]) []

@[simp] theorem recent_nil {stop : Event → Bool} : recent stop [] = [] := rfl

theorem recent_concat {stop : Event → Bool} :
    recent stop (log ++ [e]) = if stop e then [] else recent stop log ++ [e] := by
  rw [recent, foldl_append]
  rfl

end History
