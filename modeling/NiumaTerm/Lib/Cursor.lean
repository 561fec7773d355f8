import Mathlib.Data.List.Induction
import Mathlib.Order.Lattice

/-!
# The newest of numbered values

`newest l` is the value with the highest number of a list, the later one of two with the same number.
Of two lists merged in any order `prefer` takes the newest value, of two with the same number the one of
the first list.
-/

namespace Cursor

variable {K V : Type*} [LinearOrder K]

/-- The value, unless there is one with a higher number. -/
def keep (best : Option (K × V)) (u : K × V) : Option (K × V) :=
  if best.all fun b => b.1 ≤ u.1 then some u else best

def newest (l : List (K × V)) : Option (K × V) := l.foldl keep none

def prefer : Option (K × V) → Option (K × V) → Option (K × V)
  | some u, some b => if b.1 ≤ u.1 then some u else some b
  | some u, none => some u
  | none, b => b

@[simp] theorem newest_nil : newest ([] : List (K × V)) = none := rfl

theorem newest_concat (l : List (K × V)) (u : K × V) : newest (l ++ [u]) = keep (newest l) u := by
  rw [newest, newest, List.foldl_append]
  rfl

variable {first second : Option (K × V)} {u : K × V}

theorem prefer_keep_left : prefer (keep first u) second =
    if (prefer first second).all fun b => b.1 ≤ u.1 then some u else prefer first second := by
  rcases first with _ | a <;> rcases second with _ | b
  · rfl
  · by_cases h : b.1 ≤ u.1 <;> simp [keep, prefer, h]
  · by_cases h : a.1 ≤ u.1 <;> simp [keep, prefer, h]
  · by_cases hau : a.1 ≤ u.1 <;> by_cases hba : b.1 ≤ a.1 <;> by_cases hbu : b.1 ≤ u.1
    all_goals simp [keep, prefer, hau, hba, hbu]
    · exact absurd (hba.trans hau) hbu
    · exact absurd ((not_le.mp hba).le.trans hbu) hau

theorem prefer_keep_right : prefer first (keep second u) =
    if (prefer first second).all fun b => b.1 ≤ u.1 then
      if first.any fun a => a.1 = u.1 then first else some u
    else prefer first second := by
  rcases first with _ | a <;> rcases second with _ | b
  · rfl
  · by_cases h : b.1 ≤ u.1 <;> simp [keep, prefer, h]
  · rcases lt_trichotomy a.1 u.1 with h | h | h
    · simp [keep, prefer, h.le, h.ne, h.not_ge]
    · simp [keep, prefer, h]
    · simp [keep, prefer, h.le, h.not_ge]
  · by_cases hba : b.1 ≤ a.1
    · rcases lt_trichotomy a.1 u.1 with h | h | h
      · simp [keep, prefer, hba, hba.trans h.le, h.le, h.ne, h.not_ge]
      · simp [keep, prefer, hba.trans h.le, h]
      · by_cases hbu : b.1 ≤ u.1 <;> simp [keep, prefer, hba, hbu, h.le, h.not_ge]
    · have hab := not_le.mp hba
      by_cases hbu : b.1 ≤ u.1
      · have h := hab.trans_le hbu
        simp [keep, prefer, hba, hbu, h.ne, h.not_ge]
      · simp [keep, prefer, hba, hbu]

end Cursor
