import Mathlib.Data.List.Sort

/-!
# The newest elements of a set

`IsNewest key n S l`: `l` lists the `n` elements of `S` with the greatest keys, in order.  There is one
such list, and elements that were cut cannot come back (`IsNewest.absorb`).
-/

open List

variable {α K : Type*} [LinearOrder K] {key : α → K} {n : ℕ} {S T : Set α} {l l' : List α}

structure IsNewest (key : α → K) (n : ℕ) (S : Set α) (l : List α) : Prop where
  sorted : l.Pairwise fun a b => key a < key b
  mem : ∀ a ∈ l, a ∈ S
  length_le : l.length ≤ n
  older : ∀ a ∈ S, a ∉ l → l.length = n ∧ ∀ b ∈ l, key a < key b

namespace IsNewest

theorem nodup (h : IsNewest key n S l) : l.Nodup :=
  h.sorted.imp fun hlt heq => absurd hlt (by rw [heq]; exact lt_irrefl _)

theorem empty (key : α → K) (n : ℕ) : IsNewest key n (∅ : Set α) [] where
  sorted := .nil
  mem _ ha := by cases ha
  length_le := Nat.zero_le _
  older _ ha := by cases ha

theorem congr (h : IsNewest key n S l) (hs : ∀ a, a ∈ S ↔ a ∈ T) : IsNewest key n T l := by
  rwa [← Set.ext hs]

/-- An element of one list that the other has not would be older than the other's. -/
theorem subset (h : IsNewest key n S l) (h' : IsNewest key n S l') : l ⊆ l' := by
  intro a ha
  by_contra hn
  obtain ⟨hlength, hlt⟩ := h'.older a (h.mem a ha) hn
  -- the other list is full, so it has an element that this one has not
  obtain ⟨b, hb, hbn⟩ : ∃ b ∈ l', b ∉ l := by
    by_contra hall
    push Not at hall
    have hperm := (subperm_of_subset h'.nodup hall).perm_of_length_le (by rw [hlength]; exact h.length_le)
    exact hn (hperm.mem_iff.mpr ha)
  exact lt_asymm (hlt b hb) ((h.older b (h'.mem b hb) hbn).2 a ha)

theorem unique (h : IsNewest key n S l) (h' : IsNewest key n S l') : l = l' := by
  have hirrefl : Std.Irrefl fun a b : α => key a < key b := ⟨fun _ => lt_irrefl _⟩
  have hantisymm : Std.Antisymm fun a b : α => key a < key b := ⟨fun _ _ hab hba => absurd hba (lt_asymm hab)⟩
  exact List.Pairwise.eq_of_mem_iff h.sorted h'.sorted fun a => ⟨fun ha => h.subset h' ha, fun ha => h'.subset h ha⟩

/-- **Merging.**  The newest of what is left of `S` and of `T` are the newest of `S` and `T`. -/
theorem absorb (h : IsNewest key n S l) (h' : IsNewest key n ({a | a ∈ l} ∪ T) l') : IsNewest key n (S ∪ T) l' := by
  refine ⟨h'.sorted, fun a ha => ?_, h'.length_le, fun a ha hn => ?_⟩
  · exact (h'.mem a ha).imp (h.mem a) id
  · by_cases hal : a ∈ l
    · exact h'.older a (.inl hal) hn
    rcases ha with ha | ha
    · obtain ⟨hlength, hlt⟩ := h.older a ha hal
      by_cases hall : l ⊆ l'
      · have hperm := (subperm_of_subset h.nodup hall).perm_of_length_le (by rw [hlength]; exact h'.length_le)
        exact ⟨by rw [← hperm.length_eq, hlength], fun b hb => hlt b (hperm.mem_iff.mpr hb)⟩
      · -- something that is newer than `a` was cut as well
        obtain ⟨c, hc, hcn⟩ : ∃ c ∈ l, c ∉ l' := by
          by_contra hsub
          push Not at hsub
          exact hall hsub
        obtain ⟨hlength', hlt'⟩ := h'.older c (.inl hc) hcn
        exact ⟨hlength', fun b hb => lt_trans (hlt c hc) (hlt' b hb)⟩
    · exact h'.older a (.inr ha) hn

theorem absorb_self (h : IsNewest key n S l) (h' : IsNewest key n {a | a ∈ l} l') : IsNewest key n S l' := by
  have hunion : IsNewest key n ({a | a ∈ l} ∪ ∅) l' := by rwa [Set.union_empty]
  have hS := h.absorb hunion
  rwa [Set.union_empty] at hS

end IsNewest

/-- Sorting and cutting what is too old. -/
theorem isNewest_drop (hs : l.Pairwise fun a b => key a < key b) :
    IsNewest key n {a | a ∈ l} (l.drop (l.length - n)) := by
  have hsplit : l.take (l.length - n) ++ l.drop (l.length - n) = l := take_append_drop _ _
  rw [← hsplit, pairwise_append] at hs
  refine ⟨hs.2.1, fun a ha => mem_of_mem_drop ha, ?_, fun a ha hn => ?_⟩
  · rw [length_drop]
    omega
  · have hcut : a ∈ l.take (l.length - n) := by
      have hl : a ∈ l := ha
      rw [← hsplit, mem_append] at hl
      exact hl.resolve_right hn
    refine ⟨?_, fun b hb => hs.2.2 a hcut b hb⟩
    have hpos : 0 < (l.take (l.length - n)).length := length_pos_of_mem hcut
    rw [length_take] at hpos
    rw [length_drop]
    omega
