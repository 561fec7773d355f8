import Mathlib.Data.List.Nodup
import Mathlib.Data.List.Perm.Basic

/-!
# Lists grouped by a key

`group key keys l` is `l` with the values of one key side by side, the keys in the order of `keys`;
what has another key stays in front.

* `group_perm` : nothing is lost, and nothing is doubled
* `filter_group` : the values of one key keep their order
-/

namespace Grouping

open List

variable {α κ : Type} [DecidableEq κ] (key : α → κ)

def group (keys : List κ) (l : List α) : List α :=
  l.filter (fun a => key a ∉ keys) ++ keys.flatMap fun k => l.filter fun a => key a = k

variable {key}

theorem filter_filter_key {l : List α} {p : α → Bool} {k : κ} (h : ∀ a, key a = k → p a = true) :
    (l.filter p).filter (fun a => key a = k) = l.filter fun a => key a = k := by
  rw [filter_filter]
  refine filter_congr fun a _ => ?_
  by_cases hk : key a = k
  · simp [hk, h a hk]
  · simp [hk]

theorem group_perm {keys : List κ} (hkeys : keys.Nodup) (l : List α) :
    (group key keys l).Perm l := by
  induction keys generalizing l with
  | nil => simp [group]
  | cons k rest ih =>
    obtain ⟨hk, hrest⟩ := nodup_cons.mp hkeys
    have hother : (l.filter fun a => key a ≠ k).Perm (l.filter (fun a => key a ∉ k :: rest) ++
          rest.flatMap fun j => l.filter fun a => key a = j) := by
      refine (ih hrest _).symm.trans (.of_eq ?_)
      rw [group, filter_filter]
      congr 1
      · refine filter_congr fun a _ => ?_
        simp only [mem_cons, not_or, Bool.decide_and, Bool.and_comm]
      · refine flatMap_congr fun j hj => filter_filter_key fun a ha => ?_
        rw [ha, decide_eq_true_eq]
        rintro rfl
        exact hk hj
    refine .trans ?_ (filter_append_perm (fun a => decide (key a = k)) l)
    have hnot : (l.filter fun a => !decide (key a = k)) = l.filter fun a => key a ≠ k :=
      filter_congr fun a _ => (decide_not).symm
    rw [hnot, group, flatMap_cons]
    refine .trans ?_ (hother.symm.append_left _)
    rw [← append_assoc, ← append_assoc]
    exact perm_append_comm.append_right _

theorem filter_group {keys : List κ} (hkeys : keys.Nodup) (l : List α) (k : κ) :
    (group key keys l).filter (fun a => key a = k) = l.filter fun a => key a = k := by
  have hgroup : ∀ ks : List κ, ks.Nodup →
      (ks.flatMap fun j => l.filter fun a => key a = j).filter (fun a => key a = k) =
        if k ∈ ks then l.filter fun a => key a = k else [] := by
    intro ks hks
    induction ks with
    | nil => rfl
    | cons j rest ih =>
      obtain ⟨hj, hrest⟩ := nodup_cons.mp hks
      rw [flatMap_cons, filter_append, ih hrest]
      by_cases hjk : j = k
      · subst hjk
        rw [filter_filter_key fun a ha => decide_eq_true ha, if_neg hj, if_pos mem_cons_self,
          append_nil]
      · have hnone : (l.filter fun a => key a = j).filter (fun a => key a = k) = [] := by
          refine filter_eq_nil_iff.mpr fun a ha => ?_
          rw [mem_filter, decide_eq_true_eq] at ha
          rw [decide_eq_true_eq, ha.2]
          exact hjk
        simp only [hnone, nil_append, mem_cons, or_iff_right (Ne.symm hjk)]
  rw [group, filter_append, hgroup keys hkeys]
  by_cases hk : k ∈ keys
  · rw [if_pos hk]
    have hnone : (l.filter fun a => key a ∉ keys).filter (fun a => key a = k) = [] := by
      refine filter_eq_nil_iff.mpr fun a ha => ?_
      rw [mem_filter, decide_eq_true_eq] at ha
      rw [decide_eq_true_eq]
      rintro rfl
      exact ha.2 hk
    rw [hnone, nil_append]
  · rw [if_neg hk, append_nil]
    refine filter_filter_key fun a ha => ?_
    rw [decide_eq_true_eq, ha]
    exact hk

end Grouping
