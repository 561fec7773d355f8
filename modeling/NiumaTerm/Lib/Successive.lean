import Mathlib.Data.List.Chain
import Mathlib.Data.List.Count
import Mathlib.Data.List.Sort

/-!
# Keys that follow one another

* `firsts key seen l` : the elements of a list that are the first of their key.  They are the list
  itself when no key comes twice (`firsts_eq_self`).
* `isChain_successive_iff` : each key of a sorted list is the next possible one after the key before
  it, if and only if each possible key between the first and the last is there exactly once.
-/

namespace Successive

open List

section

variable {α κ : Type*} [DecidableEq κ] (key : α → κ)

def firsts : List κ → List α → List α
  | _, [] => []
  | seen, a :: rest =>
    if key a ∈ seen then firsts seen rest else a :: firsts (key a :: seen) rest

variable {key} {seen : List κ} {l : List α}

theorem firsts_sublist : (firsts key seen l).Sublist l := by
  induction l generalizing seen with
  | nil => exact .slnil
  | cons a rest ih =>
    rw [firsts]
    split
    · exact ih.cons _
    · exact ih.cons_cons _

theorem firsts_eq_self (hnodup : (l.map key).Nodup) (hseen : ∀ a ∈ l, key a ∉ seen) :
    firsts key seen l = l := by
  induction l generalizing seen with
  | nil => rfl
  | cons a rest ih =>
    obtain ⟨ha, hrest⟩ := nodup_cons.mp hnodup
    rw [firsts, if_neg (hseen a mem_cons_self), ih hrest]
    intro b hb hmem
    rcases mem_cons.mp hmem with hkey | hmem
    · exact ha (hkey ▸ mem_map_of_mem hb)
    · exact hseen b (mem_cons_of_mem _ hb) hmem

theorem firsts_ne_nil (hne : l ≠ []) : firsts key [] l ≠ [] := by
  cases l with
  | nil => exact absurd rfl hne
  | cons a rest => simp [firsts]

end

section

/-- `b` is the next key after `a` among the possible ones. -/
def Next (possible : ℕ → Prop) (a b : ℕ) : Prop :=
  a < b ∧ ∀ n, possible n → a < n → ¬ n < b

variable {possible : ℕ → Prop} {l : List ℕ}

theorem pairwise_lt_of_next (h : l.IsChain (Next possible)) : l.Pairwise (· < ·) :=
  (h.imp fun _ _ hnext => hnext.1).pairwise

theorem mem_of_next {n : ℕ} (h : l.IsChain (Next possible)) (hn : possible n)
    (hlow : ∃ a ∈ l, a ≤ n) (hhigh : ∃ b ∈ l, n ≤ b) : n ∈ l := by
  induction l with
  | nil =>
    obtain ⟨a, ha, -⟩ := hlow
    cases ha
  | cons a rest ih =>
    have hsorted := pairwise_lt_of_next h
    have ha : a ≤ n := by
      obtain ⟨c, hc, hcn⟩ := hlow
      rcases mem_cons.mp hc with rfl | hc
      · exact hcn
      · exact (rel_of_pairwise_cons hsorted hc).le.trans hcn
    rcases ha.eq_or_lt with rfl | ha
    · exact mem_cons_self
    · obtain ⟨b, hb, hnb⟩ := hhigh
      rcases mem_cons.mp hb with rfl | hb
      · exact absurd ha hnb.not_gt
      · cases rest with
        | nil => cases hb
        | cons c more =>
          have hnext := isChain_cons_cons.mp h
          have hc : c ≤ n := Nat.le_of_not_lt (hnext.1.2 n hn ha)
          exact mem_cons_of_mem _ (ih hnext.2 ⟨c, mem_cons_self, hc⟩ ⟨b, hb, hnb⟩)

theorem isChain_successive_iff (hsorted : l.Pairwise (· ≤ ·)) (hpossible : ∀ a ∈ l, possible a) :
    l.IsChain (Next possible) ↔
      ∀ n, possible n → (∃ a ∈ l, a ≤ n) → (∃ b ∈ l, n ≤ b) → l.count n = 1 := by
  constructor
  · intro h n hn hlow hhigh
    exact count_eq_one_of_mem ((pairwise_lt_of_next h).imp Nat.ne_of_lt)
      (mem_of_next h hn hlow hhigh)
  · intro h
    induction l with
    | nil => exact .nil
    | cons a rest ih =>
      cases rest with
      | nil => exact .singleton a
      | cons b more =>
        have hrest := pairwise_cons.mp hsorted
        have hab := hrest.1 b mem_cons_self
        have hlt : a < b := by
          refine hab.lt_of_ne ?_
          rintro rfl
          have hone := h a (hpossible a mem_cons_self) ⟨a, mem_cons_self, Nat.le_refl a⟩
            ⟨a, mem_cons_self, Nat.le_refl a⟩
          simp at hone
        have habove : ∀ c ∈ b :: more, b ≤ c := fun c hc => by
          rcases mem_cons.mp hc with rfl | hc
          · exact Nat.le_refl _
          · exact rel_of_pairwise_cons hrest.2 hc
        refine isChain_cons_cons.mpr ⟨⟨hlt, fun n hn han hnb => ?_⟩, ?_⟩
        · -- it is there, but not among the elements, which are `a` or from `b` on
          have hone := h n hn ⟨a, mem_cons_self, han.le⟩
            ⟨b, mem_cons_of_mem _ mem_cons_self, hnb.le⟩
          have hmem : n ∈ a :: b :: more := count_pos_iff.mp (hone ▸ Nat.one_pos)
          rcases mem_cons.mp hmem with rfl | hmem
          · exact absurd han (Nat.lt_irrefl _)
          · exact absurd hnb (habove n hmem).not_gt
        · refine ih hrest.2 (fun c hc => hpossible c (mem_cons_of_mem _ hc)) ?_
          rintro n hn ⟨c, hc, hcn⟩ ⟨d, hd, hnd⟩
          have hone := h n hn ⟨c, mem_cons_of_mem _ hc, hcn⟩ ⟨d, mem_cons_of_mem _ hd, hnd⟩
          have hne : a ≠ n := (hlt.trans_le ((habove c hc).trans hcn)).ne
          rwa [count_cons_of_ne hne] at hone

/-- A relation between each element and the one after it, read off the list of these pairs. -/
theorem forall₂_zip_tail_iff {α : Type*} {R : α → α → Prop} {S : α × α → α → Prop} {l : List α}
    (h : ∀ a ∈ l, ∀ b ∈ l, (S (a, b) b ↔ R a b)) :
    Forall₂ S (l.zip l.tail) l.tail ↔ l.IsChain R := by
  induction l with
  | nil => exact ⟨fun _ => .nil, fun _ => .nil⟩
  | cons a rest ih =>
    cases rest with
    | nil => exact ⟨fun _ => .singleton a, fun _ => .nil⟩
    | cons b more =>
      have hab := h a mem_cons_self b (mem_cons_of_mem _ mem_cons_self)
      have hrest := ih fun c hc d hd => h c (mem_cons_of_mem _ hc) d (mem_cons_of_mem _ hd)
      rw [isChain_cons_cons, ← hab, ← hrest]
      exact forall₂_cons

end

end Successive
