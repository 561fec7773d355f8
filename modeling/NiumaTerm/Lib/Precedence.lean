import Mathlib.Data.List.Induction
import Mathlib.Order.WellFounded

/-!
# Precedence relations and the orders that follow them

`R a b` says that `a` must come before `b`.  `Ordered` lists have every element after all that must come
before it, an `IsCycle` closes on itself, `transGen_of_rec` finds the transitive closure from its
recursion, and `isGreatest_chain` the longest chain.
-/

namespace Precedence

open Relation List

variable {α : Type*} {R : α → α → Prop}

/-! ## Ordered lists -/

/-- Every element of `order` is listed after all of its predecessors. -/
def Ordered (R : α → α → Prop) (order : List α) : Prop :=
  ∀ before a after, order = before ++ a :: after → ∀ b, R b a → b ∈ before

theorem ordered_nil : Ordered R [] := by
  intro before a after h
  simp at h

/-- Where an element of `order ++ [a]` can be. -/
theorem concat_eq_append_cons {order before after : List α} {a c : α}
    (h : order ++ [a] = before ++ c :: after) :
    (before = order ∧ c = a) ∨ ∃ rest, order = before ++ c :: rest := by
  rcases eq_nil_or_concat after with rfl | ⟨rest, z, rfl⟩
  · obtain ⟨rfl, hc⟩ := append_inj' h rfl
    exact .inl ⟨rfl, (singleton_inj.mp hc).symm⟩
  · have h' : order ++ [a] = (before ++ c :: rest) ++ [z] := by simpa using h
    exact .inr ⟨rest, (append_inj' h' rfl).1⟩

variable {order : List α} {a : α}

theorem Ordered.concat (h : Ordered R order)
    (ha : ∀ b, R b a → b ∈ order) : Ordered R (order ++ [a]) := by
  intro before c after he b hb
  rcases concat_eq_append_cons he with ⟨rfl, rfl⟩ | ⟨rest, rfl⟩
  · exact ha b hb
  · exact h before c rest rfl b hb

theorem Ordered.of_append {first second : List α} (h : Ordered R (first ++ second)) :
    Ordered R first := by
  intro before a after he b hb
  exact h before a (after ++ second) (by rw [he]; simp) b hb

theorem Ordered.mem_of_concat {a b : α} (h : Ordered R (order ++ [a])) (hb : R b a) : b ∈ order :=
  h order a [] rfl b hb

/-- What holds of an element once it holds of its predecessors holds of all elements of an ordered
list. -/
theorem Ordered.induction (h : Ordered R order) {P : α → Prop}
    (step : ∀ a ∈ order, (∀ b, R b a → P b) → P a) : ∀ a ∈ order, P a := by
  induction order using reverseRecOn with
  | nil => simp
  | append_singleton order z ih =>
    have hz : ∀ a ∈ order, P a := ih h.of_append fun a ha => step a (by simp [ha])
    intro a ha
    rcases mem_append.mp ha with ha | ha
    · exact hz a ha
    · obtain rfl := mem_singleton.mp ha
      exact step a (by simp) fun b hb => hz b (h.mem_of_concat hb)

theorem Ordered.acc (h : Ordered R order) : ∀ a ∈ order, Acc R a :=
  h.induction fun _ _ ha => Acc.intro _ ha

/-- **A first failure.**  When a property fails in an ordered list, it fails of an element whose
predecessors all have it. -/
theorem Ordered.exists_first (h : Ordered R order) {P : α → Prop}
    (ha : a ∈ order) (hp : ¬ P a) : ∃ b ∈ order, ¬ P b ∧ ∀ c, R c b → P c := by
  by_contra hnone
  refine hp (h.induction (P := P) (fun b hb hprev => ?_) a ha)
  by_contra hpb
  exact hnone ⟨b, hb, hpb, hprev⟩

/-! ## Cycles -/

/-- Each element is followed by one of its predecessors, and the last by the first. -/
def IsCycle (R : α → α → Prop) (cycle : List α) : Prop :=
  ∃ a rest, cycle = a :: rest ∧ (a :: rest).IsChain (fun x y => R y x) ∧
    R a ((a :: rest).getLast (by simp))

theorem reflTransGen_of_isChain {rest : List α} (h : (a :: rest).IsChain fun x y => R y x) :
    ReflTransGen R ((a :: rest).getLast (by simp)) a := by
  induction rest generalizing a with
  | nil => exact .refl
  | cons b rest ih =>
    rw [isChain_cons_cons] at h
    rw [getLast_cons (by simp)]
    exact (ih h.2).tail h.1

theorem IsCycle.transGen {cycle : List α} (h : IsCycle R cycle) : ∃ a ∈ cycle, TransGen R a a := by
  obtain ⟨a, rest, rfl, hchain, hlast⟩ := h
  exact ⟨a, by simp, TransGen.head' hlast (reflTransGen_of_isChain hchain)⟩

/-! ## The transitive closure -/

theorem not_transGen_self (h : WellFounded R) (a : α) : ¬ TransGen R a a :=
  fun ha => h.transGen.irrefl.irrefl a ha

/-- **The closure by recursion.**  Along a well founded relation only the transitive closure
satisfies its own recursion. -/
theorem transGen_of_rec (h : WellFounded R) {P : α → α → Prop}
    (hP : ∀ a b, P a b ↔ ∃ c, R c b ∧ (P a c ∨ a = c)) (a b : α) : P a b ↔ TransGen R a b := by
  induction b using h.induction with
  | h b ih =>
    rw [hP, transGen_iff]
    constructor
    · rintro ⟨c, hc, hac | rfl⟩
      · exact .inr ⟨c, (ih c hc).mp hac, hc⟩
      · exact .inl hc
    · rintro (hab | ⟨c, hac, hc⟩)
      · exact ⟨a, hab, .inr rfl⟩
      · exact ⟨c, hc, .inl ((ih c hc).mpr hac)⟩

/-! ## Longest chains -/

/-- The lengths of the chains of predecessors of `a`. -/
def chainLengths (R : α → α → Prop) (a : α) : Set ℕ :=
  {n | ∃ chain : List α, chain.length = n ∧ (a :: chain).IsChain fun x y => R y x}

theorem zero_mem_chainLengths (a : α) : 0 ∈ chainLengths R a :=
  ⟨[], rfl, .singleton a⟩

theorem succ_mem_chainLengths {n : ℕ} :
    n + 1 ∈ chainLengths R a ↔ ∃ b, R b a ∧ n ∈ chainLengths R b := by
  constructor
  · rintro ⟨chain, hn, hchain⟩
    obtain ⟨b, rest, rfl⟩ := exists_cons_of_length_eq_add_one hn
    rw [isChain_cons_cons] at hchain
    exact ⟨b, hchain.1, rest, by simpa using hn, hchain.2⟩
  · rintro ⟨b, hb, chain, rfl, hchain⟩
    exact ⟨b :: chain, rfl, isChain_cons_cons.mpr ⟨hb, hchain⟩⟩

/-- The largest of the numbers, if one is larger than the first. -/
theorem foldl_max_mem (f : α → ℕ) (l : List α) (n : ℕ) :
    l.foldl (fun n b => max n (f b)) n = n ∨ ∃ b ∈ l, l.foldl (fun n b => max n (f b)) n = f b := by
  induction l generalizing n with
  | nil => exact .inl rfl
  | cons b rest ih =>
    rw [foldl_cons]
    rcases ih (max n (f b)) with h | ⟨c, hc, h⟩
    · rcases Nat.le_total n (f b) with hle | hle
      · exact .inr ⟨b, by simp, h.trans (Nat.max_eq_right hle)⟩
      · exact .inl (h.trans (Nat.max_eq_left hle))
    · exact .inr ⟨c, by simp [hc], h⟩

theorem le_foldl_max (f : α → ℕ) (l : List α) (n : ℕ) :
    n ≤ l.foldl (fun n b => max n (f b)) n ∧ ∀ b ∈ l, f b ≤ l.foldl (fun n b => max n (f b)) n := by
  induction l generalizing n with
  | nil => simp
  | cons b rest ih =>
    obtain ⟨hn, hrest⟩ := ih (max n (f b))
    rw [foldl_cons]
    refine ⟨(Nat.le_max_left _ _).trans hn, fun c hc => ?_⟩
    rcases mem_cons.mp hc with rfl | hc
    · exact (Nat.le_max_right _ _).trans hn
    · exact hrest c hc

/-- **Depths by recursion** are the lengths of longest chains. -/
theorem isGreatest_chain (h : WellFounded R) {preds : α → List α}
    (hpreds : ∀ a b, b ∈ preds a ↔ R b a) {depth : α → ℕ}
    (hdepth : ∀ a, depth a = (preds a).foldl (fun n b => max n (depth b + 1)) 0) (a : α) :
    IsGreatest (chainLengths R a) (depth a) := by
  induction a using h.induction with
  | h a ih =>
    constructor
    · rcases foldl_max_mem (fun b => depth b + 1) (preds a) 0 with h0 | ⟨b, hb, hmax⟩
      · rw [hdepth, h0]
        exact zero_mem_chainLengths a
      · rw [hdepth, hmax]
        have hab := (hpreds a b).mp hb
        exact succ_mem_chainLengths.mpr ⟨b, hab, (ih b hab).1⟩
    · rintro (_ | n) hn
      · exact Nat.zero_le _
      · obtain ⟨b, hb, hn⟩ := succ_mem_chainLengths.mp hn
        rw [hdepth]
        have hle := (le_foldl_max (fun b => depth b + 1) (preds a) 0).2 b ((hpreds a b).mpr hb)
        exact (Nat.succ_le_succ ((ih b hb).2 hn)).trans hle

end Precedence
