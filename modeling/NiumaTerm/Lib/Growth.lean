import Mathlib.Data.List.Basic

/-!
# Lists that grow

`Grows R N xs ys`: the elements of `xs` became the first elements of `ys`, each as the relation `R`
allows, and the elements that `ys` has besides satisfy `N`.  A record of entries that change in place
and are only ever added to goes through such steps; they compose (`Grows.trans`).
-/

namespace Growth

open List

variable {α : Type*}

inductive Grows (R : α → α → Prop) (N : α → Prop) : List α → List α → Prop
  | nil {ys : List α} (h : ∀ y ∈ ys, N y) : Grows R N [] ys
  | cons {x y : α} {xs ys : List α} (h : R x y) (hs : Grows R N xs ys) :
    Grows R N (x :: xs) (y :: ys)

namespace Grows

variable {R R' : α → α → Prop} {N N' : α → Prop} {xs ys zs : List α}

/-- Nothing is added. -/
theorem of_forall₂ (h : Forall₂ R xs ys) : Grows R N xs ys := by
  induction h with
  | nil => exact .nil (by simp)
  | cons h _ ih => exact .cons h ih

/-- Entries that change in place. -/
theorem map {f : α → α} (h : ∀ x ∈ xs, R x (f x)) : Grows R N xs (xs.map f) := by
  induction xs with
  | nil => exact .nil (by simp)
  | cons x xs ih =>
    exact .cons (h x mem_cons_self) (ih fun y hy => h y (mem_cons_of_mem _ hy))

theorem refl (h : ∀ x ∈ xs, R x x) : Grows R N xs xs := by
  simpa using map (f := fun x => x) h

/-- Entries that are added. -/
theorem append {new : List α} (h : ∀ x ∈ xs, R x x) (hn : ∀ y ∈ new, N y) :
    Grows R N xs (xs ++ new) := by
  induction xs with
  | nil => exact .nil hn
  | cons x xs ih =>
    exact .cons (h x mem_cons_self) (ih fun y hy => h y (mem_cons_of_mem _ hy))

/-- The last entry changes. -/
theorem concat {x y : α} (h : ∀ x ∈ xs, R x x) (hxy : R x y) : Grows R N (xs ++ [x]) (xs ++ [y]) := by
  induction xs with
  | nil => exact .cons hxy (.nil (by simp))
  | cons z xs ih =>
    exact .cons (h z mem_cons_self) (ih fun y hy => h y (mem_cons_of_mem _ hy))

theorem trans (h : Grows R N xs ys) (h' : Grows R N ys zs)
    (htrans : ∀ x y z, R x y → R y z → R x z) (hn : ∀ x y, N x → R x y → N y) :
    Grows R N xs zs := by
  induction h generalizing zs with
  | @nil ys hnew =>
    refine .nil ?_
    clear htrans
    induction h' with
    | nil hz => exact hz
    | cons hr _ ih =>
      rintro z (_ | ⟨_, hz⟩)
      · exact hn _ _ (hnew _ mem_cons_self) hr
      · exact ih (fun y hy => hnew y (mem_cons_of_mem _ hy)) z hz
  | cons hr _ ih =>
    rcases h' with _ | ⟨hr', hs'⟩
    exact .cons (htrans _ _ _ hr hr') (ih hs')

/-- An entry is still there. -/
theorem exists_of_mem (h : Grows R N xs ys) {x : α} (hx : x ∈ xs) : ∃ y ∈ ys, R x y := by
  induction h with
  | nil => simp at hx
  | cons hr _ ih =>
    rcases mem_cons.mp hx with rfl | hx
    · exact ⟨_, mem_cons_self, hr⟩
    · obtain ⟨y, hy, hxy⟩ := ih hx
      exact ⟨y, mem_cons_of_mem _ hy, hxy⟩

/-- An entry was there or was added. -/
theorem of_mem (h : Grows R N xs ys) {y : α} (hy : y ∈ ys) : (∃ x ∈ xs, R x y) ∨ N y := by
  induction h with
  | nil hn => exact .inr (hn y hy)
  | cons hr _ ih =>
    rcases mem_cons.mp hy with rfl | hy
    · exact .inl ⟨_, mem_cons_self, hr⟩
    · obtain ⟨x, hx, hxy⟩ | hn := ih hy
      · exact .inl ⟨x, mem_cons_of_mem _ hx, hxy⟩
      · exact .inr hn

theorem imp (h : Grows R N xs ys) (hr : ∀ x y, R x y → R' x y) (hn : ∀ y, N y → N' y) :
    Grows R' N' xs ys := by
  induction h with
  | nil hnew => exact .nil fun y hy => hn y (hnew y hy)
  | cons h _ ih => exact .cons (hr _ _ h) ih

end Grows

end Growth
