import Mathlib.Data.List.Induction

/-!
# Coalescing neighbours

`Coalesced P l l'`: the list `l'` comes from `l` by dropping elements that satisfy `P` and stand directly
before another one that does, as in a queue whose last element may be replaced.
-/

namespace Coalesce

open List

variable {α : Type*} {P : α → Prop}

inductive Coalesced (P : α → Prop) : List α → List α → Prop
  | nil : Coalesced P [] []
  | keep (a : α) {l l' : List α} (h : Coalesced P l l') : Coalesced P (a :: l) (a :: l')
  | drop {a b : α} {l l' : List α} (ha : P a) (hb : P b) (h : Coalesced P (b :: l) l') :
      Coalesced P (a :: b :: l) l'

namespace Coalesced

variable {l l' : List α} {a b : α}

theorem concat (h : Coalesced P l l') (a : α) : Coalesced P (l ++ [a]) (l' ++ [a]) := by
  induction h with
  | nil => exact .keep a .nil
  | keep b _ ih => exact .keep b ih
  | drop ha hb _ ih => exact .drop ha hb ih

theorem eq_nil (h : Coalesced P l []) : l = [] := by
  generalize hr : [] = r at h
  induction h with
  | nil => rfl
  | keep a h => cases hr
  | drop _ _ _ ih => exact absurd ((ih hr).trans hr.symm) (cons_ne_nil _ _)

/-- The last element is never dropped, and another may come in its place. -/
theorem replace (h : Coalesced P l (l' ++ [a])) (ha : P a) (hb : P b) :
    Coalesced P (l ++ [b]) (l' ++ [b]) := by
  generalize hr : l' ++ [a] = r at h
  induction h generalizing l' with
  | nil => simp at hr
  | keep c h ih =>
    cases l' with
    | nil =>
      obtain ⟨rfl, rfl⟩ := List.cons.inj hr
      rw [h.eq_nil]
      exact .drop ha hb (.keep b .nil)
    | cons x l' =>
      obtain ⟨rfl, htail⟩ := List.cons.inj hr
      exact .keep x (ih htail)
  | drop hx hy _ ih => exact .drop hx hy (ih hr)

theorem split {left right : List α} (h : Coalesced P l (left ++ right)) :
    ∃ before after, l = before ++ after ∧ Coalesced P before left ∧ Coalesced P after right := by
  generalize hr : left ++ right = r at h
  induction h generalizing left with
  | nil =>
    obtain ⟨rfl, rfl⟩ := append_eq_nil_iff.mp hr
    exact ⟨[], [], rfl, .nil, .nil⟩
  | keep a h ih =>
    cases left with
    | nil =>
      obtain rfl : right = _ := hr
      exact ⟨[], _, rfl, .nil, .keep a h⟩
    | cons x left =>
      obtain ⟨rfl, htail⟩ := List.cons.inj hr
      obtain ⟨before, after, rfl, hbefore, hafter⟩ := ih htail
      exact ⟨x :: before, after, rfl, .keep x hbefore, hafter⟩
  | @drop a b l _ ha hb h ih =>
    obtain ⟨before, after, hl, hbefore, hafter⟩ := ih hr
    cases before with
    | nil =>
      obtain rfl : b :: l = after := hl
      exact ⟨[], _, rfl, hbefore, .drop ha hb hafter⟩
    | cons x before =>
      obtain ⟨rfl, rfl⟩ := List.cons.inj hl
      exact ⟨a :: b :: before, after, rfl, .drop ha hb hbefore, hafter⟩

theorem eq_concat_of_singleton (h : Coalesced P l [a]) : ∃ init, l = init ++ [a] := by
  generalize hr : [a] = r at h
  induction h with
  | nil => cases hr
  | keep b h =>
    obtain ⟨rfl, rfl⟩ := List.cons.inj hr
    exact ⟨[], by rw [h.eq_nil]; rfl⟩
  | @drop b _ _ _ _ _ _ ih =>
    obtain ⟨init, hinit⟩ := ih hr
    exact ⟨b :: init, by rw [hinit]; rfl⟩

theorem eq_concat (h : Coalesced P l (l' ++ [a])) : ∃ init, l = init ++ [a] := by
  obtain ⟨before, after, rfl, -, hafter⟩ := h.split
  obtain ⟨init, rfl⟩ := hafter.eq_concat_of_singleton
  exact ⟨before ++ init, (append_assoc ..).symm⟩

/-- An element of the result, in the list that it comes from. -/
theorem split_cons {left right : List α} (h : Coalesced P l (left ++ a :: right)) :
    ∃ before after, l = before ++ a :: after ∧ Coalesced P (before ++ [a]) (left ++ [a]) := by
  rw [append_cons] at h
  obtain ⟨before, after, rfl, hbefore, -⟩ := h.split
  obtain ⟨init, rfl⟩ := hbefore.eq_concat
  exact ⟨init, after, append_assoc init [a] after, hbefore⟩

/-- What does not satisfy `P` is never dropped. -/
theorem filter_eq {p : α → Bool} (hp : ∀ a, p a → ¬ P a) (h : Coalesced P l l') :
    l.filter p = l'.filter p := by
  induction h with
  | nil => rfl
  | keep a _ ih => rw [filter_cons, filter_cons, ih]
  | @drop a b _ _ ha _ _ ih =>
    have hpa : ¬ p a := fun h => hp a h ha
    rw [filter_cons_of_neg hpa, ih]

end Coalesced

end Coalesce
