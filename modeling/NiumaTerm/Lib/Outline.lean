import Mathlib.Data.List.Basic

/-!
# Rows under the head that owns them

The rows of an outline do not say what they belong to.  `owner` finds the head of a row by walking
back over the rows above it.

* `owner_eq`, `exists_head_of_owner` : the nearest row that is not walked over decides
* `exists_split_of_flatMap` : a row of rows that are drawn from pieces, and its piece
-/

namespace Outline

open List

variable {α β κ : Type*}

/-- What a row means to the walk. -/
inductive Step (κ : Type*)
  | pass
  | found (head : κ)
  | stop

variable (step : α → Step κ)

/-- The walk, over rows from the bottom to the top. -/
def walkBack : List α → Option κ
  | [] => none
  | a :: rest =>
    match step a with
    | .pass => walkBack rest
    | .found head => some head
    | .stop => none

/-- What a row belongs to, of the rows above it. -/
def owner (above : List α) : Option κ := walkBack step above.reverse

variable {step} {head : κ} {above between : List α} {a : α}

theorem walkBack_append (h : ∀ b ∈ between, step b = .pass) (rest : List α) :
    walkBack step (between ++ rest) = walkBack step rest := by
  induction between with
  | nil => rfl
  | cons b between ih =>
    rw [cons_append, walkBack, h b mem_cons_self]
    exact ih fun c hc => h c (mem_cons_of_mem _ hc)

theorem exists_of_walkBack {l : List α} (h : walkBack step l = some head) :
    ∃ between a rest, l = between ++ a :: rest ∧ (∀ b ∈ between, step b = .pass) ∧
      step a = .found head := by
  induction l with
  | nil => cases h
  | cons a rest ih =>
    rw [walkBack] at h
    cases hstep : step a with
    | pass =>
      rw [hstep] at h
      obtain ⟨between, b, rest', rfl, hover, hfound⟩ := ih h
      refine ⟨a :: between, b, rest', rfl, fun c hc => ?_, hfound⟩
      rcases mem_cons.mp hc with rfl | hc
      · exact hstep
      · exact hover c hc
    | found k =>
      rw [hstep] at h
      cases h
      exact ⟨[], a, rest, rfl, fun c hc => (not_mem_nil hc).elim, hstep⟩
    | stop =>
      rw [hstep] at h
      cases h

theorem owner_eq (hfound : step a = .found head) (hover : ∀ b ∈ between, step b = .pass) :
    owner step (above ++ a :: between) = some head := by
  rw [owner, reverse_append, reverse_cons, append_assoc,
    walkBack_append fun b hb => hover b (mem_reverse.mp hb)]
  rw [singleton_append, walkBack, hfound]

theorem exists_head_of_owner {rows : List α} (h : owner step rows = some head) :
    ∃ a ∈ rows, step a = .found head := by
  obtain ⟨between, a, rest, hrows, -, hfound⟩ := exists_of_walkBack h
  refine ⟨a, mem_reverse.mp ?_, hfound⟩
  rw [hrows]
  exact mem_append_right _ mem_cons_self

/-- **The piece that a row is drawn from.** -/
theorem exists_split_of_flatMap {draw : β → List α} {pieces : List β} {below : List α}
    (h : pieces.flatMap draw = above ++ a :: below) :
    ∃ before piece after top bottom, pieces = before ++ piece :: after ∧
      draw piece = top ++ a :: bottom ∧ above = before.flatMap draw ++ top := by
  induction pieces generalizing above with
  | nil =>
    rw [flatMap_nil] at h
    exact absurd h.symm (append_ne_nil_of_right_ne_nil _ (cons_ne_nil _ _))
  | cons piece pieces ih =>
    rw [flatMap_cons, append_eq_append_iff] at h
    rcases h with ⟨rest, rfl, hrest⟩ | ⟨rest, hdraw, hrest⟩
    · obtain ⟨before, q, after, top, bottom, rfl, hq, rfl⟩ := ih hrest
      refine ⟨piece :: before, q, after, top, bottom, rfl, hq, ?_⟩
      rw [flatMap_cons, append_assoc]
    · cases rest with
      | nil =>
        rw [append_nil] at hdraw
        rw [nil_append] at hrest
        obtain ⟨before, q, after, top, bottom, rfl, hq, htop⟩ := @ih [] hrest.symm
        refine ⟨piece :: before, q, after, top, bottom, rfl, hq, ?_⟩
        rw [flatMap_cons, append_assoc, ← htop, hdraw, append_nil]
      | cons b rest =>
        obtain ⟨rfl, -⟩ := List.cons.inj hrest
        exact ⟨[], piece, pieces, above, rest, rfl, hdraw, rfl⟩

end Outline
