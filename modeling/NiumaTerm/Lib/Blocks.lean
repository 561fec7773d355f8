import Mathlib.Data.List.Basic
import Mathlib.Data.List.TakeWhile

/-!
# Single elements and runs

A list is read from its start.  Some elements stand alone, others are grouped with those next to them
into a run.  A hidden element is no part of the result and does not end a run, a skipped one ends it.
-/

namespace Blocks

open List

variable {α : Type*}

inductive Kind
  | skipped
  | hidden
  | single
  | grouped
  deriving DecidableEq

inductive Block (α : Type*)
  | single (a : α)
  | run (first : α) (members : List α)

def Block.members : Block α → List α
  | single a => [a]
  | run _ members => members

def Kind.shown (kind : Kind) : Bool := kind = .single ∨ kind = .grouped

/-- What a run may go on over. -/
def Kind.continues (kind : Kind) : Bool := kind = .hidden ∨ kind = .grouped

variable (kind : α → Kind)

def blocks : List α → List (Block α)
  | [] => []
  | a :: rest =>
    match kind a with
    | .skipped | .hidden => blocks rest
    | .single => .single a :: blocks rest
    | .grouped =>
      .run a (a :: (rest.takeWhile fun b => (kind b).continues).filter fun b => kind b = .grouped) ::
        blocks (rest.dropWhile fun b => (kind b).continues)
termination_by l => l.length
decreasing_by
  all_goals simp only [length_cons]
  any_goals omega
  exact Nat.lt_succ_of_le (length_dropWhile_le _ _)

variable {kind} {a : α} {rest l : List α}

@[simp] theorem blocks_nil : blocks kind [] = [] := by rw [blocks]

theorem blocks_of_not_shown (h : (kind a).shown = false) :
    blocks kind (a :: rest) = blocks kind rest := by
  rw [blocks]
  cases hkind : kind a with
  | skipped | hidden => rfl
  | single | grouped => rw [hkind] at h; cases h

theorem blocks_of_single (h : kind a = .single) :
    blocks kind (a :: rest) = .single a :: blocks kind rest := by
  rw [blocks, h]

theorem blocks_of_grouped (h : kind a = .grouped) :
    blocks kind (a :: rest) =
      .run a (a :: (rest.takeWhile fun b => (kind b).continues).filter fun b => kind b = .grouped) ::
        blocks kind (rest.dropWhile fun b => (kind b).continues) := by
  rw [blocks, h]

theorem blocks_induction {motive : List α → Prop} (nil : motive [])
    (skip : ∀ a rest, (kind a).shown = false → motive rest → motive (a :: rest))
    (single : ∀ a rest, kind a = .single → motive rest → motive (a :: rest))
    (run : ∀ a rest, kind a = .grouped →
      motive (rest.dropWhile fun b => (kind b).continues) → motive (a :: rest)) (l : List α) :
    motive l := by
  induction l using blocks.induct kind with
  | case1 => exact nil
  | case2 a rest h ih | case3 a rest h ih => exact skip a rest (by rw [h]; rfl) ih
  | case4 a rest h ih => exact single a rest h ih
  | case5 a rest h ih => exact run a rest h ih

theorem mem_continues {b : α} (h : b ∈ rest.takeWhile fun b => (kind b).continues) :
    (kind b).continues = true :=
  @List.mem_takeWhile_imp _ (fun b => (kind b).continues) _ _ h

theorem filter_shown_takeWhile (rest : List α) :
    (rest.takeWhile fun b => (kind b).continues).filter (fun b => (kind b).shown) =
      (rest.takeWhile fun b => (kind b).continues).filter fun b => kind b = .grouped := by
  refine filter_congr fun b hb => ?_
  have hcontinues := mem_continues hb
  cases hkind : kind b with
  | skipped | single => rw [hkind] at hcontinues; cases hcontinues
  | hidden | grouped => rfl

/-- **Every element that is shown is in one block, in order.** -/
theorem members_blocks (l : List α) :
    (blocks kind l).flatMap Block.members = l.filter fun a => (kind a).shown := by
  induction l using @blocks_induction _ kind with
  | nil => rw [blocks_nil]; rfl
  | skip a rest h ih => rw [blocks_of_not_shown h, ih, filter_cons_of_neg (by rw [h]; simp)]
  | single a rest h ih =>
    rw [blocks_of_single h, flatMap_cons, ih, filter_cons_of_pos (by rw [h]; rfl)]
    rfl
  | run a rest h ih =>
    rw [blocks_of_grouped h, flatMap_cons, ih, filter_cons_of_pos (by rw [h]; rfl),
      Block.members, ← filter_shown_takeWhile, cons_append, ← filter_append,
      takeWhile_append_dropWhile]

variable {members : List α}

/-- **A run lies in a stretch of the list** that begins with its first element. -/
theorem exists_span_of_run_mem (h : Block.run a members ∈ blocks kind l) :
    ∃ before span after, l = before ++ a :: span ++ after ∧ kind a = .grouped ∧
      (∀ b ∈ span, (kind b).continues = true) ∧
      members = a :: span.filter fun b => kind b = .grouped := by
  induction l using @blocks_induction _ kind with
  | nil => rw [blocks_nil] at h; cases h
  | skip b rest hb ih =>
    obtain ⟨before, span, after, rfl, hspan⟩ := ih (by rwa [blocks_of_not_shown hb] at h)
    exact ⟨b :: before, span, after, rfl, hspan⟩
  | single b rest hb ih =>
    rw [blocks_of_single hb, mem_cons] at h
    rcases h with heq | h
    · cases heq
    · obtain ⟨before, span, after, rfl, hspan⟩ := ih h
      exact ⟨b :: before, span, after, rfl, hspan⟩
  | run b rest hb ih =>
    rw [blocks_of_grouped hb, mem_cons] at h
    rcases h with heq | h
    · cases heq
      refine ⟨[], rest.takeWhile fun b => (kind b).continues,
        rest.dropWhile fun b => (kind b).continues, ?_, hb, fun b hb => mem_continues hb, rfl⟩
      rw [nil_append, cons_append, takeWhile_append_dropWhile]
    · obtain ⟨before, span, after, hrest, hspan⟩ := ih h
      refine ⟨b :: (rest.takeWhile fun b => (kind b).continues) ++ before, span, after, ?_, hspan⟩
      rw [cons_append, cons_append, cons_append, append_assoc,
        append_assoc, ← append_assoc before, ← hrest, takeWhile_append_dropWhile]

/-! ### Where a stretch ends -/

section

variable {p : α → Bool} {i : ℕ}

theorem length_takeWhile_le (p : α → Bool) (l : List α) : (l.takeWhile p).length ≤ l.length :=
  ( takeWhile_prefix p).length_le

theorem exists_of_lt_takeWhile (h : i < (l.takeWhile p).length) :
    ∃ a, l[i]? = some a ∧ p a = true := by
  refine ⟨(l.takeWhile p)[i], ?_, mem_takeWhile_imp (getElem_mem h)⟩
  obtain ⟨rest, hrest⟩ := takeWhile_prefix (l := l) p
  conv_lhs => rw [← hrest]
  rw [getElem?_append_left h, getElem?_eq_getElem h]

theorem eq_false_of_getElem?_takeWhile (h : l[(l.takeWhile p).length]? = some a) : p a = false := by
  induction l with
  | nil => cases h
  | cons b l ih =>
    cases hp : p b with
    | true =>
      rw [takeWhile_cons_of_pos hp, length_cons, getElem?_cons_succ] at h
      exact ih h
    | false =>
      rw [takeWhile_cons_of_neg (by rw [hp]; exact Bool.false_ne_true)] at h
      cases h
      exact hp

end

end Blocks
