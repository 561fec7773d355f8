import Mathlib.Algebra.Order.Group.Int
import NiumaTerm.Terminal.FrozenSelection

/-!
# The selection of the live screen

A selection has two anchors, each a half of a cell, and `toRangeEngine` turns it into a range of whole cells.
An anchor stands for an edge of its cell (`Anchor.boundary`), and `halfCell_iff` says when a simple selection
covers the cells between its edges, and only there.
-/

namespace NiumaTerm.Terminal

structure Pos where
  row : ℤ
  col : ℕ
deriving DecidableEq

namespace Pos

/-- Reading order. -/
instance : LE Pos := ⟨fun p q => p.row < q.row ∨ p.row = q.row ∧ p.col ≤ q.col⟩

instance : LT Pos := ⟨fun p q => p.row < q.row ∨ p.row = q.row ∧ p.col < q.col⟩

instance (p q : Pos) : Decidable (p ≤ q) :=
  inferInstanceAs (Decidable (p.row < q.row ∨ p.row = q.row ∧ p.col ≤ q.col))

instance (p q : Pos) : Decidable (p < q) :=
  inferInstanceAs (Decidable (p.row < q.row ∨ p.row = q.row ∧ p.col < q.col))

variable (p q : Pos)

theorem le_iff : p ≤ q ↔ p.row < q.row ∨ p.row = q.row ∧ p.col ≤ q.col := .rfl

theorem lt_iff : p < q ↔ p.row < q.row ∨ p.row = q.row ∧ p.col < q.col := .rfl

def shift (rows : ℤ) : Pos := { p with row := p.row + rows }

variable {p q}

theorem le_refl (p : Pos) : p ≤ p := .inr ⟨rfl, Nat.le_refl _⟩

theorem le_total (p q : Pos) : p ≤ q ∨ q ≤ p := by
  simp only [le_iff]
  omega

theorem shift_le {rows : ℤ} : p.shift rows ≤ q.shift rows ↔ p ≤ q := by
  simp only [le_iff, shift]
  omega

theorem shift_inj {rows : ℤ} : p.shift rows = q.shift rows ↔ p = q := by
  obtain ⟨row, col⟩ := p
  obtain ⟨row', col'⟩ := q
  simp [shift]

end Pos

inductive Side
  | left
  | right
deriving DecidableEq

structure Anchor where
  point : Pos
  side : Side
deriving DecidableEq

def Anchor.shift (a : Anchor) (rows : ℤ) : Anchor := { a with point := a.point.shift rows }

structure SelectionRange where
  start : Pos
  stop : Pos
  isBlock : Bool
deriving DecidableEq

/-- What the visible rows give to selections that grow to lines and words. -/
structure VisibleGrid where
  columns : ℕ
  rangeLines : Pos → Pos → SelectionRange
  rangeSemantic : Pos → Pos → SelectionRange

structure Selection where
  ty : SelectionType
  start : Anchor
  stop : Anchor

namespace Selection

variable (s : Selection)

/-- The anchors, the first in reading order before the other. -/
def ordered : Anchor × Anchor :=
  if s.stop.point < s.start.point then (s.stop, s.start) else (s.start, s.stop)

def isEmpty : Bool :=
  match s.ty with
  | .simple =>
    let (start, stop) := s.ordered
    start = stop || (start.side = .right && stop.side = .left &&
      start.point.row = stop.point.row && start.point.col + 1 = stop.point.col)
  | .block =>
    (s.start.point.col = s.stop.point.col && s.start.side = s.stop.side) ||
      (s.start.point.col + 1 = s.stop.point.col && s.start.side = .right && s.stop.side = .left) ||
      (s.stop.point.col + 1 = s.start.point.col && s.start.side = .left && s.stop.side = .right)
  | .semantic | .lines => false

/-- The last cell, when the selection ends at `stop`. -/
def simpleStop (start stop : Anchor) (columns : ℕ) : Pos :=
  if stop.side = .left ∧ start.point ≠ stop.point then
    if stop.point.col = 0 then ⟨stop.point.row - 1, columns - 1⟩
    else ⟨stop.point.row, stop.point.col - 1⟩
  else stop.point

/-- The first cell, when the last is `stop`. -/
def simpleStart (start : Anchor) (stop : Pos) (columns : ℕ) : Pos :=
  if start.side = .right ∧ start.point ≠ stop then
    if start.point.col + 1 = columns then ⟨start.point.row + 1, 0⟩
    else ⟨start.point.row, start.point.col + 1⟩
  else start.point

def rangeSimple (start stop : Anchor) (columns : ℕ) : Option SelectionRange :=
  if s.isEmpty then none
  else
    let last := simpleStop start stop columns
    some ⟨simpleStart start last columns, last, false⟩

def rangeBlock (start stop : Anchor) : Option SelectionRange :=
  if s.isEmpty then none
  else
    let (start, stop) : Anchor × Anchor :=
      if stop.point.col < start.point.col then
        (⟨⟨start.point.row, stop.point.col⟩, stop.side⟩,
          ⟨⟨stop.point.row, start.point.col⟩, start.side⟩)
      else (start, stop)
    let last : Pos :=
      if stop.side = .left ∧ start.point ≠ stop.point ∧ 0 < stop.point.col then
        ⟨stop.point.row, stop.point.col - 1⟩
      else stop.point
    let first : Pos :=
      if start.side = .right ∧ start.point ≠ last then ⟨start.point.row, start.point.col + 1⟩
      else start.point
    some ⟨first, last, true⟩

/-- In rows of the viewport, whose first row is `viewportTop`. -/
def toRangeEngine (grid : VisibleGrid) (viewportTop : ℤ) : Option SelectionRange :=
  let start := s.ordered.1.shift (-viewportTop)
  let stop := s.ordered.2.shift (-viewportTop)
  match s.ty with
  | .simple => s.rangeSimple start stop grid.columns
  | .block => s.rangeBlock start stop
  | .lines => some (grid.rangeLines start.point stop.point)
  | .semantic => some (grid.rangeSemantic start.point stop.point)

end Selection

/-! ## What a selection should cover -/

namespace Anchor

variable (a : Anchor)

/-- The edge that `a` stands for: the edge at the left of this position. -/
def boundary : Pos := ⟨a.point.row, a.point.col + if a.side = .right then 1 else 0⟩

end Anchor

def SelectionRange.Covers (range : SelectionRange) (cell : Pos) : Prop :=
  range.start ≤ cell ∧ cell ≤ range.stop

def Between (lo hi cell : Pos) : Prop := lo ≤ cell ∧ ⟨cell.row, cell.col + 1⟩ ≤ hi

namespace Selection

variable (s : Selection)

/-- The cell is wholly between the two anchors. -/
def Encloses (cell : Pos) : Prop :=
  Between s.start.boundary s.stop.boundary cell ∨ Between s.stop.boundary s.start.boundary cell

/-- The range has the cells that the selection encloses, and is none when there are none. -/
def HalfCell (grid : VisibleGrid) (viewportTop : ℤ) : Prop :=
  (∀ cell : Pos, cell.col < grid.columns →
    ((∃ range ∈ s.toRangeEngine grid viewportTop, range.Covers cell) ↔
      s.Encloses (cell.shift viewportTop))) ∧
  (s.toRangeEngine grid viewportTop = none ↔
    ∀ cell : Pos, cell.col < grid.columns → ¬ s.Encloses cell)

/-- One edge is the right edge of a row, or outside of it, and the other follows without a cell
between them: further outside of that row, or at the left edge of the next. -/
def Wraps (columns : ℕ) (lo hi : Pos) : Prop :=
  columns ≤ lo.col ∧ (hi.row = lo.row ∧ lo.col < hi.col ∨ hi.row = lo.row + 1 ∧ hi.col = 0)

instance (columns : ℕ) (lo hi : Pos) : Decidable (Wraps columns lo hi) :=
  inferInstanceAs (Decidable (_ ∧ _))

/-- The edges lie apart, with no cell between them. -/
def Apart (columns : ℕ) : Prop :=
  Wraps columns s.start.boundary s.stop.boundary ∨ Wraps columns s.stop.boundary s.start.boundary

instance (columns : ℕ) : Decidable (s.Apart columns) := inferInstanceAs (Decidable (_ ∨ _))

end Selection

/-! ## Edges -/

section

variable {columns : ℕ} {lo hi cell : Pos}

theorem between_shift (rows : ℤ) :
    Between (lo.shift (-rows)) (hi.shift (-rows)) cell ↔ Between lo hi (cell.shift rows) := by
  simp only [Between, Pos.le_iff, Pos.shift]
  omega

theorem not_between_of_le (h : hi ≤ lo) : ¬ Between lo hi cell := by
  simp only [Between, Pos.le_iff] at h ⊢
  omega

/-- Between edges that differ there is a cell, unless one wraps to the other. -/
theorem exists_between (hcolumns : 1 ≤ columns) (hle : lo ≤ hi) (hne : lo ≠ hi)
    (hwrap : ¬ Selection.Wraps columns lo hi) : ∃ cell, cell.col < columns ∧ Between lo hi cell := by
  obtain ⟨row, col⟩ := lo
  obtain ⟨row', col'⟩ := hi
  simp only [Pos.le_iff, ne_eq, Pos.mk.injEq, Selection.Wraps] at hle hne hwrap
  by_cases hcol : col < columns
  · refine ⟨⟨row, col⟩, hcol, ?_⟩
    simp only [Between, Pos.le_iff, true_and]
    omega
  · refine ⟨⟨row + 1, 0⟩, hcolumns, ?_⟩
    simp only [Between, Pos.le_iff]
    omega

theorem not_between_of_wraps (h : Selection.Wraps columns lo hi) (hcell : cell.col < columns) :
    ¬ Between lo hi cell ∧ ¬ Between hi lo cell := by
  simp only [Selection.Wraps, Between, Pos.le_iff] at h ⊢
  omega

end

namespace Anchor

variable (a : Anchor)

@[simp] theorem boundary_shift (rows : ℤ) : (a.shift rows).boundary = a.boundary.shift rows := rfl

end Anchor

namespace Selection

variable {s : Selection} {lo hi : Anchor} {columns : ℕ} {cell : Pos}

@[simp] theorem wraps_shift {p q : Pos} (rows : ℤ) :
    Wraps columns (p.shift rows) (q.shift rows) ↔ Wraps columns p q := by
  simp only [Wraps, Pos.shift]
  omega

theorem ordered_cases :
    s.ordered = (s.start, s.stop) ∧ s.start.point ≤ s.stop.point ∨
      s.ordered = (s.stop, s.start) ∧ s.stop.point ≤ s.start.point := by
  rw [ordered]
  split_ifs with hlt
  · refine .inr ⟨rfl, ?_⟩
    rw [Pos.lt_iff] at hlt
    rw [Pos.le_iff]
    omega
  · refine .inl ⟨rfl, ?_⟩
    rw [Pos.lt_iff] at hlt
    rw [Pos.le_iff]
    omega

/-! ## The source's adjustments -/

theorem le_simpleStop (hne : lo.point ≠ hi.point ∨ hi.side = .right) (hcell : cell.col < columns) :
    cell ≤ simpleStop lo hi columns ↔ ⟨cell.row, cell.col + 1⟩ ≤ hi.boundary := by
  obtain ⟨point, _ | _⟩ := hi
  · have hpoint : lo.point ≠ point := hne.resolve_right nofun
    rw [simpleStop, if_pos ⟨rfl, hpoint⟩]
    split_ifs with hcol
    · simp only [Pos.le_iff, Anchor.boundary] at hcol ⊢
      simp only [hcol, reduceCtorEq, if_false]
      omega
    · simp only [Pos.le_iff, Anchor.boundary, reduceCtorEq, if_false] at hcol ⊢
      omega
  · rw [simpleStop, if_neg (by simp)]
    simp [Pos.le_iff, Anchor.boundary]

theorem simpleStart_le {last : Pos} (hne : lo.point ≠ last ∨ lo.side = .left)
    (hcell : cell.col < columns) :
    simpleStart lo last columns ≤ cell ↔ lo.boundary ≤ cell := by
  obtain ⟨point, _ | _⟩ := lo
  · rw [simpleStart, if_neg (by simp)]
    simp [Pos.le_iff, Anchor.boundary]
  · have hpoint : point ≠ last := hne.resolve_right nofun
    rw [simpleStart, if_pos ⟨rfl, hpoint⟩]
    split_ifs with hcol
    · simp only [Pos.le_iff, Anchor.boundary, if_true] at hcol ⊢
      omega
    · simp [Pos.le_iff, Anchor.boundary]

/-- The last cell is the first anchor's own only where one edge wraps to the other. -/
theorem simpleStop_ne (hpoint : lo.point ≠ hi.point) (hne : lo.boundary ≠ hi.boundary)
    (hcolumns : 1 ≤ columns) (hwrap : ¬ Wraps columns lo.boundary hi.boundary) :
    lo.point ≠ simpleStop lo hi columns ∨ lo.side = .left := by
  obtain ⟨⟨row, col⟩, _ | _⟩ := lo
  · exact .inr rfl
  · left
    obtain ⟨⟨row', col'⟩, _ | _⟩ := hi
    · rw [simpleStop, if_pos ⟨rfl, hpoint⟩]
      simp only [Anchor.boundary, Wraps, if_true, reduceCtorEq, if_false, ne_eq, Pos.mk.injEq] at *
      split_ifs with hcol
      · rw [Pos.mk.injEq]
        omega
      · rw [Pos.mk.injEq]
        omega
    · rwa [simpleStop, if_neg (by simp)]

theorem boundary_le (hle : lo.point ≤ hi.point) (hpoint : lo.point ≠ hi.point) :
    lo.boundary ≤ hi.boundary := by
  obtain ⟨⟨row, col⟩, side⟩ := lo
  obtain ⟨⟨row', col'⟩, side'⟩ := hi
  simp only [Pos.le_iff, ne_eq, Pos.mk.injEq, Anchor.boundary] at *
  split_ifs <;> omega

/-- A range covers the cells between its anchors' edges. -/
theorem covers_iff (hcolumns : 1 ≤ columns) (hle : lo.point ≤ hi.point)
    (hne : lo.boundary ≠ hi.boundary) (hwrap : ¬ Wraps columns lo.boundary hi.boundary)
    (hcell : cell.col < columns) :
    let last := simpleStop lo hi columns
    (simpleStart lo last columns ≤ cell ∧ cell ≤ last) ↔
      Between lo.boundary hi.boundary cell ∨ Between hi.boundary lo.boundary cell := by
  intro last
  by_cases hpoint : lo.point = hi.point
  · -- the two halves of one cell
    obtain ⟨point, side⟩ := lo
    obtain ⟨_, side'⟩ := hi
    obtain rfl : point = _ := hpoint
    have hlast : last = point := by simp [last, simpleStop]
    rw [hlast, simpleStart, if_neg (by simp)]
    obtain ⟨row, col⟩ := point
    cases side <;> cases side' <;>
      simp only [Between, Pos.le_iff, Anchor.boundary, if_true, reduceCtorEq, if_false, ne_eq,
        not_true_eq_false] at hne ⊢ <;> omega
  · rw [simpleStart_le (simpleStop_ne hpoint hne hcolumns hwrap) hcell,
      le_simpleStop (.inl hpoint) hcell,
      or_iff_left (not_between_of_le (boundary_le hle hpoint)), Between]

/-- Two anchors at one edge are the same, or adjacent halves of one row. -/
theorem isEmpty_iff (hty : s.ty = .simple) : s.isEmpty ↔ s.start.boundary = s.stop.boundary := by
  have hpair : ∀ lo hi : Anchor, lo.point ≤ hi.point →
      ((lo = hi || (lo.side = .right && hi.side = .left && lo.point.row = hi.point.row &&
        lo.point.col + 1 = hi.point.col)) = true ↔ lo.boundary = hi.boundary) := by
    rintro ⟨⟨row, col⟩, side⟩ ⟨⟨row', col'⟩, side'⟩ hle
    cases side <;> cases side' <;> simp [Pos.le_iff, Anchor.boundary] at hle ⊢
    omega
  rw [isEmpty, hty]
  rcases s.ordered_cases with ⟨hordered, hle⟩ | ⟨hordered, hle⟩
  · rw [hordered]
    exact hpair _ _ hle
  · rw [hordered, eq_comm (a := s.start.boundary)]
    exact hpair _ _ hle

theorem rangeSimple_eq_none {start stop : Anchor} :
    s.rangeSimple start stop columns = none ↔ s.isEmpty := by
  rw [rangeSimple]
  split_ifs with hempty <;> simp [hempty]

theorem toRangeEngine_simple (hty : s.ty = .simple) (grid : VisibleGrid) (viewportTop : ℤ) :
    s.toRangeEngine grid viewportTop =
      s.rangeSimple (s.ordered.1.shift (-viewportTop)) (s.ordered.2.shift (-viewportTop))
        grid.columns := by
  rw [toRangeEngine, hty]

/-! ## The cells of a range -/

section

variable (rows : ℤ) (hcolumns : 1 ≤ columns) (hempty : s.isEmpty ↔ lo.boundary = hi.boundary)
include hcolumns hempty

theorem exists_covers_iff (hle : lo.point ≤ hi.point)
    (hwrap : ¬ Wraps columns lo.boundary hi.boundary) (hcell : cell.col < columns) :
    (∃ range ∈ s.rangeSimple (lo.shift (-rows)) (hi.shift (-rows)) columns, range.Covers cell) ↔
      Between lo.boundary hi.boundary (cell.shift rows) ∨
        Between hi.boundary lo.boundary (cell.shift rows) := by
  rw [rangeSimple]
  split_ifs with hs
  · rw [hempty.mp hs, or_self]
    simp [not_between_of_le (Pos.le_refl hi.boundary)]
  · have hshift : (lo.shift (-rows)).boundary ≠ (hi.shift (-rows)).boundary := by
      simpa [Pos.shift_inj] using hs ∘ hempty.mpr
    have hcovers := @covers_iff (lo.shift (-rows)) (hi.shift (-rows)) columns cell hcolumns
      (Pos.shift_le.mpr hle) hshift (by simpa using hwrap) hcell
    simp only [Anchor.boundary_shift, between_shift] at hcovers
    simpa [SelectionRange.Covers] using hcovers

theorem isEmpty_iff_not_encloses (hle : lo.boundary ≤ hi.boundary ∨ hi.boundary ≤ lo.boundary)
    (hwrap : ¬ Wraps columns lo.boundary hi.boundary)
    (hwrap' : ¬ Wraps columns hi.boundary lo.boundary) :
    s.isEmpty ↔ ∀ cell : Pos, cell.col < columns →
      ¬ (Between lo.boundary hi.boundary cell ∨ Between hi.boundary lo.boundary cell) := by
  rw [hempty]
  constructor
  · intro h cell _
    rw [h, or_self]
    exact not_between_of_le (Pos.le_refl _)
  · intro h
    by_contra hne
    rcases hle with hle | hle
    · obtain ⟨cell, hcell, hbetween⟩ := exists_between hcolumns hle hne hwrap
      exact h cell hcell (.inl hbetween)
    · obtain ⟨cell, hcell, hbetween⟩ := exists_between hcolumns hle (Ne.symm hne) hwrap'
      exact h cell hcell (.inr hbetween)

end

end Selection

/-- **A simple selection covers the cells between its edges** exactly when no edge lies apart from
the other without a cell between them: at the right end of a row, with the other at the left end of
the next. -/
theorem halfCell_iff (a b : Anchor) (grid : VisibleGrid) (hcolumns : 1 ≤ grid.columns)
    (viewportTop : ℤ) :
    (Selection.mk .simple a b).HalfCell grid viewportTop ↔
      ¬ (Selection.mk .simple a b).Apart grid.columns := by
  set s : Selection := ⟨.simple, a, b⟩
  have hempty : s.isEmpty ↔ a.boundary = b.boundary := Selection.isEmpty_iff rfl
  have hnone : s.toRangeEngine grid viewportTop = none ↔ s.isEmpty := by
    rw [Selection.toRangeEngine_simple rfl, Selection.rangeSimple_eq_none]
  constructor
  · rintro ⟨-, hrange⟩ hapart
    have hno : ∀ cell : Pos, cell.col < grid.columns → ¬ s.Encloses cell := by
      intro cell hcell
      rcases hapart with hwrap | hwrap
      · obtain ⟨h, h'⟩ := not_between_of_wraps hwrap hcell
        exact not_or.mpr ⟨h, h'⟩
      · obtain ⟨h, h'⟩ := not_between_of_wraps hwrap hcell
        exact not_or.mpr ⟨h', h⟩
    have heq : a.boundary = b.boundary := hempty.mp (hnone.mp (hrange.mpr hno))
    simp [Selection.Apart, s, heq, Selection.Wraps] at hapart
  · intro hapart
    obtain ⟨hwrap, hwrap'⟩ := not_or.mp hapart
    refine ⟨fun cell hcell ↦ ?_, ?_⟩
    · rw [Selection.toRangeEngine_simple rfl]
      rcases s.ordered_cases with ⟨hordered, hle⟩ | ⟨hordered, hle⟩
      · rw [hordered]
        exact Selection.exists_covers_iff viewportTop hcolumns hempty hle hwrap hcell
      · rw [hordered, Selection.Encloses, or_comm]
        exact Selection.exists_covers_iff viewportTop hcolumns (hempty.trans eq_comm) hle hwrap'
          hcell
    · rw [hnone]
      exact Selection.isEmpty_iff_not_encloses hcolumns hempty (Pos.le_total _ _) hwrap hwrap'

/-- Ten columns whose rows do not wrap, and words of one cell. -/
def tenColumns : VisibleGrid where
  columns := 10
  rangeLines start stop := ⟨⟨start.row, 0⟩, ⟨stop.row, 9⟩, false⟩
  rangeSemantic start stop := ⟨start, stop, false⟩

theorem halfCell_oneCell :
    (Selection.mk .simple ⟨⟨0, 1⟩, .right⟩ ⟨⟨0, 3⟩, .left⟩).HalfCell tenColumns 0 :=
  (halfCell_iff _ _ tenColumns (by decide) 0).mpr (by decide)

/-- From the right end of a row to the left end of the next the row's last cell is selected. -/
theorem halfCell_lineBreak :
    let s : Selection := ⟨.simple, ⟨⟨0, 9⟩, .right⟩, ⟨⟨1, 0⟩, .left⟩⟩
    s.toRangeEngine tenColumns 0 = some ⟨⟨0, 9⟩, ⟨0, 9⟩, false⟩ ∧ ¬ s.HalfCell tenColumns 0 := by
  intro s
  have hrange : s.toRangeEngine tenColumns 0 = some ⟨⟨0, 9⟩, ⟨0, 9⟩, false⟩ := by decide
  refine ⟨hrange, fun h ↦ ?_⟩
  have hcovers := (h.1 ⟨0, 9⟩ (by decide)).mp ⟨_, hrange, .inr ⟨rfl, Nat.le_refl _⟩, .inr
    ⟨rfl, Nat.le_refl _⟩⟩
  simp [s, Selection.Encloses, Between, Pos.le_iff, Anchor.boundary, Pos.shift] at hcovers

end NiumaTerm.Terminal
