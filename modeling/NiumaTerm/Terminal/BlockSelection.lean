import NiumaTerm.Terminal.Selection

/-!
# Block selections

`rangeBlock` finds the columns between the edges of the two anchors (`left`, `right`), unless the selection is
`Crossed`: both anchors are in one column of different rows, the upper one at the right edge and the lower
one at the left.
-/

namespace NiumaTerm.Terminal

/-! ## The selected cells of a row -/

/-- The first and the last selected column of a row. -/
structure RowSelection where
  lo : ℕ
  hi : ℕ
deriving DecidableEq

def asU16 (n : ℕ) : ℕ := n % 65536

/-- The selected columns of the visible row `y`, if any. -/
def rowSelectionFor (sel : Option SelectionRange) (y cols : ℕ) : Option RowSelection :=
  sel.bind fun sel =>
    if cols = 0 then none
    else if (y : ℤ) < sel.start.row ∨ sel.stop.row < (y : ℤ) then none
    else
      let colsMax := cols - 1
      -- every row inside the band uses the same span
      if sel.isBlock then some ⟨asU16 (min sel.start.col colsMax), asU16 (min sel.stop.col colsMax)⟩
      else
        let lo := if (y : ℤ) = sel.start.row then sel.start.col else 0
        let hi := if (y : ℤ) = sel.stop.row then sel.stop.col else colsMax
        some ⟨asU16 (min lo colsMax), asU16 (min hi colsMax)⟩

namespace Selection

variable (s : Selection)

/-- The range, if there is one, has its first column before its last and both in the grid, and so do
the spans of its rows. -/
def NotInverted (grid : VisibleGrid) (viewportTop : ℤ) : Prop :=
  s.isEmpty = true ∧ s.toRangeEngine grid viewportTop = none ∨
  ∃ range, s.toRangeEngine grid viewportTop = some range ∧
    range.start.col ≤ range.stop.col ∧ range.stop.col < grid.columns ∧
    range.start.row ≤ range.stop.row ∧
    ∀ y : ℕ, range.start.row ≤ y → (y : ℤ) ≤ range.stop.row →
      ∃ span, rowSelectionFor (some range) y grid.columns = some span ∧
        span.lo ≤ span.hi ∧ span.hi < grid.columns

/-- The first column between the edges. -/
def left : ℕ := min s.start.boundary.col s.stop.boundary.col

/-- The column after the last one between the edges. -/
def right : ℕ := max s.start.boundary.col s.stop.boundary.col

/-- In one column, the upper anchor is at the right edge and the lower one at the left. -/
def Crossed : Prop :=
  s.ordered.1.point.col = s.ordered.2.point.col ∧ s.ordered.1.point.row ≠ s.ordered.2.point.row ∧
    s.ordered.1.side = .right ∧ s.ordered.2.side = .left

instance : Decidable s.Crossed := inferInstanceAs (Decidable (_ ∧ _ ∧ _ ∧ _))

/-- There are columns between the edges, all of them in the grid, and they stay in order as 16-bit
numbers if a row of the selection is visible. -/
def InOrder (columns : ℕ) (viewportTop : ℤ) : Prop :=
  ¬ s.Crossed ∧ s.right ≤ columns ∧
    (viewportTop ≤ s.ordered.2.point.row → asU16 s.left ≤ asU16 (s.right - 1))

instance (columns : ℕ) (viewportTop : ℤ) : Decidable (s.InOrder columns viewportTop) :=
  inferInstanceAs (Decidable (_ ∧ _ ∧ _))

variable {s}

/-- Two anchors at edges of one column have no columns between them. -/
theorem isEmpty_block (hty : s.ty = .block) : s.isEmpty ↔ s.left = s.right := by
  obtain ⟨ty, ⟨⟨row, col⟩, side⟩, ⟨⟨row', col'⟩, side'⟩⟩ := s
  obtain rfl : ty = .block := hty
  cases side <;> cases side' <;>
    simp only [isEmpty, left, right, Anchor.boundary, Bool.or_eq_true, Bool.and_eq_true,
      decide_eq_true_eq, if_true, if_false, reduceCtorEq, and_true, and_false, or_false,
      false_or] <;> omega

theorem toRangeEngine_block (hty : s.ty = .block) (grid : VisibleGrid) (viewportTop : ℤ) :
    s.toRangeEngine grid viewportTop =
      s.rangeBlock (s.ordered.1.shift (-viewportTop)) (s.ordered.2.shift (-viewportTop)) := by
  rw [toRangeEngine, hty]

/-- The edges are those of the two anchors in reading order. -/
theorem left_right_ordered :
    s.left = min s.ordered.1.boundary.col s.ordered.2.boundary.col ∧
      s.right = max s.ordered.1.boundary.col s.ordered.2.boundary.col := by
  rcases s.ordered_cases with ⟨hordered, -⟩ | ⟨hordered, -⟩
  · rw [hordered]
    exact ⟨rfl, rfl⟩
  · rw [hordered]
    exact ⟨min_comm _ _, max_comm _ _⟩

theorem ordered_le : s.ordered.1.point ≤ s.ordered.2.point := by
  rcases s.ordered_cases with ⟨hordered, hle⟩ | ⟨hordered, hle⟩ <;> rwa [hordered]

/-- The range of a block is the rectangle between the edges. -/
theorem rangeBlock_eq {lo hi : Anchor} (hempty : s.isEmpty = false) (hle : lo.point ≤ hi.point)
    (hne : lo.boundary.col ≠ hi.boundary.col)
    (hcrossed : ¬ (lo.point.col = hi.point.col ∧ lo.point.row ≠ hi.point.row ∧ lo.side = .right ∧
      hi.side = .left)) :
    s.rangeBlock lo hi =
      some ⟨⟨lo.point.row, min lo.boundary.col hi.boundary.col⟩,
        ⟨hi.point.row, max lo.boundary.col hi.boundary.col - 1⟩, true⟩ := by
  rw [rangeBlock, if_neg (by simp [hempty])]
  obtain ⟨⟨row, col⟩, side⟩ := lo
  obtain ⟨⟨row', col'⟩, side'⟩ := hi
  simp only [Pos.le_iff] at hle
  cases side <;> cases side' <;>
    simp only [Anchor.boundary, if_true, if_false, reduceCtorEq, Nat.add_zero, and_true,
      and_false, not_false_eq_true, ne_eq] at hne hcrossed ⊢ <;>
    split_ifs <;>
    simp only [Option.some.injEq, SelectionRange.mk.injEq, Pos.mk.injEq, and_true, true_and,
      false_and, Nat.not_lt] at * <;>
    omega

/-- Both ends of a crossed block leave the column. -/
theorem rangeBlock_crossed {lo hi : Anchor} (hempty : s.isEmpty = false)
    (hcol : lo.point.col = hi.point.col) (hrow : lo.point.row ≠ hi.point.row)
    (hlo : lo.side = .right) (hhi : hi.side = .left) :
    s.rangeBlock lo hi =
      some ⟨⟨lo.point.row, lo.point.col + 1⟩, ⟨hi.point.row, lo.point.col - 1⟩, true⟩ := by
  rw [rangeBlock, if_neg (by simp [hempty])]
  obtain ⟨⟨row, col⟩, side⟩ := lo
  obtain ⟨⟨row', col'⟩, side'⟩ := hi
  obtain rfl : col = col' := hcol
  obtain rfl : side = .right := hlo
  obtain rfl : side' = .left := hhi
  have hpoint : (⟨row, col⟩ : Pos) ≠ ⟨row', col⟩ := fun he => hrow (Pos.mk.inj he).1
  rcases Nat.eq_zero_or_pos col with rfl | hpos
  · simp [hpoint]
  · have hlast : (⟨row, col⟩ : Pos) ≠ ⟨row', col - 1⟩ := fun he => hrow (Pos.mk.inj he).1
    simp [hpoint, hpos, hlast]

theorem toRangeEngine_inOrder (hty : s.ty = .block) (hempty : s.isEmpty = false)
    (hne : s.left ≠ s.right) (hcrossed : ¬ s.Crossed) (grid : VisibleGrid) (viewportTop : ℤ) :
    s.toRangeEngine grid viewportTop =
      some ⟨⟨s.ordered.1.point.row - viewportTop, s.left⟩,
        ⟨s.ordered.2.point.row - viewportTop, s.right - 1⟩, true⟩ := by
  obtain ⟨hleft, hright⟩ := s.left_right_ordered
  have hedges : (s.ordered.1.shift (-viewportTop)).boundary.col ≠
      (s.ordered.2.shift (-viewportTop)).boundary.col := by
    intro he
    simp only [Anchor.boundary_shift, Pos.shift] at he
    rw [hleft, hright, he, min_self, max_self] at hne
    exact hne rfl
  have hrows : ¬ ((s.ordered.1.shift (-viewportTop)).point.col =
      (s.ordered.2.shift (-viewportTop)).point.col ∧
      (s.ordered.1.shift (-viewportTop)).point.row ≠ (s.ordered.2.shift (-viewportTop)).point.row ∧
      (s.ordered.1.shift (-viewportTop)).side = .right ∧
      (s.ordered.2.shift (-viewportTop)).side = .left) := by
    simpa [Anchor.shift, Pos.shift, Crossed] using hcrossed
  rw [toRangeEngine_block hty, rangeBlock_eq hempty (Pos.shift_le.mpr ordered_le) hedges hrows,
    hleft, hright]
  rfl

theorem toRangeEngine_crossed (hty : s.ty = .block) (hempty : s.isEmpty = false)
    (hcrossed : s.Crossed) (grid : VisibleGrid) (viewportTop : ℤ) :
    ∃ range, s.toRangeEngine grid viewportTop = some range ∧ range.stop.col < range.start.col := by
  obtain ⟨hcol, hrow, hlo, hhi⟩ := hcrossed
  refine ⟨_, (toRangeEngine_block hty grid viewportTop).trans
    (rangeBlock_crossed hempty hcol ?_ hlo hhi), Nat.lt_succ_of_le (Nat.sub_le _ _)⟩
  intro he
  exact hrow (add_right_cancel he)

/-! ## The spans of the rows -/

theorem asU16_le (n : ℕ) : asU16 n ≤ n := Nat.mod_le _ _

/-- Every visible row of a block has the same span. -/
theorem rowSelectionFor_block {first last : Pos} {y columns : ℕ} (hcolumns : 1 ≤ columns)
    (hstart : first.row ≤ y) (hstop : (y : ℤ) ≤ last.row) (hcol : first.col ≤ last.col)
    (hin : last.col < columns) :
    rowSelectionFor (some ⟨first, last, true⟩) y columns =
      some ⟨asU16 first.col, asU16 last.col⟩ := by
  rw [rowSelectionFor, Option.bind_some, if_neg (by omega), if_neg (by simp only; omega),
    if_pos rfl, Nat.min_eq_left (by simp only; omega), Nat.min_eq_left (by simp only; omega)]

end Selection

/-- **A block selection is not inverted** exactly when it is empty or its edges are in order: it is
not crossed, and its columns are in the grid and stay in order as 16-bit numbers. -/
theorem notInverted_iff (a b : Anchor) (grid : VisibleGrid) (hcolumns : 1 ≤ grid.columns)
    (viewportTop : ℤ) :
    (Selection.mk .block a b).NotInverted grid viewportTop ↔
      (Selection.mk .block a b).left = (Selection.mk .block a b).right ∨
        (Selection.mk .block a b).InOrder grid.columns viewportTop := by
  set s : Selection := ⟨.block, a, b⟩
  have hempty : s.isEmpty ↔ s.left = s.right := Selection.isEmpty_block rfl
  by_cases hs : s.isEmpty = true
  · refine iff_of_true (.inl ⟨hs, ?_⟩) (.inl (hempty.mp hs))
    rw [Selection.toRangeEngine_block rfl, Selection.rangeBlock, if_pos hs]
  have hfalse : s.isEmpty = false := Bool.eq_false_iff.mpr hs
  have hne : s.left ≠ s.right := fun he ↦ hs (hempty.mpr he)
  have hlt : s.left < s.right := by
    rw [Selection.left, Selection.right] at hne ⊢
    omega
  rw [Selection.NotInverted, or_iff_right fun h ↦ hs h.1, or_iff_right hne]
  by_cases hcrossed : s.Crossed
  · -- the first column comes after the last
    obtain ⟨range, hrange, hinverted⟩ :=
      Selection.toRangeEngine_crossed rfl hfalse hcrossed grid viewportTop
    refine iff_of_false ?_ fun h ↦ h.1 hcrossed
    rintro ⟨range', hrange', hle, -⟩
    obtain rfl := Option.some.inj (hrange.symm.trans hrange')
    exact absurd hle (Nat.not_le.mpr hinverted)
  rw [Selection.toRangeEngine_inOrder rfl hfalse hne hcrossed]
  have hrows := Pos.le_iff _ _ |>.mp s.ordered_le
  have hrow : s.ordered.1.point.row - viewportTop ≤ s.ordered.2.point.row - viewportTop := by omega
  constructor
  · rintro ⟨range, hrange, hcol, hin, -, hspans⟩
    obtain rfl := Option.some.inj hrange
    refine ⟨hcrossed, Nat.le_of_pred_lt hin, fun hvisible ↦ ?_⟩
    -- the last row is visible
    have hlast : ((s.ordered.2.point.row - viewportTop).toNat : ℤ) =
        s.ordered.2.point.row - viewportTop := Int.toNat_of_nonneg (by omega)
    have hstart := hrow.trans hlast.ge
    obtain ⟨span, hspan, hle, -⟩ := hspans _ hstart hlast.le
    rw [Selection.rowSelectionFor_block hcolumns hstart hlast.le hcol hin] at hspan
    obtain rfl := Option.some.inj hspan
    exact hle
  · rintro ⟨-, hin, hspan⟩
    have hcol : s.left ≤ s.right - 1 := Nat.le_pred_of_lt hlt
    have hin : s.right - 1 < grid.columns := by omega
    refine ⟨_, rfl, hcol, hin, hrow, fun y hstart hstop ↦ ?_⟩
    refine ⟨_, Selection.rowSelectionFor_block hcolumns hstart hstop hcol hin, hspan ?_,
      (Selection.asU16_le _).trans_lt hin⟩
    simp only at hstop
    omega

/-- Columns 2 to 4 of two rows. -/
theorem notInverted_twoRows :
    (Selection.mk .block ⟨⟨0, 1⟩, .right⟩ ⟨⟨1, 4⟩, .right⟩).NotInverted tenColumns 0 :=
  (notInverted_iff _ _ tenColumns (by decide) 0).mpr (by decide)

/-- Down one column, from its right edge to its left edge, the range goes from column 4 to
column 2. -/
theorem inverted_downColumn :
    let s : Selection := ⟨.block, ⟨⟨0, 3⟩, .right⟩, ⟨⟨1, 3⟩, .left⟩⟩
    s.isEmpty = false ∧ s.toRangeEngine tenColumns 0 = some ⟨⟨0, 4⟩, ⟨1, 2⟩, true⟩ ∧
      rowSelectionFor (s.toRangeEngine tenColumns 0) 0 10 = some ⟨4, 2⟩ ∧
      ¬ s.NotInverted tenColumns 0 := by
  intro s
  have hrange : s.toRangeEngine tenColumns 0 = some ⟨⟨0, 4⟩, ⟨1, 2⟩, true⟩ := by decide
  refine ⟨by decide, hrange, by decide, ?_⟩
  rintro (⟨hempty, -⟩ | ⟨range, hsome, hle, -⟩)
  · exact absurd hempty (by decide)
  · obtain rfl := Option.some.inj (hrange.symm.trans hsome)
    exact absurd hle (by decide)

end NiumaTerm.Terminal
