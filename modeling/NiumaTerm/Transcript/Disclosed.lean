import NiumaTerm.Transcript.Pieces

/-!
# What a disclosure hides

The rows are built in one pass, and the rows of a disclosure are found again by walking back over
the list.  The two agree.

* `disclosed` — closing a fold or a run takes away the rows that are found, and as many entries as
  its label counts; every other entry that is shown has one row.
-/

namespace NiumaTerm.Transcript

open Blocks Outline List

namespace RowGeometry

variable {g : RowGeometry} {above below : List RowSpec} {row : RowSpec} {ix : ℕ}

theorem eq_append_of_getElem? (h : g.rows[ix]? = some row) :
    g.rows = g.rows.take ix ++ row :: g.rows.drop (ix + 1) ∧ (g.rows.take ix).length = ix := by
  obtain ⟨hlt, rfl⟩ := List.getElem?_eq_some_iff.mp h
  exact ⟨(take_append_drop ix g.rows).symm.trans (by rw [drop_eq_getElem_cons hlt]),
    length_take_of_le (Nat.le_of_lt hlt)⟩

theorem foldOver_eq (h : g.rows = above ++ row :: below) :
    g.foldOver above.length = (g.source.rowTurn row).bind fun turn =>
      if !g.source.turns.settled turn || !g.source.hiddenByFold row then none
      else owner (g.source.foldStep turn) above := by
  rw [foldOver, h, getElem?_append_right (Nat.le_refl _), Nat.sub_self, take_left]
  rfl

theorem runOver_eq_some (h : g.rows = above ++ row :: below) {runStart : ℕ} :
    g.runOver above.length = some runStart ↔
      ∃ i fingerprint, row = .work i fingerprint ∧ owner runStep above = some runStart := by
  have hget : g.rows[above.length]? = some row := by
    rw [h, getElem?_append_right (Nat.le_refl _), Nat.sub_self]
    rfl
  have htake : g.rows.take above.length = above := by rw [h, take_left]
  rw [runOver, hget, htake]
  cases row with
  | work i fingerprint | _ => simp

/-- A part that is reported is one of a row at some place. -/
theorem mem_revealedParts {key : RevealKey} {part : RevealedPart} :
    part ∈ g.revealedParts key ↔ ∃ above row below, g.rows = above ++ row :: below ∧
      g.isRevealed key above.length = true ∧ revealedPart row = some part := by
  rw [revealedParts, mem_filterMap]
  constructor
  · rintro ⟨ix, hix, hpart⟩
    obtain ⟨row, hrow, hpart⟩ := Option.bind_eq_some_iff.mp hpart
    obtain ⟨hsplit, hlength⟩ := eq_append_of_getElem? hrow
    refine ⟨_, row, _, hsplit, ?_, hpart⟩
    rw [hlength]
    exact (mem_filter.mp hix).2
  · rintro ⟨above, row, below, hsplit, hrevealed, hpart⟩
    refine ⟨above.length, mem_filter.mpr ⟨mem_range.mpr ?_, hrevealed⟩, ?_⟩
    · rw [hsplit, length_append, length_cons]
      omega
    · rw [hsplit, getElem?_append_right (Nat.le_refl _), Nat.sub_self]
      exact hpart

/-- The disclosure that a row moves with is one that has it on screen. -/
theorem isRevealed_of_revealedBy {moving : RevealKey → Bool} {key : RevealKey}
    (h : g.revealedBy moving ix = some key) : g.isRevealed key ix = true := by
  rw [revealedBy] at h
  cases hfold : g.foldOver ix with
  | none =>
    cases hrun : g.runOver ix with
    | none =>
      rw [hfold, hrun] at h
      cases h
    | some runStart =>
      rw [hfold, hrun] at h
      cases h
      exact decide_eq_true hrun
  | some turn =>
    cases hrun : g.runOver ix with
    | none =>
      rw [hfold, hrun] at h
      cases h
      exact decide_eq_true hfold
    | some runStart =>
      rw [hfold, hrun] at h
      change (if _ then _ else _) = _ at h
      split at h
      · cases h
        exact decide_eq_true hrun
      · cases h
        exact decide_eq_true hfold

theorem getElem?_of_isRevealed {key : RevealKey} (h : g.isRevealed key ix = true) :
    ∃ row, g.rows[ix]? = some row := by
  cases hrow : g.rows[ix]? with
  | some row => exact ⟨row, rfl⟩
  | none =>
    cases key with
    | turn turn =>
      have hfold := of_decide_eq_true h
      rw [foldOver, hrow] at hfold
      cases hfold
    | group runStart =>
      have hrun := of_decide_eq_true h
      rw [runOver, hrow] at hrun
      cases hrun
    | row index | annotation index => cases h

end RowGeometry

namespace RowSource

variable {source : RowSource} {collapse : CollapseRows} {fragments : ℕ → ℕ} {spec row : RowSpec}
  {turn i : ℕ} {fingerprint : BitVec 64}

/-! ## Rows in the list -/

theorem blockRows_eq (fragments : ℕ → ℕ) (spec : RowSpec) :
    source.blockRows fragments spec = [spec] ∨
      ∃ i fingerprint n, spec = .entry i fingerprint ∧
        source.blockRows fragments spec = replicate (n + 1) (.entry i 0) := by
  cases spec with
  | entry i fingerprint =>
    rw [blockRows]
    split
    · next n _ _ => exact .inr ⟨i, fingerprint, _, rfl, rfl⟩
    · exact .inl rfl
  | _ => exact .inl rfl

theorem blockRows_ne_nil : source.blockRows fragments spec ≠ [] := by
  rcases source.blockRows_eq fragments spec with h | ⟨i, fingerprint, n, -, h⟩ <;>
    (rw [h]; exact cons_ne_nil _ _)

/-- The rows of a reply say the same as its one row. -/
theorem same_of_mem_blockRows (h : row ∈ source.blockRows fragments spec) :
    revealedPart row = revealedPart spec ∧ source.rowTurn row = source.rowTurn spec ∧
      source.hiddenByFold row = source.hiddenByFold spec ∧
      ∀ turn, source.foldStep turn row = source.foldStep turn spec := by
  rcases source.blockRows_eq fragments spec with heq | ⟨i, fingerprint, n, rfl, heq⟩
  · rw [heq, mem_singleton] at h
    rw [h]
    exact ⟨rfl, rfl, rfl, fun _ => rfl⟩
  · rw [heq] at h
    rw [(mem_replicate.mp h).2]
    exact ⟨rfl, rfl, rfl, fun _ => rfl⟩

theorem eq_of_mem_blockRows (h : row ∈ source.blockRows fragments spec)
    (hrow : ∀ i fingerprint, row ≠ .entry i fingerprint) :
    spec = row ∧ source.blockRows fragments spec = [row] := by
  rcases source.blockRows_eq fragments spec with heq | ⟨i, fingerprint, n, rfl, heq⟩
  · rw [heq, mem_singleton] at h
    exact ⟨h.symm, h ▸ heq⟩
  · rw [heq] at h
    exact absurd (mem_replicate.mp h).2 (hrow i 0)

theorem mem_listRows {specs : List RowSpec} (h : row ∈ source.listRows fragments specs)
    (hrow : ∀ i fingerprint, row ≠ .entry i fingerprint) : row ∈ specs := by
  obtain ⟨spec, hspec, hmem⟩ := mem_flatMap.mp h
  rw [← (eq_of_mem_blockRows hmem hrow).1]
  exact hspec

/-! ## Rows of a block -/

variable {block : Block ℕ}

theorem mem_draw_block : row ∈ source.draw collapse (.block turn block) ↔
    (∃ i, block = .single i ∧ row = source.entrySpec i ∧
      (source.turnFolded collapse turn = true → source.survivesFold i = true)) ∨
    (source.turnFolded collapse turn = false ∧ ∃ first members, block = .run first members ∧
      ((collapse ≠ .off ∧ row = .runToggle first members.length
          (source.disclosures.expandedGroups first)) ∨
        ((collapse ≠ .off → source.disclosures.expandedGroups first = true) ∧
          ∃ i ∈ members, row = source.workSpec i))) := by
  rw [draw]
  cases hfolded : source.turnFolded collapse turn with
  | true =>
    rw [if_pos rfl]
    cases block with
    | single i =>
      rw [survivors]
      cases hsurvives : source.survivesFold i <;> simp [hsurvives]
    | run first members => simp [survivors]
  | false =>
    rw [if_neg Bool.false_ne_true]
    cases block with
    | single i => simp [blockSpecs]
    | run first members =>
      rw [blockSpecs]
      by_cases hoff : collapse = .off
      · simp [hoff, and_comm, @eq_comm _ _ row]
      · cases hexpanded : source.disclosures.expandedGroups first <;>
          simp [hoff, hexpanded, @eq_comm _ _ row]

theorem rowTurn_of_mem_draw (hp : .block turn block ∈ source.pieces collapse)
    (h : row ∈ source.draw collapse (.block turn block)) : source.rowTurn row = some turn := by
  obtain ⟨start, stop, hs, hb⟩ := block_mem_pieces.mp hp
  rcases mem_draw_block.mp h with ⟨i, rfl, rfl, -⟩ | ⟨-, first, members, rfl, hrow⟩
  · exact congrArg some (turn_of_mem_block hp (mem_singleton.mpr rfl))
  · rcases hrow with ⟨-, rfl⟩ | ⟨-, i, hi, rfl⟩
    · exact congrArg some (turn_of_mem_block hp (first_mem_of_run hb))
    · exact congrArg some (turn_of_mem_block hp hi)

/-- The fixed rows are opening prompts, and those that say how things stand. -/
theorem row_mem_pieces (hp : .row spec ∈ source.pieces collapse) :
    (∃ i, (source.item i).isUserMessage = true ∧ spec = source.entrySpec i) ∨
      (∃ turn tokens, spec = .interrupted turn tokens) ∨
      (∃ seconds tokens, spec = .turnSummary seconds tokens) ∨
      ∃ compacting, spec = .working compacting := by
  rcases mem_pieces.mp hp with ⟨turn, start, stop, hs, hp⟩ | ⟨-, heq⟩
  · rcases mem_turnPieces.mp hp with ⟨i, hi, heq⟩ | ⟨-, -, heq⟩ | ⟨b, hb, heq⟩ | ⟨spec, hspec, heq⟩
    · cases heq
      exact .inl ⟨i, (openingUser_spec (openingUser_of_hoisted hi)).2.1, rfl⟩
    · cases heq
    · cases heq
    · cases heq
      rw [closing] at hspec
      split at hspec
      · exact .inr (.inl ⟨_, _, mem_singleton.mp hspec⟩)
      · split at hspec
        · obtain ⟨seconds, -, rfl⟩ := mem_map.mp hspec
          exact .inr (.inr (.inl ⟨_, _, rfl⟩))
        · cases hspec
  · cases heq
    exact .inr (.inr (.inr ⟨_, rfl⟩))

/-- No fold takes a fixed row away. -/
theorem hiddenByFold_of_row_mem (hp : .row spec ∈ source.pieces collapse) :
    source.hiddenByFold spec = false := by
  rcases row_mem_pieces hp with ⟨i, huser, rfl⟩ | ⟨_, _, rfl⟩ | ⟨_, _, rfl⟩ | ⟨_, rfl⟩
  · show (!source.survivesFold i) = false
    rw [userMessage_survivesFold huser]
    rfl
  all_goals rfl

/-! ## Rows of two lists -/

/-- The row is still there in a list. -/
def ShownIn (specs : List RowSpec) (row : RowSpec) : Prop :=
  ∃ other ∈ specs, row.isSameRow other = true

theorem isSameRow_refl (row : RowSpec) : row.isSameRow row = true := by
  cases row <;> simp [RowSpec.isSameRow]

theorem rowTurn_of_isSameRow {other : RowSpec} (h : row.isSameRow other = true) :
    source.rowTurn row = source.rowTurn other ∧
      source.hiddenByFold row = source.hiddenByFold other := by
  rw [RowSpec.isSameRow.eq_def] at h
  split at h
  all_goals first | cases h | skip
  all_goals first | exact ⟨rfl, rfl⟩ | (rw [of_decide_eq_true h]; exact ⟨rfl, rfl⟩)

theorem rowEntry_of_isSameRow {other : RowSpec} (h : row.isSameRow other = true) :
    rowEntry row = rowEntry other := by
  rw [RowSpec.isSameRow.eq_def] at h
  split at h
  all_goals first | cases h | skip
  all_goals first | rfl | (rw [of_decide_eq_true h]; rfl)

/-! ## Folds -/

/-- The source with one turn unfolded, or folded, under the collapse setting. -/
def withTurn (source : RowSource) (collapse : CollapseRows) (turn : ℕ) (unfolded : Bool) :
    RowSource :=
  { source with
    disclosures := { source.disclosures with
      turnsFoldByDefault := foldsTurns collapse }.setTurnUnfolded turn unfolded }

theorem toggledTurns_withTurn (unfolded : Bool) :
    (source.withTurn collapse turn unfolded).disclosures.toggledTurns =
      Function.update source.disclosures.toggledTurns turn (unfolded = foldsTurns collapse) := rfl

theorem pieces_withTurn (collapse' : CollapseRows) (unfolded : Bool) :
    (source.withTurn collapse turn unfolded).pieces collapse' = source.pieces collapse' := by
  have hstretches : (source.withTurn collapse turn unfolded).stretches 0 = source.stretches 0 :=
    @stretches_congr source (source.withTurn collapse turn unfolded) rfl 0
  rw [pieces, hstretches]
  rfl

theorem folded_withTurn (unfolded : Bool) :
    (source.withTurn collapse turn unfolded).folded collapse turn =
      (foldsTurns collapse && !unfolded) := by
  rw [folded, toggledTurns_withTurn, Function.update_self]
  cases foldsTurns collapse <;> cases unfolded <;> rfl

theorem folded_withTurn_of_ne {turn' : ℕ} (h : turn' ≠ turn) (unfolded : Bool) :
    (source.withTurn collapse turn unfolded).folded collapse turn' =
      source.folded collapse turn' := by
  rw [folded, toggledTurns_withTurn, Function.update_of_ne h, folded]

theorem turnFolded_withTurn (unfolded : Bool) :
    (source.withTurn collapse turn unfolded).turnFolded collapse turn =
      (source.foldable collapse turn && !unfolded) := by
  rw [turnFolded, folded_withTurn]
  show (source.foldable collapse turn && _) = _
  rw [foldable]
  cases foldsTurns collapse <;> simp

/-- A turn that cannot be folded, or another one, stays as it is. -/
theorem turnFolded_withTurn_of_not {turn' : ℕ}
    (h : ¬ (turn' = turn ∧ source.foldable collapse turn = true)) (unfolded : Bool) :
    (source.withTurn collapse turn unfolded).turnFolded collapse turn' =
      source.turnFolded collapse turn' := by
  by_cases hturn : turn' = turn
  · have hfoldable : source.foldable collapse turn = false := by
      rw [← Bool.not_eq_true]
      exact fun hpos => h ⟨hturn, hpos⟩
    rw [hturn, turnFolded_withTurn, turnFolded, hfoldable]
    rfl
  · rw [turnFolded, folded_withTurn_of_ne hturn]
    rfl

theorem draw_withTurn {turn' : ℕ} (h : ¬ (turn' = turn ∧ source.foldable collapse turn = true))
    (unfolded : Bool) :
    (source.withTurn collapse turn unfolded).draw collapse (.block turn' block) =
      source.draw collapse (.block turn' block) := by
  rw [draw, turnFolded_withTurn_of_not h, draw]
  rfl

structure OwnedByFold (source : RowSource) (collapse : CollapseRows) (turn : ℕ) (row : RowSpec) :
    Prop where
  foldable : source.foldable collapse turn = true
  hidden : source.hiddenByFold row = true
  rowTurn_eq : source.rowTurn row = some turn

/-- A row that a fold owns is drawn from a block of its turn. -/
theorem OwnedByFold.exists_block (h : OwnedByFold source collapse turn row)
    (hrow : row ∈ source.allSpecs collapse) :
    ∃ block, .block turn block ∈ source.pieces collapse ∧
      row ∈ source.draw collapse (.block turn block) := by
  rw [allSpecs_eq] at hrow
  obtain ⟨piece, hp, hrow⟩ := mem_flatMap.mp hrow
  cases piece with
  | row spec =>
    rw [draw, mem_singleton] at hrow
    rw [← hrow] at hp
    exact absurd h.hidden (by rw [hiddenByFold_of_row_mem hp]; exact Bool.false_ne_true)
  | fold turn' rowCount =>
    rw [draw, mem_singleton] at hrow
    have hhidden := h.hidden
    rw [hrow] at hhidden
    cases hhidden
  | block turn' block =>
    have hturn := h.rowTurn_eq
    rw [rowTurn_of_mem_draw hp hrow] at hturn
    cases hturn
    exact ⟨block, hp, hrow⟩

/-- **Folding a turn takes away the rows that its fold owns.** -/
theorem not_shownIn_folded (hrow : row ∈ (source.withTurn collapse turn true).allSpecs collapse) :
    ¬ ShownIn ((source.withTurn collapse turn false).allSpecs collapse) row ↔
      OwnedByFold source collapse turn row := by
  constructor
  · intro hgone
    rw [allSpecs_eq, pieces_withTurn] at hrow
    obtain ⟨piece, hp, hrow⟩ := mem_flatMap.mp hrow
    have hshown {other : RowSpec}
        (h : other ∈ (source.withTurn collapse turn false).draw collapse piece)
        (hsame : row.isSameRow other = true) : False := by
      refine hgone ⟨other, ?_, hsame⟩
      rw [allSpecs_eq, pieces_withTurn]
      exact mem_flatMap_of_mem hp h
    cases piece with
    | row spec => exact (hshown hrow (isSameRow_refl row)).elim
    | fold turn' rowCount =>
      rw [draw, mem_singleton] at hrow
      exact (hshown (mem_singleton.mpr rfl) (by rw [hrow]; simp [RowSpec.isSameRow])).elim
    | block turn' block =>
      by_cases hturn : turn' = turn ∧ source.foldable collapse turn = true
      · obtain ⟨rfl, hfoldable⟩ := hturn
        have hturn : (source.withTurn collapse turn' true).rowTurn row = some turn' :=
          rowTurn_of_mem_draw (by rw [pieces_withTurn]; exact hp) hrow
        refine ⟨hfoldable, ?_, hturn⟩
        rcases mem_draw_block.mp hrow with ⟨i, rfl, rfl, -⟩ | ⟨-, first, members, rfl, hrun⟩
        · -- an entry that survives the fold would still be there
          by_contra hsurvives
          rw [Bool.not_eq_true] at hsurvives
          refine hshown (mem_draw_block.mpr (.inl ⟨i, rfl, rfl, fun _ => ?_⟩)) (isSameRow_refl _)
          exact (Bool.not_eq_false' _).mp hsurvives
        · rcases hrun with ⟨-, rfl⟩ | ⟨-, i, -, rfl⟩ <;> rfl
      · rw [draw_withTurn hturn] at hrow
        refine (hshown ?_ (isSameRow_refl row)).elim
        rw [draw_withTurn hturn]
        exact hrow
  · rintro howned ⟨other, hother, hsame⟩
    obtain ⟨hturn, hhidden⟩ := @rowTurn_of_isSameRow source _ _ hsame
    have howned' : OwnedByFold (source.withTurn collapse turn false) collapse turn other :=
      ⟨howned.foldable, hhidden.symm.trans howned.hidden, hturn.symm.trans howned.rowTurn_eq⟩
    obtain ⟨block, hp, hdraw⟩ := howned'.exists_block hother
    have hfolded : (source.withTurn collapse turn false).turnFolded collapse turn = true := by
      rw [turnFolded_withTurn, howned.foldable]
      rfl
    rcases mem_draw_block.mp hdraw with ⟨i, -, rfl, hsurvives⟩ | ⟨hopen, -⟩
    · have hgone := howned'.hidden
      change (!source.survivesFold i) = true at hgone
      have hstays : source.survivesFold i = true := hsurvives hfolded
      rw [hstays] at hgone
      cases hgone
    · rw [hfolded] at hopen
      cases hopen

/-! ## Walking back to a fold -/

theorem foldStep_of_mem_draw (hp : .block turn block ∈ source.pieces collapse)
    (h : row ∈ source.draw collapse (.block turn block)) : source.foldStep turn row = .pass := by
  have hturn := rowTurn_of_mem_draw hp h
  cases row with
  | turnFold heads n open_ =>
    rcases mem_draw_block.mp h with ⟨i, -, heq, -⟩ | ⟨-, first, members, -, hrun⟩
    · cases heq
    · rcases hrun with ⟨-, heq⟩ | ⟨-, i, -, heq⟩ <;> cases heq
  | _ => exact if_pos hturn

/-- A turn that shows what its fold owns has a fold. -/
theorem rowCount_pos {start stop : ℕ} (hs : (turn, start, stop) ∈ source.stretches 0)
    (hb : block ∈ source.turnBlocks turn start stop)
    (hfoldable : source.foldable collapse turn = true)
    (hrow : row ∈ source.draw collapse (.block turn block))
    (hhidden : source.hiddenByFold row = true) : 0 < source.rowCount start stop := by
  obtain ⟨i, hi, hgone⟩ : ∃ i ∈ block.members, source.survivesFold i = false := by
    rcases mem_draw_block.mp hrow with ⟨i, rfl, rfl, -⟩ | ⟨-, first, members, rfl, -⟩
    · exact ⟨i, mem_singleton.mpr rfl, (Bool.not_eq_true' _).mp hhidden⟩
    · exact ⟨first, first_mem_of_run hb,
        groupedWork_not_survivesFold (groupedWork_of_run hb first (first_mem_of_run hb))⟩
  have hmember := isMember_of_mem hs hb hi
  have hhoisted : source.hoisted turn start stop = source.openingUser start stop := by
    rw [foldable, Bool.and_assoc, Bool.and_eq_true] at hfoldable
    exact if_pos hfoldable.2
  have hshown : source.shown start stop i = true := by
    rw [shown, hmember.visible, Bool.not_false, Bool.true_and, bne_iff_ne, ← hhoisted]
    exact hmember.not_hoisted.symm
  refine length_pos_of_mem (mem_filter.mpr ⟨mem_positions.mpr ⟨hmember.ge, hmember.lt⟩, ?_⟩)
  rw [hshown, hgone]
  rfl

/-- Above a row that a fold owns there is the fold, and only rows of the turn between them. -/
theorem OwnedByFold.exists_fold (h : OwnedByFold source collapse turn row)
    (hopen : source.folded collapse turn = false) (hrow : row ∈ source.allSpecs collapse) :
    ∃ above n between below,
      source.allSpecs collapse = above ++ .turnFold turn n false :: between ++ row :: below ∧
      ∀ r ∈ between, source.foldStep turn r = .pass := by
  obtain ⟨block, hp, hdraw⟩ := h.exists_block hrow
  obtain ⟨start, stop, hs, hb⟩ := block_mem_pieces.mp hp
  have hcount := rowCount_pos hs hb h.foldable hdraw h.hidden
  obtain ⟨stretches, stretches', hstretches⟩ := append_of_mem hs
  obtain ⟨blocks, blocks', hblocks⟩ := append_of_mem hb
  obtain ⟨top, bottom, htop⟩ := append_of_mem hdraw
  have hfold : (if source.foldable collapse turn && 0 < source.rowCount start stop then
      [Piece.fold turn (source.rowCount start stop)] else []) =
        [.fold turn (source.rowCount start stop)] :=
    if_pos (by rw [h.foldable, decide_eq_true hcount]; rfl)
  have hover : ∀ r ∈ (blocks.map (Piece.block turn)).flatMap (source.draw collapse) ++ top,
      source.foldStep turn r = .pass := by
    intro r hr
    rcases mem_append.mp hr with hr | hr
    · obtain ⟨piece, hpiece, hr⟩ := mem_flatMap.mp hr
      obtain ⟨b, hmem, rfl⟩ := mem_map.mp hpiece
      refine foldStep_of_mem_draw (block_mem_pieces.mpr ⟨start, stop, hs, ?_⟩) hr
      rw [hblocks]
      exact mem_append_left _ hmem
    · refine foldStep_of_mem_draw hp ?_
      rw [htop]
      exact mem_append_left _ hr
  obtain ⟨before, after, hpieces⟩ : ∃ before after, source.pieces collapse =
      before ++ ([.fold turn (source.rowCount start stop)] ++ blocks.map (.block turn) ++
        [.block turn block]) ++ after := by
    refine ⟨stretches.flatMap (fun s => source.turnPieces collapse s.1 s.2.1 s.2.2) ++
      (source.hoisted turn start stop).toList.map (fun i => .row (source.entrySpec i)),
      blocks'.map (.block turn) ++ (source.closing turn).map .row ++
        stretches'.flatMap (fun s => source.turnPieces collapse s.1 s.2.1 s.2.2) ++
        if source.working then [.row (.working source.compacting)] else [], ?_⟩
    rw [pieces, hstretches, flatMap_append, flatMap_cons, turnPieces, hfold, hblocks,
      map_append, map_cons]
    simp only [append_assoc, cons_append, nil_append]
  refine ⟨before.flatMap (source.draw collapse), source.rowCount start stop,
    (blocks.map (.block turn)).flatMap (source.draw collapse) ++ top,
    bottom ++ after.flatMap (source.draw collapse), ?_, hover⟩
  rw [allSpecs_eq, hpieces]
  simp only [flatMap_append, flatMap_cons, flatMap_nil, htop, append_assoc, cons_append]
  rw [draw, hopen]
  rfl

theorem mem_allSpecs_turnFold {n : ℕ} {folded : Bool} :
    .turnFold turn n folded ∈ source.allSpecs collapse ↔
      .fold turn n ∈ source.pieces collapse ∧ folded = source.folded collapse turn := by
  rw [allSpecs_eq, mem_flatMap]
  constructor
  · rintro ⟨piece, hp, h⟩
    cases piece with
    | row spec =>
      rw [draw, mem_singleton] at h
      rw [← h] at hp
      rcases row_mem_pieces hp with ⟨i, -, heq⟩ | ⟨_, _, heq⟩ | ⟨_, _, heq⟩ | ⟨_, heq⟩ <;>
        cases heq
    | fold turn' n' =>
      rw [draw, mem_singleton] at h
      cases h
      exact ⟨hp, rfl⟩
    | block turn' block =>
      rcases mem_draw_block.mp h with ⟨i, -, heq, -⟩ | ⟨-, first, members, -, hrun⟩
      · cases heq
      · rcases hrun with ⟨-, heq⟩ | ⟨-, i, -, heq⟩ <;> cases heq
  · rintro ⟨hp, rfl⟩
    exact ⟨_, hp, mem_singleton.mpr rfl⟩

/-- What a walk to a fold ends at. -/
theorem eq_of_foldStep {turn' : ℕ} (h : source.foldStep turn row = .found turn') :
    turn' = turn ∧ ∃ n, row = .turnFold turn n false := by
  have hover : (if source.rowTurn row = some turn then Step.pass else Step.stop) ≠
      .found turn' := by
    split <;> exact fun heq => by cases heq
  cases row with
  | turnFold heads n folded =>
    cases folded with
    | true => exact absurd h hover
    | false =>
      by_cases hheads : heads = turn
      · rw [show source.foldStep turn (.turnFold heads n false) = .found turn from
          if_pos hheads] at h
        cases h
        exact ⟨rfl, n, by rw [hheads]⟩
      · exact absurd ((if_neg hheads).symm.trans h) hover
  | _ => exact absurd h hover

variable {above below : List RowSpec}

/-- A row that is found for a turn is one that its fold owns. -/
theorem ownedByFold_of_isRevealed
    (hrows : source.listRows fragments (source.allSpecs collapse) = above ++ row :: below)
    (h : (source.geometry collapse fragments).isRevealed (.turn turn) above.length = true) :
    OwnedByFold source collapse turn row := by
  have hfold := of_decide_eq_true h
  rw [RowGeometry.foldOver_eq hrows] at hfold
  obtain ⟨turn', hturn, hfold⟩ := Option.bind_eq_some_iff.mp hfold
  split at hfold
  · cases hfold
  · next hcond =>
    obtain ⟨head, hhead, hfound⟩ := exists_head_of_owner hfold
    obtain ⟨rfl, n, rfl⟩ := eq_of_foldStep hfound
    rw [Bool.or_eq_true, not_or, Bool.not_eq_true', Bool.not_eq_true', Bool.not_eq_false,
      Bool.not_eq_false] at hcond
    have hmem : .turnFold turn n false ∈
        source.listRows fragments (source.allSpecs collapse) := by
      rw [hrows]
      exact mem_append_left _ hhead
    have hfoldable := (fold_mem_pieces.mp (mem_allSpecs_turnFold.mp
      (mem_listRows hmem fun _ _ => RowSpec.noConfusion)).1).1
    exact ⟨hfoldable, hcond.2, hturn⟩

/-- **The rows that are found for an unfolded turn are those that its fold owns.** -/
theorem mem_revealedParts_turn (fragments : ℕ → ℕ) (hopen : source.folded collapse turn = false)
    {part : RevealedPart} :
    part ∈ (source.geometry collapse fragments).revealedParts (.turn turn) ↔
      ∃ row ∈ source.allSpecs collapse, revealedPart row = some part ∧
        OwnedByFold source collapse turn row := by
  rw [RowGeometry.mem_revealedParts]
  constructor
  · rintro ⟨above, row, below, hrows, hrevealed, hpart⟩
    have howned := ownedByFold_of_isRevealed hrows hrevealed
    have hmem : row ∈ (source.geometry collapse fragments).rows := by
      rw [hrows]
      exact mem_append_right _ mem_cons_self
    obtain ⟨spec, hspec, hblock⟩ := mem_flatMap.mp hmem
    obtain ⟨hpart', hturn', hhidden', -⟩ := same_of_mem_blockRows hblock
    exact ⟨spec, hspec, hpart' ▸ hpart,
      ⟨howned.foldable, hhidden' ▸ howned.hidden, hturn' ▸ howned.rowTurn_eq⟩⟩
  · rintro ⟨row, hrow, hpart, howned⟩
    obtain ⟨above, n, between, below, hsplit, hover⟩ := howned.exists_fold hopen hrow
    obtain ⟨row', rest, hblock⟩ := exists_cons_of_ne_nil (@blockRows_ne_nil source fragments row)
    obtain ⟨hpart', hturn', hhidden', -⟩ := same_of_mem_blockRows
      (show row' ∈ source.blockRows fragments row by rw [hblock]; exact mem_cons_self)
    have hrows : source.listRows fragments (source.allSpecs collapse) =
        (above.flatMap (source.blockRows fragments) ++ .turnFold turn n false ::
          between.flatMap (source.blockRows fragments)) ++ row' ::
            (rest ++ below.flatMap (source.blockRows fragments)) := by
      rw [listRows, hsplit, flatMap_append, flatMap_append, flatMap_cons, flatMap_cons, hblock]
      simp only [append_assoc, cons_append]
      rfl
    refine ⟨_, row', _, hrows, decide_eq_true ?_, hpart'.trans hpart⟩
    have hsettled : source.turns.settled turn = true := by
      have hfoldable := howned.foldable
      rw [foldable, Bool.and_eq_true, Bool.and_eq_true] at hfoldable
      exact hfoldable.1.2
    rw [RowGeometry.foldOver_eq hrows]
    show (source.rowTurn row').bind _ = _
    rw [hturn', howned.rowTurn_eq, Option.bind_some]
    show (if (!source.turns.settled turn || !source.hiddenByFold row') = true then none
      else owner (source.foldStep turn) _) = _
    rw [hsettled, hhidden', howned.hidden, if_neg (by decide)]
    refine owner_eq (if_pos rfl) fun r hr => ?_
    obtain ⟨spec, hspec, hr⟩ := mem_flatMap.mp hr
    rw [(same_of_mem_blockRows hr).2.2.2, hover spec hspec]

/-! ## Runs -/

def withGroup (source : RowSource) (runStart : ℕ) (expanded : Bool) : RowSource :=
  { source with disclosures := source.disclosures.setGroupExpanded runStart expanded }

variable {runStart : ℕ}

theorem expandedGroups_withGroup (expanded : Bool) :
    (source.withGroup runStart expanded).disclosures.expandedGroups =
      Function.update source.disclosures.expandedGroups runStart expanded := rfl

theorem pieces_withGroup (collapse : CollapseRows) (expanded : Bool) :
    (source.withGroup runStart expanded).pieces collapse = source.pieces collapse := by
  have hstretches : (source.withGroup runStart expanded).stretches 0 = source.stretches 0 :=
    @stretches_congr source (source.withGroup runStart expanded) rfl 0
  rw [pieces, hstretches]
  rfl

theorem work_mem_allSpecs (h : .work i fingerprint ∈ source.allSpecs collapse) :
    ∃ turn first members, .block turn (.run first members) ∈ source.pieces collapse ∧
      source.turnFolded collapse turn = false ∧ i ∈ members ∧
      (collapse ≠ .off → source.disclosures.expandedGroups first = true) := by
  rw [allSpecs_eq] at h
  obtain ⟨piece, hp, h⟩ := mem_flatMap.mp h
  cases piece with
  | row spec =>
    rw [draw, mem_singleton] at h
    rw [← h] at hp
    rcases row_mem_pieces hp with ⟨i, -, heq⟩ | ⟨_, _, heq⟩ | ⟨_, _, heq⟩ | ⟨_, heq⟩ <;> cases heq
  | fold turn rowCount => cases mem_singleton.mp h
  | block turn block =>
    rcases mem_draw_block.mp h with ⟨i, -, heq, -⟩ | ⟨hopen, first, members, rfl, hrun⟩
    · cases heq
    · rcases hrun with ⟨-, heq⟩ | ⟨hexpanded, j, hj, heq⟩
      · cases heq
      · cases heq
        exact ⟨turn, first, members, hp, hopen, hj, hexpanded⟩

theorem mem_allSpecs_runToggle {n : ℕ} {expanded : Bool} :
    .runToggle runStart n expanded ∈ source.allSpecs collapse ↔
      collapse ≠ .off ∧ expanded = source.disclosures.expandedGroups runStart ∧
        ∃ turn members, .block turn (.run runStart members) ∈ source.pieces collapse ∧
          source.turnFolded collapse turn = false ∧ n = members.length := by
  rw [allSpecs_eq, mem_flatMap]
  constructor
  · rintro ⟨piece, hp, h⟩
    cases piece with
    | row spec =>
      rw [draw, mem_singleton] at h
      rw [← h] at hp
      rcases row_mem_pieces hp with ⟨i, -, heq⟩ | ⟨_, _, heq⟩ | ⟨_, _, heq⟩ | ⟨_, heq⟩ <;>
        cases heq
    | fold turn rowCount => cases mem_singleton.mp h
    | block turn block =>
      rcases mem_draw_block.mp h with ⟨i, -, heq, -⟩ | ⟨hopen, first, members, rfl, hrun⟩
      · cases heq
      · rcases hrun with ⟨hoff, heq⟩ | ⟨-, i, -, heq⟩
        · cases heq
          exact ⟨hoff, rfl, turn, members, hp, hopen, rfl⟩
        · cases heq
  · rintro ⟨hoff, rfl, turn, members, hp, hopen, rfl⟩
    exact ⟨_, hp, mem_draw_block.mpr (.inr ⟨hopen, _, _, rfl, .inl ⟨hoff, rfl⟩⟩)⟩

/-- An entry is in one run. -/
theorem run_eq_of_mem {turn turn' first first' : ℕ} {members members' : List ℕ}
    (hp : .block turn (.run first members) ∈ source.pieces collapse)
    (hp' : .block turn' (.run first' members') ∈ source.pieces collapse)
    (hi : i ∈ members) (hi' : i ∈ members') :
    turn = turn' ∧ first = first' ∧ members = members' := by
  have heq := piece_eq_of_mem hp hp' hi hi'
  cases heq
  exact ⟨rfl, rfl, rfl⟩

theorem first_mem_of_mem_pieces {members : List ℕ}
    (hp : .block turn (.run runStart members) ∈ source.pieces collapse) : runStart ∈ members := by
  obtain ⟨start, stop, -, hb⟩ := block_mem_pieces.mp hp
  exact first_mem_of_run hb

/-- The row is a step of the run, under a toggle. -/
def OwnedByRun (source : RowSource) (collapse : CollapseRows) (runStart : ℕ) (row : RowSpec) :
    Prop :=
  collapse ≠ .off ∧ ∃ turn members, .block turn (.run runStart members) ∈ source.pieces collapse ∧
    ∃ i ∈ members, row = source.workSpec i

/-- **Collapsing a run takes away its steps.** -/
theorem not_shownIn_collapsed (hrow : row ∈ (source.withGroup runStart true).allSpecs collapse) :
    ¬ ShownIn ((source.withGroup runStart false).allSpecs collapse) row ↔
      OwnedByRun source collapse runStart row := by
  constructor
  · intro hgone
    rw [allSpecs_eq, pieces_withGroup] at hrow
    obtain ⟨piece, hp, hrow⟩ := mem_flatMap.mp hrow
    have hshown {other : RowSpec}
        (h : other ∈ (source.withGroup runStart false).draw collapse piece)
        (hsame : row.isSameRow other = true) : False := by
      refine hgone ⟨other, ?_, hsame⟩
      rw [allSpecs_eq, pieces_withGroup]
      exact mem_flatMap_of_mem hp h
    cases piece with
    | row spec | fold turn rowCount => exact (hshown hrow (isSameRow_refl row)).elim
    | block turn block =>
      rcases mem_draw_block.mp hrow with
        ⟨i, rfl, rfl, hsurvives⟩ | ⟨hopen, first, members, rfl, hrun⟩
      · exact (hshown (mem_draw_block.mpr (.inl ⟨i, rfl, rfl, hsurvives⟩)) (isSameRow_refl _)).elim
      · rcases hrun with ⟨hoff, rfl⟩ | ⟨hexpanded, i, hi, rfl⟩
        · exact (hshown (mem_draw_block.mpr (.inr ⟨hopen, _, _, rfl, .inl ⟨hoff, rfl⟩⟩))
            (decide_eq_true rfl)).elim
        · by_cases hown : first = runStart ∧ collapse ≠ .off
          · obtain ⟨rfl, hoff⟩ := hown
            exact ⟨hoff, turn, members, hp, i, hi, rfl⟩
          · refine (hshown (mem_draw_block.mpr (.inr ⟨hopen, _, _, rfl, .inr ⟨fun hoff => ?_,
              i, hi, rfl⟩⟩)) (isSameRow_refl _)).elim
            have hne : first ≠ runStart := fun heq => hown ⟨heq, hoff⟩
            have hold := hexpanded hoff
            rw [expandedGroups_withGroup, Function.update_of_ne hne] at hold ⊢
            exact hold
  · rintro ⟨hoff, turn, members, hp, i, hi, rfl⟩ ⟨other, hother, hsame⟩
    obtain ⟨fingerprint, rfl⟩ : ∃ fingerprint, other = .work i fingerprint := by
      cases other with
      | work j fingerprint => exact ⟨fingerprint, by rw [of_decide_eq_true hsame]⟩
      | _ => cases hsame
    obtain ⟨turn', first, members', hp', -, hi', hexpanded⟩ := work_mem_allSpecs hother
    rw [pieces_withGroup] at hp'
    obtain ⟨-, rfl, -⟩ := run_eq_of_mem hp hp' hi hi'
    have hfalse := hexpanded hoff
    rw [expandedGroups_withGroup, Function.update_self] at hfalse
    cases hfalse

/-! ## Walking back to a toggle -/

theorem listRows_works (fragments : ℕ → ℕ) (members : List ℕ) :
    (members.map source.workSpec).flatMap (source.blockRows fragments) =
      members.map source.workSpec := by
  rw [flatMap_map]
  exact map_eq_flatMap.symm

theorem draw_run {members : List ℕ} (hopen : source.turnFolded collapse turn = false)
    (hoff : collapse ≠ .off) : source.draw collapse (.block turn (.run runStart members)) =
      .runToggle runStart members.length (source.disclosures.expandedGroups runStart) ::
        if source.disclosures.expandedGroups runStart then members.map source.workSpec else [] := by
  rw [draw, hopen, if_neg Bool.false_ne_true]
  exact if_pos hoff

theorem owner_runStep (above : List RowSpec) (n : ℕ) (members : List ℕ) :
    owner runStep (above ++ .runToggle runStart n true :: members.map source.workSpec) =
      some runStart := by
  refine owner_eq rfl fun r hr => ?_
  obtain ⟨i, -, rfl⟩ := mem_map.mp hr
  rfl

/-- What stands above a step in the piece that it is drawn from. -/
theorem exists_run_of_draw {piece : Piece} {above below : List RowSpec}
    (hp : piece ∈ source.pieces collapse) (hoff : collapse ≠ .off)
    (hdraw : source.draw collapse piece = above ++ .work i fingerprint :: below) :
    ∃ (turn first : ℕ) (members : List ℕ) (n : ℕ) (earlier : List ℕ),
      piece = .block turn (.run first members) ∧ i ∈ members ∧
      .work i fingerprint = source.workSpec i ∧
      above = .runToggle first n true :: earlier.map source.workSpec := by
  have hrow : .work i fingerprint ∈ source.draw collapse piece := by
    rw [hdraw]
    exact mem_append_right _ mem_cons_self
  cases piece with
  | row spec =>
    rw [draw, mem_singleton] at hrow
    rw [← hrow] at hp
    rcases row_mem_pieces hp with ⟨i, -, heq⟩ | ⟨_, _, heq⟩ | ⟨_, _, heq⟩ | ⟨_, heq⟩ <;> cases heq
  | fold turn rowCount => cases mem_singleton.mp hrow
  | block turn block =>
    rcases mem_draw_block.mp hrow with ⟨j, -, heq, -⟩ | ⟨hopen, first, members, rfl, -⟩
    · cases heq
    · rw [draw_run hopen hoff] at hdraw
      cases above with
      | nil => cases (List.cons.inj hdraw).1
      | cons toggle above =>
        rw [cons_append] at hdraw
        obtain ⟨rfl, hrest⟩ := List.cons.inj hdraw
        cases hexpanded : source.disclosures.expandedGroups first with
        | false =>
          rw [hexpanded, if_neg Bool.false_ne_true] at hrest
          exact absurd hrest.symm (append_ne_nil_of_right_ne_nil _ (cons_ne_nil _ _))
        | true =>
          rw [hexpanded, if_pos rfl, map_eq_append_iff] at hrest
          obtain ⟨earlier, later, rfl, rfl, hlater⟩ := hrest
          obtain ⟨j, later, rfl, hj, -⟩ := map_eq_cons_iff.mp hlater
          cases hj
          exact ⟨turn, first, _, _, earlier, rfl, mem_append_right _ mem_cons_self, rfl, rfl⟩

/-- A row that is found for a run is one of its steps. -/
theorem ownedByRun_of_isRevealed
    (hrows : source.listRows fragments (source.allSpecs collapse) = above ++ row :: below)
    (h : (source.geometry collapse fragments).isRevealed (.group runStart) above.length = true) :
    row ∈ source.allSpecs collapse ∧ OwnedByRun source collapse runStart row := by
  obtain ⟨i, fingerprint, rfl, howner⟩ :=
    (RowGeometry.runOver_eq_some hrows).mp (of_decide_eq_true h)
  -- the toggle that the walk ends at shows that runs are collapsed
  have hoff : collapse ≠ .off := by
    obtain ⟨head, hhead, hfound⟩ := exists_head_of_owner howner
    obtain ⟨n, rfl⟩ : ∃ n, head = .runToggle runStart n true := by
      cases head with
      | runToggle start n expanded =>
        cases expanded with
        | true => cases hfound; exact ⟨n, rfl⟩
        | false => cases hfound
      | _ => cases hfound
    have hmem : .runToggle runStart n true ∈
        source.listRows fragments (source.allSpecs collapse) := by
      rw [hrows]
      exact mem_append_left _ hhead
    exact (mem_allSpecs_runToggle.mp (mem_listRows hmem fun _ _ => RowSpec.noConfusion)).1
  obtain ⟨specs, spec, specs', top, bottom, hspecs, hblock, habove⟩ :=
    exists_split_of_flatMap hrows
  obtain ⟨rfl, hsingle⟩ := @eq_of_mem_blockRows source fragments spec (.work i fingerprint)
    (by rw [hblock]; exact mem_append_right _ mem_cons_self)
    fun _ _ => RowSpec.noConfusion
  have htop : top = [] := by
    rw [hsingle, singleton_eq_append_iff] at hblock
    rcases hblock with ⟨htop, -⟩ | ⟨-, hnil⟩
    · exact htop
    · cases hnil
  have hmem : .work i fingerprint ∈ source.allSpecs collapse := by
    rw [hspecs]
    exact mem_append_right _ mem_cons_self
  refine ⟨hmem, hoff, ?_⟩
  rw [allSpecs_eq] at hspecs
  obtain ⟨pieces, piece, pieces', above', below', hpieces, hdraw, hspecs⟩ :=
    exists_split_of_flatMap hspecs
  have hp : piece ∈ source.pieces collapse := by
    rw [hpieces]
    exact mem_append_right _ mem_cons_self
  obtain ⟨turn, first, members, n, earlier, rfl, hi, hwork, rfl⟩ :=
    exists_run_of_draw hp hoff hdraw
  have hfirst : owner runStep above = some first := by
    rw [habove, htop, hspecs, flatMap_append, flatMap_cons, listRows_works, append_nil]
    exact owner_runStep ..
  rw [hfirst, Option.some.injEq] at howner
  subst howner
  exact ⟨turn, members, hp, i, hi, hwork⟩

/-- **The rows that are found for an expanded run are its steps.** -/
theorem mem_revealedParts_group (fragments : ℕ → ℕ)
    (hexpanded : source.disclosures.expandedGroups runStart = true) {part : RevealedPart} :
    part ∈ (source.geometry collapse fragments).revealedParts (.group runStart) ↔
      ∃ row ∈ source.allSpecs collapse, revealedPart row = some part ∧
        OwnedByRun source collapse runStart row := by
  rw [RowGeometry.mem_revealedParts]
  constructor
  · rintro ⟨above, row, below, hrows, hrevealed, hpart⟩
    obtain ⟨hmem, howned⟩ := ownedByRun_of_isRevealed hrows hrevealed
    exact ⟨row, hmem, hpart, howned⟩
  · rintro ⟨row, hrow, hpart, hoff, turn, members, hp, i, hi, rfl⟩
    obtain ⟨turn', first, members', hp', hopen, hi', -⟩ := work_mem_allSpecs hrow
    obtain ⟨rfl, rfl, rfl⟩ := run_eq_of_mem hp hp' hi hi'
    obtain ⟨pieces, pieces', hpieces⟩ := append_of_mem hp
    obtain ⟨earlier, later, hmembers⟩ := append_of_mem hi
    have hrows : source.listRows fragments (source.allSpecs collapse) =
        ((pieces.flatMap (source.draw collapse)).flatMap (source.blockRows fragments) ++
          .runToggle runStart members.length true :: earlier.map source.workSpec) ++
            source.workSpec i :: (later.map source.workSpec ++
              (pieces'.flatMap (source.draw collapse)).flatMap (source.blockRows fragments)) := by
      have hdraw := @draw_run source collapse turn runStart members hopen hoff
      rw [hexpanded, if_pos rfl] at hdraw
      rw [listRows, allSpecs_eq, hpieces, flatMap_append, flatMap_cons,
        flatMap_append, flatMap_append, hdraw, flatMap_cons, listRows_works]
      conv_lhs => rw [hmembers]
      rw [map_append, map_cons]
      simp only [blockRows, append_assoc, cons_append, nil_append]
      rw [← hmembers]
    refine ⟨_, _, _, hrows, decide_eq_true ?_, hpart⟩
    rw [RowGeometry.runOver_eq_some hrows]
    exact ⟨i, _, rfl, owner_runStep ..⟩

/-! ## Entries on screen -/

/-- The entries that have a row, in the order of the rows. -/
def rowEntries (specs : List RowSpec) : List ℕ := specs.filterMap rowEntry

theorem rowEntries_draw_sublist (piece : Piece) :
    (rowEntries (source.draw collapse piece)).Sublist (pieceEntries piece) := by
  cases piece with
  | row spec =>
    rw [draw, rowEntries, pieceEntries]
    cases h : rowEntry spec <;> simp [h]
  | fold turn rowCount => exact .refl _
  | block turn block =>
    rw [draw]
    split
    · cases block with
      | single i =>
        rw [survivors]
        split
        · exact .refl _
        · exact nil_sublist _
      | run first members => exact nil_sublist _
    · cases block with
      | single i => exact .refl _
      | run first members =>
        have hworks : (rowEntries (members.map source.workSpec)).Sublist members := by
          have hsome : rowEntry ∘ source.workSpec = some := rfl
          rw [rowEntries, filterMap_map, hsome, filterMap_some]
        rw [blockSpecs]
        split
        · split
          · exact hworks
          · exact nil_sublist _
        · exact hworks

theorem rowEntries_allSpecs_sublist (collapse : CollapseRows) :
    (rowEntries (source.allSpecs collapse)).Sublist
      ((source.pieces collapse).flatMap pieceEntries) := by
  rw [allSpecs_eq]
  induction source.pieces collapse with
  | nil => exact .refl _
  | cons piece pieces ih =>
    rw [flatMap_cons, flatMap_cons, rowEntries, filterMap_append]
    exact (rowEntries_draw_sublist piece).append ih

theorem mem_rowEntries {specs : List RowSpec} :
    i ∈ rowEntries specs ↔ ∃ row ∈ specs, rowEntry row = some i := mem_filterMap

theorem mem_rowEntries_allSpecs : i ∈ rowEntries (source.allSpecs collapse) ↔
    ∃ piece ∈ source.pieces collapse, i ∈ rowEntries (source.draw collapse piece) := by
  rw [allSpecs_eq, rowEntries, filterMap_flatMap, mem_flatMap]
  rfl

/-- An entry is on screen if the piece that it is in has a row for it. -/
theorem mem_rowEntries_of_piece {piece : Piece} (hp : piece ∈ source.pieces collapse)
    (hi : i ∈ pieceEntries piece) : i ∈ rowEntries (source.allSpecs collapse) ↔
      i ∈ rowEntries (source.draw collapse piece) := by
  rw [mem_rowEntries_allSpecs]
  refine ⟨?_, fun h => ⟨piece, hp, h⟩⟩
  rintro ⟨piece', hp', h⟩
  rw [piece_eq_of_mem hp hp' hi ((rowEntries_draw_sublist piece').subset h)]
  exact h

theorem mem_rowEntries_single : i ∈ rowEntries (source.draw collapse (.block turn (.single i))) ↔
    (source.turnFolded collapse turn = true → source.survivesFold i = true) := by
  rw [mem_rowEntries]
  constructor
  · rintro ⟨row, hrow, hentry⟩
    rcases mem_draw_block.mp hrow with ⟨j, heq, rfl, hsurvives⟩ | ⟨-, first, members, heq, -⟩
    · cases heq
      exact hsurvives
    · cases heq
  · exact fun h => ⟨_, mem_draw_block.mpr (.inl ⟨i, rfl, rfl, h⟩), rfl⟩

theorem mem_rowEntries_run {first : ℕ} {members : List ℕ} (hi : i ∈ members) :
    i ∈ rowEntries (source.draw collapse (.block turn (.run first members))) ↔
      source.turnFolded collapse turn = false ∧
        (collapse ≠ .off → source.disclosures.expandedGroups first = true) := by
  rw [mem_rowEntries]
  constructor
  · rintro ⟨row, hrow, hentry⟩
    rcases mem_draw_block.mp hrow with ⟨j, heq, -, -⟩ | ⟨hopen, first, members, heq, hrun⟩
    · cases heq
    · cases heq
      rcases hrun with ⟨-, rfl⟩ | ⟨hexpanded, -⟩
      · cases hentry
      · exact ⟨hopen, hexpanded⟩
  · rintro ⟨hopen, hexpanded⟩
    exact ⟨source.workSpec i, mem_draw_block.mpr
      (.inr ⟨hopen, first, members, rfl, .inr ⟨hexpanded, i, hi, rfl⟩⟩), rfl⟩

theorem hidden_of_length_le (h : source.entries.length ≤ i) : (source.item i).hidden = true := by
  rw [item, getElem?_eq_none h]
  rfl

theorem exists_piece (collapse : CollapseRows) (hvisible : (source.item i).hidden = false) :
    ∃ piece ∈ source.pieces collapse, i ∈ pieceEntries piece := by
  have hlt : i < source.entries.length := by
    by_contra hge
    rw [hidden_of_length_le (Nat.le_of_not_lt hge)] at hvisible
    cases hvisible
  obtain ⟨⟨turn, start, stop⟩, hs, hge, hlt⟩ := exists_stretch (Nat.zero_le i) hlt
  have hmem : i ∈ (source.turnPieces collapse turn start stop).flatMap pieceEntries := by
    rw [flatMap_pieceEntries_turnPieces, mem_append, Option.mem_toList, mem_filter,
      mem_positions, hvisible]
    by_cases hhoisted : source.hoisted turn start stop = some i
    · exact .inl hhoisted
    · refine .inr ⟨⟨hge, hlt⟩, ?_⟩
      rw [Bool.not_false, Bool.and_true, Bool.not_eq_true', beq_eq_false_iff_ne]
      exact fun h => hhoisted h.symm
  obtain ⟨piece, hp, hi⟩ := mem_flatMap.mp hmem
  exact ⟨piece, mem_pieces.mpr (.inl ⟨turn, start, stop, hs, hp⟩), hi⟩

/-- **An entry that is not hidden, in a turn that is not folded, has a row or is behind a closed
run.** -/
theorem mem_rowEntries_or_behind (hvisible : (source.item i).hidden = false)
    (hopen : source.turnFolded collapse (source.turn i) = false) :
    i ∈ rowEntries (source.allSpecs collapse) ∨
      ∃ runStart n, .runToggle runStart n false ∈ source.allSpecs collapse ∧
        i ∈ rowEntries ((source.withGroup runStart true).allSpecs collapse) := by
  obtain ⟨piece, hp, hi⟩ := exists_piece collapse hvisible
  cases piece with
  | row spec =>
    refine .inl ((mem_rowEntries_of_piece hp hi).mpr ?_)
    rw [pieceEntries, Option.mem_toList] at hi
    exact mem_rowEntries.mpr ⟨spec, mem_singleton.mpr rfl, hi⟩
  | fold turn rowCount => cases hi
  | block turn block =>
    have hturn := turn_of_mem_block hp hi
    rw [hturn] at hopen
    cases block with
    | single j =>
      cases mem_singleton.mp hi
      refine .inl ((mem_rowEntries_of_piece hp hi).mpr (mem_rowEntries_single.mpr ?_))
      rw [hopen]
      exact fun h => absurd h Bool.false_ne_true
    | run first members =>
      by_cases hexpanded : collapse ≠ .off → source.disclosures.expandedGroups first = true
      · exact .inl ((mem_rowEntries_of_piece hp hi).mpr
          ((mem_rowEntries_run hi).mpr ⟨hopen, hexpanded⟩))
      · rw [Classical.not_imp, Bool.not_eq_true] at hexpanded
        refine .inr ⟨first, members.length, mem_allSpecs_runToggle.mpr
          ⟨hexpanded.1, hexpanded.2.symm, turn, members, hp, hopen, rfl⟩, ?_⟩
        rw [← pieces_withGroup collapse true] at hp
        refine (mem_rowEntries_of_piece hp hi).mpr ((mem_rowEntries_run hi).mpr ⟨hopen, fun _ => ?_⟩)
        rw [expandedGroups_withGroup, Function.update_self]

/-! ## What a label counts -/

/-- The entries that have a row in one list and none in another. -/
def takenAway (opened closed : List RowSpec) : List ℕ :=
  (rowEntries opened).filter fun i => i ∉ rowEntries closed

theorem nodup_rowEntries (collapse : CollapseRows) :
    (rowEntries (source.allSpecs collapse)).Nodup :=
  (rowEntries_allSpecs_sublist collapse).nodup (nodup_pieceEntries collapse)

theorem mem_takenAway {opened closed : List RowSpec} :
    i ∈ takenAway opened closed ↔ i ∈ rowEntries opened ∧ i ∉ rowEntries closed := by
  rw [takenAway, mem_filter, decide_eq_true_eq]

theorem nodup_takenAway (collapse : CollapseRows) (closed : List RowSpec) :
    (takenAway (source.allSpecs collapse) closed).Nodup := (nodup_rowEntries collapse).filter _

theorem nodup_members {members : List ℕ}
    (hp : .block turn (.run runStart members) ∈ source.pieces collapse) : members.Nodup :=
  (nodup_flatMap.mp (@nodup_pieceEntries source collapse)).1 _ hp

/-- **A run's label counts the entries that collapsing it takes away.** -/
theorem toolCount_eq {n : ℕ} {expanded : Bool}
    (h : .runToggle runStart n expanded ∈ source.allSpecs collapse) :
    n = (takenAway ((source.withGroup runStart true).allSpecs collapse)
      ((source.withGroup runStart false).allSpecs collapse)).length := by
  obtain ⟨hoff, -, turn, members, hp, hopen, rfl⟩ := mem_allSpecs_runToggle.mp h
  refine ((perm_ext_iff_of_nodup (nodup_takenAway collapse _)
    (nodup_members hp)).mpr fun i => ?_).length_eq.symm
  rw [mem_takenAway]
  constructor
  · rintro ⟨hin, hout⟩
    obtain ⟨row, hrow, hentry⟩ := mem_rowEntries.mp hin
    have hgone : ¬ ShownIn ((source.withGroup runStart false).allSpecs collapse) row := by
      rintro ⟨other, hother, hsame⟩
      exact hout (mem_rowEntries.mpr ⟨other, hother, rowEntry_of_isSameRow hsame ▸ hentry⟩)
    obtain ⟨-, turn', members', hp', j, hj, rfl⟩ := (not_shownIn_collapsed hrow).mp hgone
    cases hentry
    obtain ⟨-, -, rfl⟩ := run_eq_of_mem hp hp' (first_mem_of_mem_pieces hp)
      (first_mem_of_mem_pieces hp')
    exact hj
  · intro hi
    have hpiece (expanded : Bool) : i ∈ rowEntries
        ((source.withGroup runStart expanded).allSpecs collapse) ↔ expanded = true := by
      have hp' : .block turn (.run runStart members) ∈
          (source.withGroup runStart expanded).pieces collapse := by
        rw [pieces_withGroup]
        exact hp
      rw [mem_rowEntries_of_piece hp' hi, mem_rowEntries_run hi, expandedGroups_withGroup,
        Function.update_self]
      exact ⟨fun h => h.2 hoff, fun h => ⟨hopen, fun _ => h⟩⟩
    rw [hpiece, hpiece]
    exact ⟨rfl, Bool.false_ne_true⟩

def withRuns (source : RowSource) : RowSource :=
  { source with disclosures := { source.disclosures with expandedGroups := fun _ => true } }

theorem pieces_withRuns (collapse : CollapseRows) :
    source.withRuns.pieces collapse = source.pieces collapse := by
  have hstretches : source.withRuns.stretches 0 = source.stretches 0 :=
    @stretches_congr source source.withRuns rfl 0
  rw [pieces, hstretches]
  rfl

/-- The entries of a turn that its fold hides are in its blocks. -/
theorem mem_takenAway_fold : i ∈ takenAway
      ((source.withRuns.withTurn collapse turn true).allSpecs collapse)
      ((source.withRuns.withTurn collapse turn false).allSpecs collapse) ↔
    source.foldable collapse turn = true ∧ source.survivesFold i = false ∧
      ∃ block, .block turn block ∈ source.pieces collapse ∧ i ∈ block.members := by
  have hpieces (unfolded : Bool) :
      (source.withRuns.withTurn collapse turn unfolded).pieces collapse =
        source.pieces collapse := by
    rw [pieces_withTurn, pieces_withRuns]
  have hfolded (unfolded : Bool) :
      (source.withRuns.withTurn collapse turn unfolded).turnFolded collapse turn =
        (source.foldable collapse turn && !unfolded) := turnFolded_withTurn unfolded
  -- whether an entry of a block has a row, when every run is expanded
  have hblock (unfolded : Bool) {turn' : ℕ} {block : Block ℕ}
      (hp : .block turn' block ∈ source.pieces collapse) (hi : i ∈ block.members) :
      i ∈ rowEntries ((source.withRuns.withTurn collapse turn unfolded).allSpecs collapse) ↔
        ((source.withRuns.withTurn collapse turn unfolded).turnFolded collapse turn' = true →
          source.survivesFold i = true) := by
    obtain ⟨start, stop, -, hb⟩ := block_mem_pieces.mp hp
    rw [← hpieces unfolded] at hp
    rw [mem_rowEntries_of_piece hp hi]
    cases block with
    | single j =>
      cases mem_singleton.mp hi
      exact mem_rowEntries_single
    | run first members =>
      have hmem : i ∈ members := hi
      rw [mem_rowEntries_run hmem, groupedWork_not_survivesFold (groupedWork_of_run hb i hmem)]
      constructor
      · intro h hpos
        rw [h.1] at hpos
        exact hpos
      · refine fun h => ⟨?_, fun _ => rfl⟩
        rw [← Bool.not_eq_true]
        exact fun hpos => Bool.false_ne_true (h hpos)
  rw [mem_takenAway]
  constructor
  · rintro ⟨hin, hout⟩
    obtain ⟨piece, hp, hdraw⟩ := mem_rowEntries_allSpecs.mp hin
    rw [hpieces] at hp
    have hi := (rowEntries_draw_sublist piece).subset hdraw
    cases piece with
    | row spec =>
      exact (hout (mem_rowEntries_allSpecs.mpr ⟨.row spec, by rw [hpieces]; exact hp, hdraw⟩)).elim
    | fold turn' rowCount => cases hi
    | block turn' block =>
      rw [hblock true hp hi] at hin
      rw [hblock false hp hi, Classical.not_imp, Bool.not_eq_true] at hout
      have hturn : turn' = turn ∧ source.foldable collapse turn = true := by
        by_contra hnot
        have hsame := @turnFolded_withTurn_of_not source.withRuns collapse turn turn' hnot
        rw [hsame] at hin hout
        exact absurd (hin hout.1) (by rw [hout.2]; exact Bool.false_ne_true)
      obtain ⟨rfl, hfoldable⟩ := hturn
      exact ⟨hfoldable, hout.2, block, hp, hi⟩
  · rintro ⟨hfoldable, hgone, block, hp, hi⟩
    rw [hblock true hp hi, hblock false hp hi, hfolded, hfolded, hfoldable, hgone]
    exact ⟨fun h => h, fun h => absurd (h rfl) Bool.false_ne_true⟩

/-- The members of the blocks of a turn with a fold. -/
theorem exists_block_iff {start stop : ℕ} (hfoldable : source.foldable collapse turn = true) :
    (∃ block ∈ source.turnBlocks turn start stop, i ∈ block.members) ↔
      i ∈ positions start stop ∧ source.shown start stop i = true := by
  have hhoisted : source.hoisted turn start stop = source.openingUser start stop := by
    rw [foldable, Bool.and_assoc, Bool.and_eq_true] at hfoldable
    exact if_pos hfoldable.2
  rw [← mem_flatMap, turnBlocks, members_blocks, mem_filter, kind_shown, hhoisted, shown,
    Bool.and_comm]
  rfl

/-- **A fold's label counts the entries of its stretch that folding the turn takes away.** -/
theorem rowCount_eq {start stop : ℕ} (hs : (turn, start, stop) ∈ source.stretches 0)
    (hfoldable : source.foldable collapse turn = true) : source.rowCount start stop =
      ((takenAway ((source.withRuns.withTurn collapse turn true).allSpecs collapse)
        ((source.withRuns.withTurn collapse turn false).allSpecs collapse)).filter
          fun i => i ∈ positions start stop).length := by
  have hsorted : (positions start stop).Pairwise (· < ·) := pairwise_lt_range'
  refine ((perm_ext_iff_of_nodup (hsorted.imp Nat.ne_of_lt |>.filter _)
    ((nodup_takenAway collapse _).filter _)).mpr fun i => ?_).length_eq
  rw [mem_filter, mem_filter, mem_takenAway_fold, decide_eq_true_eq, Bool.and_eq_true,
    Bool.not_eq_true']
  constructor
  · rintro ⟨hi, hshown, hgone⟩
    obtain ⟨block, hb, hmem⟩ := (exists_block_iff hfoldable).mpr ⟨hi, hshown⟩
    exact ⟨⟨hfoldable, hgone, block, block_mem_pieces.mpr ⟨start, stop, hs, hb⟩, hmem⟩, hi⟩
  · rintro ⟨⟨-, hgone, block, hp, hmem⟩, hi⟩
    obtain ⟨start', stop', hs', hb⟩ := block_mem_pieces.mp hp
    have hmember := isMember_of_mem hs' hb hmem
    have hsame := stretch_eq_of_mem hs hs' (mem_positions.mp hi) ⟨hmember.ge, hmember.lt⟩
    cases hsame
    exact ⟨hi, ((exists_block_iff hfoldable).mp ⟨block, hb, hmem⟩).2, hgone⟩

/-- The entries of the turn are next to each other. -/
def Contiguous (source : RowSource) (turn : ℕ) : Prop :=
  ∀ i j k, i ≤ j → j ≤ k → k < source.entries.length → source.turn i = turn →
    source.turn k = turn → source.turn j = turn

theorem rowCount_eq_of_contiguous {start stop : ℕ} (hs : (turn, start, stop) ∈ source.stretches 0)
    (hfoldable : source.foldable collapse turn = true) (hcontiguous : Contiguous source turn) :
    source.rowCount start stop =
      (takenAway ((source.withRuns.withTurn collapse turn true).allSpecs collapse)
        ((source.withRuns.withTurn collapse turn false).allSpecs collapse)).length := by
  have hstretch := (isStretch_of_mem hs).2
  rw [rowCount_eq hs hfoldable, filter_eq_self.mpr]
  intro i hi
  obtain ⟨-, -, block, hp, hmem⟩ := mem_takenAway_fold.mp hi
  obtain ⟨start', stop', hs', hb⟩ := block_mem_pieces.mp hp
  have hmember := isMember_of_mem hs' hb hmem
  have hstretch' := (isStretch_of_mem hs').2
  have hlt := hstretch'.le
  have hlt' := hmember.lt
  have hturn := hstretch.turn_eq start (Nat.le_refl _) hstretch.lt
  have hpos := hstretch.lt
  have hle := hstretch.le
  rw [decide_eq_true_eq, mem_positions]
  refine ⟨?_, ?_⟩
  · by_contra hbefore
    rcases Nat.lt_or_ge start stop' with hin | hout
    · have hge := hmember.ge
      have hle' : start' ≤ start := by omega
      have hsame := stretch_eq_of_mem hs hs' ⟨Nat.le_refl _, hpos⟩ ⟨hle', hin⟩
      cases hsame
      exact hbefore hmember.ge
    · -- between the two stretches there is an entry of another turn
      exact hstretch'.ends (by omega)
        (hcontiguous i stop' start (by omega) hout (by omega) hmember.turn_eq hturn)
  · by_contra hafter
    exact hstretch.ends (by omega)
      (hcontiguous start stop i (by omega) (by omega) (by omega) hturn hmember.turn_eq)

/-! ## Whose row it is -/

/-- From the start of a run to one of its steps there is only work. -/
def InRun (source : RowSource) (runStart i : ℕ) : Prop :=
  runStart ≤ i ∧ ∀ j, runStart ≤ j → j ≤ i → source.turn j = source.turn runStart ∧
    ((source.item j).hidden = true ∨ source.groupedWork (source.item j) = true)

theorem inRun_of_mem {members : List ℕ}
    (hp : .block turn (.run runStart members) ∈ source.pieces collapse) (hi : i ∈ members) :
    InRun source runStart i := by
  obtain ⟨start, stop, hs, hb⟩ := block_mem_pieces.mp hp
  have hfirst := isMember_of_mem hs hb (first_mem_of_run hb)
  have hmember := isMember_of_mem hs hb hi
  obtain ⟨before, span, after, hsplit, hgrouped, hspan, hmembers⟩ := exists_span_of_run_mem hb
  have hsorted : (positions start stop).Pairwise (· < ·) := pairwise_lt_range'
  rw [hsplit, pairwise_append, pairwise_append] at hsorted
  obtain ⟨⟨-, hrun, hbefore⟩, -, hafter⟩ := hsorted
  have hin : i ∈ runStart :: span := by
    rw [hmembers] at hi
    exact (filter_sublist.cons_cons _).subset hi
  refine ⟨?_, fun j hj hji => ⟨?_, ?_⟩⟩
  · rcases mem_cons.mp hin with rfl | hin
    · exact Nat.le_refl _
    · exact Nat.le_of_lt ((pairwise_cons.mp hrun).1 i hin)
  · have hge := hfirst.ge
    have hlt := hmember.lt
    rw [(isStretch_of_mem hs).2.turn_eq j (by omega) (by omega), hfirst.turn_eq]
  · have hmem : j ∈ positions start stop :=
      mem_positions.mpr ⟨Nat.le_trans hfirst.ge hj, Nat.lt_of_le_of_lt hji hmember.lt⟩
    have hcontinues : (source.kind (fun i => some i == source.hoisted turn start stop) j).continues =
        true := by
      rw [hsplit, mem_append, mem_append] at hmem
      rcases hmem with (hmem | hmem) | hmem
      · have := hbefore j hmem runStart mem_cons_self
        omega
      · rcases mem_cons.mp hmem with rfl | hmem
        · rw [hgrouped]
          rfl
        · exact hspan j hmem
      · have := hafter i (mem_append_right _ hin) j hmem
        omega
    rw [kind_continues, Bool.and_eq_true, Bool.or_eq_true] at hcontinues
    exact hcontinues.2

/-- The row is one of the turn, or a step of the run. -/
def Belongs (source : RowSource) (row : RowSpec) : RevealKey → Prop
  | .turn turn => source.rowTurn row = some turn
  | .group runStart => ∃ i fingerprint, row = .work i fingerprint ∧ InRun source runStart i
  | .row _ | RevealKey.annotation _ => False

theorem belongs_of_isRevealed {key : RevealKey}
    (hrows : source.listRows fragments (source.allSpecs collapse) = above ++ row :: below)
    (h : (source.geometry collapse fragments).isRevealed key above.length = true) :
    Belongs source row key := by
  cases key with
  | turn turn => exact (ownedByFold_of_isRevealed hrows h).rowTurn_eq
  | group runStart =>
    obtain ⟨-, -, turn, members, hp, i, hi, rfl⟩ := ownedByRun_of_isRevealed hrows h
    exact ⟨i, _, rfl, inRun_of_mem hp hi⟩
  | row index | annotation index => cases h

/-! ## Disclosures own what they hide -/

/-- The parts are those of the rows of one list that another one does not have. -/
def RevealsExactly (parts : List RevealedPart) (opened closed : List RowSpec) : Prop :=
  (∀ part, part ∈ parts ↔
    ∃ row ∈ opened, revealedPart row = some part ∧ ¬ ShownIn closed row) ∧
  ∀ row ∈ opened, ¬ ShownIn closed row → (revealedPart row).isSome = true

theorem isSome_revealedPart_of_hidden (h : source.hiddenByFold row = true) :
    (revealedPart row).isSome = true := by
  cases row <;> first | rfl | cases h

theorem revealsExactly_turn (source : RowSource) (collapse : CollapseRows) (fragments : ℕ → ℕ)
    (turn : ℕ) :
    RevealsExactly
      (((source.withTurn collapse turn true).geometry collapse fragments).revealedParts
        (.turn turn))
      ((source.withTurn collapse turn true).allSpecs collapse)
      ((source.withTurn collapse turn false).allSpecs collapse) := by
  have hopen : (source.withTurn collapse turn true).folded collapse turn = false := by
    rw [folded_withTurn, Bool.not_true, Bool.and_false]
  refine ⟨fun part => ?_, fun row hrow hgone => ?_⟩
  · rw [mem_revealedParts_turn fragments hopen]
    refine exists_congr fun row => and_congr_right fun hrow => and_congr_right fun _ => ?_
    rw [not_shownIn_folded hrow]
    exact ⟨fun h => ⟨h.foldable, h.hidden, h.rowTurn_eq⟩,
      fun h => ⟨h.foldable, h.hidden, h.rowTurn_eq⟩⟩
  · exact isSome_revealedPart_of_hidden ((not_shownIn_folded hrow).mp hgone).hidden

theorem revealsExactly_group (source : RowSource) (collapse : CollapseRows) (fragments : ℕ → ℕ)
    (runStart : ℕ) :
    RevealsExactly
      (((source.withGroup runStart true).geometry collapse fragments).revealedParts
        (.group runStart))
      ((source.withGroup runStart true).allSpecs collapse)
      ((source.withGroup runStart false).allSpecs collapse) := by
  have hexpanded : (source.withGroup runStart true).disclosures.expandedGroups runStart = true := by
    rw [expandedGroups_withGroup, Function.update_self]
  refine ⟨fun part => ?_, fun row hrow hgone => ?_⟩
  · rw [mem_revealedParts_group fragments hexpanded]
    refine exists_congr fun row => and_congr_right fun hrow => and_congr_right fun _ => ?_
    rw [not_shownIn_collapsed hrow, OwnedByRun, pieces_withGroup]
    rfl
  · obtain ⟨-, -, -, -, i, -, rfl⟩ := (not_shownIn_collapsed hrow).mp hgone
    rfl

theorem runStart_eq_of_part {runStart' : ℕ} {part : RevealedPart}
    (h : part ∈ (source.geometry collapse fragments).revealedParts (.group runStart))
    (h' : part ∈ (source.geometry collapse fragments).revealedParts (.group runStart')) :
    runStart = runStart' := by
  obtain ⟨_, row, _, hrows, hrevealed, hpart⟩ := RowGeometry.mem_revealedParts.mp h
  obtain ⟨_, row', _, hrows', hrevealed', hpart'⟩ := RowGeometry.mem_revealedParts.mp h'
  obtain ⟨-, -, _, _, hp, i, hi, rfl⟩ := ownedByRun_of_isRevealed hrows hrevealed
  obtain ⟨-, -, _, _, hp', i', hi', rfl⟩ := ownedByRun_of_isRevealed hrows' hrevealed'
  cases hpart
  cases hpart'
  exact (run_eq_of_mem hp hp' hi hi').2.1

theorem turn_eq_of_part {turn' : ℕ} {part : RevealedPart}
    (h : part ∈ (source.geometry collapse fragments).revealedParts (.turn turn))
    (h' : part ∈ (source.geometry collapse fragments).revealedParts (.turn turn')) :
    turn = turn' := by
  have hturn {row : RowSpec} {t : ℕ} (hpart : revealedPart row = some part)
      (hrow : source.rowTurn row = some t) : (match part with
        | .entry i | .toggle i => source.turn i
        | .block _ => t) = t := by
    cases row <;> cases hpart <;> cases hrow <;> rfl
  obtain ⟨_, row, _, hrows, hrevealed, hpart⟩ := RowGeometry.mem_revealedParts.mp h
  obtain ⟨_, row', _, hrows', hrevealed', hpart'⟩ := RowGeometry.mem_revealedParts.mp h'
  have hone := hturn hpart (ownedByFold_of_isRevealed hrows hrevealed).rowTurn_eq
  have htwo := hturn hpart' (ownedByFold_of_isRevealed hrows' hrevealed').rowTurn_eq
  cases part with
  | block key => cases row <;> cases hpart
  | entry i | toggle i => exact hone.symm.trans htwo

/-- **Disclosures own exactly what they hide.**  The rows found for an unfolded turn or an expanded run are
those that closing it takes away, and its label counts the entries among them, with those behind a run's
toggle.  Every other entry that is not hidden has one row, in transcript order, the opening prompts apart,
and no row is found for another turn or run. -/
theorem disclosed (source : RowSource) (collapse : CollapseRows) (fragments : ℕ → ℕ) :
    (∀ turn, RevealsExactly
      (((source.withTurn collapse turn true).geometry collapse fragments).revealedParts
        (.turn turn))
      ((source.withTurn collapse turn true).allSpecs collapse)
      ((source.withTurn collapse turn false).allSpecs collapse)) ∧
    (∀ runStart, RevealsExactly
      (((source.withGroup runStart true).geometry collapse fragments).revealedParts
        (.group runStart))
      ((source.withGroup runStart true).allSpecs collapse)
      ((source.withGroup runStart false).allSpecs collapse)) ∧
    (∀ runStart n expanded, .runToggle runStart n expanded ∈ source.allSpecs collapse →
      n = (takenAway ((source.withGroup runStart true).allSpecs collapse)
        ((source.withGroup runStart false).allSpecs collapse)).length) ∧
    (∀ turn n folded, .turnFold turn n folded ∈ source.allSpecs collapse →
      let taken := takenAway ((source.withRuns.withTurn collapse turn true).allSpecs collapse)
        ((source.withRuns.withTurn collapse turn false).allSpecs collapse)
      (∃ start stop, IsStretch source turn start stop ∧
        n = (taken.filter fun i ↦ i ∈ positions start stop).length) ∧
      (Contiguous source turn → n = taken.length)) ∧
    (rowEntries (source.allSpecs collapse)).Pairwise (Above source) ∧
    (∀ i, (source.item i).hidden = false →
      source.turnFolded collapse (source.turn i) = false →
      (rowEntries (source.allSpecs collapse)).count i = 1 ∨
        ∃ runStart n, .runToggle runStart n false ∈ source.allSpecs collapse ∧
          i ∈ rowEntries ((source.withGroup runStart true).allSpecs collapse)) ∧
    (∀ moving ix key, (source.geometry collapse fragments).revealedBy moving ix = some key →
      ∃ row, (source.geometry collapse fragments).rows[ix]? = some row ∧
        Belongs source row key) ∧
    (∀ part runStart runStart',
      part ∈ (source.geometry collapse fragments).revealedParts (.group runStart) →
      part ∈ (source.geometry collapse fragments).revealedParts (.group runStart') →
      runStart = runStart') ∧
    ∀ part turn turn',
      part ∈ (source.geometry collapse fragments).revealedParts (.turn turn) →
      part ∈ (source.geometry collapse fragments).revealedParts (.turn turn') → turn = turn' := by
  refine ⟨revealsExactly_turn source collapse fragments,
    revealsExactly_group source collapse fragments, fun _ _ _ ↦ toolCount_eq,
    fun turn n folded h ↦ ?_,
    (pairwise_pieceEntries collapse).sublist (rowEntries_allSpecs_sublist collapse),
    fun i hvisible hopen ↦ ?_, fun moving ix key h ↦ ?_, fun _ _ _ ↦ runStart_eq_of_part,
    fun _ _ _ ↦ turn_eq_of_part⟩
  · obtain ⟨hfoldable, -, start, stop, hs, rfl⟩ := fold_mem_pieces.mp (mem_allSpecs_turnFold.mp h).1
    exact ⟨⟨start, stop, (isStretch_of_mem hs).2, rowCount_eq hs hfoldable⟩,
      rowCount_eq_of_contiguous hs hfoldable⟩
  · exact (mem_rowEntries_or_behind hvisible hopen).imp_left
      fun h ↦ count_eq_one_of_mem (nodup_rowEntries collapse) h
  · have hrevealed := RowGeometry.isRevealed_of_revealedBy h
    obtain ⟨row, hrow⟩ := RowGeometry.getElem?_of_isRevealed hrevealed
    obtain ⟨hsplit, hlength⟩ := RowGeometry.eq_append_of_getElem? hrow
    rw [← hlength] at hrevealed
    exact ⟨row, hrow, belongs_of_isRevealed hsplit hrevealed⟩

end RowSource

end NiumaTerm.Transcript
