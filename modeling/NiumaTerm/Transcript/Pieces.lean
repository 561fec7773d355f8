import NiumaTerm.Transcript.Rows

/-!
# What transcript rows are drawn from

The rows are drawn from pieces that do not depend on what is open (`allSpecs_eq`): fixed rows,
folds, and the entries and runs of a turn.  Every entry that is shown is in one piece, in transcript
order, the opening prompts apart (`pairwise_pieceEntries`).
-/

namespace NiumaTerm.Transcript

open Blocks List

namespace RowSource

variable (source : RowSource)

/-! ## Blocks of a stream -/

def kind (skip : ℕ → Bool) (i : ℕ) : Kind :=
  if skip i then .skipped
  else if (source.item i).hidden then .hidden
  else if source.groupedWork (source.item i) then .grouped
  else .single

/-- The rows of a block, in a turn that is not folded. -/
def blockSpecs (collapse : CollapseRows) : Block ℕ → List RowSpec
  | .single i => [source.entrySpec i]
  | .run first members =>
    let expanded := source.disclosures.expandedGroups first
    if collapse ≠ .off then
      .runToggle first members.length expanded ::
        if expanded then members.map source.workSpec else []
    else members.map source.workSpec

variable {source} {skip : ℕ → Bool} {collapse : CollapseRows} {i : ℕ}

theorem kind_continues (skip : ℕ → Bool) (i : ℕ) : (source.kind skip i).continues =
    (!skip i && ((source.item i).hidden || source.groupedWork (source.item i))) := by
  rw [kind]
  cases skip i <;> cases (source.item i).hidden <;>
    cases source.groupedWork (source.item i) <;> rfl

theorem kind_shown (skip : ℕ → Bool) (i : ℕ) :
    (source.kind skip i).shown = (!skip i && !(source.item i).hidden) := by
  rw [kind]
  cases skip i <;> cases (source.item i).hidden <;>
    cases source.groupedWork (source.item i) <;> rfl

theorem kind_eq_grouped : source.kind skip i = .grouped ↔
    skip i = false ∧ (source.item i).hidden = false ∧
      source.groupedWork (source.item i) = true := by
  rw [kind]
  cases skip i <;> cases (source.item i).hidden <;>
    cases source.groupedWork (source.item i) <;> simp

theorem kind_eq_single : source.kind skip i = .single ↔
    skip i = false ∧ (source.item i).hidden = false ∧
      source.groupedWork (source.item i) = false := by
  rw [kind]
  cases skip i <;> cases (source.item i).hidden <;>
    cases source.groupedWork (source.item i) <;> simp

theorem streamSpecs_eq (skip : ℕ → Bool) (collapse : CollapseRows) (l : List ℕ) :
    source.streamSpecs skip collapse l =
      (blocks (source.kind skip) l).flatMap (source.blockSpecs collapse) := by
  induction l using @blocks_induction _ (source.kind skip) with
  | nil => rw [streamSpecs, blocks_nil]; rfl
  | skip i rest h ih =>
    rw [kind_shown] at h
    have hskip : (skip i || (source.item i).hidden) = true := by
      rw [Bool.or_eq_true]
      rw [Bool.and_eq_false_iff, Bool.not_eq_false', Bool.not_eq_false'] at h
      exact h
    rw [blocks_of_not_shown (by rw [kind_shown]; exact h), streamSpecs, if_pos hskip, ih]
  | single i rest h ih =>
    obtain ⟨hskip, hhidden, hgrouped⟩ := kind_eq_single.mp h
    rw [blocks_of_single h, streamSpecs, hskip, hhidden, hgrouped, flatMap_cons, ih]
    rfl
  | run i rest h ih =>
    obtain ⟨hskip, hhidden, hgrouped⟩ := kind_eq_grouped.mp h
    have hfilter : ((rest.takeWhile fun j => (source.kind skip j).continues).filter
        fun j => !(source.item j).hidden) =
        (rest.takeWhile fun j => (source.kind skip j).continues).filter
          fun j => source.kind skip j = .grouped := by
      refine filter_congr fun j hj => ?_
      have hcontinues := mem_continues hj
      rw [kind_continues] at hcontinues
      obtain ⟨hskipj, hj⟩ := Bool.and_eq_true_iff.mp hcontinues
      rw [Bool.not_eq_true'] at hskipj
      rw [Bool.or_eq_true] at hj
      have hiff : source.kind skip j = .grouped ↔ (source.item j).hidden = false := by
        rw [kind_eq_grouped]
        refine ⟨fun h => h.2.1, fun h => ⟨hskipj, h, ?_⟩⟩
        rw [h] at hj
        exact hj.resolve_left Bool.false_ne_true
      rw [Bool.eq_iff_iff, decide_eq_true_eq, hiff, Bool.not_eq_true']
    have hcontinues : (fun j => (source.kind skip j).continues) = fun j =>
        (!skip j && ((source.item j).hidden || source.groupedWork (source.item j))) :=
      funext fun j => kind_continues skip j
    rw [blocks_of_grouped h, flatMap_cons, ← ih, ← hfilter, hcontinues, streamSpecs, hskip,
      hhidden, hgrouped]
    rfl

/-! ## Stretches -/

variable {start stop turn : ℕ}

theorem start_lt_stretchEnd : start < source.stretchEnd start := by
  rw [stretchEnd]
  omega

theorem stretchEnd_le (h : start < source.entries.length) :
    source.stretchEnd start ≤ source.entries.length := by
  have hlength := length_takeWhile_le (fun entry : Entry => entry.turn = source.turn start)
    (source.entries.drop (start + 1))
  rw [length_drop] at hlength
  rw [stretchEnd]
  omega

theorem turn_of_getElem? {entry : Entry} (h : source.entries[i]? = some entry) :
    source.turn i = entry.turn := by
  rw [RowSource.turn, h]
  rfl

theorem turn_eq_of_lt_stretchEnd (hi : start ≤ i) (hlt : i < source.stretchEnd start) :
    source.turn i = source.turn start := by
  rcases Nat.eq_or_lt_of_le hi with rfl | hi
  · rfl
  · rw [stretchEnd] at hlt
    obtain ⟨k, rfl⟩ := Nat.exists_eq_add_of_le hi
    obtain ⟨entry, hget, hturn⟩ := exists_of_lt_takeWhile (Nat.lt_of_add_lt_add_left hlt)
    rw [getElem?_drop] at hget
    rw [turn_of_getElem? hget]
    exact of_decide_eq_true hturn

theorem turn_stretchEnd_ne (hlt : source.stretchEnd start < source.entries.length) :
    source.turn (source.stretchEnd start) ≠ source.turn start := by
  obtain ⟨entry, hget⟩ : ∃ entry, source.entries[source.stretchEnd start]? = some entry :=
    ⟨_, getElem?_eq_getElem hlt⟩
  rw [turn_of_getElem? hget]
  rw [stretchEnd, ← getElem?_drop] at hget
  have hends := eq_false_of_getElem?_takeWhile hget
  exact of_decide_eq_false hends

theorem stretches_induction {motive : ℕ → Prop}
    (done : ∀ start, source.entries.length ≤ start → motive start)
    (step : ∀ start, start < source.entries.length → motive (source.stretchEnd start) →
      motive start) (start : ℕ) : motive start := by
  induction start using stretches.induct source with
  | case1 start h ih => exact step start h ih
  | case2 start h => exact done start (Nat.le_of_not_lt h)

theorem stretches_of_lt (h : start < source.entries.length) : source.stretches start =
    (source.turn start, start, source.stretchEnd start) ::
      source.stretches (source.stretchEnd start) := by
  rw [stretches, if_pos h]

theorem stretches_of_le (h : source.entries.length ≤ start) : source.stretches start = [] := by
  rw [stretches, if_neg (Nat.not_lt.mpr h)]

/-- The stretches depend on the entries only. -/
theorem stretches_congr {source' : RowSource} (h : source'.entries = source.entries) (from_ : ℕ) :
    source'.stretches from_ = source.stretches from_ := by
  have hturn (i : ℕ) : source'.turn i = source.turn i := by rw [RowSource.turn, h, RowSource.turn]
  induction from_ using @stretches_induction source with
  | done from_ hle => rw [stretches_of_le hle, stretches_of_le (by rw [h]; exact hle)]
  | step from_ hlt ih =>
    have hend : source'.stretchEnd from_ = source.stretchEnd from_ := by
      rw [stretchEnd, stretchEnd, h, hturn]
    rw [stretches_of_lt hlt, stretches_of_lt (by rw [h]; exact hlt), hend, hturn, ih]

structure IsStretch (source : RowSource) (turn start stop : ℕ) : Prop where
  lt : start < stop
  le : stop ≤ source.entries.length
  turn_eq : ∀ i, start ≤ i → i < stop → source.turn i = turn
  ends : stop < source.entries.length → source.turn stop ≠ turn

theorem isStretch_of_mem {from_ : ℕ} (h : (turn, start, stop) ∈ source.stretches from_) :
    from_ ≤ start ∧ IsStretch source turn start stop := by
  induction from_ using @stretches_induction source with
  | done from_ hle =>
    rw [stretches_of_le hle] at h
    cases h
  | step from_ hlt ih =>
    rw [stretches_of_lt hlt, mem_cons] at h
    rcases h with heq | h
    · cases heq
      exact ⟨Nat.le_refl _,
        { lt := start_lt_stretchEnd
          le := stretchEnd_le hlt
          turn_eq := fun i hi hlt => turn_eq_of_lt_stretchEnd hi hlt
          ends := turn_stretchEnd_ne }⟩
    · obtain ⟨hle, hstretch⟩ := ih h
      exact ⟨Nat.le_trans (Nat.le_of_lt start_lt_stretchEnd) hle, hstretch⟩

theorem pairwise_stretches (from_ : ℕ) :
    (source.stretches from_).Pairwise fun s s' => s.2.2 ≤ s'.2.1 := by
  induction from_ using @stretches_induction source with
  | done from_ hle =>
    rw [stretches_of_le hle]
    exact .nil
  | step from_ hlt ih =>
    rw [stretches_of_lt hlt, pairwise_cons]
    refine ⟨?_, ih⟩
    rintro ⟨turn, start, stop⟩ h
    exact (isStretch_of_mem h).1

/-- Two stretches are apart. -/
theorem stretch_eq_of_mem {s s' : ℕ × ℕ × ℕ} {from_ : ℕ} (hs : s ∈ source.stretches from_)
    (hs' : s' ∈ source.stretches from_) (hi : s.2.1 ≤ i ∧ i < s.2.2)
    (hi' : s'.2.1 ≤ i ∧ i < s'.2.2) : s = s' := by
  by_contra hne
  have hapart : (source.stretches from_).Pairwise fun s s' =>
      s.2.2 ≤ s'.2.1 ∨ s'.2.2 ≤ s.2.1 := (pairwise_stretches from_).imp .inl
  have : Std.Symm fun s s' : ℕ × ℕ × ℕ => s.2.2 ≤ s'.2.1 ∨ s'.2.2 ≤ s.2.1 := ⟨fun _ _ => Or.symm⟩
  have h := hapart.forall hs hs' hne
  omega

/-- Every position is in a stretch. -/
theorem exists_stretch {from_ : ℕ} (hle : from_ ≤ i) (hlt : i < source.entries.length) :
    ∃ s ∈ source.stretches from_, s.2.1 ≤ i ∧ i < s.2.2 := by
  induction from_ using @stretches_induction source with
  | done from_ hdone => omega
  | step from_ hfrom ih =>
    rw [stretches_of_lt hfrom]
    rcases Nat.lt_or_ge i (source.stretchEnd from_) with hin | hout
    · exact ⟨_, mem_cons_self, hle, hin⟩
    · obtain ⟨s, hs, hbounds⟩ := ih hout
      exact ⟨s, mem_cons_of_mem _ hs, hbounds⟩

theorem mem_positions : i ∈ positions start stop ↔ start ≤ i ∧ i < stop := by
  rw [positions, mem_range'_1]
  omega

/-! ## Pieces -/

/-- What rows are drawn from. -/
inductive Piece
  /-- A row that is the same whatever is open. -/
  | row (spec : RowSpec)
  | fold (turn rowCount : ℕ)
  | block (turn : ℕ) (block : Block ℕ)

variable (source)

/-- Whether the turn has a fold: it has settled, and was not stopped. -/
def foldable (collapse : CollapseRows) (turn : ℕ) : Bool :=
  foldsTurns collapse && source.turns.settled turn && !source.turns.interrupted turn

/-- Whether the work of the turn is folded away. -/
def turnFolded (collapse : CollapseRows) (turn : ℕ) : Bool :=
  source.foldable collapse turn && source.folded collapse turn

/-- What a folded turn keeps of a block. -/
def survivors : Block ℕ → List RowSpec
  | .single i => if source.survivesFold i then [source.entrySpec i] else []
  | .run _ _ => []

def draw (collapse : CollapseRows) : Piece → List RowSpec
  | .row spec => [spec]
  | .fold turn rowCount => [.turnFold turn rowCount (source.folded collapse turn)]
  | .block turn block =>
    if source.turnFolded collapse turn then source.survivors block
    else source.blockSpecs collapse block

/-- The prompt that heads a turn.  The other turns are chronological. -/
def hoisted (turn start stop : ℕ) : Option ℕ :=
  if source.turns.settled turn && !source.turns.interrupted turn then
    source.openingUser start stop
  else none

def turnBlocks (turn start stop : ℕ) : List (Block ℕ) :=
  blocks (source.kind fun i => some i == source.hoisted turn start stop) (positions start stop)

def closing (turn : ℕ) : List RowSpec :=
  if source.turns.interrupted turn then
    [.interrupted turn (source.turns.outputTokens turn)]
  else if source.turns.settled turn then
    (source.turns.seconds turn).toList.map fun seconds =>
      .turnSummary seconds (source.turns.outputTokens turn)
  else []

def turnPieces (collapse : CollapseRows) (turn start stop : ℕ) : List Piece :=
  (source.hoisted turn start stop).toList.map (fun i => .row (source.entrySpec i)) ++
    (if source.foldable collapse turn && 0 < source.rowCount start stop then
      [.fold turn (source.rowCount start stop)] else []) ++
    (source.turnBlocks turn start stop).map (.block turn) ++
    (source.closing turn).map .row

def pieces (collapse : CollapseRows) : List Piece :=
  (source.stretches 0).flatMap (fun s => source.turnPieces collapse s.1 s.2.1 s.2.2) ++
    if source.working then [.row (.working source.compacting)] else []

variable {source}

theorem groupedWork_not_survivesFold (h : source.groupedWork (source.item i) = true) :
    source.survivesFold i = false := by
  rw [groupedWork, Bool.and_eq_true, Bool.not_eq_true'] at h
  obtain ⟨hwork, hthinking⟩ := h
  rw [survivesFold]
  cases hitem : source.item i with
  | reasoning id summary =>
    rw [hitem] at hthinking
    rw [Item.isReasoning, Bool.and_true] at hthinking
    exact hthinking
  | _ => first | rfl | (rw [hitem] at hwork; cases hwork)

theorem userMessage_survivesFold (h : (source.item i).isUserMessage = true) :
    source.survivesFold i = true := by
  rw [survivesFold]
  cases hitem : source.item i with
  | _ => first | rfl | (rw [hitem] at h; cases h)

theorem groupedWork_of_run {first : ℕ} {members l : List ℕ}
    (h : Block.run first members ∈ blocks (source.kind skip) l) :
    ∀ i ∈ members, source.groupedWork (source.item i) = true := by
  obtain ⟨-, span, -, -, hfirst, -, rfl⟩ := exists_span_of_run_mem h
  intro i hi
  rcases mem_cons.mp hi with rfl | hi
  · exact (kind_eq_grouped.mp hfirst).2.2
  · exact (kind_eq_grouped.mp (of_decide_eq_true (mem_filter.mp hi).2)).2.2

theorem first_mem_of_run {first : ℕ} {members l : List ℕ}
    (h : Block.run first members ∈ blocks (source.kind skip) l) : first ∈ members := by
  obtain ⟨-, span, -, -, -, -, rfl⟩ := exists_span_of_run_mem h
  exact mem_cons_self

/-- A folded turn keeps the entries that survive the fold. -/
theorem flatMap_survivors (l : List ℕ) :
    (blocks (source.kind skip) l).flatMap source.survivors =
      (l.filter fun i => (!skip i && !(source.item i).hidden) && source.survivesFold i).map
        source.entrySpec := by
  have hblock : ∀ b ∈ blocks (source.kind skip) l, source.survivors b =
      (b.members.filter source.survivesFold).map source.entrySpec := by
    intro b hb
    cases b with
    | single i =>
      rw [survivors, Block.members, filter_singleton]
      cases source.survivesFold i <;> rfl
    | run first members =>
      have hnone : members.filter source.survivesFold = [] := by
        rw [filter_eq_nil_iff]
        intro i hi
        rw [groupedWork_not_survivesFold (groupedWork_of_run hb i hi)]
        exact Bool.false_ne_true
      rw [Block.members, hnone]
      rfl
  rw [flatMap_congr hblock, ← map_flatMap, ← filter_flatMap, members_blocks, filter_filter]
  congr 1
  refine filter_congr fun i _ => ?_
  rw [kind_shown, Bool.and_comm]

/-! ## Rows drawn from pieces -/

theorem turnSummary_eq_interrupted {interrupted : Bool} {seconds : Option ℕ} :
    turnSummary interrupted seconds = some .interrupted ↔ interrupted = true := by
  cases interrupted <;> cases seconds <;> simp [turnSummary]

theorem flatMap_draw_turnBlocks (turn start stop : ℕ) :
    ((source.turnBlocks turn start stop).map (.block turn)).flatMap (source.draw collapse) =
      if source.turnFolded collapse turn then
        (source.turnBlocks turn start stop).flatMap source.survivors
      else
        source.streamSpecs (fun i => some i == source.hoisted turn start stop) collapse
          (positions start stop) := by
  rw [flatMap_map, streamSpecs_eq, ← turnBlocks]
  cases h : source.turnFolded collapse turn with
  | true =>
    rw [if_pos rfl]
    exact flatMap_congr fun b _ => if_pos h
  | false =>
    rw [if_neg Bool.false_ne_true]
    refine flatMap_congr fun b _ => if_neg ?_
    rw [h]
    exact Bool.false_ne_true

theorem flatMap_draw_row {α : Type} (f : α → RowSpec) (l : List α) :
    (l.map fun a => Piece.row (f a)).flatMap (source.draw collapse) = l.map f := by
  rw [flatMap_map]
  exact map_eq_flatMap.symm

theorem turnPieces_of_chronological
    (h : (source.turns.settled turn && !source.turns.interrupted turn) = false) :
    (source.turnPieces collapse turn start stop).flatMap (source.draw collapse) =
      source.streamSpecs (fun _ => false) collapse (positions start stop) ++
        source.closing turn := by
  have hfoldable : source.foldable collapse turn = false := by
    rw [foldable, Bool.and_assoc, h, Bool.and_false]
  have hhoisted : source.hoisted turn start stop = none := if_neg (by rw [h]; decide)
  have hskip : (fun i => some i == source.hoisted turn start stop) = fun _ => false := by
    rw [hhoisted]
    rfl
  rw [turnPieces, flatMap_append, flatMap_append, flatMap_append,
    flatMap_draw_turnBlocks, flatMap_draw_row, flatMap_draw_row, turnFolded, hfoldable, hskip,
    hhoisted, map_id']
  rfl

theorem turnSpecs_eq (turn start stop : ℕ) : source.turnSpecs turn start stop collapse =
    (source.turnPieces collapse turn start stop).flatMap (source.draw collapse) := by
  rw [turnSpecs]
  by_cases hinterrupted : source.turns.interrupted turn = true
  · rw [if_pos (turnSummary_eq_interrupted.mpr hinterrupted), turnPieces_of_chronological,
      closing, if_pos hinterrupted]
    rw [hinterrupted, Bool.not_true, Bool.and_false]
  · rw [if_neg fun h => hinterrupted (turnSummary_eq_interrupted.mp h)]
    rw [Bool.not_eq_true] at hinterrupted
    cases hsettled : source.turns.settled turn with
    | false =>
      rw [Bool.not_false, if_pos rfl, turnPieces_of_chronological (by rw [hsettled]; rfl),
        closing, hinterrupted, hsettled]
      exact (append_nil _).symm
    | true =>
      have hhoisted : source.hoisted turn start stop = source.openingUser start stop :=
        if_pos (by rw [hsettled, hinterrupted]; rfl)
      have hfoldable : source.foldable collapse turn = foldsTurns collapse := by
        rw [foldable, hsettled, hinterrupted, Bool.and_true, Bool.not_false, Bool.and_true]
      have hfolded : source.turnFolded collapse turn = source.folded collapse turn := by
        rw [turnFolded, hfoldable, folded]
        cases foldsTurns collapse <;> rfl
      rw [Bool.not_true, if_neg Bool.false_ne_true, turnPieces, flatMap_append,
        flatMap_append, flatMap_append, flatMap_draw_turnBlocks, flatMap_draw_row,
        flatMap_draw_row, hfolded, hfoldable, turnBlocks, flatMap_survivors, closing, hsettled,
        hinterrupted, hhoisted]
      refine congrArg₂ _ (congrArg₂ _ (congrArg₂ _ ?_ ?_) ?_) ?_
      · cases source.openingUser start stop <;> rfl
      · split <;> rfl
      · have hshown (i : ℕ) : source.shown start stop i =
            (!(some i == source.openingUser start stop) && !(source.item i).hidden) := by
          rw [shown, Bool.and_comm, bne]
        simp only [hshown]
      · cases source.turns.seconds turn <;> rfl

/-- **The rows of a transcript are drawn from its pieces.** -/
theorem allSpecs_eq (collapse : CollapseRows) : source.allSpecs collapse =
    (source.pieces collapse).flatMap (source.draw collapse) := by
  rw [allSpecs, pieces, flatMap_append, flatMap_assoc]
  congr 1
  · exact flatMap_congr fun s _ => turnSpecs_eq ..
  · cases source.working <;> rfl

/-! ## Where a piece comes from -/

variable {block : Block ℕ} {rowCount : ℕ} {spec : RowSpec} {piece : Piece}

theorem mem_pieces : piece ∈ source.pieces collapse ↔
    (∃ turn start stop, (turn, start, stop) ∈ source.stretches 0 ∧
      piece ∈ source.turnPieces collapse turn start stop) ∨
    source.working = true ∧ piece = .row (.working source.compacting) := by
  rw [pieces, mem_append, mem_flatMap]
  refine or_congr ⟨?_, ?_⟩ ?_
  · rintro ⟨⟨turn, start, stop⟩, hs, hp⟩
    exact ⟨turn, start, stop, hs, hp⟩
  · rintro ⟨turn, start, stop, hs, hp⟩
    exact ⟨_, hs, hp⟩
  · cases source.working <;> simp

theorem mem_turnPieces {turn start stop : ℕ} :
    piece ∈ source.turnPieces collapse turn start stop ↔
      (∃ i, source.hoisted turn start stop = some i ∧ piece = .row (source.entrySpec i)) ∨
      (source.foldable collapse turn = true ∧ 0 < source.rowCount start stop ∧
        piece = .fold turn (source.rowCount start stop)) ∨
      (∃ block ∈ source.turnBlocks turn start stop, piece = .block turn block) ∨
      ∃ spec ∈ source.closing turn, piece = .row spec := by
  rw [turnPieces, mem_append, mem_append, mem_append, mem_map, mem_map, mem_map, or_assoc, or_assoc]
  refine or_congr ?_ (or_congr ?_ (or_congr ?_ ?_))
  · exact exists_congr fun i => and_congr Option.mem_toList eq_comm
  · split
    · next h =>
      rw [Bool.and_eq_true, decide_eq_true_eq] at h
      simp [h]
    · next h =>
      rw [Bool.and_eq_true, decide_eq_true_eq] at h
      simp only [not_mem_nil, false_iff]
      exact fun hpos => h ⟨hpos.1, hpos.2.1⟩
  · exact exists_congr fun b => and_congr_right fun _ => eq_comm
  · exact exists_congr fun b => and_congr_right fun _ => eq_comm

theorem block_mem_pieces : .block turn block ∈ source.pieces collapse ↔
    ∃ start stop, (turn, start, stop) ∈ source.stretches 0 ∧
      block ∈ source.turnBlocks turn start stop := by
  rw [mem_pieces]
  constructor
  · rintro (⟨turn', start, stop, hs, hp⟩ | ⟨-, hp⟩)
    · rcases mem_turnPieces.mp hp with ⟨i, -, heq⟩ | ⟨-, -, heq⟩ | ⟨b, hb, heq⟩ | ⟨spec, -, heq⟩
      · cases heq
      · cases heq
      · cases heq
        exact ⟨start, stop, hs, hb⟩
      · cases heq
    · cases hp
  · rintro ⟨start, stop, hs, hb⟩
    exact .inl ⟨turn, start, stop, hs, mem_turnPieces.mpr (.inr (.inr (.inl ⟨block, hb, rfl⟩)))⟩

theorem fold_mem_pieces : .fold turn rowCount ∈ source.pieces collapse ↔
    source.foldable collapse turn = true ∧ 0 < rowCount ∧
      ∃ start stop, (turn, start, stop) ∈ source.stretches 0 ∧
        rowCount = source.rowCount start stop := by
  rw [mem_pieces]
  constructor
  · rintro (⟨turn', start, stop, hs, hp⟩ | ⟨-, hp⟩)
    · rcases mem_turnPieces.mp hp with ⟨i, -, heq⟩ | ⟨hf, hpos, heq⟩ | ⟨b, hb, heq⟩ | ⟨spec, -, heq⟩
      · cases heq
      · cases heq
        exact ⟨hf, hpos, start, stop, hs, rfl⟩
      · cases heq
      · cases heq
    · cases hp
  · rintro ⟨hf, hpos, start, stop, hs, rfl⟩
    exact .inl ⟨turn, start, stop, hs, mem_turnPieces.mpr (.inr (.inl ⟨hf, hpos, rfl⟩))⟩

/-- What a member of a block is. -/
structure IsMember (source : RowSource) (turn start stop i : ℕ) : Prop where
  ge : start ≤ i
  lt : i < stop
  turn_eq : source.turn i = turn
  visible : (source.item i).hidden = false
  not_hoisted : source.hoisted turn start stop ≠ some i

theorem isMember_of_mem (hs : (turn, start, stop) ∈ source.stretches 0)
    (hb : block ∈ source.turnBlocks turn start stop) (hi : i ∈ block.members) :
    IsMember source turn start stop i := by
  have hmem := mem_flatMap_of_mem hb hi
  rw [turnBlocks, members_blocks, mem_filter, mem_positions, kind_shown, Bool.and_eq_true,
    Bool.not_eq_true', Bool.not_eq_true', beq_eq_false_iff_ne] at hmem
  obtain ⟨⟨hge, hlt⟩, hne, hvisible⟩ := hmem
  exact
    { ge := hge
      lt := hlt
      turn_eq := (isStretch_of_mem hs).2.turn_eq i hge hlt
      visible := hvisible
      not_hoisted := fun h => hne h.symm }

theorem turn_of_mem_block (hp : .block turn block ∈ source.pieces collapse)
    (hi : i ∈ block.members) : source.turn i = turn := by
  obtain ⟨start, stop, hs, hb⟩ := block_mem_pieces.mp hp
  exact (isMember_of_mem hs hb hi).turn_eq

/-- The opening prompt is a user message, the first one of its turn. -/
theorem openingUser_spec (h : source.openingUser start stop = some i) :
    (start ≤ i ∧ i < stop) ∧ (source.item i).isUserMessage = true ∧
      ∀ j, start ≤ j → j < i → (source.item j).isUserMessage = false := by
  rw [openingUser] at h
  obtain ⟨huser, before, after, hsplit, hnone⟩ := find?_eq_some_iff_append.mp h
  refine ⟨mem_positions.mp (mem_of_find?_eq_some h), huser, fun j hj hlt => ?_⟩
  have hi := mem_positions.mp (mem_of_find?_eq_some h)
  have hmem : j ∈ positions start stop := mem_positions.mpr ⟨hj, by omega⟩
  have hsorted : (positions start stop).Pairwise (· < ·) := pairwise_lt_range'
  rw [hsplit] at hmem hsorted
  rcases mem_append.mp hmem with hbefore | hafter
  · simpa using hnone j hbefore
  · rcases mem_cons.mp hafter with rfl | hafter
    · omega
    · have := (pairwise_cons.mp (pairwise_append.mp hsorted).2.1).1 j hafter
      omega

theorem openingUser_of_hoisted (h : source.hoisted turn start stop = some i) :
    source.openingUser start stop = some i := by
  rw [hoisted] at h
  split at h
  · exact h
  · cases h

/-! ## The order of entries -/

def rowEntry : RowSpec → Option ℕ
  | .entry index _ | .work index _ => some index
  | _ => none

def pieceEntries : Piece → List ℕ
  | .row spec => (rowEntry spec).toList
  | .fold _ _ => []
  | .block _ block => block.members

/-- `i` stands above `j`: it is earlier, or it is the prompt that opened their turn. -/
def Above (source : RowSource) (i j : ℕ) : Prop :=
  i < j ∨ (j < i ∧ (source.item i).isUserMessage = true ∧
    ∀ m, j ≤ m → m < i → source.turn m = source.turn i ∧ (source.item m).isUserMessage = false)

theorem flatMap_pieceEntries_turnPieces (turn start stop : ℕ) :
    (source.turnPieces collapse turn start stop).flatMap pieceEntries =
      (source.hoisted turn start stop).toList ++ (positions start stop).filter fun i =>
        !(some i == source.hoisted turn start stop) && !(source.item i).hidden := by
  have hblocks : ((source.turnBlocks turn start stop).map (.block turn)).flatMap pieceEntries =
      (positions start stop).filter fun i =>
        !(some i == source.hoisted turn start stop) && !(source.item i).hidden := by
    rw [flatMap_map, turnBlocks]
    exact (members_blocks _).trans (filter_congr fun i _ => kind_shown _ i)
  have hclosing : ((source.closing turn).map Piece.row).flatMap pieceEntries = [] := by
    rw [closing]
    split
    · rfl
    · split
      · cases source.turns.seconds turn <;> rfl
      · rfl
  rw [turnPieces, flatMap_append, flatMap_append, flatMap_append, hblocks, hclosing, append_nil]
  congr 1
  have hfold : (if source.foldable collapse turn && 0 < source.rowCount start stop then
      [Piece.fold turn (source.rowCount start stop)] else []).flatMap pieceEntries = [] := by
    split <;> rfl
  rw [hfold, append_nil]
  cases source.hoisted turn start stop <;> rfl

theorem bounds_of_mem_turnPieces (hp : piece ∈ source.turnPieces collapse turn start stop)
    (hi : i ∈ pieceEntries piece) : start ≤ i ∧ i < stop := by
  have hmem := mem_flatMap_of_mem hp hi
  rw [flatMap_pieceEntries_turnPieces, mem_append, Option.mem_toList, mem_filter,
    mem_positions] at hmem
  rcases hmem with hhoisted | ⟨hbounds, -⟩
  · exact (openingUser_spec (openingUser_of_hoisted hhoisted)).1
  · exact hbounds

theorem pairwise_turnPieces (h : IsStretch source turn start stop) :
    ((source.turnPieces collapse turn start stop).flatMap pieceEntries).Pairwise
      (Above source) := by
  rw [flatMap_pieceEntries_turnPieces, pairwise_append]
  refine ⟨?_, ?_, ?_⟩
  · cases source.hoisted turn start stop with
    | none => exact .nil
    | some o => exact pairwise_singleton _ _
  · have hsorted : (positions start stop).Pairwise (· < ·) := pairwise_lt_range'
    exact (hsorted.filter _).imp .inl
  · intro i hi j hj
    obtain ⟨⟨hbound, hlt⟩, huser, hfirst⟩ :=
      openingUser_spec (openingUser_of_hoisted (Option.mem_toList.mp hi))
    rw [mem_filter, mem_positions, Bool.and_eq_true, Bool.not_eq_true', beq_eq_false_iff_ne] at hj
    obtain ⟨hj, hne, -⟩ := hj
    rcases Nat.lt_trichotomy i j with hij | rfl | hji
    · exact .inl hij
    · exact absurd (Option.mem_toList.mp hi).symm hne
    · refine .inr ⟨hji, huser, fun m hjm hmi => ⟨?_, hfirst m (by omega) hmi⟩⟩
      rw [h.turn_eq m (by omega) (by omega), h.turn_eq i hbound hlt]

/-- **Entries are in transcript order, the opening prompts apart.** -/
theorem pairwise_pieceEntries (collapse : CollapseRows) :
    ((source.pieces collapse).flatMap pieceEntries).Pairwise (Above source) := by
  have hworking : (if source.working then [Piece.row (.working source.compacting)] else []).flatMap
      pieceEntries = [] := by
    cases source.working <;> rfl
  rw [pieces, flatMap_append, hworking, append_nil, flatMap_assoc, pairwise_flatMap]
  refine ⟨?_, (pairwise_stretches 0).imp ?_⟩
  · rintro ⟨turn, start, stop⟩ hs
    exact pairwise_turnPieces (isStretch_of_mem hs).2
  · intro s s' hle i hi j hj
    obtain ⟨p, hp, hi⟩ := mem_flatMap.mp hi
    obtain ⟨q, hq, hj⟩ := mem_flatMap.mp hj
    have hlt := (bounds_of_mem_turnPieces hp hi).2
    have hge := (bounds_of_mem_turnPieces hq hj).1
    exact .inl (by omega)

theorem nodup_pieceEntries (collapse : CollapseRows) :
    ((source.pieces collapse).flatMap pieceEntries).Nodup :=
  (pairwise_pieceEntries collapse).imp fun h heq => by
    subst heq
    rcases h with h | ⟨h, -⟩ <;> exact Nat.lt_irrefl _ h

/-- An entry is in one piece. -/
theorem piece_eq_of_mem {piece' : Piece} (hp : piece ∈ source.pieces collapse)
    (hp' : piece' ∈ source.pieces collapse) (hi : i ∈ pieceEntries piece)
    (hi' : i ∈ pieceEntries piece') : piece = piece' := by
  by_contra hne
  have hdisjoint := (nodup_flatMap.mp (@nodup_pieceEntries source collapse)).2
  have : Std.Symm (Function.onFun List.Disjoint pieceEntries) :=
    ⟨fun _ _ h => disjoint_symm h⟩
  exact hdisjoint.forall hp hp' hne hi hi'

end RowSource

end NiumaTerm.Transcript
