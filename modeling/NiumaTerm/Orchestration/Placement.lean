import Mathlib.Combinatorics.Pigeonhole
import Mathlib.Tactic.Linarith
import NiumaTerm.Lib.Settling
import NiumaTerm.Orchestration.Validation

/-!
# Canvas positions

A node with a stored position keeps it; any other goes to a grid, one column for each dependency depth,
and to no cell that a stored position covers.  The depths are settled by passes over the nodes, as the
canvas also shows definitions that do not validate.  Coordinates are rational numbers here, and loops are
bounded by `rounds`.
-/

namespace NiumaTerm.Orchestration

open Rust List

/-- A `Position` with exact coordinates. -/
structure Point where
  x : ℚ
  y : ℚ
  deriving DecidableEq, Inhabited

/-- The layout of a definition with exact coordinates. -/
abbrev ExactLayout := Std.TreeMap Str Point compare

def columnWidth : ℚ := 240

def rowHeight : ℚ := 130

def margin : ℚ := 24

def cell (column row : ℕ) : Point where
  x := margin + column * columnWidth
  y := margin + row * rowHeight

/-- Whether a card at `taken` overlaps the grid cell at `cell`. -/
def covers (taken cell : Point) : Bool :=
  |taken.x - cell.x| < columnWidth / 2 && |taken.y - cell.y| < rowHeight / 2

/-! ## Depths -/

/-- The dependencies of every node as indices.  A repeated id stands for its last node, and unknown
ids are skipped. -/
def placementNeeds (d : Definition) : List (List ℕ) :=
  let index : Index := .ofList d.ids.zipIdx
  d.nodes.map fun node => node.needs.filterMap fun id => index[id]?

/-- The depth of a node whose dependencies all have one. -/
def knownDepth (needs : List (List ℕ)) (depth : List (Option ℕ)) (node : ℕ) : Option ℕ :=
  ((needsOf needs node).mapM fun dependency => depth.getD dependency none).map fun known =>
    (known.map (· + 1)).max?.getD 0

/-- `depths`.  What has no depth in the end is on a cycle or depends on one. -/
def depthsWithin (rounds : ℕ) (d : Definition) : Option (List ℕ) :=
  let needs := placementNeeds d
  (Settling.within (knownDepth needs) rounds (replicate needs.length none)).map fun depth =>
    depth.map fun value => value.getD 0

/-! ## Places -/

/-- The inner loop of `place`: the first row from `row` on whose cell is not covered. -/
def freeRow (stored : List Point) (column : ℕ) : ℕ → ℕ → Option ℕ
  | 0, _ => none
  | rounds + 1, row =>
    if stored.any fun taken => covers taken (cell column row) then
      freeRow stored column rounds (row + 1)
    else some row

/-- The outer loop of `place`, over the nodes' ids and columns. -/
def placeNodes (rounds : ℕ) (layout : ExactLayout) (stored : List Point) :
    Std.TreeMap ℕ ℕ compare → List (Str × ℕ) → Option (List Point)
  | _, [] => some []
  | nextRow, (id, column) :: rest =>
    match layout[id]? with
    | some position => (placeNodes rounds layout stored nextRow rest).map (position :: ·)
    | none => do
      let row ← freeRow stored column rounds (nextRow.getD column 0)
      let positions ← placeNodes rounds layout stored (nextRow.insert column (row + 1)) rest
      return cell column row :: positions

def storedPositions (d : Definition) (layout : ExactLayout) : List Point :=
  d.ids.filterMap fun id => layout[id]?

def placeWithin (rounds : ℕ) (d : Definition) (layout : ExactLayout) : Option (List Point) := do
  let columns ← depthsWithin rounds d
  placeNodes rounds layout (storedPositions d layout) ∅ (d.ids.zip columns)

/-! ## The grid -/

theorem cell_inj {column column' row row' : ℕ} (h : cell column row = cell column' row') :
    column = column' ∧ row = row' := by
  simp only [cell, Point.mk.injEq, add_right_inj] at h
  have hc : (column : ℚ) = column' := mul_right_cancel₀ (by norm_num [columnWidth]) h.1
  have hr : (row : ℚ) = row' := mul_right_cancel₀ (by norm_num [rowHeight]) h.2
  exact ⟨by exact_mod_cast hc, by exact_mod_cast hr⟩

theorem covers_row_inj {taken : Point} {column row row' : ℕ}
    (h : covers taken (cell column row) = true) (h' : covers taken (cell column row') = true) :
    row = row' := by
  simp only [covers, cell, Bool.and_eq_true, decide_eq_true_eq, rowHeight, margin, abs_lt] at h h'
  have hlt : (row : ℚ) < row' + 1 := by linarith [h.2.1, h'.2.2]
  have hlt' : (row' : ℚ) < row + 1 := by linarith [h.2.2, h'.2.1]
  have hle : row ≤ row' := Nat.lt_succ_iff.mp (by exact_mod_cast hlt)
  have hle' : row' ≤ row := Nat.lt_succ_iff.mp (by exact_mod_cast hlt')
  exact le_antisymm hle hle'

section

variable {stored : List Point} {column rounds row found : ℕ}

theorem freeRow_eq_none (h : freeRow stored column rounds row = none) :
    ∀ offset < rounds, ∃ taken ∈ stored, covers taken (cell column (row + offset)) = true := by
  induction rounds generalizing row with
  | zero => exact fun offset hlt => absurd hlt offset.not_lt_zero
  | succ rounds ih =>
    rw [freeRow] at h
    split at h
    · next hany =>
      intro offset hlt
      cases offset with
      | zero => exact any_eq_true.mp hany
      | succ offset =>
        have := ih h offset (Nat.lt_of_succ_lt_succ hlt)
        rwa [Nat.add_right_comm] at this
    · cases h

variable (column) in
/-- **The search ends:** there is a stored position for each covered row. -/
theorem freeRow_isSome (h : stored.length < rounds) (row : ℕ) :
    (freeRow stored column rounds row).isSome := by
  rw [Option.isSome_iff_ne_none]
  intro hnone
  choose! taken hmem hcovers using freeRow_eq_none hnone
  have hcard : stored.toFinset.card < (Finset.range rounds).card :=
    (toFinset_card_le stored).trans_lt (by rwa [Finset.card_range])
  obtain ⟨first, hfirst, second, hsecond, hne, hsame⟩ :=
    Finset.exists_ne_map_eq_of_card_lt_of_maps_to hcard (f := taken) fun offset hoffset =>
      mem_toFinset.mpr (hmem offset (Finset.mem_range.mp hoffset))
  have hrow := covers_row_inj (hcovers first (Finset.mem_range.mp hfirst))
    (hsame ▸ hcovers second (Finset.mem_range.mp hsecond))
  exact hne (Nat.add_left_cancel hrow)

theorem freeRow_some (h : freeRow stored column rounds row = some found) :
    row ≤ found ∧ ∀ taken ∈ stored, covers taken (cell column found) = false := by
  induction rounds generalizing row with
  | zero => cases h
  | succ rounds ih =>
    rw [freeRow] at h
    split at h
    · obtain ⟨hle, hfree⟩ := ih h
      exact ⟨Nat.le_of_succ_le hle, hfree⟩
    · next hany =>
      cases h
      refine ⟨le_rfl, fun taken hmem => ?_⟩
      exact Bool.eq_false_iff.mpr fun hcovers => hany (any_eq_true.mpr ⟨taken, hmem, hcovers⟩)

theorem freeRow_mono {more : ℕ} (h : freeRow stored column rounds row = some found)
    (hmore : rounds ≤ more) : freeRow stored column more row = some found := by
  induction rounds generalizing row more with
  | zero => cases h
  | succ rounds ih =>
    obtain ⟨more, rfl⟩ := Nat.exists_eq_add_of_le' (Nat.le_trans (Nat.le_add_left 1 rounds) hmore)
    rw [freeRow] at h ⊢
    split at h
    · next hany =>
      rw [if_pos hany]
      exact ih h (Nat.le_of_succ_le_succ hmore)
    · next hany => rwa [if_neg hany]

end

/-! ## The nodes on the grid -/

section

variable {rounds : ℕ} {layout : ExactLayout} {taken : List Point}
  {nextRow : Std.TreeMap ℕ ℕ compare} {entries : List (Str × ℕ)} {positions : List Point}

/-- What the outer loop gives its entries, from the rows that are next. -/
inductive Places (layout : ExactLayout) (taken : List Point) :
    Std.TreeMap ℕ ℕ compare → List (Str × ℕ) → List Point → Prop
  | nil (nextRow : Std.TreeMap ℕ ℕ compare) : Places layout taken nextRow [] []
  | keep {nextRow : Std.TreeMap ℕ ℕ compare} {id : Str} {column : ℕ} {position : Point}
      {rest : List (Str × ℕ)} {positions : List Point} (hstored : layout[id]? = some position)
      (hrest : Places layout taken nextRow rest positions) :
      Places layout taken nextRow ((id, column) :: rest) (position :: positions)
  | put {nextRow : Std.TreeMap ℕ ℕ compare} {id : Str} {column row : ℕ}
      {rest : List (Str × ℕ)} {positions : List Point} (hnone : layout[id]? = none)
      (hle : nextRow.getD column 0 ≤ row)
      (hfree : ∀ position ∈ taken, covers position (cell column row) = false)
      (hrest : Places layout taken (nextRow.insert column (row + 1)) rest positions) :
      Places layout taken nextRow ((id, column) :: rest) (cell column row :: positions)

theorem places_of (h : placeNodes rounds layout taken nextRow entries = some positions) :
    Places layout taken nextRow entries positions := by
  induction entries generalizing nextRow positions with
  | nil =>
    cases h
    exact .nil nextRow
  | cons entry rest ih =>
    obtain ⟨id, column⟩ := entry
    rw [placeNodes] at h
    split at h
    · next position hposition =>
      obtain ⟨tail, htail, rfl⟩ := Option.map_eq_some_iff.mp h
      exact .keep hposition (ih htail)
    · next hnone =>
      obtain ⟨row, hrow, h⟩ := Option.bind_eq_some_iff.mp h
      obtain ⟨tail, htail, h⟩ := Option.bind_eq_some_iff.mp h
      cases h
      obtain ⟨hle, hfree⟩ := freeRow_some hrow
      exact .put hnone hle hfree (ih htail)

variable (layout) in
/-- With a round for each taken position and one more, the loop ends. -/
theorem placeNodes_isSome (h : taken.length < rounds) (nextRow : Std.TreeMap ℕ ℕ compare)
    (entries : List (Str × ℕ)) :
    (placeNodes rounds layout taken nextRow entries).isSome := by
  induction entries generalizing nextRow with
  | nil => rfl
  | cons entry rest ih =>
    obtain ⟨id, column⟩ := entry
    rw [placeNodes]
    split
    · rw [Option.isSome_map]
      exact ih nextRow
    · obtain ⟨row, hrow⟩ := Option.isSome_iff_exists.mp
        (freeRow_isSome column h (nextRow.getD column 0))
      obtain ⟨tail, htail⟩ := Option.isSome_iff_exists.mp (ih (nextRow.insert column (row + 1)))
      rw [hrow, Option.bind_eq_bind, Option.bind_some, htail]
      rfl

theorem placeNodes_mono {more : ℕ}
    (h : placeNodes rounds layout taken nextRow entries = some positions) (hmore : rounds ≤ more) :
    placeNodes more layout taken nextRow entries = some positions := by
  induction entries generalizing nextRow positions with
  | nil => exact h
  | cons entry rest ih =>
    obtain ⟨id, column⟩ := entry
    rw [placeNodes] at h ⊢
    split at h
    · next position hposition =>
      obtain ⟨tail, htail, rfl⟩ := Option.map_eq_some_iff.mp h
      rw [ih htail]
      rfl
    · obtain ⟨row, hrow, h⟩ := Option.bind_eq_some_iff.mp h
      obtain ⟨tail, htail, h⟩ := Option.bind_eq_some_iff.mp h
      simp only [freeRow_mono hrow hmore, Option.bind_eq_bind, Option.bind_some, ih htail]
      exact h

theorem Places.length (h : Places layout taken nextRow entries positions) :
    positions.length = entries.length := by
  induction h with
  | nil => rfl
  | keep _ _ ih | put _ _ _ _ ih => exact congrArg (· + 1) ih

theorem Places.stored (h : Places layout taken nextRow entries positions) {index column : ℕ}
    {id : Str} (hentry : entries[index]? = some (id, column)) {position : Point}
    (hstored : layout[id]? = some position) : positions[index]? = some position := by
  induction h generalizing index with
  | nil => simp at hentry
  | keep hother _ ih =>
    cases index with
    | zero =>
      cases hentry
      exact hother.symm.trans hstored
    | succ index => exact ih hentry
  | put hnone _ _ _ ih =>
    cases index with
    | zero =>
      cases hentry
      exact absurd (hstored.symm.trans hnone) (Option.some_ne_none _)
    | succ index => exact ih hentry

/-- A node without a stored position is in its column, at or after the row that was next. -/
theorem Places.automatic (h : Places layout taken nextRow entries positions) {index column : ℕ}
    {id : Str} (hentry : entries[index]? = some (id, column)) (hid : layout[id]? = none) :
    ∃ row, nextRow.getD column 0 ≤ row ∧ positions[index]? = some (cell column row) ∧
      ∀ position ∈ taken, covers position (cell column row) = false := by
  induction h generalizing index with
  | nil => simp at hentry
  | keep hstored _ ih =>
    cases index with
    | zero =>
      cases hentry
      exact absurd (hstored.symm.trans hid) (Option.some_ne_none _)
    | succ index => exact ih hentry
  | @put nextRow _ other row _ _ _ hle hfree _ ih =>
    cases index with
    | zero =>
      cases hentry
      exact ⟨row, hle, rfl, hfree⟩
    | succ index =>
      obtain ⟨later, hlater, hcell⟩ := ih hentry
      refine ⟨later, ?_, hcell⟩
      rw [Std.TreeMap.getD_insert] at hlater
      split at hlater
      · next heq =>
        obtain rfl := Std.LawfulEqCmp.eq_of_compare heq
        exact hle.trans (Nat.le_of_succ_le hlater)
      · exact hlater

/-- **Automatically placed nodes share no cell,** as a column's next row is after its last one. -/
theorem Places.ne (h : Places layout taken nextRow entries positions) {first second : ℕ}
    {id id' : Str} {column column' : ℕ} (hlt : first < second)
    (hfirst : entries[first]? = some (id, column)) (hid : layout[id]? = none)
    (hsecond : entries[second]? = some (id', column')) (hid' : layout[id']? = none) :
    positions[first]? ≠ positions[second]? := by
  induction h generalizing first second with
  | nil => simp at hfirst
  | keep hstored _ ih =>
    cases second with
    | zero => exact absurd hlt first.not_lt_zero
    | succ second =>
      cases first with
      | zero =>
        cases hfirst
        exact absurd (hstored.symm.trans hid) (Option.some_ne_none _)
      | succ first => exact ih (Nat.lt_of_succ_lt_succ hlt) hfirst hsecond
  | @put nextRow _ _ row _ _ _ _ _ hrest ih =>
    cases second with
    | zero => exact absurd hlt first.not_lt_zero
    | succ second =>
      cases first with
      | zero =>
        cases hfirst
        obtain ⟨later, hlater, hcell, -⟩ := hrest.automatic hsecond hid'
        intro hsame
        have hcells : cell column row = cell column' later :=
          Option.some.inj (hsame.trans hcell)
        obtain ⟨rfl, rfl⟩ := cell_inj hcells
        rw [Std.TreeMap.getD_insert_self] at hlater
        exact absurd hlater (Nat.not_succ_le_self row)
      | succ first => exact ih (Nat.lt_of_succ_lt_succ hlt) hfirst hsecond

end

/-! ## The depths of a graph -/

section

variable {d : Definition} {g : Graph} {rounds : ℕ} {columns : List ℕ}

theorem depths_isSome (d : Definition) (h : d.nodes.length < rounds) :
    (depthsWithin rounds d).isSome := by
  rw [depthsWithin, Option.isSome_map]
  refine Settling.within_isSome (Nat.lt_of_le_of_lt countP_le_length ?_)
  rwa [length_replicate, placementNeeds, length_map]

theorem depths_mono {more : ℕ} (h : depthsWithin rounds d = some columns)
    (hmore : rounds ≤ more) : depthsWithin more d = some columns := by
  obtain ⟨depth, hdepth, rfl⟩ := Option.map_eq_some_iff.mp h
  exact Option.map_eq_some_iff.mpr ⟨depth, Settling.within_mono hdepth hmore, rfl⟩

theorem depths_length (h : depthsWithin rounds d = some columns) :
    columns.length = d.nodes.length := by
  obtain ⟨depth, hdepth, rfl⟩ := Option.map_eq_some_iff.mp h
  rw [length_map, Settling.within_length hdepth, length_replicate, placementNeeds, length_map]

/-- Where validation resolves every dependency, so does the placement. -/
theorem placementNeeds_eq (h : d.Resolvable) : placementNeeds d = d.needs := by
  have hdistinct : d.ids.zipIdx.Pairwise fun a b => ¬ compare a.1 b.1 = .eq := by
    have hids : (d.ids.zipIdx.map Prod.fst).Nodup := by
      rw [zipIdx_map_fst]
      exact h.ids_nodup
    refine (pairwise_map.mp hids).imp fun hne heq => hne (Std.LawfulEqCmp.eq_of_compare heq)
  have hindex : ∀ id ∈ d.ids,
      (Std.TreeMap.ofList d.ids.zipIdx compare)[id]? = some (d.ids.idxOf id) := by
    intro id hid
    refine Std.TreeMap.getElem?_ofList_of_mem Std.ReflCmp.compare_self hdistinct ?_
    rw [mem_zipIdx_iff_getElem?]
    exact getElem?_idxOf hid
  refine map_congr_left fun node hnode => ?_
  rw [← filterMap_eq_map]
  refine filterMap_congr fun id hid => hindex id ?_
  exact h.needs_known node hnode id hid

/-- The largest of some values, one more each, along a list. -/
theorem foldl_succ_eq {dependencies : List ℕ} (f : ℕ → ℕ) :
    dependencies.foldl (fun depth dependency => max depth (f dependency + 1)) 0 =
      ((dependencies.map f).map (· + 1)).max?.getD 0 := by
  have hfold : ∀ start, dependencies.foldl
      (fun depth dependency => max depth (f dependency + 1)) start =
        ((dependencies.map f).map (· + 1)).foldl max start := fun start => by
    rw [foldl_map, foldl_map]
  rw [hfold]
  cases (dependencies.map f).map (· + 1) with
  | nil => rfl
  | cons first rest =>
    rw [max?_cons', Option.getD_some, foldl_cons, Nat.zero_max]

theorem mapM_some {f : ℕ → Option ℕ} {keys : List ℕ} (h : ∀ key ∈ keys, (f key).isSome) :
    keys.mapM f = some (keys.map fun key => (f key).getD 0) := by
  induction keys with
  | nil => rfl
  | cons key rest ih =>
    obtain ⟨value, hvalue⟩ := Option.isSome_iff_exists.mp (h key mem_cons_self)
    rw [mapM_cons, ih fun other hother => h other (mem_cons_of_mem _ hother), hvalue,
      map_cons, hvalue]
    rfl

theorem isSome_of_mapM {f : ℕ → Option ℕ} {keys values : List ℕ} (h : keys.mapM f = some values) :
    ∀ key ∈ keys, (f key).isSome := by
  induction keys generalizing values with
  | nil => exact fun key hkey => absurd hkey not_mem_nil
  | cons key rest ih =>
    rw [mapM_cons] at h
    obtain ⟨value, hvalue, h⟩ := Option.bind_eq_some_iff.mp h
    obtain ⟨values, hvalues, -⟩ := Option.bind_eq_some_iff.mp h
    intro other hother
    rcases mem_cons.mp hother with rfl | hother
    · exact Option.isSome_of_eq_some hvalue
    · exact ih hvalues other hother

variable {needs : List (List ℕ)} {order : List ℕ} {depth : List (Option ℕ)} {node value : ℕ}

/-- The depths that are settled are those of the relations. -/
def Agrees (needs : List (List ℕ)) (order : List ℕ) (depth : List (Option ℕ)) : Prop :=
  ∀ node value, depth.getD node none = some value →
    value = (Relations.of needs order).depthAt node

theorem Agrees.knownDepth (h : Agrees needs order depth) (hv : ValidNeeds needs)
    (hfits : needs.length ≤ maxNodes) (ho : IsOrder needs order) (hnode : node < needs.length)
    (hknown : knownDepth needs depth node = some value) :
    value = (Relations.of needs order).depthAt node := by
  obtain ⟨known, hvalues, rfl⟩ := Option.map_eq_some_iff.mp hknown
  have hsome := isSome_of_mapM hvalues
  have hmap : known = (needsOf needs node).map (Relations.of needs order).depthAt := by
    rw [mapM_some hsome] at hvalues
    rw [← Option.some.inj hvalues]
    refine map_congr_left fun dependency hdependency => ?_
    obtain ⟨other, hother⟩ := Option.isSome_iff_exists.mp (hsome dependency hdependency)
    rw [hother]
    exact h dependency other hother
  rw [Relations.depthAt_of hv hfits ho hnode, foldl_succ_eq, hmap]

/-- What the passes settle agrees with the relations. -/
theorem agrees_within {final : List (Option ℕ)} (hv : ValidNeeds needs)
    (hfits : needs.length ≤ maxNodes) (ho : IsOrder needs order)
    (h : Settling.within (Orchestration.knownDepth needs) rounds
      (replicate needs.length none) = some final) : Agrees needs order final := by
  have hinv : final.length = needs.length ∧ Agrees needs order final := by
    refine Settling.within_invariant
      (P := fun depth => depth.length = needs.length ∧ Agrees needs order depth)
      (fun depth node value hdepth hnode _ hvalue => ?_) ⟨length_replicate, ?_⟩ h
    · refine ⟨(length_set).trans hdepth.1, fun other found hfound => ?_⟩
      by_cases hsame : node = other
      · subst hsame
        rw [getD_eq_getElem?_getD, getElem?_set_self hnode] at hfound
        obtain rfl : value = found := Option.some.inj hfound
        exact hdepth.2.knownDepth hv hfits ho (hdepth.1 ▸ hnode) hvalue
      · rw [getD_eq_getElem?_getD, getElem?_set_ne hsame, ← getD_eq_getElem?_getD] at hfound
        exact hdepth.2 other found hfound
    · intro node value hvalue
      rw [getD_eq_getElem?_getD, getElem?_replicate] at hvalue
      split at hvalue <;> cases hvalue
  exact hinv.2

/-- Where the dependencies have an order, every node is settled. -/
theorem settled_within {final : List (Option ℕ)} (hv : ValidNeeds needs) (ho : IsOrder needs order)
    (h : Settling.within (knownDepth needs) rounds (replicate needs.length none) = some final)
    (hnode : node < needs.length) : (final.getD node none).isSome := by
  have hlength : final.length = needs.length :=
    (Settling.within_length h).trans length_replicate
  induction node using ho.wellFounded.induction with
  | _ node ih =>
    by_contra hunsettled
    have hnone := Settling.within_stable h (hlength.symm ▸ hnode)
      (Option.not_isSome_iff_eq_none.mp hunsettled)
    have hall : ∀ dependency ∈ needsOf needs node, (final.getD dependency none).isSome :=
      fun dependency hdependency => ih dependency hdependency (hv.lt hdependency)
    rw [knownDepth, mapM_some hall] at hnone
    cases hnone

/-- **The depths of an accepted definition** are those of its graph. -/
theorem depths_eq (hg : Graph.new d = .ok g) (h : depthsWithin rounds d = some columns)
    {index : ℕ} (hindex : index < d.nodes.length) : columns.getD index 0 = g.depthAt index := by
  obtain ⟨hw, order, -, ho, rfl⟩ := Graph.new_ok hg
  have hr := hw.toResolvable
  have hfits : d.needs.length ≤ maxNodes := d.needs_length.trans_le hr.nodes_le
  obtain ⟨depth, hdepth, rfl⟩ := Option.map_eq_some_iff.mp h
  rw [placementNeeds_eq hr] at hdepth
  have hsome := settled_within hr.validNeeds ho hdepth (hindex.trans_eq d.needs_length.symm)
  obtain ⟨value, hvalue⟩ := Option.isSome_iff_exists.mp hsome
  have hvalue' := agrees_within hr.validNeeds hfits ho hdepth index value hvalue
  rw [getD_eq_getElem?_getD] at hvalue ⊢
  rw [getElem?_map]
  cases hget : depth[index]? with
  | none =>
    rw [hget] at hvalue
    cases hvalue
  | some entry =>
    rw [hget, Option.getD_some] at hvalue
    subst hvalue
    exact hvalue'

end

/-! ## The positions -/

/-- What `place` promises of the columns it uses and of the positions. -/
structure Placed (d : Definition) (layout : ExactLayout) (columns : List ℕ)
    (positions : List Point) : Prop where
  columns_length : columns.length = d.nodes.length
  length : positions.length = d.nodes.length
  /-- a stored position stays -/
  stored : ∀ (index : ℕ) (node : Node), d.nodes[index]? = some node →
    ∀ position, layout[node.id]? = some position → positions[index]? = some position
  /-- any other node is in its column, on a cell that no node's stored position covers -/
  automatic : ∀ (index : ℕ) (node : Node), d.nodes[index]? = some node → layout[node.id]? = none →
    ∃ row, positions[index]? = some (cell (columns.getD index 0) row) ∧
      ∀ other ∈ d.nodes, ∀ taken, layout[other.id]? = some taken →
        covers taken (cell (columns.getD index 0) row) = false
  /-- and on a cell of its own -/
  ne : ∀ (first second : ℕ) (node node' : Node), first ≠ second → d.nodes[first]? = some node →
    layout[node.id]? = none → d.nodes[second]? = some node' → layout[node'.id]? = none →
    positions[first]? ≠ positions[second]?
  /-- the column of a node is its depth in the graph, if there is one -/
  depth : ∀ g, Graph.new d = .ok g → ∀ index < d.nodes.length,
    columns.getD index 0 = g.depthAt index

/-- **Placement.**  For every definition, both loops end within one round more than there are nodes,
and the positions are as `Placed` says. -/
theorem placed (d : Definition) (layout : ExactLayout) : ∃ columns positions,
    (∀ rounds > d.nodes.length, depthsWithin rounds d = some columns ∧
      placeWithin rounds d layout = some positions) ∧ Placed d layout columns positions := by
  obtain ⟨columns, hcolumns⟩ :=
    Option.isSome_iff_exists.mp (depths_isSome d (Nat.lt_succ_self d.nodes.length))
  have hids : d.ids.length = d.nodes.length := d.ids_length
  have hlength := depths_length hcolumns
  have hstored : (storedPositions d layout).length < d.nodes.length + 1 :=
    Nat.lt_succ_of_le ((length_filterMap_le _ _).trans_eq hids)
  obtain ⟨positions, hpositions⟩ := Option.isSome_iff_exists.mp
    (placeNodes_isSome layout hstored ∅ (d.ids.zip columns))
  have hplaces := places_of hpositions
  have hentry : ∀ (index : ℕ) (node : Node), d.nodes[index]? = some node →
      (d.ids.zip columns)[index]? = some (node.id, columns.getD index 0) := by
    intro index node hnode
    have hlt : index < columns.length := by
      rw [hlength]
      exact (List.getElem?_eq_some_iff.mp hnode).1
    rw [getElem?_zip_eq_some, Definition.ids, getElem?_map, hnode,
      getElem?_eq_getElem hlt, getD_eq_getElem _ _ hlt]
    exact ⟨rfl, rfl⟩
  refine ⟨columns, positions, fun rounds hr ↦ ?_, ⟨hlength, ?_, ?_, ?_, ?_, ?_⟩⟩
  · have hmore := depths_mono hcolumns hr
    refine ⟨hmore, ?_⟩
    rw [placeWithin, hmore]
    exact placeNodes_mono hpositions hr
  · rw [hplaces.length, length_zip, hids, hlength, min_self]
  · intro index node hnode position hposition
    exact hplaces.stored (hentry index node hnode) hposition
  · intro index node hnode hnone
    obtain ⟨row, -, hcell, hfree⟩ := hplaces.automatic (hentry index node hnode) hnone
    refine ⟨row, hcell, fun other hother taken htaken ↦ hfree taken ?_⟩
    exact mem_filterMap.mpr ⟨other.id, mem_map_of_mem hother, htaken⟩
  · intro first second node node' hne hnode hnone hnode' hnone'
    rcases Nat.lt_or_gt_of_ne hne with hlt | hlt
    · exact hplaces.ne hlt (hentry first node hnode) hnone (hentry second node' hnode') hnone'
    · have hother := hplaces.ne hlt (hentry second node' hnode') hnone'
        (hentry first node hnode) hnone
      exact hother.symm
  · exact fun g hg index hindex ↦ depths_eq hg hcolumns hindex

end NiumaTerm.Orchestration
