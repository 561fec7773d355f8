import Mathlib.Algebra.BigOperators.Group.List.Basic
import Mathlib.Tactic.Linarith
import NiumaTerm.Lib.Transition
import NiumaTerm.Terminal.BlockStore

/-!
# The mirrored block list

`BlockListMirror.sync` compares counts and a measure key with those of the last frame and returns the
operations that bring the list in line; its items are kept as measured or measured anew.  `ListPane.InStep`:
the list has one item per block and keeps only items that are still right.  Heights are exact numbers.
-/

namespace NiumaTerm.Terminal

open Transition List

/-! ## Heights -/

/-- `min(u32::MAX)` of the cached row count. -/
def itemRows (item : BlockItem) (_cols : ℕ) : ℕ := min item.rows (2 ^ 32 - 1)

def itemPx (item : BlockItem) (cols : ℕ) (cellH padRows : ℚ) : ℚ :=
  match itemRows item cols with
  | 0 => 0
  | rows => (rows + 2 * padRows) * cellH

def liveItemPx (historyRows liveRows : ℕ) (cellH padRows : ℚ) : ℚ :=
  historyRows * cellH + (liveRows + 2 * padRows) * cellH

structure ListPosition where
  itemIx : ℕ
  offsetPx : ℚ
deriving DecidableEq

structure BlockListRenderMetrics where
  storeLen : ℕ
  evictedItems : ℕ
  itemCount : ℕ
  frozenPx : ℚ
  tailPx : ℚ
  totalPx : ℚ
  offsetPx : ℚ
  lastItemPx : ℚ

def blockListRenderMetrics (store : BlockStore) (liveRows historyRows cols : ℕ) (cellH padRows : ℚ)
    (offset : ListPosition) : BlockListRenderMetrics :=
  let heights := store.items.map fun item => itemPx item cols cellH padRows
  let storeLen := store.items.length
  let itemCount := storeLen + 1
  let frozenPx := heights.sum
  let totalPx := frozenPx + liveItemPx historyRows liveRows cellH padRows
  let offsetPx := (heights.take offset.itemIx).sum
  { storeLen
    evictedItems := store.evictedItems
    itemCount
    frozenPx
    tailPx := historyRows * cellH
    totalPx
    offsetPx :=
      if itemCount ≤ offset.itemIx then totalPx
      else if offset.itemIx ≤ storeLen then offsetPx + offset.offsetPx
      else offsetPx
    lastItemPx := heights.getLast?.getD 0 }

/-! ## What a frame plans -/

/-- Columns, cell height and pad rows. -/
abbrev Layout := ℕ × ℚ × ℚ

structure BlockListMeasureKey where
  layout : Layout
  storeLen : ℕ
  evictedItems : ℕ
  lastItemPx : ℚ
  tailPx : ℚ
  liveRows : ℕ
deriving DecidableEq

inductive ListReconcile
  | reset
  /-- The items to drop from the front, then the range to replace and by how many items. -/
  | patch (frontEvict : ℕ) (tailSplice : Option (ℕ × ℕ × ℕ))

def planListReconcile (mirroredCount evictedDelta itemCount : ℕ) : ListReconcile :=
  -- Only frozen items can be evicted from the mirror.
  if 0 < evictedDelta ∧ mirroredCount - 1 < evictedDelta then .reset
  else
    let mirrored := mirroredCount - evictedDelta
    if itemCount < mirrored then .reset
    else
      let oldLive := mirrored - 1
      .patch evictedDelta
        (if itemCount ≠ mirrored then some (oldLive, mirrored, itemCount - oldLive) else none)

inductive RemeasureScope
  | all
  | tail
  | none

def planRemeasure (prev : Option BlockListMeasureKey) (next : BlockListMeasureKey) : RemeasureScope :=
  if prev.any fun prev => prev.layout ≠ next.layout then .all
  else if prev ≠ some next then .tail
  else .none

inductive ListOp
  | reset (count : ℕ)
  | splice (start stop count : ℕ)
  | remeasureAll
  | remeasure (start stop : ℕ)
  | scrollTo (position : ListPosition)
  | scrollToEnd

structure BlockListMirror where
  itemCount : ℕ
  evictedItems : ℕ
  lastMeasureKey : Option BlockListMeasureKey

def BlockListMirror.default : BlockListMirror where
  itemCount := 1
  evictedItems := 0
  lastMeasureKey := none

def ListReconcile.ops (itemCount : ℕ) : ListReconcile → List ListOp
  | .reset => [.reset itemCount]
  | .patch frontEvict tailSplice =>
    (if 0 < frontEvict then [.splice 0 frontEvict 0] else []) ++
      match tailSplice with
      | some (start, stop, count) => [.splice start stop count]
      | none => []

def RemeasureScope.ops (metrics : BlockListRenderMetrics) : RemeasureScope → List ListOp
  | .all => [.remeasureAll]
  | .tail => [.remeasure (metrics.storeLen - 1) metrics.itemCount]
  | .none => []

def BlockListMirror.sync (mirror : BlockListMirror) (metrics : BlockListRenderMetrics)
    (layout : Layout) (liveRows : ℕ) : List ListOp × BlockListMirror :=
  let evicted := metrics.evictedItems - mirror.evictedItems
  let key : BlockListMeasureKey :=
    { layout
      storeLen := metrics.storeLen
      evictedItems := metrics.evictedItems
      lastItemPx := metrics.lastItemPx
      tailPx := metrics.tailPx
      liveRows }
  ((planListReconcile mirror.itemCount evicted metrics.itemCount).ops metrics.itemCount ++
      (planRemeasure mirror.lastMeasureKey key).ops metrics,
    { itemCount := metrics.itemCount
      evictedItems := metrics.evictedItems
      lastMeasureKey := some key })

/-! ## The mirrored list -/

/-- An item is what it was measured as, or is to be measured anew. -/
def ListOp.apply {α : Type*} (list : List (Option α)) : ListOp → List (Option α)
  | .reset count => replicate count none
  | .splice start stop count => list.take start ++ replicate count none ++ list.drop stop
  | .remeasureAll => list.map fun _ => none
  | .remeasure start stop => list.mapIdx fun i item => if start ≤ i ∧ i < stop then none else item
  | .scrollTo _ => list
  | .scrollToEnd => list

structure Frame where
  layout : Layout
  liveRows : ℕ
  historyRows : ℕ
  offset : ListPosition
deriving DecidableEq

inductive ListItem
  | block (id : ℕ) (px : ℚ)
  | live (px : ℚ)
deriving DecidableEq

def Frame.px (frame : Frame) (item : BlockItem) : ℚ :=
  itemPx item frame.layout.1 frame.layout.2.1 frame.layout.2.2

def Frame.metrics (frame : Frame) (store : BlockStore) : BlockListRenderMetrics :=
  blockListRenderMetrics store frame.liveRows frame.historyRows frame.layout.1 frame.layout.2.1
    frame.layout.2.2 frame.offset

/-- One item for each block and the live item, as they are in a frame. -/
def Frame.listing (frame : Frame) (store : BlockStore) : List ListItem :=
  store.items.map (fun item => .block item.handle.id (frame.px item)) ++
    [.live (liveItemPx frame.historyRows frame.liveRows frame.layout.2.1 frame.layout.2.2)]

/-- A view with what it last showed. -/
structure ListPane where
  blocks : Blocks
  mirror : BlockListMirror
  list : List (Option ListItem)
  shown : Option (BlockStore × Frame)
  /-- The history was cleared since then. -/
  cleared : Bool

namespace ListPane

def initial : ListPane where
  blocks := .initial
  mirror := .default
  list := [none]
  shown := none
  cleared := false

def store (p : ListPane) : BlockStore := p.blocks.store

def sync (p : ListPane) (frame : Frame) : List ListOp × BlockListMirror :=
  p.mirror.sync (frame.metrics p.store) frame.layout frame.liveRows

/-- The list once a frame's operations were performed. -/
def patched (p : ListPane) (frame : Frame) : List (Option ListItem) :=
  (p.sync frame).1.foldl ListOp.apply p.list

/-- Every item that is not kept is measured. -/
def draw (p : ListPane) (frame : Frame) : ListPane :=
  { p with
    mirror := (p.sync frame).2
    list := List.zipWith (fun kept fresh => some (kept.getD fresh)) (p.patched frame)
      (frame.listing p.store)
    shown := some (p.store, frame)
    cleared := false }

def event (p : ListPane) (event : BlockEvent) (h : p.blocks.Feasible event) : ListPane :=
  { p with
    blocks := p.blocks.apply event h
    cleared := p.cleared || event = .historyCleared }

end ListPane

inductive ListStep
  | event (event : BlockEvent)
  | frame (frame : Frame)
deriving DecidableEq

inductive ListPane.Step (p : ListPane) : ListStep → ListPane → Prop
  | event (event : BlockEvent) (h : p.blocks.Feasible event) : Step p (.event event) (p.event event h)
  | frame (frame : Frame) : Step p (.frame frame) (p.draw frame)

def mirroring : System ListPane ListStep where
  init p := p = .initial
  step p label p' := p.Step label p'

/-- The operations of a frame leave one item for each block and the live item, and an item that is kept
is the block at its position, with the height it has. -/
def ListPane.InStep (p : ListPane) (frame : Frame) : Prop :=
  (p.patched frame).length = p.store.items.length + 1 ∧
    ∀ (i : ℕ) (item : ListItem), (p.patched frame)[i]? = some (some item) →
      (frame.listing p.store)[i]? = some item

/-! ## What the operations keep -/

section

variable {α : Type*} {list : List (Option α)} {i : ℕ} {x : α}

theorem getElem?_reset {count : ℕ} : (ListOp.apply list (.reset count))[i]? ≠ some (some x) := by
  rw [ListOp.apply, getElem?_replicate]
  split_ifs <;> simp

theorem getElem?_remeasureAll : (ListOp.apply list .remeasureAll)[i]? ≠ some (some x) := by
  rw [ListOp.apply, getElem?_map]
  cases list[i]? <;> simp

theorem getElem?_remeasure {start stop : ℕ} :
    (ListOp.apply list (.remeasure start stop))[i]? = some (some x) ↔
      ¬ (start ≤ i ∧ i < stop) ∧ list[i]? = some (some x) := by
  rw [ListOp.apply, getElem?_mapIdx]
  cases list[i]? with
  | none => simp
  | some item =>
    by_cases h : start ≤ i ∧ i < stop
    · simp [h]
    · simp [h]

/-- Replacing the last item by new ones keeps those before it. -/
theorem getElem?_spliceTail {k count : ℕ} (hl : list.length = k + 1) :
    (ListOp.apply list (.splice k (k + 1) count))[i]? = some (some x) ↔
      i < k ∧ list[i]? = some (some x) := by
  rw [ListOp.apply, drop_of_length_le hl.le, append_nil]
  by_cases hi : i < k
  · rw [getElem?_append_left (by rw [length_take]; omega), getElem?_take_of_lt hi]
    simp [hi]
  · rw [getElem?_append_right (by rw [length_take]; omega), getElem?_replicate]
    split_ifs <;> simp [hi]

/-- What bringing a list of `m` frozen items and the live one in line with `n` frozen items, `d` of
them evicted since, does to it. -/
theorem planListReconcile_spec {m d n : ℕ} (hl : list.length = m + 1) :
    let patched := ((planListReconcile (m + 1) d (n + 1)).ops (n + 1)).foldl ListOp.apply list
    patched.length = n + 1 ∧ ∀ (i : ℕ) (x : α), patched[i]? = some (some x) ↔
      d ≤ m ∧ m ≤ n + d ∧ (i < m - d ∨ n + d = m) ∧ list[d + i]? = some (some x) := by
  have hreset : ∀ (i : ℕ) (x : α), ([ListOp.reset (n + 1)].foldl ListOp.apply list)[i]? ≠
      some (some x) := by
    intro i x
    rw [foldl_cons, foldl_nil]
    exact getElem?_reset
  unfold planListReconcile
  dsimp only
  split_ifs with h₁ h₂ h₃
  · refine ⟨length_replicate, fun i x => iff_of_false (hreset i x) ?_⟩
    omega
  · refine ⟨length_replicate, fun i x => iff_of_false (hreset i x) ?_⟩
    omega
  all_goals
    rw [ListReconcile.ops, foldl_append]
    have hd : (if 0 < d then [ListOp.splice 0 d 0] else []).foldl ListOp.apply list = list.drop d := by
      split_ifs with h
      · rfl
      · rw [show d = 0 by omega]
        rfl
    rw [hd]
  · have hl' : (list.drop d).length = (m - d) + 1 := by
      rw [length_drop]
      omega
    have hk : m + 1 - d = (m - d) + 1 := by omega
    rw [hk, Nat.add_sub_cancel, foldl_cons, foldl_nil]
    constructor
    · simp only [ListOp.apply, length_append, length_take, length_replicate, length_drop, hl]
      omega
    · intro i x
      rw [getElem?_spliceTail hl', getElem?_drop]
      constructor
      · rintro ⟨hi, hx⟩
        exact ⟨by omega, by omega, .inl hi, hx⟩
      · rintro ⟨h₄, h₅, h₆, hx⟩
        exact ⟨by omega, hx⟩
  · rw [foldl_nil]
    constructor
    · rw [length_drop]
      omega
    · intro i x
      rw [getElem?_drop]
      constructor
      · intro hx
        exact ⟨by omega, by omega, .inr (by omega), hx⟩
      · rintro ⟨-, -, -, hx⟩
        exact hx

end

/-! ## The list and the store it showed -/

def Frame.key (frame : Frame) (store : BlockStore) : BlockListMeasureKey where
  layout := frame.layout
  storeLen := store.items.length
  evictedItems := store.evictedItems
  lastItemPx := (frame.metrics store).lastItemPx
  tailPx := (frame.metrics store).tailPx
  liveRows := frame.liveRows

def Frame.mirror (frame : Frame) (store : BlockStore) : BlockListMirror where
  itemCount := store.items.length + 1
  evictedItems := store.evictedItems
  lastMeasureKey := some (frame.key store)

theorem length_listing (frame : Frame) (store : BlockStore) :
    (frame.listing store).length = store.items.length + 1 := by
  simp [Frame.listing]

theorem length_ids (store : BlockStore) : store.ids.length = store.items.length := length_map _

/-- The number of blocks evicted since a store was shown. -/
def ListPane.evictedSince (p : ListPane) (old : BlockStore) : ℕ :=
  p.store.evictedItems - old.evictedItems

/-- What a view knows of the store it showed last, and how the store has changed since. -/
structure ListPane.Follows (p : ListPane) (old : BlockStore) (frame : Frame) : Prop where
  list : p.list = (frame.listing old).map some
  mirror : p.mirror = frame.mirror old
  distinct : old.ids.Nodup
  seen : ∀ id ∈ old.ids, id ∈ p.blocks.seen
  evicted : old.evictedItems ≤ p.store.evictedItems
  /-- Without a clear the store is what the engine left of the old blocks and the added ones. -/
  same : p.cleared = false → ∃ added, (old.ids ++ added).Nodup ∧ (∀ id ∈ added, id ∈ p.blocks.seen) ∧
    p.evictedSince old ≤ (old.ids ++ added).length ∧
    p.store.ids = (old.ids ++ added).drop (p.evictedSince old)
  gone : p.cleared = true → ∀ id ∈ old.ids, id ∉ p.store.ids

structure ListPane.Mirrors (p : ListPane) : Prop where
  fresh : p.shown = none → p.list = [none] ∧ p.mirror = .default
  follows : ∀ old frame, p.shown = some (old, frame) → p.Follows old frame

section

variable {p : ListPane} {event : BlockEvent} {old : BlockStore} {frame : Frame}

theorem ListPane.Follows.after_event (hf : p.Follows old frame) (h : p.blocks.Feasible event) :
    (p.event event h).Follows old frame := by
  cases event with
  | historyCleared =>
    refine ⟨hf.list, hf.mirror, hf.distinct, hf.seen, hf.evicted, ?_, ?_⟩
    · intro hc
      simp [ListPane.event] at hc
    · rintro - id hi ⟨⟩
  | engineBlock seq handle rows segment =>
    have hids : (p.event _ h).store.ids = p.store.ids ++ [handle.id] :=
      BlockStore.ids_engineBlock _ _ _ _ _
    refine ⟨hf.list, hf.mirror, hf.distinct, ?_, hf.evicted, ?_, ?_⟩
    · intro id hi
      exact mem_cons_of_mem _ (hf.seen id hi)
    · intro hc
      obtain ⟨added, hn, hs, hl, he⟩ := hf.same (by simpa [ListPane.event] using hc)
      refine ⟨added ++ [handle.id], ?_, ?_, ?_, ?_⟩
      · rw [← append_assoc, nodup_append]
        refine ⟨hn, nodup_singleton _, ?_⟩
        rintro id hi other ho rfl
        rw [mem_singleton] at ho
        subst ho
        rcases mem_append.mp hi with hi | hi
        · exact h (hf.seen _ hi)
        · exact h (hs _ hi)
      · intro id hi
        rcases mem_append.mp hi with hi | hi
        · exact mem_cons_of_mem _ (hs id hi)
        · rw [mem_singleton] at hi
          exact hi ▸ mem_cons_self
      · rw [← append_assoc, length_append]
        exact Nat.le_add_right_of_le hl
      · rw [hids, ← append_assoc, he]
        exact (drop_append_of_le_length hl).symm
    · intro hc id hi hm
      rw [hids, mem_append, mem_singleton] at hm
      rcases hm with hm | rfl
      · exact hf.gone (by simpa [ListPane.event] using hc) id hi hm
      · exact h (hf.seen _ hi)
  | engineBlocksSync live =>
    obtain ⟨d, hd⟩ := id h
    have hids : (p.event _ h).store.ids = p.store.ids.drop d := BlockStore.ids_engineBlocksSync hd
    have hev : (p.event _ h).store.evictedItems = p.store.evictedItems + min d p.store.items.length :=
      congrArg (p.store.evictedItems + ·) hd.countP
    have hle := hf.evicted
    refine ⟨hf.list, hf.mirror, hf.distinct, hf.seen, by omega, ?_, ?_⟩
    · intro hc
      obtain ⟨added, hn, hs, hl, he⟩ := hf.same (by simpa [ListPane.event] using hc)
      have hlen : p.store.items.length =
          (old.ids ++ added).length - p.evictedSince old := by
        rw [← length_ids, he, length_drop]
      have hdelta : (p.event _ h).evictedSince old =
          p.evictedSince old + min d p.store.items.length := by
        unfold ListPane.evictedSince
        omega
      refine ⟨added, hn, hs, by omega, ?_⟩
      rw [hids, hdelta, ← drop_drop, ← he]
      -- Dropping more than there is drops all.
      rcases Nat.le_total d p.store.items.length with hle | hle
      · rw [Nat.min_eq_left hle]
      · rw [Nat.min_eq_right hle, drop_of_length_le (by rwa [length_ids]),
          drop_of_length_le (by rw [length_ids])]
    · intro hc id hi hm
      rw [hids] at hm
      exact hf.gone (by simpa [ListPane.event] using hc) id hi (mem_of_mem_drop hm)

theorem ListPane.Mirrors.after_event (hm : p.Mirrors) (h : p.blocks.Feasible event) :
    (p.event event h).Mirrors where
  fresh := hm.fresh
  follows old frame hs := (hm.follows old frame hs).after_event h

end

/-! ## Frames -/

/-- What brings the list in line touches everything but the blocks that were shown before, unless the
history was cleared and the mirror cannot tell: a cleared history must have left fewer blocks than the
mirror expects, or none of the old ones expected, or a single one under a new measure key. -/
def ListPane.Steady (p : ListPane) (frame : Frame) : Prop :=
  ∀ old last, p.shown = some (old, last) → frame.layout = last.layout →
    (∀ o ∈ old.items, ∀ item ∈ p.store.items.dropLast, item.handle.id = o.handle.id →
      frame.px item = last.px o) ∧
    (p.cleared → old.items.length ≤ p.evictedSince old ∨
      p.store.items.length < old.items.length - p.evictedSince old ∨
      p.store.items.length = 1 ∧ frame.key p.store ≠ last.key old)

section

variable {p : ListPane} {old : BlockStore} {frame last : Frame}

theorem planRemeasure_all (h : frame.layout ≠ last.layout) :
    planRemeasure (some (last.key old)) (frame.key p.store) = .all := by
  have : (last.key old).layout ≠ (frame.key p.store).layout := fun he => h he.symm
  simp [planRemeasure, this]

theorem planRemeasure_same (h : frame.layout = last.layout) :
    planRemeasure (some (last.key old)) (frame.key p.store) =
      if frame.key p.store ≠ last.key old then .tail else .none := by
  have : (last.key old).layout = (frame.key p.store).layout := h.symm
  simp only [planRemeasure, Option.any_some, this, ne_eq, not_true_eq_false, decide_false,
    Bool.false_eq_true, if_false, Option.some.injEq, eq_comm]

theorem ListPane.Follows.patched_spec (hf : p.Follows old last) (frame : Frame) :
    (p.patched frame).length = p.store.items.length + 1 ∧
    ∀ (i : ℕ) (item : ListItem), (p.patched frame)[i]? = some (some item) ↔
      frame.layout = last.layout ∧
      (frame.key p.store ≠ last.key old → i + 1 < p.store.items.length) ∧
      p.evictedSince old ≤ old.items.length ∧
      old.items.length ≤ p.store.items.length + p.evictedSince old ∧
      (i < old.items.length - p.evictedSince old ∨
        p.store.items.length + p.evictedSince old = old.items.length) ∧
      (last.listing old)[p.evictedSince old + i]? = some item := by
  have hl : p.list.length = old.items.length + 1 := by
    rw [hf.list, length_map, length_listing]
  have hlist : ∀ (j : ℕ) (item : ListItem),
      p.list[j]? = some (some item) ↔ (last.listing old)[j]? = some item := by
    intro j item
    rw [hf.list, getElem?_map]
    cases (last.listing old)[j]? <;> simp
  have hp : p.patched frame = ((planRemeasure (some (last.key old)) (frame.key p.store)).ops
      (frame.metrics p.store)).foldl ListOp.apply
        (((planListReconcile (old.items.length + 1) (p.evictedSince old)
          (p.store.items.length + 1)).ops (p.store.items.length + 1)).foldl ListOp.apply p.list) := by
    unfold patched sync BlockListMirror.sync
    rw [hf.mirror, ← foldl_append]
    rfl
  obtain ⟨hlen, hkept⟩ := planListReconcile_spec (d := p.evictedSince old)
    (n := p.store.items.length) hl
  rw [hp]
  by_cases hlay : frame.layout = last.layout
  · rw [planRemeasure_same hlay]
    by_cases hkey : frame.key p.store ≠ last.key old
    · rw [if_pos hkey, RemeasureScope.ops, foldl_cons, foldl_nil]
      refine ⟨by rw [ListOp.apply, length_mapIdx, hlen], ?_⟩
      intro i item
      rw [getElem?_remeasure, hkept, hlist]
      have hs : (frame.metrics p.store).storeLen = p.store.items.length := rfl
      have hc : (frame.metrics p.store).itemCount = p.store.items.length + 1 := rfl
      rw [hs, hc]
      constructor
      · rintro ⟨hn, h₁, h₂, h₃, hx⟩
        have hlt := (List.getElem?_eq_some_iff.mp hx).1
        rw [length_listing] at hlt
        exact ⟨hlay, fun _ => by omega, h₁, h₂, h₃, hx⟩
      · rintro ⟨-, hn, h₁, h₂, h₃, hx⟩
        have := hn hkey
        exact ⟨by omega, h₁, h₂, h₃, hx⟩
    · rw [if_neg hkey, RemeasureScope.ops, foldl_nil]
      refine ⟨hlen, ?_⟩
      intro i item
      rw [hkept, hlist]
      simp [hlay, hkey]
  · rw [planRemeasure_all hlay, RemeasureScope.ops, foldl_cons, foldl_nil]
    refine ⟨by rw [ListOp.apply, length_map, hlen], ?_⟩
    intro i item
    exact iff_of_false getElem?_remeasureAll fun h => hlay h.1

variable {store : BlockStore} {item : BlockItem}

theorem getElem?_listing_block {i : ℕ} (h : store.items[i]? = some item) :
    (frame.listing store)[i]? = some (.block item.handle.id (frame.px item)) := by
  have hlt := (List.getElem?_eq_some_iff.mp h).1
  rw [Frame.listing, getElem?_append_left (by rwa [length_map]), getElem?_map, h]
  rfl

theorem getElem?_listing_live :
    (frame.listing store)[store.items.length]? = some (.live (liveItemPx frame.historyRows
      frame.liveRows frame.layout.2.1 frame.layout.2.2)) := by
  rw [Frame.listing, getElem?_append_right (by rw [length_map])]
  simp

theorem ids_getElem? {i : ℕ} (h : store.items[i]? = some item) :
    store.ids[i]? = some item.handle.id := by
  rw [BlockStore.ids, getElem?_map, h]
  rfl

theorem lastItemPx_eq {i : ℕ} (h : store.items[i]? = some item)
    (hl : i + 1 = store.items.length) : (frame.metrics store).lastItemPx = frame.px item := by
  have : store.items.getLast? = some item := by
    rw [getLast?_eq_getElem?, ← hl, Nat.add_sub_cancel, h]
  simp only [Frame.metrics, blockListRenderMetrics, getLast?_map, this]
  rfl

/-- Without a clear a block that stayed moved by the number of blocks evicted. -/
theorem ListPane.Follows.moved (hf : p.Follows old last) (hc : p.cleared = false) {i j : ℕ}
    {item o : BlockItem} (hi : p.store.items[i]? = some item) (hj : old.items[j]? = some o) :
    item.handle.id = o.handle.id ↔ j = p.evictedSince old + i := by
  obtain ⟨added, hn, -, -, he⟩ := hf.same hc
  have hi' := ids_getElem? hi
  rw [he, getElem?_drop] at hi'
  have hj' : (old.ids ++ added)[j]? = some o.handle.id := by
    have hlt := (List.getElem?_eq_some_iff.mp (ids_getElem? hj)).1
    rw [getElem?_append_left hlt, ids_getElem? hj]
  obtain ⟨h₁, h₁'⟩ := List.getElem?_eq_some_iff.mp hi'
  obtain ⟨h₂, h₂'⟩ := List.getElem?_eq_some_iff.mp hj'
  rw [← h₁', ← h₂', hn.getElem_inj_iff]
  exact eq_comm

/-- Without a clear no more blocks are left than stayed and were added. -/
theorem ListPane.Follows.length_le (hf : p.Follows old last) (hc : p.cleared = false) :
    old.items.length ≤ p.store.items.length + p.evictedSince old := by
  obtain ⟨added, -, -, -, he⟩ := hf.same hc
  have := congrArg List.length he
  rw [length_drop, length_append, length_ids, length_ids] at this
  omega

/-- The first frame keeps nothing. -/
theorem ListPane.inStep_of_fresh (hl : p.list = [none]) (hm : p.mirror = .default) : p.InStep frame := by
  have hp : p.patched frame = ListOp.apply
      (((planListReconcile (0 + 1) p.store.evictedItems (p.store.items.length + 1)).ops
        (p.store.items.length + 1)).foldl ListOp.apply p.list)
      (.remeasure (p.store.items.length - 1) (p.store.items.length + 1)) := by
    unfold patched sync BlockListMirror.sync
    rw [hm, foldl_append]
    rfl
  have hlen₀ : p.list.length = 0 + 1 := by rw [hl]; rfl
  obtain ⟨hlen, hkept⟩ := planListReconcile_spec (d := p.store.evictedItems)
    (n := p.store.items.length) hlen₀
  rw [InStep, hp]
  refine ⟨by rw [ListOp.apply, length_mapIdx, hlen], ?_⟩
  intro i item hi
  obtain ⟨-, -, -, hx⟩ := (hkept i item).mp (getElem?_remeasure.mp hi).2
  rw [hl, getElem?_singleton] at hx
  split_ifs at hx
  cases hx

theorem mem_dropLast :
    item ∈ store.items.dropLast ↔ ∃ i, i + 1 < store.items.length ∧ store.items[i]? = some item := by
  rw [mem_iff_getElem?]
  refine exists_congr fun i => ?_
  rw [getElem?_dropLast]
  by_cases h : i + 1 < store.items.length
  · simp [h, show i < store.items.length - 1 by omega]
  · simp [h, show ¬ i < store.items.length - 1 by omega]

/-- What `ListPane.Steady` asks of the frame before. -/
def ListPane.Unmoved (p : ListPane) (old : BlockStore) (frame last : Frame) : Prop :=
  (∀ o ∈ old.items, ∀ item ∈ p.store.items.dropLast, item.handle.id = o.handle.id → frame.px item = last.px o) ∧
    (p.cleared → old.items.length ≤ p.evictedSince old ∨
      p.store.items.length < old.items.length - p.evictedSince old ∨
      p.store.items.length = 1 ∧ frame.key p.store ≠ last.key old)

theorem ListPane.Follows.steady_of_inStep (hf : p.Follows old last) (hs : p.InStep frame)
    (hlay : frame.layout = last.layout) : p.Unmoved old frame last := by
  unfold ListPane.Unmoved
  have hkept := (hf.patched_spec frame).2
  have hgone : p.cleared = true → ∀ {i j : ℕ} {item o : BlockItem}, p.store.items[i]? = some item →
      old.items[j]? = some o → item.handle.id ≠ o.handle.id := by
    intro hc i j item o hi hj he
    exact hf.gone hc _ (mem_of_getElem? (ids_getElem? hj)) (he ▸ mem_of_getElem? (ids_getElem? hi))
  constructor
  · intro o ho item hi he
    obtain ⟨j, hj⟩ := getElem?_of_mem ho
    obtain ⟨i, hlt, hi⟩ := mem_dropLast.mp hi
    cases hc : p.cleared with
    | true => exact absurd he (hgone hc hi hj)
    | false =>
      have hji := (hf.moved hc hi hj).mp he
      have hjm := (List.getElem?_eq_some_iff.mp hj).1
      have hx := (hkept i (.block o.handle.id (last.px o))).mpr ⟨hlay, fun _ => hlt, by omega,
        hf.length_le hc, .inl (by omega), by rw [← hji]; exact getElem?_listing_block hj⟩
      have := (hs.2 _ _ hx).symm.trans (getElem?_listing_block hi)
      simp only [Option.some.injEq, ListItem.block.injEq] at this
      exact this.2.symm
  · intro hc
    by_contra hn
    simp only [not_or, Nat.not_le, Nat.not_lt, not_and, not_not] at hn
    obtain ⟨h₁, h₂, h₃⟩ := hn
    have hi := getElem?_eq_getElem (show 0 < p.store.items.length by omega)
    have hj := getElem?_eq_getElem h₁
    have hx := (hkept 0 (.block old.items[p.evictedSince old].handle.id _)).mpr ⟨hlay, ?_, h₁.le,
      by omega, .inl (by omega), getElem?_listing_block hj⟩
    · have := (hs.2 _ _ hx).symm.trans (getElem?_listing_block hi)
      simp only [Option.some.injEq, ListItem.block.injEq] at this
      exact hgone hc hi hj this.1.symm
    · intro hk
      by_contra hlt
      exact hk (h₃ (by omega))

theorem ListPane.Follows.inStep_of_steady (hf : p.Follows old last)
    (hs : frame.layout = last.layout → p.Unmoved old frame last) : p.InStep frame := by
  obtain ⟨hlen, hkept⟩ := hf.patched_spec frame
  refine ⟨hlen, ?_⟩
  intro i x hkeep
  obtain ⟨hlay, hkey, hd, hm, hor, hx⟩ := (hkept i x).mp hkeep
  clear hkeep hkept
  obtain ⟨hpx, hcl⟩ := hs hlay
  have hlt := (List.getElem?_eq_some_iff.mp hx).1
  rw [length_listing] at hlt
  by_cases hb : i < old.items.length - p.evictedSince old
  · -- An item of a block.
    have hj := getElem?_eq_getElem (show p.evictedSince old + i < old.items.length by omega)
    have hi := getElem?_eq_getElem (show i < p.store.items.length by omega)
    cases (getElem?_listing_block hj).symm.trans hx
    rw [getElem?_listing_block hi]
    cases hc : p.cleared with
    | true =>
      rcases hcl hc with h | h | ⟨h, hk⟩
      · omega
      · omega
      · have := hkey hk
        omega
    | false =>
      have hid := (hf.moved hc hi hj).mpr rfl
      rw [hid]
      by_cases hlast : i + 1 < p.store.items.length
      · rw [hpx _ (getElem_mem _) _ (mem_dropLast.mpr ⟨i, hlast, hi⟩) hid]
      · -- The newest block has the height it had, as the measure key tells.
        have hk : frame.key p.store = last.key old := by
          by_contra hk
          exact hlast (hkey hk)
        have hlen' : p.store.items.length = old.items.length :=
          congrArg BlockListMeasureKey.storeLen hk
        have hpx' : (frame.metrics p.store).lastItemPx = (last.metrics old).lastItemPx :=
          congrArg BlockListMeasureKey.lastItemPx hk
        rw [lastItemPx_eq hi (by omega), lastItemPx_eq hj (by omega)] at hpx'
        rw [hpx']
  · -- The live item.
    have hk : frame.key p.store = last.key old := by
      by_contra hk
      have := hkey hk
      omega
    have hj : p.evictedSince old + i = old.items.length := by omega
    have hi : i = p.store.items.length := by omega
    rw [hj] at hx
    cases getElem?_listing_live.symm.trans hx
    rw [hi, getElem?_listing_live]
    have htail : (frame.historyRows : ℚ) * frame.layout.2.1 = last.historyRows * last.layout.2.1 :=
      congrArg BlockListMeasureKey.tailPx hk
    have hrows : frame.liveRows = last.liveRows := congrArg BlockListMeasureKey.liveRows hk
    rw [liveItemPx, liveItemPx, htail, hrows, hlay]

/-- A view that knows what it showed draws the next frame in step just if that frame is steady. -/
theorem ListPane.Mirrors.inStep_iff (hm : p.Mirrors) : p.InStep frame ↔ p.Steady frame := by
  constructor
  · intro hs old last hsh hlay
    exact (hm.follows old last hsh).steady_of_inStep hs hlay
  · intro hs
    cases hsh : p.shown with
    | none =>
      obtain ⟨hl, hd⟩ := hm.fresh hsh
      exact inStep_of_fresh hl hd
    | some shown => exact (hm.follows _ _ hsh).inStep_of_steady (hs _ _ hsh)

theorem ListPane.InStep.list_draw (hs : p.InStep frame) :
    (p.draw frame).list = (frame.listing p.store).map some := by
  obtain ⟨hlen, hkept⟩ := hs
  refine ext_getElem? fun i => ?_
  rw [draw, getElem?_zipWith, getElem?_map]
  cases hp : (p.patched frame)[i]? with
  | none =>
    rw [List.getElem?_eq_none_iff, hlen, ← length_listing frame, ← List.getElem?_eq_none_iff] at hp
    rw [hp]
    rfl
  | some kept =>
    cases kept with
    | none => cases (frame.listing p.store)[i]? <;> rfl
    | some item =>
      rw [hkept i item hp]
      rfl

/-- After a frame in step the view knows what it showed. -/
theorem ListPane.InStep.mirrors_draw (hs : p.InStep frame) : (p.draw frame).Mirrors where
  fresh h := by cases h
  follows old last h := by
    cases h
    refine ⟨hs.list_draw, rfl, p.blocks.distinct, p.blocks.known, Nat.le_refl _, ?_, ?_⟩
    · intro _
      refine ⟨[], ?_, ?_, ?_, ?_⟩
      · rw [append_nil]
        exact p.blocks.distinct
      · simp
      · exact (Nat.sub_self _).trans_le (Nat.zero_le _)
      · rw [append_nil]
        exact (congrArg (p.store.ids.drop ·) (Nat.sub_self _)).symm
    · intro h
      cases h

end

/-- The condition on a step: its frame is steady. -/
def ListPane.Admits (p : ListPane) : ListStep → Prop
  | .event _ => True
  | .frame frame => p.Steady frame

/-- In every run whose frames were steady, the next frame is in step just if it is steady too. -/
theorem mirror_in_step {labels : List ListStep} {p : ListPane}
    (h : Run (mirroring.restrict ListPane.Admits) labels p) (frame : Frame) :
    p.InStep frame ↔ p.Steady frame := by
  refine ListPane.Mirrors.inStep_iff (h.invariant (I := ListPane.Mirrors) ?_ ?_)
  · rintro p rfl
    refine ⟨fun _ ↦ ⟨rfl, rfl⟩, ?_⟩
    rintro old frame ⟨⟩
  · rintro p label p' hm ⟨ha, hs⟩
    cases hs with
    | event event he => exact hm.after_event he
    | frame frame => exact (hm.inStep_iff.mpr ha).mirrors_draw

/-- One pixel a row and no pads. -/
def plainFrame : Frame where
  layout := (80, 1, 0)
  liveRows := 0
  historyRows := 0
  offset := { itemIx := 0, offsetPx := 0 }

theorem mirror_in_step_growth : ∃ p : ListPane, p.store.ids = [0, 1] ∧
    (p.InStep plainFrame ↔ p.Steady plainFrame) := by
  have h : Run (mirroring.restrict ListPane.Admits) [] ListPane.initial := .init rfl
  have h := h.step ⟨by trivial, .event (finished 0) (feasible_finished (by decide))⟩
  have h := h.step ⟨by rintro old last ⟨⟩, .frame plainFrame⟩
  have h := h.step ⟨by trivial, .event (finished 1) (feasible_finished (by decide))⟩
  exact ⟨_, rfl, mirror_in_step h plainFrame⟩

/-- A history cleared and filled again between two frames, and a block reflowed after the layout
changed, look like no change. -/
theorem mirror_out_of_step :
    (∃ labels p, Run mirroring labels p ∧ .event .historyCleared ∈ labels ∧ ¬ p.InStep plainFrame) ∧
    ∃ labels p, Run mirroring labels p ∧ .event .historyCleared ∉ labels ∧ ¬ p.InStep plainFrame := by
  have h : Run mirroring [] ListPane.initial := .init rfl
  have h := h.step (.event (finished 0) (feasible_finished (by decide)))
  have h := h.step (.event (finished 1) (feasible_finished (by decide)))
  have h := h.step (.frame plainFrame)
  constructor
  · have h := h.step (.event .historyCleared trivial)
    have h := h.step (.event (finished 2) (feasible_finished (by decide)))
    have h := h.step (.event (finished 3) (feasible_finished (by decide)))
    refine ⟨_, _, h, by decide, ?_⟩
    intro hs
    have := hs.2 0 (.block 0 1) (by decide +kernel)
    revert this
    decide +kernel
  · have h := h.step (.event (.engineBlocksSync
      [({ id := 0, generation := 1 }, 2), ({ id := 1, generation := 1 }, 1)]) ⟨0, by decide, by decide⟩)
    refine ⟨_, _, h, by decide, ?_⟩
    intro hs
    have := hs.2 0 (.block 0 1) (by decide +kernel)
    revert this
    decide +kernel

end NiumaTerm.Terminal
