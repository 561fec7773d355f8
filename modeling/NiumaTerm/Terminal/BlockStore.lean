import Mathlib.Data.List.Nodup
import NiumaTerm.Lib.Str

/-!
# Finished command blocks

The store keeps one item for every finished command.  `Blocks` is a store with the ids the engine has used,
and `Feasible` says which event the engine may send next.
-/

namespace NiumaTerm.Terminal

open Rust List

structure BlockHandle where
  id : ℕ
  generation : ℕ
deriving DecidableEq

structure SegmentMeta where
  command : Option Str
  cwd : Option Str
  exitCode : Option ℤ
  startedAt : Option ℕ
  endedAt : Option ℕ
deriving DecidableEq

structure BlockItem where
  seq : Option ℕ
  segment : SegmentMeta
  handle : BlockHandle
  rows : ℕ

inductive BlockEvent
  | historyCleared
  | engineBlock (seq : ℕ) (handle : BlockHandle) (rows : ℕ) (segment : SegmentMeta)
  | engineBlocksSync (live : List (BlockHandle × ℕ))
deriving DecidableEq

structure BlockStore where
  items : List BlockItem
  evictedItems : ℕ
  historyEpoch : ℕ

def BlockStore.default : BlockStore where
  items := []
  evictedItems := 0
  historyEpoch := 0

/-- Of two entries with one id the later one counts. -/
def byId (live : List (BlockHandle × ℕ)) (id : ℕ) : Option (BlockHandle × ℕ) :=
  live.reverse.find? fun entry => entry.1.id = id

/-- What `retain_mut` makes of an item. -/
def BlockItem.refresh (live : List (BlockHandle × ℕ)) (item : BlockItem) : Option BlockItem :=
  (byId live item.handle.id).map fun entry => { item with handle := entry.1, rows := entry.2 }

def BlockStore.applyEvent (store : BlockStore) : BlockEvent → BlockStore
  | .engineBlock seq handle rows segment =>
    { store with
      items := store.items ++ [{ seq := some seq, segment, handle, rows }]
      historyEpoch := store.historyEpoch + 1 }
  | .engineBlocksSync live =>
    { store with
      items := store.items.filterMap (·.refresh live)
      evictedItems := store.evictedItems +
        store.items.countP fun item => (byId live item.handle.id).isNone }
  | .historyCleared => { store with items := [], historyEpoch := store.historyEpoch + 1 }

def BlockStore.apply (store : BlockStore) (events : List BlockEvent) : BlockStore :=
  events.foldl applyEvent store

def BlockStore.ids (store : BlockStore) : List ℕ := store.items.map (·.handle.id)

/-! ## Synchronisation -/

variable {live : List (BlockHandle × ℕ)} {items : List BlockItem} {item item' : BlockItem} {d : ℕ}

theorem byId_id {id : ℕ} {entry : BlockHandle × ℕ} (h : byId live id = some entry) :
    entry.1.id = id := by
  simpa using find?_some h

/-- The engine no longer has the `d` oldest blocks. -/
structure Evicts (live : List (BlockHandle × ℕ)) (items : List BlockItem) (d : ℕ) : Prop where
  gone : ∀ item ∈ items.take d, byId live item.handle.id = none
  left : ∀ item ∈ items.drop d, (byId live item.handle.id).isSome

theorem Evicts.filterMap (h : Evicts live items d) :
    items.filterMap (·.refresh live) = (items.drop d).filterMap (·.refresh live) := by
  conv_lhs => rw [← take_append_drop d items, filterMap_append]
  rw [filterMap_eq_nil_iff.mpr, nil_append]
  intro item hi
  rw [BlockItem.refresh, h.gone item hi]
  rfl

theorem refresh_ids (h : ∀ item ∈ items, (byId live item.handle.id).isSome) :
    (items.filterMap (·.refresh live)).map (·.handle.id) = items.map (·.handle.id) := by
  induction items with
  | nil => rfl
  | cons item rest ih =>
    obtain ⟨entry, he⟩ := Option.isSome_iff_exists.mp (h item mem_cons_self)
    have hr : item.refresh live = some { item with handle := entry.1, rows := entry.2 } := by
      rw [BlockItem.refresh, he]
      rfl
    rw [filterMap_cons_some hr, map_cons, map_cons, byId_id he,
      ih fun item hi => h item (mem_cons_of_mem _ hi)]

theorem Evicts.ids (h : Evicts live items d) :
    (items.filterMap (·.refresh live)).map (·.handle.id) = (items.map (·.handle.id)).drop d := by
  rw [h.filterMap, refresh_ids h.left, map_drop]

theorem Evicts.countP (h : Evicts live items d) :
    items.countP (fun item => (byId live item.handle.id).isNone) = min d items.length := by
  conv_lhs => rw [← take_append_drop d items, countP_append]
  rw [countP_eq_length.mpr, countP_eq_zero.mpr, length_take, Nat.add_zero]
  · intro item hi
    simp [Option.isSome_iff_ne_none.mp (h.left item hi)]
  · intro item hi
    simp [h.gone item hi]

/-! ## Stores the engine's events can lead to -/

/-- A store with the ids of all blocks so far. -/
structure Blocks where
  store : BlockStore
  seen : List ℕ
  distinct : store.ids.Nodup
  known : ∀ id ∈ store.ids, id ∈ seen

def Blocks.initial : Blocks where
  store := .default
  seen := []
  distinct := nodup_nil
  known := by simp [BlockStore.ids, BlockStore.default]

/-- The engine does not use an id again and evicts the oldest blocks. -/
def Blocks.Feasible (blocks : Blocks) : BlockEvent → Prop
  | .engineBlock _ handle _ _ => handle.id ∉ blocks.seen
  | .engineBlocksSync live => ∃ d, Evicts live blocks.store.items d
  | .historyCleared => True

def BlockEvent.ids : BlockEvent → List ℕ
  | .engineBlock _ handle _ _ => [handle.id]
  | _ => []

variable {blocks : Blocks} {event : BlockEvent}

@[simp] theorem BlockStore.ids_engineBlock (store : BlockStore) (seq : ℕ) (handle : BlockHandle)
    (rows : ℕ) (segment : SegmentMeta) :
    (store.applyEvent (.engineBlock seq handle rows segment)).ids = store.ids ++ [handle.id] := by
  simp [applyEvent, ids]

theorem BlockStore.ids_engineBlocksSync {store : BlockStore} (h : Evicts live store.items d) :
    (store.applyEvent (.engineBlocksSync live)).ids = store.ids.drop d := h.ids

theorem Blocks.distinct_applyEvent (h : blocks.Feasible event) :
    (blocks.store.applyEvent event).ids.Nodup := by
  cases event with
  | historyCleared => exact nodup_nil
  | engineBlock seq handle rows segment =>
    rw [BlockStore.ids_engineBlock, nodup_append]
    refine ⟨blocks.distinct, nodup_singleton _, ?_⟩
    rintro id hi other ho rfl
    rw [mem_singleton] at ho
    exact h (ho ▸ blocks.known id hi)
  | engineBlocksSync live =>
    obtain ⟨d, hd⟩ := h
    rw [BlockStore.ids_engineBlocksSync hd]
    exact (drop_sublist _ _).nodup blocks.distinct

theorem Blocks.known_applyEvent (h : blocks.Feasible event) :
    ∀ id ∈ (blocks.store.applyEvent event).ids, id ∈ event.ids ++ blocks.seen := by
  intro id hi
  cases event with
  | historyCleared => cases hi
  | engineBlock seq handle rows segment =>
    rw [BlockStore.ids_engineBlock, mem_append] at hi
    exact mem_append.mpr (hi.elim (fun hi => .inr (blocks.known id hi)) .inl)
  | engineBlocksSync live =>
    obtain ⟨d, hd⟩ := h
    rw [BlockStore.ids_engineBlocksSync hd] at hi
    exact blocks.known id (mem_of_mem_drop hi)

def Blocks.apply (blocks : Blocks) (event : BlockEvent) (h : blocks.Feasible event) : Blocks where
  store := blocks.store.apply [event]
  seen := event.ids ++ blocks.seen
  distinct := distinct_applyEvent h
  known := known_applyEvent h

/-- The event of a finished command with one row. -/
def finished (id : ℕ) : BlockEvent :=
  .engineBlock id { id, generation := 0 } 1
    { command := none, cwd := none, exitCode := none, startedAt := none, endedAt := none }

theorem feasible_finished {blocks : Blocks} {id : ℕ} (h : id ∉ blocks.seen) :
    blocks.Feasible (finished id) := h

end NiumaTerm.Terminal
