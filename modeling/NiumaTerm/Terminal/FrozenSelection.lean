import Mathlib.Algebra.Group.Nat.Defs
import NiumaTerm.Lib.Transition
import NiumaTerm.Terminal.BlockStore

/-!
# The frozen selection

A pointer selects text of finished blocks by position while the engine adds, evicts and reflows blocks.  The
states of `selecting` also remember which blocks the endpoints named, and `Pane.Sound` says that they still
do; `Pane.Steady` is when a step keeps that.
-/

namespace NiumaTerm.Terminal

open Transition List

structure BlockPoint where
  item : ℕ
  line : ℕ
  col : ℕ
deriving DecidableEq

/-- The derived order: by item, line and column. -/
def BlockPoint.le (a b : BlockPoint) : Bool :=
  a.item < b.item || (a.item = b.item && (a.line < b.line || (a.line = b.line && a.col ≤ b.col)))

inductive SelectionType
  | simple
  | block
  | semantic
  | lines
deriving DecidableEq

/-! ## Selections by position -/

structure FrozenSelection where
  selection : Option (BlockPoint × BlockPoint)
  anchor : Option BlockPoint

namespace FrozenSelection

def default : FrozenSelection where
  selection := none
  anchor := none

def begin (_ : FrozenSelection) (anchor : BlockPoint) : FrozenSelection where
  selection := none
  anchor := some anchor

def select (_ : FrozenSelection) (selection : Option (BlockPoint × BlockPoint)) : FrozenSelection where
  selection := selection
  anchor := none

def extend (f : FrozenSelection) (head : BlockPoint) : Bool × FrozenSelection :=
  match f.anchor with
  | none => (false, f)
  | some anchor => (true, { f with selection := some (anchor, head) })

def commit (f : FrozenSelection) : Bool × FrozenSelection :=
  (f.anchor.isSome, { f with anchor := none })

def clear (f : FrozenSelection) : Bool × FrozenSelection :=
  (f.selection.isSome, { f with selection := none })

end FrozenSelection

structure FrozenSelectionPiece where
  handle : BlockHandle
  start : Option (ℕ × ℕ)
  stop : Option (ℕ × ℕ)

def frozenSelectionPieces (store : BlockStore) (a b : BlockPoint) : List FrozenSelectionPiece :=
  let (a, b) := if a.le b then (a, b) else (b, a)
  store.items.zipIdx.filterMap fun (item, itemIdx) =>
    if itemIdx < a.item ∨ b.item < itemIdx then none
    else
      some { handle := item.handle
             start := if itemIdx = a.item then some (a.line, a.col) else none
             stop := if itemIdx = b.item then some (b.line, b.col) else none }

/-- The handle of the block at a position: `block_item` and its `handle`. -/
def BlockStore.handleAt (store : BlockStore) (item : ℕ) : Option BlockHandle :=
  store.items[item]?.map (·.handle)

/-! ## Gestures -/

structure PendingExpansion where
  point : BlockPoint
  handle : BlockHandle
  kind : SelectionType

/-- What `try_recv` of an expansion's request gives. -/
inductive Reply
  | ready (start stop : ℕ × ℕ)
  | waiting
  | failed

structure TerminalInteraction where
  frozen : FrozenSelection
  pendingExpansion : Option PendingExpansion
  selectionGeneration : ℕ

/-- What a copy reads; `Range` is a range of the live screen. -/
inductive TextSource (Range : Type*)
  | blockSelection (handle : BlockHandle) (line col : ℕ) (kind : SelectionType)
  | blocks (pieces : List FrozenSelectionPiece)
  | live (range : Range)

inductive CopiedSelection (Range : Type*)
  | live (range : Range)
  | frozen (a b : BlockPoint)
  | frozenPending
  | none

structure CopyCompletion (Range : Type*) where
  selection : CopiedSelection Range
  generation : ℕ

namespace TerminalInteraction

variable {Range : Type*}

def default : TerminalInteraction where
  frozen := .default
  pendingExpansion := none
  selectionGeneration := 0

def beginPointer (i : TerminalInteraction) : TerminalInteraction :=
  { i with selectionGeneration := (i.selectionGeneration + 1) % 2 ^ 64, pendingExpansion := none }

def selectBlock (i : TerminalInteraction) (store : BlockStore) (point : BlockPoint)
    (kind : SelectionType) : TerminalInteraction :=
  if kind = .simple then { i with frozen := i.frozen.begin point }
  else
    let i := { i with frozen := i.frozen.clear.2 }
    match store.handleAt point.item with
    | some handle => { i with pendingExpansion := some { point, handle, kind } }
    | none => i

def extendBlockSelection (i : TerminalInteraction) (head : BlockPoint) : Bool × TerminalInteraction :=
  ((i.frozen.extend head).1, { i with frozen := (i.frozen.extend head).2 })

def commitBlockSelection (i : TerminalInteraction) : Bool × TerminalInteraction :=
  (i.frozen.commit.1, { i with frozen := i.frozen.commit.2 })

def clearBlockSelection (i : TerminalInteraction) : Bool × TerminalInteraction :=
  (i.frozen.clear.1, { i with frozen := i.frozen.clear.2 })

/-- The block that the expansion was asked for is still the one at its position. -/
def current (store : BlockStore) (pending : PendingExpansion) : Bool :=
  (store.handleAt pending.point.item).any fun handle =>
    handle.id = pending.handle.id && handle.generation = pending.handle.generation

def pollExpansion (i : TerminalInteraction) (store : BlockStore) (reply : Reply) :
    TerminalInteraction :=
  match i.pendingExpansion with
  | none => i
  | some pending =>
    match reply with
    | .ready (startLine, startCol) (endLine, endCol) =>
      let i := { i with pendingExpansion := none }
      if current store pending then
        { i with frozen := i.frozen.select (some
            ({ item := pending.point.item, line := startLine, col := startCol },
             { item := pending.point.item, line := endLine, col := endCol })) }
      else i
    | .waiting => i
    | .failed => { i with pendingExpansion := none }

/-- `live` is the range of the live selection, if there is one with text. -/
def copySelection (i : TerminalInteraction) (store : BlockStore) (live : Option Range) :
    Option (TextSource Range × CopyCompletion Range) :=
  match i.pendingExpansion with
  | some pending =>
    some (.blockSelection pending.handle pending.point.line pending.point.col pending.kind,
      { selection := .frozenPending, generation := i.selectionGeneration })
  | none =>
    match i.frozen.selection with
    | some (a, b) =>
      some (.blocks (frozenSelectionPieces store a b),
        { selection := .frozen a b, generation := i.selectionGeneration })
    | none => live.map fun range =>
      (.live range, { selection := .live range, generation := i.selectionGeneration })

/-- The interaction and the live selection once the copied text was accepted. -/
def completeCopy [DecidableEq Range] (i : TerminalInteraction) (live : Option Range)
    (completion : CopyCompletion Range) : TerminalInteraction × Option Range :=
  if completion.generation ≠ i.selectionGeneration then (i, live)
  else
    match completion.selection with
    | .frozenPending => ({ i with pendingExpansion := none, frozen := i.frozen.clear.2 }, live)
    | .frozen a b =>
      if i.frozen.selection = some (a, b) then ({ i with frozen := i.frozen.clear.2 }, live)
      else (i, live)
    | .live range => if live = some range then (i, none) else (i, live)
    | .none => (i, live)

end TerminalInteraction

/-! ## Gestures and block events in any order -/

/-- A pane with what the endpoints named when the user made them. -/
structure Pane (Range : Type*) where
  blocks : Blocks
  live : Option Range
  interaction : TerminalInteraction
  /-- The block that the anchor of the drag named. -/
  anchored : Option BlockHandle
  /-- The blocks that the endpoints of the selection named. -/
  named : Option (BlockHandle × BlockHandle)

inductive Gesture (Range : Type*)
  | beginPointer
  | selectBlock (point : BlockPoint) (kind : SelectionType)
  | extendBlockSelection (head : BlockPoint)
  | commitBlockSelection
  | clearBlockSelection
  | pollExpansion (reply : Reply)
  | completeCopy (completion : CopyCompletion Range)
  /-- A gesture on the live screen. -/
  | selectLive (live : Option Range)
  | event (event : BlockEvent)

variable {Range : Type*}

namespace Pane

def initial : Pane Range where
  blocks := .initial
  live := none
  interaction := .default
  anchored := none
  named := none

def store (p : Pane Range) : BlockStore := p.blocks.store

def selection (p : Pane Range) : Option (BlockPoint × BlockPoint) := p.interaction.frozen.selection

def copySelection (p : Pane Range) : Option (TextSource Range × CopyCompletion Range) :=
  p.interaction.copySelection p.store p.live

/-- The blocks a selection made by a drag to `head` names. -/
def dragged (p : Pane Range) (head : BlockPoint) : Option (BlockHandle × BlockHandle) :=
  match p.interaction.frozen.anchor with
  | none => p.named
  | some _ => do
    let anchored ← p.anchored
    let headed ← p.store.handleAt head.item
    return (anchored, headed)

/-- The blocks a selection names once a reply came: an expansion keeps the handle it was asked for. -/
def expanded (p : Pane Range) (reply : Reply) : Option (BlockHandle × BlockHandle) :=
  match p.interaction.pendingExpansion, reply with
  | some pending, .ready _ _ =>
    if TerminalInteraction.current p.store pending then some (pending.handle, pending.handle) else p.named
  | _, _ => p.named

end Pane

/-- Gestures are on blocks that the store has, and events are those the engine can send. -/
inductive Pane.Step [DecidableEq Range] (p : Pane Range) : Gesture Range → Pane Range → Prop
  | beginPointer : Step p .beginPointer { p with interaction := p.interaction.beginPointer }
  | selectBlock (point : BlockPoint) (kind : SelectionType) (handle : BlockHandle)
    (h : p.store.handleAt point.item = some handle) : Step p (.selectBlock point kind)
      { p with
        interaction := p.interaction.selectBlock p.store point kind
        live := none
        anchored := if kind = .simple then some handle else p.anchored
        named := none }
  | extendBlockSelection (head : BlockPoint) (handle : BlockHandle)
    (h : p.store.handleAt head.item = some handle) : Step p (.extendBlockSelection head)
      { p with
        interaction := (p.interaction.extendBlockSelection head).2
        named := p.dragged head }
  | commitBlockSelection : Step p .commitBlockSelection
      { p with interaction := p.interaction.commitBlockSelection.2 }
  | clearBlockSelection : Step p .clearBlockSelection
      { p with interaction := p.interaction.clearBlockSelection.2, named := none }
  | pollExpansion (reply : Reply) : Step p (.pollExpansion reply)
      { p with
        interaction := p.interaction.pollExpansion p.store reply
        named := p.expanded reply }
  | completeCopy (completion : CopyCompletion Range) : Step p (.completeCopy completion)
      { p with
        interaction := (p.interaction.completeCopy p.live completion).1
        live := (p.interaction.completeCopy p.live completion).2 }
  | selectLive (live : Option Range) : Step p (.selectLive live) { p with live }
  | event (event : BlockEvent) (h : p.blocks.Feasible event) : Step p (.event event)
      { p with blocks := p.blocks.apply event h }

def selecting (Range : Type*) [DecidableEq Range] : System (Pane Range) (Gesture Range) where
  init p := p = .initial
  step p gesture p' := p.Step gesture p'

/-- The selection is empty, or its endpoints name the blocks they named when the user made them. -/
def Pane.Sound (p : Pane Range) : Prop :=
  ∀ a b, p.selection = some (a, b) → ∃ ha hb, p.named = some (ha, hb) ∧
    p.store.handleAt a.item = some ha ∧ p.store.handleAt b.item = some hb

/-! ## Which blocks a copy reads -/

/-- A block between two others, whichever of them is the older one. -/
def BlockStore.Between (store : BlockStore) (ha hb handle : BlockHandle) : Prop :=
  ∃ i j k, store.handleAt i = some ha ∧ store.handleAt j = some hb ∧ store.handleAt k = some handle ∧
    min i j ≤ k ∧ k ≤ max i j

/-- A copy reads the block whose expansion is awaited, or blocks between the selected ones. -/
def Pane.CopiesSelected (p : Pane Range) : Prop :=
  ∀ source completion, p.copySelection = some (source, completion) →
    match source with
    | .blockSelection handle _ _ _ =>
      ∃ pending, p.interaction.pendingExpansion = some pending ∧ handle = pending.handle
    | .blocks pieces => ∃ ha hb, p.named = some (ha, hb) ∧
      ∀ piece ∈ pieces, p.store.Between ha hb piece.handle
    | .live _ => p.selection = none

variable {store : BlockStore} {i : ℕ} {handle : BlockHandle}

theorem frozenSelectionPieces_between {a b : BlockPoint} {ha hb : BlockHandle}
    (h₁ : store.handleAt a.item = some ha) (h₂ : store.handleAt b.item = some hb)
    {piece : FrozenSelectionPiece} (h : piece ∈ frozenSelectionPieces store a b) :
    store.Between ha hb piece.handle := by
  unfold frozenSelectionPieces at h
  dsimp only at h
  -- The endpoints in the order in which the pieces are listed.
  generalize hc : (if a.le b then (a, b) else (b, a)) = ends at h
  obtain ⟨first, last⟩ := ends
  obtain ⟨⟨item, k⟩, hi, h⟩ := mem_filterMap.mp h
  dsimp only at h
  by_cases ho : k < first.item ∨ last.item < k
  · rw [if_pos ho] at h
    cases h
  rw [if_neg ho, Option.some.injEq] at h
  subst h
  have hk : store.handleAt k = some item.handle := by
    rw [BlockStore.handleAt, mem_zipIdx_iff_getElem?.mp hi]
    rfl
  refine ⟨a.item, b.item, k, h₁, h₂, hk, ?_⟩
  split_ifs at hc <;> cases hc <;> omega

theorem Pane.Sound.copiesSelected {p : Pane Range} (h : p.Sound) : p.CopiesSelected := by
  intro source completion hc
  unfold copySelection TerminalInteraction.copySelection at hc
  cases hp : p.interaction.pendingExpansion with
  | some pending =>
    rw [hp] at hc
    cases hc
    exact ⟨pending, rfl, rfl⟩
  | none =>
    rw [hp] at hc
    cases hs : p.interaction.frozen.selection with
    | some selection =>
      obtain ⟨a, b⟩ := selection
      rw [hs] at hc
      cases hc
      obtain ⟨ha, hb, hn, h₁, h₂⟩ := h a b hs
      exact ⟨ha, hb, hn, fun _ => frozenSelectionPieces_between h₁ h₂⟩
    | none =>
      rw [hs] at hc
      obtain ⟨range, -, hr⟩ := Option.map_eq_some_iff.mp hc
      cases hr
      exact hs

/-! ## What keeps a selection sound -/

/-- The event leaves the block at a position in place: the history is not cleared, no block is evicted,
and the block is not reflowed to a new generation. -/
def BlockEvent.Keeps (store : BlockStore) (item : ℕ) : BlockEvent → Prop
  | .engineBlock _ _ _ _ => True
  | .engineBlocksSync live => (∀ stored ∈ store.items, (byId live stored.handle.id).isSome) ∧
    ∀ stored, store.items[item]? = some stored →
      (byId live stored.handle.id).map Prod.fst = some stored.handle
  | .historyCleared => False

/-- A block event keeps both endpoints in place, and a drag extends from an anchor that still names its
block. -/
def Pane.Steady (p : Pane Range) : Gesture Range → Prop
  | .event event => ∀ a b, p.selection = some (a, b) →
    event.Keeps p.store a.item ∧ event.Keeps p.store b.item
  | .extendBlockSelection _ => ∀ anchor, p.interaction.frozen.anchor = some anchor →
    p.store.handleAt anchor.item = p.anchored
  | _ => True

theorem handleAt_eq_some :
    store.handleAt i = some handle ↔ ∃ item, store.items[i]? = some item ∧ item.handle = handle :=
  Option.map_eq_some_iff

theorem ids_of_handleAt (h : store.handleAt i = some handle) : store.ids[i]? = some handle.id := by
  obtain ⟨item, hi, rfl⟩ := handleAt_eq_some.mp h
  rw [BlockStore.ids, getElem?_map, hi]
  rfl

/-- With nothing evicted a synchronisation changes each item in its place. -/
theorem getElem?_refresh {live : List (BlockHandle × ℕ)} {items : List BlockItem}
    (h : ∀ item ∈ items, (byId live item.handle.id).isSome) (i : ℕ) :
    ((items.filterMap (·.refresh live))[i]?).map (·.handle) =
      (items[i]?).bind fun item => (byId live item.handle.id).map Prod.fst := by
  induction items generalizing i with
  | nil => rfl
  | cons item rest ih =>
    obtain ⟨entry, he⟩ := Option.isSome_iff_exists.mp (h item mem_cons_self)
    have hr : item.refresh live = some { item with handle := entry.1, rows := entry.2 } := by
      rw [BlockItem.refresh, he]
      rfl
    rw [filterMap_cons_some hr]
    cases i with
    | zero => simp [he]
    | succ i => exact ih (fun item hi => h item (mem_cons_of_mem _ hi)) i

/-- An event that the engine may send keeps a block in place just if it leaves it there. -/
theorem BlockEvent.keeps_iff {blocks : Blocks} {event : BlockEvent} (h : blocks.Feasible event) (hi : blocks.store.handleAt i = some handle) :
    (blocks.store.applyEvent event).handleAt i = some handle ↔ event.Keeps blocks.store i := by
  obtain ⟨item, hg, rfl⟩ := handleAt_eq_some.mp hi
  cases event with
  | historyCleared => simp [BlockStore.applyEvent, BlockStore.handleAt, Keeps]
  | engineBlock seq handle rows segment =>
    have hlt := (List.getElem?_eq_some_iff.mp hg).1
    simp [BlockStore.applyEvent, BlockStore.handleAt, Keeps, getElem?_append_left hlt, hg]
  | engineBlocksSync live =>
    constructor
    · intro hk
      -- An eviction would have put another block at this position.
      obtain ⟨d, hd⟩ := h
      have hids := ids_of_handleAt hk
      rw [BlockStore.ids_engineBlocksSync hd, getElem?_drop] at hids
      obtain ⟨h₁, h₁'⟩ := List.getElem?_eq_some_iff.mp hids
      obtain ⟨h₂, h₂'⟩ := List.getElem?_eq_some_iff.mp (ids_of_handleAt hi)
      have hz : d = 0 := by
        have := blocks.distinct.getElem_inj_iff.mp (h₁'.trans h₂'.symm)
        omega
      subst hz
      refine ⟨hd.left, ?_⟩
      intro stored hs
      rw [hg] at hs
      cases hs
      have := getElem?_refresh hd.left i
      rw [drop_zero, hg] at this
      exact this.symm.trans hk
    · rintro ⟨hl, hs⟩
      have := getElem?_refresh hl i
      rw [hg] at this
      exact this.trans (hs item hg)

/-- The anchor of a drag named a block when it was set. -/
def Pane.Anchored (p : Pane Range) : Prop :=
  ∀ anchor, p.interaction.frozen.anchor = some anchor → ∃ handle, p.anchored = some handle

/-- With no selection there is nothing to keep. -/
theorem Pane.sound_of_none {p : Pane Range} (h : p.selection = none) : p.Sound := by
  intro a b hs
  rw [h] at hs
  cases hs

theorem Pane.Sound.of_eq {p p' : Pane Range} (h : p.Sound) (hs : p'.selection = p.selection)
    (hn : p'.named = p.named) (hb : p'.store = p.store) : p'.Sound := by
  intro a b ha
  rw [hs] at ha
  rw [hn, hb]
  exact h a b ha

theorem current_iff {pending : PendingExpansion} :
    TerminalInteraction.current store pending ↔
      store.handleAt pending.point.item = some pending.handle := by
  unfold TerminalInteraction.current
  cases store.handleAt pending.point.item with
  | none => simp
  | some handle => cases handle; cases pending.handle; simp

/-- The endpoints of an expansion are both in the block it was asked for. -/
theorem Pane.sound_expanded {p : Pane Range} (h : p.Sound) (reply : Reply) :
    Pane.Sound { p with interaction := p.interaction.pollExpansion p.store reply,
                        named := p.expanded reply } := by
  unfold TerminalInteraction.pollExpansion expanded
  cases hp : p.interaction.pendingExpansion with
  | none => exact h.of_eq rfl rfl rfl
  | some pending =>
    cases reply with
    | waiting | failed => exact h.of_eq rfl rfl rfl
    | ready start stop =>
      dsimp only
      by_cases hc : TerminalInteraction.current p.store pending
      · rw [if_pos hc, if_pos hc]
        intro a b hs
        cases hs
        have := current_iff.mp hc
        exact ⟨_, _, rfl, this, this⟩
      · rw [if_neg hc, if_neg hc]
        exact h.of_eq rfl rfl rfl

section

variable [DecidableEq Range] {p p' : Pane Range} {gesture : Gesture Range}

/-- Completing a copy leaves the selection or drops it. -/
theorem completeCopy_selection (i : TerminalInteraction) (live : Option Range)
    (completion : CopyCompletion Range) :
    (i.completeCopy live completion).1.frozen.selection = i.frozen.selection ∨
      (i.completeCopy live completion).1.frozen.selection = none := by
  unfold TerminalInteraction.completeCopy
  split_ifs
  · exact .inl rfl
  · split
    · exact .inr rfl
    · split_ifs
      · exact .inr rfl
      · exact .inl rfl
    · split_ifs <;> exact .inl rfl
    · exact .inl rfl

theorem Pane.Step.anchored (h : p.Step gesture p') (ha : p.Anchored) : p'.Anchored := by
  intro anchor hs
  cases h with
  | beginPointer | clearBlockSelection | selectLive live | event event he => exact ha anchor hs
  | selectBlock point kind handle hp =>
    unfold TerminalInteraction.selectBlock at hs
    by_cases hk : kind = .simple
    · exact ⟨handle, if_pos hk⟩
    · rw [if_neg hk, hp] at hs
      obtain ⟨anchored, he⟩ := ha anchor hs
      exact ⟨anchored, (if_neg hk).trans he⟩
  | extendBlockSelection head handle hp =>
    unfold TerminalInteraction.extendBlockSelection FrozenSelection.extend at hs
    split at hs
    · exact ha anchor hs
    · exact ha anchor hs
  | commitBlockSelection => cases hs
  | pollExpansion reply =>
    unfold TerminalInteraction.pollExpansion at hs
    split at hs
    · exact ha anchor hs
    · split at hs
      · dsimp only at hs
        split_ifs at hs
        · cases hs
        · exact ha anchor hs
      · exact ha anchor hs
      · exact ha anchor hs
  | completeCopy completion =>
    unfold TerminalInteraction.completeCopy at hs
    split_ifs at hs
    · exact ha anchor hs
    · split at hs
      · exact ha anchor hs
      · split_ifs at hs <;> exact ha anchor hs
      · split_ifs at hs <;> exact ha anchor hs
      · exact ha anchor hs

/-- A selection that was sound stays sound in a step just if the step is a steady one. -/
theorem Pane.Step.sound_iff (h : p.Step gesture p') (hs : p.Sound) (ha : p.Anchored) :
    p'.Sound ↔ p.Steady gesture := by
  cases h with
  | beginPointer | commitBlockSelection | selectLive live => exact iff_of_true hs trivial
  | selectBlock point kind handle hp =>
    refine iff_of_true (sound_of_none ?_) trivial
    unfold selection TerminalInteraction.selectBlock
    by_cases hk : kind = .simple
    · rw [if_pos hk]
      rfl
    · rw [if_neg hk, hp]
      rfl
  | extendBlockSelection head handle hp =>
    cases hc : p.interaction.frozen.anchor with
    | none =>
      refine iff_of_true (hs.of_eq ?_ ?_ rfl) ?_
      · unfold selection TerminalInteraction.extendBlockSelection FrozenSelection.extend
        rw [hc]
      · unfold dragged
        rw [hc]
      · intro anchor hn
        rw [hc] at hn
        cases hn
    | some anchor =>
      obtain ⟨anchored, hn⟩ := ha anchor hc
      have hd : p.dragged head = some (anchored, handle) := by
        unfold dragged
        rw [hc, hn, hp]
        rfl
      have hx : (p.interaction.frozen.extend head).2.selection = some (anchor, head) := by
        unfold FrozenSelection.extend
        rw [hc]
      constructor
      · intro hs' anchor' hc'
        rw [hc] at hc'
        cases hc'
        obtain ⟨ha', hb', he, h₁, -⟩ := hs' anchor head hx
        rw [hd] at he
        cases he
        exact h₁.trans hn.symm
      · intro hst a b hs'
        cases hx.symm.trans hs'
        exact ⟨anchored, handle, hd, (hst anchor hc).trans hn, hp⟩
  | clearBlockSelection => exact iff_of_true (sound_of_none rfl) trivial
  | pollExpansion reply => exact iff_of_true (sound_expanded hs reply) trivial
  | completeCopy completion =>
    refine iff_of_true ?_ trivial
    rcases completeCopy_selection p.interaction p.live completion with he | he
    · exact hs.of_eq he rfl rfl
    · exact sound_of_none he
  | event event he =>
    constructor
    · intro hs' a b hc
      obtain ⟨ha, hb, hn, h₁, h₂⟩ := hs a b hc
      obtain ⟨_, _, hn', h₁', h₂'⟩ := hs' a b hc
      cases hn.symm.trans hn'
      exact ⟨(BlockEvent.keeps_iff he h₁).mp h₁', (BlockEvent.keeps_iff he h₂).mp h₂'⟩
    · intro hst a b hc
      obtain ⟨ha, hb, hn, h₁, h₂⟩ := hs a b hc
      obtain ⟨hk₁, hk₂⟩ := hst a b hc
      exact ⟨ha, hb, hn, (BlockEvent.keeps_iff he h₁).mpr hk₁, (BlockEvent.keeps_iff he h₂).mpr hk₂⟩

end

/-- In every run of steady steps the selection names the blocks it named when the user made it, a copy
reads only these blocks and those between them, and exactly the steady steps keep it so. -/
theorem selection_kept [DecidableEq Range] {gestures : List (Gesture Range)} {p : Pane Range}
    (h : Run ((selecting Range).restrict Pane.Steady) gestures p) :
    p.Sound ∧ p.CopiesSelected ∧
      ∀ gesture p', (selecting Range).step p gesture p' → (p'.Sound ↔ p.Steady gesture) := by
  have hi : p.Sound ∧ p.Anchored := by
    refine h.invariant (I := fun p ↦ p.Sound ∧ p.Anchored) ?_ ?_
    · rintro p rfl
      refine ⟨Pane.sound_of_none rfl, ?_⟩
      rintro anchor ⟨⟩
    · rintro p gesture p' ⟨hs, ha⟩ ⟨hst, hstep⟩
      exact ⟨(Pane.Step.sound_iff hstep hs ha).mpr hst, Pane.Step.anchored hstep ha⟩
  refine ⟨hi.1, hi.1.copiesSelected, ?_⟩
  intro gesture p' hstep
  exact Pane.Step.sound_iff hstep hi.1 hi.2

def pointIn (item : ℕ) : BlockPoint where
  item := item
  line := 0
  col := 0

/-- A drag over the first block, which is copied while a second one is finished. -/
theorem selection_kept_drag : ∃ p : Pane Unit, p.selection = some (pointIn 0, pointIn 0) ∧
    p.Sound ∧ p.CopiesSelected ∧
      ∀ gesture p', (selecting Unit).step p gesture p' → (p'.Sound ↔ p.Steady gesture) := by
  have h : Run ((selecting Unit).restrict Pane.Steady) [] Pane.initial := .init rfl
  have h := h.step ⟨by rintro a b ⟨⟩, .event (finished 0) (feasible_finished (by decide))⟩
  have h := h.step ⟨by trivial, .selectBlock (pointIn 0) .simple _ rfl⟩
  have h := h.step ⟨by rintro anchor ⟨⟩; rfl, .extendBlockSelection (pointIn 0) _ rfl⟩
  have h := h.step ⟨by rintro a b ⟨⟩; exact ⟨trivial, trivial⟩,
    .event (finished 1) (feasible_finished (by decide))⟩
  exact ⟨_, rfl, selection_kept h⟩

/-- The block that was selected is evicted, and the selection names the next one. -/
theorem selection_moves : ∃ (gestures : List (Gesture Unit)) (p : Pane Unit),
    Run (selecting Unit) gestures p ∧ ¬ p.Sound ∧ ¬ p.CopiesSelected := by
  have h : Run (selecting Unit) [] Pane.initial := .init rfl
  have h := h.step (.event (finished 0) (feasible_finished (by decide)))
  have h := h.step (.event (finished 1) (feasible_finished (by decide)))
  have h := h.step (.selectBlock (pointIn 0) .simple _ rfl)
  have h := h.step (.extendBlockSelection (pointIn 0) _ rfl)
  have h := h.step (.event (.engineBlocksSync [({ id := 1, generation := 0 }, 1)])
    ⟨1, by decide, by decide⟩)
  refine ⟨_, _, h, ?_, ?_⟩
  · intro hs
    obtain ⟨ha, hb, hn, h₁, -⟩ := hs (pointIn 0) (pointIn 0) rfl
    cases hn
    cases h₁
  · intro hc
    obtain ⟨ha, hb, hn, hp⟩ := hc _ _ rfl
    cases hn
    obtain ⟨i, j, k, hi, -⟩ := hp _ (mem_singleton_self _)
    rcases i with _ | i <;> cases hi

end NiumaTerm.Terminal
