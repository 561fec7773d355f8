import NiumaTerm.Lib.Window
import NiumaTerm.Transcript.Content

/-!
# Conversations

`ConversationState` keeps the entries of a conversation and remembers its last changes.  A reader asks with
the version that it last saw, and learns what to read again: everything from a position on, or single texts.
-/

namespace NiumaTerm.Transcript

open Rust Transition

/-- Immutable PNG data retained after an image submission is accepted. -/
structure ConversationImage where
  id : ℕ
  bytes : List UInt8

structure EntryMetadata where
  timestamp : Option ℤ
  images : List ConversationImage

abbrev Entry := TranscriptEntry EntryMetadata

/-! ## Changes -/

inductive EntryChange
  | append (previousBytes : ℕ)
  | replace
  deriving DecidableEq

structure ContentChange where
  revision : ℕ
  first : ℕ
  reply : Option (ℕ × ℕ)
  /-- Text updates do not invalidate cached output for neighbouring entries. -/
  entries : List (ℕ × EntryChange)
  /-- Unknown mutations and expired history require reading current content. -/
  resetFrom : Option ℕ
  deriving DecidableEq

/-- Two updates of one entry, one after the other. -/
def EntryChange.merge : EntryChange → EntryChange → EntryChange
  | .append old, .append new => .append (min old new)
  | _, _ => .replace

namespace ContentChange

/-- Add one update of an entry to those collected so far. -/
def absorbEntry : List (ℕ × EntryChange) → ℕ × EntryChange → List (ℕ × EntryChange)
  | [], update => [update]
  | (i, previous) :: rest, (index, update) =>
    if i = index then (i, previous.merge update) :: rest
    else (i, previous) :: absorbEntry rest (index, update)

/-- Add the next remembered change. -/
def absorb (change next : ContentChange) : ContentChange where
  revision := change.revision
  first := min change.first next.first
  reply := next.reply.or change.reply
  entries := next.entries.foldl absorbEntry change.entries
  resetFrom :=
    match next.resetFrom with
    | some first => some (change.resetFrom.elim first fun old => min old first)
    | none => change.resetFrom

end ContentChange

/-! ## Conversations -/

structure ConversationState where
  content : TranscriptContent EntryMetadata
  generation : ℕ
  revision : ℕ
  changes : List ContentChange

/-- One entry of a resumed turn. -/
structure ReplayItem where
  timestamp : Option ℤ
  item : Item

namespace ConversationState

variable (c : ConversationState)

def empty : ConversationState where
  content := .empty
  generation := 0
  revision := 0
  changes := []

def version : ℕ × ℕ := (c.generation, c.revision)

/-- How many changes a conversation remembers. -/
def remembered : ℕ := 64

/-- The window of remembered changes no longer reaches back to the version. -/
def expired (version : ℕ × ℕ) : Bool :=
  version.1 ≠ c.generation || c.changes.head?.all fun change => version.2 + 1 < change.revision

/-- The changes that a reader of a version has missed. -/
def missed (version : ℕ × ℕ) : List ContentChange :=
  c.changes.filter fun change => version.2 < change.revision

/-- Retain a bounded window of invalidations, falling back to current content when a reader missed
more updates than the window holds. -/
def changesSince (version : ℕ × ℕ) : Option ContentChange :=
  if version = c.version then none
  else if c.expired version then
    some { revision := c.revision, first := 0, reply := none, entries := [], resetFrom := some 0 }
  else
    some ((c.missed version).foldl ContentChange.absorb
      { revision := c.revision, first := c.content.entries.length, reply := none, entries := []
        resetFrom := none })

def recordChange (first : ℕ) (reply : Option (ℕ × ℕ)) (entries : List (ℕ × EntryChange))
    (resetFrom : Option ℕ) : ConversationState :=
  { c with
    revision := c.revision + 1
    changes := Window.push remembered c.changes
      { revision := c.revision + 1, first, reply, entries, resetFrom } }

def changed (first : ℕ) (reply : Option (ℕ × ℕ)) : ConversationState :=
  c.recordChange first reply [] (some first)

def presentationChanged (first : ℕ) : ConversationState := c.recordChange first none [] none

def attachLastImages (images : List ConversationImage) : ConversationState :=
  if c.content.entries = [] then c
  else
    { c with content := c.content.setLastMetadata fun metadata => { metadata with images } }
      |>.presentationChanged (c.content.entries.length - 1)

def append (entry : Entry) : ConversationState :=
  { c with content := c.content.append entry }.presentationChanged (c.content.entries.length - 1)

def push (turn : ℕ) (item : Item) (images : List ConversationImage) (now : ℤ) : ConversationState :=
  c.append { turn, item, metadata := { timestamp := some now, images } }

def replay (turn : ℕ) (items : List ReplayItem) : ConversationState :=
  let content := items.foldl (fun content e => content.append
    { turn, item := e.item, metadata := { timestamp := e.timestamp, images := [] } }) c.content
  { c with content }.presentationChanged (c.content.entries.length - 1)

def mergeCompleted (item : Item) : ConversationState :=
  match c.content.mergeCompleted item with
  | none => c
  | some (index, content) =>
    if item.omitsOutput then { c with content }.presentationChanged index
    else { c with content }.recordChange index none [(index, .replace)] none

/-- Saved row indices and pending text offsets become invalid. -/
def renewed (content : TranscriptContent EntryMetadata) : ConversationState :=
  { c with content, generation := c.generation + 1, changes := [] }.changed 0 none

/-- Removing entries changes later positions and the grouping of adjacent rows. -/
def removeItems (itemIds : List Str) : Bool × ConversationState :=
  match c.content.removeItems itemIds with
  | none => (false, c)
  | some (_, content) => (true, c.renewed content)

def appendDelta (itemId delta : Str) (field : TextField) : Option TextAppend × ConversationState :=
  match c.content.appendDelta itemId delta field with
  | none => (none, c)
  | some (update, content) =>
    (some update, { c with content }.recordChange update.index
      (if field = TextField.reply then some (update.index, update.previousBytes) else none)
      [(update.index, .append update.previousBytes)] none)

def start : ConversationState := c.presentationChanged c.content.entries.length

def changedTurn (turn : ℕ) : ConversationState :=
  c.presentationChanged ((c.content.entries.findIdx? (·.turn = turn)).getD c.content.entries.length)

def settle (turn : ℕ) : ConversationState := c.changedTurn turn

/-- Replace every entry from `from` on, as a replica following another process's conversation
does. -/
def splice (start : ℕ) (entries : List Entry) : ConversationState :=
  let start := min start c.content.entries.length
  { c with content := entries.foldl .append (c.content.truncate start) }.changed start none

def retainLast (count : ℕ) : ℕ × ConversationState :=
  let (dropped, content) := c.content.retainLast count
  (dropped, if dropped > 0 then c.renewed content else c)

def clear : ConversationState where
  content := .empty
  generation := c.generation + 1
  revision := 0
  changes := []

end ConversationState

/-! ## Runs -/

/-- What is done to a conversation. -/
inductive Operation
  | changed (first : ℕ) (reply : Option (ℕ × ℕ))
  | attachLastImages (images : List ConversationImage)
  | append (entry : Entry)
  | push (turn : ℕ) (item : Item) (images : List ConversationImage) (now : ℤ)
  | replay (turn : ℕ) (items : List ReplayItem)
  | mergeCompleted (item : Item)
  | removeItems (itemIds : List Str)
  | appendDelta (itemId delta : Str) (field : TextField)
  | start
  | changedTurn (turn : ℕ)
  | settle (turn : ℕ)
  | splice (start : ℕ) (entries : List Entry)
  | retainLast (count : ℕ)
  | clear

def ConversationState.perform (c : ConversationState) : Operation → ConversationState
  | .changed first reply => c.changed first reply
  | .attachLastImages images => c.attachLastImages images
  | .append entry => c.append entry
  | .push turn item images now => c.push turn item images now
  | .replay turn items => c.replay turn items
  | .mergeCompleted item => c.mergeCompleted item
  | .removeItems itemIds => (c.removeItems itemIds).2
  | .appendDelta itemId delta field => (c.appendDelta itemId delta field).2
  | .start => c.start
  | .changedTurn turn => c.changedTurn turn
  | .settle turn => c.settle turn
  | .splice start entries => c.splice start entries
  | .retainLast count => (c.retainLast count).2
  | .clear => c.clear

/-- All runs of a conversation. -/
def conversations : System ConversationState Operation where
  init c := c = .empty
  step c op c' := c' = c.perform op

end NiumaTerm.Transcript
