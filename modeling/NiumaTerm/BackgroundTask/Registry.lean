import NiumaTerm.AgentSpec

/-!
# Background tasks

The rows of a session's child agents and background shells.  A patch for an unknown key makes its row,
and only a patch that changes something takes a number of the local order.
-/

namespace NiumaTerm.BackgroundTask

open Rust List

structure BackgroundTaskKey where
  provider : AgentKind
  id : Str
  deriving DecidableEq

def BackgroundTaskKey.claudeCode (id : Str) : BackgroundTaskKey := ⟨.claude, id⟩

inductive BackgroundTaskRefs
  | codex (threadId : Str)
  | claudeCode (taskId toolUseId agentId : Option Str)
  | deepSeek (continuable : Bool)
  deriving DecidableEq

/-- Fill identifiers that are not known yet. -/
def BackgroundTaskRefs.mergeFrom : BackgroundTaskRefs → BackgroundTaskRefs → BackgroundTaskRefs
  | claudeCode taskId toolUseId agentId, claudeCode incomingTask incomingToolUse incomingAgent =>
    claudeCode (taskId.or incomingTask) (toolUseId.or incomingToolUse) (agentId.or incomingAgent)
  | refs, _ => refs

inductive BackgroundTaskState
  | starting
  | working
  | needsInput
  | done
  | interrupted
  | stopped
  | failed
  deriving DecidableEq

namespace BackgroundTaskState

def isTerminal : BackgroundTaskState → Bool
  | done | interrupted | stopped | failed => true
  | _ => false

def isActive (state : BackgroundTaskState) : Bool := !state.isTerminal

end BackgroundTaskState

inductive BackgroundTaskKind
  | agent
  | shell
  deriving DecidableEq

/-- One child as the view sees it. -/
structure BackgroundTaskSummary where
  key : BackgroundTaskKey
  parentSession : BackgroundTaskKey
  refs : BackgroundTaskRefs
  kind : BackgroundTaskKind := .agent
  displayName : Option Str := none
  objective : Option Str := none
  status : Option Str := none
  state : BackgroundTaskState := .starting
  sequence : ℕ
  startedAt : Option ℕ := none
  completedAt : Option ℕ := none
  lastPreview : Option Str := none
  canStop : Bool := false
  deriving DecidableEq

/-- A patch of one row. -/
structure BackgroundTaskUpdate where
  refs : Option BackgroundTaskRefs := none
  kind : Option BackgroundTaskKind := none
  state : Option BackgroundTaskState := none
  displayName : Option Str := none
  objective : Option Str := none
  status : Option Str := none
  lastPreview : Option Str := none
  startedAt : Option ℕ := none
  completedAt : Option ℕ := none

inductive BackgroundTaskLoadState
  | notLoaded
  | loading
  | ready
  | unavailable (message : Str)
  deriving DecidableEq

/-- One update of a child's conversation. -/
structure BackgroundTaskTranscriptUpdate (Item : Type) where
  replace : Bool
  restore : Bool
  items : List Item
  state : Option BackgroundTaskLoadState

namespace BackgroundTaskTranscriptUpdate

variable {Item : Type}

/-- New activity of a live stream. -/
def appended (items : List Item) : BackgroundTaskTranscriptUpdate Item where
  replace := false
  restore := false
  items := items
  state := some .ready

/-- A conversation from history, for a child that nothing was seen of. -/
def restored (items : List Item) : BackgroundTaskTranscriptUpdate Item where
  replace := false
  restore := true
  items := items
  state := some .ready

end BackgroundTaskTranscriptUpdate

def defaultRefs (key : BackgroundTaskKey) : BackgroundTaskRefs :=
  match key.provider with
  | .codex => .codex key.id
  | .claude => .claudeCode none none none
  | .deepSeek => .deepSeek false

/-- The earliest known start wins. -/
def earliest (known : Option ℕ) : Option ℕ → Option ℕ
  | none => known
  | some startedAt => if known.all (startedAt < ·) then some startedAt else known

/-- Whether a field changed, and the row after the patch. -/
def mergeUpdate (summary : BackgroundTaskSummary) (update : BackgroundTaskUpdate) (sequence : ℕ) :
    Bool × BackgroundTaskSummary :=
  let merged := { summary with
    refs := update.refs.elim summary.refs summary.refs.mergeFrom
    kind := update.kind.getD summary.kind
    state := update.state.getD summary.state
    displayName := update.displayName.or summary.displayName
    objective := update.objective.or summary.objective
    status := update.status.or summary.status
    lastPreview := update.lastPreview.or summary.lastPreview
    startedAt := earliest summary.startedAt update.startedAt
    completedAt := update.completedAt.or summary.completedAt }
  if merged = summary then (false, summary) else (true, { merged with sequence })

theorem mergeUpdate_key (summary : BackgroundTaskSummary) (update : BackgroundTaskUpdate)
    (sequence : ℕ) : (mergeUpdate summary update sequence).2.key = summary.key := by
  rw [mergeUpdate]
  split <;> rfl

structure BackgroundTaskRegistry where
  parentSession : BackgroundTaskKey
  /-- At most one row of a key. -/
  tasks : List BackgroundTaskSummary
  discovery : BackgroundTaskLoadState
  sequence : ℕ
  activity : ℕ

namespace BackgroundTaskRegistry

def new (parentSession : BackgroundTaskKey) : BackgroundTaskRegistry where
  parentSession := parentSession
  tasks := []
  discovery := .notLoaded
  sequence := 0
  activity := 0

variable (r : BackgroundTaskRegistry) (key : BackgroundTaskKey)

def get : Option BackgroundTaskSummary := r.tasks.find? fun task => task.key = key

def contains : Bool := (r.get key).isSome

def setDiscovery (discovery : BackgroundTaskLoadState) : Bool × BackgroundTaskRegistry :=
  if r.discovery = discovery then (false, r) else (true, { r with discovery })

/-- A live update; whether anything changed. -/
def apply (update : BackgroundTaskUpdate) : Bool × BackgroundTaskRegistry :=
  let sequence := r.sequence + 1
  match r.get key with
  | some existing =>
    let (changed, merged) := mergeUpdate existing update sequence
    (changed, { r with
      tasks := r.tasks.map fun task => if task.key = key then merged else task
      sequence := if changed then sequence else r.sequence
      activity := if merged.state = existing.state then r.activity else r.activity + 1 })
  | none =>
    let summary : BackgroundTaskSummary :=
      { key, parentSession := r.parentSession
        refs := update.refs.getD (defaultRefs key), sequence }
    (true, { r with
      tasks := r.tasks ++ [(mergeUpdate summary update sequence).2]
      sequence
      activity := r.activity + 1 })

/-- A restored row.  One that was updated since `startingSequence` keeps its state. -/
def mergeRestored (update : BackgroundTaskUpdate) (startingSequence : ℕ) :
    Bool × BackgroundTaskRegistry :=
  if (r.get key).any (startingSequence < ·.sequence) then
    r.apply key { update with state := none, completedAt := none }
  else r.apply key update

variable {r key}

/-- Where the other rows keep their keys, a search for another key does not see the change. -/
theorem find?_replace {other : BackgroundTaskKey} (h : other ≠ key) {merged : BackgroundTaskSummary}
    (hkey : merged.key = key) (tasks : List BackgroundTaskSummary) :
    (tasks.map fun task => if task.key = key then merged else task).find? (·.key = other) =
      tasks.find? (·.key = other) := by
  induction tasks with
  | nil => rfl
  | cons task rest ih =>
    rw [map_cons]
    by_cases htask : task.key = key
    · rw [if_pos htask, find?_cons_of_neg (by simpa [hkey] using Ne.symm h), ih,
        find?_cons_of_neg (by simpa [htask] using Ne.symm h)]
    · rw [if_neg htask, find?_cons, find?_cons, ih]

/-- **A patch for one key leaves the rows of the others alone.** -/
theorem get_apply_of_ne {other : BackgroundTaskKey} (h : other ≠ key)
    (update : BackgroundTaskUpdate) : (r.apply key update).2.get other = r.get other := by
  rw [apply]
  split
  · next existing he =>
    have hkey : (mergeUpdate existing update (r.sequence + 1)).2.key = key := by
      rw [mergeUpdate_key]
      simpa using find?_some he
    exact find?_replace h hkey r.tasks
  · rw [get, get, find?_append, find?_cons_of_neg, find?_nil, Option.or_none]
    simpa [mergeUpdate_key] using Ne.symm h

theorem apply_parentSession (update : BackgroundTaskUpdate) :
    (r.apply key update).2.parentSession = r.parentSession := by
  rw [apply]
  split <;> rfl

theorem mem_tasks_iff : r.contains key = true ↔ ∃ task ∈ r.tasks, task.key = key := by
  simp [contains, get]

/-- The patched key has a row. -/
theorem contains_apply_self (update : BackgroundTaskUpdate) :
    (r.apply key update).2.contains key = true := by
  rw [mem_tasks_iff, apply]
  split
  · next existing he =>
    have hexisting : existing.key = key := by simpa using find?_some he
    refine ⟨_, mem_map.mpr ⟨existing, mem_of_find?_eq_some he, rfl⟩, ?_⟩
    rw [if_pos hexisting, mergeUpdate_key]
    exact hexisting
  · exact ⟨_, mem_append_right _ mem_cons_self, mergeUpdate_key _ _ _⟩

theorem mergeRestored_eq (update : BackgroundTaskUpdate) (startingSequence : ℕ) :
    ∃ accepted, r.mergeRestored key update startingSequence = r.apply key accepted := by
  rw [mergeRestored]
  split
  · exact ⟨_, rfl⟩
  · exact ⟨_, rfl⟩

end BackgroundTaskRegistry

end NiumaTerm.BackgroundTask
