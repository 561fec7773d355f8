import Mathlib.Data.Char
import Mathlib.Data.List.Lex
import NiumaTerm.ClaudeCode.Tasks.Children
import NiumaTerm.ClaudeCode.Tasks.Shells

/-!
# Claude's child agents and shells, reduced to rows

`ClaudeTasks` folds what Claude tells of a child into one registry, and `canonical` says which row an
identifier is about.  A function that goes through the blocks of a message or the tasks of a history has
its body as a function of its own.  The time is read once for a message.
-/

namespace NiumaTerm.ClaudeCode

open Rust BackgroundTask

/-- `changed |= body(..)` for every element. -/
def foldChanges {σ α : Type} (body : σ → α → Bool × σ) (state : σ) (elements : List α) : Bool × σ :=
  elements.foldl (fun (changed, state) element =>
    let (change, state) := body state element
    (changed || change, state)) (false, state)

/-- A task rebuilt from history. -/
structure RestoredTask (Item : Type) where
  id : Str
  update : BackgroundTaskUpdate
  items : List Item
  outputFile : Option Str

structure ClaudeTasks (Item : Type) where
  registry : Option BackgroundTaskRegistry := none
  /-- Task, tool-use and agent identifiers, and the row each of them is about. -/
  aliases : AliasTable := []
  children : ChildTranscripts Item := {}
  shells : ShellIndex := {}

namespace ClaudeTasks

variable {Item : Type} (content : ChildContent Item) (t : ClaudeTasks Item) (now : ℕ)

/-! ## Rows and identifiers -/

def row (canonical : Str) : Option BackgroundTaskSummary :=
  t.registry.bind fun registry => registry.get (.claudeCode canonical)

def stateOf (canonical : Str) : Option BackgroundTaskState := (t.row canonical).map (·.state)

def isShell (canonical : Str) : Bool := (t.row canonical).any (·.kind = .shell)

/-- The row of an identifier: itself, if it names one. -/
def canonical (id : Str) : Option Str :=
  (t.aliases.lookup id).or (if (t.row id).isSome then some id else none)

/-- The row of a record with several identifiers, or the first of them. -/
def canonicalFrom (ids : List Str) : Option Str := (ids.findSome? t.canonical).or ids.head?

def apply (canonical : Str) (update : BackgroundTaskUpdate) : Bool × ClaudeTasks Item :=
  match t.registry with
  | none => (false, t)
  | some registry =>
    let (changed, registry) := registry.apply (.claudeCode canonical) update
    (changed, { t with registry := some registry })

def linkAll (canonical : Str) (ids : List Str) : ClaudeTasks Item :=
  { t with aliases := t.aliases.linkAll canonical ids }

/-- Whether any of the identifiers is known. -/
def knows (ids : List Str) : Bool := ids.any fun id => (t.canonical id).isSome

/-! ## Lifecycle records and hooks -/

/-- A lifecycle record, once it is known which row it is about. -/
def enrich (kind : LifecycleKind) (record : Json) (ids : List Str) (canonical : Str) :
    Bool × ClaudeTasks Item :=
  let t := t.linkAll canonical ids
  let shell := (record.get "task_type").asStr = some SHELL_TASK_TYPE || t.isShell canonical
  let state := lifecycleState kind record
  t.apply canonical
    { refs := some (refsFrom record)
      kind := if shell then some .shell else none
      state
      displayName := textField record ["description"]
      status := textField record ["summary", "last_tool_name"]
      objective := if shell then t.shells.shellCommand canonical else none
      completedAt := (state.filter (·.isTerminal)).map fun _ => now }

/-- What a lifecycle record says of the shells. -/
def rememberShellRecord (record : Json) : ClaudeTasks Item :=
  let shells :=
    if (record.get "task_type").asStr = some SHELL_TASK_TYPE then t.shells.rememberShell record
    else t.shells
  { t with shells := shells.rememberOutputFile record }

/-- Whether a task type is one that the view does not show. -/
def isForeign (taskType : Option Str) : Bool :=
  taskType.any fun taskType => taskType ≠ AGENT_TASK_TYPE && taskType ≠ SHELL_TASK_TYPE

def observeLifecycle (kind : LifecycleKind) (record : Json) : Bool × ClaudeTasks Item :=
  let taskType := (record.get "task_type").asStr
  if isForeign taskType then (false, t)
  else
    let t := t.rememberShellRecord record
    let ids := recordIdentifiers record
    if !t.knows ids && !admitsNewRow taskType record then (false, t)
    else match t.canonicalFrom ids with
      | none => (false, t)
      | some canonical => t.enrich now kind record ids canonical

/-- A hook ends a child that is still shown as running. -/
def observeSubagentStop (record : Json) : Bool × ClaudeTasks Item :=
  match t.canonicalFrom (recordIdentifiers record) with
  | none => (false, t)
  | some canonical =>
    if (t.stateOf canonical).all (·.isTerminal) then (false, t)
    else t.apply canonical { state := some .done, completedAt := some now }

def isSubagentStop (message : Json) : Bool :=
  let event := (message.get "hook_event").asStr.or (message.get "hook_event_name").asStr
  event = some "SubagentStop".toList

def observeHook (message : Json) : Bool × ClaudeTasks Item :=
  if isSubagentStop message then t.observeSubagentStop now message else (false, t)

/-! ## Messages of the parent -/

def openChildConversation (toolUseId : Str) (objective : Option Str) : Bool × ClaudeTasks Item :=
  match objective with
  | none => (false, t)
  | some prompt =>
    let (changed, children) := t.children.openConversation content toolUseId prompt
    (changed, { t with children })

/-- The launch of a child.  Its row is named by the call. -/
def launch (toolUseId : Str) (input : Json) : Bool × ClaudeTasks Item :=
  let objective := textField input ["prompt", "task", "instructions"]
  let (changed, t) := t.apply toolUseId
    { refs := some (.claudeCode none (some toolUseId) none)
      state := some .starting
      displayName := textField input ["description", "name", "title"]
      objective
      startedAt := some now }
  let (opened, t) := t.openChildConversation content toolUseId objective
  (changed || opened, t)

def parentAssistantBlock (block : Json) : Bool × ClaudeTasks Item :=
  match toolUse block with
  | none => (false, t)
  | some (name, toolUseId) =>
    if name = "Bash".toList then
      (false, { t with shells := t.shells.rememberBashCommand toolUseId (block.get "input") })
    else if LAUNCH_TOOLS.contains name then t.launch content now toolUseId (block.get "input")
    else (false, t)

def observeParentAssistant (message : Json) : Bool × ClaudeTasks Item :=
  foldChanges (fun t block => t.parentAssistantBlock content now block) t (contentBlocks message)

def isFailed (block : Json) : Bool := (block.get "is_error").asBool.getD false

/-- The identifiers that the acknowledgement of an asynchronous launch holds. -/
def asyncIdentifiers (toolUseId : Str) (result : Json) : List Str :=
  toolUseId :: (textField result ["agentId"]).toList

/-- The acknowledgement of an asynchronous launch. -/
def acknowledge (toolUseId canonical : Str) (result : Json) : Bool × ClaudeTasks Item :=
  let t := t.linkAll canonical (asyncIdentifiers toolUseId result)
  let state := ((t.stateOf canonical).filter (·.isActive)).map fun _ => .working
  t.apply canonical
    { refs := some (.claudeCode none (some toolUseId) (textField result ["agentId"]))
      state }

def parentUserBlock (message block : Json) : Bool × ClaudeTasks Item :=
  match toolResult block with
  | none => (false, t)
  | some toolUseId =>
    match t.canonical toolUseId with
    | none => (false, t)
    | some canonical =>
      if t.isShell canonical then
        (false, { t with shells := t.shells.rememberHandoffOutputFile canonical block })
      else match if isFailed block then none else asyncAgentResult message with
        | some result => t.acknowledge toolUseId canonical result
        | none => t.apply canonical
            { state := some (if isFailed block then .failed else .done)
              status := resultText block
              completedAt := some now }

def observeParentUser (message : Json) : Bool × ClaudeTasks Item :=
  foldChanges (fun t block => t.parentUserBlock now message block) t (contentBlocks message)

/-! ## Records of a child -/

def observeSidechain (parentToolUseId : Str) (message : Json) : Bool × ClaudeTasks Item :=
  match t.canonical parentToolUseId with
  | none => (false, t)
  | some canonical =>
    let preview := sidechainPreview message
    let (items, children) := t.children.sidechainItems content canonical message
    let t := { t with children := children.push canonical items }
    let state := ((t.stateOf canonical).filter (· = .starting)).map fun _ => .working
    t.apply canonical { state, status := preview, lastPreview := preview }

/-! ## The background set -/

/-- The guards of an entry of the background set: the shell it names. -/
def runningShell (entry : Json) : Option Str :=
  if (entry.get "task_type").asStr ≠ some SHELL_TASK_TYPE then none
  else if (entry.get "ambient").asBool.getD false then none
  else identifier entry "task_id"

def backgroundEntry (entry : Json) : Bool × ClaudeTasks Item :=
  match runningShell entry with
  | none => (false, t)
  | some taskId =>
    let canonical := (t.canonical taskId).getD taskId
    let t := { t with shells := t.shells.reserveShellMeta taskId }
    let state := if (t.stateOf canonical).any (·.isTerminal) then none else some .working
    let known := t.shells.metaOf canonical
    t.apply canonical
      { refs := some (.claudeCode (some taskId) (known.bind (·.toolUseId)) none)
        kind := some .shell
        state
        displayName := (textField entry ["description"]).or (known.bind (·.description))
        objective := t.shells.shellCommand canonical
        startedAt := some now }

def observeBackgroundSnapshot (message : Json) : Bool × ClaudeTasks Item :=
  foldChanges (fun t entry => t.backgroundEntry now entry) t ((message.get "tasks").asArray.getD [])

/-! ## Sessions and restoration -/

def sessionId : Option Str := t.registry.map fun registry => registry.parentSession.id

/-- Another session drops everything that is known. -/
def setSession (sessionId : Str) : Bool × ClaudeTasks Item :=
  if t.sessionId = some sessionId then (false, t)
  else (true, { registry := some (.new (.claudeCode sessionId)) })

def setDiscovery (discovery : BackgroundTaskLoadState) : Bool × ClaudeTasks Item :=
  match t.registry with
  | none => (false, t)
  | some registry =>
    let (changed, registry) := registry.setDiscovery discovery
    (changed, { t with registry := some registry })

/-- The order counter that a restoration starts from. -/
def beginRestoration : ℕ × ClaudeTasks Item :=
  let t := (t.setDiscovery .loading).2
  (t.registry.elim 0 (·.sequence), t)

/-- A stored status that is active confirms no work of this process. -/
def restoredUpdate (contained : Bool) (update : BackgroundTaskUpdate) : BackgroundTaskUpdate :=
  if update.state.any (·.isActive) then
    { update with
      state := if contained then none else some .stopped
      completedAt := none }
  else update

/-- The identifiers of stored references. -/
def refIdentifiers (update : BackgroundTaskUpdate) : List Str :=
  match update.refs with
  | some (.claudeCode taskId toolUseId agentId) =>
    taskId.toList ++ toolUseId.toList ++ agentId.toList
  | _ => []

def restoredCanonical (task : RestoredTask Item) : Str := (t.aliases.lookup task.id).getD task.id

/-- One stored task. -/
def restoreTask (startingSequence : ℕ) (task : RestoredTask Item) : Bool × ClaudeTasks Item :=
  let canonical := t.restoredCanonical task
  let update := restoredUpdate (t.row canonical).isSome task.update
  let t := t.linkAll canonical (refIdentifiers update)
  let shells :=
    if update.kind = some .shell then t.shells.restore canonical update task.outputFile
    else t.shells
  let children :=
    if task.items.isEmpty then t.children
    else t.children.pushRestored (.claudeCode canonical) task.items
  match t.registry with
  | none => (false, { t with shells, children })
  | some registry =>
    let (changed, registry) :=
      registry.mergeRestored (.claudeCode canonical) update startingSequence
    (changed, { t with registry := some registry, shells, children })

def finishRestoration (restored : Except Str (List (RestoredTask Item))) (startingSequence : ℕ) :
    Bool × ClaudeTasks Item :=
  match t.registry with
  | none => (false, t)
  | some registry =>
    match restored with
    | .ok tasks =>
      let (changed, t) := foldChanges (fun t task => t.restoreTask startingSequence task) t tasks
      let (ready, t) := t.setDiscovery .ready
      (changed || ready, t)
    | .error message =>
      t.setDiscovery (if registry.tasks.isEmpty then .unavailable message else .ready)

/-- The rows that are still active, in the order of their ids. -/
def staleRows : List Str :=
  let active := (t.registry.elim [] (·.tasks)).filter (·.state.isActive)
  (active.map (·.key.id)).mergeSort fun a b => decide (a ≤ b)

/-- The end of the process ends what it ran. -/
def stopActiveTasks : Bool × ClaudeTasks Item :=
  foldChanges (fun t id => t.apply id { state := some .stopped, completedAt := some now }) t
    t.staleRows

/-! ## Messages -/

def observeSystem (message : Json) : Bool × ClaudeTasks Item :=
  let subtype := (message.get "subtype").asStr.getD []
  if subtype = "hook_started".toList || subtype = "hook_response".toList then
    t.observeHook now message
  else if subtype = "background_tasks_changed".toList then
    t.observeBackgroundSnapshot now message
  else match LifecycleKind.ofSubtype subtype with
    | some kind => t.observeLifecycle now kind message
    | none => (false, t)

def observeCurrent (message : Json) : Bool × ClaudeTasks Item :=
  let kind := message.get "type"
  let linkedParent := (message.get "parent_tool_use_id").asStr
  if kind.isText "system" then t.observeSystem now message
  else if kind.isText "assistant" || kind.isText "stream_event" then
    match linkedParent with
    | some parent => t.observeSidechain content parent message
    | none => t.observeParentAssistant content now message
  else if kind.isText "user" then
    match linkedParent with
    | some parent => t.observeSidechain content parent message
    | none => t.observeParentUser now message
  else (false, t)

def observe (message : Json) : Bool × ClaudeTasks Item :=
  let t := match (message.get "session_id").asStr with
    | some sessionId => (t.setSession sessionId).2
    | none => t
  if t.registry.isNone then (false, t) else t.observeCurrent content now message

/-- What is pending for one row. -/
def transcript (id : Str) : List (BackgroundTaskTranscriptUpdate Item) := t.children.transcript id

def takeTranscripts :
    List (BackgroundTaskKey × BackgroundTaskTranscriptUpdate Item) × ClaudeTasks Item :=
  let (pending, children) := t.children.drain
  (pending, { t with children })

end ClaudeTasks

end NiumaTerm.ClaudeCode
