import NiumaTerm.ClaudeCode.TurnUsage

/-!
# Goals and checklists in a Claude log

`ProgressTracker` follows the goal and the tasks of a conversation through the records of its log.
A call of a task tool is kept until its result comes, and the result decides what becomes of the
tasks. Parsing the text of a result as JSON is a parameter, `parseText`.
-/

namespace NiumaTerm.ClaudeCode
namespace Progress

open Rust

inductive TaskStatus
  | pending
  | inProgress
  | completed
deriving DecidableEq

def TaskStatus.parse (value : Str) : Option TaskStatus :=
  if value = "pending".toList then some pending
  else if value = "in_progress".toList ∨ value = "inProgress".toList then some inProgress
  else if value = "completed".toList then some completed
  else none

structure Task where
  id : Str
  title : Str
  description : Option Str
  status : TaskStatus
  owner : Option Str
  blockedBy : List Str
deriving DecidableEq

/-- A checklist entry identified by its position. -/
def Task.indexed (index : ℕ) (title : Str) (status : TaskStatus) : Task where
  id := (Nat.repr index).toList
  title := title
  description := none
  status := status
  owner := none
  blockedBy := []

structure TaskList where
  explanation : Option Str := none
  items : List Task := []
deriving DecidableEq

structure GoalStatus where
  objective : Str
  phase : Str
  reason : Option Str
  roundsStarted : ℕ
  maxRounds : ℕ
  tokensUsed : Option ℕ
  tokenBudget : Option ℕ
  elapsedSeconds : Option ℕ
deriving DecidableEq

structure ProgressSnapshot where
  goal : Option GoalStatus := none
  tasks : TaskList := {}

inductive TaskTool
  | todoWrite
  | taskCreate
  | taskUpdate
  | taskList
  | taskGet

def TaskTool.parse (name : Str) : Option TaskTool :=
  if name = "TodoWrite".toList then some todoWrite
  else if name = "TaskCreate".toList then some taskCreate
  else if name = "TaskUpdate".toList then some taskUpdate
  else if name = "TaskList".toList then some taskList
  else if name = "TaskGet".toList then some taskGet
  else none

/-- `pending` are the calls without a result, by their ids. -/
structure ProgressTracker where
  snapshot : ProgressSnapshot := {}
  pending : List (Str × TaskTool × Json) := []

def isTrue (value : Json) : Bool := value.asBool = some true

/-- `Value::get` -/
def member : Json → String → Option Json
  | .object members, name => members.lookup name
  | _, _ => none

/-! ## Tasks -/

def Task.update (task : Task) (value : Json) : Task where
  id := task.id
  title := (value.get "subject").asStr.getD task.title
  description := (value.get "description").asStr.or task.description
  status := ((value.get "status").asStr.bind TaskStatus.parse).getD task.status
  owner := (value.get "owner").asStr.elim task.owner fun owner =>
    if owner.isEmpty then none else some owner
  blockedBy :=
    let blocked := (value.get "blockedBy").asArray.elim task.blockedBy (List.filterMap Json.asStr)
    (((value.get "addBlockedBy").asArray.getD []).filterMap Json.asStr).foldl
      (fun blocked id => if id ∈ blocked then blocked else blocked ++ [id]) blocked

/-- The first task of the id is updated; one that is not there yet is added if it has a subject. -/
def upsert (tasks : List Task) (id : Str) (value : Json) : List Task :=
  match tasks.findIdx? fun task => task.id = id with
  | some index => tasks.modify index fun task => task.update value
  | none =>
    match (value.get "subject").asStr with
    | none => tasks
    | some title =>
      tasks ++ [({ id, title, description := none, status := .pending, owner := none,
                   blockedBy := [] } : Task).update value]

def createdId (result : Json) (text : Str) : Option Str :=
  ((result.get "task").get "id").asStr.or <| (result.get "taskId").asStr.or <|
    ((text.dropPrefix? "Task #".toList).bind fun text =>
      text.dropInfix? " created successfully".toList).map Prod.fst

/-- The tasks after the result of a call. -/
def toolResult (tasks : List Task) (tool : TaskTool) (input result : Json) (text : Str) :
    List Task :=
  match tool with
  | .todoWrite =>
    match (input.get "todos").asArray with
    | none => tasks
    | some todos =>
      todos.zipIdx.filterMap fun (todo, index) =>
        (todo.get "content").asStr.bind fun content =>
          ((todo.get "status").asStr.bind TaskStatus.parse).map (Task.indexed index content)
  | .taskCreate =>
    match createdId result text with
    | none => tasks
    | some id => upsert tasks id input
  | .taskUpdate =>
    match (input.get "taskId").asStr.or ((input.get "id").asStr.or (input.get "task_id").asStr) with
    | none => tasks
    | some id =>
      if (result.get "success").asBool = some false then tasks
      else if (input.get "status").isText "deleted" then tasks.filter fun task => task.id ≠ id
      else upsert tasks id input
  | .taskList =>
    match result.asArray.or (result.get "tasks").asArray with
    | none => tasks
    | some listed =>
      let ids := listed.filterMap fun task => (task.get "id").asStr
      listed.foldl (fun tasks task =>
        match (task.get "id").asStr with
        | none => tasks
        | some id => upsert tasks id task) (tasks.filter fun task => task.id ∈ ids)
  | .taskGet =>
    let task := (member result "task").getD result
    match (task.get "id").asStr with
    | none => tasks
    | some id => upsert tasks id task

/-! ## The goal -/

/-- The goal after an attachment that reports it. -/
def goal (current : Option GoalStatus) (value : Json) : Option GoalStatus :=
  if isTrue (value.get "sentinel") && isTrue (value.get "met") then none
  else
    match (value.get "condition").asStr with
    | none => current
    | some objective =>
      let previous := current.filter fun goal => goal.objective = objective
      some
        { objective
          phase :=
            if isTrue (value.get "failed") then "failed".toList
            else if isTrue (value.get "met") then "complete".toList
            else "active".toList
          reason := (value.get "reason").asStr
          roundsStarted := (value.get "iterations").asU64.getD
            (if isTrue (value.get "sentinel") then 0
             else saturatingAdd (previous.elim 0 GoalStatus.roundsStarted) 1)
          maxRounds := 0
          tokensUsed := (value.get "tokens").asU64
          tokenBudget := none
          elapsedSeconds := (value.get "durationMs").asU64.map (· / 1000) }

/-! ## Records -/

namespace ProgressTracker

variable (parseText : Str → Option Json)

/-- One block of a message, in the record that holds it. -/
def observeBlock (record : Json) (t : ProgressTracker) (block : Json) : ProgressTracker :=
  if (block.get "type").isText "tool_use" then
    match (block.get "name").asStr.bind TaskTool.parse, (block.get "id").asStr with
    | some tool, some id =>
      { t with pending := (id, tool, block.get "input") :: t.pending.filter fun call => call.1 ≠ id }
    | _, _ => t
  else if (block.get "type").isText "tool_result" then
    match (block.get "tool_use_id").asStr with
    | none => t
    | some id =>
      match t.pending.lookup id with
      | none => t
      | some (tool, input) =>
        let t := { t with pending := t.pending.filter fun call => call.1 ≠ id }
        if isTrue (block.get "is_error") then t
        else
          let reported := (member record "toolUseResult").or (member record "tool_use_result")
          let text := (blockText (block.get "content") false).getD []
          let result := (reported.or (parseText text)).getD .null
          { t with snapshot.tasks.items :=
              toolResult t.snapshot.tasks.items tool input result text }
  else t

def observe (t : ProgressTracker) (record : Json) : ProgressTracker :=
  if isTrue (record.get "isSidechain") || !(record.get "parent_tool_use_id").isNull then t
  else
    let attachment := record.get "attachment"
    let t :=
      if (record.get "type").isText "attachment" && (attachment.get "type").isText "goal_status"
      then { t with snapshot.goal := goal t.snapshot.goal attachment }
      else t
    (((record.get "message").get "content").asArray.getD []).foldl (observeBlock parseText record) t

end ProgressTracker

end Progress
end NiumaTerm.ClaudeCode
