import NiumaTerm.BackgroundTask.Registry
import NiumaTerm.JsonText
import NiumaTerm.Lib.IndexMap

/-!
# Reading one record of a Claude child

The identifiers a record holds, the state it reports and the text to show, and `AliasTable`, the
identifiers that records held together: the first row of an identifier stays.
-/

namespace NiumaTerm.ClaudeCode

open Rust BackgroundTask List

/-- The names of the tools that launch a child agent. -/
def LAUNCH_TOOLS : List Str := ["Task".toList, "Agent".toList]

def AGENT_TASK_TYPE : Str := "local_agent".toList

def SHELL_TASK_TYPE : Str := "local_bash".toList

/-- The subtypes of the records of a child's lifecycle. -/
inductive LifecycleKind
  | taskStarted
  | taskProgress
  | taskNotification
  | taskUpdated

def LIFECYCLE_RECORDS : List (String × LifecycleKind) :=
  [("task_started", .taskStarted), ("task_progress", .taskProgress),
    ("task_notification", .taskNotification), ("task_updated", .taskUpdated)]

def LifecycleKind.ofSubtype (subtype : Str) : Option LifecycleKind :=
  (LIFECYCLE_RECORDS.find? fun kind => kind.1.toList = subtype).map Prod.snd

/-- Whether a lifecycle record may make a row for a child that nothing is known of. -/
def admitsNewRow (taskType : Option Str) (record : Json) : Bool :=
  if taskType = some AGENT_TASK_TYPE then true
  else if taskType = some SHELL_TASK_TYPE then (record.get "is_backgrounded").asBool.getD false
  else false

/-- A field that holds an identifier. -/
def identifier (record : Json) (key : String) : Option Str :=
  (record.get key).asStr.filter (!·.isEmpty)

def recordIdentifiers (record : Json) : List Str :=
  ["task_id", "tool_use_id", "agent_id"].foldl (fun ids key =>
    match identifier record key with
    | some id => if id ∈ ids then ids else ids ++ [id]
    | none => ids) []

def refsFrom (record : Json) : BackgroundTaskRefs :=
  .claudeCode (textField record ["task_id"]) (textField record ["tool_use_id"])
    (textField record ["agent_id"])

def STATUS_STATES : List (String × BackgroundTaskState) :=
  [("pending", .starting), ("running", .working),
    -- a paused task waits for something outside itself
    ("paused", .needsInput), ("completed", .done), ("failed", .failed), ("stopped", .stopped),
    ("killed", .stopped)]

def lifecycleState (kind : LifecycleKind) (record : Json) : Option BackgroundTaskState :=
  let named (status : Option Str) : Option BackgroundTaskState :=
    status.bind fun status =>
      (STATUS_STATES.find? fun named => named.1.toList = status).map Prod.snd
  match kind with
  | .taskStarted => some .working
  | .taskProgress => some .working
  | .taskNotification => named (record.get "status").asStr
  | .taskUpdated =>
    named (((record.get "patch").get "status").asStr.or (record.get "status").asStr)

/-- The value of a member that is there, be it `null`. -/
def memberOf : Json → String → Option Json
  | .object members, name => members.lookup name
  | _, _ => none

/-- What tells the acknowledgement of an asynchronous launch from a final result. -/
def asyncAgentResult (record : Json) : Option Json :=
  ((memberOf record "tool_use_result").or (memberOf record "toolUseResult")).filter fun result =>
    (result.get "isAsync").asBool = some true || (result.get "status").isText "async_launched"

/-- A tool result's text as it was written. -/
def resultContent (block : Json) : Option Str := blockText (block.get "content") false

def resultText (block : Json) : Option Str := (resultContent block).bind condense

def contentBlocks (message : Json) : List Json :=
  ((message.get "message").get "content").asArray.getD []

/-- One line of a child's latest record. -/
def sidechainPreview (message : Json) : Option Str :=
  (contentBlocks message).findSome? fun block =>
    let text :=
      if (block.get "type").isText "text" then (block.get "text").asStr
      else if (block.get "type").isText "thinking" then (block.get "thinking").asStr
      else if (block.get "type").isText "tool_use" then (block.get "name").asStr
      else none
    text.bind condense

/-- The guards of a tool-use block: its name and its id. -/
def toolUse (block : Json) : Option (Str × Str) :=
  if (block.get "type").isText "tool_use" then
    (block.get "name").asStr.bind fun name => (block.get "id").asStr.map fun id => (name, id)
  else none

def toolResult (block : Json) : Option Str :=
  if (block.get "type").isText "tool_result" then (block.get "tool_use_id").asStr else none

/-! ## Aliases -/

def MAX_ALIASES : ℕ := 512

/-- Identifiers and the row each of them was first recorded against. -/
abbrev AliasTable := IndexMap Str Str

namespace AliasTable

def linkOne (canonical : Str) (aliases : AliasTable) (id : Str) : AliasTable :=
  if id = canonical then aliases else aliases.keep MAX_ALIASES id canonical

/-- Record that identifiers of one record are those of one child. -/
def linkAll (aliases : AliasTable) (canonical : Str) (ids : List Str) : AliasTable :=
  ids.foldl (linkOne canonical) aliases

variable {aliases : AliasTable} {names ids : List Str} {canonical : Str}

theorem fits_linkAll (h : aliases.Fits MAX_ALIASES names) (hids : ids ⊆ names) :
    (aliases.linkAll canonical ids).Fits MAX_ALIASES names := by
  induction ids generalizing aliases with
  | nil => exact h
  | cons id rest ih =>
    obtain ⟨hid, hrest⟩ := cons_subset.mp hids
    rw [linkAll, foldl_cons]
    refine ih ?_ hrest
    rw [linkOne]
    split
    · exact h
    · exact h.keep hid

/-- **An identifier that had no row gets this one.** -/
theorem lookup_linkAll (h : aliases.Fits MAX_ALIASES names) (hids : ids ⊆ names) (x : Str) :
    (aliases.linkAll canonical ids).lookup x =
      (aliases.lookup x).or (if x ∈ ids ∧ x ≠ canonical then some canonical else none) := by
  induction ids generalizing aliases with
  | nil => simp [linkAll]
  | cons id rest ih =>
    obtain ⟨hid, hrest⟩ := cons_subset.mp hids
    have hone : (linkOne canonical aliases id).Fits MAX_ALIASES names := by
      rw [linkOne]
      split
      · exact h
      · exact h.keep hid
    have hstep : (linkOne canonical aliases id).lookup x =
        (aliases.lookup x).or (if x = id ∧ x ≠ canonical then some canonical else none) := by
      rw [linkOne]
      by_cases hself : id = canonical
      · subst hself
        rw [if_pos rfl, if_neg fun hx => hx.2 hx.1, Option.or_none]
      · rw [if_neg hself, IndexMap.lookup_keep (h.hasRoom hid)]
        by_cases hx : x = id
        · subst hx
          rw [beq_self_eq_true, if_pos rfl, if_pos ⟨rfl, hself⟩]
        · rw [beq_false_of_ne hx, if_neg Bool.false_ne_true, if_neg fun hx' => hx hx'.1]
    rw [linkAll, foldl_cons]
    change (linkAll (linkOne canonical aliases id) canonical rest).lookup x = _
    rw [ih hone hrest, hstep, Option.or_assoc]
    congr 1
    by_cases hx : x = id
    · by_cases hself : x = canonical
      · rw [if_neg fun h => h.2 hself, if_neg fun h => h.2 hself, if_neg fun h => h.2 hself]
        rfl
      · rw [if_pos ⟨hx, hself⟩, Option.some_or, if_pos ⟨mem_cons.mpr (.inl hx), hself⟩]
    · simp [hx]

end AliasTable

end NiumaTerm.ClaudeCode
