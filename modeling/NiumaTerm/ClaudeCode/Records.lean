import NiumaTerm.JsonText
import NiumaTerm.Transcript.Item

/-!
# Reading Claude records

What the live protocol and a stored conversation have in common: the items of tool calls, the
metadata of a compaction, notices about the model, and the messages that a record withdraws.
-/

namespace NiumaTerm.ClaudeCode

open Rust Transcript

/-- `str::lines`. -/
def textLines (text : Str) : List Str :=
  let parts := text.splitOn '\n'
  let ended := parts.dropLast.map fun line =>
    if line.getLast? = some '\r' then line.dropLast else line
  match parts.getLast? with
  | some [] | none => ended
  | some rest => ended ++ [rest]

/-- The body of a file-change card from whole texts. -/
def diffLines (removed added : Str) : Str :=
  ((textLines removed).flatMap fun line => '-' :: line ++ ['\n']) ++
    (textLines added).flatMap fun line => '+' :: line ++ ['\n']

/-! ## Compactions -/

/-- The metadata of a boundary, under either key. -/
def compactionMetadata (record : Json) : Json :=
  match record.get "compact_metadata" with
  | .object members => .object members
  | _ => record.get "compactMetadata"

def tokenCount (metadata : Json) (snake camel : String) : Option ℕ :=
  (metadata.get snake).asU64.or (metadata.get camel).asU64

/-- A text under either key, unless it is blank. -/
def textUnder (metadata : Json) (snake camel : String) : Option Str :=
  (((metadata.get snake).asStr.or (metadata.get camel).asStr).map trim).filter (!·.isEmpty)

def parseCompaction (metadata : Json) : Compaction where
  trigger :=
    if (metadata.get "trigger").isText "auto" then some .automatic
    else if (metadata.get "trigger").isText "manual" then some .manual
    else none
  preTokens := tokenCount metadata "pre_tokens" "preTokens"
  postTokens := tokenCount metadata "post_tokens" "postTokens"
  messagesSummarized := tokenCount metadata "messages_summarized" "messagesSummarized"
  userContext := textUnder metadata "user_context" "userContext"
  summary := none

/-! ## Tool calls -/

/-- Detail that the input of a call shows better than its result. -/
def inputDetail (name : Str) (input : Json) : Option Str :=
  if name = "TodoWrite".toList then
    (input.get "todos").asArray.map fun todos =>
      List.intercalate ['\n'] (todos.filterMap fun todo =>
        (todo.get "content").asStr.map fun content =>
          let mark := if (todo.get "status").isText "completed" then 'x' else ' '
          "- [".toList ++ [mark] ++ "] ".toList ++ content)
  else if name = "ExitPlanMode".toList then (input.get "plan").asStr
  else none

def editDiff (name : Str) (input : Json) : Option Str :=
  let textOf (key : String) : Str := (input.get key).asStr.getD []
  let sides : Option (Str × Str) :=
    if name = "Edit".toList then some (textOf "old_string", textOf "new_string")
    else if name = "Write".toList then some ([], textOf "content")
    else if name = "NotebookEdit".toList then some ([], textOf "new_source")
    else none
  sides.bind fun (removed, added) =>
    if removed.isEmpty && added.isEmpty then none else some (diffLines removed added)

def toolTitle (input : Json) : Str :=
  (["description", "file_path", "pattern", "query", "url", "path", "prompt", "skill"].findSome?
    fun key => (input.get key).asStr.filter fun value => !value.isEmpty).getD []

def toolItem (id name : Str) (input : Json) : Item :=
  let status := some "inProgress".toList
  if name = "Bash".toList then
    .commandExecution id ((input.get "command").asStr.getD [])
      ((input.get "description").asStr.filter fun text => !(trim text).isEmpty) none status none
  else if name = "Edit".toList ∨ name = "Write".toList ∨ name = "NotebookEdit".toList then
    .fileChange id ((input.get "file_path").asStr.getD "(unknown file)".toList)
      (editDiff name input) status
  else .other id name (toolTitle input) (inputDetail name input) status

/-- The item of a call whose result has come. -/
def completeToolItem (started : Item) (result : Json) : Item :=
  let failed := (result.get "is_error").asBool.getD false
  let status := some (if failed then "failed" else "completed").toList
  let output := (blockText (result.get "content") false).getD []
  match started with
  | .commandExecution id command purpose _ _ _ =>
    .commandExecution id command purpose (some output) status none
  | .fileChange id paths diff _ => .fileChange id paths diff status
  | .other id kind title seeded _ => .other id kind title (seeded.or (some output)) status
  | item => item

/-! ## Blocks and notices -/

inductive AssistantBlock
  | text (text : Str)
  | thinking (summary : Str)
  | toolUse (id : Str) (item : Item)

def assistantBlock (block : Json) : Option AssistantBlock :=
  let kind := block.get "type"
  if kind.isText "text" then some (.text (trim ((block.get "text").asStr.getD [])))
  else if kind.isText "thinking" then
    some (.thinking (trim ((block.get "thinking").asStr.getD [])))
  else if ["tool_use", "server_tool_use", "mcp_tool_use"].any kind.isText then
    (block.get "id").asStr.map fun id =>
      .toolUse id (toolItem id ((block.get "name").asStr.getD "tool".toList) (block.get "input"))
  else none

/-- Whether an assistant message wraps an API failure. -/
def isApiError (message : Json) : Bool :=
  (message.get "is_api_error_message").asBool = some true ||
    (message.get "isApiErrorMessage").asBool = some true

/-- The uuids of the messages that a record withdraws, each once. -/
def retractedMessageUuids (record : Json) : List Str :=
  let listed := ["retracted_message_uuids", "retractedMessageUuids", "supersedes_uuids",
    "supersedesUuids"].flatMap fun key => ((record.get key).asArray.getD []).filterMap Json.asStr
  (listed.filter (!·.isEmpty)).reverse.dedup.reverse

def MODEL_NOTICES : List (String × String) :=
  [("model_refusal_fallback", "Model changed after refusal"), ("model_fallback", "Model fallback"),
    ("model_consent_fallback", "Model changed after consent")]

/-- What a notice says, when it does not say it itself. -/
def noticeText (record : Json) : Str :=
  let original := textUnder record "original_model" "originalModel"
  let fallback := textUnder record "fallback_model" "fallbackModel"
  let (previous, current) :=
    if (record.get "direction").isText "revert" then (fallback, original) else (original, fallback)
  match previous, current with
  | some previous, some current =>
    "Model changed from ".toList ++ previous ++ " to ".toList ++ current ++ ".".toList
  | none, some current => "Model changed to ".toList ++ current ++ ".".toList
  | _, none => "Claude changed the active model.".toList

/-- The row of a change of the model; `newUuid` is drawn for a record without a uuid. -/
def modelNotice (newUuid : Str) (record : Json) : Option Item :=
  if !(record.get "type").isText "system" then none
  else
    (MODEL_NOTICES.find? fun notice => (record.get "subtype").isText notice.1).map fun notice =>
      let output := ((record.get "content").asStr.filter fun content =>
        !(trim content).isEmpty).getD (noticeText record)
      .other ("model-notice-".toList ++ (record.get "uuid").asStr.getD newUuid) notice.1.toList
        notice.2.toList (some output) (some "completed".toList)

end NiumaTerm.ClaudeCode
