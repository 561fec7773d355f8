import NiumaTerm.ClaudeCode.Control

/-!
# Transcript items

`Item` is the typed view of one transcript item.  An item with an identity is updated in place: a
delta is appended to its streamed text, and the payload that completes it is merged into it
(`Item.mergeCompleted`).  An absent field of a payload keeps what streaming produced.
-/

namespace NiumaTerm.Transcript

open Rust ClaudeCode

inductive CompactionTrigger
  | automatic
  | manual
  deriving DecidableEq

structure Compaction where
  trigger : Option CompactionTrigger
  preTokens : Option ℕ
  postTokens : Option ℕ
  messagesSummarized : Option ℕ
  userContext : Option Str
  summary : Option Str
  deriving DecidableEq

inductive TaskStatus
  | pending
  | inProgress
  | completed
  deriving DecidableEq

structure Task where
  id : Str
  title : Str
  description : Option Str
  status : TaskStatus
  owner : Option Str
  blockedBy : List Str
  deriving DecidableEq

structure TaskList where
  explanation : Option Str
  items : List Task
  deriving DecidableEq

inductive Item
  | userMessage (text : Option Str)
  | agentMessage (id : Str) (text : Option Str) (questions : Option (List Question))
  | reasoning (id : Str) (summary : Option Str)
  | commandExecution (id command : Str) (purpose aggregatedOutput status : Option Str)
    (exitCode : Option ℤ)
  | fileChange (id paths : Str) (diff status : Option Str)
  | compaction (id : Str) (detail : Compaction)
  | other (id kind title : Str) (output status : Option Str)
  | error (text : Str)
  | taskList (id : Str) (tasks : TaskList)
  | sideBoundary (id instructions message : Str)
  deriving DecidableEq

namespace Item

/-- Stable provider identity for streaming updates. -/
def id : Item → Option Str
  | agentMessage id _ _ | reasoning id _ | commandExecution id _ _ _ _ _ | fileChange id _ _ _
  | compaction id _ | other id _ _ _ _ | taskList id _ | sideBoundary id _ _ => some id
  | userMessage _ | error _ => none

def text : Item → Option Str
  | userMessage text | agentMessage _ text _ => text
  | reasoning _ summary => summary
  | commandExecution _ _ _ aggregatedOutput _ _ => aggregatedOutput
  | fileChange _ _ diff _ => diff
  | compaction _ detail => detail.summary
  | other _ _ _ output _ => output
  | error text => some text
  | taskList _ _ => none
  | sideBoundary _ _ message => some message

/-- `merge_completed`, once the identities agree: fold a final payload into the item without
discarding streamed fields that the provider omitted. -/
def mergeFields : Item → Item → Option Item
  | agentMessage id text questions, agentMessage _ text' questions' =>
    some (agentMessage id (text'.or text) (questions'.or questions))
  | reasoning id summary, reasoning _ summary' =>
    some (reasoning id (if (summary.getD []).isEmpty then summary'.or summary else summary))
  | commandExecution id command purpose output status exitCode,
      commandExecution _ _ purpose' output' status' exitCode' =>
    some (commandExecution id command (purpose.or purpose') (output'.or output) (status'.or status)
      (exitCode'.or exitCode))
  | fileChange id paths diff status, fileChange _ _ diff' status' =>
    some (fileChange id paths (diff'.or diff) (status'.or status))
  | other id kind title output status, other _ _ _ output' status' =>
    some (other id kind title (output'.or output) (status'.or status))
  | compaction id _, compaction _ detail => some (compaction id detail)
  | taskList id _, taskList _ tasks => some (taskList id tasks)
  | _, _ => none

/-- `merge_completed`: none when the payload belongs to another item kind or id. -/
def mergeCompleted (item completed : Item) : Option Item :=
  if item.id.isNone || item.id != completed.id then none else item.mergeFields completed

/-- The payload has a place for an output and leaves it out. -/
def omitsOutput : Item → Bool
  | commandExecution _ _ _ output _ _ => output.isNone
  | fileChange _ _ diff _ => diff.isNone
  | other _ _ _ output _ => output.isNone
  | _ => false

end Item

/-! ## Streaming -/

/-- The provider field addressed by a streamed text update. -/
inductive TextField
  | reply
  | reasoningSummary
  | commandOutput
  deriving DecidableEq

def TextField.fits : TextField → Item → Bool
  | .reply, .agentMessage _ _ _ => true
  | .reasoningSummary, .reasoning _ _ => true
  | .commandOutput, .commandExecution _ _ _ _ _ _ => true
  | _, _ => false

/-- Append to the streamed text of an item, when it has one. -/
def Item.pushText (delta : Str) : Item → Item
  | .agentMessage id text questions => .agentMessage id (some (text.getD [] ++ delta)) questions
  | .reasoning id summary => .reasoning id (some (summary.getD [] ++ delta))
  | .commandExecution id command purpose output status exitCode =>
    .commandExecution id command purpose (some (output.getD [] ++ delta)) status exitCode
  | item => item

namespace Item

variable {item completed merged : Item}

theorem mergeFields_id (h : item.mergeFields completed = some merged) : merged.id = item.id := by
  rw [mergeFields.eq_def] at h
  split at h <;> cases h <;> rfl

/-- Merging keeps the identity. -/
theorem mergeCompleted_id (h : item.mergeCompleted completed = some merged) :
    merged.id = item.id := by
  rw [mergeCompleted] at h
  split at h
  · cases h
  · exact mergeFields_id h

/-- A payload without its output leaves the text alone. -/
theorem mergeCompleted_text (h : item.mergeCompleted completed = some merged)
    (ho : completed.omitsOutput = true) : merged.text = item.text := by
  rw [mergeCompleted] at h
  split at h
  · cases h
  rw [mergeFields.eq_def] at h
  split at h <;> cases h <;> simp_all [omitsOutput, text]

@[simp] theorem pushText_id (delta : Str) (item : Item) : (item.pushText delta).id = item.id := by
  cases item <;> rfl

theorem pushText_text {field : TextField} (delta : Str) (h : field.fits item = true) :
    (item.pushText delta).text = some (item.text.getD [] ++ delta) := by
  rw [TextField.fits.eq_def] at h
  split at h
  case h_4 => cases h
  all_goals rfl

end Item

end NiumaTerm.Transcript
