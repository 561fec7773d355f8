import NiumaTerm.JsonText
import NiumaTerm.Lib.Loop

/-!
# The prompts of a Claude transcript

Which records hold something the user typed, and the title that a conversation takes from it.
-/

namespace NiumaTerm.ClaudeCode

open Rust Loop

/-- `str::find`, counted in characters. -/
def findText (text pattern : Str) : Option ℕ :=
  (List.range (text.length + 1)).find? fun start => pattern.isPrefixOf (text.drop start)

/-- `str::starts_with`, of a text without the white space it starts with. -/
def startsWithTrimmed (text : Str) (pattern : String) : Bool :=
  pattern.toList.isPrefixOf (text.dropWhile isWhitespace)

/-- Readable text of a message record. -/
def recordText (record : Json) : Option Str :=
  blockText ((record.get "message").get "content") true

/-- A record that marks where the user stopped a running turn. -/
def isInterruption (record : Json) : Bool :=
  (record.get "type").isText "user" && !(record.get "interruptedMessageId").isNull

/-- A record that reports the state of a background agent. -/
def isTaskNotification (record : Json) : Bool :=
  match ((record.get "origin").get "kind").asStr with
  | some kind => kind = "task-notification".toList
  -- older records have no origin, the block itself is the only marker
  | none => (recordText record).any fun text => startsWithTrimmed text "<task-notification>"

/-- A record that holds the summary of a compaction. -/
def isCompactionSummary (record : Json) : Bool :=
  (record.get "type").isText "user" && (record.get "isCompactSummary").asBool = some true

def compactionSummaryText (record : Json) : Option Str :=
  if isCompactionSummary record then recordText record else none

def conversationUserText (record : Json) : Option Str :=
  if !(record.get "type").isText "user" || (record.get "isMeta").asBool = some true ||
      isCompactionSummary record || isTaskNotification record || isInterruption record then none
  else recordText record

def userPromptText (record : Json) : Option Str :=
  if (record.get "isSidechain").asBool = some true then none else conversationUserText record

def REMINDER_OPEN : Str := "<system-reminder>".toList
def REMINDER_CLOSE : Str := "</system-reminder>".toList

/-- Where an injected block of context starts and where its closing tag ends. -/
def findReminder (text : Str) : Option (ℕ × ℕ) :=
  match findText text REMINDER_OPEN, findText text REMINDER_CLOSE with
  | some start, some stop =>
    if stop < start then none else some (start, stop + REMINDER_CLOSE.length)
  | _, _ => none

def reminderRound (text : Str) : Round Str Str :=
  match findReminder text with
  | some (start, stop) => .next (text.take start ++ text.drop stop)
  | none => .leave text

/-- The text without injected blocks. -/
def stripReminders (text : Str) : Str := (run reminderRound (text.length + 1) text).getD text

/-- What stands between the tags of a slash command. -/
def commandText (text : Str) (tag : String) : Option Str :=
  let openTag := ("<" ++ tag ++ ">").toList
  let closeTag := ("</" ++ tag ++ ">").toList
  match findText text openTag, findText text closeTag with
  | some start, some stop =>
    if start < stop then
      some (trim ((text.take stop).drop (start + openTag.length)))
    else none
  | _, _ => none

/-- What the user typed, without the wrappers that a prompt is stored in. -/
def cleanPrompt (text : Str) : Str :=
  let text := stripReminders text
  (["command-message", "command-name"].findSome? (commandText text)).getD (trim text)

def PROVISIONAL_TITLE_CHARS : ℕ := 60

def PROVISIONAL_TITLE_WORDS : ℕ := 6

/-- The compact title of a prompt. -/
def provisionalTitle (text : Str) (maxWords : Option ℕ) : Option Str :=
  match splitWhitespace text with
  | [] => none
  | first :: words =>
    if first.head? = some '/' then none
    else
      let kept := (first :: words).take (maxWords.getD (2 ^ 64 - 1))
      let normalized := List.intercalate [' '] kept
      if normalized.length ≤ PROVISIONAL_TITLE_CHARS then some normalized
      else
        some ((normalized.take (PROVISIONAL_TITLE_CHARS - 1)).rdropWhile isWhitespace ++ ['…'])

def provisionalTitleFromPrompt (text : Str) : Option Str :=
  provisionalTitle (cleanPrompt text) (some PROVISIONAL_TITLE_WORDS)

end NiumaTerm.ClaudeCode
