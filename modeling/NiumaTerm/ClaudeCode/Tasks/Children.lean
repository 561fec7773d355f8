import NiumaTerm.ClaudeCode.Tasks.Records

/-!
# The conversations of Claude's child agents

`ChildTranscripts` keeps the updates since the caller last took them, the tool calls that wait for their
results, and the launch instruction of a child.  Every function adds updates for one row only.
-/

namespace NiumaTerm.ClaudeCode

open Rust BackgroundTask List

/-- How items are made: the message of a user, and the items of a record given the tool calls that
are open before and after it. -/
structure ChildContent (Item : Type) where
  userMessage : Option Str → Item
  childContentItems : Json → List (Str × Item) → List Item × List (Str × Item)

structure ChildTranscripts (Item : Type) where
  pending : List (BackgroundTaskKey × BackgroundTaskTranscriptUpdate Item) := []
  openTools : List (Str × Item) := []
  /-- By the id of the row. -/
  launchPrompts : List (Str × Str) := []

namespace ChildTranscripts

variable {Item : Type} (content : ChildContent Item) (c : ChildTranscripts Item)

/-- The first message of a child; whether it is the first time. -/
def openConversation (toolUseId prompt : Str) : Bool × ChildTranscripts Item :=
  if (c.launchPrompts.lookup toolUseId).isSome then (false, c)
  else
    (true, { c with
      launchPrompts := (toolUseId, prompt) :: c.launchPrompts
      pending := c.pending ++
        [(.claudeCode toolUseId, .appended [content.userMessage (some prompt)])] })

/-- Live content of a child. -/
def push (canonical : Str) (items : List Item) : ChildTranscripts Item :=
  if items.isEmpty then c
  else { c with pending := c.pending ++ [(.claudeCode canonical, .appended items)] }

/-- History of a child. -/
def pushRestored (key : BackgroundTaskKey) (items : List Item) : ChildTranscripts Item :=
  { c with pending := c.pending ++ [(key, .restored items)] }

def drain :
    List (BackgroundTaskKey × BackgroundTaskTranscriptUpdate Item) × ChildTranscripts Item :=
  (c.pending, { c with pending := [] })

/-- Whether a text is the launch instruction that is the first message already. -/
def repeatsLaunch (canonical text : Str) : Bool :=
  (c.launchPrompts.lookup canonical).any fun prompt => trim prompt = trim text

def userText (message : Json) : Str :=
  let texts := (contentBlocks message).filter fun block => (block.get "type").isText "text"
  List.intercalate ['\n'] (texts.filterMap fun block => (block.get "text").asStr)

def sidechainItems (canonical : Str) (message : Json) : List Item × ChildTranscripts Item :=
  let text := userText message
  let asked : List Item :=
    if (message.get "type").isText "user" && !(trim text).isEmpty &&
        !c.repeatsLaunch canonical text then
      [content.userMessage (some text)]
    else []
  let (shown, openTools) := content.childContentItems message c.openTools
  (asked ++ shown, { c with openTools })

/-- What is pending for one row. -/
def transcript (id : Str) : List (BackgroundTaskTranscriptUpdate Item) :=
  (c.pending.filter fun entry => entry.1 = .claudeCode id).map Prod.snd

variable {c} {id other : Str}

/-- An update for one row is none for another. -/
theorem transcript_append_of_ne (h : id ≠ other) (update : BackgroundTaskTranscriptUpdate Item) :
    ({ c with pending := c.pending ++ [(.claudeCode other, update)] } :
      ChildTranscripts Item).transcript id = c.transcript id := by
  have hkey : BackgroundTaskKey.claudeCode other ≠ .claudeCode id := by
    intro heq
    exact h (congrArg BackgroundTaskKey.id heq).symm
  rw [transcript, transcript, filter_append, filter_cons_of_neg (by simpa using hkey),
    filter_nil, append_nil]

theorem transcript_openConversation_of_ne (h : id ≠ other) (prompt : Str) :
    (c.openConversation content other prompt).2.transcript id = c.transcript id := by
  rw [openConversation]
  split
  · rfl
  · exact transcript_append_of_ne h _

theorem transcript_push_of_ne (h : id ≠ other) (items : List Item) :
    (c.push other items).transcript id = c.transcript id := by
  rw [push]
  split
  · rfl
  · exact transcript_append_of_ne h _

theorem transcript_pushRestored_of_ne (h : id ≠ other) (items : List Item) :
    (c.pushRestored (.claudeCode other) items).transcript id = c.transcript id :=
  transcript_append_of_ne h _

end ChildTranscripts

end NiumaTerm.ClaudeCode
