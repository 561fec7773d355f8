import NiumaTerm.ClaudeCode.Tasks.Records

/-!
# Claude's background shells

What the stream has said about each background shell, and the commands of recent `Bash` calls.  Both
tables are bounded.  The reducer reads a shell's command, description and call from here when it
makes the shell's row; nothing here decides which row a record is about.
-/

namespace NiumaTerm.ClaudeCode

open Rust BackgroundTask

/-- The bound of both tables. -/
def MAX_SHELL_META : ℕ := 256

/-- The last piece of a text that ends in `name` and starts after `": "`. -/
def handoffOutputFile (text taskId : Str) : Option Str := do
  let name := taskId ++ ".output".toList
  let (before, _) ← text.dropInfix? name
  -- the search from the right is one from the left in the reversed text
  let (path, _) ← (before ++ name).reverse.dropInfix? ": ".toList.reverse
  let path := trim path.reverse
  if path.isEmpty then none else some path

structure ShellMeta where
  toolUseId : Option Str := none
  description : Option Str := none
  command : Option Str := none
  outputFile : Option Str := none

structure ShellIndex where
  /-- By task id, foreground shells included. -/
  shellMeta : IndexMap Str ShellMeta := []
  /-- Commands by the id of their `Bash` call. -/
  bashCommands : IndexMap Str Str := []

namespace ShellIndex

variable (s : ShellIndex)

def metaOf (canonical : Str) : Option ShellMeta := s.shellMeta.lookup canonical

def shellCommand (canonical : Str) : Option Str := (s.metaOf canonical).bind (·.command)

/-- Make room for a shell's entry. -/
def reserveShellMeta (taskId : Str) : ShellIndex :=
  { s with shellMeta := s.shellMeta.keep MAX_SHELL_META taskId {} }

/-- Details of a stored shell, for the fields that are not known. -/
def restore (taskId : Str) (update : BackgroundTaskUpdate) (outputFile : Option Str) : ShellIndex :=
  let s := s.reserveShellMeta taskId
  let toolUseId : Option Str :=
    match update.refs with
    | some (.claudeCode _ toolUseId _) => toolUseId
    | _ => none
  { s with shellMeta := s.shellMeta.modify taskId fun known =>
      { toolUseId := known.toolUseId.or toolUseId
        command := known.command.or update.objective
        description := known.description.or update.displayName
        outputFile := known.outputFile.or outputFile } }

/-- What a record of a shell says, whether or not the shell is in the background. -/
def rememberShell (record : Json) : ShellIndex :=
  match identifier record "task_id" with
  | none => s
  | some taskId =>
    let s := s.reserveShellMeta taskId
    let toolUseId := textField record ["tool_use_id"]
    let command := toolUseId.bind fun id => s.bashCommands.lookup id
    let description := textField record ["description"]
    { s with shellMeta := s.shellMeta.modify taskId fun known => { known with
        toolUseId := toolUseId.or known.toolUseId
        description := description.or known.description
        command := command.or known.command } }

/-- The output file that the acknowledgement of a hand-off names. -/
def rememberHandoffOutputFile (canonical : Str) (block : Json) : ShellIndex :=
  match s.metaOf canonical with
  | none => s
  | some known =>
    if known.outputFile.isSome then s
    else match (resultContent block).bind (handoffOutputFile · canonical) with
      | none => s
      | some path =>
        { s with shellMeta := s.shellMeta.modify canonical fun known =>
            { known with outputFile := some path } }

/-- The output file that a notification names, for a shell that is known by its task id. -/
def rememberOutputFile (record : Json) : ShellIndex :=
  match textField record ["output_file"], identifier record "task_id" with
  | some outputFile, some taskId =>
    { s with shellMeta := s.shellMeta.modify taskId fun known =>
        { known with outputFile := some outputFile } }
  | _, _ => s

def rememberBashCommand (toolUseId : Str) (input : Json) : ShellIndex :=
  match textField input ["command"] with
  | none => s
  | some command => { s with bashCommands := s.bashCommands.put MAX_SHELL_META toolUseId command }

end ShellIndex

end NiumaTerm.ClaudeCode
