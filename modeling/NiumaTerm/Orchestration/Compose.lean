import NiumaTerm.Orchestration.Graph

/-!
# The text sent for one node

`compose` fills a node's template, or lists the outputs of its dependencies under headings.  The
headings are the only place where the name of a node enters the text, so `composeWith` takes them as
a function of the node.
-/

namespace NiumaTerm.Orchestration

open Rust

/-- `outputs.get(index)?.as_deref()`. -/
def outputAt (outputs : List (Option Str)) (index : ℕ) : Option Str := outputs[index]?.join

/-- The text of one segment of a template. -/
def segmentText (g : Graph) (input : Str) (outputs : List (Option Str)) : Segment → Option Str
  | .text literal => some literal
  | .input => some input
  | .output id => do outputAt outputs (← g.nodeIndex id)

def dependencyText (heading : ℕ → Str) (outputs : List (Option Str)) (dependency : ℕ) :
    Option Str := do
  let output ← outputAt outputs dependency
  return "## ".toList ++ heading dependency ++ "\n\n".toList ++ output

/-- The prompt of a node without the role, with the given headings of dependencies. -/
def body (heading : ℕ → Str) (g : Graph) (node : ℕ) (input : Str)
    (outputs : List (Option Str)) : Option Str :=
  match g.templateAt node with
  | some template => (template.segments.mapM (segmentText g input outputs)).map List.flatten
  | none =>
    if (g.needsAt node).isEmpty then some input
    else ((g.needsAt node).mapM (dependencyText heading outputs)).map
      fun texts => ("\n\n".toList).intercalate texts

/-- `compose` with the given headings of dependencies. -/
def composeWith (heading : ℕ → Str) (g : Graph) (node : ℕ) (input : Str) (role : Option Str)
    (outputs : List (Option Str)) : Option Str := do
  let text ← body heading g node input outputs
  match role.filter fun role => !role.isEmpty with
  | some role => return role ++ "\n\n".toList ++ text
  | none => return text

/-- Build the text sent for `node`.  `outputs[i]` holds node `i`'s output once it has completed; the
answer is `none` when an output the text needs is missing. -/
def compose (g : Graph) (node : ℕ) (input : Str) (role : Option Str)
    (outputs : List (Option Str)) : Option Str :=
  composeWith g.definition.idAt g node input role outputs

end NiumaTerm.Orchestration
