import Std.Data.TreeMap
import NiumaTerm.AgentSpec
import NiumaTerm.Orchestration.Template

/-!
# Orchestration definitions

The decoded form of a definition file.  Decoding accepts duplicate names and values out of range,
so that validation (`Graph.new`) can report all problems of a file at once.
-/

namespace NiumaTerm.Orchestration

open Rust

/-- `DEFINITION_VERSION`: the only definition format this build reads. -/
def definitionVersion : UInt32 := 1

/-- A node's place on the canvas, in logical pixels at 100% zoom. -/
structure Position where
  x : Float32
  y : Float32
  deriving BEq

structure SlotBody where
  profile : ProfileReference
  role : Str
  settings : ThreadSettings
  deriving DecidableEq

/-- One agent conversation that nodes are sent to. -/
structure Slot where
  name : Str
  body : SlotBody
  deriving DecidableEq

structure Node where
  id : Str
  slot : Str
  needs : List Str := []
  prompt : Option Str := none
  deriving DecidableEq

/-- `BTreeMap<String, Position>`: canvas positions by node id.  Validation ignores it, and an entry
for an id that is not a node is allowed. -/
abbrev Layout := Std.TreeMap Str Position compare

structure Definition where
  version : UInt32
  maxParallel : Option UInt32
  slots : List Slot
  nodes : List Node
  layout : Layout
  deriving BEq

/-- The node ids, in file order. -/
def Definition.ids (d : Definition) : List Str := d.nodes.map Node.id

def Definition.slotNames (d : Definition) : List Str := d.slots.map Slot.name

def Definition.idAt (d : Definition) (index : ℕ) : Str := d.ids.getD index []

def Definition.slotNameAt (d : Definition) (index : ℕ) : Str :=
  (d.nodes.map Node.slot).getD index []

inductive DefinitionError
  | unsupportedVersion (version : UInt32)
  | noNodes
  | tooManyNodes (count : ℕ)
  | maxParallelOutOfRange (value : UInt32)
  | emptySlotName
  | duplicateSlot (name : Str)
  | invalidNodeId (id : Str)
  | duplicateNode (id : Str)
  | unknownSlot (node slot : Str)
  | unknownDependency (node dependency : Str)
  | repeatedDependency (node dependency : Str)
  | cycle (nodes : List Str)
  | emptyPrompt (node : Str)
  | template (node : Str) (error : TemplateError)
  | notAncestor (node reference : Str)
  | unorderedSlot (slot first second : Str)

end NiumaTerm.Orchestration
