import NiumaTerm.Orchestration.Definition
import NiumaTerm.Orchestration.Relations

/-!
# Graphs

`Graph.new` validates a definition and precomputes the relations the scheduler and the composer read.
The errors of each check are a list of their own, in the order the source pushes them; checks that need
the dependency order run only when the dependencies are sound.
-/

namespace NiumaTerm.Orchestration

open Rust

def defaultMaxParallel : ℕ := 3

def maxParallelRange : UInt32 × UInt32 := (1, 8)

/-! ## Indexing names -/

/-- `BTreeMap<&str, usize>`: where a name was declared last. -/
abbrev Index := Std.TreeMap Str ℕ compare

/-- The loop of `index_slots` and `index_nodes`: `check` gives the errors of one name and
`duplicate` the error of a name that is already indexed. -/
def indexNames (check : Str → List DefinitionError) (duplicate : Str → DefinitionError) :
    ℕ → List Str → Index → Index × List DefinitionError
  | _, [], names => (names, [])
  | index, name :: rest, names =>
    let errors := check name ++ if names.contains name then [duplicate name] else []
    let (all, more) := indexNames check duplicate (index + 1) rest (names.insert name index)
    (all, errors ++ more)

/-- An empty name is still indexed, so nodes that use the slot are not also reported as naming an
unknown slot. -/
def indexSlots (d : Definition) : Index × List DefinitionError :=
  indexNames (fun name => if name.isEmpty then [.emptySlotName] else []) .duplicateSlot 0
    d.slotNames ∅

def indexNodes (d : Definition) : Index × List DefinitionError :=
  let (nodes, errors) := indexNames
    (fun id => if !isNodeId id then [.invalidNodeId id] else []) .duplicateNode 0 d.ids ∅
  (nodes, (if d.nodes.isEmpty then [.noNodes] else []) ++
    (if d.nodes.length > maxNodes then [.tooManyNodes d.nodes.length] else []) ++ errors)

/-! ## One node -/

/-- What the dependencies of one node were resolved to. -/
structure Resolution where
  indices : List ℕ := []
  errors : List DefinitionError := []
  resolved : Bool := true

def resolveDependency (nodes : Index) (id : Str) (r : Resolution) (dependency : Str) : Resolution :=
  match nodes[dependency]? with
  | some index =>
    if index ∈ r.indices then
      { r with errors := r.errors ++ [.repeatedDependency id dependency] }
    else { r with indices := r.indices ++ [index] }
  | none => { r with errors := r.errors ++ [.unknownDependency id dependency], resolved := false }

def resolveNeeds (nodes : Index) (node : Node) : Resolution :=
  node.needs.foldl (resolveDependency nodes node.id) {}

def resolvePrompt (node : Node) : Option Template × List DefinitionError :=
  match node.prompt with
  | none => (none, [])
  | some prompt =>
    if (trim prompt).isEmpty then (none, [.emptyPrompt node.id])
    else
      match Template.parse prompt with
      | .ok template => (some template, [])
      | .error error => (none, [.template node.id error])

/-- What one round of the loop over the nodes pushes.  A `slot` of `none` is the marker
`usize::MAX` of the source. -/
structure ResolvedNode where
  slot : Option ℕ
  needs : List ℕ
  template : Option Template
  errors : List DefinitionError
  resolved : Bool

def resolveNode (slots nodes : Index) (node : Node) : ResolvedNode :=
  let slot := slots[node.slot]?
  let dependencies := resolveNeeds nodes node
  let (template, promptErrors) := resolvePrompt node
  { slot
    needs := dependencies.indices
    template
    errors := (if slot.isNone then [.unknownSlot node.id node.slot] else []) ++
      dependencies.errors ++ promptErrors
    resolved := dependencies.resolved }

/-! ## Validation -/

/-- A definition that passed validation, with its relations.  Node and slot indices follow the
order of the definition. -/
structure Graph where
  definition : Definition
  slotOf : List (Option ℕ)
  needs : List (List ℕ)
  relations : Relations
  templates : List (Option Template)
  order : List ℕ

def versionErrors (d : Definition) : List DefinitionError :=
  if d.version ≠ definitionVersion then [.unsupportedVersion d.version] else []

def maxParallelErrors (d : Definition) : List DefinitionError :=
  match d.maxParallel with
  | some value =>
    if ¬ (maxParallelRange.1 ≤ value ∧ value ≤ maxParallelRange.2) then
      [.maxParallelOutOfRange value]
    else []
  | none => []

/-- The outputs that the template of the node at `index` reads although they are not outputs of an
ancestor. -/
def ancestryErrors (d : Definition) (nodes : Index) (relations : Relations) (index : ℕ)
    (template : Option Template) : List DefinitionError :=
  match template with
  | none => []
  | some template => template.outputs.flatMap fun reference =>
    if nodes[reference]?.any fun other => relations.hasAncestor other index then []
    else [.notAncestor (d.idAt index) reference]

/-- The error of two nodes that share a slot although neither depends on the other. -/
def slotOrderErrors (d : Definition) (slotOf : List (Option ℕ)) (relations : Relations)
    (first second : ℕ) : List DefinitionError :=
  let ordered := relations.hasAncestor first second || relations.hasAncestor second first
  let slot := slotOf.getD first none
  if slot = slotOf.getD second none ∧ slot ≠ none ∧ ordered = false then
    [.unorderedSlot (d.slotNameAt first) (d.idAt first) (d.idAt second)]
  else []

/-- The errors that are found before the dependencies are ordered, and what they leave behind. -/
structure Resolved where
  slots : Index
  nodes : Index
  resolved : List ResolvedNode
  errors : List DefinitionError

def Resolved.of (d : Definition) : Resolved :=
  let (slots, slotErrors) := indexSlots d
  let (nodes, nodeErrors) := indexNodes d
  let resolved := d.nodes.map (resolveNode slots nodes)
  { slots, nodes, resolved
    errors := versionErrors d ++ maxParallelErrors d ++ slotErrors ++ nodeErrors ++
      resolved.flatMap ResolvedNode.errors }

/-- The errors that need the dependency order. -/
def orderErrors (d : Definition) (r : Resolved) (relations : Relations) : List DefinitionError :=
  ((r.resolved.map ResolvedNode.template).zipIdx.flatMap fun (template, index) =>
      ancestryErrors d r.nodes relations index template) ++
    (List.range d.nodes.length).flatMap fun first =>
      (List.range' (first + 1) (d.nodes.length - (first + 1))).flatMap fun second =>
        slotOrderErrors d (r.resolved.map ResolvedNode.slot) relations first second

namespace Graph

/-- `Graph::new`.  Duplicate node ids make every index ambiguous, and an oversized graph does not
fit the ancestor bitmask, so both end the validation before the dependencies are ordered. -/
def new (d : Definition) : Except (List DefinitionError) Graph :=
  let r := Resolved.of d
  let needs := r.resolved.map ResolvedNode.needs
  let unique := r.nodes.size = d.nodes.length
  let fits := d.nodes.length ≤ maxNodes
  if ¬ (r.resolved.all ResolvedNode.resolved ∧ unique ∧ fits) then .error r.errors
  else
    match topologicalOrder needs with
    | .error cycle => .error (r.errors ++ [.cycle (cycle.map d.idAt)])
    | .ok order =>
      let relations := Relations.of needs order
      let errors := r.errors ++ orderErrors d r relations
      if !errors.isEmpty then .error errors
      else
        .ok { definition := d
              slotOf := r.resolved.map ResolvedNode.slot
              needs, relations
              templates := r.resolved.map ResolvedNode.template
              order }

def nodeCount (g : Graph) : ℕ := g.definition.nodes.length

def slotCount (g : Graph) : ℕ := g.definition.slots.length

def maxParallel (g : Graph) : ℕ :=
  g.definition.maxParallel.elim defaultMaxParallel UInt32.toNat

/-- `Graph::slot_of`.  No node of a graph is without a slot (`Sound.slot`). -/
def slotAt (g : Graph) (node : ℕ) : ℕ := (g.slotOf.getD node none).getD 0

/-- `Graph::needs`: the node's dependencies, in the order the definition lists them. -/
def needsAt (g : Graph) (node : ℕ) : List ℕ := needsOf g.needs node

def isAncestor (g : Graph) (ancestor node : ℕ) : Bool := g.relations.hasAncestor ancestor node

/-- `Graph::template`. -/
def templateAt (g : Graph) (node : ℕ) : Option Template := g.templates.getD node none

/-- `Graph::depth`. -/
def depthAt (g : Graph) (node : ℕ) : ℕ := g.relations.depthAt node

def nodeIndex (g : Graph) (id : Str) : Option ℕ := g.definition.nodes.findIdx? (·.id = id)

/-- Whether some node's prompt contains the run input. -/
def usesInput (g : Graph) : Bool :=
  (List.range g.nodeCount).any fun node =>
    match g.templateAt node with
    | some template => template.usesInput
    | none => (g.needsAt node).isEmpty

end Graph

end NiumaTerm.Orchestration
