import NiumaTerm.Orchestration.Graph

/-!
# Edits of a definition

The edits a canvas makes, and the editor that keeps their history.  An edit is applied to the
definition in memory; validation runs on the result separately, because fixing a graph can pass
through invalid states.
-/

namespace NiumaTerm.Orchestration

open Rust

inductive Edit
  /-- Place nodes; coordinates are rounded to whole pixels. -/
  | moveNodes (moves : List (Str × Position))
  | addNode (id slot : Str) (position : Position)
  | removeNodes (ids : List Str)
  /-- Make `target` depend on `source`. -/
  | connect (source target : Str)
  | disconnect (source target : Str)
  | setNode (id slot : Str) (prompt : Option Str)
  | renameNode (old new : Str)
  | addSlot (name : Str) (profile : ProfileReference)
  | removeSlot (name : Str)
  | setSlot (name : Str) (body : SlotBody)
  | renameSlot (old new : Str)
  | setMaxParallel (value : Option UInt32)

def round (position : Position) : Position := ⟨position.x.round, position.y.round⟩

/-- Change the first element that `p` holds of; `none` when there is none. -/
def changeFirst {α : Type*} (p : α → Bool) (f : α → α) (l : List α) : Option (List α) :=
  (l.findIdx? p).map fun index => l.modify index f

def changeNode (d : Definition) (id : Str) (f : Node → Node) : Bool × Definition :=
  match changeFirst (fun node => node.id = id) f d.nodes with
  | some nodes => (true, { d with nodes })
  | none => (false, d)

/-- The new id of a node, wherever the old one stands. -/
def renameId (old new id : Str) : Str := if id = old then new else id

/-- A prompt whose template reads the output of the renamed node is printed again; one that does not
parse is left as written. -/
def renamePrompt (old new prompt : Str) : Str :=
  match Template.parse prompt with
  | .ok template =>
    let (changed, template) := template.renameOutput old new
    if changed then template.toSource else prompt
  | .error _ => prompt

/-- The dependencies and the prompt of one node. -/
def renameInNode (old new : Str) (node : Node) : Node :=
  { node with
    needs := node.needs.map (renameId old new)
    prompt := node.prompt.map (renamePrompt old new) }

/-- The layout entry moves along. -/
def renameLayout (old new : Str) (layout : Layout) : Layout :=
  match layout[old]? with
  | some position => (layout.erase old).insert new position
  | none => layout

/-- `rename_node`: rename a node in its own id, every dependency list, the layout, and every template
that reads its output. -/
def renameNode (d : Definition) (old new : Str) : Bool × Definition :=
  if old = new ∨ d.nodes.any fun node => node.id = new then (false, d)
  else
    match changeFirst (fun node => node.id = old) (fun node => { node with id := new }) d.nodes with
    | none => (false, d)
    | some nodes =>
      (true, { d with
        nodes := nodes.map (renameInNode old new)
        layout := renameLayout old new d.layout })

/-- `apply`: the edited definition, and whether the edit applied. -/
def Edit.applyTo (d : Definition) : Edit → Bool × Definition
  | .moveNodes moves =>
    (true, { d with
      layout := moves.foldl (fun layout (id, position) =>
        if d.nodes.any fun node => node.id = id then layout.insert id (round position)
        else layout) d.layout })
  | .addNode id slot position =>
    if d.nodes.any fun node => node.id = id then (false, d)
    else
      (true, { d with
        layout := d.layout.insert id (round position)
        nodes := d.nodes ++ [{ id, slot }] })
  | .removeNodes ids =>
    (true, { d with
      nodes := (d.nodes.filter fun node => node.id ∉ ids).map fun node =>
        { node with needs := node.needs.filter fun dependency => dependency ∉ ids }
      layout := d.layout.filter fun id _ => id ∉ ids })
  | .connect source target =>
    if !d.nodes.any fun node => node.id = source then (false, d)
    else changeNode d target fun node =>
      if source ∈ node.needs then node else { node with needs := node.needs ++ [source] }
  | .disconnect source target => changeNode d target fun node =>
      { node with needs := node.needs.filter fun dependency => dependency ≠ source }
  | .setNode id slot prompt => changeNode d id fun node => { node with slot, prompt }
  | .renameNode old new => Orchestration.renameNode d old new
  | .addSlot name profile =>
    if d.slots.any fun slot => slot.name = name then (false, d)
    else (true, { d with slots := d.slots ++ [⟨name, ⟨profile, [], {}⟩⟩] })
  | .removeSlot name =>
    let slots := d.slots.filter fun slot => slot.name ≠ name
    (slots.length != d.slots.length, { d with slots })
  | .setSlot name body =>
    match changeFirst (fun slot => slot.name = name) (fun slot => { slot with body }) d.slots with
    | some slots => (true, { d with slots })
    | none => (false, d)
  | .renameSlot old new =>
    if d.slots.any fun slot => slot.name = new then (false, d)
    else
      match changeFirst (fun slot => slot.name = old) (fun slot => { slot with name := new })
        d.slots with
      | none => (false, d)
      | some slots =>
        (true, { d with
          slots
          nodes := d.nodes.map fun node =>
            if node.slot = old then { node with slot := new } else node })
  | .setMaxParallel value => (true, { d with maxParallel := value })

/-! ## The editor -/

/-- A definition being edited, its undo history, and the version last read from or written to its
file. -/
structure Editor where
  definition : Definition
  history : List Definition
  future : List Definition
  saved : Definition

namespace Editor

def opened (definition : Definition) : Editor :=
  { definition, history := [], future := [], saved := definition }

/-- Whether the definition differs from the file's version. -/
def isDirty (e : Editor) : Bool := e.definition != e.saved

/-- Every problem the edited definition has. -/
def errors (e : Editor) : List DefinitionError :=
  match Graph.new e.definition with
  | .ok _ => []
  | .error errors => errors

/-- Apply an edit.  An edit that changes nothing leaves the history alone. -/
def edit (e : Editor) (change : Edit) : Bool × Editor :=
  let (applied, next) := change.applyTo e.definition
  if !applied || next == e.definition then (false, e)
  else (true, { e with definition := next, history := e.history ++ [e.definition], future := [] })

def undo (e : Editor) : Bool × Editor :=
  match e.history.getLast? with
  | none => (false, e)
  | some previous => (true, { e with
      definition := previous
      history := e.history.dropLast
      future := e.future ++ [e.definition] })

def redo (e : Editor) : Bool × Editor :=
  match e.future.getLast? with
  | none => (false, e)
  | some next => (true, { e with
      definition := next
      history := e.history ++ [e.definition]
      future := e.future.dropLast })

/-- `written` is now the file's version. -/
def markSaved (e : Editor) (written : Definition) : Editor := { e with saved := written }

/-- Replace everything with the file's definition. -/
def reload (_ : Editor) (definition : Definition) : Editor := opened definition

end Editor

end NiumaTerm.Orchestration
