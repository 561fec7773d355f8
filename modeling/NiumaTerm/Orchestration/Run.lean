import NiumaTerm.Orchestration.Graph

/-!
# Runs

The durable state of one orchestration run.  Every transition checks the state it starts from and returns
whether it applied.  `nodeStep_perform` says once for all of them what a single node can go through
(`NodeStep`).
-/

namespace NiumaTerm.Orchestration

open Rust List

/-! ## The record -/

/-- `RunId`: a UUID. -/
structure RunId where
  uuid : ℕ
  deriving DecidableEq

inductive RunState
  | running
  /-- A node failed while others were still running. -/
  | failing
  | completed
  | failed
  | stopped
  /-- The app closed while the run was going. -/
  | interrupted
  deriving DecidableEq

namespace RunState

def isResumable : RunState → Bool
  | failed | stopped | interrupted => true
  | _ => false

def isLive : RunState → Bool
  | running | failing => true
  | _ => false

end RunState

inductive NodeState
  | waiting
  /-- Committed before the prompt is sent. -/
  | sending (epoch : ℕ)
  | accepted (epoch : ℕ) (turn : Str)
  /-- The output is saved in its own file before this state is committed. -/
  | completed (turn : Str)
  | failed (reason : Str)
  | stopped
  | interrupted
  /-- The run ended before this node started. -/
  | notRun
  deriving DecidableEq

namespace NodeState

def isInFlight : NodeState → Bool
  | sending _ | accepted _ _ => true
  | _ => false

def isCompleted : NodeState → Bool
  | completed _ => true
  | _ => false

def isFailed : NodeState → Bool
  | failed _ => true
  | _ => false

end NodeState

structure NodeRun where
  state : NodeState := .waiting
  startedAt : Option ℕ := none
  finishedAt : Option ℕ := none
  deriving DecidableEq

structure SlotRun where
  /-- The provider's conversation id once the session reports it. -/
  conversation : Option Str := none
  /-- Whether the provider accepted a turn in this conversation. -/
  opened : Bool := false
  deriving DecidableEq

structure RunRecord where
  id : RunId
  definitionName : Str
  definition : Definition
  input : Str
  workspace : AgentWorkspace
  startedAt : ℕ
  endedAt : Option ℕ
  state : RunState
  nodes : List NodeRun
  slots : List SlotRun
  deriving BEq

namespace RunRecord

def new (id : RunId) (definitionName : Str) (g : Graph) (input : Str) (workspace : AgentWorkspace)
    (now : ℕ) : RunRecord where
  id
  definitionName
  definition := g.definition
  input
  workspace
  startedAt := now
  endedAt := none
  state := .running
  nodes := replicate g.nodeCount {}
  slots := replicate g.slotCount {}

/-- `self.nodes[node]`. -/
def nodeAt (r : RunRecord) (node : ℕ) : NodeRun := r.nodes.getD node {}

/-- `self.nodes[node].state`. -/
def stateAt (r : RunRecord) (node : ℕ) : NodeState := (r.nodeAt node).state

def slotAt (r : RunRecord) (slot : ℕ) : SlotRun := r.slots.getD slot {}

def setNode (r : RunRecord) (node : ℕ) (change : NodeRun) : RunRecord :=
  { r with nodes := r.nodes.set node change }

def setSlot (r : RunRecord) (slot : ℕ) (change : SlotRun) : RunRecord :=
  { r with slots := r.slots.set slot change }

/-! ## The transitions -/

/-- `refresh_state`: recompute the run state after a node finished. -/
def refreshState (r : RunRecord) (now : ℕ) : RunRecord :=
  let failed := r.nodes.any fun node => node.state.isFailed
  let inFlight := r.nodes.any fun node => node.state.isInFlight
  if failed && inFlight then { r with state := .failing }
  else if failed then
    { r with
      nodes := r.nodes.map fun node =>
        if node.state = .waiting then { node with state := .notRun } else node
      state := .failed
      endedAt := some now }
  else if r.nodes.all fun node => node.state.isCompleted then
    { r with state := .completed, endedAt := some now }
  else r

/-- Mark `node` as being sent under session `epoch`. -/
def beginSend (r : RunRecord) (node epoch now : ℕ) : Bool × RunRecord :=
  if r.state ≠ .running ∨ r.stateAt node ≠ .waiting then (false, r)
  else (true, r.setNode node { state := .sending epoch, startedAt := some now })

/-- The provider accepted the turn sent for `node` as `turn`. -/
def accept (r : RunRecord) (g : Graph) (node epoch : ℕ) (turn : Str) : Bool × RunRecord :=
  if r.stateAt node ≠ .sending epoch then (false, r)
  else
    let slot := g.slotAt node
    (true, (r.setNode node { r.nodeAt node with state := .accepted epoch turn }).setSlot slot
      { r.slotAt slot with opened := true })

/-- The turn `node` was accepted as finished.  The caller has already saved its output. -/
def complete (r : RunRecord) (node epoch : ℕ) (turn : Str) (now : ℕ) : Bool × RunRecord :=
  if r.stateAt node ≠ .accepted epoch turn then (false, r)
  else
    (true, (r.setNode node
      { r.nodeAt node with state := .completed turn, finishedAt := some now }).refreshState now)

/-- Whether a failure reported under `epoch` is about the turn a node is waiting for; `none` stands
for a session that could not start before sending. -/
def failApplies : NodeState → Option ℕ → Bool
  | .waiting, none => true
  | .sending sent, some epoch | .accepted sent _, some epoch => sent == epoch
  | _, _ => false

def fail (r : RunRecord) (node : ℕ) (epoch : Option ℕ) (reason : Str) (now : ℕ) :
    Bool × RunRecord :=
  if !r.state.isLive || !failApplies (r.stateAt node) epoch then (false, r)
  else
    (true, (r.setNode node
      { r.nodeAt node with state := .failed reason, finishedAt := some now }).refreshState now)

def stopNode (now : ℕ) (node : NodeRun) : NodeRun :=
  if node.state.isInFlight then { node with state := .stopped, finishedAt := some now }
  else if node.state = .waiting then { node with state := .notRun }
  else node

/-- Stop the run on the user's request.  Returns the nodes whose turns were running. -/
def stop (r : RunRecord) (now : ℕ) : List ℕ × RunRecord :=
  if !r.state.isLive then ([], r)
  else
    ((List.range r.nodes.length).filter fun index => (r.stateAt index).isInFlight,
      { r with nodes := r.nodes.map (stopNode now), state := .stopped, endedAt := some now })

def interruptNode (node : NodeRun) : NodeRun :=
  if node.state.isInFlight then { node with state := .interrupted } else node

/-- Record a run reopened after the app closed while it was going. -/
def interrupt (r : RunRecord) : Bool × RunRecord :=
  if !r.state.isLive then (false, r)
  else (true, { r with nodes := r.nodes.map interruptNode, state := .interrupted })

def resumeNode (node : NodeRun) : NodeRun :=
  if node.state.isCompleted then node else {}

/-- Return every node that has not completed to waiting. -/
def resume (r : RunRecord) : Bool × RunRecord :=
  if !r.state.isResumable then (false, r)
  else (true, { r with nodes := r.nodes.map resumeNode, state := .running, endedAt := none })

/-- Save the provider conversation id `slot`'s session reported. -/
def recordConversation (r : RunRecord) (slot : ℕ) (conversation : Str) : Bool × RunRecord :=
  if (r.slotAt slot).conversation = some conversation then (false, r)
  else (true, r.setSlot slot { r.slotAt slot with conversation := some conversation })

end RunRecord

/-! ## Actions -/

/-- One call of a transition with its arguments. -/
inductive Action
  | beginSend (node epoch now : ℕ)
  | accept (node epoch : ℕ) (turn : Str)
  | complete (node epoch : ℕ) (turn : Str) (now : ℕ)
  | fail (node : ℕ) (epoch : Option ℕ) (reason : Str) (now : ℕ)
  | stop (now : ℕ)
  | interrupt
  | resume
  | recordConversation (slot : ℕ) (conversation : Str)

/-- What a transition returns. -/
inductive Report
  | applied (applied : Bool)
  | stopped (running : List ℕ)

/-- The node or slot an action names exists.  The source indexes its vectors with it and panics
otherwise. -/
def Action.InRange (g : Graph) : Action → Prop
  | .beginSend node _ _ | .accept node _ _ | .complete node _ _ _ | .fail node _ _ _ =>
    node < g.nodeCount
  | .recordConversation slot _ => slot < g.slotCount
  | _ => True

instance (g : Graph) : DecidablePred (Action.InRange g)
  | .beginSend node _ _ | .accept node _ _ | .complete node _ _ _ | .fail node _ _ _ =>
    inferInstanceAs (Decidable (node < g.nodeCount))
  | .recordConversation slot _ => inferInstanceAs (Decidable (slot < g.slotCount))
  | .stop _ | .interrupt | .resume => inferInstanceAs (Decidable True)

def RunRecord.perform (g : Graph) (r : RunRecord) : Action → Report × RunRecord
  | .beginSend node epoch now => reported (r.beginSend node epoch now)
  | .accept node epoch turn => reported (r.accept g node epoch turn)
  | .complete node epoch turn now => reported (r.complete node epoch turn now)
  | .fail node epoch reason now => reported (r.fail node epoch reason now)
  | .stop now => let (running, r') := r.stop now; (.stopped running, r')
  | .interrupt => reported r.interrupt
  | .resume => reported r.resume
  | .recordConversation slot conversation => reported (r.recordConversation slot conversation)
where
  reported (p : Bool × RunRecord) : Report × RunRecord := (.applied p.1, p.2)

/-! ## Reading a node after a change -/

namespace RunRecord

variable {r : RunRecord} {node other : ℕ}

theorem nodeAt_setNode (change : NodeRun) (h : other < r.nodes.length) :
    (r.setNode node change).nodeAt other = if node = other then change else r.nodeAt other := by
  simp only [nodeAt, setNode, getD_eq_getElem?_getD, getElem?_set]
  split
  · next he => subst he; simp [h]
  · rfl

theorem stateAt_setNode (change : NodeRun) (h : other < r.nodes.length) :
    (r.setNode node change).stateAt other
      = if node = other then change.state else r.stateAt other := by
  rw [stateAt, nodeAt_setNode change h]
  split <;> rfl

@[simp] theorem nodeAt_setSlot (slot : ℕ) (change : SlotRun) :
    (r.setSlot slot change).nodeAt node = r.nodeAt node := rfl

/-- The node at an index of mapped nodes. -/
theorem nodeAt_map (f : NodeRun → NodeRun) (h : node < r.nodes.length) :
    ((r.nodes.map f).getD node {}) = f (r.nodeAt node) := by
  simp [nodeAt, getD_eq_getElem?_getD, h]

theorem any_nodes (p : NodeState → Bool) :
    (r.nodes.any fun node => p node.state) = true ↔ ∃ node < r.nodes.length, p (r.stateAt node) := by
  rw [any_eq_true]
  constructor
  · rintro ⟨nr, hm, hp⟩
    obtain ⟨index, hi, rfl⟩ := mem_iff_getElem.mp hm
    exact ⟨index, hi, by rwa [stateAt, nodeAt, getD_eq_getElem _ _ hi]⟩
  · rintro ⟨index, hi, hp⟩
    rw [stateAt, nodeAt, getD_eq_getElem _ _ hi] at hp
    exact ⟨_, getElem_mem hi, hp⟩

theorem all_nodes (p : NodeState → Bool) :
    (r.nodes.all fun node => p node.state) = true ↔ ∀ node < r.nodes.length, p (r.stateAt node) := by
  rw [all_eq_true]
  constructor
  · intro h index hi
    rw [stateAt, nodeAt, getD_eq_getElem _ _ hi]
    exact h _ (getElem_mem hi)
  · intro h nr hm
    obtain ⟨index, hi, rfl⟩ := mem_iff_getElem.mp hm
    have := h index hi
    rwa [stateAt, nodeAt, getD_eq_getElem _ _ hi] at this

/-! ## The run state after a node finished -/

def HasFailed (r : RunRecord) : Prop := ∃ node < r.nodes.length, (r.stateAt node).isFailed = true

/-- Some node is in flight. -/
def HasInFlight (r : RunRecord) : Prop :=
  ∃ node < r.nodes.length, (r.stateAt node).isInFlight = true

/-- Every node completed. -/
def AllCompleted (r : RunRecord) : Prop :=
  ∀ node < r.nodes.length, (r.stateAt node).isCompleted = true

/-- **The four outcomes of `refresh_state`.** -/
theorem refreshState_cases (r : RunRecord) (now : ℕ) :
    (r.HasFailed ∧ r.HasInFlight ∧ r.refreshState now = { r with state := .failing }) ∨
    (r.HasFailed ∧ ¬ r.HasInFlight ∧ r.refreshState now =
      { r with
        nodes := r.nodes.map fun node =>
          if node.state = .waiting then { node with state := .notRun } else node
        state := .failed
        endedAt := some now }) ∨
    (¬ r.HasFailed ∧ r.AllCompleted ∧
      r.refreshState now = { r with state := .completed, endedAt := some now }) ∨
    (¬ r.HasFailed ∧ ¬ r.AllCompleted ∧ r.refreshState now = r) := by
  rw [HasFailed, HasInFlight, AllCompleted, ← any_nodes NodeState.isFailed,
    ← any_nodes NodeState.isInFlight, ← all_nodes NodeState.isCompleted, refreshState]
  cases hf : r.nodes.any fun node => node.state.isFailed <;>
    cases hi : r.nodes.any fun node => node.state.isInFlight <;>
    cases hc : r.nodes.all fun node => node.state.isCompleted <;> simp

theorem length_refreshState (now : ℕ) : (r.refreshState now).nodes.length = r.nodes.length := by
  rcases r.refreshState_cases now with ⟨-, -, h⟩ | ⟨-, -, h⟩ | ⟨-, -, h⟩ | ⟨-, -, h⟩ <;>
    simp [h]

/-- Settling the run touches no node, or turns the waiting ones into nodes that did not run. -/
theorem nodeAt_refreshState (now : ℕ) (h : node < r.nodes.length) :
    (r.refreshState now).nodeAt node = r.nodeAt node ∨
      (r.stateAt node = .waiting ∧ (r.refreshState now).stateAt node = .notRun) := by
  rcases r.refreshState_cases now with ⟨-, -, he⟩ | ⟨-, -, he⟩ | ⟨-, -, he⟩ | ⟨-, -, he⟩ <;> rw [he]
  · exact .inl rfl
  · simp only [stateAt]
    rw [nodeAt, nodeAt_map _ h]
    split
    · next hw => exact .inr ⟨hw, rfl⟩
    · exact .inl rfl
  · exact .inl rfl
  · exact .inl rfl

end RunRecord

/-! ## What one action does to one node -/

/-- Everything that an action can do to a node. -/
inductive NodeStep (node : ℕ) : Action → NodeRun → NodeRun → Prop
  | same {a : Action} (n : NodeRun) : NodeStep node a n n
  | sent {n n' : NodeRun} (epoch now : ℕ) (h : n.state = .waiting)
    (h' : n'.state = .sending epoch) : NodeStep node (.beginSend node epoch now) n n'
  | accepted {n n' : NodeRun} (epoch : ℕ) (turn : Str) (h : n.state = .sending epoch)
    (h' : n'.state = .accepted epoch turn) : NodeStep node (.accept node epoch turn) n n'
  | completed {n n' : NodeRun} (epoch : ℕ) (turn : Str) (now : ℕ)
    (h : n.state = .accepted epoch turn) (h' : n'.state = .completed turn) :
    NodeStep node (.complete node epoch turn now) n n'
  | failed {n n' : NodeRun} {epoch : Option ℕ} (reason : Str) (now : ℕ)
    (h : n.state = .waiting ∨ n.state.isInFlight = true) (h' : n'.state = .failed reason) :
    NodeStep node (.fail node epoch reason now) n n'
  | stopped {n n' : NodeRun} (now : ℕ) (h : n.state.isInFlight = true) (h' : n'.state = .stopped) :
    NodeStep node (.stop now) n n'
  | interrupted {n n' : NodeRun} (h : n.state.isInFlight = true) (h' : n'.state = .interrupted) :
    NodeStep node .interrupt n n'
  | notRun {a : Action} {n n' : NodeRun} (h : n.state = .waiting) (h' : n'.state = .notRun) :
    NodeStep node a n n'
  | reset {n n' : NodeRun} (h : n.state.isCompleted = false) (h' : n'.state = .waiting) :
    NodeStep node .resume n n'

namespace RunRecord

variable {g : Graph} {r : RunRecord}

theorem failApplies_cases {s : NodeState} {epoch : Option ℕ} (h : failApplies s epoch = true) :
    s = .waiting ∨ s.isInFlight = true := by
  cases s <;> cases epoch <;> simp_all [failApplies, NodeState.isInFlight]

@[simp] theorem length_setNode (node : ℕ) (change : NodeRun) :
    (r.setNode node change).nodes.length = r.nodes.length := by
  simp [setNode]

theorem length_perform (a : Action) : (r.perform g a).2.nodes.length = r.nodes.length := by
  cases a <;> simp only [perform, perform.reported]
  case beginSend => rw [beginSend]; split <;> simp
  case accept => rw [accept]; split <;> simp [setSlot]
  case complete => rw [complete]; split <;> simp [length_refreshState]
  case fail => rw [fail]; split <;> simp [length_refreshState]
  case stop => rw [stop]; split <;> simp
  case interrupt => rw [interrupt]; split <;> simp
  case resume => rw [resume]; split <;> simp
  case recordConversation => rw [recordConversation]; split <;> simp [setSlot]

/-- Setting a node is the step of that node, and settling the run may end waiting ones. -/
theorem nodeStep_refreshState {a : Action} {node other now : ℕ} {change : NodeRun}
    (ho : other < r.nodes.length) (hn : NodeStep node a (r.nodeAt node) change)
    (hw : change.state ≠ .waiting) :
    NodeStep other a (r.nodeAt other) (((r.setNode node change).refreshState now).nodeAt other) := by
  have hset : (r.setNode node change).nodeAt other = _ := nodeAt_setNode change ho
  rcases nodeAt_refreshState (r := r.setNode node change) now (by simpa using ho) with h | ⟨h, h'⟩
  · rw [h, hset]
    split
    · next he => rwa [← he]
    · exact .same _
  · rw [stateAt, hset] at h
    split at h
    · exact absurd h hw
    · exact .notRun h h'

/-- Mapping the nodes is a step of each of them. -/
theorem nodeStep_map {a : Action} {other : ℕ} (f : NodeRun → NodeRun)
    (ho : other < r.nodes.length) (hf : ∀ n, NodeStep other a n (f n)) :
    NodeStep other a (r.nodeAt other) ((r.nodes.map f).getD other {}) := by
  rw [nodeAt_map f ho]
  exact hf _

/-- **Every action is a `NodeStep` of every node.** -/
theorem nodeStep_perform (a : Action) {other : ℕ} (ho : other < r.nodes.length) :
    NodeStep other a (r.nodeAt other) ((r.perform g a).2.nodeAt other) := by
  cases a with
  | beginSend node epoch now =>
    simp only [perform, perform.reported, beginSend]
    split
    · exact .same _
    · next h =>
      rw [not_or, not_not, not_not] at h
      rw [nodeAt_setNode _ ho]
      split
      · next he => rw [← he]; exact .sent epoch now h.2 rfl
      · exact .same _
  | accept node epoch turn =>
    simp only [perform, perform.reported, accept]
    split
    · exact .same _
    · next h =>
      rw [not_not] at h
      rw [nodeAt_setSlot, nodeAt_setNode _ ho]
      split
      · next he => rw [← he]; exact .accepted epoch turn h rfl
      · exact .same _
  | complete node epoch turn now =>
    simp only [perform, perform.reported, complete]
    split
    · exact .same _
    · next h =>
      rw [not_not] at h
      exact nodeStep_refreshState ho (.completed epoch turn now h rfl) (by simp)
  | fail node epoch reason now =>
    simp only [perform, perform.reported, fail]
    split
    · exact .same _
    · next h =>
      simp only [Bool.or_eq_true, Bool.not_eq_true', not_or, Bool.not_eq_false] at h
      exact nodeStep_refreshState ho (.failed reason now (failApplies_cases h.2) rfl) (by simp)
  | stop now =>
    simp only [perform, stop]
    split
    · exact .same _
    · refine nodeStep_map (stopNode now) ho fun n => ?_
      rw [stopNode]
      split
      · next h => exact .stopped now h rfl
      · split
        · next h => exact .notRun h rfl
        · exact .same _
  | interrupt =>
    simp only [perform, perform.reported, interrupt]
    split
    · exact .same _
    · refine nodeStep_map interruptNode ho fun n => ?_
      rw [interruptNode]
      split
      · next h => exact .interrupted h rfl
      · exact .same _
  | resume =>
    simp only [perform, perform.reported, resume]
    split
    · exact .same _
    · refine nodeStep_map resumeNode ho fun n => ?_
      rw [resumeNode]
      split
      · exact .same _
      · next h => exact .reset (by simpa using h) rfl
  | recordConversation slot conversation =>
    simp only [perform, perform.reported, recordConversation]
    split <;> exact .same _

end RunRecord

/-! ## What a node step keeps -/

section

variable {node : ℕ} {a : Action} {n n' : NodeRun}

theorem NodeState.not_inFlight_of_completed {s : NodeState} (h : s.isCompleted = true) :
    s.isInFlight = false := by
  cases s <;> simp_all [isCompleted, isInFlight]

/-- A completed node never changes. -/
theorem NodeStep.eq_of_completed (h : NodeStep node a n n') (hn : n.state.isCompleted = true) :
    n' = n := by
  have hf := NodeState.not_inFlight_of_completed hn
  cases h <;> simp_all [NodeState.isCompleted]

theorem NodeStep.of_completed (h : NodeStep node a n n') (hn : n'.state.isCompleted = true) :
    n.state.isCompleted = true ∨ n.state.isInFlight = true := by
  cases h <;> simp_all [NodeState.isCompleted, NodeState.isInFlight]

theorem NodeStep.of_inFlight (h : NodeStep node a n n') (hn : n'.state.isInFlight = true) :
    n.state.isInFlight = true ∨
      (n.state = .waiting ∧ ∃ epoch now, a = .beginSend node epoch now) := by
  cases h <;> simp_all [NodeState.isInFlight]

end

end NiumaTerm.Orchestration
