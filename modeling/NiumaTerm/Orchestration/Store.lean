import NiumaTerm.Orchestration.Compose
import NiumaTerm.Orchestration.Run
import NiumaTerm.Orchestration.Validation
import NiumaTerm.SnapshotStore

/-!
# Saved runs

`RunStore` keeps a run's record as a snapshot, and each node's prompt, output and transcript as files
that are written before it.  `saving` is the system that performs a run's writes one by one, each
succeeding or failing, and that may stop between any two and open the run again.  `OutputsSaved`: each
node shown completed has its output file.
-/

namespace NiumaTerm.Orchestration

open Rust Transition Durable List

def runFormat : SnapshotFormat where
  file := "run.json".toList
  field := "run".toList
  version := 1

def promptsDirectory : Str := "prompts".toList

def outputsDirectory : Str := "outputs".toList

def transcriptsDirectory : Str := "transcripts".toList

inductive RunStoreError
  | snapshot (error : SnapshotError)
  | io
  | json
  | identityChanged
  | definitionChanged

instance : FromSnapshot RunStoreError := ⟨.snapshot⟩

/-- One run's directory: the snapshot and the other files, by their path in it. -/
structure RunStore (J : Serde RunRecord) where
  storage : Storage J
  files : Str → Option Str

/-- `node_file`: node ids name the files directly. -/
def nodeFile (d : Definition) (directory : Str) (node : ℕ) (extension : Str) : Str :=
  directory ++ "/".toList ++ d.idAt node ++ ".".toList ++ extension

def outputFile (d : Definition) (node : ℕ) : Str := nodeFile d outputsDirectory node "md".toList

/-- `durable_file::write` of one text file. -/
def writeFile (files : Str → Option Str) (path text : Str) (outcome : WriteOutcome) :
    Except RunStoreError Unit × (Str → Option Str) :=
  match outcome with
  | .done => (.ok (), Function.update files path (some text))
  | .failed true => (.error .io, Function.update files path (some text))
  | .failed false => (.error .io, files)

namespace RunStore

variable {J : Serde RunRecord} {α : Type}

def run (s : RunStore J) : RunRecord := s.storage.store.value

def create (J : Serde RunRecord) (run : RunRecord) (outcome : WriteOutcome) :
    Except RunStoreError (RunStore J) :=
  match createStore J runFormat run outcome with
  | .error e => .error (.snapshot e)
  | .ok storage => .ok { storage, files := fun _ => none }

/-- `RunStore::open`, after the process that owned the directory has ended. -/
def reopen (s : RunStore J) (id : RunId) : Except RunStoreError (RunStore J) :=
  match openStore J runFormat s.storage.file with
  | .error e => .error (.snapshot e)
  | .ok store =>
    if store.value.id ≠ id then .error .identityChanged
    else .ok { s with storage := { s.storage with store } }

/-- The check of `update`. -/
def sameRun (previous next : RunRecord) : Except RunStoreError Unit :=
  if previous.id == next.id && previous.definition == next.definition && previous.input == next.input
  then .ok ()
  else .error .definitionChanged

/-- The commit of `update`. -/
def updating (s : RunStore J) (change : RunRecord → α × RunRecord) (outcome : WriteOutcome) :
    Commit RunRecord RunStoreError :=
  { next := (change s.run).2, check := sameRun, write := outcome }

/-- Apply a change to a copy of the run and save the copy. -/
def update (s : RunStore J) (change : RunRecord → α × RunRecord) (outcome : WriteOutcome) :
    Except RunStoreError α × RunStore J :=
  match s.storage.commit runFormat (s.updating change outcome) with
  | (.error e, storage) => (.error e, { s with storage })
  | (.ok (), storage) => (.ok (change s.run).1, { s with storage })

theorem update_snd (s : RunStore J) (change : RunRecord → α × RunRecord) (outcome : WriteOutcome) :
    (s.update change outcome).2 =
      { s with storage := (s.storage.commit runFormat (s.updating change outcome)).2 } := by
  rw [update]
  split
  · next hc => rw [hc]
  · next hc => rw [hc]

/-- The three `save_` functions: replace one file of a node. -/
def saveFile (s : RunStore J) (directory : Str) (node : ℕ) (extension text : Str)
    (outcome : WriteOutcome) : Except RunStoreError Unit × RunStore J :=
  let (result, files) :=
    writeFile s.files (nodeFile s.run.definition directory node extension) text outcome
  (result, { s with files })

def savePrompt (s : RunStore J) (node : ℕ) (text : Str) (outcome : WriteOutcome) :
    Except RunStoreError Unit × RunStore J :=
  s.saveFile promptsDirectory node "md".toList text outcome

def saveOutput (s : RunStore J) (node : ℕ) (text : Str) (outcome : WriteOutcome) :
    Except RunStoreError Unit × RunStore J :=
  s.saveFile outputsDirectory node "md".toList text outcome

def saveTranscript (s : RunStore J) (node : ℕ) (items : Str) (outcome : WriteOutcome) :
    Except RunStoreError Unit × RunStore J :=
  s.saveFile transcriptsDirectory node "json".toList items outcome

/-- `output`: a node's output when the run records it as completed. -/
def output (s : RunStore J) (node : ℕ) : Option Str :=
  if !(s.run.stateAt node).isCompleted then none else s.files (outputFile s.run.definition node)

end RunStore

/-! ## The app's jobs -/

/-- One write of a job. -/
inductive Task
  | savePrompt (node : ℕ) (text : Str)
  | saveOutput (node : ℕ) (text : Str)
  | saveTranscript (node : ℕ) (items : Str)
  | update (action : Action)

/-- One closure the app hands to the store, with what it captures. -/
inductive Job
  /-- The run was opened. -/
  | opened
  /-- What a look at the sessions found: conversations by slot, and nodes to fail. -/
  | pump (conversations : List (ℕ × Str)) (failures : List (ℕ × Option ℕ × Str)) (now : ℕ)
  /-- A node that can go, with the role text when the conversation is new. -/
  | send (node epoch : ℕ) (role : Option Str) (now : ℕ)
  | submitFailed (node epoch : ℕ) (reason : Str) (now : ℕ)
  | accepted (node epoch : ℕ) (turn : Str)
  /-- The provider reported the end of a turn. -/
  | finished (node epoch : ℕ) (turn : Str) (error : Option Str) (text items : Str) (now : ℕ)
  | stop (captured : List (ℕ × Str)) (now : ℕ)
  | resume

section

variable {J : Serde RunRecord}

/-- The nodes whose outputs the text of a node reads. -/
def readNodes (g : Graph) (node : ℕ) : List ℕ :=
  g.needsAt node ++
    match g.templateAt node with
    | none => []
    | some template => template.outputs.filterMap g.nodeIndex

/-- The outputs handed to `compose`. -/
def readOutputs (g : Graph) (s : RunStore J) (node : ℕ) : List (Option Str) :=
  (List.range g.nodeCount).map fun index =>
    if index ∈ readNodes g node then s.output index else none

/-- The writes of a job, in order.  A read of the store that fails ends the job before them. -/
def Job.tasks (g : Graph) (s : RunStore J) : Job → List Task
  | opened => [.update .interrupt]
  | pump conversations failures now =>
    (conversations.map fun (slot, conversation) => .update (.recordConversation slot conversation)) ++
      failures.map fun (node, epoch, reason) => .update (.fail node epoch reason now)
  | send node epoch role now =>
    match compose g node s.run.input role (readOutputs g s node) with
    | none => []
    | some text => [.savePrompt node text, .update (.beginSend node epoch now)]
  | submitFailed node epoch reason now => [.update (.fail node (some epoch) reason now)]
  | accepted node epoch turn => [.update (.accept node epoch turn)]
  | finished node epoch turn error text items now =>
    .saveTranscript node items ::
      match error with
      | some reason => [.update (.fail node (some epoch) reason now)]
      | none => [.saveOutput node text, .update (.complete node epoch turn now)]
  | stop captured now =>
    (captured.map fun (node, items) => .saveTranscript node items) ++ [.update (.stop now)]
  | resume => [.update .resume]

def Task.perform (g : Graph) (s : RunStore J) (outcome : WriteOutcome) :
    Task → Except RunStoreError Unit × RunStore J
  | savePrompt node text => s.savePrompt node text outcome
  | saveOutput node text => s.saveOutput node text outcome
  | saveTranscript node items => s.saveTranscript node items outcome
  | update action =>
    match s.update (fun r => r.perform g action) outcome with
    | (.error e, s) => (.error e, s)
    | (.ok _, s) => (.ok (), s)

/-- The store and the rest of the job that works on it. -/
structure Saving (J : Serde RunRecord) where
  store : RunStore J
  job : List Task

inductive SavingLabel
  | start (job : Job)
  | write (outcome : WriteOutcome)
  /-- The process ended, and the run is opened again. -/
  | reopen (id : RunId)

def Saving.step (g : Graph) (s : Saving J) : SavingLabel → Option (Saving J)
  | .start job =>
    match s.job with
    | [] => some { s with job := job.tasks g s.store }
    | _ :: _ => none
  | .write outcome =>
    match s.job with
    | [] => none
    | task :: rest =>
      match task.perform g s.store outcome with
      | (.error _, store) => some { store, job := [] }
      | (.ok (), store) => some { store, job := rest }
  | .reopen id =>
    match s.store.reopen id with
    | .error _ => none
    | .ok store => some { store, job := Job.opened.tasks g store }

/-- A run from its creation on, its writes one by one. -/
def saving (J : Serde RunRecord) (g : Graph) : System (Saving J) SavingLabel where
  init s := s.job = [] ∧ ∃ id name input workspace now outcome,
    RunStore.create J (RunRecord.new id name g input workspace now) outcome = .ok s.store
  step s label s' := s.step g label = some s'

end

/-! ## Every completed node has its output -/

section

variable {J : Serde RunRecord} {g : Graph} {d : Definition} {files files' : Str → Option Str}

/-- Each node the record shows completed has its output file. -/
def RunRecord.OutputsSaved (r : RunRecord) (files : Str → Option Str) : Prop :=
  ∀ node < r.nodes.length, (r.stateAt node).isCompleted = true →
    (files (outputFile r.definition node)).isSome = true

/-- Writing a file removes none. -/
theorem isSome_writeFile {path text : Str} {outcome : WriteOutcome}
    {result : Except RunStoreError Unit} (h : writeFile files path text outcome = (result, files'))
    {other : Str} (ho : (files other).isSome = true) : (files' other).isSome = true := by
  have hupdate : (Function.update files path (some text) other).isSome = true := by
    rw [Function.update_apply]
    split
    · rfl
    · exact ho
  rcases outcome with _ | ⟨_ | _⟩ <;> cases h
  · exact hupdate
  · exact ho
  · exact hupdate

theorem files_of_writeFile {path text : Str} {outcome : WriteOutcome}
    (h : writeFile files path text outcome = (.ok (), files')) :
    files' = Function.update files path (some text) := by
  rcases outcome with _ | ⟨_ | _⟩ <;> cases h
  rfl

theorem RunRecord.OutputsSaved.mono {r : RunRecord} (h : r.OutputsSaved files)
    (hf : ∀ path, (files path).isSome = true → (files' path).isSome = true) :
    r.OutputsSaved files' :=
  fun node hn hc => hf _ (h node hn hc)

theorem outputsSaved_new (id : RunId) (name : Str) (input : Str) (workspace : AgentWorkspace)
    (now : ℕ) : (RunRecord.new id name g input workspace now).OutputsSaved files := by
  intro node hn hc
  have hstate : (RunRecord.new id name g input workspace now).stateAt node = .waiting := by
    simp [RunRecord.stateAt, RunRecord.nodeAt, RunRecord.new, getD_eq_getElem?_getD,
      getElem?_replicate]
    split <;> rfl
  rw [hstate] at hc
  cases hc

theorem NodeStep.complete_of_completed {node : ℕ} {a : Action} {n n' : NodeRun}
    (h : NodeStep node a n n') (hn : n'.state.isCompleted = true) :
    n.state.isCompleted = true ∨ ∃ epoch turn now, a = .complete node epoch turn now := by
  rcases h with _ | ⟨_, _, -, h⟩ | ⟨_, _, -, h⟩ | ⟨epoch, turn, now, -, -⟩ | ⟨_, _, -, h⟩ |
    ⟨_, -, h⟩ | ⟨-, h⟩ | ⟨-, h⟩ | ⟨-, h⟩
  · exact .inl hn
  · simp [h, NodeState.isCompleted] at hn
  · simp [h, NodeState.isCompleted] at hn
  · exact .inr ⟨epoch, turn, now, rfl⟩
  all_goals simp [h, NodeState.isCompleted] at hn

theorem RunRecord.definition_refreshState (r : RunRecord) (now : ℕ) :
    (r.refreshState now).definition = r.definition := by
  rcases r.refreshState_cases now with ⟨-, -, h⟩ | ⟨-, -, h⟩ | ⟨-, -, h⟩ | ⟨-, -, h⟩ <;> rw [h]

/-- No transition changes the definition. -/
theorem RunRecord.definition_perform (r : RunRecord) (a : Action) :
    (r.perform g a).2.definition = r.definition := by
  cases a <;> simp only [perform, perform.reported]
  case beginSend => rw [beginSend]; split <;> rfl
  case accept => rw [accept]; split <;> rfl
  case complete => rw [complete]; split <;> simp [definition_refreshState, setNode]
  case fail => rw [fail]; split <;> simp [definition_refreshState, setNode]
  case stop => rw [stop]; split <;> rfl
  case interrupt => rw [interrupt]; split <;> rfl
  case resume => rw [resume]; split <;> rfl
  case recordConversation => rw [recordConversation]; split <;> rfl

def Action.completes : Action → Option ℕ
  | .complete node _ _ _ => some node
  | _ => none

/-- A transition keeps the outputs saved when the node it completes has its output. -/
theorem RunRecord.OutputsSaved.perform {r : RunRecord} (h : r.OutputsSaved files) (a : Action)
    (ha : ∀ node, a.completes = some node → (files (outputFile r.definition node)).isSome = true) :
    (r.perform g a).2.OutputsSaved files := by
  intro node hn hc
  rw [length_perform] at hn
  rw [definition_perform]
  rcases (nodeStep_perform a hn).complete_of_completed hc with hbefore | ⟨epoch, turn, now, rfl⟩
  · exact h node hn hbefore
  · exact ha node rfl

/-- The tasks of a job write the output of each node before they complete it, unless it is there
already. -/
def Backed (d : Definition) (files : Str → Option Str) : List Task → Prop
  | [] => True
  | .saveOutput node text :: rest =>
    Backed d (Function.update files (outputFile d node) (some text)) rest
  | .update action :: rest =>
    (∀ node, action.completes = some node → (files (outputFile d node)).isSome = true) ∧
      Backed d files rest
  | _ :: rest => Backed d files rest

theorem Backed.mono {tasks : List Task} (h : Backed d files tasks)
    (hf : ∀ path, (files path).isSome = true → (files' path).isSome = true) :
    Backed d files' tasks := by
  induction tasks generalizing files files' with
  | nil => trivial
  | cons task rest ih =>
    rcases task with _ | ⟨node, text⟩ | _ | action
    · exact ih h hf
    · refine @ih (Function.update files (outputFile d node) (some text)) _ h fun path hp => ?_
      rw [Function.update_apply] at hp ⊢
      split
      · rfl
      · next hne =>
        rw [if_neg hne] at hp
        exact hf path hp
    · exact ih h hf
    · exact ⟨fun node hn => hf _ (h.1 node hn), ih h.2 hf⟩

/-- Tasks that complete no node are backed. -/
theorem backed_of_forall {tasks : List Task}
    (h : ∀ action, .update action ∈ tasks → action.completes = none) : Backed d files tasks := by
  induction tasks generalizing files with
  | nil => trivial
  | cons task rest ih =>
    have hrest : ∀ files, Backed d files rest :=
      fun files => ih fun action ha => h action (mem_cons_of_mem _ ha)
    rcases task with _ | _ | _ | action
    · exact hrest _
    · exact hrest _
    · exact hrest _
    · refine ⟨fun node hn => ?_, hrest _⟩
      rw [h action mem_cons_self] at hn
      cases hn

/-- **Every job of the app is backed.** -/
theorem Job.backed_tasks (job : Job) (s : RunStore J) : Backed d files (job.tasks g s) := by
  rcases job with _ | ⟨conversations, failures, now⟩ | ⟨node, epoch, role, now⟩ | _ | _ |
    ⟨node, epoch, turn, _ | reason, text, items, now⟩ | ⟨captured, now⟩ | _
  case finished.none =>
    refine ⟨fun other ho => ?_, trivial⟩
    obtain rfl : node = other := Option.some.inj ho
    rw [Function.update_self]
    rfl
  all_goals refine backed_of_forall fun action ha => ?_
  case pump =>
    rcases mem_append.mp ha with ha | ha <;> obtain ⟨_, -, he⟩ := mem_map.mp ha <;>
      cases he <;> rfl
  case send =>
    rw [Job.tasks] at ha
    split at ha <;> simp at ha
    rw [ha]
    rfl
  case stop =>
    rcases mem_append.mp ha with ha | ha
    · obtain ⟨_, -, he⟩ := mem_map.mp ha
      cases he
    · cases mem_singleton.mp ha
      rfl
  all_goals
    simp [Job.tasks] at ha
    rw [ha]
    rfl

/-- Memory and everything the snapshot can read as are records of the graph's definition with their
outputs saved. -/
def RunStore.Kept (g : Graph) (s : RunStore J) : Prop :=
  ∃ cell, s.storage.Represents runFormat cell ∧
    cell.All fun v => v.2.definition = g.definition ∧ v.2.OutputsSaved s.files

namespace RunStore.Kept

variable {s s' : RunStore J}

theorem run (h : s.Kept g) : s.run.definition = g.definition ∧ s.run.OutputsSaved s.files := by
  obtain ⟨cell, hr, hall⟩ := h
  have := hall.memory
  rwa [hr.memory] at this

variable {outcome : WriteOutcome}

theorem create {id : RunId} {name input : Str} {workspace : AgentWorkspace} {now : ℕ}
    (h : RunStore.create J (RunRecord.new id name g input workspace now) outcome = .ok s) :
    s.Kept g := by
  rw [RunStore.create] at h
  split at h
  · cases h
  · next storage hc =>
    cases h
    refine ⟨_, .settled (synced_createStore hc), Cell.all_settled.mpr ?_⟩
    rw [value_createStore hc]
    exact ⟨rfl, outputsSaved_new id name input workspace now⟩

theorem reopen {id : RunId} (h : s.Kept g) (hs : s.reopen id = .ok s') : s'.Kept g := by
  obtain ⟨cell, hr, hall⟩ := h
  obtain ⟨v, hv, hheld⟩ := hr.openStore
  rw [RunStore.reopen, hv] at hs
  simp only at hs
  split at hs
  · cases hs
  · cases hs
    exact ⟨_, .settled (synced_openStore hv), hall.reopen hheld⟩

/-- Saving a file keeps the store, and on success the file is there. -/
theorem saveFile (h : s.Kept g) {directory extension text : Str} {node : ℕ}
    {result : Except RunStoreError Unit}
    (hs : s.saveFile directory node extension text outcome = (result, s')) :
    s'.Kept g ∧ (∀ path, (s.files path).isSome = true → (s'.files path).isSome = true) ∧
      (result = .ok () → s'.files = Function.update s.files
        (nodeFile g.definition directory node extension) (some text)) := by
  rw [← h.run.1]
  obtain ⟨cell, hr, hall⟩ := h
  rw [RunStore.saveFile] at hs
  rcases hw : writeFile s.files (nodeFile s.run.definition directory node extension) text outcome
    with ⟨written, files'⟩
  rw [hw] at hs
  cases hs
  refine ⟨⟨cell, hr, hall.imp fun v hv => ⟨hv.1, hv.2.mono fun _ => isSome_writeFile hw⟩⟩,
    fun _ => isSome_writeFile hw, ?_⟩
  rintro rfl
  exact files_of_writeFile hw

/-- Saving the record after an action keeps the store when the node it completes has its output. -/
theorem update (h : s.Kept g) {action : Action} (ha : ∀ node, action.completes = some node →
      (s.files (outputFile g.definition node)).isSome = true) :
    (s.update (fun r => r.perform g action) outcome).2.Kept g := by
  have hrun := h.run
  obtain ⟨cell, hr, hall⟩ := h
  have hnext : (s.run.perform g action).2.definition = g.definition ∧
      (s.run.perform g action).2.OutputsSaved s.files :=
    ⟨by rw [RunRecord.definition_perform, hrun.1], hrun.2.perform action (by rwa [hrun.1])⟩
  rw [RunStore.update_snd]
  rcases hc : s.storage.commit runFormat (RunStore.updating s _ outcome) with ⟨committed, storage⟩
  rcases hr.commit hc with rfl | ⟨-, cell', hr', hw⟩
  · exact ⟨cell, hr, hall⟩
  · exact ⟨cell', hr', hw.all hall hnext⟩

end RunStore.Kept

/-- **One task of a backed job keeps the store, and a task that succeeds leaves the rest of the job
backed.** -/
theorem Task.kept_perform {s s' : RunStore J} (h : s.Kept g) {task : Task} {rest : List Task}
    (hb : Backed g.definition s.files (task :: rest)) {outcome : WriteOutcome}
    {result : Except RunStoreError Unit} (hs : task.perform g s outcome = (result, s')) :
    s'.Kept g ∧ (result = .ok () → Backed g.definition s'.files rest) := by
  rcases task with ⟨node, text⟩ | ⟨node, text⟩ | ⟨node, items⟩ | action
  case saveOutput =>
    obtain ⟨hk, -, hf⟩ := h.saveFile hs
    refine ⟨hk, fun hr => ?_⟩
    rw [hf hr]
    exact hb
  case update =>
    have hk : (s.update (fun r => r.perform g action) outcome).2.Kept g := h.update hb.1
    have hfiles : (s.update (fun r => r.perform g action) outcome).2.files = s.files := by
      rw [RunStore.update_snd]
    rw [Task.perform] at hs
    split at hs <;> next he =>
      rw [he] at hk hfiles
      cases hs
      exact ⟨hk, fun _ => hfiles ▸ hb.2⟩
  all_goals
    obtain ⟨hk, hf, -⟩ := h.saveFile hs
    exact ⟨hk, fun _ => hb.mono hf⟩

/-! ## Runs of the app -/

/-- The invariant of `saving`. -/
structure Saving.Ok (g : Graph) (s : Saving J) : Prop where
  kept : s.store.Kept g
  backed : Backed g.definition s.store.files s.job

theorem Saving.Ok.step {s s' : Saving J} {label : SavingLabel} (h : s.Ok g)
    (hs : s.step g label = some s') : s'.Ok g := by
  rcases label with job | outcome | id <;> rw [Saving.step] at hs
  case start =>
    split at hs <;> cases hs
    exact ⟨h.kept, job.backed_tasks s.store⟩
  case reopen =>
    split at hs <;> cases hs
    next store hr => exact ⟨h.kept.reopen hr, Job.backed_tasks (g := g) .opened store⟩
  case write =>
    split at hs
    · cases hs
    next task rest hj =>
    have hb := h.backed
    rw [hj] at hb
    split at hs <;> cases hs
    · next hp => exact ⟨(Task.kept_perform h.kept hb hp).1, trivial⟩
    · next hp =>
      obtain ⟨hk, hb⟩ := Task.kept_perform h.kept hb hp
      exact ⟨hk, hb rfl⟩

end

section

variable {T E : Type} [BEq T] [FromSnapshot E] {K : Serde T} {format : SnapshotFormat}
  {commits : List (Commit T E)} {t : Storage K} {J : Serde RunRecord} {g : Graph} {s : Saving J}

end

end NiumaTerm.Orchestration
