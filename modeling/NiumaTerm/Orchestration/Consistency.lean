import NiumaTerm.Lib.Transition
import NiumaTerm.Orchestration.Run
import NiumaTerm.Orchestration.Validation

/-!
# Run state and node states agree

`runs g` is the system of all sequences of transitions of a new record, with no schedule: signals may
come late, twice or for an earlier epoch.  `RunRecord.Consistent` relates the state of the run to those
of its nodes, `Tracks` a node to its own events.
-/

namespace NiumaTerm.Orchestration

open Rust Transition List

/-- The system of all sequences of transitions of a run of `g`. -/
def runs (g : Graph) : System RunRecord (Action × Report) where
  init r := ∃ id name input workspace now, r = RunRecord.new id name g input workspace now
  step r label r' := label.1.InRange g ∧ r.perform g label.1 = (label.2, r')

/-- Perform a list of actions, and keep what they reported. -/
def RunRecord.performAll (g : Graph) (r : RunRecord) : List Action → List (Action × Report) × RunRecord
  | [] => ([], r)
  | a :: rest =>
    let (report, r') := r.perform g a
    let (labels, r'') := r'.performAll g rest
    ((a, report) :: labels, r'')

theorem run_performAll {g : Graph} {labels : List (Action × Report)} {r : RunRecord}
    (actions : List Action) (h : Run (runs g) labels r) (ha : ∀ a ∈ actions, a.InRange g) :
    Run (runs g) (labels ++ (r.performAll g actions).1) (r.performAll g actions).2 := by
  induction actions generalizing labels r with
  | nil => simpa [RunRecord.performAll] using h
  | cons a rest ih =>
    rw [forall_mem_cons] at ha
    have hs : (runs g).step r (a, (r.perform g a).1) (r.perform g a).2 := ⟨ha.1, rfl⟩
    have := ih (h.step hs) ha.2
    simpa [RunRecord.performAll] using this

/-- The states in which a run has an end time. -/
def RunState.isEnded : RunState → Bool
  | completed | failed | stopped => true
  | _ => false

namespace RunRecord

/-! ## The invariant -/

/-- The state of the run agrees with the states of its nodes. -/
structure Consistent (r : RunRecord) : Prop where
  live : r.HasInFlight → r.state.isLive = true
  running : r.state = .running → ∀ node < r.nodes.length, r.stateAt node = .waiting ∨
    (r.stateAt node).isInFlight = true ∨ (r.stateAt node).isCompleted = true
  ended : r.endedAt.isSome = r.state.isEnded
  completed : r.state = .completed ↔ r.AllCompleted
  failing : r.state = .failing → r.HasFailed ∧ r.HasInFlight

section

variable {g : Graph} {r : RunRecord} {node : ℕ}

theorem Consistent.not_allCompleted (h : r.Consistent) (hs : r.state ≠ .completed) :
    ∃ node < r.nodes.length, (r.stateAt node).isCompleted = false := by
  have hn : ¬ r.AllCompleted := fun ha => hs (h.completed.mpr ha)
  simpa [AllCompleted] using hn

theorem not_allCompleted_of_failed (h : r.HasFailed) : ¬ r.AllCompleted := by
  obtain ⟨node, hn, hf⟩ := h
  intro ha
  have := ha node hn
  cases hs : r.stateAt node <;> simp_all [NodeState.isFailed, NodeState.isCompleted]

theorem not_allCompleted_of_inFlight (h : r.HasInFlight) : ¬ r.AllCompleted := by
  obtain ⟨node, hn, hf⟩ := h
  intro ha
  rw [NodeState.not_inFlight_of_completed (ha node hn)] at hf
  cases hf

theorem consistent_new (hg : 1 ≤ g.nodeCount) (id : RunId) (name input : Str)
    (workspace : AgentWorkspace) (now : ℕ) :
    (RunRecord.new id name g input workspace now).Consistent := by
  have hw : ∀ node, (RunRecord.new id name g input workspace now).stateAt node = .waiting := by
    intro node
    simp only [stateAt, nodeAt, RunRecord.new, getD_eq_getElem?_getD, getElem?_replicate]
    split <;> rfl
  refine ⟨?_, fun _ node _ => .inl (hw node), rfl, ⟨by simp [RunRecord.new], fun ha => ?_⟩,
    by simp [RunRecord.new]⟩
  · rintro ⟨node, -, hf⟩
    rw [hw] at hf
    cases hf
  · have := ha 0 (by rw [RunRecord.new, length_replicate]; exact hg)
    rw [hw] at this
    cases this

/-- A live run that is settled after one of its nodes failed, or completed after being in flight, is
consistent again. -/
theorem consistent_refreshState {change : NodeRun} (h : r.Consistent) (hl : r.state.isLive = true)
    (hn : node < r.nodes.length) (hold : (r.stateAt node).isFailed = false)
    (hnew : change.state.isFailed = true ∨ change.state.isCompleted = true) (now : ℕ) :
    ((r.setNode node change).refreshState now).Consistent := by
  have hset : ∀ other < r.nodes.length, (r.setNode node change).stateAt other
      = if node = other then change.state else r.stateAt other :=
    fun other ho => stateAt_setNode change ho
  have hend : r.endedAt.isSome = false := by
    rw [h.ended]
    cases hs : r.state <;> simp_all [RunState.isLive, RunState.isEnded]
  have hfailed : r.HasFailed → (r.setNode node change).HasFailed := by
    rintro ⟨other, ho, hf⟩
    refine ⟨other, by simpa using ho, ?_⟩
    rw [hset other ho, if_neg]
    · exact hf
    · rintro rfl
      rw [hold] at hf
      cases hf
  rcases (r.setNode node change).refreshState_cases now with
    ⟨hf, hi, he⟩ | ⟨hf, hi, he⟩ | ⟨hf, ha, he⟩ | ⟨hf, ha, he⟩ <;> rw [he]
  · refine ⟨fun _ => rfl, by simp, hend, ?_, fun _ => ⟨hf, hi⟩⟩
    exact ⟨by simp, fun ha => absurd ha (not_allCompleted_of_failed hf)⟩
  · have hmap : ∀ other < r.nodes.length, ∀ p : NodeState → Bool, p .waiting = false →
        p .notRun = false →
        (p (((r.setNode node change).nodes.map fun node =>
            if node.state = .waiting then { node with state := .notRun } else node).getD other
              {}).state) = p ((r.setNode node change).stateAt other) := by
      intro other ho p hw hr
      rw [nodeAt_map _ (by simpa using ho), stateAt]
      split
      · next hs => rw [hs, hw, hr]
      · rfl
    refine ⟨?_, by simp, rfl, ⟨by simp, fun ha => ?_⟩, by simp⟩
    · rintro ⟨other, ho, hf⟩
      rw [length_map, length_setNode] at ho
      have := hmap other ho NodeState.isInFlight rfl rfl
      exact absurd ⟨other, by simpa using ho, this.symm.trans hf⟩ hi
    · obtain ⟨other, ho, hfail⟩ := hf
      rw [length_setNode] at ho
      have h1 := ha other (by simpa using ho)
      have h2 := hmap other ho NodeState.isCompleted rfl rfl
      have h3 : ((r.setNode node change).stateAt other).isCompleted = true := h2.symm.trans h1
      cases hs : (r.setNode node change).stateAt other <;>
        simp_all [NodeState.isFailed, NodeState.isCompleted]
  · refine ⟨fun hi => ?_, by simp, rfl, ⟨fun _ => ha, fun _ => rfl⟩, by simp⟩
    exact absurd ha (not_allCompleted_of_inFlight hi)
  · have hrun : r.state = .running := by
      have hnf : r.state ≠ .failing := fun hs => hf (hfailed (h.failing hs).1)
      cases hs : r.state <;> simp_all [RunState.isLive]
    refine ⟨fun _ => hl, fun _ other ho => ?_, h.ended, ⟨fun hs => ?_, fun hc => absurd hc ha⟩,
      fun hs => ?_⟩
    · rw [length_setNode] at ho
      rw [hset other ho]
      split
      · rcases hnew with hnew | hnew
        · exact absurd ⟨node, by simpa using hn, by rw [hset node hn, if_pos rfl]; exact hnew⟩ hf
        · exact .inr (.inr hnew)
      · exact h.running hrun other ho
    · exact absurd (hrun.symm.trans hs) (by simp)
    · exact absurd (hrun.symm.trans hs) (by simp)

/-- Putting a node in flight, or accepting one that is, keeps the run consistent. -/
theorem consistent_setNode (change : NodeRun) (h : r.Consistent) (hl : r.state.isLive = true)
    (hn : node < r.nodes.length) (hold : (r.stateAt node).isFailed = false)
    (hnew : change.state.isInFlight = true) : (r.setNode node change).Consistent := by
  have hset : ∀ other < r.nodes.length, (r.setNode node change).stateAt other
      = if node = other then change.state else r.stateAt other :=
    fun other ho => stateAt_setNode change ho
  have hin : (r.setNode node change).HasInFlight :=
    ⟨node, by simpa using hn, by rw [hset node hn, if_pos rfl]; exact hnew⟩
  refine ⟨fun _ => hl, fun hs other ho => ?_, h.ended, ⟨fun hs => ?_, fun ha => ?_⟩, fun hs => ⟨?_, hin⟩⟩
  · rw [length_setNode] at ho
    rw [hset other ho]
    split
    · exact .inr (.inl hnew)
    · exact h.running hs other ho
  · rw [show r.state = .completed from hs] at hl
    cases hl
  · exact absurd ha (not_allCompleted_of_inFlight hin)
  · obtain ⟨other, ho, hf⟩ := (h.failing hs).1
    refine ⟨other, by simpa using ho, ?_⟩
    rw [hset other ho, if_neg]
    · exact hf
    · rintro rfl
      rw [hold] at hf
      cases hf

/-- Ending a live run takes its nodes out of flight and leaves the ones that had not completed
uncompleted. -/
theorem consistent_end {f : NodeRun → NodeRun} {state : RunState} {endedAt : Option ℕ}
    (h : r.Consistent) (hl : r.state.isLive = true)
    (hf : ∀ n, (f n).state.isInFlight = false ∧
      ((f n).state.isCompleted = true → n.state.isCompleted = true))
    (hs : state = .stopped ∨ state = .interrupted) (he : endedAt.isSome = state.isEnded) :
    ({ r with nodes := r.nodes.map f, state, endedAt } : RunRecord).Consistent := by
  have hmap : ∀ node < r.nodes.length, (({ r with nodes := r.nodes.map f, state, endedAt } :
      RunRecord).stateAt node) = (f (r.nodeAt node)).state := by
    intro node hn
    simp only [stateAt]
    rw [nodeAt, nodeAt_map f hn]
  have hlive : r.state ≠ .completed := by
    rintro hc
    rw [hc] at hl
    cases hl
  refine ⟨?_, ?_, he, ⟨?_, fun ha => ?_⟩, ?_⟩
  · rintro ⟨node, hn, hi⟩
    rw [length_map] at hn
    rw [hmap node hn, (hf _).1] at hi
    cases hi
  · rcases hs with rfl | rfl <;> simp
  · rcases hs with rfl | rfl <;> simp
  · obtain ⟨node, hn, hnc⟩ := h.not_allCompleted hlive
    have := ha node (by simpa using hn)
    rw [hmap node hn] at this
    rw [stateAt, (hf _).2 this] at hnc
    cases hnc
  · rcases hs with rfl | rfl <;> simp

/-- **Every action keeps the run consistent.** -/
theorem consistent_perform (h : r.Consistent) (hlen : r.nodes.length = g.nodeCount) (a : Action)
    (ha : a.InRange g) : (r.perform g a).2.Consistent := by
  cases a with
  | beginSend node epoch now =>
    simp only [perform, perform.reported, beginSend]
    split
    · exact h
    · next hg =>
      rw [not_or, not_not, not_not] at hg
      refine consistent_setNode _ h (by rw [hg.1]; rfl) (hlen ▸ ha) (by rw [hg.2]; rfl) rfl
  | accept node epoch turn =>
    simp only [perform, perform.reported, accept]
    split
    · exact h
    · next hg =>
      rw [not_not] at hg
      have hn : node < r.nodes.length := hlen ▸ ha
      have hset := consistent_setNode { r.nodeAt node with state := .accepted epoch turn }
        h (h.live ⟨node, hn, by rw [hg]; rfl⟩) hn (by rw [hg]; rfl) rfl
      exact ⟨hset.live, hset.running, hset.ended, hset.completed, hset.failing⟩
  | complete node epoch turn now =>
    simp only [perform, perform.reported, complete]
    split
    · exact h
    · next hg =>
      rw [not_not] at hg
      have hn : node < r.nodes.length := hlen ▸ ha
      exact consistent_refreshState h (h.live ⟨node, hn, by rw [hg]; rfl⟩) hn (by rw [hg]; rfl)
        (.inr rfl) now
  | fail node epoch reason now =>
    simp only [perform, perform.reported, fail]
    split
    · exact h
    · next hg =>
      simp only [Bool.or_eq_true, Bool.not_eq_true', not_or, Bool.not_eq_false] at hg
      refine consistent_refreshState h hg.1 (hlen ▸ ha) ?_ (.inl rfl) now
      cases hs : r.stateAt node <;> cases epoch <;> simp_all [failApplies, NodeState.isFailed]
  | stop now =>
    simp only [perform, stop]
    split
    · exact h
    · next hg =>
      refine consistent_end h (by simpa using hg) (fun n => ?_) (.inl rfl) rfl
      rw [stopNode]
      split
      · exact ⟨rfl, by simp [NodeState.isCompleted]⟩
      · split
        · exact ⟨rfl, by simp [NodeState.isCompleted]⟩
        · next hi _ => exact ⟨by simpa using hi, fun hc => hc⟩
  | interrupt =>
    simp only [perform, perform.reported, interrupt]
    split
    · exact h
    · next hg =>
      have hl : r.state.isLive = true := by simpa using hg
      refine consistent_end h hl (fun n => ?_) (.inr rfl) ?_
      · rw [interruptNode]
        split
        · exact ⟨rfl, by simp [NodeState.isCompleted]⟩
        · next hi => exact ⟨by simpa using hi, fun hc => hc⟩
      · rw [h.ended]
        cases hs : r.state <;> simp_all [RunState.isLive, RunState.isEnded]
  | resume =>
    simp only [perform, perform.reported, resume]
    split
    · exact h
    · next hg =>
      have hres : r.state.isResumable = true := by simpa using hg
      have hne : r.state ≠ .completed := by
        intro hc
        rw [hc] at hres
        cases hres
      have hmap : ∀ node < r.nodes.length, (({ r with
          nodes := r.nodes.map resumeNode, state := .running, endedAt := none } :
          RunRecord).stateAt node) = (resumeNode (r.nodeAt node)).state := by
        intro node hn
        simp only [stateAt]
        rw [nodeAt, nodeAt_map resumeNode hn]
      refine ⟨fun _ => rfl, fun _ node hn => ?_, rfl, ⟨by simp, fun ha => ?_⟩, by simp⟩
      · rw [length_map] at hn
        rw [hmap node hn, resumeNode]
        split
        · next hc => exact .inr (.inr hc)
        · exact .inl rfl
      · obtain ⟨node, hn, hnc⟩ := h.not_allCompleted hne
        have := ha node (by simpa using hn)
        rw [hmap node hn, resumeNode, if_neg (by rw [stateAt] at hnc; simp [hnc])] at this
        cases this
  | recordConversation slot conversation =>
    simp only [perform, perform.reported, recordConversation]
    split
    · exact h
    · exact ⟨h.live, h.running, h.ended, h.completed, h.failing⟩

end

end RunRecord

/-! ## The history of one node -/

/-- A transition of one node towards its completion, as it was applied. -/
inductive NodeEvent
  | sent (epoch : ℕ)
  | accepted (epoch : ℕ) (turn : Str)
  | completed (epoch : ℕ) (turn : Str)

def nodeEvent (node : ℕ) : Action × Report → Option NodeEvent
  | (.beginSend n epoch _, .applied true) => if n = node then some (.sent epoch) else none
  | (.accept n epoch turn, .applied true) => if n = node then some (.accepted epoch turn) else none
  | (.complete n epoch turn _, .applied true) =>
    if n = node then some (.completed epoch turn) else none
  | _ => none

def nodeEvents (node : ℕ) (labels : List (Action × Report)) : List NodeEvent :=
  labels.filterMap (nodeEvent node)

/-- The events since a node was last sent brought it to the state it is in. -/
def Tracks (events : List NodeEvent) : NodeState → Prop
  | .sending epoch => [.sent epoch] <:+ events
  | .accepted epoch turn => [.sent epoch, .accepted epoch turn] <:+ events
  | .completed turn => ∃ epoch, [.sent epoch, .accepted epoch turn, .completed epoch turn] <:+ events
  | _ => True

section

variable {g : Graph} {r : RunRecord} {node : ℕ} {a : Action}

/-- **An action that reports that it did nothing did nothing.** -/
theorem RunRecord.perform_of_not_applied (h : (r.perform g a).1 = .applied false) :
    (r.perform g a).2 = r := by
  cases a <;> simp only [perform, perform.reported, Report.applied.injEq, reduceCtorEq] at h ⊢
  case beginSend => rw [beginSend] at h ⊢; split at h <;> simp_all
  case accept => rw [accept] at h ⊢; split at h <;> simp_all
  case complete => rw [complete] at h ⊢; split at h <;> simp_all
  case fail => rw [fail] at h ⊢; split at h <;> simp_all
  case interrupt => rw [interrupt] at h ⊢; split at h <;> simp_all
  case resume => rw [resume] at h ⊢; split at h <;> simp_all
  case recordConversation => rw [recordConversation] at h ⊢; split at h <;> simp_all

/-- What `stop` returns when there is nothing to stop. -/
theorem RunRecord.stop_of_not_live (h : r.state.isLive = false) (now : ℕ) :
    r.stop now = ([], r) := by
  rw [stop, if_pos (by simpa using h)]

theorem stateAt_of_sent (hn : node < r.nodes.length) {epoch now : ℕ}
    (h : (r.beginSend node epoch now).1 = true) :
    (r.beginSend node epoch now).2.stateAt node = .sending epoch := by
  rw [RunRecord.beginSend] at h ⊢
  split at h
  · cases h
  · next hg => rw [if_neg hg, RunRecord.stateAt_setNode _ hn, if_pos rfl]

theorem stateAt_of_accepted (hn : node < r.nodes.length) {epoch : ℕ} {turn : Str}
    (h : (r.accept g node epoch turn).1 = true) : r.stateAt node = .sending epoch ∧
      (r.accept g node epoch turn).2.stateAt node = .accepted epoch turn := by
  rw [RunRecord.accept] at h ⊢
  split at h
  · cases h
  · next hg =>
    rw [if_neg hg]
    refine ⟨by simpa using hg, ?_⟩
    show (r.setNode node _).stateAt node = _
    rw [RunRecord.stateAt_setNode _ hn, if_pos rfl]

theorem stateAt_of_completed (hn : node < r.nodes.length) {epoch : ℕ} {turn : Str} {now : ℕ}
    (h : (r.complete node epoch turn now).1 = true) : r.stateAt node = .accepted epoch turn ∧
      (r.complete node epoch turn now).2.stateAt node = .completed turn := by
  rw [RunRecord.complete] at h ⊢
  split at h
  · cases h
  · next hg =>
    rw [if_neg hg]
    refine ⟨by simpa using hg, ?_⟩
    have hset : (r.setNode node { r.nodeAt node with
        state := .completed turn, finishedAt := some now }).stateAt node = .completed turn := by
      rw [RunRecord.stateAt_setNode _ hn, if_pos rfl]
    rcases RunRecord.nodeAt_refreshState (r := r.setNode node { r.nodeAt node with
      state := .completed turn, finishedAt := some now }) now (by simpa using hn) with hs | ⟨hs, -⟩
    · rw [RunRecord.stateAt, hs]
      exact hset
    · rw [hset] at hs
      cases hs

/-- A step without an event of the node leaves the node, or ends its turn. -/
theorem tracks_of_no_event {events : List NodeEvent} (hn : node < r.nodes.length)
    (he : nodeEvent node (a, (r.perform g a).1) = none) (h : Tracks events (r.stateAt node)) :
    Tracks events ((r.perform g a).2.stateAt node) := by
  have hstep := RunRecord.nodeStep_perform (g := g) a hn
  have hkept : (r.perform g a).1 = .applied false →
      Tracks events ((r.perform g a).2.nodeAt node).state := by
    intro hr
    rwa [RunRecord.perform_of_not_applied hr]
  rw [RunRecord.stateAt] at h ⊢
  generalize r.nodeAt node = before at hstep h
  generalize (r.perform g a).2.nodeAt node = after at hstep hkept ⊢
  cases hstep with
  | same => exact h
  | sent epoch now =>
    refine hkept ?_
    simp only [RunRecord.perform, RunRecord.perform.reported] at he ⊢
    cases hb : (r.beginSend node epoch now).1 with
    | false => rfl
    | true => simp [hb, nodeEvent] at he
  | accepted epoch turn =>
    refine hkept ?_
    simp only [RunRecord.perform, RunRecord.perform.reported] at he ⊢
    cases hb : (r.accept g node epoch turn).1 with
    | false => rfl
    | true => simp [hb, nodeEvent] at he
  | completed epoch turn now =>
    refine hkept ?_
    simp only [RunRecord.perform, RunRecord.perform.reported] at he ⊢
    cases hb : (r.complete node epoch turn now).1 with
    | false => rfl
    | true => simp [hb, nodeEvent] at he
  | failed reason now _ h' | stopped now _ h' | interrupted _ h' | notRun _ h' | reset _ h' =>
    rw [h']; trivial

/-- **One step keeps a node and its history together.** -/
theorem tracks_perform {events : List NodeEvent} (hn : node < r.nodes.length)
    (h : Tracks events (r.stateAt node)) :
    Tracks (events ++ (nodeEvent node (a, (r.perform g a).1)).toList)
      ((r.perform g a).2.stateAt node) := by
  cases he : nodeEvent node (a, (r.perform g a).1) with
  | none => simpa using tracks_of_no_event hn he h
  | some event =>
    rw [Option.toList_some]
    cases a with
    | beginSend other epoch now =>
      simp only [RunRecord.perform, RunRecord.perform.reported] at he ⊢
      cases hb : (r.beginSend other epoch now).1 with
      | false => rw [hb] at he; cases he
      | true =>
        rw [hb, nodeEvent, Option.ite_none_right_eq_some, Option.some.injEq] at he
        obtain ⟨rfl, rfl⟩ := he
        rw [stateAt_of_sent hn hb]
        exact suffix_append _ _
    | accept other epoch turn =>
      simp only [RunRecord.perform, RunRecord.perform.reported] at he ⊢
      cases hb : (r.accept g other epoch turn).1 with
      | false => rw [hb] at he; cases he
      | true =>
        rw [hb, nodeEvent, Option.ite_none_right_eq_some, Option.some.injEq] at he
        obtain ⟨rfl, rfl⟩ := he
        obtain ⟨hbefore, hafter⟩ := stateAt_of_accepted hn hb
        rw [hbefore] at h
        rw [hafter]
        obtain ⟨earlier, rfl⟩ := h
        exact ⟨earlier, by simp⟩
    | complete other epoch turn now =>
      simp only [RunRecord.perform, RunRecord.perform.reported] at he ⊢
      cases hb : (r.complete other epoch turn now).1 with
      | false => rw [hb] at he; cases he
      | true =>
        rw [hb, nodeEvent, Option.ite_none_right_eq_some, Option.some.injEq] at he
        obtain ⟨rfl, rfl⟩ := he
        obtain ⟨hbefore, hafter⟩ := stateAt_of_completed hn hb
        rw [hbefore] at h
        rw [hafter]
        obtain ⟨earlier, rfl⟩ := h
        exact ⟨epoch, earlier, by simp⟩
    | fail | stop | interrupt | resume | recordConversation => simp [nodeEvent] at he

end

/-! ## Every run -/

section

variable {d : Definition} {g : Graph} {labels : List (Action × Report)} {r : RunRecord}

theorem length_of_run (h : Run (runs g) labels r) : r.nodes.length = g.nodeCount := by
  refine h.invariant (I := fun r => r.nodes.length = g.nodeCount) ?_ ?_
  · rintro r ⟨id, name, input, workspace, now, rfl⟩
    simp [RunRecord.new]
  · rintro r ⟨a, report⟩ r' hlen ⟨-, hs⟩
    rw [← hlen, ← RunRecord.length_perform (g := g) (r := r) a, hs]

theorem consistent_of_run (hg : g.Sound) (h : Run (runs g) labels r) : r.Consistent := by
  have := h.invariant (I := fun r => r.nodes.length = g.nodeCount ∧ r.Consistent) ?_ ?_
  · exact this.2
  · rintro r ⟨id, name, input, workspace, now, rfl⟩
    exact ⟨by simp [RunRecord.new], RunRecord.consistent_new hg.nodes_pos id name input workspace now⟩
  · rintro r ⟨a, report⟩ r' ⟨hlen, hc⟩ ⟨ha, hs⟩
    have hl := RunRecord.length_perform (g := g) (r := r) a
    have hcons := RunRecord.consistent_perform hc hlen a ha
    rw [hs] at hl hcons
    exact ⟨hl.trans hlen, hcons⟩

theorem tracks_of_run (h : Run (runs g) labels r) {node : ℕ} (hn : node < g.nodeCount) :
    Tracks (nodeEvents node labels) (r.stateAt node) := by
  refine (h.history (I := fun labels r => r.nodes.length = g.nodeCount ∧
    Tracks (nodeEvents node labels) (r.stateAt node)) ?_ ?_).2
  · rintro r ⟨id, name, input, workspace, now, rfl⟩
    refine ⟨by simp [RunRecord.new], ?_⟩
    simp only [RunRecord.stateAt, RunRecord.nodeAt, RunRecord.new, getD_eq_getElem?_getD,
      getElem?_replicate]
    split <;> trivial
  · rintro labels r ⟨a, report⟩ r' ⟨hlen, ht⟩ ⟨-, hs⟩
    have hl := RunRecord.length_perform (g := g) (r := r) a
    have htr := tracks_perform (g := g) (a := a) (hlen ▸ hn) ht
    rw [hs] at hl htr
    refine ⟨hl.trans hlen, ?_⟩
    rw [nodeEvents, filterMap_append]
    cases he : nodeEvent node (a, report) <;> simpa [nodeEvents, he] using htr

/-- A completed node is the same after every further step. -/
theorem nodeAt_of_steps {later : List (Action × Report)} {r' : RunRecord} {node : ℕ}
    (h : Steps (runs g) r later r') (hn : node < r.nodes.length)
    (hc : (r.stateAt node).isCompleted = true) : r'.nodeAt node = r.nodeAt node := by
  refine (h.stable (P := fun s => node < s.nodes.length ∧ s.nodeAt node = r.nodeAt node)
    ?_ ⟨hn, rfl⟩).2
  rintro s ⟨a, report⟩ s' ⟨hlen, he⟩ ⟨-, hs⟩
  have hl := RunRecord.length_perform (g := g) (r := s) a
  have hstep := RunRecord.nodeStep_perform (g := g) a hlen
  rw [hs] at hl hstep
  refine ⟨hl ▸ hlen, ?_⟩
  rw [hstep.eq_of_completed (by rw [he]; exact hc), he]

/-- **The record of every run is consistent.**  The state of the run agrees with those of its nodes,
completed nodes never change, a completed node was accepted and completed once since it was last
sent, and an operation that reports that it did nothing did nothing. -/
theorem runs_consistent (hg : Graph.new d = .ok g) (h : Run (runs g) labels r) :
    (∀ node < g.nodeCount, (r.stateAt node).isInFlight = true →
      r.state = .running ∨ r.state = .failing) ∧
    (r.state = .running →
      (∀ node < g.nodeCount, (∀ reason, r.stateAt node ≠ .failed reason) ∧
        r.stateAt node ≠ .stopped ∧ r.stateAt node ≠ .interrupted ∧ r.stateAt node ≠ .notRun) ∧
      ∃ node < g.nodeCount, (r.stateAt node).isCompleted = false) ∧
    (r.endedAt.isSome = true ↔
      r.state = .completed ∨ r.state = .failed ∨ r.state = .stopped) ∧
    (r.state = .completed ↔ ∀ node < g.nodeCount, (r.stateAt node).isCompleted = true) ∧
    (∀ node < g.nodeCount, (r.stateAt node).isCompleted = true →
      ∀ later r', Steps (runs g) r later r' → r'.nodeAt node = r.nodeAt node) ∧
    (∀ node < g.nodeCount, ∀ turn, r.stateAt node = .completed turn → ∃ earlier epoch,
      nodeEvents node labels
        = earlier ++ [.sent epoch, .accepted epoch turn, .completed epoch turn]) ∧
    (∀ a, (r.perform g a).1 = .applied false → (r.perform g a).2 = r) ∧
    (∀ now, r.state.isLive = false → r.stop now = ([], r)) := by
  have hlen := length_of_run h
  have hc := consistent_of_run (Graph.new_sound hg) h
  rw [← hlen]
  refine ⟨fun node hn hi ↦ ?_, fun hs ↦ ⟨fun node hn ↦ ?_, ?_⟩, ?_, hc.completed,
    fun node hn hcomp later r' hsteps ↦ nodeAt_of_steps hsteps hn hcomp,
    fun node hn turn ht ↦ ?_, fun a ↦ RunRecord.perform_of_not_applied,
    fun now hl ↦ RunRecord.stop_of_not_live hl now⟩
  · have := hc.live ⟨node, hn, hi⟩
    cases hs : r.state <;> simp_all [RunState.isLive]
  · rcases hc.running hs node hn with hw | hw | hw <;>
      cases hst : r.stateAt node <;> simp_all [NodeState.isInFlight, NodeState.isCompleted]
  · exact hc.not_allCompleted (by rw [hs]; simp)
  · rw [hc.ended]
    cases r.state <;> simp [RunState.isEnded]
  · have := tracks_of_run h (hlen ▸ hn)
    rw [ht] at this
    obtain ⟨epoch, earlier, he⟩ := this
    exact ⟨earlier, epoch, he.symm⟩

/-- `plan` of the small graph is sent, accepted and completed. -/
theorem runs_consistent_planReview :
    let done := (RunRecord.new ⟨0⟩ [] (planReview.graph [0, 1]) [] {} 0).performAll
      (planReview.graph [0, 1]) [.beginSend 0 1 10, .accept 0 1 ['t'], .complete 0 1 ['t'] 20]
    ∃ earlier epoch, nodeEvents 0 done.1
      = earlier ++ [.sent epoch, .accepted epoch ['t'], .completed epoch ['t']] :=
  (runs_consistent planReview_new (run_performAll
    [.beginSend 0 1 10, .accept 0 1 ['t'], .complete 0 1 ['t'] 20]
    (.init ⟨⟨0⟩, [], [], {}, 0, rfl⟩) (by decide))).2.2.2.2.2.1 0 (by decide) ['t'] (by decide)

end

end NiumaTerm.Orchestration
