import NiumaTerm.Orchestration.Consistency

/-!
# Which nodes to send next

`schedule` takes the first ready nodes in graph order, as many as may run.  `dispatching g` is the system
of a run with a dispatcher: a look at the run lists nodes to send, which are then sent one by one with
any other transition in between.  `Safe` is the invariant; two nodes of one slot are never in flight
together because one of them is an ancestor of the other.
-/

namespace NiumaTerm.Orchestration

open Transition List

/-! ## The schedule -/

/-- What the runtime should do after a change to the run or its sessions. -/
structure Dispatch where
  send : List ℕ := []
  prepare : List ℕ := []

/-- A ready node takes a place: it is sent, or its slot is prepared. -/
def Dispatch.add (g : Graph) (ready : List Bool) (dispatch : Dispatch) (node : ℕ) : Dispatch :=
  let slot := g.slotAt node
  if ready.getD slot false then { dispatch with send := dispatch.send ++ [node] }
  else if slot ∈ dispatch.prepare then dispatch
  else { dispatch with prepare := dispatch.prepare ++ [slot] }

/-- A node is ready when it is waiting and every node it depends on has completed. -/
def isReady (g : Graph) (r : RunRecord) (node : ℕ) : Bool :=
  r.stateAt node == .waiting && (g.needsAt node).all fun d => (r.stateAt d).isCompleted

/-- The loop over the graph order. -/
def scheduleLoop (g : Graph) (r : RunRecord) (ready : List Bool) : ℕ → List ℕ → Dispatch → Dispatch
  | _, [], dispatch => dispatch
  | capacity, node :: rest, dispatch =>
    if capacity = 0 then dispatch
    else if !isReady g r node then scheduleLoop g r ready capacity rest dispatch
    else scheduleLoop g r ready (capacity - 1) rest (dispatch.add g ready node)

/-- How many nodes are in flight. -/
def RunRecord.inFlight (r : RunRecord) : ℕ := r.nodes.countP fun node => node.state.isInFlight

/-- `ready[slot]` is whether that slot's session is started and idle. -/
def schedule (g : Graph) (r : RunRecord) (ready : List Bool) : Dispatch :=
  if r.state ≠ .running then {}
  else scheduleLoop g r ready (g.maxParallel - r.inFlight) g.order {}

/-! ## What is scheduled -/

section

variable {g : Graph} {r : RunRecord} {ready : List Bool}

theorem scheduleLoop_eq (capacity : ℕ) (order : List ℕ) (dispatch : Dispatch) :
    scheduleLoop g r ready capacity order dispatch
      = ((order.filter (isReady g r)).take capacity).foldl (Dispatch.add g ready) dispatch := by
  induction order generalizing capacity dispatch with
  | nil => simp [scheduleLoop]
  | cons node rest ih =>
    rw [scheduleLoop]
    split
    · next hc => subst hc; simp
    · next hc =>
      cases hr : isReady g r node with
      | false => simp [ih, hr]
      | true =>
        obtain ⟨capacity, rfl⟩ := Nat.exists_eq_succ_of_ne_zero hc
        simp [ih, hr]

theorem send_foldl_add (nodes : List ℕ) (dispatch : Dispatch) :
    (nodes.foldl (Dispatch.add g ready) dispatch).send
      = dispatch.send ++ nodes.filter fun node => ready.getD (g.slotAt node) false := by
  induction nodes generalizing dispatch with
  | nil => simp
  | cons node rest ih =>
    rw [foldl_cons, ih, Dispatch.add]
    split
    · next hr => simp only [filter_cons, hr, if_true, append_assoc, singleton_append]
    · next hr =>
      rw [Bool.not_eq_true] at hr
      simp only [filter_cons, hr, Bool.false_eq_true, if_false]
      split <;> rfl

theorem mem_prepare_foldl_add {slot : ℕ} (nodes : List ℕ) (dispatch : Dispatch)
    (h : slot ∈ dispatch.prepare) :
    slot ∈ (nodes.foldl (Dispatch.add g ready) dispatch).prepare := by
  induction nodes generalizing dispatch with
  | nil => exact h
  | cons node rest ih =>
    rw [foldl_cons]
    refine ih _ ?_
    rw [Dispatch.add]
    split
    · exact h
    · split
      · exact h
      · exact mem_append_left _ h

/-- The nodes that take a place. -/
def places (g : Graph) (r : RunRecord) : List ℕ :=
  (g.order.filter (isReady g r)).take (g.maxParallel - r.inFlight)

theorem schedule_eq (h : r.state = .running) :
    schedule g r ready = (places g r).foldl (Dispatch.add g ready) {} := by
  rw [schedule, if_neg (by simpa using h), scheduleLoop_eq]
  rfl

theorem send_eq (h : r.state = .running) : (schedule g r ready).send =
    (places g r).filter fun node => ready.getD (g.slotAt node) false := by
  rw [schedule_eq h, send_foldl_add, nil_append]

theorem send_of_not_running (h : r.state ≠ .running) : (schedule g r ready).send = [] := by
  rw [schedule, if_pos h]

/-- **What may be sent**: ready nodes of the graph, each once and no more than there is room for. -/
theorem send_spec (r : RunRecord) (ready : List Bool) (hg : g.Sound) :
    (schedule g r ready).send.Nodup ∧
    (schedule g r ready).send.length ≤ g.maxParallel - r.inFlight ∧
    ∀ node ∈ (schedule g r ready).send, node < g.nodeCount ∧ isReady g r node = true := by
  by_cases hs : r.state = .running
  · rw [send_eq hs]
    have hsub : (places g r).Sublist (g.order.filter (isReady g r)) := take_sublist _ _
    refine ⟨((hsub.trans filter_sublist).nodup hg.isOrder.nodup).filter _,
      (length_filter_le _ _).trans (length_take_le _ _), fun node hn => ?_⟩
    have hm := mem_filter.mp (hsub.subset (mem_of_mem_filter hn))
    exact ⟨hg.needs_length ▸ (hg.isOrder.mem_iff node).mp hm.1, hm.2⟩
  · rw [send_of_not_running hs]
    simp

theorem isReady_iff {node : ℕ} : isReady g r node = true ↔
    r.stateAt node = .waiting ∧ ∀ d ∈ g.needsAt node, (r.stateAt d).isCompleted = true := by
  simp [isReady]

/-- Where a node takes a place there is something to send or to prepare. -/
theorem schedule_nonempty (hs : r.state = .running) (h : places g r ≠ []) :
    (schedule g r ready).send ≠ [] ∨ (schedule g r ready).prepare ≠ [] := by
  obtain ⟨node, rest, hp⟩ := exists_cons_of_ne_nil h
  cases hr : ready.getD (g.slotAt node) false with
  | true =>
    left
    rw [send_eq hs, hp, filter_cons, hr]
    simp
  | false =>
    right
    rw [schedule_eq hs, hp, foldl_cons]
    refine ne_nil_of_mem (a := g.slotAt node) (mem_prepare_foldl_add rest _ ?_)
    rw [Dispatch.add, hr]
    simp

end

/-! ## The dispatcher -/

/-- A run and the nodes that the last look at it listed and that were not sent yet. -/
structure Dispatcher where
  record : RunRecord
  pending : List ℕ

/-- A step of the dispatcher. -/
inductive Move
  | look (ready : List Bool)
  | send (node epoch now : ℕ)
  | signal (action : Action)

/-- Sending is left to the dispatcher. -/
def Action.isSignal : Action → Bool
  | .beginSend _ _ _ => false
  | _ => true

inductive Dispatches (g : Graph) : Dispatcher → Move → Dispatcher → Prop
  | look (s : Dispatcher) (ready : List Bool) :
    Dispatches g s (.look ready) { s with pending := (schedule g s.record ready).send }
  | send (s : Dispatcher) (node epoch now : ℕ) (h : node ∈ s.pending) :
    Dispatches g s (.send node epoch now)
      { record := (s.record.beginSend node epoch now).2, pending := s.pending.erase node }
  | signal (s : Dispatcher) (a : Action) (hs : a.isSignal = true) (hr : a.InRange g) :
    Dispatches g s (.signal a) { s with record := (s.record.perform g a).2 }

def dispatching (g : Graph) : System Dispatcher Move where
  init s := s.pending = [] ∧
    ∃ id name input workspace now, s.record = RunRecord.new id name g input workspace now
  step := Dispatches g

/-! ## Counting the nodes in flight -/

/-- Where every element that is counted after was counted before, no more are counted. -/
theorem countP_le_of_getD {α : Type*} {p : α → Bool} {d : α} {l l' : List α}
    (hl : l'.length = l.length) (h : ∀ i < l.length, p (l'.getD i d) = true → p (l.getD i d) = true) :
    l'.countP p ≤ l.countP p := by
  induction l generalizing l' with
  | nil => simp [length_eq_zero_iff.mp hl]
  | cons a l ih =>
    cases l' with
    | nil => simp at hl
    | cons a' l' =>
      have htail : l'.countP p ≤ l.countP p := ih (by simpa using hl) fun i hi hp => by
        simpa using h (i + 1) (by simpa using hi) (by simpa using hp)
      have hhead : p a' = true → p a = true := by simpa using h 0 (by simp)
      rw [countP_cons, countP_cons]
      split
      · next hp => rw [if_pos (hhead hp)]; omega
      · omega

section

variable {g : Graph} {r : RunRecord}

theorem inFlight_perform_le (a : Action) (ha : a.isSignal = true) :
    (r.perform g a).2.inFlight ≤ r.inFlight := by
  refine countP_le_of_getD (d := {}) (RunRecord.length_perform a) fun node hn hi => ?_
  rcases (RunRecord.nodeStep_perform (g := g) a hn).of_inFlight hi with h | ⟨-, epoch, now, rfl⟩
  · exact h
  · cases ha

theorem inFlight_beginSend_le (node epoch now : ℕ) :
    (r.beginSend node epoch now).2.inFlight ≤ r.inFlight + 1 := by
  rw [RunRecord.beginSend]
  split
  · exact Nat.le_succ _
  · simp only [RunRecord.inFlight, RunRecord.setNode]
    by_cases hn : node < r.nodes.length
    · rw [countP_set hn]
      split <;> split <;> omega
    · rw [set_eq_of_length_le (by omega)]
      exact Nat.le_succ _

theorem inFlight_eq_zero (h : ¬ r.HasInFlight) : r.inFlight = 0 := by
  rw [RunRecord.inFlight, countP_eq_zero]
  intro n hn hi
  obtain ⟨node, hlt, rfl⟩ := mem_iff_getElem.mp hn
  exact h ⟨node, hlt, by rwa [RunRecord.stateAt, RunRecord.nodeAt, getD_eq_getElem _ _ hlt]⟩

end

/-! ## Safety -/

/-- Every dependency of a node has completed. -/
def Unblocked (g : Graph) (r : RunRecord) (node : ℕ) : Prop :=
  ∀ dependency ∈ g.needsAt node, (r.stateAt dependency).isCompleted = true

/-- The invariant of the dispatcher. -/
structure Safe (g : Graph) (s : Dispatcher) : Prop where
  length : s.record.nodes.length = g.nodeCount
  consistent : s.record.Consistent
  unblocked : ∀ node < g.nodeCount, (s.record.stateAt node).isInFlight = true ∨
    (s.record.stateAt node).isCompleted = true → Unblocked g s.record node
  pending : ∀ node ∈ s.pending, node < g.nodeCount ∧ Unblocked g s.record node
  capacity : s.record.inFlight + s.pending.length ≤ g.maxParallel

section

variable {g : Graph} {s : Dispatcher}

/-- What has completed stays completed, so an unblocked node stays unblocked. -/
theorem Unblocked.perform (hg : g.Sound) {r : RunRecord} (hlen : r.nodes.length = g.nodeCount)
    {node : ℕ} (h : Unblocked g r node) (a : Action) : Unblocked g (r.perform g a).2 node := by
  intro dependency hd
  have hlt : dependency < r.nodes.length := by
    rw [hlen, ← hg.needs_length]
    exact hg.validNeeds.lt (show DependsOn g.needs dependency node from hd)
  have hc := h dependency hd
  rw [RunRecord.stateAt] at hc ⊢
  rw [(RunRecord.nodeStep_perform (g := g) a hlt).eq_of_completed hc]
  exact hc

/-- **One transition keeps the dependencies of nodes in flight completed**, if a node it sends has
its dependencies completed. -/
theorem unblocked_perform (hg : g.Sound) {r : RunRecord} (hlen : r.nodes.length = g.nodeCount)
    (h : ∀ node < g.nodeCount, (r.stateAt node).isInFlight = true ∨
      (r.stateAt node).isCompleted = true → Unblocked g r node)
    (a : Action) (ha : ∀ node epoch now, a = .beginSend node epoch now → Unblocked g r node)
    (node : ℕ) (hn : node < g.nodeCount)
    (hs : ((r.perform g a).2.stateAt node).isInFlight = true ∨
      ((r.perform g a).2.stateAt node).isCompleted = true) :
    Unblocked g (r.perform g a).2 node := by
  refine Unblocked.perform hg hlen ?_ a
  have hstep := RunRecord.nodeStep_perform (g := g) a (hlen ▸ hn)
  rcases hs with hs | hs
  · rcases hstep.of_inFlight hs with hi | ⟨-, epoch, now, he⟩
    · exact h node hn (.inl hi)
    · exact ha node epoch now he
  · exact h node hn (hstep.of_completed hs).symm

theorem Safe.look (h : Safe g s) (hg : g.Sound) (ready : List Bool) :
    Safe g { s with pending := (schedule g s.record ready).send } := by
  obtain ⟨-, hlen, hready⟩ := send_spec s.record ready hg
  refine ⟨h.length, h.consistent, h.unblocked, fun node hn => ?_, ?_⟩
  · exact ⟨(hready node hn).1, (isReady_iff.mp (hready node hn).2).2⟩
  · have := h.capacity
    show s.record.inFlight + (schedule g s.record ready).send.length ≤ g.maxParallel
    omega

theorem Safe.send (h : Safe g s) (hg : g.Sound) (node epoch now : ℕ) (hn : node ∈ s.pending) :
    Safe g { record := (s.record.beginSend node epoch now).2, pending := s.pending.erase node } := by
  have hperform : (s.record.beginSend node epoch now).2
      = (s.record.perform g (.beginSend node epoch now)).2 := rfl
  obtain ⟨hlt, hub⟩ := h.pending node hn
  refine ⟨?_, ?_, fun other ho hs => ?_, fun other ho => ?_, ?_⟩
  · rw [hperform]
    exact (RunRecord.length_perform _).trans h.length
  · rw [hperform]
    exact RunRecord.consistent_perform h.consistent h.length _ hlt
  · refine unblocked_perform hg h.length h.unblocked (.beginSend node epoch now) ?_ other ho hs
    rintro _ _ _ ⟨⟩
    exact hub
  · obtain ⟨hlt', hub'⟩ := h.pending other (mem_of_mem_erase ho)
    exact ⟨hlt', hub'.perform hg h.length (.beginSend node epoch now)⟩
  · have hle := inFlight_beginSend_le (r := s.record) node epoch now
    have hcap := h.capacity
    have hpos := length_pos_of_mem hn
    show (s.record.beginSend node epoch now).2.inFlight + (s.pending.erase node).length ≤ _
    rw [length_erase_of_mem hn]
    omega

theorem Safe.signal (h : Safe g s) (hg : g.Sound) (a : Action) (ha : a.isSignal = true)
    (hr : a.InRange g) : Safe g { s with record := (s.record.perform g a).2 } := by
  refine ⟨(RunRecord.length_perform a).trans h.length, RunRecord.consistent_perform h.consistent h.length
    a hr, fun node hn hs => ?_, fun node hn => ?_, ?_⟩
  · refine unblocked_perform hg h.length h.unblocked a ?_ node hn hs
    rintro _ _ _ rfl
    cases ha
  · obtain ⟨hlt, hub⟩ := h.pending node hn
    exact ⟨hlt, hub.perform hg h.length a⟩
  · have := inFlight_perform_le (g := g) (r := s.record) a ha
    have := h.capacity
    show (s.record.perform g a).2.inFlight + s.pending.length ≤ _
    omega

/-- **Every reachable dispatcher is safe.** -/
theorem safe_of_reachable (hg : g.Sound) (h : Reachable (dispatching g) s) : Safe g s := by
  refine h.invariant ?_ ?_
  · rintro ⟨record, pending⟩ ⟨hp, id, name, input, workspace, now, hr⟩
    simp only at hp hr
    subst hp hr
    have hw : ∀ node, (RunRecord.new id name g input workspace now).stateAt node = .waiting := by
      intro node
      simp only [RunRecord.stateAt, RunRecord.nodeAt, RunRecord.new, getD_eq_getElem?_getD,
        getElem?_replicate]
      split <;> rfl
    refine ⟨by simp [RunRecord.new],
      RunRecord.consistent_new hg.nodes_pos id name input workspace now, fun node _ hs => ?_,
      by simp, ?_⟩
    · rw [hw] at hs
      rcases hs with hs | hs <;> cases hs
    · have : (RunRecord.new id name g input workspace now).inFlight = 0 := by
        refine inFlight_eq_zero ?_
        rintro ⟨node, -, hi⟩
        rw [hw] at hi
        cases hi
      rw [this]
      simp
  · intro s move s' hs hstep
    cases hstep with
    | look ready => exact hs.look hg ready
    | send node epoch now hn => exact hs.send hg node epoch now hn
    | signal a ha hr => exact hs.signal hg a ha hr

/-- An unblocked node has all of its ancestors completed, as each of them was unblocked. -/
theorem Safe.ancestor_completed (h : Safe g s) (hg : g.Sound) {ancestor node : ℕ}
    (hub : Unblocked g s.record node) (ha : g.isAncestor ancestor node = true) :
    (s.record.stateAt ancestor).isCompleted = true := by
  rw [hg.isAncestor_iff] at ha
  induction ha with
  | single hd => exact hub _ hd
  | tail _ hd ih =>
    refine ih (h.unblocked _ ?_ (.inr (hub _ hd)))
    rw [← hg.needs_length]
    exact hg.validNeeds.lt hd

/-- Of two unblocked nodes on one slot, one has completed. -/
theorem Safe.completed_of_slot (h : Safe g s) (hg : g.Sound) {first second : ℕ}
    (hf : first < g.nodeCount) (hs : second < g.nodeCount) (hne : first ≠ second)
    (hslot : g.slotAt first = g.slotAt second) (huf : Unblocked g s.record first)
    (hus : Unblocked g s.record second) :
    (s.record.stateAt first).isCompleted = true ∨ (s.record.stateAt second).isCompleted = true := by
  rcases hg.slots_ordered first hf second hs hne hslot with ha | ha
  · exact .inl (h.ancestor_completed hg hus ha)
  · exact .inr (h.ancestor_completed hg huf ha)

theorem Safe.slot_ne (h : Safe g s) (hg : g.Sound) {first second : ℕ}
    (hf : first < g.nodeCount) (hs : second < g.nodeCount) (hne : first ≠ second)
    (huf : Unblocked g s.record first) (hus : Unblocked g s.record second)
    (hcf : (s.record.stateAt first).isCompleted = false)
    (hcs : (s.record.stateAt second).isCompleted = false) : g.slotAt first ≠ g.slotAt second := by
  intro hslot
  rcases h.completed_of_slot hg hf hs hne hslot huf hus with hc | hc
  · rw [hcf] at hc
    cases hc
  · rw [hcs] at hc
    cases hc

theorem not_completed_of_inFlight {state : NodeState} (h : state.isInFlight = true) :
    state.isCompleted = false := by
  cases state <;> simp_all [NodeState.isInFlight, NodeState.isCompleted]

end

section

variable {d : Definition} {g : Graph} {s : Dispatcher}

/-- **Scheduling is safe.**  In every reachable record there are at most `maxParallel` nodes in
flight, no two of them on one slot, and every node in flight or completed has all of its ancestors
completed; and a schedule lists at most one node of a slot, and none of a slot that is busy. -/
theorem dispatching_safe (hg : Graph.new d = .ok g) (h : Reachable (dispatching g) s) :
    s.record.inFlight ≤ g.maxParallel ∧
    (∀ first < g.nodeCount, ∀ second < g.nodeCount, first ≠ second →
      (s.record.stateAt first).isInFlight = true → (s.record.stateAt second).isInFlight = true →
      g.slotAt first ≠ g.slotAt second) ∧
    (∀ node < g.nodeCount, (s.record.stateAt node).isInFlight = true ∨
      (s.record.stateAt node).isCompleted = true → ∀ ancestor, g.isAncestor ancestor node = true →
      (s.record.stateAt ancestor).isCompleted = true) ∧
    (∀ ready, ((schedule g s.record ready).send.map g.slotAt).Nodup ∧
      ∀ node ∈ (schedule g s.record ready).send, ∀ other < g.nodeCount,
        (s.record.stateAt other).isInFlight = true → g.slotAt node ≠ g.slotAt other) := by
  have hsound := Graph.new_sound hg
  have hsafe := safe_of_reachable hsound h
  refine ⟨Nat.le_of_add_right_le hsafe.capacity, fun first hf second hs hne hif his ↦ ?_,
    fun node hn hs ancestor ha ↦ hsafe.ancestor_completed hsound (hsafe.unblocked node hn hs) ha,
    fun ready ↦ ?_⟩
  · exact hsafe.slot_ne hsound hf hs hne (hsafe.unblocked first hf (.inl hif))
      (hsafe.unblocked second hs (.inl his)) (not_completed_of_inFlight hif)
      (not_completed_of_inFlight his)
  · obtain ⟨hnd, -, hready⟩ := send_spec s.record ready hsound
    refine ⟨hnd.map_on fun first hf second hs hslot ↦ ?_, fun node hn other ho hi ↦ ?_⟩
    · by_contra hne
      obtain ⟨hf1, hf2⟩ := hready first hf
      obtain ⟨hs1, hs2⟩ := hready second hs
      rw [isReady_iff] at hf2 hs2
      exact hsafe.slot_ne hsound hf1 hs1 hne hf2.2 hs2.2 (by rw [hf2.1]; rfl) (by rw [hs2.1]; rfl)
        hslot
    · obtain ⟨hn1, hn2⟩ := hready node hn
      rw [isReady_iff] at hn2
      refine hsafe.slot_ne hsound hn1 ho ?_ hn2.2 (hsafe.unblocked other ho (.inl hi))
        (by rw [hn2.1]; rfl) (not_completed_of_inFlight hi)
      rintro rfl
      rw [hn2.1] at hi
      cases hi

/-- The small graph after a first look sent `plan`. -/
def planSent : Dispatcher where
  record := ((RunRecord.new ⟨0⟩ [] (planReview.graph [0, 1]) [] {} 0).beginSend 0 1 10).2
  pending := []

theorem planSent_reachable : Reachable (dispatching (planReview.graph [0, 1])) planSent := by
  let start : Dispatcher := ⟨RunRecord.new ⟨0⟩ [] (planReview.graph [0, 1]) [] {} 0, []⟩
  have hstart : Reachable (dispatching (planReview.graph [0, 1])) start :=
    .init ⟨rfl, ⟨0⟩, [], [], {}, 0, rfl⟩
  have hlook := hstart.step (Dispatches.look start [true, true])
  exact hlook.step (Dispatches.send _ 0 1 10 (by decide))

theorem dispatching_safe_planSent : planSent.record.inFlight ≤ 3 :=
  (dispatching_safe planReview_new planSent_reachable).1

/-- A node in flight can be reported as failed, under the epoch it was sent under. -/
theorem exists_failApplies {state : NodeState} (h : state.isInFlight = true) :
    ∃ epoch, RunRecord.failApplies state epoch = true := by
  cases state with
  | sending epoch | accepted epoch turn => exact ⟨some epoch, by simp [RunRecord.failApplies]⟩
  | _ => cases h

/-- In a running run with nothing in flight, the first node of the order that has not completed
takes a place. -/
theorem places_ne_nil (hg : g.Sound) (h : Safe g s) (hs : s.record.state = .running)
    (hi : ¬ s.record.HasInFlight) : places g s.record ≠ [] := by
  obtain ⟨node, hn, hnc⟩ := h.consistent.not_allCompleted (by rw [hs]; simp)
  have hmem : node ∈ g.order := by
    rw [hg.isOrder.mem_iff, hg.needs_length, ← h.length]
    exact hn
  obtain ⟨first, hf, hnot, hbefore⟩ := hg.isOrder.ordered.exists_first
    (P := fun node => (s.record.stateAt node).isCompleted = true) hmem (by simp [hnc])
  have hlt : first < s.record.nodes.length := by
    rw [h.length, ← hg.needs_length]
    exact (hg.isOrder.mem_iff first).mp hf
  have hw : s.record.stateAt first = .waiting := by
    rcases h.consistent.running hs first hlt with hw | hw | hw
    · exact hw
    · exact absurd ⟨first, hlt, hw⟩ hi
    · exact absurd hw hnot
  have hready : isReady g s.record first = true := isReady_iff.mpr ⟨hw, hbefore⟩
  have hfilter : g.order.filter (isReady g s.record) ≠ [] :=
    ne_nil_of_mem (mem_filter.mpr ⟨hf, hready⟩)
  have hpos := hg.maxParallel_pos
  rw [places, inFlight_eq_zero hi, ne_eq, take_eq_nil_iff, not_or]
  exact ⟨by omega, hfilter⟩

/-- **A running run is never stuck.**  With nothing in flight every schedule has something to send or
to prepare, and something to send when every slot is ready; and a failing run has a node in flight,
for which some report of a failure applies. -/
theorem dispatching_progress (hg : Graph.new d = .ok g) (h : Reachable (dispatching g) s) :
    (s.record.state = .running →
      (∀ node < g.nodeCount, (s.record.stateAt node).isInFlight = false) →
      (∀ ready, (schedule g s.record ready).send ≠ [] ∨ (schedule g s.record ready).prepare ≠ []) ∧
      ∀ ready, (∀ slot < g.slotCount, ready.getD slot false = true) →
        (schedule g s.record ready).send ≠ []) ∧
    (s.record.state = .failing → ∃ node < g.nodeCount,
      (s.record.stateAt node).isInFlight = true ∧
      ∃ epoch, ∀ reason now, (s.record.fail node epoch reason now).1 = true) := by
  have hsound := Graph.new_sound hg
  have hsafe := safe_of_reachable hsound h
  refine ⟨fun hs hnone ↦ ?_, fun hs ↦ ?_⟩
  · have hi : ¬ s.record.HasInFlight := by
      rintro ⟨node, hn, hf⟩
      rw [hnone node (hsafe.length ▸ hn)] at hf
      cases hf
    have hplaces := places_ne_nil hsound hsafe hs hi
    refine ⟨fun ready ↦ schedule_nonempty hs hplaces, fun ready hready ↦ ?_⟩
    obtain ⟨node, rest, hp⟩ := exists_cons_of_ne_nil hplaces
    have hn : node < g.nodeCount := by
      have hm : node ∈ places g s.record := by rw [hp]; simp
      have := (mem_filter.mp (mem_of_mem_take hm)).1
      rwa [hsound.isOrder.mem_iff, hsound.needs_length] at this
    rw [send_eq hs, hp, filter_cons, hready _ (hsound.slot_lt node hn)]
    simp
  · obtain ⟨node, hn, hi⟩ := (hsafe.consistent.failing hs).2
    obtain ⟨epoch, he⟩ := exists_failApplies hi
    refine ⟨node, hsafe.length ▸ hn, hi, epoch, fun reason now ↦ ?_⟩
    rw [RunRecord.fail, if_neg (by rw [hs, he]; simp [RunState.isLive])]

/-- A new run of the small graph has something to send. -/
theorem dispatching_progress_planReview : (schedule (planReview.graph [0, 1])
    (RunRecord.new ⟨0⟩ [] (planReview.graph [0, 1]) [] {} 0) [true, true]).send ≠ [] :=
  ((dispatching_progress (s := ⟨_, []⟩) planReview_new
    (.init ⟨rfl, ⟨0⟩, [], [], {}, 0, rfl⟩)).1 rfl (by decide)).2 [true, true] (by decide)

end

end NiumaTerm.Orchestration
