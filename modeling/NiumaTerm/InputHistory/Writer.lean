import NiumaTerm.InputHistory.Store
import NiumaTerm.Lib.History

/-!
# The writer of one process

A process queues snapshots for its writer, of which only the newest waits: it looks whether the writer
has stopped, and then exchanges what waits.  `Process.Sound`: every flush is outstanding at one place or
answered once (`tally`), and nobody waits for a snapshot older than its own.
-/

namespace NiumaTerm.InputHistory

open Rust History List

/-! ## The process -/

/-- A call of `flush`; `version` counts the prompts recorded before it. -/
structure Flush where
  number : ℕ
  version : ℕ
  snapshot : StoredHistory
deriving DecidableEq

/-- The source's `PendingWrite`. -/
structure PendingWrite where
  snapshot : StoredHistory
  version : ℕ
  waiters : List Flush
deriving DecidableEq

/-- A snapshot between the two steps of queueing it. -/
structure Queueing where
  snapshot : StoredHistory
  version : ℕ
  flush : Option Flush
deriving DecidableEq

/-- Where `run_writer` is. -/
inductive Task
  | waiting
  | woken
  | saving (request : PendingWrite)
  | answering (request : PendingWrite) (stored : Bool)
  | ended
deriving DecidableEq

def Task.request : Task → Option PendingWrite
  | saving request | answering request _ => some request
  | _ => none

def Task.waiters (task : Task) : List Flush := (task.request.map PendingWrite.waiters).getD []

inductive SaveResult
  | stored
  | failed
  | panicked

inductive Event
  | asked (flush version : ℕ)
  /-- A snapshot of this version has reached the file. -/
  | stored (version : ℕ)
  | failed (version : ℕ)
  | answered (flush : ℕ) (ok : Bool)

/-- The outcome of a save. -/
def Event.saved (stored : Bool) (version : ℕ) : Event := if stored then .stored version else .failed version

structure Process where
  store : HistoryStore
  version : ℕ
  asked : ℕ
  queueing : List Queueing
  pending : Option PendingWrite
  permit : Bool
  closed : Bool
  task : Task
  /-- Flushes that save their snapshots themselves. -/
  direct : List Flush
  log : List Event

namespace Process

/-- `AgentInputHistory::open`. -/
def new (store : HistoryStore) : Process where
  store := store
  version := 0
  asked := 0
  queueing := []
  pending := none
  permit := false
  closed := false
  task := .waiting
  direct := []
  log := []

variable (p : Process)

def pendingWaiters : List Flush := (p.pending.map PendingWrite.waiters).getD []

/-- The first step of `queue`. -/
def queue (snapshot : StoredHistory) (flush : Option Flush) : Process :=
  match p.task with
  | .ended => { p with direct := p.direct ++ flush.toList }
  | _ => { p with queueing := p.queueing ++ [{ snapshot, version := p.version, flush }] }

/-- The second step. -/
def push (queued : Queueing) : Process :=
  { p with
    queueing := p.queueing.erase queued
    pending := some { snapshot := queued.snapshot, version := queued.version,
                      waiters := p.pendingWaiters ++ queued.flush.toList }
    permit := true }

def record (scope : Scope) (text : Str) (now : ℕ) (id : Uuid) : Process :=
  match p.store.record scope text now id with
  | (true, store) => { p with store, version := p.version + 1 }.queue store.toStored none
  | (false, _) => p

def flush : Process :=
  let flush : Flush := { number := p.asked, version := p.version, snapshot := p.store.toStored }
  let p := { p with asked := p.asked + 1, log := p.log ++ [Event.asked flush.number flush.version] }
  p.queue flush.snapshot (some flush)

/-- The state of the writer is dropped with its last owner, and with it what waits. -/
def dropState : Process :=
  if p.closed && p.task = .ended then { p with pending := none, direct := p.direct ++ p.pendingWaiters } else p

def wake : Process := { p with task := .woken, permit := false }

def take : Process :=
  match p.pending with
  | some request => { p with pending := none, task := .saving request }
  | none => { p with task := if p.closed then .ended else .waiting }

def finishSave (result : SaveResult) : Process :=
  match p.task with
  | .saving request =>
    match result with
    | .stored => { p with task := .answering request true, log := p.log ++ [.stored request.version] }
    | .failed => { p with task := .answering request false, log := p.log ++ [.failed request.version] }
    | .panicked =>
      let p := { p with task := .ended }.dropState
      { p with direct := p.direct ++ request.waiters }
  | _ => p

def answer : Process :=
  match p.task with
  | .answering request stored =>
    let p :=
      if stored then { p with log := p.log ++ request.waiters.map fun flush => .answered flush.number true }
      else { p with direct := p.direct ++ request.waiters }
    { p with task := if p.closed && p.pending.isNone then .ended else .waiting }
  | _ => p

def close : Process := { p with closed := true, permit := true }.dropState

/-- A flush that the writer did not confirm. -/
def saveDirect (flush : Flush) (stored : Bool) : Process :=
  { p with
    direct := p.direct.erase flush
    log := p.log ++ [.saved stored flush.version, .answered flush.number stored] }

inductive Call
  | record (scope : Scope) (text : Str) (now : ℕ) (id : Uuid)
  | flush
  | push (queued : Queueing)
  | wake
  | take
  | finishSave (result : SaveResult)
  | answer
  | close
  | saveDirect (flush : Flush) (stored : Bool)

def perform : Call → Process
  | .record scope text now id => p.record scope text now id
  | .flush => p.flush
  | .push queued => p.push queued
  | .wake => p.wake
  | .take => p.take
  | .finishSave result => p.finishSave result
  | .answer => p.answer
  | .close => p.close
  | .saveDirect flush stored => p.saveDirect flush stored

/-- Recording borrows the history for itself, flushes share it. -/
def Enabled : Call → Prop
  | .record _ _ _ _ | .close => p.closed = false ∧ p.queueing = []
  | .flush => p.closed = false ∧ ∀ queued ∈ p.queueing, queued.flush.isSome = true
  | .push queued => queued ∈ p.queueing
  | .wake => p.task = .waiting ∧ p.permit = true
  | .take => p.task = .woken
  | .finishSave _ => ∃ request, p.task = .saving request
  | .answer => ∃ request stored, p.task = .answering request stored
  | .saveDirect flush _ => flush ∈ p.direct

/-- The snapshot that reaches the file with the call. -/
def saves : Call → Option StoredHistory
  | .finishSave .stored =>
    match p.task with
    | .saving request => some request.snapshot
    | _ => none
  | .saveDirect flush true => some flush.snapshot
  | _ => none

end Process

/-! ## The property -/

/-- A flush is answered once, after its snapshot or a newer one was stored or a save of it failed. -/
def Event.Allowed (log : List Event) : Event → Prop
  | .asked number _ => ∀ version, .asked number version ∉ log
  | .answered number ok => (∀ earlier, .answered number earlier ∉ log) ∧ ∃ version saved, version ≤ saved ∧
      .asked number version ∈ log ∧ (if ok then .stored saved ∈ log else .failed saved ∈ log)
  | _ => True

namespace Process

variable (p : Process)

/-- Nothing is left to do for the writer and the flushes. -/
structure Settled : Prop where
  queueing : p.queueing = []
  direct : p.direct = []
  task : p.task = .ended ∨ (p.task = .waiting ∧ p.permit = false)

/-- Each flush is answered once, and all of them when nothing is left to do. -/
structure Answers : Prop where
  allowed : AtEach Event.Allowed p.log
  all : p.Settled → ∀ number version, .asked number version ∈ p.log → ∃ ok, .answered number ok ∈ p.log

/-- The call leaves no flush behind in a writer that has ended. -/
def LeavesNone : Call → Prop
  | .push queued => queued.flush.isSome = true → p.task ≠ .ended
  | .finishSave .panicked => p.closed = true ∨ p.pendingWaiters = []
  | _ => True

/-! ## The books -/

def outstanding : List Flush :=
  p.queueing.filterMap Queueing.flush ++ p.pendingWaiters ++ (p.task.waiters ++ p.direct)

def answeredNumbers (log : List Event) : List ℕ :=
  log.filterMap fun
    | .answered number _ => some number
    | _ => none

def tally (number : ℕ) : ℕ := (p.outstanding.map Flush.number).count number + (answeredNumbers p.log).count number

structure Sound : Prop where
  queueing : ∀ queued ∈ p.queueing, queued.version = p.version ∧ ∀ flush ∈ queued.flush, flush.version = p.version
  pending : ∀ request ∈ p.pending, request.version ≤ p.version ∧ ∀ flush ∈ request.waiters, flush.version ≤ request.version
  task : ∀ request ∈ p.task.request, ∀ flush ∈ request.waiters, flush.version ≤ request.version
  stored : ∀ request, p.task = .answering request true → .stored request.version ∈ p.log
  tally : ∀ number, p.tally number = if number < p.asked then 1 else 0
  asked : ∀ flush ∈ p.outstanding, .asked flush.number flush.version ∈ p.log
  asked_lt : ∀ number version, .asked number version ∈ p.log → number < p.asked
  permit : p.pending.isSome = true → p.permit = true ∨ p.task = .woken
  ended : p.task = .ended → p.pendingWaiters = []
  allowed : AtEach Event.Allowed p.log

/-! ## Where a flush is -/

variable {p} {number : ℕ}

theorem tally_eq : p.tally number = ((p.queueing.filterMap Queueing.flush).map Flush.number).count number +
    (p.pendingWaiters.map Flush.number).count number + (p.task.waiters.map Flush.number).count number +
    (p.direct.map Flush.number).count number + (answeredNumbers p.log).count number := by
  simp only [tally, outstanding, map_append, count_append]
  omega

theorem mem_outstanding {flush : Flush} : flush ∈ p.outstanding ↔ (∃ queued ∈ p.queueing, queued.flush = some flush) ∨
    flush ∈ p.pendingWaiters ∨ flush ∈ p.task.waiters ∨ flush ∈ p.direct := by
  simp [outstanding]

theorem mem_pendingWaiters {flush : Flush} : flush ∈ p.pendingWaiters ↔
    ∃ request ∈ p.pending, flush ∈ request.waiters := by
  unfold pendingWaiters
  cases p.pending <;> simp

/-- A queueing stays among what is outstanding. -/
theorem mem_outstanding_push {queued : Queueing} {flush : Flush} (hm : queued ∈ p.queueing)
    (ho : flush ∈ (p.push queued).outstanding) : flush ∈ p.outstanding := by
  have hwaiters : (p.push queued).pendingWaiters = p.pendingWaiters ++ queued.flush.toList := rfl
  rw [mem_outstanding, hwaiters, mem_append] at ho
  rw [mem_outstanding]
  rcases ho with ⟨other, ho, hf⟩ | (ho | ho) | ho
  · exact .inl ⟨other, mem_of_mem_erase ho, hf⟩
  · exact .inr (.inl ho)
  · exact .inl ⟨queued, hm, by simpa using ho⟩
  · exact .inr (.inr ho)

theorem Task.mem_waiters {task : Task} {flush : Flush} : flush ∈ task.waiters ↔
    ∃ request ∈ task.request, flush ∈ request.waiters := by
  unfold Task.waiters
  cases task.request <;> simp

theorem answeredNumbers_concat (log : List Event) (e : Event) : answeredNumbers (log ++ [e]) =
    answeredNumbers log ++ answeredNumbers [e] := filterMap_append

theorem mem_answeredNumbers {log : List Event} {ok : Bool} (h : .answered number ok ∈ log) :
    number ∈ answeredNumbers log := mem_filterMap.mpr ⟨_, h, rfl⟩

theorem queue_of_ended (h : p.task = .ended) (snapshot : StoredHistory) (flush : Option Flush) :
    p.queue snapshot flush = { p with direct := p.direct ++ flush.toList } := by
  rw [queue, h]

theorem queue_of_ne (h : p.task ≠ .ended) (snapshot : StoredHistory) (flush : Option Flush) :
    p.queue snapshot flush =
      { p with queueing := p.queueing ++ [{ snapshot, version := p.version, flush }] } := by
  unfold queue
  split
  · rename_i ht
    exact absurd ht h
  · rfl

theorem dropState_of (h : p.closed = true ∧ p.task = .ended) :
    p.dropState = { p with pending := none, direct := p.direct ++ p.pendingWaiters } := by
  rw [dropState, if_pos]
  rw [h.1, h.2]
  rfl

theorem dropState_of_not (h : ¬ (p.closed = true ∧ p.task = .ended)) : p.dropState = p := by
  rw [dropState, if_neg]
  rwa [Bool.and_eq_true, decide_eq_true_eq]

namespace Sound

theorem new (store : HistoryStore) : (Process.new store).Sound where
  queueing _ hm := by cases hm
  pending _ hm := by cases hm
  task _ hm := by cases hm
  stored _ hm := by cases hm
  tally _ := rfl
  asked _ hm := by cases hm
  asked_lt _ _ hm := by cases hm
  permit hm := by cases hm
  ended hm := by cases hm
  allowed := atEach_nil

theorem not_answered (hs : p.Sound) {flush : Flush} (hm : flush ∈ p.outstanding) (ok : Bool) :
    .answered flush.number ok ∉ p.log := by
  intro hans
  have htally := hs.tally flush.number
  have hout : 0 < (p.outstanding.map Flush.number).count flush.number :=
    count_pos_iff.mpr (mem_map_of_mem hm)
  have hlog : 0 < (answeredNumbers p.log).count flush.number := count_pos_iff.mpr (mem_answeredNumbers hans)
  unfold Process.tally at htally
  split at htally <;> omega

theorem record (hs : p.Sound) {scope : Scope} {text : Str} {now : ℕ} {id : Uuid} (hq : p.queueing = []) :
    (p.record scope text now id).Sound := by
  unfold Process.record
  split
  · rename_i store _
    have hversion : ∀ request ∈ p.pending,
        request.version ≤ p.version + 1 ∧ ∀ flush ∈ request.waiters, flush.version ≤ request.version :=
      fun request hm => ⟨Nat.le_succ_of_le (hs.pending request hm).1, (hs.pending request hm).2⟩
    by_cases ht : p.task = .ended
    · rw [queue_of_ended (by exact ht), Option.toList_none, append_nil]
      exact ⟨fun queued hm => (by rw [show p.queueing = [] from hq] at hm; cases hm), hversion, hs.task, hs.stored, hs.tally, hs.asked,
        hs.asked_lt, hs.permit, hs.ended, hs.allowed⟩
    · rw [queue_of_ne (by exact ht)]
      have hout : (p.queueing ++ [({ snapshot := store.toStored, version := p.version + 1, flush := none } : Queueing)]).filterMap
          Queueing.flush = p.queueing.filterMap Queueing.flush := by
        rw [filterMap_append]
        exact append_nil _
      refine ⟨fun queued hm => ?_, hversion, hs.task, hs.stored, fun number => ?_, fun flush hm => ?_, hs.asked_lt,
        hs.permit, hs.ended, hs.allowed⟩
      · rw [hq, nil_append, mem_singleton] at hm
        subst hm
        exact ⟨rfl, fun flush hf => by cases hf⟩
      · rw [← hs.tally number, tally_eq, tally_eq]
        dsimp only
        rw [hout]
        rfl
      · refine hs.asked flush ?_
        unfold outstanding at hm
        rw [hout] at hm
        exact hm
  · exact hs

theorem count_flush (flush : Flush) : ([flush].map Flush.number).count number =
    if number = flush.number then 1 else 0 := by
  rw [map_singleton, count_singleton]
  simp only [beq_iff_eq, eq_comm (a := number)]

theorem flush (hs : p.Sound) : p.flush.Sound := by
  let f : Flush := { number := p.asked, version := p.version, snapshot := p.store.toStored }
  have hallowed : AtEach Event.Allowed (p.log ++ [.asked f.number f.version]) :=
    hs.allowed.concat fun version hm => absurd (hs.asked_lt _ _ hm) (Nat.lt_irrefl _)
  have hasked : ∀ number version, .asked number version ∈ p.log ++ [.asked f.number f.version] →
      number < p.asked + 1 := by
    intro number version hm
    rcases mem_append.mp hm with hm | hm
    · exact Nat.lt_succ_of_lt (hs.asked_lt _ _ hm)
    · cases mem_singleton.mp hm
      exact Nat.lt_succ_self _
  have hstored : ∀ request, p.task = .answering request true →
      .stored request.version ∈ p.log ++ [.asked f.number f.version] :=
    fun request ht => mem_append_left _ (hs.stored request ht)
  have hmem : ∀ flush, (flush ∈ p.outstanding ∨ flush = f) →
      .asked flush.number flush.version ∈ p.log ++ [.asked f.number f.version] := by
    rintro flush (hm | rfl)
    · exact mem_append_left _ (hs.asked flush hm)
    · exact mem_append_right _ (mem_singleton.mpr rfl)
  have htally (number : ℕ) : p.tally number + ([f].map Flush.number).count number =
      if number < p.asked + 1 then 1 else 0 := by
    rw [hs.tally, count_flush]
    show (if number < p.asked then 1 else 0) + (if number = p.asked then 1 else 0) = _
    split_ifs <;> omega
  have hnumbers : answeredNumbers (p.log ++ [.asked f.number f.version]) = answeredNumbers p.log := by
    rw [answeredNumbers_concat]
    exact append_nil _
  rw [Process.flush]
  by_cases ht : p.task = .ended
  · rw [queue_of_ended (by exact ht)]
    refine ⟨hs.queueing, hs.pending, hs.task, hstored, fun number => ?_, fun flush hm => hmem flush ?_, hasked,
      hs.permit, hs.ended, hallowed⟩
    · rw [← htally number, tally_eq, tally_eq]
      dsimp only [f]
      rw [hnumbers, Option.toList_some, map_append, count_append]
      simp only [pendingWaiters]
      omega
    · rw [mem_outstanding] at hm ⊢
      simpa [f, or_assoc, pendingWaiters] using hm
  · rw [queue_of_ne (by exact ht)]
    have hout : (p.queueing ++ [({ snapshot := f.snapshot, version := p.version, flush := some f } : Queueing)]).filterMap
        Queueing.flush = p.queueing.filterMap Queueing.flush ++ [f] := filterMap_append
    refine ⟨fun queued hm => ?_, hs.pending, hs.task, hstored, fun number => ?_, fun flush hm => hmem flush ?_,
      hasked, hs.permit, hs.ended, hallowed⟩
    · rcases mem_append.mp hm with hm | hm
      · exact hs.queueing queued hm
      · rw [mem_singleton.mp hm]
        refine ⟨rfl, fun flush hf => ?_⟩
        cases hf
        rfl
    · rw [← htally number, tally_eq, tally_eq]
      dsimp only
      rw [hnumbers, hout, map_append, count_append]
      simp only [pendingWaiters]
      omega
    · unfold outstanding at hm
      dsimp only at hm
      rw [hout] at hm
      simp only [mem_append, mem_singleton] at hm
      simp only [outstanding, mem_append]
      tauto

theorem push (hs : p.Sound) {queued : Queueing} (hm : queued ∈ p.queueing)
    (hl : queued.flush.isSome = true → p.task ≠ .ended) : (p.push queued).Sound := by
  obtain ⟨hversion, hflush⟩ := hs.queueing queued hm
  have hperm := (perm_cons_erase hm).filterMap Queueing.flush
  have hwaiters : (p.push queued).pendingWaiters = p.pendingWaiters ++ queued.flush.toList := rfl
  refine ⟨fun other ho => hs.queueing other (mem_of_mem_erase ho), fun request hr => ?_, hs.task, hs.stored,
    fun number => ?_, fun flush ho => hs.asked flush (mem_outstanding_push hm ho), hs.asked_lt, fun _ => .inl rfl,
    fun ht => ?_, hs.allowed⟩
  · cases hr
    refine ⟨Nat.le_of_eq hversion, fun flush hf => ?_⟩
    dsimp only
    rw [hversion]
    rcases mem_append.mp hf with hf | hf
    · obtain ⟨request, hr, hf⟩ := mem_pendingWaiters.mp hf
      obtain ⟨hle, hwait⟩ := hs.pending request hr
      exact Nat.le_trans (hwait flush hf) hle
    · exact Nat.le_of_eq (hflush flush (by simpa using hf))
  · refine Eq.trans ?_ (hs.tally number)
    rw [tally_eq, tally_eq, hwaiters]
    have hcount := (hperm.map Flush.number).count_eq number
    have hcons : (queued :: p.queueing.erase queued).filterMap Queueing.flush =
        queued.flush.toList ++ (p.queueing.erase queued).filterMap Queueing.flush := by
      cases hf : queued.flush with
      | none => rw [filterMap_cons_none hf]; rfl
      | some flush => rw [filterMap_cons_some hf]; rfl
    rw [hcons, map_append, count_append] at hcount
    rw [map_append, count_append]
    simp only [Process.push]
    omega
  · rw [hwaiters, hs.ended ht]
    cases hf : queued.flush with
    | none => rfl
    | some flush => exact absurd ht (hl (by rw [hf]; rfl))

theorem wake (hs : p.Sound) (ht : p.task = .waiting) : p.wake.Sound := by
  have hwaiters : p.wake.task.waiters = p.task.waiters := by
    rw [ht]
    rfl
  refine ⟨hs.queueing, hs.pending, fun request hr => (by cases hr), fun request hr => (by cases hr), fun number => ?_,
    fun flush hm => hs.asked flush ?_, hs.asked_lt, fun _ => .inr rfl, fun h => (by cases h), hs.allowed⟩
  · refine Eq.trans ?_ (hs.tally number)
    rw [tally_eq, tally_eq, hwaiters]
    rfl
  · rw [mem_outstanding, hwaiters] at hm
    exact mem_outstanding.mpr hm

theorem take (hs : p.Sound) (ht : p.task = .woken) : p.take.Sound := by
  have hnone : p.task.waiters = [] := by
    rw [ht]
    rfl
  unfold Process.take
  split
  · rename_i request hp
    have hwaiters : p.pendingWaiters = request.waiters := by
      rw [pendingWaiters, hp]
      rfl
    refine ⟨hs.queueing, fun _ hr => (by cases hr), fun other ho => ?_, fun _ h => (by cases h), fun number => ?_,
      fun flush hm => hs.asked flush ?_, hs.asked_lt, fun h => (by cases h), fun h => (by cases h), hs.allowed⟩
    · cases ho
      exact (hs.pending request hp).2
    · rw [← hs.tally number, tally_eq, tally_eq, hnone, hwaiters]
      simp only [pendingWaiters, Task.waiters, Task.request, Option.map_none, Option.getD_none, Option.map_some,
        Option.getD_some, map_nil, count_nil]
      omega
    · rw [mem_outstanding] at hm ⊢
      rw [hnone, hwaiters]
      rcases hm with hm | hm | hm | hm
      · exact .inl hm
      · cases hm
      · exact .inr (.inl hm)
      · exact .inr (.inr (.inr hm))
  · rename_i hp
    have hwaiters : (if p.closed then Task.ended else Task.waiting).waiters = p.task.waiters := by
      rw [hnone]
      split <;> rfl
    have hrequest : (if p.closed then Task.ended else Task.waiting).request = none := by
      split <;> rfl
    refine ⟨hs.queueing, hs.pending, fun other ho => ?_, fun other ho => ?_, fun number => ?_,
      fun flush hm => hs.asked flush ?_, hs.asked_lt, fun h => ?_, fun _ => ?_, hs.allowed⟩
    · rw [hrequest] at ho
      cases ho
    · dsimp only at ho
      split at ho <;> cases ho
    · rw [← hs.tally number, tally_eq, tally_eq]
      dsimp only
      rw [hwaiters]
      rfl
    · rw [mem_outstanding] at hm ⊢
      rw [← hwaiters]
      exact hm
    · dsimp only at h
      rw [hp] at h
      cases h
    · rw [pendingWaiters]
      dsimp only
      rw [hp]
      rfl

/-- What waits is left to the flushes themselves. -/
theorem dropPending (hs : p.Sound) : { p with pending := none, direct := p.direct ++ p.pendingWaiters }.Sound := by
  refine ⟨hs.queueing, fun _ hr => (by cases hr), hs.task, hs.stored, fun number => ?_, fun flush hm => hs.asked flush ?_,
    hs.asked_lt, fun h => (by cases h), fun _ => rfl, hs.allowed⟩
  · refine Eq.trans ?_ (hs.tally number)
    rw [tally_eq, tally_eq]
    simp only [pendingWaiters, map_append, count_append, Option.map_none, Option.getD_none, map_nil,
      count_nil]
    omega
  · rw [mem_outstanding] at hm ⊢
    rcases hm with hm | hm | hm | hm
    · exact .inl hm
    · cases hm
    · exact .inr (.inr (.inl hm))
    · rcases mem_append.mp hm with hm | hm
      · exact .inr (.inr (.inr hm))
      · exact .inr (.inl hm)

/-- The task gives up its request without an answer. -/
theorem leave (hs : p.Sound) {task : Task} (hr : task.request = none)
    (hpermit : p.pending.isSome = true → p.permit = true ∨ task = .woken) (hended : task = .ended → p.pendingWaiters = []) :
    { p with task, direct := p.direct ++ p.task.waiters }.Sound := by
  have hnone : task.waiters = [] := by
    rw [Task.waiters, hr]
    rfl
  refine ⟨hs.queueing, hs.pending, fun request hm => ?_, fun request ht => ?_, fun number => ?_,
    fun flush hm => hs.asked flush ?_, hs.asked_lt, hpermit, hended, hs.allowed⟩
  · rw [hr] at hm
    cases hm
  · dsimp only at ht
    rw [ht] at hr
    cases hr
  · refine Eq.trans ?_ (hs.tally number)
    rw [tally_eq, tally_eq]
    dsimp only
    rw [hnone, map_append, count_append]
    simp only [pendingWaiters, map_nil, count_nil]
    omega
  · rw [mem_outstanding] at hm ⊢
    rcases hm with hm | hm | hm | hm
    · exact .inl hm
    · exact .inr (.inl hm)
    · dsimp only at hm
      rw [hnone] at hm
      cases hm
    · rcases mem_append.mp hm with hm | hm
      · exact .inr (.inr (.inr hm))
      · exact .inr (.inr (.inl hm))

/-- The log grows by the outcome of a save, which is no answer yet. -/
theorem saved (hs : p.Sound) {request : PendingWrite} (ht : p.task = .saving request) (stored : Bool) :
    { p with task := .answering request stored, log := p.log ++ [Event.saved stored request.version] }.Sound := by
  have hwaiters : (Task.answering request stored).waiters = p.task.waiters := by
    rw [ht]
    rfl
  have hnumbers : answeredNumbers (p.log ++ [.saved stored request.version]) = answeredNumbers p.log := by
    rw [answeredNumbers_concat]
    cases stored <;> exact append_nil _
  refine ⟨hs.queueing, hs.pending, fun other ho => ?_, fun other ho => ?_, fun number => ?_, fun flush hm => ?_,
    fun number version hm => ?_, fun h => ?_, fun h => (by cases h), hs.allowed.concat ?_⟩
  · exact hs.task other (by rw [ht]; exact ho)
  · cases ho
    exact mem_append_right _ (mem_singleton.mpr rfl)
  · refine Eq.trans ?_ (hs.tally number)
    rw [tally_eq, tally_eq]
    dsimp only
    rw [hwaiters, hnumbers]
    rfl
  · refine mem_append_left _ (hs.asked flush ?_)
    rw [mem_outstanding] at hm ⊢
    rw [← hwaiters]
    exact hm
  · rcases mem_append.mp hm with hm | hm
    · exact hs.asked_lt _ _ hm
    · cases stored <;> cases mem_singleton.mp hm
  · refine .inl ((hs.permit h).resolve_right ?_)
    rw [ht]
    exact fun h => by cases h
  · cases stored <;> trivial

theorem finishSave (hs : p.Sound) {result : SaveResult} (he : ∃ request, p.task = .saving request)
    (hl : p.LeavesNone (.finishSave result)) : (p.finishSave result).Sound := by
  obtain ⟨request, ht⟩ := he
  have hwoken : p.task ≠ .woken := by
    rw [ht]
    exact fun h => by cases h
  have hwaiters : p.task.waiters = request.waiters := by
    rw [ht]
    rfl
  rw [Process.finishSave, ht]
  cases result with
  | stored => exact hs.saved ht true
  | failed => exact hs.saved ht false
  | panicked =>
    dsimp only
    by_cases hc : p.closed = true
    · rw [dropState_of (p := { p with task := .ended }) ⟨hc, rfl⟩, ← hwaiters]
      exact hs.dropPending.leave rfl (fun h => by cases h) fun _ => rfl
    · rw [dropState_of_not (p := { p with task := .ended }) fun h => hc h.1, ← hwaiters]
      exact hs.leave rfl (fun h => .inl ((hs.permit h).resolve_right hwoken)) fun _ => hl.resolve_left hc

theorem close (hs : p.Sound) : p.close.Sound := by
  have hclosed : { p with closed := true, permit := true }.Sound :=
    ⟨hs.queueing, hs.pending, hs.task, hs.stored, hs.tally, hs.asked, hs.asked_lt, fun _ => .inl rfl, hs.ended,
      hs.allowed⟩
  unfold Process.close
  by_cases ht : p.task = .ended
  · rw [dropState_of (p := { p with closed := true, permit := true }) ⟨rfl, ht⟩]
    exact hclosed.dropPending
  · rw [dropState_of_not (p := { p with closed := true, permit := true }) fun h => ht h.2]
    exact hclosed

/-- Those who wait with a request are different flushes. -/
theorem number_ne (hs : p.Sound) {first second : List Flush} {flush : Flush} (hw : p.task.waiters = first ++ flush :: second) :
    ∀ other ∈ first, other.number ≠ flush.number := by
  intro other ho heq
  have htally := hs.tally flush.number
  rw [tally_eq, hw, map_append, map_cons, count_append, count_cons_self] at htally
  have hpos : 0 < (first.map Flush.number).count flush.number :=
    count_pos_iff.mpr (heq ▸ mem_map_of_mem ho)
  split at htally <;> omega

/-- Everybody who waits with a stored request is answered. -/
theorem answerAll (hs : p.Sound) {request : PendingWrite} (ht : p.task = .answering request true) {task : Task}
    (hr : task.request = none) (hpermit : p.pending.isSome = true → p.permit = true ∨ task = .woken)
    (hended : task = .ended → p.pendingWaiters = []) :
    { p with task, log := p.log ++ request.waiters.map fun flush : Flush => Event.answered flush.number true }.Sound := by
  have hwaiters : p.task.waiters = request.waiters := by
    rw [ht]
    rfl
  have hnone : task.waiters = [] := by
    rw [Task.waiters, hr]
    rfl
  have hnumbers : answeredNumbers (p.log ++ request.waiters.map fun flush => Event.answered flush.number true) =
      answeredNumbers p.log ++ request.waiters.map Flush.number := by
    rw [answeredNumbers, filterMap_append, filterMap_map]
    congr 1
    rw [← filterMap_eq_map]
    rfl
  have hold {number version : ℕ}
      (hm : .asked number version ∈ p.log ++ request.waiters.map fun flush => Event.answered flush.number true) :
      .asked number version ∈ p.log := by
    rcases mem_append.mp hm with hm | hm
    · exact hm
    · obtain ⟨flush, -, hf⟩ := mem_map.mp hm
      cases hf
  refine ⟨hs.queueing, hs.pending, fun request hm => ?_, fun other ho => ?_, fun number => ?_,
    fun flush hm => mem_append_left _ (hs.asked flush ?_), fun number version hm => hs.asked_lt _ _ (hold hm),
    hpermit, hended, hs.allowed.append fun before e after hsplit => ?_⟩
  · rw [hr] at hm
    cases hm
  · dsimp only at ho
    rw [ho] at hr
    cases hr
  · refine Eq.trans ?_ (hs.tally number)
    rw [tally_eq, tally_eq, hwaiters]
    dsimp only
    rw [hnone, hnumbers, count_append]
    simp only [pendingWaiters, map_nil, count_nil]
    omega
  · rw [mem_outstanding] at hm ⊢
    rcases hm with hm | hm | hm | hm
    · exact .inl hm
    · exact .inr (.inl hm)
    · dsimp only at hm
      rw [hnone] at hm
      cases hm
    · exact .inr (.inr (.inr hm))
  · obtain ⟨first, rest, hw, rfl, hrest⟩ := map_eq_append_iff.mp hsplit
    obtain ⟨flush, second, rfl, rfl, -⟩ := map_eq_cons_iff.mp hrest
    have hmem : flush ∈ p.task.waiters := by
      rw [hwaiters, hw]
      simp
    have hout : flush ∈ p.outstanding := mem_outstanding.mpr (.inr (.inr (.inl hmem)))
    refine ⟨fun earlier hm => ?_, flush.version, request.version, ?_, mem_append_left _ (hs.asked flush hout),
      mem_append_left _ (hs.stored request ht)⟩
    · rcases mem_append.mp hm with hm | hm
      · exact hs.not_answered hout earlier hm
      · obtain ⟨other, ho, hother⟩ := mem_map.mp hm
        injection hother with hnumber
        exact hs.number_ne (hwaiters.trans hw) other ho hnumber
    · refine hs.task request (by rw [ht]; rfl) flush ?_
      rw [hw]
      simp

theorem answer (hs : p.Sound) (he : ∃ request stored, p.task = .answering request stored) : p.answer.Sound := by
  obtain ⟨request, stored, ht⟩ := he
  have hpermit (h : p.pending.isSome = true) : p.permit = true :=
    (hs.permit h).resolve_right fun h => by rw [ht] at h; cases h
  have hnext : (if p.closed && p.pending.isNone then Task.ended else Task.waiting).request = none := by
    split <;> rfl
  have hended (h : (if p.closed && p.pending.isNone then Task.ended else Task.waiting) = .ended) :
      p.pendingWaiters = [] := by
    split at h
    · rename_i hc
      rw [Bool.and_eq_true, Option.isNone_iff_eq_none] at hc
      rw [pendingWaiters, hc.2]
      rfl
    · cases h
  rw [Process.answer, ht]
  cases stored with
  | true => exact hs.answerAll ht hnext (fun h => .inl (hpermit h)) hended
  | false =>
    have hleave := hs.leave hnext (fun h => .inl (hpermit h)) hended
    rw [show p.task.waiters = request.waiters by rw [ht]; rfl] at hleave
    exact hleave

theorem saveDirect (hs : p.Sound) {flush : Flush} (hm : flush ∈ p.direct) (stored : Bool) :
    (p.saveDirect flush stored).Sound := by
  have hout : flush ∈ p.outstanding := mem_outstanding.mpr (.inr (.inr (.inr hm)))
  have hlog : (p.saveDirect flush stored).log = (p.log ++ [.saved stored flush.version]) ++ [.answered flush.number stored] := by
    rw [append_assoc]
    rfl
  have he (number : ℕ) (ok : Bool) : .saved stored flush.version ≠ Event.answered number ok := by
    cases stored <;> exact fun h => by cases h
  have hasked {number version : ℕ} (ha : .asked number version ∈ (p.saveDirect flush stored).log) :
      .asked number version ∈ p.log := by
    rw [hlog, mem_append, mem_append, mem_singleton, mem_singleton] at ha
    rcases ha with (ha | ha) | ha
    · exact ha
    · cases stored <;> cases ha
    · cases ha
  have hnumbers : answeredNumbers (p.saveDirect flush stored).log = answeredNumbers p.log ++ [flush.number] := by
    rw [hlog, answeredNumbers_concat, answeredNumbers_concat]
    cases stored <;> exact congrArg (· ++ _) (append_nil _)
  refine ⟨hs.queueing, hs.pending, hs.task, fun request ht => ?_, fun number => ?_, fun other ho => ?_,
    fun number version ha => hs.asked_lt _ _ (hasked ha), hs.permit, hs.ended, ?_⟩
  · rw [hlog]
    exact mem_append_left _ (mem_append_left _ (hs.stored request ht))
  · refine Eq.trans ?_ (hs.tally number)
    rw [tally_eq, tally_eq, hnumbers, count_append]
    have hcount := ((perm_cons_erase hm).map Flush.number).count_eq number
    rw [map_cons, ← singleton_append, count_append] at hcount
    simp only [Process.saveDirect, pendingWaiters]
    omega
  · rw [hlog]
    refine mem_append_left _ (mem_append_left _ (hs.asked other ?_))
    rw [mem_outstanding] at ho ⊢
    rcases ho with ho | ho | ho | ho
    · exact .inl ho
    · exact .inr (.inl ho)
    · exact .inr (.inr (.inl ho))
    · exact .inr (.inr (.inr (mem_of_mem_erase ho)))
  · rw [hlog]
    refine (hs.allowed.concat ?_).concat ⟨fun earlier ha => ?_, flush.version, flush.version, Nat.le_refl _,
      mem_append_left _ (hs.asked flush hout), ?_⟩
    · cases stored <;> trivial
    · rcases mem_append.mp ha with ha | ha
      · exact hs.not_answered hout earlier ha
      · exact he _ _ (mem_singleton.mp ha).symm
    · cases stored <;> simp [Event.saved]

theorem perform (hs : p.Sound) {call : Call} (he : p.Enabled call) (hl : p.LeavesNone call) : (p.perform call).Sound := by
  cases call with
  | record scope text now id => exact hs.record he.2
  | flush => exact hs.flush
  | push queued => exact hs.push he hl
  | wake => exact hs.wake he.1
  | take => exact hs.take he
  | finishSave result => exact hs.finishSave he hl
  | answer => exact hs.answer he
  | close => exact hs.close
  | saveDirect flush stored => exact hs.saveDirect he stored

/-- What a process owes its flushes. -/
theorem answers (hs : p.Sound) : p.Answers := by
  refine ⟨hs.allowed, fun hsettled number version hm => ?_⟩
  have hpending : p.pendingWaiters = [] := by
    rcases hsettled.task with ht | ⟨ht, hp⟩
    · exact hs.ended ht
    · cases hpend : p.pending with
      | none =>
        rw [pendingWaiters, hpend]
        rfl
      | some request =>
        rcases hs.permit (by rw [hpend]; rfl) with h | h
        · rw [hp] at h
          cases h
        · rw [ht] at h
          cases h
  have htask : p.task.waiters = [] := by
    rcases hsettled.task with ht | ⟨ht, -⟩ <;> rw [ht] <;> rfl
  have htally := hs.tally number
  rw [tally_eq, hsettled.queueing, hpending, htask, hsettled.direct, if_pos (hs.asked_lt _ _ hm)] at htally
  have hpos : 0 < (answeredNumbers p.log).count number := by
    simp only [filterMap_nil, map_nil, count_nil] at htally
    omega
  obtain ⟨e, he, hnumber⟩ := mem_filterMap.mp (count_pos_iff.mp hpos)
  cases e with
  | answered n ok =>
    cases hnumber
    exact ⟨ok, he⟩
  | _ => cases hnumber

end Sound

/-! ## Snapshots on their way -/

/-- Every snapshot that is on its way has the property. -/
structure Holds (P : StoredHistory → Prop) (p : Process) : Prop where
  queueing : ∀ queued ∈ p.queueing, P queued.snapshot
  pending : ∀ request ∈ p.pending, P request.snapshot
  task : ∀ request ∈ p.task.request, P request.snapshot
  outstanding : ∀ flush ∈ p.outstanding, P flush.snapshot

namespace Holds

variable {P : StoredHistory → Prop}

theorem new (store : HistoryStore) : Holds P (Process.new store) where
  queueing _ hm := by cases hm
  pending _ hm := by cases hm
  task _ hm := by cases hm
  outstanding _ hm := by cases hm

theorem imp {Q : StoredHistory → Prop} (hh : Holds P p) (hpq : ∀ snapshot, P snapshot → Q snapshot) : Holds Q p :=
  ⟨fun queued hm => hpq _ (hh.queueing queued hm), fun request hm => hpq _ (hh.pending request hm),
    fun request hm => hpq _ (hh.task request hm), fun flush hm => hpq _ (hh.outstanding flush hm)⟩

/-- Nothing but the places of the flushes has changed. -/
theorem moved (hh : Holds P p) {p' : Process} (hq : ∀ queued ∈ p'.queueing, queued ∈ p.queueing)
    (hpending : ∀ request ∈ p'.pending, P request.snapshot) (htask : ∀ request ∈ p'.task.request, P request.snapshot)
    (hout : ∀ flush ∈ p'.outstanding, flush ∈ p.outstanding) : Holds P p' :=
  ⟨fun queued hm => hh.queueing queued (hq queued hm), hpending, htask,
    fun flush hm => hh.outstanding flush (hout flush hm)⟩

theorem queue (hh : Holds P p) {snapshot : StoredHistory} (hs : P snapshot) {flush : Option Flush}
    (hf : ∀ f ∈ flush, P f.snapshot) : Holds P (p.queue snapshot flush) := by
  by_cases ht : p.task = .ended
  · rw [queue_of_ended ht]
    refine ⟨hh.queueing, hh.pending, hh.task, fun f hm => ?_⟩
    rw [mem_outstanding] at hm
    rcases hm with hm | hm | hm | hm
    · exact hh.outstanding f (mem_outstanding.mpr (.inl hm))
    · exact hh.outstanding f (mem_outstanding.mpr (.inr (.inl hm)))
    · exact hh.outstanding f (mem_outstanding.mpr (.inr (.inr (.inl hm))))
    · rcases mem_append.mp hm with hm | hm
      · exact hh.outstanding f (mem_outstanding.mpr (.inr (.inr (.inr hm))))
      · exact hf f (by simpa using hm)
  · rw [queue_of_ne ht]
    refine ⟨fun queued hm => ?_, hh.pending, hh.task, fun f hm => ?_⟩
    · rcases mem_append.mp hm with hm | hm
      · exact hh.queueing queued hm
      · rw [mem_singleton.mp hm]
        exact hs
    · rw [mem_outstanding] at hm
      rcases hm with ⟨queued, hm, hq⟩ | hm
      · rcases mem_append.mp hm with hm | hm
        · exact hh.outstanding f (mem_outstanding.mpr (.inl ⟨queued, hm, hq⟩))
        · rw [mem_singleton.mp hm] at hq
          exact hf f hq
      · exact hh.outstanding f (mem_outstanding.mpr (.inr hm))

theorem dropState (hh : Holds P p) : Holds P p.dropState := by
  by_cases h : p.closed = true ∧ p.task = .ended
  · rw [dropState_of h]
    refine hh.moved (fun _ hm => hm) (fun _ hm => (by cases hm)) hh.task fun flush hm => ?_
    rw [mem_outstanding] at hm ⊢
    rcases hm with hm | hm | hm | hm
    · exact .inl hm
    · cases hm
    · exact .inr (.inr (.inl hm))
    · rcases mem_append.mp hm with hm | hm
      · exact .inr (.inr (.inr hm))
      · exact .inr (.inl hm)
  · rw [dropState_of_not h]
    exact hh

/-- The task has another place in the loop, and none of its requests is new. -/
theorem setTask (hh : Holds P p) (task : Task) (log : List Event)
    (hr : ∀ request ∈ task.request, request ∈ p.task.request) : Holds P { p with task, log } := by
  refine hh.moved (fun _ hm => hm) hh.pending (fun request hm => hh.task request (hr request hm)) fun flush hm => ?_
  rw [mem_outstanding] at hm ⊢
  rcases hm with hm | hm | hm | hm
  · exact .inl hm
  · exact .inr (.inl hm)
  · obtain ⟨request, hrequest, hw⟩ := Task.mem_waiters.mp hm
    exact .inr (.inr (.inl (Task.mem_waiters.mpr ⟨request, hr request hrequest, hw⟩)))
  · exact .inr (.inr (.inr hm))

/-- Some of those who waited save their snapshots themselves. -/
theorem addDirect (hh : Holds P p) {flushes : List Flush} (hf : ∀ flush ∈ flushes, P flush.snapshot) :
    Holds P { p with direct := p.direct ++ flushes } := by
  refine ⟨hh.queueing, hh.pending, hh.task, fun flush hm => ?_⟩
  rw [mem_outstanding] at hm
  rcases hm with hm | hm | hm | hm
  · exact hh.outstanding flush (mem_outstanding.mpr (.inl hm))
  · exact hh.outstanding flush (mem_outstanding.mpr (.inr (.inl hm)))
  · exact hh.outstanding flush (mem_outstanding.mpr (.inr (.inr (.inl hm))))
  · rcases mem_append.mp hm with hm | hm
    · exact hh.outstanding flush (mem_outstanding.mpr (.inr (.inr (.inr hm))))
    · exact hf flush hm

theorem waiters (hh : Holds P p) : ∀ flush ∈ p.task.waiters, P flush.snapshot :=
  fun flush hm => hh.outstanding flush (mem_outstanding.mpr (.inr (.inr (.inl hm))))

theorem push (hh : Holds P p) {queued : Queueing} (hm : queued ∈ p.queueing) : Holds P (p.push queued) := by
  refine hh.moved (fun _ ho => mem_of_mem_erase ho) (fun request hr => ?_) hh.task fun _ => mem_outstanding_push hm
  cases hr
  exact hh.queueing queued hm

theorem take (hh : Holds P p) : Holds P p.take := by
  unfold Process.take
  split
  · rename_i request hp
    refine hh.moved (fun _ hm => hm) (fun _ hm => (by cases hm)) (fun other ho => ?_) fun flush hm => ?_
    · cases ho
      exact hh.pending request hp
    · have hwaiters : p.pendingWaiters = request.waiters := by
        rw [pendingWaiters, hp]
        rfl
      rw [mem_outstanding] at hm ⊢
      rw [hwaiters]
      rcases hm with hm | hm | hm | hm
      · exact .inl hm
      · cases hm
      · exact .inr (.inl hm)
      · exact .inr (.inr (.inr hm))
  · refine hh.setTask _ p.log fun request hm => ?_
    split at hm <;> cases hm

theorem perform (hh : Holds P p) {call : Call} (he : p.Enabled call) (hs : P (p.perform call).store.toStored) :
    Holds P (p.perform call) := by
  cases call with
  | record scope text now id =>
    rw [Process.perform, Process.record] at hs ⊢
    cases hr : p.store.record scope text now id with
    | mk changed store =>
      rw [hr] at hs
      cases changed with
      | false => exact hh
      | true =>
        have hstore : ({ p with store, version := p.version + 1 }.queue store.toStored none).store = store := by
          unfold Process.queue
          split <;> rfl
        dsimp only at hs ⊢
        rw [hstore] at hs
        have hh' : Holds P { p with store, version := p.version + 1 } :=
          ⟨hh.queueing, hh.pending, hh.task, hh.outstanding⟩
        exact hh'.queue hs fun f hf => by cases hf
  | flush =>
    rw [Process.perform, Process.flush] at hs ⊢
    have hstore : ∀ (q : Process) (snapshot : StoredHistory) (flush : Option Flush),
        (q.queue snapshot flush).store = q.store := by
      intro q snapshot flush
      unfold Process.queue
      split <;> rfl
    dsimp only at hs ⊢
    rw [hstore] at hs
    have hh' : Holds P { p with asked := p.asked + 1, log := p.log ++ [Event.asked p.asked p.version] } :=
      ⟨hh.queueing, hh.pending, hh.task, hh.outstanding⟩
    exact hh'.queue hs fun f hf => by
      cases hf
      exact hs
  | push queued => exact hh.push he
  | wake =>
    have hh' : Holds P { p with task := .woken } := hh.setTask .woken p.log fun _ hm => (by cases hm)
    exact ⟨hh'.queueing, hh'.pending, hh'.task, hh'.outstanding⟩
  | take => exact hh.take
  | finishSave result =>
    obtain ⟨request, ht⟩ := he
    rw [Process.perform, Process.finishSave, ht]
    have hrequest (stored : Bool) : ∀ r ∈ (Task.answering request stored).request, r ∈ p.task.request := by
      intro r hr
      rw [ht]
      exact hr
    cases result with
    | stored => exact hh.setTask _ _ (hrequest true)
    | failed => exact hh.setTask _ _ (hrequest false)
    | panicked =>
      have hwaiters : p.task.waiters = request.waiters := by
        rw [ht]
        rfl
      refine ((hh.setTask .ended p.log fun _ hm => (by cases hm)).dropState).addDirect ?_
      rw [← hwaiters]
      exact hh.waiters
  | answer =>
    obtain ⟨request, stored, ht⟩ := he
    have hwaiters : p.task.waiters = request.waiters := by
      rw [ht]
      rfl
    have hnext : ∀ r ∈ (if p.closed && p.pending.isNone then Task.ended else Task.waiting).request,
        r ∈ p.task.request := by
      intro r hr
      split at hr <;> cases hr
    rw [Process.perform, Process.answer, ht]
    cases stored with
    | true => exact hh.setTask _ _ hnext
    | false =>
      refine (hh.setTask _ p.log hnext).addDirect ?_
      rw [← hwaiters]
      exact hh.waiters
  | close =>
    have hh' : Holds P { p with closed := true, permit := true } :=
      ⟨hh.queueing, hh.pending, hh.task, hh.outstanding⟩
    exact hh'.dropState
  | saveDirect flush stored =>
    refine hh.moved (fun _ hm => hm) hh.pending hh.task fun other ho => ?_
    rw [mem_outstanding] at ho ⊢
    rcases ho with ho | ho | ho | ho
    · exact .inl ho
    · exact .inr (.inl ho)
    · exact .inr (.inr (.inl ho))
    · exact .inr (.inr (.inr (mem_of_mem_erase ho)))

/-- What reaches the file was on its way. -/
theorem saves (hh : Holds P p) {call : Call} (he : p.Enabled call) {snapshot : StoredHistory}
    (hs : p.saves call = some snapshot) : P snapshot := by
  cases call with
  | finishSave result =>
    obtain ⟨request, ht⟩ := he
    cases result with
    | stored =>
      rw [Process.saves, ht] at hs
      cases hs
      exact hh.task request (by rw [ht]; rfl)
    | _ => cases hs
  | saveDirect flush stored =>
    cases stored with
    | true =>
      cases hs
      exact hh.outstanding flush (mem_outstanding.mpr (.inr (.inr (.inr he))))
    | false => cases hs
  | _ => cases hs

end Holds

end Process

end NiumaTerm.InputHistory
