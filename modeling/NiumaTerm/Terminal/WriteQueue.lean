import NiumaTerm.Lib.Loop
import NiumaTerm.Terminal.PtyTask

/-!
# The write queue of the terminal's task

A call of `writeTo` hands what waits to the PTY, which takes as much of it as it likes, is not ready, or
fails.  What the PTY took is the beginning of what was pushed (`written_in_order`).
-/

namespace NiumaTerm

open List
namespace Terminal
namespace PtyTask

/-! ## States of the queue -/

namespace PtyState

variable {state : PtyState}

/-- A chunk that is being written has something left. -/
def Unfinished (state : PtyState) : Prop := ∀ current ∈ state.writing, current.finished = false

/-- As a call leaves the queue: what waits waits behind an unfinished chunk. -/
structure Rested (state : PtyState) : Prop where
  unfinished : state.Unfinished
  waiting : state.writing = none → state.writeList = []

theorem rested_nil : Rested ⟨[], none⟩ := ⟨nofun, fun _ => rfl⟩

theorem rested_setCurrent {current : Writing} (h : ¬ current.finished) :
    (state.setCurrent current).Rested := by
  refine ⟨?_, nofun⟩
  rintro _ ⟨⟩
  simpa using h

theorem Unfinished.writing_eq_none (h : state.Unfinished) (hremaining : state.remaining = []) :
    state.writing = none := by
  cases hwriting : state.writing with
  | none => rfl
  | some current =>
    rw [remaining, hwriting, append_eq_nil_iff] at hremaining
    have hfinished : current.finished := by
      simpa [Writing.finished, Writing.remainingBytes] using hremaining.1
    rw [h current hwriting] at hfinished
    cases hfinished

/-- A buffer with nothing in it waits like any other. -/
theorem Unfinished.needsWrite_eq_false (h : state.Unfinished) :
    state.needsWrite = false ↔ state.remaining = [] ∧ [] ∉ state.writeList := by
  constructor
  · intro hneeds
    refine ⟨remaining_of_not_needsWrite hneeds, ?_⟩
    rw [needsWrite, Bool.or_eq_false_iff, Bool.not_eq_false', List.isEmpty_iff] at hneeds
    simp [hneeds.2]
  · rintro ⟨hremaining, hempty⟩
    have hwriting := h.writing_eq_none hremaining
    rw [remaining, append_eq_nil_iff, flatten_eq_nil_iff] at hremaining
    have hlist : state.writeList = [] :=
      eq_nil_iff_forall_not_mem.mpr fun bytes hb => hempty (hremaining.2 bytes hb ▸ hb)
    simp [needsWrite, hwriting, hlist]

theorem Rested.needsWrite_eq_false (h : state.Rested) :
    state.needsWrite = false ↔ state.remaining = [] := by
  rw [h.unfinished.needsWrite_eq_false, and_iff_left_iff_imp]
  intro hremaining
  simp [h.waiting (h.unfinished.writing_eq_none hremaining)]

end PtyState

/-! ## A call -/

variable {σ Request : Type}

namespace Termio

variable {w : World σ Request} {m : Termio σ Request}

/-- From `current` on, with `written` bytes written before in the same call, the PTY takes
`chunks`. -/
structure Handed (m : Termio σ Request) (current : Writing) (written : ℕ)
    (result : Except ErrorKind ℕ × Termio σ Request) (chunks : List (List UInt8)) : Prop where
  log : result.2.log = m.log ++ chunks.map .wrote
  bytes : chunks.flatten ++ result.2.state.remaining = (m.state.setCurrent current).remaining
  batch : written + chunks.flatten.length ≤ maxWriteBatch
  total : ∀ n, result.1 = .ok n → n = written + chunks.flatten.length
  rested : result.2.state.Rested

namespace Handed

variable {current : Writing} {written : ℕ} {chunks : List (List UInt8)}
  {result : Except ErrorKind ℕ × Termio σ Request}

/-- The call ends. -/
theorem stop (hwritten : written ≤ maxWriteBatch) {m' : Termio σ Request}
    {r : Except ErrorKind ℕ} (hlog : m'.log = m.log)
    (hbytes : m'.state.remaining = (m.state.setCurrent current).remaining)
    (hrested : m'.state.Rested) (hr : ∀ n, r = .ok n → n = written) :
    Handed m current written (r, m') [] where
  log := by simpa using hlog
  bytes := by simpa using hbytes
  batch := by simpa using hwritten
  total := by simpa using hr
  rested := hrested

theorem stay (hwritten : written ≤ maxWriteBatch) (hfinished : ¬ current.finished) (world : σ)
    {r : Except ErrorKind ℕ} (hr : ∀ n, r = .ok n → n = written) :
    Handed m current written (r, { m with world, state := m.state.setCurrent current }) [] :=
  stop hwritten rfl rfl (PtyState.rested_setCurrent hfinished) hr

theorem next {next : List UInt8} {rest : List (List UInt8)} (hfinished : current.finished)
    (hlist : m.state.writeList = next :: rest)
    (h : Handed { m with state := ⟨rest, none⟩ } ⟨next, 0⟩ written result chunks) :
    Handed m current written result chunks where
  log := h.log
  bytes := by
    rw [h.bytes, PtyState.remaining_setCurrent, PtyState.remaining_setCurrent, hlist,
      Writing.remainingBytes_of_finished hfinished]
    rfl
  batch := h.batch
  total := h.total
  rested := h.rested

/-- The PTY takes `n` bytes of what it was offered. -/
theorem took {n : ℕ} {world : σ}
    (hn : n ≤ (current.remainingBytes.take (maxWriteBatch - written)).length)
    (h : Handed ({ m with world }.record
      (.wrote ((current.remainingBytes.take (maxWriteBatch - written)).take n)))
      (current.advance n) (written + n) result chunks) :
    Handed m current written result
      ((current.remainingBytes.take (maxWriteBatch - written)).take n :: chunks) where
  log := by simpa [record] using h.log
  bytes := by
    have hle : n ≤ maxWriteBatch - written := Nat.le_trans hn (length_take_le ..)
    rw [flatten_cons, append_assoc, h.bytes, take_take, Nat.min_eq_left hle,
      PtyState.remaining_setCurrent, PtyState.remaining_setCurrent, ← append_assoc,
      current.take_remainingBytes]
    rfl
  batch := by
    have := h.batch
    rw [flatten_cons, length_append, length_take_of_le hn]
    omega
  total := by
    intro k hk
    rw [h.total k hk, flatten_cons, length_append, length_take_of_le hn]
    omega
  rested := h.rested

end Handed

theorem writeMany_handed {current : Writing} {written : ℕ} (hwritten : written ≤ maxWriteBatch) :
    ∃ chunks, Handed m current written (writeMany w m current written) chunks := by
  fun_induction Termio.writeMany w m current written with
  | case1 m current written hfinished hlist =>
    refine ⟨[], .stop hwritten rfl ?_ PtyState.rested_nil (by rintro _ ⟨⟩; rfl)⟩
    rw [PtyState.remaining_setCurrent, hlist, Writing.remainingBytes_of_finished hfinished]
    rfl
  | case2 m current written hfinished next rest hlist ih =>
    obtain ⟨chunks, h⟩ := ih hwritten
    exact ⟨chunks, h.next hfinished hlist⟩
  | case3 m current written hfinished =>
    exact ⟨[], .stay hwritten hfinished m.world (by rintro _ ⟨⟩; rfl)⟩
  | case4 m current written hfinished _ _ world =>
    exact ⟨[], .stay hwritten hfinished world (by rintro _ ⟨⟩; rfl)⟩
  | case5 m current written hfinished _ _ world =>
    exact ⟨[], .stay hwritten hfinished world (by rintro _ ⟨⟩)⟩
  | case6 m current written _ _ chunk n world hwrite ih =>
    have hn : n + 1 ≤ chunk.length := w.pollWrite_le hwrite
    have hchunk : chunk.length ≤ maxWriteBatch - written := length_take_le ..
    obtain ⟨chunks, h⟩ := ih (by omega)
    exact ⟨_, h.took hn⟩
  | case7 m current written hfinished _ _ e world =>
    exact ⟨[], .stay hwritten hfinished world (by rintro _ ⟨⟩)⟩

/-- **A call**: the PTY takes the beginning of what waits, at most a batch of it. -/
theorem writeTo_handed : ∃ chunks : List (List UInt8),
    (writeTo w m).2.log = m.log ++ chunks.map .wrote ∧
    chunks.flatten ++ (writeTo w m).2.state.remaining = m.state.remaining ∧
    chunks.flatten.length ≤ maxWriteBatch ∧
    (∀ n, (writeTo w m).1 = .ok n → n = chunks.flatten.length) ∧ (writeTo w m).2.state.Rested := by
  have hensure : m.state.ensureNext.remaining = m.state.remaining := PtyState.remaining_ensureNext
  have hnone : m.state.ensureNext.writing = none → m.state.ensureNext = ⟨[], none⟩ := by
    obtain ⟨_ | ⟨next, rest⟩, _ | current⟩ := m.state <;> simp [PtyState.ensureNext,
      PtyState.gotoNext]
  rw [Termio.writeTo, ← hensure]
  generalize m.state.ensureNext = state at hnone
  obtain ⟨writeList, _ | current⟩ := state
  · obtain ⟨rfl, -⟩ := PtyState.mk.inj (hnone rfl)
    exact ⟨[], (append_nil _).symm, rfl, Nat.zero_le _, by rintro _ ⟨⟩; rfl, PtyState.rested_nil⟩
  · obtain ⟨chunks, h⟩ := @writeMany_handed _ _ w
      { m with state := { writeList, writing := none } } current 0 (Nat.zero_le maxWriteBatch)
    exact ⟨chunks, h.log, h.bytes, by simpa using h.batch, by simpa using h.total, h.rested⟩

/-! ### Its loop -/

variable (w)

def writePass : Termio σ Request × Writing × ℕ →
    Loop.Round (Termio σ Request × Writing × ℕ) (Except ErrorKind ℕ × Termio σ Request)
  | (m, current, written) =>
    if current.finished then
      match m.state.writeList with
      | [] => .leave (.ok written, { m with state := ⟨[], none⟩ })
      | next :: rest => .next ({ m with state := ⟨rest, none⟩ }, ⟨next, 0⟩, written)
    else if maxWriteBatch ≤ written then
      .leave (.ok written, { m with state := m.state.setCurrent current })
    else
      let chunk := current.remainingBytes.take (maxWriteBatch - written)
      match w.pollWrite m.world chunk with
      | (.pending, world) =>
        .leave (.ok written, { m with world, state := m.state.setCurrent current })
      | (.ready (.ok 0), world) =>
        .leave (.error .writeZero, { m with world, state := m.state.setCurrent current })
      | (.ready (.ok (n + 1)), world) =>
        .next ({ m with world }.record (.wrote (chunk.take (n + 1))), current.advance (n + 1),
          written + (n + 1))
      | (.ready (.error e), world) =>
        .leave (.error e, { m with world, state := m.state.setCurrent current })

variable {w}

/-- **The loop ends**, after no more passes than there are buffers and bytes left. -/
theorem run_writePass {current : Writing} {written fuel : ℕ}
    (hfuel : m.state.writeList.length + (m.state.setCurrent current).remaining.length < fuel) :
    Loop.run (writePass w) fuel (m, current, written) = some (writeMany w m current written) := by
  obtain ⟨fuel, rfl⟩ := Nat.exists_eq_succ_of_ne_zero (Nat.ne_zero_of_lt hfuel)
  fun_induction Termio.writeMany w m current written generalizing fuel with
  | case1 m current written hfinished hlist =>
    refine Loop.run_leave ?_
    rw [writePass, if_pos hfinished]
    simp only [hlist]
  | case2 m current written hfinished next rest hlist ih =>
    have hpass : writePass w (m, current, written) =
        .next ({ m with state := ⟨rest, none⟩ }, ⟨next, 0⟩, written) := by
      rw [writePass, if_pos hfinished]
      simp only [hlist]
    have hlength : rest.length + (next ++ rest.flatten).length < fuel := by
      rw [PtyState.remaining_setCurrent, hlist, Writing.remainingBytes_of_finished hfinished,
        nil_append, flatten_cons, length_cons] at hfuel
      omega
    obtain ⟨fuel, rfl⟩ := Nat.exists_eq_succ_of_ne_zero (Nat.ne_zero_of_lt hlength)
    rw [Loop.run_next hpass]
    exact ih fuel hlength
  | case3 m current written hfinished hbatch =>
    exact Loop.run_leave (by rw [writePass, if_neg hfinished, if_pos hbatch])
  | case4 m current written hfinished hbatch chunk world hwrite
  | case5 m current written hfinished hbatch chunk world hwrite =>
    refine Loop.run_leave ?_
    rw [writePass, if_neg hfinished, if_neg hbatch]
    simp only [hwrite, chunk]
  | case6 m current written hfinished hbatch chunk n world hwrite ih =>
    have hpass : writePass w (m, current, written) =
        .next ({ m with world }.record (.wrote (chunk.take (n + 1))), current.advance (n + 1),
          written + (n + 1)) := by
      rw [writePass, if_neg hfinished, if_neg hbatch]
      simp only [hwrite, chunk]
    have hlength : m.state.writeList.length +
        (m.state.setCurrent (current.advance (n + 1))).remaining.length < fuel := by
      have hn : n + 1 ≤ current.remainingBytes.length :=
        Nat.le_trans (w.pollWrite_le hwrite) (by simp [chunk])
      rw [PtyState.remaining_setCurrent, length_append,
        ← current.take_remainingBytes (n + 1), length_append,
        length_take_of_le hn] at hfuel
      rw [PtyState.remaining_setCurrent, length_append]
      omega
    obtain ⟨fuel, rfl⟩ := Nat.exists_eq_succ_of_ne_zero (Nat.ne_zero_of_lt hlength)
    rw [Loop.run_next hpass]
    exact ih fuel hlength
  | case7 m current written hfinished hbatch chunk world e hwrite =>
    refine Loop.run_leave ?_
    rw [writePass, if_neg hfinished, if_neg hbatch]
    simp only [hwrite, chunk]

end Termio

/-! ## Runs -/

inductive QueueOp
  | push (bytes : List UInt8)
  | write

namespace QueueOp

def pushed : QueueOp → List UInt8
  | .push bytes => bytes
  | .write => []

end QueueOp

namespace Termio

variable (w : World σ Request) (m : Termio σ Request)

def queueStep : QueueOp → Termio σ Request
  | .push bytes => { m with state := m.state.push bytes }
  | .write => (writeTo w m).2

def queueRun (ops : List QueueOp) : Termio σ Request := ops.foldl (queueStep w) m

/-- `pushed` is what has been pushed so far. -/
structure Queued (m : Termio σ Request) (pushed : List UInt8) : Prop where
  bytes : written m.log ++ m.state.remaining = pushed
  unfinished : m.state.Unfinished

variable {w m} {pushed : List UInt8}

theorem Queued.step (h : m.Queued pushed) (op : QueueOp) :
    (queueStep w m op).Queued (pushed ++ op.pushed) := by
  cases op with
  | push bytes =>
    refine ⟨?_, h.unfinished⟩
    rw [queueStep, PtyState.remaining_push, ← append_assoc, h.bytes]
    rfl
  | write =>
    obtain ⟨chunks, hlog, hbytes, -, -, hrested⟩ := writeTo_handed (w := w) (m := m)
    refine ⟨?_, hrested.unfinished⟩
    have hwrote : written (chunks.map (.wrote : _ → Event Request)) = chunks.flatten := by
      simp [written, flatMap_map, Event.written]
    rw [queueStep, hlog, written, flatMap_append, ← written, ← written, hwrote,
      append_assoc, hbytes, h.bytes]
    exact (append_nil _).symm

theorem Queued.run (h : m.Queued pushed) (ops : List QueueOp) :
    (queueRun w m ops).Queued (pushed ++ ops.flatMap QueueOp.pushed) := by
  induction ops generalizing m pushed with
  | nil => rwa [flatMap_nil, append_nil]
  | cons op ops ih =>
    rw [flatMap_cons, ← append_assoc]
    exact ih (h.step op)

theorem queued_start (world : σ) : Queued ({ world } : Termio σ Request) [] := ⟨rfl, nofun⟩

theorem Queued.written_eq_iff (h : m.Queued pushed) :
    written m.log = pushed ↔ m.state.remaining = [] := by
  rw [← h.bytes, eq_comm, append_right_eq_self]

end Termio

open Termio in
/-- **What the PTY took is the beginning of what was pushed.**  A call hands over at most a batch, its loop
ends, and it leaves nothing to write exactly when everything pushed was written; between calls an empty
buffer is also something to write. -/
theorem written_in_order (w : World σ Request) (world : σ) (ops : List QueueOp) :
    let m := queueRun w { world } ops
    let pushed := ops.flatMap QueueOp.pushed
    written m.log <+: pushed ∧
    (m.state.needsWrite = false ↔ written m.log = pushed ∧ [] ∉ m.state.writeList) ∧
    (∃ chunks : List (List UInt8), (writeTo w m).2.log = m.log ++ chunks.map .wrote ∧
      chunks.flatten.length ≤ maxWriteBatch ∧
      ∀ n, (writeTo w m).1 = .ok n → n = chunks.flatten.length) ∧
    ((writeTo w m).2.state.needsWrite = false ↔ written (writeTo w m).2.log = pushed) ∧
    ∃ fuel, ∀ current, m.state.ensureNext.writing = some current →
      Loop.run (writePass w) fuel
        ({ m with state := { m.state.ensureNext with writing := none } }, current, 0) =
        some (writeTo w m) := by
  intro m pushed
  have hm : m.Queued pushed := (queued_start world).run ops
  obtain ⟨chunks, hlog, -, hbatch, htotal, hrested⟩ := writeTo_handed (w := w) (m := m)
  have hcall : (writeTo w m).2.Queued pushed := by
    have hstep := hm.step (w := w) .write
    rwa [QueueOp.pushed, append_nil] at hstep
  refine ⟨⟨m.state.remaining, hm.bytes⟩, ?_, ⟨chunks, hlog, hbatch, htotal⟩, ?_, ?_⟩
  · rw [hm.unfinished.needsWrite_eq_false, hm.written_eq_iff]
  · rw [hrested.needsWrite_eq_false, hcall.written_eq_iff]
  · refine ⟨m.state.ensureNext.writeList.length + m.state.remaining.length + 1, ?_⟩
    intro current hcurrent
    have hremaining : m.state.ensureNext.remaining =
        current.remainingBytes ++ m.state.ensureNext.writeList.flatten := by
      rw [PtyState.remaining, hcurrent]
      rfl
    rw [run_writePass, writeTo]
    · simp only [hcurrent]
    · rw [PtyState.remaining_setCurrent, ← hremaining, PtyState.remaining_ensureNext]
      exact Nat.lt_succ_self _

/-- A PTY that is never ready. -/
def stalled : World Unit Unit where
  now world := (0, world)
  pollRecv world := (.pending, world)
  readBatch world := (.ok 0, world)
  takePtyWrites world := ([], world)
  snapshotPending _ := false
  flushEngineState world := (.ok (), world)
  altScreen _ := false
  cols _ := 80
  rows _ := 24
  resizeEngine world _ _ _ _ := world
  onRequest world _ := world
  pollWrite world _ := (.pending, world)
  pollWrite_le := nofun
  pollFlush world := (.ready (.ok ()), world)
  pollResize world _ := (.ready (.ok ()), world)
  pollExit world := (false, world)
  timerFired world := (false, world)

/-- Nothing of an empty buffer is left to write when it has been pushed. -/
theorem emptyBuffer_needsWrite : ∃ ops : List QueueOp,
    written (Termio.queueRun stalled { world := () } ops).log = ops.flatMap QueueOp.pushed ∧
      (Termio.queueRun stalled { world := () } ops).state.needsWrite = true :=
  ⟨[.push []], rfl, rfl⟩

end PtyTask
end Terminal
end NiumaTerm
