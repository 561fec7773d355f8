import Mathlib.Algebra.BigOperators.Group.List.Basic
import Mathlib.Algebra.GroupWithZero.Nat
import Mathlib.Algebra.Order.Group.Int
import NiumaTerm.Lib.Transition

/-!
# Counting the bytes of a send queue

Many tasks send on a link, and one counter has the bytes that wait.  Every access to the counter, the
channel and the notification is a step, and the steps come in any order.  The counter is an integer, so
that an underflow is a negative number.
-/

namespace NiumaTerm.Remote
namespace SendQueue

open Transition List

def maxQueued : ℕ := 8 * 1024 * 1024

def boundedQueued : ℕ := maxQueued / 2

/-- How far a call of `send` or `send_bounded` is. -/
inductive Call
  /-- At the head of the loop of `send_bounded`. -/
  | entered (len : ℕ)
  /-- The channel was not closed. -/
  | checked (len : ℕ)
  | waiting (len : ℕ)
  /-- The counter is raised, and the message is not in the channel. -/
  | counted (len : ℕ)
  /-- The channel was gone. -/
  | refused (len : ℕ)

/-- The pump, or `try_recv`; it is gone when its half of the channel is dropped. -/
inductive Receiver
  | idle
  | holding (len : ℕ)
  | gone
deriving DecidableEq

structure State where
  queued : ℤ := 0
  queue : List ℕ := []
  calls : List Call := []
  receiver : Receiver := .idle
  /-- What the channel and the pump had when the receiver was dropped. -/
  lost : ℕ := 0

/-- A call is named by its place among the `calls` that go on. -/
inductive Action
  | send (len : ℕ)
  | sendBounded (len : ℕ)
  | check (call : ℕ)
  | update (call : ℕ)
  /-- `drained` notifies, or the channel is closed. -/
  | wake (call : ℕ)
  | cancel (call : ℕ)
  | transmit (call : ℕ)
  | giveBack (call : ℕ)
  | take
  | sent
  | drop

namespace State

variable (s : State)

def move (i : ℕ) (call : Call) : State := { s with calls := s.calls.set i call }

def finish (i : ℕ) : State := { s with calls := s.calls.eraseIdx i }

def held : ℕ :=
  match s.receiver with
  | .holding len => len
  | .idle | .gone => 0

def perform : Action → Option State
  | .send len => some { s with queued := s.queued + len, calls := s.calls ++ [.counted len] }
  | .sendBounded len =>
    if boundedQueued < len then some s else some { s with calls := s.calls ++ [.entered len] }
  | .check i =>
    match s.calls[i]? with
    | some (.entered len) =>
      if s.receiver = .gone then some (s.finish i) else some (s.move i (.checked len))
    | _ => none
  | .update i =>
    match s.calls[i]? with
    | some (.checked len) =>
      if s.queued + len ≤ boundedQueued then
        some { s.move i (.counted len) with queued := s.queued + len }
      else some (s.move i (.waiting len))
    | _ => none
  | .wake i =>
    match s.calls[i]? with
    | some (.waiting len) => some (s.move i (.entered len))
    | _ => none
  | .cancel i =>
    match s.calls[i]? with
    | some (.entered _) | some (.waiting _) => some (s.finish i)
    | _ => none
  | .transmit i =>
    match s.calls[i]? with
    | some (.counted len) =>
      if s.receiver = .gone then some (s.move i (.refused len))
      else some { s.finish i with queue := s.queue ++ [len] }
    | _ => none
  | .giveBack i =>
    match s.calls[i]? with
    | some (.refused len) => some { s.finish i with queued := s.queued - len }
    | _ => none
  | .take =>
    match s.receiver, s.queue with
    | .idle, len :: queue => some { s with receiver := .holding len, queue }
    | _, _ => none
  | .sent =>
    match s.receiver with
    | .holding len => some { s with receiver := .idle, queued := s.queued - len }
    | _ => none
  | .drop =>
    if s.receiver = .gone then none
    else some { s with receiver := .gone, queue := [], lost := s.queue.sum + s.held }

end State

def system : System State Action where
  init s := s = {}
  step s a s' := s.perform a = some s'

/-! ## What the counter counts -/

/-- What a call has added to the counter. -/
def Call.reserved : Call → ℕ
  | .counted len | .refused len => len
  | .entered _ | .checked _ | .waiting _ => 0

namespace State

variable (s : State)

def reserved : ℕ := (s.calls.map Call.reserved).sum

structure Accounted : Prop where
  queued : s.queued = (s.queue.sum + s.reserved + s.held + s.lost : ℕ)
  lost : s.receiver ≠ .gone → s.lost = 0
  gone : s.receiver = .gone → s.queue = []

variable {s} {s' : State} {i : ℕ} {call call' : Call}

theorem reserved_move (h : s.calls[i]? = some call) :
    (s.move i call').reserved + call.reserved = s.reserved + call'.reserved := by
  rw [reserved, reserved, move]
  generalize s.calls = calls at h
  induction calls generalizing i with
  | nil => cases h
  | cons c calls ih =>
    cases i with
    | zero =>
      cases h
      simp only [set_cons_zero, map_cons, sum_cons]
      omega
    | succ i =>
      have := ih (i := i) (by simpa using h)
      simp only [set_cons_succ, map_cons, sum_cons] at this ⊢
      omega

theorem reserved_finish (h : s.calls[i]? = some call) :
    (s.finish i).reserved + call.reserved = s.reserved := by
  rw [reserved, reserved, finish]
  generalize s.calls = calls at h
  induction calls generalizing i with
  | nil => cases h
  | cons c calls ih =>
    cases i with
    | zero =>
      cases h
      simp only [eraseIdx_cons_zero, map_cons, sum_cons]
      omega
    | succ i =>
      have := ih (i := i) (by simpa using h)
      simp only [eraseIdx_cons_succ, map_cons, sum_cons] at this ⊢
      omega

/-! ## Steps -/

/-- A step that changes the calls alone, and no reservation. -/
theorem Accounted.calls (h : s.Accounted) {calls : List Call}
    (hreserved : (calls.map Call.reserved).sum = s.reserved) :
    ({ s with calls } : State).Accounted where
  queued := by
    have hqueued := h.queued
    rw [← hreserved] at hqueued
    exact hqueued
  lost := h.lost
  gone := h.gone

theorem Accounted.move (h : s.Accounted) (hcall : s.calls[i]? = some call)
    (hsame : call'.reserved = call.reserved) : (s.move i call').Accounted :=
  h.calls (Nat.add_right_cancel ((reserved_move hcall).trans (by rw [hsame])))

theorem Accounted.finish (h : s.Accounted) (hcall : s.calls[i]? = some call)
    (hzero : call.reserved = 0) : (s.finish i).Accounted :=
  h.calls (by rw [← reserved_finish hcall, hzero]; rfl)

theorem Accounted.perform {a : Action} (h : s.Accounted) (hs : s.perform a = some s') :
    s'.Accounted := by
  have hqueued := h.queued
  cases a with
  | send len =>
    cases hs
    refine ⟨?_, h.lost, h.gone⟩
    have hcalls : ((s.calls ++ [Call.counted len]).map Call.reserved).sum = s.reserved + len := by
      simp [reserved, Call.reserved]
    show s.queued + len = (s.queue.sum + (_ : List ℕ).sum + s.held + s.lost : ℕ)
    rw [hcalls, hqueued]
    push_cast
    omega
  | sendBounded len =>
    rw [State.perform] at hs
    split_ifs at hs
    · cases hs
      exact h
    · cases hs
      exact h.calls (by simp [reserved, Call.reserved])
  | check i =>
    rw [State.perform] at hs
    split at hs
    · next hcall =>
      split_ifs at hs
      · cases hs
        exact h.finish hcall rfl
      · cases hs
        exact h.move hcall rfl
    · cases hs
  | update i =>
    rw [State.perform] at hs
    split at hs
    · next len hcall =>
      split_ifs at hs
      · cases hs
        refine ⟨?_, h.lost, h.gone⟩
        have hmove : (s.move i (.counted len)).reserved = s.reserved + len := reserved_move hcall
        show s.queued + len = (s.queue.sum + (s.move i (.counted len)).reserved + s.held + s.lost : ℕ)
        rw [hmove, hqueued]
        push_cast
        omega
      · cases hs
        exact h.move hcall rfl
    · cases hs
  | wake i =>
    rw [State.perform] at hs
    split at hs
    · next hcall =>
      cases hs
      exact h.move hcall rfl
    · cases hs
  | cancel i =>
    rw [State.perform] at hs
    split at hs
    · next hcall =>
      cases hs
      exact h.finish hcall rfl
    · next hcall =>
      cases hs
      exact h.finish hcall rfl
    · cases hs
  | transmit i =>
    rw [State.perform] at hs
    split at hs
    · next len hcall =>
      split_ifs at hs with hgone
      · cases hs
        exact h.move hcall rfl
      · cases hs
        refine ⟨?_, h.lost, fun hg => absurd hg hgone⟩
        have hfinish : (s.finish i).reserved + len = s.reserved := reserved_finish hcall
        show s.queued = ((s.queue ++ [len]).sum + (s.finish i).reserved + s.held + s.lost : ℕ)
        rw [sum_append, sum_singleton, hqueued, ← hfinish]
        push_cast
        omega
    · cases hs
  | giveBack i =>
    rw [State.perform] at hs
    split at hs
    · next len hcall =>
      cases hs
      refine ⟨?_, h.lost, h.gone⟩
      have hfinish : (s.finish i).reserved + len = s.reserved := reserved_finish hcall
      show s.queued - len = (s.queue.sum + (s.finish i).reserved + s.held + s.lost : ℕ)
      rw [hqueued, ← hfinish]
      push_cast
      omega
    · cases hs
  | take =>
    rw [State.perform] at hs
    split at hs
    · next len queue hreceiver hqueue =>
      cases hs
      refine ⟨?_, fun _ => h.lost (by rw [hreceiver]; exact nofun), nofun⟩
      have hheld : s.held = 0 := by rw [held, hreceiver]
      rw [hheld, hqueue, sum_cons] at hqueued
      show s.queued = (queue.sum + s.reserved + len + s.lost : ℕ)
      rw [hqueued]
      push_cast
      omega
    · cases hs
  | sent =>
    rw [State.perform] at hs
    split at hs
    · next len hreceiver =>
      cases hs
      refine ⟨?_, fun _ => h.lost (by rw [hreceiver]; exact nofun), nofun⟩
      have hheld : s.held = len := by rw [held, hreceiver]
      rw [hheld] at hqueued
      show s.queued - len = (s.queue.sum + s.reserved + 0 + s.lost : ℕ)
      rw [hqueued]
      push_cast
      omega
    · cases hs
  | drop =>
    rw [State.perform] at hs
    split_ifs at hs with hgone
    cases hs
    refine ⟨?_, fun hg => absurd rfl hg, fun _ => rfl⟩
    show s.queued = (0 + s.reserved + 0 + (s.queue.sum + s.held) : ℕ)
    rw [hqueued, h.lost hgone]
    push_cast
    omega

end State

/-! ## Runs -/

def Action.IsBounded : Action → Prop
  | .send _ => False
  | _ => True

theorem State.perform_le_bound {s s' : State} {a : Action} (ha : a.IsBounded)
    (h : s.queued ≤ boundedQueued) (hs : s.perform a = some s') : s'.queued ≤ boundedQueued := by
  cases a with
  | send len => cases ha
  | update i =>
    rw [State.perform] at hs
    split at hs
    · split_ifs at hs with hfits
      · cases hs
        exact hfits
      · cases hs
        exact h
    · cases hs
  | giveBack i | sent =>
    rw [State.perform] at hs
    split at hs
    · cases hs
      show s.queued - _ ≤ _
      omega
    · cases hs
  | sendBounded len | drop =>
    rw [State.perform] at hs
    split_ifs at hs <;> cases hs <;> exact h
  | check i | transmit i =>
    rw [State.perform] at hs
    split at hs
    · split_ifs at hs <;> cases hs <;> exact h
    · cases hs
  | wake i | cancel i | take =>
    rw [State.perform] at hs
    split at hs <;> cases hs <;> exact h

/-- **What the counter counts, in every run**: the messages in the channel, the one that the pump
has taken and not finished, and those of the calls that have raised the counter and are not in the
channel yet.  So it never underflows, and is zero when all of that is done; calls of `send_bounded`
alone keep it within their bound.  Only a receiver that was dropped leaves something in it. -/
theorem queued_bytes {actions : List Action} {s : State} (h : Run system actions s) :
    s.queued = (s.queue.sum + s.reserved + s.held + s.lost : ℕ) ∧
    (s.receiver ≠ .gone → s.lost = 0) ∧
    0 ≤ s.queued ∧
    ((∀ a ∈ actions, a.IsBounded) → s.queued ≤ boundedQueued) ∧
    (s.receiver = .idle → s.queue = [] → s.reserved = 0 → s.queued = 0) := by
  have hs : s.Accounted := by
    refine h.invariant ?_ fun s a s' ↦ State.Accounted.perform
    rintro s rfl
    exact ⟨rfl, fun _ ↦ rfl, nofun⟩
  refine ⟨hs.queued, hs.lost, ?_, ?_, ?_⟩
  · rw [hs.queued]
    exact Int.natCast_nonneg _
  · refine h.history (I := fun actions (s : State) ↦ (∀ a ∈ actions, a.IsBounded) →
      s.queued ≤ boundedQueued) ?_ ?_
    · rintro s rfl -
      decide
    · intro actions s a s' ih hstep hbounded
      rw [forall_mem_append, forall_mem_singleton] at hbounded
      exact State.perform_le_bound hbounded.2 (ih hbounded.1) hstep
  · intro hidle hempty hreserved
    rw [hs.queued, hs.lost (by rw [hidle]; exact nofun), State.held, hidle, hempty, hreserved]
    rfl

/-- Three bytes are queued and taken, and not sent yet. -/
theorem run_taken :
    Run system [.send 3, .transmit 0, .take] { queued := 3, receiver := .holding 3 } := by
  have hstart : Run system [] {} := .init rfl
  have hsend : Run system [.send 3] { queued := 3, calls := [.counted 3] } := hstart.step rfl
  have htransmit : Run system [.send 3, .transmit 0] { queued := 3, queue := [3] } := hsend.step rfl
  exact htransmit.step rfl

theorem queued_bytes_taken :
    ({ queued := 3, receiver := .holding 3 } : State).queued = ((0 + 0 + 3 + 0 : ℕ) : ℤ) :=
  (queued_bytes run_taken).1

/-- The counter has bytes that are not in the channel, and that no call has reserved. -/
theorem taken_counted : ∃ actions s, Run system actions s ∧ s.receiver ≠ .gone ∧
    s.queue = [] ∧ s.calls = [] ∧ s.queued = 3 :=
  ⟨_, _, run_taken, nofun, rfl, rfl, rfl⟩

end SendQueue
end NiumaTerm.Remote
