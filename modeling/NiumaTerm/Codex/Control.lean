import Mathlib.Data.List.Nodup

/-!
# Requests to the app server

`PendingRequests` and `ControlState`: the requests that wait for their reply, each under an id of its own, and
the queries of which only the newest one of a kind is waited for.
-/

namespace NiumaTerm

open List
namespace Codex

/-- The operations are a map. -/
structure PendingRequests (Op : Type) where
  nextId : ℕ
  operations : List (ℕ × Op)
  closed : Bool

variable {Op : Type}

namespace PendingRequests

def new (nextId : ℕ) : PendingRequests Op where
  nextId
  operations := []
  closed := false

def allocId (p : PendingRequests Op) : ℕ × PendingRequests Op := (p.nextId, { p with nextId := p.nextId + 1 })

def track (p : PendingRequests Op) (id : ℕ) (operation : Op) : PendingRequests Op :=
  if p.closed then p else { p with operations := p.operations.filter (·.1 ≠ id) ++ [(id, operation)] }

def finish (p : PendingRequests Op) (id : ℕ) : Option Op × PendingRequests Op :=
  (p.operations.lookup id, { p with operations := p.operations.filter (·.1 ≠ id) })

end PendingRequests

inductive QueryKind
  | start
  | models
  | history
  | resume
  | checkpoints
  | fork
  | goal (revision : ℕ)
  | sideFork
  | sideBoundary
deriving DecidableEq

def QueryKind.startsThread : QueryKind → Bool
  | .start | .resume | .fork => true
  | _ => false

def QueryKind.replaces (kind previous : QueryKind) : Bool :=
  kind = previous || kind.startsThread && previous.startsThread

inductive ControlOperation
  | query (kind : QueryKind)
  | other
  | threadRequest
  | steer
  | command
  | threadName
deriving DecidableEq

def firstTurnRpcId : ℕ := 100

abbrev ControlState := PendingRequests ControlOperation

namespace ControlState

def new : ControlState := PendingRequests.new firstTurnRpcId

/-- The queries that one of this kind replaces are no longer waited for. -/
def dropReplaced (c : ControlState) (kind : QueryKind) : ControlState :=
  { c with operations := c.operations.filter fun o =>
      match o.2 with
      | .query previous => !kind.replaces previous
      | _ => true }

def trackQuery (c : ControlState) (id : ℕ) (kind : QueryKind) : ControlState :=
  PendingRequests.track (dropReplaced c kind) id (.query kind)

/-- Replies that have owners of their own are still waited for. -/
def resetThread (c : ControlState) : ControlState :=
  { c with operations := c.operations.filter fun o =>
      match o.2 with
      | .other | .query .models | .query .history => true
      | _ => false }

end ControlState

/-! ## What is waited for -/

/-- The ids are those given out, each once. -/
structure PendingRequests.Sound (p : PendingRequests Op) : Prop where
  nodup : (p.operations.map Prod.fst).Nodup
  lt : ∀ o ∈ p.operations, o.1 < p.nextId

namespace PendingRequests

variable {p : PendingRequests Op} {id : ℕ} {operation : Op}

theorem sound_new (nextId : ℕ) : (new nextId : PendingRequests Op).Sound := ⟨nodup_nil, fun _ hm => by cases hm⟩

theorem mem_of_finish (hf : (p.finish id).1 = some operation) : (id, operation) ∈ p.operations := by
  rw [finish] at hf
  obtain ⟨before, after, hl, -⟩ := lookup_eq_some_iff.mp hf
  rw [hl]
  simp

theorem Sound.finish_eq_some (h : p.Sound) (hm : (id, operation) ∈ p.operations) :
    (p.finish id).1 = some operation := by
  obtain ⟨before, after, hl⟩ := append_of_mem hm
  refine lookup_eq_some_iff.mpr ⟨before, after, hl, fun o ho => ?_⟩
  have hn := h.nodup
  rw [hl, map_append, map_cons] at hn
  have hne := (nodup_append.mp hn).2.2 o.1 (mem_map_of_mem ho) id (.head _)
  simpa using fun he => hne he.symm

theorem mem_operations_finish {o : ℕ × Op} : o ∈ (p.finish id).2.operations ↔ o ∈ p.operations ∧ o.1 ≠ id := by
  rw [finish, mem_filter, decide_eq_true_iff]

theorem Sound.of_sublist {q : PendingRequests Op} (h : p.Sound) (hs : q.operations.Sublist p.operations)
    (hle : p.nextId ≤ q.nextId) : q.Sound :=
  ⟨h.nodup.sublist (hs.map _), fun o hm => Nat.lt_of_lt_of_le (h.lt o (hs.subset hm)) hle⟩

theorem Sound.finish (h : p.Sound) : (p.finish id).2.Sound := h.of_sublist filter_sublist (Nat.le_refl _)

theorem Sound.track (h : p.Sound) (hid : id < p.nextId) : (p.track id operation).Sound := by
  rw [PendingRequests.track]
  split
  · exact h
  · refine ⟨?_, fun o hm => ?_⟩
    · rw [map_append, nodup_append]
      refine ⟨(h.of_sublist (q := { p with operations := p.operations.filter (·.1 ≠ id) }) filter_sublist
        (Nat.le_refl _)).nodup, nodup_singleton _, ?_⟩
      rintro a ha b hb rfl
      obtain ⟨o, ho, rfl⟩ := mem_map.mp ha
      have hne := of_decide_eq_true (mem_filter.mp ho).2
      exact hne (mem_singleton.mp hb)
    · rcases mem_append.mp hm with hm | hm
      · exact h.lt o (mem_of_mem_filter hm)
      · rw [mem_singleton.mp hm]
        exact hid

theorem mem_operations_track (ho : p.closed = false) {o : ℕ × Op} :
    o ∈ (p.track id operation).operations ↔ o ∈ p.operations ∧ o.1 ≠ id ∨ o = (id, operation) := by
  rw [PendingRequests.track, ho]
  simp [mem_filter]

end PendingRequests

end Codex
end NiumaTerm
