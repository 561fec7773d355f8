import NiumaTerm.Lib.Str
import NiumaTerm.Subprocess.Input

/-!
# A subprocess and the requests in flight

`JsonLineProcess` is an agent process with its input queue.  A write is accepted or refused, and a
refused one ends the process tree.  `RequestClass` says how long a request may stay unanswered.
-/

namespace NiumaTerm.Subprocess

open Rust

variable {Value : Type*}

/-- `written` lists what the queue accepted so far; the source does not keep it. -/
structure JsonLineProcess (Value : Type*) where
  stdin : Queue Value
  killed : Bool
  written : List Value

theorem Queue.senderOpen_cancel (q : Queue Value) (ticket : InputTicket) :
    (q.cancel ticket).2.state.senderOpen = q.state.senderOpen := by
  unfold cancel
  split_ifs
  · rfl
  · rfl
  · split <;> rfl

theorem Queue.receiverOpen_cancel (q : Queue Value) (ticket : InputTicket) :
    (q.cancel ticket).2.state.receiverOpen = q.state.receiverOpen := by
  unfold cancel
  split_ifs
  · rfl
  · rfl
  · split <;> rfl

namespace JsonLineProcess

def new : JsonLineProcess Value where
  stdin := .new
  killed := false
  written := []

def hasStdin (p : JsonLineProcess Value) : Bool := p.stdin.state.senderOpen && !p.killed

def abort (p : JsonLineProcess Value) : JsonLineProcess Value :=
  { p with stdin := p.stdin.dropSender, killed := true }

def writeTracked (isUser : Value → Bool) (p : JsonLineProcess Value) (messages : List Value) :
    Except InputClosed InputTicket × JsonLineProcess Value :=
  if p.hasStdin then
    match p.stdin.submitTracked isUser messages with
    | (.ok ticket, stdin) => (.ok ticket, { p with stdin, written := p.written ++ messages })
    | (.error error, stdin) => (.error error, { p with stdin }.abort)
  else (.error .closed, p)

def tryWriteLine (isUser : Value → Bool) (p : JsonLineProcess Value) (message : Value) :
    Except InputClosed Unit × JsonLineProcess Value :=
  match p.writeTracked isUser [message] with
  | (.ok _, p) => (.ok (), p)
  | (.error error, p) => (.error error, p)

/-- A required line that is refused ends the process. -/
def writeLine (isUser : Value → Bool) (p : JsonLineProcess Value) (message : Value) :
    Except InputClosed Unit × JsonLineProcess Value :=
  match p.tryWriteLine isUser message with
  | (.ok (), p) => (.ok (), p)
  | (.error error, p) => (.error error, p.abort)

/-- The input is open at both ends, and the process was not ended. -/
def Accepts (p : JsonLineProcess Value) : Prop := p.hasStdin = true ∧ p.stdin.state.receiverOpen = true

instance (p : JsonLineProcess Value) : Decidable p.Accepts := inferInstanceAs (Decidable (_ ∧ _))

theorem not_accepts_abort (p : JsonLineProcess Value) : ¬ p.abort.Accepts := by
  simp [Accepts, hasStdin, abort]

variable (isUser : Value → Bool) (p : JsonLineProcess Value)

/-- A batch is accepted with a ticket exactly if the process accepts input. -/
theorem writeTracked_cases (messages : List Value) (hm : messages ≠ []) :
    (p.Accepts ∧ ∃ ticket p', p.writeTracked isUser messages = (.ok ticket, p') ∧ p'.Accepts ∧
      p'.written = p.written ++ messages ∧
      ticket.batch = (decide (1 < messages.length) || messages.any isUser)) ∨
    (¬ p.Accepts ∧ ∃ p', p.writeTracked isUser messages = (.error .closed, p') ∧ ¬ p'.Accepts ∧
      p'.written = p.written) := by
  have he : messages.isEmpty = false := by simpa using hm
  unfold writeTracked Queue.submitTracked
  by_cases hs : p.hasStdin
  · by_cases ho : p.stdin.state.receiverOpen
    · left
      refine ⟨⟨hs, ho⟩, ?_⟩
      simp only [hs, he, ho, if_true, Bool.false_eq_true, if_false, Bool.not_true]
      exact ⟨_, _, rfl, ⟨hs, rfl⟩, rfl, rfl⟩
    · right
      refine ⟨fun h => ho h.2, ?_⟩
      simp only [hs, he, ho, if_true, Bool.false_eq_true, if_false, Bool.not_false]
      exact ⟨_, rfl, not_accepts_abort _, rfl⟩
  · right
    refine ⟨fun h => hs h.1, ?_⟩
    rw [if_neg hs]
    exact ⟨_, rfl, fun h => hs h.1, rfl⟩

theorem writeLine_cases (message : Value) :
    (p.Accepts ∧ ∃ p', p.writeLine isUser message = (.ok (), p') ∧ p'.Accepts ∧
      p'.written = p.written ++ [message]) ∨
    (¬ p.Accepts ∧ ∃ p', p.writeLine isUser message = (.error .closed, p') ∧ ¬ p'.Accepts ∧
      p'.written = p.written) := by
  unfold writeLine tryWriteLine
  rcases p.writeTracked_cases isUser [message] (by simp) with
    ⟨ha, ticket, p', hw, ha', hp, -⟩ | ⟨ha, p', hw, -, hp⟩
  · exact .inl ⟨ha, p', by rw [hw], ha', hp⟩
  · exact .inr ⟨ha, p'.abort, by rw [hw], not_accepts_abort _, hp⟩

end JsonLineProcess

/-! ## Deadlines -/

inductive RequestClass
  | query
  | mutation
  | control
deriving DecidableEq

/-- In nanoseconds. -/
def RequestClass.timeout (c : RequestClass) : ℕ :=
  1000000000 * match c with
    | query => 30
    | mutation => 300
    | control => 15

def RequestClass.timeoutMessage (provider : Str) : RequestClass → Str
  | query => provider ++ " query timed out. You can retry the query.".toList
  | mutation | control => provider ++ (" request timed out. The operation may still complete; " ++
      "its result is unknown. Check its state before retrying.").toList

end NiumaTerm.Subprocess
