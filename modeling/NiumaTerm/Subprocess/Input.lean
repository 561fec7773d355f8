import Mathlib.Data.List.Nodup
import NiumaTerm.Lib.Transition

/-!
# The input queue of a subprocess

Messages for an agent process are queued in batches, withdrawn by their tickets and taken for writing; both
ends may be dropped.  A ticket names its state by position, as its clones share one atomic in the source.
`Queue.Accounts` relates the calls so far to the queue.
-/

namespace NiumaTerm.Subprocess

open Transition List

/-- Where a batch is: the values 0, 1 and 2 of its ticket's atomic. -/
inductive TicketState
  | queued
  | taken
  | cancelled
deriving DecidableEq

structure InputTicket where
  state : ℕ
  batch : Bool
deriving DecidableEq

inductive InputClosed
  | closed

structure QueuedInput (Value : Type*) where
  messages : List Value
  ticket : InputTicket
deriving DecidableEq

structure QueueState (Value : Type*) where
  pending : List (QueuedInput Value)
  senderOpen : Bool
  receiverOpen : Bool

structure Queue (Value : Type*) where
  state : QueueState Value
  tickets : List TicketState

/-- What one look at the queue gives a receiver. -/
inductive Received (Value : Type*)
  | input (input : QueuedInput Value)
  /-- The sender closed. -/
  | ended
  /-- The receiver is to be notified. -/
  | waiting

variable {Value : Type*}

namespace Queue

def new : Queue Value where
  state := { pending := [], senderOpen := true, receiverOpen := true }
  tickets := []

/-- A ticket's link to its queue can be followed as long as one end is held. -/
def alive (q : Queue Value) : Bool := q.state.senderOpen || q.state.receiverOpen

/-- `isUser` is the test for a message of type `user`. -/
def submitTracked (isUser : Value → Bool) (q : Queue Value) (messages : List Value) :
    Except InputClosed InputTicket × Queue Value :=
  let ticket : InputTicket :=
    { state := q.tickets.length, batch := decide (1 < messages.length) || messages.any isUser }
  let tickets := q.tickets ++ [.queued]
  if messages.isEmpty then (.ok ticket, { q with tickets })
  -- The ticket is dropped with the batch.
  else if !q.state.receiverOpen then (.error .closed, q)
  else
    (.ok ticket, { state := { q.state with pending := q.state.pending ++ [{ messages, ticket }] },
                   tickets })

def cancel (q : Queue Value) (ticket : InputTicket) : Bool × Queue Value :=
  if q.alive then
    if q.tickets[ticket.state]? = some .taken then (false, q)
    else
      (true, { state := { q.state with
                 pending := q.state.pending.eraseP fun input => input.ticket.state = ticket.state },
               tickets := q.tickets.set ticket.state .cancelled })
  else
    match q.tickets[ticket.state]? with
    | some .queued => (true, { q with tickets := q.tickets.set ticket.state .cancelled })
    | some .cancelled => (true, q)
    | _ => (false, q)

def recv (q : Queue Value) : Received Value × Queue Value :=
  match q.state.pending with
  | input :: rest =>
    (.input input, { state := { q.state with pending := rest },
                     tickets := q.tickets.set input.ticket.state .taken })
  | [] => (if q.state.senderOpen then .waiting else .ended, q)

/-- `Drop for InputQueue`. -/
def dropSender (q : Queue Value) : Queue Value :=
  { q with state := { q.state with senderOpen := false } }

/-- `Drop for InputReceiver`. -/
def dropReceiver (q : Queue Value) : Queue Value where
  state := { q.state with pending := [], receiverOpen := false }
  tickets := q.state.pending.foldl (fun tickets input => tickets.set input.ticket.state .cancelled)
    q.tickets

end Queue

/-! ## Runs of a queue -/

/-- A call with its answer. -/
inductive Call (Value : Type*)
  | submit (messages : List Value) (answer : Except InputClosed InputTicket)
  | cancel (ticket : InputTicket) (answer : Bool)
  | recv (answer : Received Value)
  | dropSender
  | dropReceiver

/-- A dropped end is not used again, and only tickets that were handed out can be cancelled. -/
inductive Queue.Step (isUser : Value → Bool) (q : Queue Value) : Call Value → Queue Value → Prop
  | submit (messages : List Value) (h : q.state.senderOpen) : Step isUser q
      (.submit messages (q.submitTracked isUser messages).1) (q.submitTracked isUser messages).2
  | cancel (ticket : InputTicket) (h : ticket.state < q.tickets.length) :
    Step isUser q (.cancel ticket (q.cancel ticket).1) (q.cancel ticket).2
  | recv (h : q.state.receiverOpen) : Step isUser q (.recv q.recv.1) q.recv.2
  | dropSender (h : q.state.senderOpen) : Step isUser q .dropSender q.dropSender
  | dropReceiver (h : q.state.receiverOpen) : Step isUser q .dropReceiver q.dropReceiver

def inputs (isUser : Value → Bool) : System (Queue Value) (Call Value) where
  init q := q = .new
  step q call q' := q.Step isUser call q'

/-- The batches accepted, with their tickets. -/
def submitted (calls : List (Call Value)) : List (QueuedInput Value) :=
  calls.filterMap fun
    | .submit messages (.ok ticket) => some { messages, ticket }
    | _ => none

def received (calls : List (Call Value)) : List (QueuedInput Value) :=
  calls.filterMap fun
    | .recv (.input input) => some input
    | _ => none

/-- A ticket of the same batch was cancelled, with the answer `true`. -/
def Withdrawn (calls : List (Call Value)) (ticket : InputTicket) : Prop :=
  ∃ t : InputTicket, t.state = ticket.state ∧ .cancel t true ∈ calls

/-! ## What one call does -/

/-- The queue once a ticket was made and its batch, if it has messages, was queued. -/
def Queue.push (q : Queue Value) (input : QueuedInput Value) : Queue Value where
  state := { q.state with
    pending := q.state.pending ++ if input.messages.isEmpty then [] else [input] }
  tickets := q.tickets ++ [.queued]

/-- The queue once the batch of a ticket was withdrawn. -/
def Queue.withdraw (q : Queue Value) (ticket : InputTicket) : Queue Value where
  state := { q.state with
    pending := q.state.pending.eraseP fun input => input.ticket.state = ticket.state }
  tickets := q.tickets.set ticket.state .cancelled

variable {isUser : Value → Bool} {q q' : Queue Value} {call : Call Value} {calls : List (Call Value)}

theorem Queue.submitTracked_cases (isUser : Value → Bool) (q : Queue Value) (messages : List Value) :
    (∃ batch, q.submitTracked isUser messages =
      (.ok { state := q.tickets.length, batch },
        q.push { messages, ticket := { state := q.tickets.length, batch } }) ∧
      (messages ≠ [] → q.state.receiverOpen)) ∨
    q.submitTracked isUser messages = (.error .closed, q) := by
  unfold submitTracked
  dsimp only
  split_ifs with he ho
  · exact .inl ⟨_, by rw [push, if_pos he, append_nil], fun hm => absurd (by simpa using he) hm⟩
  · exact .inr rfl
  · exact .inl ⟨_, by rw [push, if_neg he], fun _ => by simpa using ho⟩

theorem Queue.cancel_taken {ticket : InputTicket}
    (h : q.tickets[ticket.state]? = some .taken) : q.cancel ticket = (false, q) := by
  unfold cancel
  split_ifs
  · rfl
  · rw [h]

/-- With no end left there is nothing pending, and both ways to cancel do the same. -/
theorem Queue.cancel_eq {ticket : InputTicket} (hc : q.state.receiverOpen = false → q.state.pending = [])
    (ht : ticket.state < q.tickets.length) (h : q.tickets[ticket.state]? ≠ some .taken) :
    q.cancel ticket = (true, q.withdraw ticket) := by
  unfold cancel
  by_cases ha : q.alive
  · rw [if_pos ha, if_neg h]
    rfl
  have hp : q.state.pending = [] := hc (by simp_all [alive])
  have hs : ({ q.state with pending := [] } : QueueState Value) = q.state := by rw [← hp]
  rw [if_neg ha, withdraw, hp, eraseP_nil, hs]
  rw [getElem?_eq_getElem ht] at h ⊢
  cases hs : q.tickets[ticket.state] with
  | queued => rfl
  | taken => exact absurd (congrArg some hs) h
  | cancelled =>
    have : q.tickets.set ticket.state .cancelled = q.tickets := by rw [← hs, set_getElem_self]
    rw [this]

theorem Queue.getElem?_dropReceiver (q : Queue Value) (t : ℕ) :
    q.dropReceiver.tickets[t]? = if t ∈ q.state.pending.map (·.ticket.state)
      then q.tickets[t]?.map fun _ => .cancelled else q.tickets[t]? := by
  suffices h : ∀ (pending : List (QueuedInput Value)) (tickets : List TicketState),
      (pending.foldl (fun tickets input => tickets.set input.ticket.state .cancelled) tickets)[t]? =
        if t ∈ pending.map (·.ticket.state) then tickets[t]?.map fun _ => .cancelled else tickets[t]?
    from h _ _
  intro pending
  induction pending with
  | nil => simp
  | cons input rest ih =>
    intro tickets
    rw [foldl_cons, ih, getElem?_set']
    by_cases ht : input.ticket.state = t
    · cases tickets[t]? <;> simp [ht]
    · have ht' : t ≠ input.ticket.state := fun h => ht h.symm
      simp [ht, ht']

/-- A key that occurs once: removing its first entry removes it. -/
theorem mem_eraseP_iff {pending : List (QueuedInput Value)} {t : ℕ}
    (h : (pending.map (·.ticket.state)).Nodup) (input : QueuedInput Value) :
    input ∈ pending.eraseP (fun input => input.ticket.state = t) ↔
      input ∈ pending ∧ input.ticket.state ≠ t := by
  induction pending with
  | nil => simp
  | cons first rest ih =>
    rw [map_cons, nodup_cons] at h
    by_cases ht : first.ticket.state = t
    · rw [eraseP_cons_of_pos (by simpa using ht), mem_cons]
      constructor
      · intro hi
        exact ⟨.inr hi, fun he => h.1 (mem_map.mpr ⟨input, hi, he.trans ht.symm⟩)⟩
      · rintro ⟨rfl | hi, hne⟩
        · exact absurd ht hne
        · exact hi
    · rw [eraseP_cons_of_neg (by simpa using ht), mem_cons, mem_cons, ih h.2]
      constructor
      · rintro (rfl | ⟨hi, hne⟩)
        · exact ⟨.inl rfl, ht⟩
        · exact ⟨.inr hi, hne⟩
      · rintro ⟨rfl | hi, hne⟩
        · exact .inl rfl
        · exact .inr ⟨hi, hne⟩

/-! ## The calls so far and the queue -/

theorem submitted_concat (calls : List (Call Value)) (call : Call Value) :
    submitted (calls ++ [call]) = submitted calls ++ submitted [call] := filterMap_append

theorem received_concat (calls : List (Call Value)) (call : Call Value) :
    received (calls ++ [call]) = received calls ++ received [call] := filterMap_append

theorem withdrawn_concat {ticket : InputTicket} : Withdrawn (calls ++ [call]) ticket ↔
    Withdrawn calls ticket ∨ ∃ t : InputTicket, t.state = ticket.state ∧ .cancel t true = call := by
  simp only [Withdrawn, mem_append, mem_singleton, and_or_left, exists_or]

/-- What the calls so far say about the queue. -/
structure Queue.Accounts (calls : List (Call Value)) (q : Queue Value) : Prop where
  /-- Every accepted batch has a ticket of its own. -/
  handed : (submitted calls).map (·.ticket.state) = List.range q.tickets.length
  order : (received calls ++ q.state.pending).Sublist (submitted calls)
  taken : ∀ t, q.tickets[t]? = some .taken ↔ ∃ input ∈ received calls, input.ticket.state = t
  pending : ∀ input ∈ q.state.pending, q.tickets[input.ticket.state]? = some .queued
  queued : ∀ input ∈ submitted calls, input.messages ≠ [] →
    q.tickets[input.ticket.state]? = some .queued → input ∈ q.state.pending
  cancelled : ∀ ticket : InputTicket, q.tickets[ticket.state]? = some .cancelled →
    Withdrawn calls ticket ∨ q.state.receiverOpen = false
  withdrawn : ∀ ticket, Withdrawn calls ticket → q.tickets[ticket.state]? = some .cancelled
  senderClosed : q.state.senderOpen = false → .dropSender ∈ calls
  receiverClosed : q.state.receiverOpen = false → q.state.pending = []

namespace Queue.Accounts

variable (h : q.Accounts calls)

theorem new : (Queue.new : Queue Value).Accounts [] := by
  constructor <;> simp [Queue.new, submitted, received, Withdrawn]

include h

theorem distinct : ((submitted calls).map (·.ticket.state)).Nodup := by
  rw [h.handed]
  exact nodup_range

theorem live_distinct : ((received calls ++ q.state.pending).map (·.ticket.state)).Nodup :=
  (h.order.map _).nodup h.distinct

theorem pending_distinct : (q.state.pending.map (·.ticket.state)).Nodup :=
  ((sublist_append_right _ _).map _).nodup h.live_distinct

theorem state_lt {input : QueuedInput Value} (hi : input ∈ submitted calls) :
    input.ticket.state < q.tickets.length := by
  have : input.ticket.state ∈ (submitted calls).map (·.ticket.state) := mem_map_of_mem hi
  rwa [h.handed, mem_range] at this

/-- A call that neither queues, takes nor withdraws anything. -/
theorem idle (hs : submitted [call] = []) (hr : received [call] = [])
    (hc : ∀ ticket, .cancel ticket true ≠ call) : q.Accounts (calls ++ [call]) := by
  have hw : ∀ ticket, Withdrawn (calls ++ [call]) ticket ↔ Withdrawn calls ticket := by
    intro ticket
    rw [withdrawn_concat, or_iff_left]
    rintro ⟨t, -, he⟩
    exact hc t he
  have hs : submitted (calls ++ [call]) = submitted calls := by
    rw [submitted_concat, hs, append_nil]
  have hr : received (calls ++ [call]) = received calls := by
    rw [received_concat, hr, append_nil]
  constructor
  · rw [hs]; exact h.handed
  · rw [hs, hr]; exact h.order
  · rw [hr]; exact h.taken
  · exact h.pending
  · rw [hs]; exact h.queued
  · intro ticket ht
    rw [hw]
    exact h.cancelled ticket ht
  · intro ticket ht
    exact h.withdrawn ticket ((hw ticket).mp ht)
  · intro ho
    exact mem_append_left _ (h.senderClosed ho)
  · exact h.receiverClosed

theorem push {messages : List Value} {batch : Bool}
    (ho : messages ≠ [] → q.state.receiverOpen = true) :
    (q.push { messages, ticket := { state := q.tickets.length, batch } }).Accounts
      (calls ++ [.submit messages (.ok { state := q.tickets.length, batch })]) := by
  set input : QueuedInput Value := { messages, ticket := { state := q.tickets.length, batch } } with hi
  have hs : submitted (calls ++ [.submit messages (.ok input.ticket)]) = submitted calls ++ [input] :=
    submitted_concat _ _
  have hr : received (calls ++ [.submit messages (.ok input.ticket)]) = received calls := by
    rw [received_concat]
    exact append_nil _
  have hw : ∀ ticket, Withdrawn (calls ++ [.submit messages (.ok input.ticket)]) ticket ↔
      Withdrawn calls ticket := by
    intro ticket
    rw [withdrawn_concat, or_iff_left]
    rintro ⟨t, -, he⟩
    cases he
  -- A ticket has a state other than `queued` in the longer list if it has it already.
  have hold : ∀ (t : ℕ) (state : TicketState), state ≠ .queued →
      ((q.tickets ++ [.queued])[t]? = some state ↔ q.tickets[t]? = some state) := by
    intro t state hne
    rw [getElem?_append]
    split_ifs with hlt
    · rfl
    · rw [getElem?_eq_none (Nat.not_lt.mp hlt), getElem?_singleton]
      split_ifs <;> simp [hne.symm]
  constructor
  · rw [hs, map_append, h.handed, Queue.push, length_append, length_singleton, range_succ]
    rfl
  · rw [hs, hr, Queue.push, ← append_assoc]
    refine h.order.append ?_
    split_ifs
    · exact nil_sublist _
    · exact List.Sublist.refl _
  · intro t
    rw [hr, Queue.push, hold t .taken (by simp)]
    exact h.taken t
  · intro other ho'
    rw [Queue.push, mem_append] at ho'
    rcases ho' with ho' | ho'
    · have := h.pending other ho'
      rw [Queue.push, getElem?_append_left (List.getElem?_eq_some_iff.mp this).1, this]
    · split_ifs at ho'
      · cases ho'
      · rw [mem_singleton] at ho'
        rw [Queue.push, ho', hi, getElem?_concat_length]
  · intro other ho' hm hq
    rw [hs, mem_append, mem_singleton] at ho'
    rw [Queue.push, mem_append]
    rcases ho' with ho' | rfl
    · rw [Queue.push, getElem?_append_left (h.state_lt ho')] at hq
      exact .inl (h.queued other ho' hm hq)
    · right
      rw [if_neg (by simpa using hm)]
      exact mem_singleton_self _
  · intro ticket ht
    rw [Queue.push, hold _ _ (by simp)] at ht
    rw [hw]
    exact h.cancelled ticket ht
  · intro ticket ht
    rw [Queue.push, hold _ _ (by simp)]
    exact h.withdrawn ticket ((hw ticket).mp ht)
  · intro hc
    exact mem_append_left _ (h.senderClosed hc)
  · intro hc
    have hm : messages = [] := by
      by_contra hm
      rw [Queue.push, ho hm] at hc
      cases hc
    rw [Queue.push, h.receiverClosed hc, hi]
    simp [hm]

theorem withdraw {ticket : InputTicket} (ht : ticket.state < q.tickets.length)
    (hn : q.tickets[ticket.state]? ≠ some .taken) :
    (q.withdraw ticket).Accounts (calls ++ [.cancel ticket true]) := by
  have hs : submitted (calls ++ [.cancel ticket true]) = submitted calls := by
    rw [submitted_concat]
    exact append_nil _
  have hr : received (calls ++ [.cancel ticket true]) = received calls := by
    rw [received_concat]
    exact append_nil _
  have hw : ∀ t, Withdrawn (calls ++ [.cancel ticket true]) t ↔
      Withdrawn calls t ∨ ticket.state = t.state := by
    intro t
    rw [withdrawn_concat]
    constructor
    · rintro (hw | ⟨_, hw, ⟨⟩⟩)
      · exact .inl hw
      · exact .inr hw
    · rintro (hw | hw)
      · exact .inl hw
      · exact .inr ⟨ticket, hw, rfl⟩
  have hset : ∀ t, ticket.state ≠ t → (q.withdraw ticket).tickets[t]? = q.tickets[t]? :=
    fun t hne => getElem?_set_ne hne
  have hself : (q.withdraw ticket).tickets[ticket.state]? = some .cancelled := by
    rw [Queue.withdraw, getElem?_set_self ht]
  have hmem : ∀ input, input ∈ (q.withdraw ticket).state.pending ↔
      input ∈ q.state.pending ∧ input.ticket.state ≠ ticket.state :=
    mem_eraseP_iff h.pending_distinct
  constructor
  · rw [hs, Queue.withdraw, length_set]
    exact h.handed
  · rw [hs, hr]
    exact (eraseP_sublist.append_left _).trans h.order
  · intro t
    rw [hr]
    by_cases he : ticket.state = t
    · rw [← he, hself, ← h.taken]
      simp [hn]
    · rw [hset t he]
      exact h.taken t
  · intro input hi
    obtain ⟨hi, hne⟩ := (hmem input).mp hi
    rw [hset _ hne.symm]
    exact h.pending input hi
  · intro input hi hm hq
    rw [hs] at hi
    have hne : ticket.state ≠ input.ticket.state := by
      intro he
      rw [← he, hself] at hq
      cases hq
    rw [hset _ hne] at hq
    exact (hmem input).mpr ⟨h.queued input hi hm hq, hne.symm⟩
  · intro t hq
    rw [hw]
    by_cases he : ticket.state = t.state
    · exact .inl (.inr he)
    · rw [hset _ he] at hq
      rcases h.cancelled t hq with hc | hc
      · exact .inl (.inl hc)
      · exact .inr hc
  · intro t ht
    by_cases he : ticket.state = t.state
    · rw [← he, hself]
    · rw [hset _ he]
      exact h.withdrawn t (((hw t).mp ht).resolve_right he)
  · intro hc
    exact mem_append_left _ (h.senderClosed hc)
  · intro hc
    rw [Queue.withdraw, h.receiverClosed hc]
    rfl

theorem take {input : QueuedInput Value} {rest : List (QueuedInput Value)}
    (hp : q.state.pending = input :: rest) :
    Queue.Accounts (calls ++ [.recv (.input input)])
      { state := { q.state with pending := rest }, tickets := q.tickets.set input.ticket.state .taken } := by
  have hs : submitted (calls ++ [.recv (.input input)]) = submitted calls := by
    rw [submitted_concat]
    exact append_nil _
  have hr : received (calls ++ [.recv (.input input)]) = received calls ++ [input] :=
    received_concat _ _
  have hw : ∀ ticket, Withdrawn (calls ++ [.recv (.input input)]) ticket ↔
      Withdrawn calls ticket := by
    intro ticket
    rw [withdrawn_concat, or_iff_left]
    rintro ⟨t, -, he⟩
    cases he
  have hq : q.tickets[input.ticket.state]? = some .queued :=
    h.pending input (by rw [hp]; exact mem_cons_self)
  have hlt := (List.getElem?_eq_some_iff.mp hq).1
  have hd := h.pending_distinct
  rw [hp, map_cons, nodup_cons] at hd
  constructor
  · rw [hs, length_set]
    exact h.handed
  · rw [hs, hr, append_assoc, singleton_append, ← hp]
    exact h.order
  · intro t
    by_cases he : input.ticket.state = t
    · rw [← he, getElem?_set_self hlt, hr]
      simp
    · rw [getElem?_set_ne he, h.taken, hr]
      simp [he]
  · intro other ho
    have hne : input.ticket.state ≠ other.ticket.state :=
      fun he => hd.1 (mem_map.mpr ⟨other, ho, he.symm⟩)
    rw [getElem?_set_ne hne]
    exact h.pending other (by rw [hp]; exact mem_cons_of_mem _ ho)
  · intro other ho hm hoq
    rw [hs] at ho
    have hne : input.ticket.state ≠ other.ticket.state := by
      intro he
      rw [← he, getElem?_set_self hlt] at hoq
      cases hoq
    rw [getElem?_set_ne hne] at hoq
    have := h.queued other ho hm hoq
    rw [hp, mem_cons] at this
    rcases this with rfl | this
    · exact absurd rfl hne
    · exact this
  · intro ticket ht
    have hne : input.ticket.state ≠ ticket.state := by
      intro he
      rw [← he, getElem?_set_self hlt] at ht
      cases ht
    rw [getElem?_set_ne hne] at ht
    rw [hw]
    exact h.cancelled ticket ht
  · intro ticket ht
    have hc := h.withdrawn ticket ((hw ticket).mp ht)
    have hne : input.ticket.state ≠ ticket.state := by
      intro he
      rw [← he, hq] at hc
      cases hc
    rw [getElem?_set_ne hne, hc]
  · intro hc
    exact mem_append_left _ (h.senderClosed hc)
  · intro hc
    have := h.receiverClosed hc
    rw [hp] at this
    cases this

theorem dropSender : q.dropSender.Accounts (calls ++ [.dropSender]) := by
  have hi : q.Accounts (calls ++ [.dropSender]) := h.idle rfl rfl (by simp)
  constructor
  · exact hi.handed
  · exact hi.order
  · exact hi.taken
  · exact hi.pending
  · exact hi.queued
  · exact hi.cancelled
  · exact hi.withdrawn
  · intro _
    simp
  · exact hi.receiverClosed

theorem dropReceiver : q.dropReceiver.Accounts (calls ++ [.dropReceiver]) := by
  have hi : q.Accounts (calls ++ [.dropReceiver]) := h.idle rfl rfl (by simp)
  have hget := q.getElem?_dropReceiver
  have hqueued : ∀ t, t ∈ q.state.pending.map (·.ticket.state) → q.tickets[t]? = some .queued := by
    intro t ht
    obtain ⟨input, hp, rfl⟩ := mem_map.mp ht
    exact h.pending input hp
  constructor
  · rw [hi.handed]
    congr 1
    have : ∀ (pending : List (QueuedInput Value)) (tickets : List TicketState), (pending.foldl
        (fun tickets input => tickets.set input.ticket.state .cancelled) tickets).length =
        tickets.length := by
      intro pending
      induction pending with
      | nil => simp
      | cons input rest ih =>
        intro tickets
        rw [foldl_cons, ih, length_set]
    exact (this _ _).symm
  · exact ((nil_sublist _).append_left _).trans hi.order
  · intro t
    rw [hget, ← hi.taken]
    split_ifs with ht
    · rw [hqueued t ht]
      simp
    · rfl
  · rintro input ⟨⟩
  · intro input hs hm hq
    rw [hget] at hq
    split_ifs at hq with ht
    · rw [hqueued _ ht] at hq
      cases hq
    · exact absurd (mem_map_of_mem (hi.queued input hs hm hq)) ht
  · intro _ _
    exact .inr rfl
  · intro ticket ht
    rw [hget, hi.withdrawn ticket ht]
    split_ifs <;> rfl
  · exact hi.senderClosed
  · intro _
    rfl

end Queue.Accounts

theorem Queue.Step.accounts (hs : q.Step isUser call q') (h : q.Accounts calls) :
    q'.Accounts (calls ++ [call]) := by
  cases hs with
  | submit messages =>
    rcases q.submitTracked_cases isUser messages with ⟨batch, he, ho⟩ | he
    · rw [he]
      exact h.push ho
    · rw [he]
      exact h.idle rfl rfl (by simp)
  | cancel ticket ht =>
    by_cases hn : q.tickets[ticket.state]? = some .taken
    · rw [cancel_taken hn]
      exact h.idle rfl rfl (by simp)
    · rw [cancel_eq h.receiverClosed ht hn]
      exact h.withdraw ht hn
  | recv _ =>
    unfold Queue.recv
    split
    · rename_i input rest hp
      exact h.take hp
    · split_ifs
      · exact h.idle rfl rfl (by simp)
      · exact h.idle rfl rfl (by simp)
  | dropSender _ => exact h.dropSender
  | dropReceiver _ => exact h.dropReceiver

theorem accounts_of_run (h : Run (inputs isUser) calls q) : q.Accounts calls := by
  refine h.history (I := fun calls q => Queue.Accounts calls q) ?_ ?_
  · rintro q rfl
    exact .new
  · intro calls q call q' ih hs
    exact hs.accounts ih

/-! ## Batches are written whole, in order and at most once -/

/-- An empty batch is accepted without being queued, and no call stands for its writing. -/
structure BatchesWhole (calls : List (Call Value)) : Prop where
  distinct : ((submitted calls).map (·.ticket.state)).Nodup
  inOrder : (received calls).Sublist (submitted calls)
  once : ((received calls).map (·.ticket.state)).Nodup
  notBoth : ∀ input ∈ received calls, ¬ Withdrawn calls input.ticket
  answers : ∀ before ticket answer after, calls = before ++ .cancel ticket answer :: after →
    (answer = false ↔ ∃ input ∈ received before, input.ticket.state = ticket.state)
  ends : ∀ before after, calls = before ++ .recv .ended :: after → .dropSender ∈ before ∧
    ∀ input ∈ submitted before, input.messages ≠ [] →
      input ∈ received before ∨ Withdrawn before input.ticket

theorem Queue.Accounts.cancel_answer {ticket : InputTicket} (h : q.Accounts calls)
    (ht : ticket.state < q.tickets.length) : (q.cancel ticket).1 = false ↔
      ∃ input ∈ received calls, input.ticket.state = ticket.state := by
  rw [← h.taken]
  by_cases hn : q.tickets[ticket.state]? = some .taken
  · rw [cancel_taken hn]
    simp [hn]
  · rw [cancel_eq h.receiverClosed ht hn]
    simp [hn]

/-- A receiver is told of the end once nothing is pending. -/
theorem Queue.recv_ended (h : q.recv.1 = .ended) :
    q.state.pending = [] ∧ q.state.senderOpen = false := by
  unfold recv at h
  split at h
  · cases h
  · rename_i hp
    split_ifs at h with ho
    exact ⟨hp, by simpa using ho⟩

theorem Queue.Accounts.none_left (h : q.Accounts calls) (hp : q.state.pending = [])
    (ho : q.state.receiverOpen = true) {input : QueuedInput Value} (hi : input ∈ submitted calls)
    (hm : input.messages ≠ []) : input ∈ received calls ∨ Withdrawn calls input.ticket := by
  have hlt := h.state_lt hi
  cases hs : q.tickets[input.ticket.state] with
  | queued =>
    have := h.queued input hi hm (List.getElem?_eq_some_iff.mpr ⟨hlt, hs⟩)
    rw [hp] at this
    cases this
  | taken =>
    obtain ⟨other, hr, he⟩ := (h.taken _).mp (List.getElem?_eq_some_iff.mpr ⟨hlt, hs⟩)
    left
    have hos := h.order.subset (mem_append_left _ hr)
    rwa [← inj_on_of_nodup_map h.distinct hos hi he]
  | cancelled =>
    right
    refine (h.cancelled _ (List.getElem?_eq_some_iff.mpr ⟨hlt, hs⟩)).resolve_right ?_
    simp [ho]

/-- In every run, the batches received are batches submitted, whole and in their order, a batch is
received or withdrawn but not both, `cancel` tells which, and `recv` ends after all that was not
withdrawn. -/
theorem batches_whole {isUser : Value → Bool} {calls : List (Call Value)} {q : Queue Value}
    (h : Run (inputs isUser) calls q) : BatchesWhole calls := by
  have ha := accounts_of_run h
  constructor
  · exact ha.distinct
  · exact (sublist_append_left _ _).trans ha.order
  · exact ((sublist_append_left _ _).map _).nodup ha.live_distinct
  · intro input hr hw
    have := (ha.taken _).mpr ⟨input, hr, rfl⟩
    rw [ha.withdrawn _ hw] at this
    cases this
  · rintro before ticket answer after rfl
    obtain ⟨q₁, q₂, hr, hs, -⟩ := h.split
    cases hs with
    | cancel _ ht => exact (accounts_of_run hr).cancel_answer ht
  · rintro before after rfl
    obtain ⟨q₁, q₂, hr, hs, -⟩ := h.split
    have ha₁ := accounts_of_run hr
    generalize hc : Call.recv .ended = call at hs
    cases hs with
    | recv ho =>
      obtain ⟨hp, hso⟩ := Queue.recv_ended (Call.recv.inj hc).symm
      exact ⟨ha₁.senderClosed hso, fun input ↦ ha₁.none_left hp ho⟩
    | _ => cases hc

/-- Two batches are submitted, the first is withdrawn, and the second is written. -/
def withdrawOne : List (Call ℕ) :=
  [.submit [1] (.ok { state := 0, batch := false }), .submit [2, 3] (.ok { state := 1, batch := true }),
   .cancel { state := 0, batch := false } true,
   .recv (.input { messages := [2, 3], ticket := { state := 1, batch := true } }),
   .cancel { state := 1, batch := true } false, .dropSender, .recv .ended]

theorem withdrawOne_run : ∃ q, Run (inputs fun _ => false) withdrawOne q := by
  have h : Run (inputs fun _ => false) [] (Queue.new : Queue ℕ) := .init rfl
  have h := h.step (.submit [1] rfl)
  have h := h.step (.submit [2, 3] rfl)
  have h := h.step (.cancel { state := 0, batch := false } (by decide))
  have h := h.step (.recv rfl)
  have h := h.step (.cancel { state := 1, batch := true } (by decide))
  have h := h.step (.dropSender rfl)
  exact ⟨_, h.step (.recv rfl)⟩

theorem batches_whole_withdrawOne : BatchesWhole withdrawOne := by
  obtain ⟨q, h⟩ := withdrawOne_run
  exact batches_whole h

/-- An empty batch is neither received nor withdrawn when the receiver is told of the end. -/
theorem empty_batch_unwritten : ∃ (before : List (Call ℕ)) (q : Queue ℕ) (input : QueuedInput ℕ),
    Run (inputs fun _ ↦ false) (before ++ [.recv .ended]) q ∧ input ∈ submitted before ∧
      input ∉ received before ∧ ¬ Withdrawn before input.ticket := by
  have h : Run (inputs fun _ ↦ false) [] (Queue.new : Queue ℕ) := .init rfl
  have h := h.step (.submit [] rfl)
  have h := h.step (.dropSender rfl)
  refine ⟨_, _, { messages := [], ticket := { state := 0, batch := false } }, h.step (.recv rfl), ?_⟩
  refine ⟨by decide, by decide, ?_⟩
  rintro ⟨t, -, ht⟩
  simp at ht

end NiumaTerm.Subprocess
