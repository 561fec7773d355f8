import Mathlib.Data.List.Nodup
import Mathlib.Data.List.Perm.Subperm
import NiumaTerm.Lib.Transition

/-!
# A user's quota of client connections

`UserQuota` keeps an entry for every client connection of one user.  A room asks for a place, accepts the
socket some time after the answer, and reports the close some time after it happened; a full quota asks
the rooms which entries are still open, and everything else goes on meanwhile.
-/

set_option linter.unusedSectionVars false

namespace NiumaTerm.Relay

open Transition List

variable {Conn Room : Type}

def maxClientsPerUser : ℕ := 8

def quotaGraceMs : ℕ := 10000

/-! ## The quota's storage -/

structure QuotaEntry (Room : Type) where
  roomId : Room
  since : ℕ
  deriving DecidableEq

abbrev Entries (Conn Room : Type) := List (Conn × QuotaEntry Room)

/-- What a room said of its open clients, if it has. -/
inductive Answer (Conn : Type)
  | pending
  | rejected
  | fulfilled (live : List Conn)
  deriving DecidableEq

/-- A room that `dropClosed` asks, and the entries it asks about. -/
structure Question (Conn Room : Type) where
  room : Room
  conns : List Conn
  answer : Answer Conn

namespace UserQuota

section

variable [DecidableEq Conn]

def full (entries : Entries Conn Room) : Bool := maxClientsPerUser ≤ entries.length

def put (entries : Entries Conn Room) (conn : Conn) (entry : QuotaEntry Room) : Entries Conn Room :=
  entries.filter (fun held => held.1 ≠ conn) ++ [(conn, entry)]

def release (entries : Entries Conn Room) (conn : Conn) : Entries Conn Room :=
  entries.filter fun held => held.1 ≠ conn

/-- What `dropClosed` drops: a room that failed to answer keeps its entries. -/
def closed (questions : List (Question Conn Room)) : List Conn :=
  questions.flatMap fun question =>
    match question.answer with
    | .fulfilled live => question.conns.filter (· ∉ live)
    | _ => []

def delete (entries : Entries Conn Room) (conns : List Conn) : Entries Conn Room :=
  entries.filter fun held => held.1 ∉ conns

variable {entries : Entries Conn Room} {conn : Conn} {held : Conn × QuotaEntry Room}

theorem mem_put {entry : QuotaEntry Room} :
    held ∈ put entries conn entry ↔
      held ∈ entries ∧ held.1 ≠ conn ∨ held = (conn, entry) := by
  simp [put]

theorem length_put (entries : Entries Conn Room) (conn : Conn) (entry : QuotaEntry Room) :
    (put entries conn entry).length ≤ entries.length + 1 := by
  simp only [put, length_append, length_cons, length_nil]
  have := length_filter_le (fun held => held.1 ≠ conn) entries
  omega

theorem mem_release : held ∈ release entries conn ↔ held ∈ entries ∧ held.1 ≠ conn := by
  simp [release]

theorem mem_delete {conns : List Conn} :
    held ∈ delete entries conns ↔ held ∈ entries ∧ held.1 ∉ conns := by
  simp [delete]

theorem release_absent (h : ∀ held ∈ entries, held.1 ≠ conn) : release entries conn = entries :=
  filter_eq_self.mpr fun held hm => decide_eq_true (h held hm)

theorem release_release (entries : Entries Conn Room) (conn : Conn) :
    release (release entries conn) conn = release entries conn :=
  release_absent fun _ hm => (mem_release.mp hm).2

/-- What is dropped was asked about, and the room's answer did not list it. -/
theorem mem_closed {questions : List (Question Conn Room)}
    (h : conn ∈ closed questions) : ∃ question ∈ questions, conn ∈ question.conns ∧
      ∃ live, question.answer = .fulfilled live ∧ conn ∉ live := by
  obtain ⟨question, hq, hc⟩ := mem_flatMap.mp h
  split at hc
  · next live ha =>
    rw [mem_filter, decide_eq_true_eq] at hc
    exact ⟨question, hq, hc.1, live, ha, hc.2⟩
  · cases hc

end

section

variable [DecidableEq Room]

/-- `byRoom.set(roomId, [...(byRoom.get(roomId) ?? []), conn])` -/
def ask (room : Room) (conn : Conn) : List (Question Conn Room) → List (Question Conn Room)
  | [] => [⟨room, [conn], .pending⟩]
  | question :: rest =>
    if question.room = room then { question with conns := question.conns ++ [conn] } :: rest
    else question :: ask room conn rest

/-- The questions of `dropClosed`: an entry younger than the grace is not asked about. -/
def questions (now : ℕ) (entries : Entries Conn Room) : List (Question Conn Room) :=
  entries.foldl (fun byRoom held =>
    if held.2.since + quotaGraceMs ≤ now then ask held.2.roomId held.1 byRoom else byRoom) []

theorem mem_ask {room : Room} {conn : Conn} {byRoom : List (Question Conn Room)}
    {question : Question Conn Room} (h : question ∈ ask room conn byRoom) :
    question ∈ byRoom ∨ question.room = room ∧ question.answer = .pending ∧
        question.conns = [conn] ∨
      ∃ old ∈ byRoom, old.room = room ∧ question = { old with conns := old.conns ++ [conn] } := by
  induction byRoom with
  | nil =>
    obtain rfl := mem_singleton.mp h
    exact .inr (.inl ⟨rfl, rfl, rfl⟩)
  | cons first rest ih =>
    rw [ask] at h
    split at h
    · next hr =>
      rcases mem_cons.mp h with rfl | hm
      · exact .inr (.inr ⟨first, mem_cons_self, hr, rfl⟩)
      · exact .inl (mem_cons_of_mem _ hm)
    · rcases mem_cons.mp h with rfl | hm
      · exact .inl mem_cons_self
      · rcases ih hm with hm | hnew | ⟨old, hm, hr, he⟩
        · exact .inl (mem_cons_of_mem _ hm)
        · exact .inr (.inl hnew)
        · exact .inr (.inr ⟨old, mem_cons_of_mem _ hm, hr, he⟩)

/-- A question is about entries of its room that are older than the grace. -/
theorem mem_questions {now : ℕ} {entries : Entries Conn Room} {question : Question Conn Room}
    (h : question ∈ questions now entries) : question.answer = .pending ∧
      ∀ conn ∈ question.conns, ∃ entry, (conn, entry) ∈ entries ∧
        entry.roomId = question.room ∧ entry.since + quotaGraceMs ≤ now := by
  induction entries using reverseRecOn generalizing question with
  | nil => cases h
  | append_singleton before held ih =>
    -- what was known of a question stays true of it with one more entry
    have hold : ∀ q ∈ questions now before, q.answer = .pending ∧ ∀ conn ∈ q.conns, ∃ entry,
        (conn, entry) ∈ before ++ [held] ∧ entry.roomId = q.room ∧
          entry.since + quotaGraceMs ≤ now := by
      intro q hq
      refine ⟨(ih hq).1, fun conn hc => ?_⟩
      obtain ⟨entry, hm, he⟩ := (ih hq).2 conn hc
      exact ⟨entry, mem_append_left _ hm, he⟩
    rw [questions, foldl_append, foldl_cons, foldl_nil, ← questions] at h
    split at h
    · next hs =>
      have hnew : (held.1, held.2) ∈ before ++ [held] :=
        mem_append_right _ (mem_singleton_self _)
      rcases mem_ask h with hm | ⟨hr, ha, hc⟩ | ⟨old, hm, hr, rfl⟩
      · exact hold question hm
      · refine ⟨ha, fun conn hm => ?_⟩
        rw [hc, mem_singleton] at hm
        subst hm
        exact ⟨held.2, hnew, hr.symm, hs⟩
      · refine ⟨(hold old hm).1, fun conn hc => ?_⟩
        rcases mem_append.mp hc with hc | hc
        · exact (hold old hm).2 conn hc
        · rw [mem_singleton] at hc
          subst hc
          exact ⟨held.2, hnew, hr.symm, hs⟩
    · exact hold question h

end

end UserQuota

/-! ## The rooms and the quota -/

/-- A client socket that a room has accepted; `isOpen` is `readyState === OPEN`. -/
structure ClientSocket (Conn Room : Type) where
  conn : Conn
  room : Room
  isOpen : Bool

/-- How far the admission of a connection has come. -/
inductive Admission (Conn Room : Type)
  /-- The id has not been drawn yet. -/
  | unused
  /-- `dropClosed` waits for the rooms it asked. -/
  | dropping (room : Room) (questions : List (Question Conn Room))
  /-- `dropClosed` is done and the second count not. -/
  | recounting (room : Room)
  /-- The quota has said yes, at `since`, and the room not gone on yet. -/
  | granted (room : Room) (since : ℕ)
  | accepted
  | refused

/-- One user's quota and rooms; `releases` are the calls that have not arrived. -/
structure UserRelay (Conn Room : Type) where
  now : ℕ
  entries : Entries Conn Room
  admission : Conn → Admission Conn Room
  sockets : List (ClientSocket Conn Room)
  releases : List Conn

inductive Event (Conn Room : Type)
  | tick (ms : ℕ)
  /-- A room calls `acquire` for a connection id that it has drawn. -/
  | acquire (conn : Conn) (room : Room)
  /-- `liveClients` of a room runs for a `dropClosed`, or fails. -/
  | answers (conn : Conn) (room : Room) (fulfilled : Bool)
  | dropped (conn : Conn)
  | recounted (conn : Conn)
  | accepted (conn : Conn)
  /-- The control socket went while the quota answered. -/
  | abandoned (conn : Conn)
  /-- A client socket stops being open, whoever closes it. -/
  | closes (conn : Conn)
  /-- `webSocketClose` or `webSocketError` runs for a socket that is no longer open. -/
  | handles (conn : Conn)
  /-- A `release` arrives. -/
  | released (conn : Conn)

variable [DecidableEq Conn] [DecidableEq Room]

def ClientSocket.close (conn : Conn) (socket : ClientSocket Conn Room) : ClientSocket Conn Room :=
  if socket.conn = conn then { socket with isOpen := false } else socket

@[simp] theorem ClientSocket.close_conn (conn : Conn) (socket : ClientSocket Conn Room) :
    (socket.close conn).conn = socket.conn := by
  rw [close]
  split <;> rfl

@[simp] theorem ClientSocket.close_room (conn : Conn) (socket : ClientSocket Conn Room) :
    (socket.close conn).room = socket.room := by
  rw [close]
  split <;> rfl

theorem ClientSocket.close_shut (conn : Conn) {socket : ClientSocket Conn Room}
    (h : socket.isOpen = false) : (socket.close conn).isOpen = false := by
  rw [close]
  split
  · rfl
  · exact h

def liveClients (sockets : List (ClientSocket Conn Room)) (room : Room) : List Conn :=
  (sockets.filter fun socket => socket.room = room ∧ socket.isOpen).map (·.conn)

namespace UserRelay

def start : UserRelay Conn Room where
  now := 0
  entries := []
  admission := fun _ => .unused
  sockets := []
  releases := []

def advance (s : UserRelay Conn Room) (conn : Conn) (admission : Admission Conn Room) :
    UserRelay Conn Room :=
  { s with admission := Function.update s.admission conn admission }

/-- The end of `acquire`: the count and the `put`, with only storage calls between. -/
def count (s : UserRelay Conn Room) (conn : Conn) (room : Room) : UserRelay Conn Room :=
  if UserQuota.full s.entries then s.advance conn .refused
  else { s.advance conn (.granted room s.now) with
    entries := UserQuota.put s.entries conn ⟨room, s.now⟩ }

def perform (s : UserRelay Conn Room) : Event Conn Room → Option (UserRelay Conn Room)
  | .tick ms => some { s with now := s.now + ms }
  | .acquire conn room =>
    match s.admission conn with
    | .unused =>
      if UserQuota.full s.entries then
        some (s.advance conn (.dropping room (UserQuota.questions s.now s.entries)))
      else some (s.count conn room)
    | _ => none
  | .answers conn room fulfilled =>
    match s.admission conn with
    | .dropping home questions =>
      let answer := if fulfilled then .fulfilled (liveClients s.sockets room) else .rejected
      some (s.advance conn (.dropping home (questions.map fun question =>
        if question.room = room ∧ question.answer = .pending then
          { question with answer := answer }
        else question)))
    | _ => none
  | .dropped conn =>
    match s.admission conn with
    | .dropping home questions =>
      if questions.all fun question => question.answer ≠ .pending then
        some { s.advance conn (.recounting home) with
          entries := UserQuota.delete s.entries (UserQuota.closed questions) }
      else none
    | _ => none
  | .recounted conn =>
    match s.admission conn with
    | .recounting home => some (s.count conn home)
    | _ => none
  | .accepted conn =>
    match s.admission conn with
    | .granted room _ => some { s.advance conn .accepted with
        sockets := s.sockets ++ [⟨conn, room, true⟩] }
    | _ => none
  | .abandoned conn =>
    match s.admission conn with
    | .granted _ _ => some { s.advance conn .refused with releases := s.releases ++ [conn] }
    | _ => none
  | .closes conn => some { s with sockets := s.sockets.map (.close conn) }
  | .handles conn =>
    if s.sockets.any fun socket => socket.conn = conn ∧ socket.isOpen = false then
      some { s with releases := s.releases ++ [conn] }
    else none
  | .released conn =>
    if conn ∈ s.releases then some { s with
      entries := UserQuota.release s.entries conn
      releases := s.releases.erase conn }
    else none

def system : System (UserRelay Conn Room) (Event Conn Room) where
  init s := s = start
  step s event s' := s.perform event = some s'

/-- A room accepts a socket only within the grace after the quota said yes. -/
def inTime (s : UserRelay Conn Room) : Event Conn Room → Bool
  | .accepted conn =>
    match s.admission conn with
    | .granted _ since => s.now < since + quotaGraceMs
    | _ => true
  | _ => true

/-! ## What one event can do to a connection whose grace is over -/

/-- No socket of the connection will be accepted any more. -/
def Settled (s : UserRelay Conn Room) (conn : Conn) : Prop :=
  s.admission conn = .accepted ∨ s.admission conn = .refused ∨
    ∃ room since, s.admission conn = .granted room since ∧ since + quotaGraceMs ≤ s.now

/-- Over, whatever the time. -/
def Over (s : UserRelay Conn Room) (conn : Conn) : Prop :=
  s.admission conn = .accepted ∨ s.admission conn = .refused

/-- The quota has not answered for the connection. -/
def Waiting (s : UserRelay Conn Room) (conn : Conn) : Prop :=
  match s.admission conn with
  | .unused | .dropping _ _ | .recounting _ => True
  | _ => False

def Shut (s : UserRelay Conn Room) (conn : Conn) : Prop :=
  ∀ socket ∈ s.sockets, socket.conn = conn → socket.isOpen = false

/-- A connection whose admission is settled stays so, and gets no socket that it had not. -/
structure Later (s s' : UserRelay Conn Room) : Prop where
  ended : ∀ conn, s.Over conn → s'.Over conn
  settled : ∀ conn, s.Settled conn → s'.Settled conn
  sockets : ∀ conn, s.Settled conn → ∀ socket' ∈ s'.sockets, socket'.conn = conn →
    ∃ socket ∈ s.sockets, socket.conn = conn ∧ socket.room = socket'.room ∧
      (socket.isOpen = false → socket'.isOpen = false)

variable {s s' : UserRelay Conn Room} {conn : Conn} {room : Room} {since : ℕ}

theorem Over.settled (h : s.Over conn) : s.Settled conn :=
  h.elim .inl (.inr ∘ .inl)

theorem Later.shut (h : s.Later s') (hs : s.Settled conn) (hc : s.Shut conn) : s'.Shut conn := by
  intro socket' hm hconn
  obtain ⟨socket, hm, hsocket, -, hopen⟩ := h.sockets conn hs socket' hm hconn
  exact hopen (hc socket hm hsocket)

/-- The admission of one connection goes on, and no socket changes. -/
theorem Later.of_admission {admission : Admission Conn Room}
    (ha : s'.admission = Function.update s.admission conn admission)
    (hnow : s'.now = s.now) (hsockets : s'.sockets = s.sockets) (hover : ¬ s.Over conn)
    (hset : s.Settled conn → s'.Settled conn) : s.Later s' := by
  have hother : ∀ other, other ≠ conn → s'.admission other = s.admission other := by
    intro other hne
    rw [ha, Function.update_of_ne hne]
  refine ⟨fun other h => ?_, fun other h => ?_, fun other h socket hm hconn => ?_⟩
  · have hne : other ≠ conn := by
      rintro rfl
      exact hover h
    rw [Over, hother other hne]
    exact h
  · by_cases hne : other = conn
    · subst hne
      exact hset h
    · rw [Settled, hother other hne, hnow]
      exact h
  · rw [hsockets] at hm
    exact ⟨socket, hm, hconn, rfl, id⟩

theorem Waiting.not_over (h : s.Waiting conn) : ¬ s.Over conn := by
  rintro (ho | ho) <;> rw [Waiting, ho] at h <;> exact h

theorem Waiting.not_granted (h : s.Waiting conn) : s.admission conn ≠ .granted room since := by
  intro hg
  rw [Waiting, hg] at h
  exact h

theorem Waiting.not_settled (h : s.Waiting conn) : ¬ s.Settled conn := by
  rintro (hs | hs | ⟨room, since, hs, -⟩)
  · exact h.not_over (.inl hs)
  · exact h.not_over (.inr hs)
  · exact h.not_granted hs

theorem count_admission (s : UserRelay Conn Room) (conn : Conn) (room : Room) :
    (s.count conn room).admission = Function.update s.admission conn
      (if UserQuota.full s.entries then .refused else .granted room s.now) := by
  rw [count]
  split <;> rfl

theorem count_now (s : UserRelay Conn Room) (conn : Conn) (room : Room) :
    (s.count conn room).now = s.now := by
  rw [count]
  split <;> rfl

theorem count_sockets (s : UserRelay Conn Room) (conn : Conn) (room : Room) :
    (s.count conn room).sockets = s.sockets := by
  rw [count]
  split <;> rfl

theorem later_count (room : Room) (h : s.Waiting conn) : s.Later (s.count conn room) :=
  .of_admission (count_admission s conn room) (count_now s conn room) (count_sockets s conn room)
    h.not_over fun hs => absurd hs h.not_settled

/-- **What one event can do** to a connection whose admission is settled. -/
theorem perform_later {event : Event Conn Room}
    (h : s.perform event = some s') (ht : s.inTime event) : s.Later s' := by
  have hsame : ∀ {s' : UserRelay Conn Room}, s'.admission = s.admission → s.now ≤ s'.now →
      s'.sockets = s.sockets → s.Later s' := by
    intro s' ha hnow hsockets
    refine ⟨fun conn ho => ?_, fun conn hs => ?_, fun conn hs socket hm hconn => ?_⟩
    · rw [Over, ha]
      exact ho
    · rw [Settled, ha]
      rcases hs with hs | hs | ⟨room, since, hg, hle⟩
      · exact .inl hs
      · exact .inr (.inl hs)
      · exact .inr (.inr ⟨room, since, hg, Nat.le_trans hle hnow⟩)
    · rw [hsockets] at hm
      exact ⟨socket, hm, hconn, rfl, id⟩
  cases event with
  | tick ms =>
    cases h
    exact hsame rfl (Nat.le_add_right _ _) rfl
  | acquire conn room =>
    rw [perform] at h
    split at h
    · next ha =>
      have hw : s.Waiting conn := by rw [Waiting, ha]; trivial
      split at h <;> cases h
      · exact .of_admission rfl rfl rfl hw.not_over fun hs => absurd hs hw.not_settled
      · exact later_count room hw
    · cases h
  | answers conn room fulfilled =>
    rw [perform] at h
    split at h
    · next home questions ha =>
      cases h
      have hw : s.Waiting conn := by rw [Waiting, ha]; trivial
      exact .of_admission rfl rfl rfl hw.not_over fun hs => absurd hs hw.not_settled
    · cases h
  | dropped conn =>
    rw [perform] at h
    split at h
    · next home questions ha =>
      have hw : s.Waiting conn := by rw [Waiting, ha]; trivial
      split at h <;> cases h
      exact .of_admission rfl rfl rfl hw.not_over fun hs => absurd hs hw.not_settled
    · cases h
  | recounted conn =>
    rw [perform] at h
    split at h
    · next home ha =>
      cases h
      exact later_count home (by rw [Waiting, ha]; trivial)
    · cases h
  | accepted conn =>
    rw [perform] at h
    split at h
    · next room since ha =>
      cases h
      -- in time, so the grace of this connection is not over
      have hnow : s.now < since + quotaGraceMs := by simpa [inTime, ha] using ht
      have hn : ¬ s.Settled conn := by
        rintro (hs | hs | ⟨room', since', hs, hle⟩)
        · cases ha.symm.trans hs
        · cases ha.symm.trans hs
        · obtain ⟨-, rfl⟩ := Admission.granted.inj (ha.symm.trans hs)
          exact absurd hnow (Nat.not_lt.mpr hle)
      refine ⟨fun other ho => ?_, fun other hs => ?_, fun other hs socket hm hconn => ?_⟩
      · have hne : other ≠ conn := by
          rintro rfl
          exact hn ho.settled
        simpa [Over, advance, hne] using ho
      · have hne : other ≠ conn := by
          rintro rfl
          exact hn hs
        simpa [Settled, advance, hne] using hs
      · rcases mem_append.mp hm with hm | hm
        · exact ⟨socket, hm, hconn, rfl, id⟩
        · rw [mem_singleton] at hm
          subst hm
          obtain rfl : conn = other := hconn
          exact absurd hs hn
    · cases h
  | abandoned conn =>
    rw [perform] at h
    split at h
    · next room since ha =>
      cases h
      have hn : ¬ s.Over conn := by
        rintro (ho | ho) <;> cases ha.symm.trans ho
      refine .of_admission rfl rfl rfl hn fun _ => .inr (.inl ?_)
      simp [advance]
    · cases h
  | closes conn =>
    cases h
    refine ⟨fun other ho => ho, fun other hs => hs, fun other hs socket hm hconn => ?_⟩
    obtain ⟨old, hold, rfl⟩ := mem_map.mp hm
    rw [ClientSocket.close_conn] at hconn
    exact ⟨old, hold, hconn, (ClientSocket.close_room ..).symm, ClientSocket.close_shut conn⟩
  | handles conn | released conn =>
    rw [perform] at h
    split at h <;> cases h
    exact hsame rfl (Nat.le_refl _) rfl

/-! ## The invariant -/

structure Valid (s : UserRelay Conn Room) : Prop where
  bounded : s.entries.length ≤ maxClientsPerUser
  /-- An entry is of a connection that the quota said yes to, at that time and for that room. -/
  entry : ∀ conn entry, (conn, entry) ∈ s.entries →
    (s.admission conn = .granted entry.roomId entry.since ∨ s.Over conn) ∧
      ∀ socket ∈ s.sockets, socket.conn = conn → socket.room = entry.roomId
  granted : ∀ conn room since, s.admission conn = .granted room since →
    s.now < since + quotaGraceMs → (conn, ⟨room, since⟩) ∈ s.entries
  socket : ∀ socket ∈ s.sockets, s.admission socket.conn = .accepted ∧
    (socket.isOpen → ∃ entry, (socket.conn, entry) ∈ s.entries)
  unique : (s.sockets.map (·.conn)).Nodup
  /-- What a room is asked about is settled, and gone when the answer does not list it. -/
  asked : ∀ conn home questions, s.admission conn = .dropping home questions →
    ∀ question ∈ questions, ∀ held ∈ question.conns, s.Settled held ∧
      (∀ socket ∈ s.sockets, socket.conn = held → socket.room = question.room) ∧
      ∀ live, question.answer = .fulfilled live → held ∉ live → s.Shut held
  release : ∀ conn ∈ s.releases, s.Over conn ∧ s.Shut conn

theorem valid_start : Valid (start : UserRelay Conn Room) where
  bounded := Nat.zero_le _
  entry := by simp [start]
  granted := by simp [start]
  socket := by simp [start]
  unique := nodup_nil
  asked := by simp [start]
  release := by simp [start]

/-- What is known of the questions of a `dropClosed` that is not the one going on. -/
theorem Valid.asked_later (h : s.Valid) (hl : s.Later s')
    {home : Room} {questions : List (Question Conn Room)}
    (ha : s.admission conn = .dropping home questions) :
    ∀ question ∈ questions, ∀ held ∈ question.conns, s'.Settled held ∧
      (∀ socket ∈ s'.sockets, socket.conn = held → socket.room = question.room) ∧
      ∀ live, question.answer = .fulfilled live → held ∉ live → s'.Shut held := by
  intro question hq held hheld
  obtain ⟨hset, hroom, hshut⟩ := h.asked conn home questions ha question hq held hheld
  refine ⟨hl.settled held hset, fun socket' hm hc => ?_, fun live hans hnot => ?_⟩
  · obtain ⟨socket, hm, hc, hr, -⟩ := hl.sockets held hset socket' hm hc
    rw [← hr]
    exact hroom socket hm hc
  · exact hl.shut hset (hshut live hans hnot)

theorem Valid.release_later (h : s.Valid) (hl : s.Later s')
    (hc : conn ∈ s.releases) : s'.Over conn ∧ s'.Shut conn := by
  obtain ⟨ho, hs⟩ := h.release conn hc
  exact ⟨hl.ended conn ho, hl.shut ho.settled hs⟩

theorem Valid.no_socket (h : s.Valid)
    (hn : s.admission conn ≠ .accepted) : ∀ socket ∈ s.sockets, socket.conn ≠ conn := by
  rintro socket hm rfl
  exact hn (h.socket socket hm).1

/-- The admission of a waiting connection goes on, without an answer yet or with a refusal. -/
theorem Valid.advance (h : s.Valid) (hw : s.Waiting conn)
    {admission : Admission Conn Room} (hg : ∀ room since, admission ≠ .granted room since)
    (hasked : ∀ home questions, admission = .dropping home questions →
      ∀ question ∈ questions, ∀ held ∈ question.conns, s.Settled held ∧
        (∀ socket ∈ s.sockets, socket.conn = held → socket.room = question.room) ∧
        ∀ live, question.answer = .fulfilled live → held ∉ live → s.Shut held) :
    (s.advance conn admission).Valid := by
  have hl : s.Later (s.advance conn admission) := .of_admission rfl rfl rfl hw.not_over
    fun hs => absurd hs hw.not_settled
  have hother : ∀ other, other ≠ conn →
      (s.advance conn admission).admission other = s.admission other :=
    fun other hne => Function.update_of_ne hne ..
  have hself : (s.advance conn admission).admission conn = admission := Function.update_self ..
  refine ⟨h.bounded, fun other entry hm => ?_, fun other room since ha => ?_, fun socket hm => ?_,
    h.unique, fun other home questions ha => ?_, fun other hm => h.release_later hl hm⟩
  · obtain ⟨ha, hr⟩ := h.entry other entry hm
    refine ⟨?_, hr⟩
    rcases ha with ha | ha
    · refine .inl ?_
      rw [hother other (by rintro rfl; exact hw.not_granted ha)]
      exact ha
    · exact .inr (hl.ended other ha)
  · by_cases hne : other = conn
    · subst hne
      exact absurd (hself.symm.trans ha) (hg room since)
    · rw [hother other hne] at ha
      exact h.granted other room since ha
  · obtain ⟨ha, ho⟩ := h.socket socket hm
    refine ⟨?_, ho⟩
    rw [hother _ (fun he => hw.not_over (.inl (he ▸ ha)))]
    exact ha
  · by_cases hne : other = conn
    · subst hne
      intro question hq held hheld
      obtain ⟨hset, hrest⟩ := hasked home questions (hself.symm.trans ha) question hq held hheld
      exact ⟨hl.settled held hset, hrest⟩
    · rw [hother other hne] at ha
      exact h.asked_later hl ha

/-- Entries go whose connections are settled and have no open socket. -/
theorem Valid.shrink (h : s.Valid) {keep : Entries Conn Room}
    (hsub : keep ⊆ s.entries) (hlen : keep.length ≤ s.entries.length)
    (hgone : ∀ conn entry, (conn, entry) ∈ s.entries → (conn, entry) ∉ keep →
      s.Settled conn ∧ s.Shut conn) : Valid { s with entries := keep } := by
  refine ⟨Nat.le_trans hlen h.bounded, fun conn entry hm => h.entry conn entry (hsub hm),
    fun conn room since ha hnow => ?_, fun socket hm => ?_, h.unique, h.asked, h.release⟩
  · by_contra hk
    rcases (hgone _ _ (h.granted conn room since ha hnow) hk).1 with hs | hs | ⟨r, t, hs, hle⟩
    · cases ha.symm.trans hs
    · cases ha.symm.trans hs
    · obtain ⟨-, rfl⟩ := Admission.granted.inj (ha.symm.trans hs)
      exact absurd hle (Nat.not_le.mpr hnow)
  · obtain ⟨ha, ho⟩ := h.socket socket hm
    refine ⟨ha, fun hopen => ?_⟩
    obtain ⟨entry, he⟩ := ho hopen
    refine ⟨entry, ?_⟩
    by_contra hk
    rw [(hgone _ _ he hk).2 socket hm rfl] at hopen
    cases hopen

/-- The count at the end of `acquire`. -/
theorem Valid.count (h : s.Valid) (hw : s.Waiting conn)
    (room : Room) : (s.count conn room).Valid := by
  rw [UserRelay.count]
  split
  · exact h.advance hw (by simp) (by simp)
  next hfull =>
  have hfree : ∀ held ∈ s.entries, held.1 ≠ conn := by
    rintro ⟨other, entry⟩ hm rfl
    rcases (h.entry _ entry hm).1 with ha | ha
    · exact hw.not_granted ha
    · exact hw.not_over ha
  have hsocket := h.no_socket fun ha => hw.not_over (.inl ha)
  have hother : ∀ other, other ≠ conn →
      Function.update s.admission conn (.granted room s.now) other = s.admission other :=
    fun other hne => Function.update_of_ne hne ..
  have hself : Function.update s.admission conn (.granted room s.now) conn =
      .granted room s.now := Function.update_self ..
  have hl : s.Later { s.advance conn (.granted room s.now) with
      entries := UserQuota.put s.entries conn ⟨room, s.now⟩ } :=
    .of_admission rfl rfl rfl hw.not_over fun hs => absurd hs hw.not_settled
  refine ⟨?_, fun other entry hm => ?_, fun other r since ha hnow => ?_, fun socket hm => ?_,
    h.unique, fun other home questions ha => ?_, fun other hm => h.release_later hl hm⟩
  · have hroom : s.entries.length < maxClientsPerUser := by simpa [UserQuota.full] using hfull
    exact Nat.le_trans (UserQuota.length_put ..) hroom
  · rcases UserQuota.mem_put.mp hm with ⟨hm, hne⟩ | he
    · obtain ⟨ha, hr⟩ := h.entry other entry hm
      refine ⟨ha.imp (fun ha => ?_) (hl.ended other), hr⟩
      exact (hother other hne).trans ha
    · obtain ⟨rfl, rfl⟩ := Prod.mk.inj he
      exact ⟨.inl (Function.update_self ..), fun socket hm hc => absurd hc (hsocket socket hm)⟩
  · by_cases hne : other = conn
    · subst hne
      obtain ⟨rfl, rfl⟩ := Admission.granted.inj (hself.symm.trans ha)
      exact UserQuota.mem_put.mpr (.inr rfl)
    · have ha := (hother other hne).symm.trans ha
      exact UserQuota.mem_put.mpr (.inl ⟨h.granted other r since ha hnow, hne⟩)
  · obtain ⟨ha, ho⟩ := h.socket socket hm
    refine ⟨(hother _ (hsocket socket hm)).trans ha, fun hopen => ?_⟩
    obtain ⟨entry, he⟩ := ho hopen
    exact ⟨entry, UserQuota.mem_put.mpr (.inl ⟨he, hfree _ he⟩)⟩
  · by_cases hne : other = conn
    · subst hne
      cases hself.symm.trans ha
    · exact h.asked_later hl ((hother other hne).symm.trans ha)

theorem Valid.accept (h : s.Valid) (ha : s.admission conn = .granted room since) (hnow : s.now < since + quotaGraceMs)
    (hl : s.Later { s.advance conn .accepted with sockets := s.sockets ++ [⟨conn, room, true⟩] }) :
    Valid { s.advance conn .accepted with sockets := s.sockets ++ [⟨conn, room, true⟩] } := by
  have hsocket := h.no_socket (by rw [ha]; exact nofun)
  have hother : ∀ other, other ≠ conn → Function.update s.admission conn .accepted other =
      s.admission other := fun other hne => Function.update_of_ne hne ..
  have hself : Function.update s.admission conn .accepted conn = .accepted :=
    Function.update_self ..
  have hheld := h.granted conn room since ha hnow
  refine ⟨h.bounded, fun other entry hm => ?_, fun other r t hg hn => ?_, fun socket hm => ?_, ?_,
    fun other home questions hd => ?_, fun other hm => h.release_later hl hm⟩
  · obtain ⟨he, hr⟩ := h.entry other entry hm
    refine ⟨?_, fun socket hm' hc => ?_⟩
    · by_cases hne : other = conn
      · exact .inr (.inl (hne ▸ hself))
      · exact he.imp (hother other hne).trans (hl.ended other)
    · rcases mem_append.mp hm' with hm' | hm'
      · exact hr socket hm' hc
      · obtain rfl := mem_singleton.mp hm'
        obtain rfl : conn = other := hc
        rcases he with he | ho | ho
        · exact (Admission.granted.inj (ha.symm.trans he)).1
        · cases ha.symm.trans ho
        · cases ha.symm.trans ho
  · by_cases hne : other = conn
    · subst hne
      cases hself.symm.trans hg
    · exact h.granted other r t ((hother other hne).symm.trans hg) hn
  · rcases mem_append.mp hm with hm | hm
    · obtain ⟨hacc, ho⟩ := h.socket socket hm
      exact ⟨(hother _ (hsocket socket hm)).trans hacc, ho⟩
    · obtain rfl := mem_singleton.mp hm
      exact ⟨hself, fun _ => ⟨_, hheld⟩⟩
  · change ((s.sockets ++ [_]).map _).Nodup
    rw [map_append, map_singleton]
    refine nodup_append.mpr ⟨h.unique, nodup_singleton _, ?_⟩
    rintro other hm _ hlast
    obtain ⟨socket, hsm, rfl⟩ := mem_map.mp hm
    rw [mem_singleton.mp hlast]
    exact hsocket socket hsm
  · by_cases hne : other = conn
    · subst hne
      cases hself.symm.trans hd
    · exact h.asked_later hl ((hother other hne).symm.trans hd)

/-- The room gives back the place of a connection that it has not accepted. -/
theorem Valid.abandon (h : s.Valid) (ha : s.admission conn = .granted room since)
    (hl : s.Later { s.advance conn .refused with releases := s.releases ++ [conn] }) :
    Valid { s.advance conn .refused with releases := s.releases ++ [conn] } := by
  have hsocket := h.no_socket (by rw [ha]; exact nofun)
  have hother : ∀ other, other ≠ conn → Function.update s.admission conn .refused other =
      s.admission other := fun other hne => Function.update_of_ne hne ..
  have hself : Function.update s.admission conn .refused conn = .refused :=
    Function.update_self ..
  refine ⟨h.bounded, fun other entry hm => ?_, fun other r t hg hn => ?_, fun socket hm => ?_,
    h.unique, fun other home questions hd => ?_, fun other hm => ?_⟩
  · obtain ⟨he, hr⟩ := h.entry other entry hm
    refine ⟨?_, hr⟩
    by_cases hne : other = conn
    · exact .inr (.inr (hne ▸ hself))
    · exact he.imp (hother other hne).trans (hl.ended other)
  · by_cases hne : other = conn
    · subst hne
      cases hself.symm.trans hg
    · exact h.granted other r t ((hother other hne).symm.trans hg) hn
  · obtain ⟨hacc, ho⟩ := h.socket socket hm
    exact ⟨(hother _ (hsocket socket hm)).trans hacc, ho⟩
  · by_cases hne : other = conn
    · subst hne
      cases hself.symm.trans hd
    · exact h.asked_later hl ((hother other hne).symm.trans hd)
  · rcases mem_append.mp hm with hm | hm
    · exact h.release_later hl hm
    · obtain rfl := mem_singleton.mp hm
      exact ⟨.inr hself, fun socket hm hc => absurd hc (hsocket socket hm)⟩

/-- No room is asked yet, so nothing is known of its clients. -/
theorem Valid.questions (h : s.Valid) :
    ∀ question ∈ UserQuota.questions s.now s.entries, ∀ held ∈ question.conns, s.Settled held ∧
      (∀ socket ∈ s.sockets, socket.conn = held → socket.room = question.room) ∧
      ∀ live, question.answer = .fulfilled live → held ∉ live → s.Shut held := by
  intro question hq held hheld
  obtain ⟨hpending, hentries⟩ := UserQuota.mem_questions hq
  obtain ⟨entry, he, hroom, hold⟩ := hentries held hheld
  obtain ⟨ha, hr⟩ := h.entry held entry he
  refine ⟨?_, fun socket hm hc => (hr socket hm hc).trans hroom, fun live hl => ?_⟩
  · rcases ha with ha | ha
    · exact .inr (.inr ⟨_, _, ha, hold⟩)
    · exact ha.settled
  · cases hpending.symm.trans hl

/-- A room that is asked lists the connections that are open, so one it leaves out is not. -/
theorem shut_of_answer {held : Conn}
    (hr : ∀ socket ∈ s.sockets, socket.conn = held → socket.room = room)
    (hnot : held ∉ liveClients s.sockets room) : s.Shut held := by
  intro socket hm hc
  by_contra ho
  refine hnot (mem_map.mpr ⟨socket, mem_filter.mpr ⟨hm, ?_⟩, hc⟩)
  rw [decide_eq_true_eq]
  exact ⟨hr socket hm hc, by simpa using ho⟩

theorem Valid.perform {event : Event Conn Room} (h : s.Valid)
    (hs : s.perform event = some s') (ht : s.inTime event) : s'.Valid := by
  have hl := perform_later hs ht
  cases event with
  | tick ms =>
    cases hs
    exact ⟨h.bounded, h.entry, fun conn room since ha hn =>
        h.granted conn room since ha (Nat.lt_of_le_of_lt (Nat.le_add_right ..) hn),
      h.socket, h.unique, fun conn home questions ha => h.asked_later hl ha,
      fun conn hm => h.release_later hl hm⟩
  | acquire conn room =>
    rw [UserRelay.perform] at hs
    split at hs
    · next ha =>
      have hw : s.Waiting conn := by rw [Waiting, ha]; trivial
      split at hs <;> cases hs
      · refine h.advance hw (by simp) fun home questions hq => ?_
        obtain ⟨-, rfl⟩ := Admission.dropping.inj hq
        exact h.questions
      · exact h.count hw room
    · cases hs
  | answers conn room fulfilled =>
    rw [UserRelay.perform] at hs
    split at hs
    · next home questions ha =>
      cases hs
      refine h.advance (by rw [Waiting, ha]; trivial) (by simp) fun home' questions' hq => ?_
      obtain ⟨-, rfl⟩ := Admission.dropping.inj hq
      intro question hm held hheld
      obtain ⟨old, hold, rfl⟩ := mem_map.mp hm
      have hasked := h.asked conn home questions ha old hold
      split at hheld
      · next hc =>
        rw [if_pos hc]
        obtain ⟨hset, hr, -⟩ := hasked held hheld
        refine ⟨hset, hr, fun live hlive hnot => ?_⟩
        rw [hc.1] at hr
        cases fulfilled
        · cases hlive
        · obtain rfl := Answer.fulfilled.inj hlive
          exact shut_of_answer hr hnot
      · next hc =>
        rw [if_neg hc]
        exact hasked held hheld
    · cases hs
  | dropped conn =>
    rw [UserRelay.perform] at hs
    split at hs
    · next home questions ha =>
      split at hs <;> cases hs
      refine Valid.shrink (h.advance (by rw [Waiting, ha]; trivial) (by simp) (by simp))
        (filter_subset_self _) (length_filter_le ..) fun held entry hm hk => ?_
      have hclosed : held ∈ UserQuota.closed questions := by
        by_contra hn
        exact hk (UserQuota.mem_delete.mpr ⟨hm, hn⟩)
      obtain ⟨question, hq, hheld, live, hans, hnot⟩ := UserQuota.mem_closed hclosed
      obtain ⟨hset, -, hshut⟩ := h.asked conn home questions ha question hq held hheld
      exact ⟨hl.settled held hset, hshut live hans hnot⟩
    · cases hs
  | recounted conn =>
    rw [UserRelay.perform] at hs
    split at hs
    · next home ha =>
      cases hs
      exact h.count (by rw [Waiting, ha]; trivial) home
    · cases hs
  | accepted conn =>
    rw [UserRelay.perform] at hs
    split at hs
    · next room since ha =>
      cases hs
      exact h.accept ha (by simpa [inTime, ha] using ht) hl
    · cases hs
  | abandoned conn =>
    rw [UserRelay.perform] at hs
    split at hs
    · next room since ha =>
      cases hs
      exact h.abandon ha hl
    · cases hs
  | closes conn =>
    cases hs
    refine ⟨h.bounded, fun other entry hm => ?_, h.granted, fun socket hm => ?_, ?_,
      fun other home questions ha => h.asked_later hl ha, fun other hm => h.release_later hl hm⟩
    · obtain ⟨ha, hr⟩ := h.entry other entry hm
      refine ⟨ha, fun socket hm hc => ?_⟩
      obtain ⟨old, hold, rfl⟩ := mem_map.mp hm
      rw [ClientSocket.close_conn] at hc
      rw [ClientSocket.close_room]
      exact hr old hold hc
    · obtain ⟨old, hold, rfl⟩ := mem_map.mp hm
      obtain ⟨ha, ho⟩ := h.socket old hold
      rw [ClientSocket.close_conn]
      refine ⟨ha, fun hopen => ho ?_⟩
      by_contra hshut
      rw [ClientSocket.close_shut conn (Bool.not_eq_true _ ▸ hshut)] at hopen
      cases hopen
    · change ((s.sockets.map _).map _).Nodup
      rw [map_map, Function.comp_def]
      simp only [ClientSocket.close_conn]
      exact h.unique
  | handles conn =>
    rw [UserRelay.perform] at hs
    split at hs <;> cases hs
    next hany =>
    refine ⟨h.bounded, h.entry, h.granted, h.socket, h.unique,
      fun other home questions ha => h.asked_later hl ha, fun other hm => ?_⟩
    rcases mem_append.mp hm with hm | hm
    · exact h.release_later hl hm
    · obtain rfl := mem_singleton.mp hm
      obtain ⟨socket, hsm, hc⟩ := any_eq_true.mp hany
      rw [decide_eq_true_eq] at hc
      obtain ⟨rfl, hshut⟩ := hc
      refine ⟨.inl (h.socket socket hsm).1, fun again hm hc => ?_⟩
      -- ids are unique: it is the same socket
      rw [inj_on_of_nodup_map h.unique hm hsm hc]
      exact hshut
  | released conn =>
    rw [UserRelay.perform] at hs
    split at hs <;> cases hs
    next hr =>
    obtain ⟨ho, hshut⟩ := h.release conn hr
    have hkept := h.shrink (filter_subset_self _) (length_filter_le (·.1 ≠ conn) _)
      fun held entry hm hk => by
        have he : held = conn := by
          by_contra hne
          exact hk (UserQuota.mem_release.mpr ⟨hm, hne⟩)
        exact he ▸ ⟨ho.settled, hshut⟩
    exact ⟨hkept.bounded, hkept.entry, hkept.granted, hkept.socket, hkept.unique, hkept.asked,
      fun other hm => h.release_later hl (mem_of_mem_erase hm)⟩

/-- The events one after another, each in time. -/
def run (events : List (Event Conn Room)) : Option (UserRelay Conn Room) :=
  events.foldlM (fun s event => if s.inTime event then s.perform event else none) start

theorem reachable_of_run {events : List (Event Conn Room)} (h : run events = some s) :
    Reachable (system.restrict fun s event => s.inTime event) s := by
  have hr : Run (system.restrict fun s event => s.inTime event)
      [] (start : UserRelay Conn Room) := .init rfl
  refine ⟨_, hr.foldlM (fun s event s' hs => ?_) h⟩
  split at hs
  · next ht => exact ⟨ht, hs⟩
  · cases hs

theorem Reachable.valid
    (h : Reachable (system.restrict fun s event => s.inTime event) s) : s.Valid :=
  h.invariant (fun _ hi => hi ▸ valid_start) fun _ _ _ hv hs => hv.perform hs.2 hs.1

/-- The open sockets have different entries, so there are no more of them than entries. -/
theorem Valid.open_bounded (h : s.Valid) :
    (s.sockets.filter (·.isOpen)).length ≤ maxClientsPerUser := by
  have hnodup : ((s.sockets.filter (·.isOpen)).map (·.conn)).Nodup :=
    h.unique.sublist (filter_sublist.map _)
  have hsub : (s.sockets.filter (·.isOpen)).map (·.conn) ⊆ s.entries.map Prod.fst := by
    intro conn hm
    obtain ⟨socket, hsm, rfl⟩ := mem_map.mp hm
    obtain ⟨hsm, hopen⟩ := mem_filter.mp hsm
    obtain ⟨entry, he⟩ := (h.socket socket hsm).2 hopen
    exact mem_map.mpr ⟨_, he, rfl⟩
  calc (s.sockets.filter (·.isOpen)).length
      = ((s.sockets.filter (·.isOpen)).map (·.conn)).length := (length_map _).symm
    _ ≤ (s.entries.map Prod.fst).length := (List.Nodup.subperm hnodup hsub).length_le
    _ = s.entries.length := length_map _
    _ ≤ maxClientsPerUser := h.bounded

end UserRelay

open UserRelay in
/-- **The quota keeps its limit**: however the calls of the rooms, the recounts and the closes
interleave, if each room accepts a socket within the grace. -/
theorem UserQuota.limit_kept {s : UserRelay Conn Room}
    (h : Reachable (system.restrict fun s event ↦ s.inTime event) s) :
    s.entries.length ≤ maxClientsPerUser ∧
      (∀ socket ∈ s.sockets, socket.isOpen → ∃ entry, (socket.conn, entry) ∈ s.entries) ∧
      (s.sockets.filter (·.isOpen)).length ≤ maxClientsPerUser ∧
      (∀ conn, conn ∉ s.entries.map Prod.fst → release s.entries conn = s.entries) ∧
      ∀ conn, release (release s.entries conn) conn = release s.entries conn := by
  have hv := UserRelay.Reachable.valid h
  refine ⟨hv.bounded, fun socket hm ↦ (hv.socket socket hm).2, hv.open_bounded,
    fun conn hn ↦ release_absent fun held hm hc ↦ ?_, fun conn ↦ release_release _ conn⟩
  exact hn (mem_map.mpr ⟨held, hm, hc⟩)

/-- Eight connections of two rooms fill the quota, the first closes and nobody reports it, and the
ninth gets its place after a recount. -/
def ninthAdmitted : List (Event ℕ Bool) :=
  (List.range 8).flatMap (fun conn => [.acquire conn (conn % 2 == 0), .accepted conn]) ++
    [.closes 0, .tick 20000, .acquire 8 true, .answers 8 false false, .answers 8 true true,
      .dropped 8, .recounted 8, .accepted 8]

theorem UserQuota.limit_kept_ninth :
    let s := (UserRelay.run ninthAdmitted).get (by decide +kernel)
    (s.sockets.filter (·.isOpen)).map (·.conn) = [1, 2, 3, 4, 5, 6, 7, 8] ∧
      s.entries.length ≤ maxClientsPerUser ∧
      ∀ socket ∈ s.sockets, socket.isOpen → ∃ entry, (socket.conn, entry) ∈ s.entries := by
  have hlimit := limit_kept (UserRelay.reachable_of_run
    (Option.some_get (x := UserRelay.run ninthAdmitted) (by decide +kernel)).symm)
  exact ⟨by decide +kernel, hlimit.1, hlimit.2.1⟩

end NiumaTerm.Relay
