import Mathlib.Data.List.Induction

/-!
# A host's room on the relay

`acceptControl` closes the host's control sockets and accepts the new one.  A closed socket stays listed
until its peer has answered the close, and `acceptClient` announces a client on the first of the list.
`HostRoom.announces_live`: all announcements go to the live socket if and only if no closed one is listed
when they are sent.
-/

namespace NiumaTerm

open List
namespace Relay

variable {Conn : Type}

/-- `isOpen` is `readyState === OPEN`; `connection` counts the control sockets of the room. -/
structure ControlSocket where
  connection : ℕ
  isOpen : Bool
  deriving DecidableEq

/-- A `conn` message: the socket it was sent on, and the one on which the host was live. -/
structure Announcement (Conn : Type) where
  conn : Conn
  control : ℕ
  live : Option ℕ
  deriving DecidableEq

/-- `controls` is `getWebSockets("control")`, oldest first.  `live` is not the room's own: it is the
control socket accepted last, unless that has been closed. -/
structure HostRoom (Conn : Type) where
  controls : List ControlSocket
  connections : ℕ
  live : Option ℕ
  /-- The clients for which the quota has not answered. -/
  acquiring : List Conn
  /-- The client sockets the room has accepted. -/
  clients : List Conn
  announced : List (Announcement Conn)

namespace HostRoom

inductive Event (Conn : Type)
  | acceptControl
  /-- The host closes a control socket. -/
  | closes (connection : ℕ)
  /-- The close handshake of a control socket ends. -/
  | finishes (connection : ℕ)
  /-- `acceptClient` until it waits for the quota. -/
  | acceptClient (conn : Conn) (owned : Bool)
  /-- `acceptClient` after the quota's answer. -/
  | acquired (conn : Conn) (granted : Bool)

def start : HostRoom Conn where
  controls := []
  connections := 0
  live := none
  acquiring := []
  clients := []
  announced := []

/-- Only the control socket accepted last can be open, and it is where the host is live. -/
structure Valid (s : HostRoom Conn) : Prop where
  older : s.controls.Pairwise fun a b => a.connection < b.connection
  counted : ∀ control ∈ s.controls, control.connection < s.connections
  newest : ∀ connection, s.live = some connection → connection + 1 = s.connections
  live : ∀ connection, s.live = some connection ↔ ⟨connection, true⟩ ∈ s.controls
  told : s.announced.map (·.conn) = s.clients

theorem valid_start : Valid (start : HostRoom Conn) where
  older := .nil
  counted := by simp [start]
  newest := by simp [start]
  live := by simp [start]
  told := rfl

/-- **One announcement**: the oldest control socket is the live one if and only if none of the
listed is closing. -/
theorem Valid.oldest_live {s : HostRoom Conn} (h : s.Valid) {control : ControlSocket}
    (hc : s.controls[0]? = some control) :
    s.live = some control.connection ↔ ∀ other ∈ s.controls, other.isOpen := by
  obtain ⟨rest, hl⟩ : ∃ rest, s.controls = control :: rest := by
    cases hl : s.controls with
    | nil => simp [hl] at hc
    | cons first rest =>
      rw [hl] at hc
      exact ⟨rest, by rw [Option.some.inj hc]⟩
  have hm : control ∈ s.controls := hl ▸ mem_cons_self
  constructor
  · intro hlive other hother
    -- the live one is the newest, so nothing comes after it
    have hrest : rest = [] := by
      rw [eq_nil_iff_forall_not_mem]
      intro later hlater
      have holder := h.older
      rw [hl, pairwise_cons] at holder
      have hlt := holder.1 later hlater
      have hcount := h.counted later (hl ▸ mem_cons_of_mem _ hlater)
      have := h.newest _ hlive
      omega
    have hopen := (h.live _).mp hlive
    rw [hl, hrest, mem_singleton] at hopen hother
    rw [hother, ← hopen]
  · intro hall
    refine (h.live _).mpr ?_
    rw [show (⟨control.connection, true⟩ : ControlSocket) = control by rw [← hall control hm]]
    exact hm

section

variable [DecidableEq Conn]

def perform (s : HostRoom Conn) : Event Conn → Option (HostRoom Conn)
  | .acceptControl => some { s with
      controls := s.controls.map (fun old => { old with isOpen := false }) ++
        [⟨s.connections, true⟩]
      connections := s.connections + 1
      live := some s.connections }
  | .closes connection => some { s with
      controls := s.controls.map fun control =>
        if control.connection = connection then { control with isOpen := false } else control
      live := if s.live = some connection then none else s.live }
  | .finishes connection => some { s with
      controls := s.controls.filter (· ≠ ⟨connection, false⟩) }
  | .acceptClient conn owned =>
    -- otherwise the client is refused: host offline
    if !owned || s.controls.isEmpty then some s
    else some { s with acquiring := s.acquiring ++ [conn] }
  | .acquired conn granted =>
    if conn ∈ s.acquiring then
      let s' := { s with acquiring := s.acquiring.erase conn }
      if granted then
        match s.controls[0]? with
        -- the place is given back, and the client refused
        | none => some s'
        | some control => some { s' with
            clients := s.clients ++ [conn]
            announced := s.announced ++ [⟨conn, control.connection, s.live⟩] }
      else some s'
    else none

/-- The events one after another, from an empty room. -/
def run (events : List (Event Conn)) : Option (HostRoom Conn) := events.foldlM perform start

theorem run_concat (events : List (Event Conn)) (event : Event Conn) :
    run (events ++ [event]) = (run events).bind (perform · event) := by
  rw [run, foldlM_append, ← run]
  cases run events <;> simp

theorem Valid.perform {s s' : HostRoom Conn} {event : Event Conn} (h : s.Valid)
    (hs : s.perform event = some s') : s'.Valid := by
  cases event with
  | acceptControl =>
    cases hs
    refine ⟨?_, fun control hm => ?_, fun connection hc => ?_, fun connection => ?_, h.told⟩
    · refine pairwise_append.mpr ⟨pairwise_map.mpr h.older, pairwise_singleton .., ?_⟩
      intro old hm new hnew
      obtain ⟨control, hcontrol, rfl⟩ := mem_map.mp hm
      rw [mem_singleton.mp hnew]
      exact h.counted control hcontrol
    · rcases mem_append.mp hm with hm | hm
      · obtain ⟨old, hold, rfl⟩ := mem_map.mp hm
        exact Nat.lt_succ_of_lt (h.counted old hold)
      · rw [mem_singleton.mp hm]
        exact Nat.lt_succ_self _
    · rw [← Option.some.inj hc]
    · simp only [mem_append, mem_map, mem_singleton, ControlSocket.mk.injEq,
        Option.some.injEq, Bool.false_eq_true, and_false, and_true, exists_false, false_or, eq_comm]
  | closes connection =>
    cases hs
    refine ⟨?_, fun control hm => ?_, fun other hc => ?_, fun other => ?_, h.told⟩
    · refine pairwise_map.mpr (h.older.imp fun hlt => ?_)
      split <;> split <;> exact hlt
    · obtain ⟨old, hold, rfl⟩ := mem_map.mp hm
      have := h.counted old hold
      split <;> exact this
    · dsimp only at hc
      split at hc
      · cases hc
      · exact h.newest other hc
    · constructor
      · intro hc
        dsimp only at hc
        split at hc
        · cases hc
        next hne =>
        refine mem_map.mpr ⟨_, (h.live other).mp hc, if_neg ?_⟩
        rintro rfl
        exact hne hc
      · intro hm
        obtain ⟨old, hm, he⟩ := mem_map.mp hm
        split at he
        · cases he
        next hne =>
        subst he
        have hlive := (h.live other).mpr hm
        dsimp only
        rw [if_neg (by rw [hlive]; exact fun he => hne (Option.some.inj he)), hlive]
  | finishes connection =>
    cases hs
    refine ⟨h.older.filter _, fun control hm => h.counted control (mem_filter.mp hm).1,
      h.newest, fun other => (h.live other).trans ?_, h.told⟩
    simp
  | acceptClient conn owned =>
    rw [HostRoom.perform] at hs
    split at hs <;> cases hs
    · exact h
    · exact ⟨h.older, h.counted, h.newest, h.live, h.told⟩
  | acquired conn granted =>
    rw [HostRoom.perform] at hs
    split at hs
    · dsimp only at hs
      split at hs
      · split at hs <;> cases hs
        · exact ⟨h.older, h.counted, h.newest, h.live, h.told⟩
        · refine ⟨h.older, h.counted, h.newest, h.live, ?_⟩
          rw [map_append, h.told, map_singleton]
      · cases hs
        exact ⟨h.older, h.counted, h.newest, h.live, h.told⟩
    · cases hs

theorem run_valid {events : List (Event Conn)} {s : HostRoom Conn} (h : run events = some s) :
    s.Valid := by
  induction events using reverseRecOn generalizing s with
  | nil =>
    cases h
    exact valid_start
  | append_singleton before event ih =>
    rw [run_concat] at h
    obtain ⟨s', hr, hs⟩ := Option.bind_eq_some_iff.mp h
    exact (ih hr).perform hs

/-- What is announced in one step. -/
theorem perform_announced {s s' : HostRoom Conn} {event : Event Conn}
    (h : s.perform event = some s') : s'.announced = s.announced ∧
        ((∃ conn, event = .acquired conn true) → s.controls = []) ∨
      ∃ conn control, event = .acquired conn true ∧ s.controls[0]? = some control ∧
        s'.announced = s.announced ++ [⟨conn, control.connection, s.live⟩] := by
  cases event with
  | acceptControl | closes | finishes =>
    cases h
    exact .inl ⟨rfl, by simp⟩
  | acceptClient conn owned =>
    rw [perform] at h
    split at h <;> cases h <;> exact .inl ⟨rfl, by simp⟩
  | acquired conn granted =>
    rw [perform] at h
    split at h
    · dsimp only at h
      split at h
      · next hg =>
        subst hg
        split at h
        · next hn =>
          cases h
          refine .inl ⟨rfl, fun _ => ?_⟩
          cases hl : s.controls with
          | nil => rfl
          | cons => simp [hl] at hn
        · next control hc =>
          cases h
          exact .inr ⟨conn, control, rfl, hc, rfl⟩
      · next hg =>
        cases h
        exact .inl ⟨rfl, by simp [hg]⟩
    · cases h

/-- The announcements of a run go to the live control socket if and only if, whenever the quota says
yes, no control socket that is listed is closing. -/
theorem announced_live {events : List (Event Conn)} {s : HostRoom Conn} (h : run events = some s) :
    (∀ sent ∈ s.announced, sent.live = some sent.control) ↔
      ∀ before conn after s', events = before ++ .acquired conn true :: after →
        run before = some s' → ∀ control ∈ s'.controls, control.isOpen := by
  induction events using reverseRecOn generalizing s with
  | nil =>
    cases h
    simp [start]
  | append_singleton earlier event ih =>
    rw [run_concat] at h
    obtain ⟨s₁, hr, hs⟩ := Option.bind_eq_some_iff.mp h
    -- the condition on the run is the one on its start and, for a client, on the last step
    have hlast : (∀ before conn after s', earlier ++ [event] =
          before ++ .acquired conn true :: after → run before = some s' →
          ∀ control ∈ s'.controls, control.isOpen) ↔
        (∀ sent ∈ s₁.announced, sent.live = some sent.control) ∧
          ((∃ conn, event = .acquired conn true) → ∀ control ∈ s₁.controls, control.isOpen) := by
      rw [ih hr]
      constructor
      · intro hall
        refine ⟨fun before conn after s' he => hall before conn (after ++ [event]) s' ?_, ?_⟩
        · rw [he, append_assoc, cons_append]
        · rintro ⟨conn, rfl⟩
          exact hall earlier conn [] s₁ rfl hr
      · rintro ⟨hall, hnow⟩ before conn after s' he hb
        rcases eq_nil_or_concat after with rfl | ⟨after, last, rfl⟩
        · obtain ⟨rfl, hevent⟩ := append_inj' he rfl
          cases hr.symm.trans hb
          exact hnow ⟨conn, singleton_inj.mp hevent⟩
        · rw [concat_eq_append, ← cons_append, ← append_assoc] at he
          exact hall before conn after s' (append_inj' he rfl).1 hb
    rw [hlast]
    rcases perform_announced hs with ⟨ha, hnone⟩ | ⟨conn, control, rfl, hc, ha⟩
    · rw [ha, iff_self_and]
      intro _ hclient control hm
      rw [hnone hclient] at hm
      cases hm
    · rw [ha, forall_mem_append, forall_mem_singleton, (run_valid hr).oldest_live hc]
      exact and_congr_right fun _ => ⟨fun hall _ => hall, fun hall => hall ⟨conn, rfl⟩⟩

/-- **Announcements**: each client of a run is announced, and on the control socket on which the
host is live, if and only if every control socket that is listed when the quota says yes is open. -/
theorem announces_live {events : List (Event Conn)} {s : HostRoom Conn}
    (h : run events = some s) :
    (s.announced.map (·.conn) = s.clients ∧ ∀ sent ∈ s.announced, sent.live = some sent.control) ↔
      ∀ before conn after s', events = before ++ .acquired conn true :: after →
        run before = some s' → ∀ control ∈ s'.controls, control.isOpen :=
  (and_iff_right (run_valid h).told).trans (announced_live h)

/-- The host's first control socket is gone before the client comes. -/
theorem announces_live_reconnected :
    let events : List (Event ℕ) := [.acceptControl, .closes 0, .finishes 0, .acceptControl,
      .acceptClient 7 true, .acquired 7 true]
    ∀ before conn after s', events = before ++ .acquired conn true :: after →
      run before = some s' → ∀ control ∈ s'.controls, control.isOpen :=
  (announces_live (s := (run _).get (by decide)) (Option.some_get _).symm).mp (by decide)

/-- The host has reconnected, and the close of its first control socket is not answered yet. -/
theorem announced_on_replaced : ¬ ∀ (events : List (Event ℕ)) (s : HostRoom ℕ),
    run events = some s → ∀ sent ∈ s.announced, sent.live = some sent.control := by
  intro h
  have := h [.acceptControl, .acceptControl, .acceptClient 7 true, .acquired 7 true] _ rfl
    ⟨7, 0, some 1⟩ (by decide)
  cases this

end

end HostRoom

end Relay
end NiumaTerm
