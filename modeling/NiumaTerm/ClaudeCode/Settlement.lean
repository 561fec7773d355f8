import NiumaTerm.ClaudeCode.Prompts
import NiumaTerm.ClaudeCode.Settling

/-!
# Every request is settled once

`Session.SettlesOnce`: a request that is owed an event got one, or is open and got none.  A poll loses
those behind a request that closes the session, and every answer that names the handshake is reported;
`requests_settled_once` is what holds elsewhere.  `Session.Tally` is the invariant.
-/

namespace NiumaTerm.ClaudeCode

open Rust Transition List

variable {Choice Form : Type}

/-! ## The property -/

/-- The requests sent so far, the handshake first. -/
def requests (moves : List Move) : List (Str × PendingControlOperation) :=
  (initRequestId, .init) :: moves.flatMap (·.opened)

def notices (moves : List Move) : List Notice := moves.flatMap (·.notices)

/-- How often an end of the request was reported. -/
def ends (moves : List Move) (s : Session Choice Form) (id : Str) : ℕ :=
  reports (notices moves) id + s.control.effort.applied.count id

/-- The request is waiting for its end. -/
def Session.Open (s : Session Choice Form) (id : Str) (operation : PendingControlOperation) : Prop :=
  s.control.desk.Awaits id operation

structure Session.SettlesOnce (moves : List Move) (s : Session Choice Form) : Prop where
  distinct : ((requests moves).map (·.1)).Nodup
  completion : ∀ id operation, (id, operation) ∈ requests moves → operation.completes = true →
    (s.Open id operation ∧ reports (notices moves) id = 0) ∨
    (¬ s.Open id operation ∧ reports (notices moves) id = 1)
  /-- Applied, or reported as rejected or uncertain. -/
  effort : ∀ id, (id, .effort) ∈ requests moves →
    (s.Open id .effort ∧ ends moves s id = 0) ∨ (¬ s.Open id .effort ∧ ends moves s id = 1)
  once : ∀ id, ends moves s id ≤ 1
  question : ∀ id question, (id, .sideQuestion question) ∈ requests moves → question = id
  closed : s.control.closed = true → ∀ id operation, ¬ s.Open id operation

/-- The events of a call report on requests that were open before it, and an answer that names none of
these has no event. -/
def Session.ReportsOpen (moves : List Move) (s : Session Choice Form) (move : Move) : Prop :=
  (∀ notice ∈ move.notices, ∀ id ∈ notice.about, ∃ operation, (id, operation) ∈ requests moves ∧
    s.Open id operation ∧ Reports operation notice.event) ∧
  ∀ message id, move.call.line = some message → (message.get "type").isText "control_response" = true →
    ((message.get "response").get "request_id").asStr = some id → s.control.pending.lookup id = none →
      move.notices = []

/-! ## The tally -/

namespace Session

variable {s s' : Session Choice Form}

/-- `opened` and `told` are the requests and the notices so far. -/
structure Tally (opened : List (Str × PendingControlOperation)) (told : List Notice)
    (s : Session Choice Form) : Prop where
  sound : s.Sound
  held : ∀ x ∈ s.control.desk.table, (x.id, x.operation) ∈ opened
  changes : ∀ id ∈ ids s.control.desk.changes, (id, .effort) ∈ opened
  applied : ∀ id ∈ s.control.effort.applied, (id, .effort) ∈ opened
  distinct : (opened.map (·.1)).Nodup
  given : ∀ id ∈ opened.map (·.1), id = initRequestId ∨ ∃ k < s.control.nextId, id = requestId k
  question : ∀ id question, (id, .sideQuestion question) ∈ opened → question = id
  once : ∀ id, reports told id + s.control.effort.applied.count id + s.control.desk.load id ≤ 1
  unopened : ∀ id ∉ opened.map (·.1),
    reports told id + s.control.effort.applied.count id + s.control.desk.load id = 0
  owed : ∀ id operation, (id, operation) ∈ opened → operation.owed = true →
    reports told id + s.control.effort.applied.count id + s.control.desk.load id = 1

variable {opened : List (Str × PendingControlOperation)} {told notices : List Notice}

theorem SettledFrom.sound (h : s.Settled notices s') (hs : s.Sound) : s'.Sound := by
  obtain ⟨applied, -, hd⟩ := h.desk
  have hmem : ∀ x ∈ s'.control.desk.table, x ∈ s.control.desk.table := hd.table
  refine ⟨hd.wf, h.numbered hs.numbered, fun x hx => hs.fits x (hmem x hx), fun x hx => hs.init x (hmem x hx),
    fun hi => ?_, fun x hx hc => ?_, fun x hx => hs.question x (hmem x hx), fun hc => ?_⟩
  · obtain ⟨x, hx, hid⟩ := mem_map.mp hi
    rcases h.ready with hr | ⟨-, hn⟩ | hn
    · rw [hr]
      exact hs.waiting (mem_map.mpr ⟨x, hmem x hx, hid⟩)
    · exact absurd hi hn
    · rw [hn] at hx
      cases hx
  · rcases h.ready with hr | ⟨hr, -⟩ | hn
    · rw [hr]
      exact hs.ready x (hmem x hx) hc
    · exact hr
    · rw [hn] at hx
      cases hx
  · rcases h.closed with hcl | hcl
    · rw [hcl] at hc
      have hempty := hs.closed hc
      have ht : s'.control.desk.table = [] := by
        rw [eq_nil_iff_forall_not_mem]
        intro x hx
        have := hmem x hx
        rw [hempty] at this
        cases this
      have hch : s'.control.desk.changes = [] := by
        rw [eq_nil_iff_forall_not_mem]
        intro y hy
        have := hd.changes y.id (mem_map_of_mem hy)
        rw [hempty] at this
        cases this
      rw [← ht, ← hch]
    · exact hcl

theorem Tally.settled (h : s.Tally opened told) (hs : s.Settled notices s') :
    s'.Tally opened (told ++ notices) := by
  obtain ⟨applied, happ, hd⟩ := hs.desk
  have hsum : ∀ id, reports (told ++ notices) id + s'.control.effort.applied.count id =
      reports told id + s.control.effort.applied.count id + (reports notices id + applied.count id) := by
    intro id
    rw [happ, reports_append, count_append]
    omega
  refine ⟨hs.sound h.sound, fun x hx => h.held x (hd.table x hx), fun id hi => h.changes id (hd.changes id hi),
    fun id hi => ?_, h.distinct, by rw [hs.nextId]; exact h.given, h.question, fun id => ?_, fun id hi => ?_,
    fun id operation ho hw => ?_⟩
  · rw [happ] at hi
    rcases mem_append.mp hi with hi | hi
    · exact h.applied id hi
    · obtain ⟨y, hy, -, rfl⟩ := Desk.mem_live.mp (hd.confirms id hi)
      exact h.changes y.id (mem_map_of_mem hy)
  · have := h.once id
    have := hd.fewer id
    rw [hsum]
    omega
  · have := h.unopened id hi
    have := hd.fewer id
    rw [hsum]
    omega
  · have hsilent : id ∉ s.control.desk.silent := by
      intro hi
      obtain ⟨x, hx, hxo, rfl⟩ := Desk.mem_silent.mp hi
      have := inj_on_of_nodup_map h.distinct (h.held x hx) ho rfl
      rw [Prod.mk.injEq] at this
      rw [this.2, hw] at hxo
      cases hxo
    have := h.owed id operation ho hw
    have := hd.whole id hsilent
    rw [hsum]
    omega

variable {added : List ExpiredControl} {changes : List Change}

/-- What is added counts once for each new request. -/
theorem count_opening {n n' : ℕ} {ready : Bool} (h : Opening n n' ready added changes) (id : Str) :
    (plain added).count id + (live changes).count id = (keys added).count id := by
  have hlive : live changes = keys (added.filter fun x => x.operation = .effort) := by
    rw [← h.effort, live, filter_eq_self.mpr]
    intro y hy
    rw [Change.live, h.unanswered y hy]
  have hsplit := (filter_append_perm (fun x : ExpiredControl => x.operation = .effort) added).map (·.id)
  have hcount := hsplit.count_eq id
  rw [map_append, count_append] at hcount
  rw [hlive]
  simp only [keys, plain, ne_eq, decide_not] at hcount ⊢
  omega

theorem load_append (d : Desk) (added : List ExpiredControl) (changes : List Change) (id : Str) :
    Desk.load { table := d.table ++ added, changes := d.changes ++ changes } id =
      d.load id + ((plain added).count id + (live changes).count id) := by
  rw [Desk.load, Desk.load, live_append, plain, filter_append, keys, map_append, count_append,
    count_append, plain, keys, plain, keys]
  omega

theorem Opens.sound (h : s.Opens s') (hs : s.Sound) : s'.Sound := by
  obtain ⟨added, changes, hdesk, ho, hclosed, -, hc, hr⟩ := h
  have hfresh : ∀ x ∈ added, x.id ∉ keys s.control.desk.table ∧ x.id ∉ ids s.control.desk.changes ∧
      x.id ≠ initRequestId := by
    intro x hx
    obtain ⟨k, hk, -, he⟩ := ho.ids x hx
    have hnot : ¬ (x.id = initRequestId ∨ ∃ j < s.control.nextId, x.id = requestId j) := by
      rintro (hi | ⟨j, hj, hi⟩)
      · exact requestId_ne_init k (he ▸ hi)
      · rw [he] at hi
        rw [requestId_injective hi] at hk
        omega
    exact ⟨fun hi => hnot (hs.numbered _ (.inl hi)), fun hi => hnot (hs.numbered _ (.inr hi)),
      fun hi => hnot (.inl hi)⟩
  have hchange : ∀ y ∈ changes, ∃ x ∈ added, x.id = y.id ∧ x.operation = .effort := by
    intro y hy
    have hi : y.id ∈ ids changes := mem_map_of_mem hy
    rw [ho.effort] at hi
    obtain ⟨x, hx, hid⟩ := mem_map.mp hi
    obtain ⟨hx, hop⟩ := mem_filter.mp hx
    exact ⟨x, hx, hid, of_decide_eq_true hop⟩
  have hmem : ∀ x ∈ s'.control.desk.table, x ∈ s.control.desk.table ∨ x ∈ added := by
    intro x hx
    rw [hdesk] at hx
    exact mem_append.mp hx
  refine ⟨?_, ?_, fun x hx => (hmem x hx).elim (hs.fits x) (ho.fits x), fun x hx => ?_, fun hi => ?_, fun x hx hcomp => ?_,
    fun x hx => (hmem x hx).elim (hs.question x) (ho.question x), fun hcl => ?_⟩
  · rw [hdesk]
    constructor
    · rw [keys, map_append, nodup_append]
      refine ⟨hs.wf.keys, ho.nodup, fun a ha b hb hab => ?_⟩
      obtain ⟨x, hx, rfl⟩ := mem_map.mp hb
      exact (hfresh x hx).1 (hab ▸ ha)
    · rw [ids, map_append, nodup_append]
      refine ⟨hs.wf.ids, ?_, fun a ha b hb hab => ?_⟩
      · rw [← ids, ho.effort]
        exact ho.nodup.sublist (filter_sublist.map _)
      · obtain ⟨y, hy, rfl⟩ := mem_map.mp hb
        obtain ⟨x, hx, hid, -⟩ := hchange y hy
        exact (hfresh x hx).2.1 (hid ▸ hab ▸ ha)
    · intro x hx hop
      rcases mem_append.mp hx with hx | hx
      · obtain ⟨y, hy, hyx⟩ := hs.wf.effort x hx hop
        exact ⟨y, mem_append_left _ hy, hyx⟩
      · have hi : x.id ∈ keys (added.filter fun x => x.operation = .effort) :=
          mem_map_of_mem (mem_filter.mpr ⟨hx, decide_eq_true hop⟩)
        rw [← ho.effort] at hi
        obtain ⟨y, hy, hid⟩ := mem_map.mp hi
        exact ⟨y, mem_append_right _ hy, hid, ho.unanswered y hy⟩
    · intro y hy hn
      rcases mem_append.mp hy with hy | hy
      · obtain ⟨x, hx, hxy⟩ := hs.wf.unanswered y hy hn
        exact ⟨x, mem_append_left _ hx, hxy⟩
      · obtain ⟨x, hx, hxy⟩ := hchange y hy
        exact ⟨x, mem_append_right _ hx, hxy⟩
    · intro x hx y hy hxy
      rcases mem_append.mp hx with hx | hx <;> rcases mem_append.mp hy with hy | hy
      · exact hs.wf.only x hx y hy hxy
      · obtain ⟨z, hz, hid, -⟩ := hchange y hy
        refine absurd ?_ (hfresh z hz).1
        rw [hid, ← hxy]
        exact mem_map_of_mem hx
      · refine absurd ?_ (hfresh x hx).2.1
        rw [hxy]
        exact mem_map_of_mem hy
      · obtain ⟨z, hz, hid, hop⟩ := hchange y hy
        rwa [inj_on_of_nodup_map ho.nodup hx hz (hxy.trans hid.symm)]
  · have hold : ∀ id, (id = initRequestId ∨ ∃ k < s.control.nextId, id = requestId k) →
        id = initRequestId ∨ ∃ k < s'.control.nextId, id = requestId k := by
      rintro id (hi | ⟨k, hk, he⟩)
      · exact .inl hi
      · exact .inr ⟨k, hk.trans_le ho.mono, he⟩
    have hnew : ∀ x ∈ added, x.id = initRequestId ∨ ∃ k < s'.control.nextId, x.id = requestId k := by
      intro x hx
      obtain ⟨k, -, hk, he⟩ := ho.ids x hx
      exact .inr ⟨k, hk, he⟩
    intro id hi
    rw [hdesk] at hi
    rcases hi with hi | hi
    · rw [keys, map_append, mem_append] at hi
      rcases hi with hi | hi
      · exact hold id (hs.numbered id (.inl hi))
      · obtain ⟨x, hx, rfl⟩ := mem_map.mp hi
        exact hnew x hx
    · rw [ids, map_append, mem_append] at hi
      rcases hi with hi | hi
      · exact hold id (hs.numbered id (.inr hi))
      · obtain ⟨y, hy, rfl⟩ := mem_map.mp hi
        obtain ⟨x, hx, hid, -⟩ := hchange y hy
        exact hid ▸ hnew x hx
  · rcases hmem x hx with hx | hx
    · exact hs.init x hx
    · exact ⟨fun hop => absurd hop (ho.operation x hx), fun hid => absurd hid (hfresh x hx).2.2⟩
  · obtain ⟨x, hx, hid⟩ := mem_map.mp hi
    rw [hr]
    rcases hmem x hx with hx | hx
    · exact hs.waiting (hid ▸ mem_map_of_mem hx)
    · exact absurd hid (hfresh x hx).2.2
  · rw [hr]
    exact (hmem x hx).elim (fun hx => hs.ready x hx hcomp) fun hx => ho.ready x hx hcomp
  · rw [hc] at hcl
    have hnone := hclosed hcl
    have hch : changes = [] := by
      have := ho.effort
      rw [hnone] at this
      exact map_eq_nil_iff.mp this
    rw [hdesk, hs.closed hcl, hnone, hch]
    rfl

theorem Tally.opens (h : s.Tally opened told) (hdesk : s'.control.desk =
      { table := s.control.desk.table ++ added, changes := s.control.desk.changes ++ changes })
    (ho : Opening s.control.nextId s'.control.nextId s.ready added changes)
    (happ : s'.control.effort.applied = s.control.effort.applied) (hs : s'.Sound) :
    s'.Tally (opened ++ added.map fun x => (x.id, x.operation)) told := by
  have hids : (added.map fun x => (x.id, x.operation)).map (·.1) = keys added := by
    rw [map_map]
    rfl
  have hnew : ∀ x ∈ added, x.id ∉ opened.map (·.1) := by
    intro x hx hi
    obtain ⟨k, hk, -, he⟩ := ho.ids x hx
    obtain hi | ⟨j, hj, hi⟩ := h.given x.id hi
    · exact requestId_ne_init k (he ▸ hi)
    · rw [he] at hi
      rw [requestId_injective hi] at hk
      omega
  have hsum : ∀ id, reports told id + s'.control.effort.applied.count id + s'.control.desk.load id =
      reports told id + s.control.effort.applied.count id + s.control.desk.load id + (keys added).count id := by
    intro id
    rw [happ, hdesk, load_append, count_opening ho]
    omega
  have hone : ∀ x ∈ added, reports told x.id + s'.control.effort.applied.count x.id +
      s'.control.desk.load x.id = 1 := by
    intro x hx
    rw [hsum, h.unopened x.id (hnew x hx), count_eq_one_of_mem ho.nodup (mem_map_of_mem hx)]
  refine ⟨hs, fun x hx => ?_, fun id hi => ?_, ?_, ?_, fun id hi => ?_, fun id question hq => ?_, fun id => ?_,
    fun id hi => ?_, fun id operation hi hw => ?_⟩
  · rw [hdesk] at hx
    rcases mem_append.mp hx with hx | hx
    · exact mem_append_left _ (h.held x hx)
    · exact mem_append_right _ (mem_map.mpr ⟨x, hx, rfl⟩)
  · rw [hdesk, ids, map_append, mem_append] at hi
    rcases hi with hi | hi
    · exact mem_append_left _ (h.changes id hi)
    · rw [← ids, ho.effort] at hi
      obtain ⟨x, hx, rfl⟩ := mem_map.mp hi
      obtain ⟨hx, hop⟩ := mem_filter.mp hx
      exact mem_append_right _ (mem_map.mpr ⟨x, hx, by rw [of_decide_eq_true hop]⟩)
  · rw [happ]
    exact fun id hi => mem_append_left _ (h.applied id hi)
  · rw [map_append, hids, nodup_append]
    refine ⟨h.distinct, ho.nodup, fun a ha b hb hab => ?_⟩
    obtain ⟨x, hx, rfl⟩ := mem_map.mp hb
    exact hnew x hx (hab ▸ ha)
  · rw [map_append, hids, mem_append] at hi
    rcases hi with hi | hi
    · obtain hi | ⟨k, hk, he⟩ := h.given id hi
      · exact .inl hi
      · exact .inr ⟨k, hk.trans_le ho.mono, he⟩
    · obtain ⟨x, hx, rfl⟩ := mem_map.mp hi
      obtain ⟨k, -, hk, he⟩ := ho.ids x hx
      exact .inr ⟨k, hk, he⟩
  · rcases mem_append.mp hq with hq | hq
    · exact h.question id question hq
    · obtain ⟨x, hx, he⟩ := mem_map.mp hq
      rw [Prod.mk.injEq] at he
      rw [← he.1]
      exact ho.question x hx question he.2
  · by_cases hi : id ∈ keys added
    · obtain ⟨x, hx, rfl⟩ := mem_map.mp hi
      exact (hone x hx).le
    · rw [hsum, count_eq_zero.mpr hi]
      exact h.once id
  · rw [map_append, hids, mem_append, not_or] at hi
    rw [hsum, count_eq_zero.mpr hi.2, h.unopened id hi.1]
  · rcases mem_append.mp hi with hi | hi
    · have hnot : id ∉ keys added := by
        intro hk
        obtain ⟨x, hx, rfl⟩ := mem_map.mp hk
        exact hnew x hx (mem_map_of_mem hi)
      rw [hsum, count_eq_zero.mpr hnot]
      exact h.owed id operation hi hw
    · obtain ⟨x, hx, he⟩ := mem_map.mp hi
      rw [Prod.mk.injEq] at he
      rw [← he.1]
      exact hone x hx

/-- The requests that a call puts in the table are the ones that were not there before. -/
theorem opened_eq {s₁ : Session Choice Form} (h : s.Numbered) (hset : s.Settled notices s₁)
        (hdesk : s'.control.desk =
      { table := s₁.control.desk.table ++ added, changes := s₁.control.desk.changes ++ changes })
    (ho : Opening s₁.control.nextId s'.control.nextId s₁.ready added changes) :
    s.opened s' = added.map fun x => (x.id, x.operation) := by
  obtain ⟨applied, -, hd⟩ := hset.desk
  have htable : s.opened s' = (s'.control.desk.table.filter fun x => x.id ∉ keys s.control.desk.table).map
      fun x => (x.id, x.operation) := by
    rw [show s'.control.desk.table = s'.control.pending.map .ofEntry from rfl, filter_map, map_map,
      Session.opened]
    congr 1
    refine filter_congr fun entry _ => ?_
    simp only [Function.comp_apply, decide_eq_decide, s.control.mem_keys_desk]
    exact Iff.rfl
  have hold : s₁.control.desk.table.filter (fun x => x.id ∉ keys s.control.desk.table) = [] := by
    rw [filter_eq_nil_iff]
    intro x hx
    have hk : x.id ∈ keys s.control.desk.table := mem_map_of_mem (hd.table x hx)
    simpa using hk
  have hnew : added.filter (fun x => x.id ∉ keys s.control.desk.table) = added := by
    rw [filter_eq_self]
    intro x hx
    obtain ⟨k, hk, -, he⟩ := ho.ids x hx
    rw [hset.nextId] at hk
    rw [he]
    simpa using h.fresh hk
  rw [htable, hdesk, filter_append, hold, hnew, nil_append]

theorem Tally.books (h : s.Tally opened told) (hb : s.Books notices s') :
    s'.Tally (opened ++ s.opened s') (told ++ notices) := by
  obtain ⟨s₁, hset, ho⟩ := hb
  have h₁ := h.settled hset
  have hsound := ho.sound h₁.sound
  obtain ⟨added, changes, hdesk, hopen, -, happ, -, -⟩ := ho
  rw [opened_eq h.sound.numbered hset hdesk hopen]
  exact h₁.opens hdesk hopen happ hsound

theorem tally_spawn (model approval effort : Option Str) (now : ℕ) :
    (Session.spawn model approval effort now : Session Choice Form).Tally [(initRequestId, .init)] [] := by
  set s : Session Choice Form := .spawn model approval effort now with hs
  have hdesk : s.control.desk = { table := [⟨initRequestId, .query, none, .init⟩], changes := [] } := rfl
  have hx : ∀ x ∈ s.control.desk.table, x = ⟨initRequestId, .query, none, .init⟩ :=
    fun x hx => mem_singleton.mp hx
  have happ : s.control.effort.applied = [] := rfl
  have hload : ∀ id, s.control.desk.load id = if id = initRequestId then 1 else 0 := by
    intro id
    rw [hdesk]
    by_cases hi : id = initRequestId
    · simp [Desk.load, plain, keys, live, ids, hi]
    · simp [Desk.load, plain, keys, live, ids, hi, Ne.symm hi]
  refine ⟨⟨?_, ?_, ?_, ?_, fun _ => rfl, ?_, ?_, fun h => ?_⟩, ?_, ?_, ?_, nodup_singleton _,
    ?_, by simp, ?_, ?_, ?_⟩
  · rw [hdesk]
    exact ⟨nodup_singleton _, nodup_nil, by simp, by simp, by simp⟩
  · rintro id (hi | hi)
    · exact .inl (mem_singleton.mp hi)
    · cases hi
  · intro x hm
    rw [hx x hm]
    exact ⟨fun _ => rfl, fun h => absurd h (by simp)⟩
  · intro x hm
    rw [hx x hm]
    exact ⟨fun _ => rfl, fun _ => rfl⟩
  · intro x hm hc
    rw [hx x hm] at hc
    cases hc
  · intro x hm q hq
    rw [hx x hm] at hq
    cases hq
  · cases h
  · intro x hm
    rw [hx x hm]
    exact mem_singleton_self _
  · intro id hi
    cases hi
  · rw [happ]
    simp
  · intro id hi
    exact .inl (mem_singleton.mp hi)
  · intro id
    rw [hload, happ]
    split_ifs <;> simp [reports]
  · intro id hi
    rw [hload, happ, if_neg (by simpa using hi)]
    simp [reports]
  · intro id operation hi hw
    obtain ⟨rfl, rfl⟩ := Prod.mk.inj (mem_singleton.mp hi)
    cases hw

end Session

/-! ## Runs -/

section

variable {moves : List Move} {s s' : Session Choice Form}

theorem Session.Sound.not_open_of_closed (h : s.Sound) (hc : s.control.closed = true) (id : Str)
    (operation : PendingControlOperation) : ¬ s.Open id operation := by
  rw [Session.Open, h.closed hc]
  rintro (⟨-, x, hx, -⟩ | ⟨-, hi⟩)
  · cases hx
  · cases hi

/-- A request is open exactly as long as it is counted. -/
theorem Session.Tally.open_iff {opened : List (Str × PendingControlOperation)} {told : List Notice}
    (h : s.Tally opened told) {id : Str} {operation : PendingControlOperation} (hi : (id, operation) ∈ opened) :
    s.Open id operation ↔ 0 < s.control.desk.load id := by
  have hone : ∀ operation', (id, operation') ∈ opened → operation' = operation := by
    intro operation' ho
    exact (Prod.mk.inj (inj_on_of_nodup_map h.distinct ho hi rfl)).2
  rw [Session.Open, Desk.load]
  constructor
  · rintro (⟨hne, x, hx, hid, hop⟩ | ⟨-, hl⟩)
    · have := count_pos_iff.mpr (Desk.mem_plain.mpr ⟨x, hx, hop ▸ hne, hid⟩)
      omega
    · have := count_pos_iff.mpr hl
      omega
  · intro hpos
    rcases Nat.add_pos_iff_pos_or_pos.mp hpos with hp | hp
    · obtain ⟨x, hx, hne, rfl⟩ := Desk.mem_plain.mp (count_pos_iff.mp hp)
      have := hone _ (h.held x hx)
      exact .inl ⟨this ▸ hne, x, hx, rfl, this⟩
    · have hl := count_pos_iff.mp hp
      obtain ⟨y, hy, -, rfl⟩ := Desk.mem_live.mp hl
      exact .inr ⟨(hone _ (h.changes y.id (mem_map_of_mem hy))).symm, hl⟩

theorem Session.Tally.settlesOnce (h : s.Tally (requests moves) (notices moves)) : s.SettlesOnce moves := by
  have hsettled : ∀ id operation, (id, operation) ∈ requests moves → operation.owed = true →
      (s.Open id operation ∧ ends moves s id = 0) ∨ (¬ s.Open id operation ∧ ends moves s id = 1) := by
    intro id operation hi hw
    have hsum := h.owed id operation hi hw
    rw [h.open_iff hi, ends]
    omega
  refine ⟨h.distinct, fun id operation hi hc => ?_, fun id hi => hsettled id .effort hi rfl, fun id => ?_, h.question,
    h.sound.not_open_of_closed⟩
  · have hzero : s.control.effort.applied.count id = 0 := by
      rw [count_eq_zero]
      intro ha
      have := (Prod.mk.inj (inj_on_of_nodup_map h.distinct (h.applied id ha) hi rfl)).2
      rw [← this] at hc
      cases hc
    have := hsettled id operation hi (by rw [PendingControlOperation.owed, hc]; rfl)
    rwa [ends, hzero] at this
  · have := h.once id
    rw [ends]
    omega

variable {configured : Option Str} {message : Json}

/-- An answer that names no open request is not reported. -/
theorem Session.Sound.notices_onControlResponse (h : s.Sound) {id : Str}
    (hone : s.AnswersOnce message) (hid : ((message.get "response").get "request_id").asStr = some id)
    (hn : s.control.pending.lookup id = none) (now : ℕ) : (s.onControlResponse configured message now).1 = [] := by
  have hk := s.control.lookup_eq_none hn
  unfold Session.onControlResponse
  dsimp only
  by_cases hi : id = initRequestId
  · rw [hi] at hid hk
    have hnot : ¬ s.control.contains .init = true := by
      intro hc
      obtain ⟨entry, hentry, hop⟩ := any_eq_true.mp hc
      have hx : ExpiredControl.ofEntry entry ∈ s.control.desk.table := mem_map_of_mem hentry
      exact hk (mem_map.mpr ⟨_, hx, (h.init _ hx).mp (of_decide_eq_true hop)⟩)
    have hquiet := mt (hone hid) hnot
    simp only [not_or, Bool.not_eq_true, Bool.not_eq_false] at hquiet
    rw [if_pos hid, if_neg (by rw [hquiet.1]; decide), if_pos hquiet.2]
  · rw [if_neg (by simpa [hid] using hi)]
    have := s.control.resolve_of_not_mem h.wf hid hk
    generalize s.control.resolve (message.get "response") = r at this ⊢
    obtain ⟨event, control⟩ := r
    rw [show event = none from this]
    rfl

theorem Session.orderly_of_id {now : ℕ} (hm : (message.get "method").isText timeoutMethod = false)
    (hid : ((message.get "response").get "request_id").asStr ≠ some initRequestId) :
    s.Orderly (.handle configured message now) := by
  intro _
  rw [if_neg (by rw [hm]; decide)]
  exact fun _ _ h => absurd h hid

theorem Session.orderly_of_open {now : ℕ}
    (hm : (message.get "method").isText timeoutMethod = false) (h : s.control.contains .init = true) :
    s.Orderly (.handle configured message now) := by
  intro _
  rw [if_neg (by rw [hm]; decide)]
  exact fun _ _ _ _ => h

end

section

variable [ChoiceDialog Choice] [Elicitation Form] {moves : List Move} {s s' : Session Choice Form}

/-- The calls of a run in which every one is orderly. -/
def orderly : System (Session Choice Form) Move :=
  sessions.restrict fun s move => s.Orderly move.call

theorem Session.Tally.step (h : s.Tally (requests moves) (notices moves)) {move : Move}
    (hs : (orderly : System (Session Choice Form) Move).step s move s') :
    s'.Tally (requests (moves ++ [move])) (notices (moves ++ [move])) := by
  obtain ⟨ho, hf, hp, hopened⟩ := hs
  have hb := Session.books_perform h.sound hf ho
  rw [hp] at hb
  have := h.books hb
  rw [← hopened] at this
  simpa [requests, notices] using this

theorem tally_run (h : Run (orderly : System (Session Choice Form) Move) moves s) :
    s.Tally (requests moves) (notices moves) := by
  induction h with
  | init h =>
    obtain ⟨model, approval, effort, now, rfl⟩ := h
    exact Session.tally_spawn model approval effort now
  | step _ hs ih => exact ih.step hs

theorem Session.Tally.reportsOpen (h : s.Tally (requests moves) (notices moves)) {move : Move}
    (hs : (orderly : System (Session Choice Form) Move).step s move s') : s.ReportsOpen moves move := by
  obtain ⟨ho, hf, hp, -⟩ := hs
  have hmove : (s.perform move.call).1 = move.notices := congrArg Prod.fst hp
  obtain ⟨s₁, hset, -⟩ := Session.books_perform h.sound hf ho
  rw [hmove] at hset
  obtain ⟨applied, -, hd⟩ := hset.desk
  refine ⟨fun notice hn id hi => ?_, fun message id hl ht hid hn => ?_⟩
  · obtain ⟨operation, ha, hr⟩ := hd.about notice hn id hi
    refine ⟨operation, ?_, ha, hr⟩
    obtain ⟨-, x, hx, rfl, rfl⟩ | ⟨rfl, hl⟩ := ha
    · exact h.held x hx
    · obtain ⟨y, hy, -, rfl⟩ := Desk.mem_live.mp hl
      exact h.changes y.id (mem_map_of_mem hy)
  · rw [← hmove]
    cases hc : move.call with
    | handle configured message' now =>
      rw [hc] at hl ho
      rw [Call.line] at hl
      split_ifs at hl with hm
      obtain rfl := Option.some.inj hl
      rw [Bool.or_eq_true, not_or, Bool.not_eq_true, Bool.not_eq_true] at hm
      rw [Session.perform, Session.handle]
      by_cases hcl : s.control.closed
      · rw [if_pos hcl]
      have ho := ho (by simpa using hcl)
      rw [if_neg (by rw [hm.1]; decide)] at ho
      rw [if_neg hcl, if_neg (by rw [hm.1]; decide), if_neg (by rw [hm.2]; decide)]
      have hkind : ∀ kind, kind ≠ "control_response" → (message'.get "type").isText kind = false := by
        intro kind hne
        rw [← Bool.not_eq_true]
        exact fun hk => hne (Json.isText_unique hk ht)
      have hsound : ({ s with turn := s.turn.observe message' } : Session Choice Form).Sound :=
        ⟨h.sound.wf, h.sound.numbered, h.sound.fits, h.sound.init, h.sound.waiting, h.sound.ready,
          h.sound.question, h.sound.closed⟩
      unfold Session.onMessage
      dsimp only
      rw [hkind "system" (by decide), hkind "result" (by decide), hkind "control_request" (by decide), ht]
      exact hsound.notices_onControlResponse (ho hm.2 ht) hid hn now
    | _ =>
      rw [hc] at hl
      cases hl

/-- **Every request is settled once**, in a run in which no poll stops before a completion that it owes
and the handshake is answered at most once. -/
theorem requests_settled_once (h : Run (orderly : System (Session Choice Form) Move) moves s) :
    s.SettlesOnce moves ∧ ∀ (move : Move) (s' : Session Choice Form),
      (orderly : System (Session Choice Form) Move).step s move s' → s.ReportsOpen moves move :=
  ⟨(tally_run h).settlesOnce, fun _ _ hs ↦ (tally_run h).reportsOpen hs⟩

end

/-! ## Two sessions -/

section

attribute [local instance] noDialogs noForms

/-- The CLI answers a request. -/
def answer (id : Str) : Call :=
  .handle none (.object [("type", .text "control_response"),
    ("response", .object [("subtype", .text "success"), ("request_id", .string id),
      ("response", .object [("response", .text "yes")])])]) 0

/-- A message that changes the effort, and a side question. -/
def asking : List Call :=
  [answer initRequestId, .sendUserMessage "hi".toList { model := none, approval := none, effort := "high".toList } [] 0,
    .askSideQuestion "why".toList [] 0]

/-- Each of the two is answered, one of them twice. -/
def answered : List Call := asking ++ [answer (requestId 2), answer (requestId 3), answer (requestId 3)]

theorem requests_settled_once_answered :
    (freshSession.after answered).SettlesOnce (freshSession.moves answered) ∧
    ends (freshSession.moves answered) (freshSession.after answered) (requestId 2) = 1 ∧
    reports (notices (freshSession.moves answered)) (requestId 3) = 1 := by
  have hallows : freshSession.Allows Session.Orderly answered :=
    ⟨⟨Session.orderly_of_open (by decide) (by decide), trivial⟩, ⟨trivial, trivial⟩, ⟨trivial, trivial⟩,
      ⟨Session.orderly_of_id (by decide) (by decide), trivial⟩,
      ⟨Session.orderly_of_id (by decide) (by decide), trivial⟩,
      ⟨Session.orderly_of_id (by decide) (by decide), trivial⟩, trivial⟩
  have h := (requests_settled_once (run_calls _ (.init ⟨none, none, none, 0, rfl⟩) hallows)).1
  rw [nil_append] at h
  exact ⟨h, by decide, by decide⟩

/-- Nothing of the message was written when both ran out of time: the side question is never answered. -/
theorem side_question_lost :
    ¬ ∀ (moves : List Move) (s : Session Empty Empty), Run sessions moves s → s.SettlesOnce moves := by
  intro h
  set calls : List Call := asking ++ [.pollTimeouts 1000000000000] with hcalls
  have hallows : freshSession.Allows (fun _ _ ↦ True) calls :=
    ⟨⟨trivial, trivial⟩, ⟨trivial, trivial⟩, ⟨trivial, trivial⟩, ⟨trivial, trivial⟩, trivial⟩
  have hs := h _ _ (run_calls _ (.init ⟨none, none, none, 0, rfl⟩) hallows).of_restrict
  rw [nil_append] at hs
  obtain ⟨ho, -⟩ | ⟨-, hr⟩ := hs.completion (requestId 3) (.sideQuestion (requestId 3)) (by decide) rfl
  · exact hs.closed (by decide) _ _ ho
  · exact absurd hr (by decide)

end

end NiumaTerm.ClaudeCode
