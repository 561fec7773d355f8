import NiumaTerm.ClaudeCode.Ledger
import NiumaTerm.ClaudeCode.Prompting

/-!
# The requests sent to the CLI

A call settles some of the open requests (`Session.Settled`) and then may send new ones
(`Session.Opens`).  `Session.Orderly` leaves out polls that lose a request behind one that closes the
session, and answers that name the handshake when it is not open.
-/

namespace NiumaTerm.ClaudeCode

open Rust Subprocess List

variable {Choice Form : Type}

/-! ## New requests -/

/-- A change of the effort travels in a batch, and a request that must be completed does not. -/
def ExpiredControl.Fits (x : ExpiredControl) : Prop :=
  (x.operation.completes = true → x.input.any (·.batch) = false) ∧
  (x.operation = .effort → x.input.any (·.batch) = true)

/-- What may be added to the table and to the queue of effort changes. -/
structure Opening (n n' : ℕ) (ready : Bool) (opened : List ExpiredControl) (changes : List Change) :
    Prop where
  mono : n ≤ n'
  ids : ∀ x ∈ opened, ∃ k, n ≤ k ∧ k < n' ∧ x.id = requestId k
  nodup : (keys opened).Nodup
  operation : ∀ x ∈ opened, x.operation ≠ .init
  ready : ∀ x ∈ opened, x.operation.completes = true → ready = true
  fits : ∀ x ∈ opened, x.Fits
  question : ∀ x ∈ opened, ∀ q, x.operation = .sideQuestion q → q = x.id
  effort : ClaudeCode.ids changes = keys (opened.filter fun x => x.operation = .effort)
  unanswered : ∀ y ∈ changes, y.result = none

theorem Opening.nil {n n' : ℕ} (h : n ≤ n') (ready : Bool) : Opening n n' ready [] [] :=
  ⟨h, by simp, nodup_nil, by simp, by simp, by simp, by simp, rfl, by simp⟩

namespace Session

/-- Some of `d` is settled, and nothing is added. -/
structure SettledFrom (d : Desk) (s : Session Choice Form) (notices : List Notice)
    (s' : Session Choice Form) : Prop where
  desk : ∃ applied, s'.control.effort.applied = s.control.effort.applied ++ applied ∧
    d.Settles notices applied s'.control.desk
  nextId : s'.control.nextId = s.control.nextId
  closed : s'.control.closed = s.control.closed ∨ s'.control.desk = { table := [], changes := [] }
  ready : s'.ready = s.ready ∨ (s'.ready = true ∧ initRequestId ∉ keys s'.control.desk.table) ∨
    s'.control.desk.table = []

abbrev Settled (s : Session Choice Form) (notices : List Notice) (s' : Session Choice Form) : Prop :=
  SettledFrom s.control.desk s notices s'

/-- Requests are added, and nothing else. -/
def Opens (s s' : Session Choice Form) : Prop :=
  ∃ opened changes, s'.control.desk =
      { table := s.control.desk.table ++ opened, changes := s.control.desk.changes ++ changes } ∧
    Opening s.control.nextId s'.control.nextId s.ready opened changes ∧
    (s.control.closed = true → opened = []) ∧ s'.control.effort.applied = s.control.effort.applied ∧
    s'.control.closed = s.control.closed ∧ s'.ready = s.ready

def Books (s : Session Choice Form) (notices : List Notice) (s' : Session Choice Form) : Prop :=
  ∃ s₁, s.Settled notices s₁ ∧ s₁.Opens s'

variable {s s' s'' : Session Choice Form} {notices : List Notice}

/-- A change of something else. -/
theorem Settled.of_eq (hw : s.control.desk.Wf) (hd : s'.control.desk = s.control.desk)
    (ha : s'.control.effort.applied = s.control.effort.applied)
    (hn : s'.control.nextId = s.control.nextId) (hc : s'.control.closed = s.control.closed)
    (hr : s'.ready = s.ready) (hnotices : ∀ notice ∈ notices, notice.about = []) :
    s.Settled notices s' :=
  ⟨⟨[], by rw [ha, append_nil], by rw [hd]; exact .of_wf hw hnotices⟩, hn, .inl hc, .inl hr⟩

theorem Opens.of_eq (hd : s'.control.desk = s.control.desk)
    (ha : s'.control.effort.applied = s.control.effort.applied)
    (hn : s.control.nextId ≤ s'.control.nextId) (hc : s'.control.closed = s.control.closed)
    (hr : s'.ready = s.ready) : s.Opens s' :=
  ⟨[], [], by rw [hd, append_nil, append_nil], .nil hn _, fun _ => rfl, ha, hc, hr⟩

theorem Opens.refl (s : Session Choice Form) : s.Opens s := .of_eq rfl rfl (le_refl _) rfl rfl

theorem Settled.refl (hw : s.control.desk.Wf) (hnotices : ∀ notice ∈ notices, notice.about = []) :
    s.Settled notices s := .of_eq hw rfl rfl rfl rfl rfl hnotices

theorem Settled.books (h : s.Settled notices s') : s.Books notices s' := ⟨s', h, .refl s'⟩

theorem Opens.books (hw : s.control.desk.Wf) (h : s.Opens s') : s.Books [] s' :=
  ⟨s, .refl hw (by simp), h⟩

/-- Only these parts of the session matter. -/
theorem Opens.congr (h : s.Opens s') (hd : s''.control.desk = s'.control.desk)
    (ha : s''.control.effort.applied = s'.control.effort.applied)
    (hn : s''.control.nextId = s'.control.nextId) (hc : s''.control.closed = s'.control.closed)
    (hr : s''.ready = s'.ready) : s.Opens s'' := by
  obtain ⟨opened, changes, hdesk, hopen, hclosed, happ, hcl, hready⟩ := h
  exact ⟨opened, changes, hd.trans hdesk, hn ▸ hopen, hclosed, ha.trans happ, hc.trans hcl, hr.trans hready⟩

theorem requestId_injective {m n : ℕ} (h : requestId m = requestId n) : m = n := by
  have h := append_cancel_left h
  rw [← Nat.ofDigitChars_ten_toDigits (n := m), h, Nat.ofDigitChars_ten_toDigits]

theorem requestId_ne_init (n : ℕ) : requestId n ≠ initRequestId := by
  intro h
  have h : "nmt-".toList ++ Nat.toDigits 10 n = "nmt-".toList ++ "init".toList := h
  have h := append_cancel_left h
  have := Nat.isDigit_of_mem_toDigits (b := 10) (n := n) (c := 'i') (by decide) (by decide) (by rw [h]; decide)
  cases this

/-- The ids in use have been given out. -/
def Numbered (s : Session Choice Form) : Prop :=
  ∀ id, id ∈ keys s.control.desk.table ∨ id ∈ ids s.control.desk.changes →
    id = initRequestId ∨ ∃ k < s.control.nextId, id = requestId k

theorem Numbered.fresh (h : s.Numbered) {k : ℕ} (hk : s.control.nextId ≤ k) :
    requestId k ∉ keys s.control.desk.table := by
  intro hi
  obtain he | ⟨j, hj, he⟩ := h _ (.inl hi)
  · exact requestId_ne_init k he
  · rw [requestId_injective he] at hk
    omega

theorem opens_admitControl (h : s.Numbered) (request : Json) (requestClass : RequestClass)
    (operation : Str → PendingControlOperation) (now : ℕ)
    (hop : ∀ id, operation id ≠ .init ∧ operation id ≠ .effort)
    (hready : ∀ id, (operation id).completes = true → s.ready = true)
    (hq : ∀ id q, operation id = .sideQuestion q → q = id) :
    s.Opens (s.admitControl request requestClass operation now).2 := by
  rcases s.admitControl_cases request requestClass operation now with
    ⟨hc, p, ticket, -, hb, -, hp⟩ | ⟨-, e, p, n, hn, hp, -⟩
  · have hfresh : requestId s.control.nextId ∉ keys (s.control.request request).2.desk.table :=
      h.fresh (le_refl _)
    have hopen := hc.opened
    set x : ExpiredControl :=
      ⟨requestId s.control.nextId, requestClass, some ticket, operation (requestId s.control.nextId)⟩ with hx
    rw [hp]
    refine ⟨[x], [], ?_, ⟨?_, ?_, ?_, ?_, ?_, ?_, ?_, ?_, ?_⟩, ?_, ?_, ?_, rfl⟩
    · rw [(s.control.request request).2.desk_admitEntry hopen hfresh, append_nil]
      rfl
    · simp [ControlState.admitEntry, ControlState.request, hopen]
    · intro y hy
      obtain rfl := mem_singleton.mp hy
      exact ⟨s.control.nextId, le_refl _, by simp [ControlState.admitEntry, ControlState.request, hopen], rfl⟩
    · exact nodup_singleton _
    · intro y hy
      obtain rfl := mem_singleton.mp hy
      exact (hop _).1
    · intro y hy
      obtain rfl := mem_singleton.mp hy
      exact hready _
    · intro y hy
      obtain rfl := mem_singleton.mp hy
      exact ⟨fun _ => hb, fun he => absurd he (hop _).2⟩
    · intro y hy q
      obtain rfl := mem_singleton.mp hy
      exact hq _ q
    · rw [filter_cons_of_neg (by simpa using (hop _).2)]
      rfl
    · simp
    · simp [hopen]
    · simp [ControlState.admitEntry, ControlState.request, hopen]
    · simp [ControlState.admitEntry, ControlState.request, hopen]
  · rw [hp]
    exact .of_eq rfl rfl hn rfl rfl

theorem opens_sendControl (h : s.Numbered) (request : Json) {operation : PendingControlOperation}
    (hop : operation ≠ .init ∧ operation ≠ .effort) (hready : operation.completes = true → s.ready = true)
    (hq : ∀ q, operation ≠ .sideQuestion q) (now : ℕ) : s.Opens (s.sendControl request operation now).2 :=
  opens_admitControl h request _ (fun _ => operation) now (fun _ => hop) (fun _ => hready)
    fun _ q he => absurd he (hq q)

theorem opens_requestContextComposition (h : s.Numbered) (now : ℕ) :
    s.Opens (s.requestContextComposition now).2 := by
  unfold requestContextComposition
  split_ifs
  · exact .refl s
  · exact opens_sendControl h _ (by simp) (by simp [PendingControlOperation.completes]) (by simp) now

theorem opens_requestSessionTitle (h : s.Numbered) (description : Str) (now : ℕ) :
    s.Opens (s.requestSessionTitle description now).2 := by
  unfold requestSessionTitle
  dsimp only
  split_ifs
  · exact .refl s
  · exact opens_sendControl h _ (by simp) (by simp [PendingControlOperation.completes]) (by simp) now

theorem opens_askSideQuestion (h : s.Numbered) (question : Str) (history : List (Str × Str)) (now : ℕ) :
    s.Opens (s.askSideQuestion question history now).2 := by
  unfold askSideQuestion
  by_cases hr : !s.ready || !s.process.hasStdin
  · rw [if_pos hr]
    exact .refl s
  · rw [if_neg hr]
    refine opens_admitControl h _ _ _ now (by simp) (fun _ _ => ?_) fun id q he => ?_
    · simp only [Bool.or_eq_true, Bool.not_eq_true', not_or, Bool.not_eq_false] at hr
      exact hr.1
    · rw [PendingControlOperation.sideQuestion.injEq] at he
      exact he.symm

theorem opens_rewindFiles (h : s.Numbered) (userMessageId : Str) (now : ℕ) :
    s.Opens (s.rewindFiles userMessageId now).2 := by
  unfold rewindFiles
  split_ifs with hr
  · exact .refl s
  · refine opens_sendControl h _ (by simp) (fun _ => ?_) (by simp) now
    simp only [Bool.or_eq_true, Bool.not_eq_true', not_or, Bool.not_eq_false] at hr
    exact hr.1.1.1.1

theorem opens_interrupt (h : s.Numbered) (now : ℕ) : s.Opens (s.interrupt now).2 :=
  opens_sendControl h _ (by simp) (by simp [PendingControlOperation.completes]) (by simp) now

theorem opens_interruptBackgroundTask (h : s.Numbered) (taskId : Str) (now : ℕ) :
    s.Opens (s.interruptBackgroundTask taskId now).2 :=
  opens_sendControl h _ (by simp) (by simp [PendingControlOperation.completes]) (by simp) now

/-! ## A message with changed settings -/

theorem desk_recordEffort (c : ControlState Choice Form) (hc : c.closed = false) {table : List ExpiredControl}
    {x : ExpiredControl} (ht : c.desk.table = table ++ [x]) (hx : x.id ∉ keys table) (value : Str) :
    (c.recordEffort x.id value).desk =
      { table := table ++ [{ x with operation := .effort }],
        changes := c.desk.changes ++ [{ id := x.id, value, result := none }] } := by
  set mark := fun y : ExpiredControl => if y.id = x.id then { y with operation := .effort } else y with hmark
  have htable : (c.recordEffort x.id value).desk.table = c.desk.table.map mark := by
    rw [ControlState.recordEffort, if_neg (by simp [hc])]
    simp only [ControlState.desk, map_map]
    refine map_congr_left fun entry _ => ?_
    simp only [Function.comp_apply, hmark]
    split_ifs with he he' he'
    · rfl
    · exact absurd he he'
    · exact absurd he' he
    · rfl
  have hkeep : table.map mark = table := by
    refine (map_congr_left fun y hy => if_neg fun he => hx ?_).trans (map_id' table)
    rw [← he]
    exact mem_map_of_mem hy
  have hchanges : (c.recordEffort x.id value).desk.changes =
      c.desk.changes ++ [{ id := x.id, value, result := none }] := by
    rw [ControlState.recordEffort, if_neg (by simp [hc])]
    rfl
  have hlast : mark x = { x with operation := .effort } := if_pos rfl
  rw [ht, map_append, hkeep, map_singleton, hlast] at htable
  rw [← htable, ← hchanges]

/-- Requests that travel together are added in their order. -/
theorem desk_admitAll (requests : List (Str × Json)) (ticket : InputTicket) (now : ℕ)
    (c : ControlState Choice Form) (hc : c.closed = false) (hn : (requests.map (·.1)).Nodup)
    (hfresh : ∀ id ∈ requests.map (·.1), id ∉ keys c.desk.table) :
    ∃ pending, requests.foldl (fun control request =>
        control.admitEntry request.1 .mutation (some ticket) .other now) c = { c with pending } ∧
      pending.map .ofEntry = c.desk.table ++ requests.map fun request =>
        { id := request.1, requestClass := .mutation, input := some ticket, operation := .other } := by
  induction requests generalizing c with
  | nil => exact ⟨c.pending, rfl, (append_nil _).symm⟩
  | cons request rest ih =>
    rw [map_cons, nodup_cons] at hn
    have hdesk := c.desk_admitEntry hc (hfresh _ mem_cons_self) .mutation (some ticket) .other now
    have hstep : c.admitEntry request.1 .mutation (some ticket) .other now =
        { c with pending := (c.admitEntry request.1 .mutation (some ticket) .other now).pending } := by
      simp [ControlState.admitEntry, hc]
    have hc' : (c.admitEntry request.1 .mutation (some ticket) .other now).closed = false := by
      rw [hstep]
      exact hc
    have hfresh' : ∀ id ∈ rest.map (·.1),
        id ∉ keys (c.admitEntry request.1 .mutation (some ticket) .other now).desk.table := by
      intro id hid
      rw [hdesk, keys, map_append, mem_append]
      rintro (hk | hk)
      · exact hfresh id (mem_cons_of_mem _ hid) hk
      · rw [map_singleton, mem_singleton] at hk
        rw [hk] at hid
        exact hn.1 hid
    obtain ⟨pending, hfold, hpending⟩ := ih _ hc' hn.2 hfresh'
    refine ⟨pending, ?_, ?_⟩
    · rw [foldl_cons, hfold, hstep]
    · rw [hpending, hdesk, map_cons, append_assoc, singleton_append]

theorem nodup_requestIds (n k : ℕ) : ((List.range' n k).map requestId).Nodup :=
  List.Nodup.map (fun _ _ => requestId_injective) nodup_range'

/-- The requests of one batch are numbered one after another. -/
theorem opening_batch {n : ℕ} {opened : List ExpiredControl} {changes : List Change} (ready : Bool)
    (hkeys : keys opened = (List.range' n opened.length).map requestId) (ticket : InputTicket)
    (hbatch : opened ≠ [] → ticket.batch = true)
    (hopened : ∀ x ∈ opened, x.input = some ticket ∧ (x.operation = .other ∨ x.operation = .effort))
    (heffort : ids changes = keys (opened.filter fun x => x.operation = .effort))
    (hunanswered : ∀ y ∈ changes, y.result = none) :
    Opening n (n + opened.length) ready opened changes := by
  have hcompletes : ∀ x ∈ opened, x.operation.completes = false := by
    intro x hx
    obtain ⟨-, ho | ho⟩ := hopened x hx <;> rw [ho] <;> rfl
  refine ⟨Nat.le_add_right _ _, fun x hx => ?_, ?_, fun x hx hi => ?_, fun x hx hc => ?_, fun x hx => ⟨fun hc => ?_, fun _ => ?_⟩,
    fun x hx q hq => ?_, heffort, hunanswered⟩
  · have hk : x.id ∈ keys opened := mem_map_of_mem hx
    rw [hkeys] at hk
    obtain ⟨k, hk, he⟩ := mem_map.mp hk
    rw [mem_range'_1] at hk
    exact ⟨k, hk.1, hk.2, he.symm⟩
  · rw [hkeys]
    exact nodup_requestIds _ _
  · obtain ⟨-, ho | ho⟩ := hopened x hx <;> rw [ho] at hi <;> cases hi
  · rw [hcompletes x hx] at hc
    cases hc
  · rw [hcompletes x hx] at hc
    cases hc
  · rw [(hopened x hx).1]
    exact hbatch (ne_nil_of_mem hx)
  · obtain ⟨-, ho | ho⟩ := hopened x hx <;> rw [ho] at hq <;> cases hq

theorem opens_settings (h : s.Numbered) (hc : s.control.closed = false) {requests : List (Str × Json)}
    (hids : requests.map (·.1) = (List.range' s.control.nextId requests.length).map requestId)
    {ticket : InputTicket} (hbatch : requests ≠ [] → ticket.batch = true) (now : ℕ) (change : Option Str)
    {control : ControlState Choice Form}
    (hcontrol : control = requests.foldl (fun control request =>
      control.admitEntry request.1 .mutation (some ticket) .other now)
        { s.control with nextId := s.control.nextId + requests.length }) :
    s.Opens { s with
      control := match change, requests.getLast? with
        | some effort, some (id, _) => control.recordEffort id effort
        | _, _ => control } := by
  have hnodup : (requests.map (·.1)).Nodup := by
    rw [hids]
    exact nodup_requestIds _ _
  have hfresh : ∀ id ∈ requests.map (·.1), id ∉ keys s.control.desk.table := by
    intro id hid
    rw [hids] at hid
    obtain ⟨k, hk, rfl⟩ := mem_map.mp hid
    exact h.fresh (mem_range'_1.mp hk).1
  obtain ⟨pending, hfold, hpending⟩ := desk_admitAll requests ticket now
    { s.control with nextId := s.control.nextId + requests.length } hc hnodup hfresh
  rw [hfold] at hcontrol
  set other := fun request : Str × Json => (⟨request.1, .mutation, some ticket, .other⟩ : ExpiredControl)
    with hother
  have hlen : ∀ l : List (Str × Json), (l.map other).length = l.length := fun l => length_map _
  have hkeys : ∀ l : List (Str × Json), keys (l.map other) = l.map (·.1) := by
    intro l
    rw [keys, map_map]
    rfl
  have hdesk : control.desk = { table := s.control.desk.table ++ requests.map other,
                                changes := s.control.desk.changes } := by
    rw [hcontrol]
    exact congrArg (fun table => Desk.mk table s.control.desk.changes) hpending
  have hplain : s.Opens { s with control } := by
    refine ⟨requests.map other, [], ?_, ?_, ?_, by rw [hcontrol], by rw [hcontrol], rfl⟩
    · rw [append_nil]
      exact hdesk
    · rw [hcontrol, ← hlen requests]
      refine opening_batch s.ready (by rw [hkeys, hids, hlen]) ticket
        (fun hne => hbatch fun he => hne (by rw [he]; rfl)) ?_ ?_ (by simp)
      · intro x hx
        obtain ⟨request, -, rfl⟩ := mem_map.mp hx
        exact ⟨rfl, .inl rfl⟩
      · rw [filter_eq_nil_iff.mpr]
        · rfl
        · intro x hx
          obtain ⟨request, -, rfl⟩ := mem_map.mp hx
          simp [hother]
    · intro hcl
      rw [hc] at hcl
      cases hcl
  cases change with
  | none => exact hplain
  | some effort =>
    cases hlast : requests.getLast? with
    | none => exact hplain
    | some last =>
      obtain ⟨before, hsplit⟩ := getLast?_eq_some_iff.mp hlast
      have hcl : control.closed = false := by
        rw [hcontrol]
        exact hc
      have hnew : last.1 ∉ keys (s.control.desk.table ++ before.map other) := by
        rw [keys, map_append, mem_append]
        rintro (hk | hk)
        · exact hfresh last.1 (by simp [hsplit]) hk
        · rw [← keys, hkeys] at hk
          rw [hsplit, map_append, nodup_append] at hnodup
          exact hnodup.2.2 _ hk _ (by simp) rfl
      have htable : control.desk.table = (s.control.desk.table ++ before.map other) ++ [other last] := by
        rw [hdesk, hsplit, map_append, append_assoc]
        rfl
      have hrecord := desk_recordEffort control hcl htable hnew effort
      have hrest : control.recordEffort last.1 effort = { control with
          pending := (control.recordEffort last.1 effort).pending
          effort := (control.recordEffort last.1 effort).effort } := by
        simp [ControlState.recordEffort, hcl]
      have happlied : (control.recordEffort last.1 effort).effort.applied = control.effort.applied := by
        simp [ControlState.recordEffort, hcl, EffortState.record]
      set marked : ExpiredControl := { other last with operation := .effort } with hmarked
      have hopenedKeys : keys (before.map other ++ [marked]) = requests.map (·.1) := by
        rw [keys, map_append, ← keys, hkeys, hsplit, map_append]
        rfl
      have hopenedLen : (before.map other ++ [marked]).length = requests.length := by
        rw [hsplit, length_append, length_append, hlen]
        rfl
      refine ⟨before.map other ++ [marked], [{ id := last.1, value := effort, result := none }], ?_, ?_, ?_,
        ?_, ?_, rfl⟩
      · rw [← append_assoc]
        rw [hdesk] at hrecord
        exact hrecord
      · rw [show (control.recordEffort last.1 effort).nextId = s.control.nextId + requests.length by
          rw [hrest, hcontrol], ← hopenedLen]
        refine opening_batch s.ready (by rw [hopenedKeys, hids, hopenedLen]) ticket
          (fun _ => hbatch fun he => ?_) ?_ ?_ (by simp)
        · rw [he] at hlast
          cases hlast
        · intro x hx
          rcases mem_append.mp hx with hx | hx
          · obtain ⟨request, -, rfl⟩ := mem_map.mp hx
            exact ⟨rfl, .inl rfl⟩
          · obtain rfl := mem_singleton.mp hx
            exact ⟨rfl, .inr rfl⟩
        · have hnone : (before.map other).filter (fun x => x.operation = .effort) = [] := by
            rw [filter_eq_nil_iff]
            intro x hx
            obtain ⟨request, -, rfl⟩ := mem_map.mp hx
            simp [hother]
          rw [filter_append, hnone, nil_append]
          rfl
      · intro hcl'
        rw [hc] at hcl'
        cases hcl'
      · dsimp only
        rw [happlied, hcontrol]
      · dsimp only
        rw [hrest, hcontrol]

theorem opens_sendUserMessage (h : s.Numbered) (text : Str) (settings : ThreadSettings)
    (images : List MessageImage) (now : ℕ) : s.Opens (s.sendUserMessage text settings images now).2 := by
  unfold sendUserMessage
  by_cases hc : s.control.closed || !s.process.hasStdin
  · rw [if_pos hc]
    exact .refl s
  rw [if_neg hc]
  simp only [Bool.or_eq_true, not_or, Bool.not_eq_true] at hc
  set requests := (numberRequests (s.settingRequests settings) s.control).1 with hrequests
  have hlen : requests.length = (s.settingRequests settings).length := by
    have := congrArg List.length (numberRequests_ids (s.settingRequests settings) s.control)
    simpa using this
  have hids := numberRequests_ids (s.settingRequests settings) s.control
  have hcontrol := numberRequests_snd (s.settingRequests settings) s.control
  rw [← hrequests, ← hlen] at hids
  rw [← hlen] at hcontrol
  have hnum : numberRequests (s.settingRequests settings) s.control =
      (requests, { s.control with nextId := s.control.nextId + requests.length }) := Prod.ext rfl hcontrol
  rw [hnum]
  dsimp only
  rcases s.process.writeTracked_cases isUser (requests.map (·.2) ++ [userMessage text images]) (by simp) with
    ⟨-, ticket, p, hw, -, -, hb⟩ | ⟨-, p, hw, -, -⟩
  · rw [hw]
    dsimp only
    have hbatch : requests ≠ [] → ticket.batch = true := by
      intro hne
      have := length_pos_iff.mpr hne
      rw [hb, Bool.or_eq_true, decide_eq_true_eq]
      simp
      omega
    have hopen := opens_settings h hc.1 hids hbatch now (s.effortChange settings) rfl
    by_cases ht : s.turn = .idle
    · rw [if_pos ht]
      exact hopen.congr rfl rfl rfl rfl rfl
    · rw [if_neg ht]
      exact hopen.congr rfl rfl rfl rfl rfl
  · rw [hw]
    exact .of_eq rfl rfl (Nat.le_add_right _ _) rfl rfl

end Session

end NiumaTerm.ClaudeCode
