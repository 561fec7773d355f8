import NiumaTerm.ClaudeCode.Requests

/-!
# What every call settles and opens

`Session.Sound` is the invariant, and `Session.books_perform` says that a call of a sound session settles
some of the requests that are open and then opens others.
-/

namespace NiumaTerm.ClaudeCode

open Rust Subprocess List

variable {Choice Form : Type}

namespace Session

variable {s s' : Session Choice Form}

structure Sound (s : Session Choice Form) : Prop where
  wf : s.control.desk.Wf
  numbered : s.Numbered
  fits : ∀ x ∈ s.control.desk.table, x.Fits
  init : ∀ x ∈ s.control.desk.table, x.operation = .init ↔ x.id = initRequestId
  waiting : initRequestId ∈ keys s.control.desk.table → s.ready = false
  ready : ∀ x ∈ s.control.desk.table, x.operation.completes = true → s.ready = true
  question : ∀ x ∈ s.control.desk.table, ∀ q, x.operation = .sideQuestion q → q = x.id
  closed : s.control.closed = true → s.control.desk = { table := [], changes := [] }

/-! ## Requests that ran out of time -/

theorem cancel_fst (q : Queue Json) (a : InputTicket) : (q.cancel a).1 = true ↔
    q.tickets[a.state]? ≠ some .taken ∧ (q.alive = true ∨ q.tickets[a.state]? ≠ none) := by
  unfold Queue.cancel
  split_ifs with ha ht
  · simp [ht]
  · simp [ht, ha]
  · cases q.tickets[a.state]? with
    | none => simp [ha]
    | some state => cases state <;> simp

theorem tickets_cancel (q : Queue Json) (a : InputTicket) (t : ℕ) :
    ((q.cancel a).2.tickets[t]? = some .taken ↔ q.tickets[t]? = some .taken) ∧
      ((q.cancel a).2.tickets[t]? = none ↔ q.tickets[t]? = none) := by
  have hset : q.tickets[a.state]? ≠ some .taken →
      ((q.tickets.set a.state .cancelled)[t]? = some .taken ↔ q.tickets[t]? = some .taken) ∧
        ((q.tickets.set a.state .cancelled)[t]? = none ↔ q.tickets[t]? = none) := by
    intro ha
    rw [getElem?_set']
    split_ifs with hat
    · rw [← hat]
      cases ht : q.tickets[a.state]? with
      | none => simp
      | some state => simp [ht ▸ ha]
    · exact ⟨Iff.rfl, Iff.rfl⟩
  unfold Queue.cancel
  split_ifs with ha ht
  · exact ⟨Iff.rfl, Iff.rfl⟩
  · exact hset ht
  · split
    · next hq => exact hset (by simp [hq])
    · exact ⟨Iff.rfl, Iff.rfl⟩
    · exact ⟨Iff.rfl, Iff.rfl⟩

/-- A cancellation leaves the answers to all others as they were. -/
theorem cancel_cancel (q : Queue Json) (a b : InputTicket) :
    ((q.cancel a).2.cancel b).1 = (q.cancel b).1 := by
  have halive : (q.cancel a).2.alive = q.alive := by
    rw [Queue.alive, Queue.senderOpen_cancel, Queue.receiverOpen_cancel]
    rfl
  obtain ⟨ht, hn⟩ := tickets_cancel q a b.state
  rw [Bool.eq_iff_iff, cancel_fst, cancel_fst, halive, Ne, ht, Ne, hn]

/-- The writer has not taken the batch that the request travels in. -/
def Unsent (s : Session Choice Form) (x : ExpiredControl) : Bool :=
  x.input.any fun ticket => ticket.batch && (s.process.stdin.cancel ticket).1

theorem cancelInput_frame (input : Option InputTicket) :
    ∃ process, (s.cancelInput input).2 = { s with process } := by
  cases input with
  | none => exact ⟨s.process, rfl⟩
  | some ticket => exact ⟨_, rfl⟩

theorem unsent_cancelInput (input : Option InputTicket) (x : ExpiredControl) :
    (s.cancelInput input).2.Unsent x = s.Unsent x := by
  cases input with
  | none => rfl
  | some ticket =>
    cases hx : x.input with
    | none => simp [Unsent, hx]
    | some ticket' => simp [Unsent, hx, cancelInput, cancel_cancel]

theorem cancelInput_unsent (x : ExpiredControl) :
    ((s.cancelInput x.input).1 && x.input.any (·.batch)) = s.Unsent x := by
  cases hx : x.input with
  | none => simp [Unsent, hx, cancelInput]
  | some ticket => simp [Unsent, hx, cancelInput, Bool.and_comm]

theorem settleOne_frame (x : ExpiredControl) (cancelled : Bool) (c : ControlState Choice Form) :
    ∃ effort, (settleOne x cancelled c).2 = { c with effort } := by
  have hfail : ∀ message, ∃ effort, (c.failExpired x message).2 = { c with effort } := by
    intro message
    unfold ControlState.failExpired
    by_cases he : c.effort.contains x.id
    · rw [if_pos he]
      exact ⟨_, rfl⟩
    · rw [if_neg he]
      exact ⟨c.effort, rfl⟩
  unfold settleOne
  cases cancelled with
  | true => exact hfail _
  | false =>
    simp only [Bool.false_eq_true, if_false, ControlState.expireEffort]
    by_cases he : c.effort.contains x.id
    · rw [if_pos he]
      exact ⟨_, rfl⟩
    · rw [if_neg he]
      exact hfail _

/-- A request that does not close the session leaves the table with its event. -/
theorem settles_settleOne {c : ControlState Choice Form} {table : List ExpiredControl}
    (h : Desk.Wf { table, changes := c.effort.pending }) {x : ExpiredControl} (hx : x ∈ table)
    (hop : x.operation ≠ .init) {cancelled : Bool} (hc : x.operation = .effort → cancelled = false) :
    ∃ applied, (settleOne x cancelled c).2.effort.applied = c.effort.applied ++ applied ∧
      Desk.Settles { table, changes := c.effort.pending } (settleOne x cancelled c).1 applied
        { table := table.filter fun y => y.id ≠ x.id, changes := (settleOne x cancelled c).2.effort.pending } := by
  set message := expiryMessage x cancelled with hmessage
  by_cases he : x.operation = .effort
  · obtain ⟨y, hy, hyx, -⟩ := h.effort x hx he
    have hcon : c.effort.contains x.id = true := by
      rw [ControlState.mem_effort_pending, ← hyx]
      exact mem_map_of_mem hy
    have hone : settleOne x cancelled c = ((c.effort.conclude x.id .unknown).1.toList ++
        [{ about := [x.id], event := .error message false }],
          { c with effort := (c.effort.conclude x.id .unknown).2 }) := by
      rw [settleOne, hc he, hmessage, hc he]
      simp only [Bool.false_eq_true, if_false, ControlState.expireEffort, hcon, if_true]
      rfl
    rw [hone]
    refine Desk.Settles.conclude h rfl hx he .unknown _ (fun k => ?_) ?_
    · by_cases hk : k = x.id
      · simp [reports, hk]
      · simp [reports, hk, Ne.symm hk]
    · intro notice hn id hid
      obtain rfl := mem_singleton.mp hn
      exact ⟨mem_singleton.mp hid, trivial⟩
  · have hcon : c.effort.contains x.id = false := by
      rw [← Bool.not_eq_true, ControlState.mem_effort_pending]
      intro hid
      obtain ⟨y, hy, hyx⟩ := mem_map.mp hid
      exact he (h.only x hx y hy hyx.symm)
    set event : Event := (failPendingControlOperation message x.operation).getD (.error message false)
      with hevent
    have hone : settleOne x cancelled c = ([{ about := [x.id], event }], c) := by
      have hexp : (if cancelled then (none, c) else c.expireEffort x.id) = (none, c) := by
        cases cancelled <;> simp [ControlState.expireEffort, hcon]
      rw [settleOne, hexp]
      simp only [ControlState.failExpired, hcon, Bool.false_eq_true, if_false]
      cases hf : failPendingControlOperation message x.operation <;>
        simp [failPendingControlOperations, hevent, hmessage ▸ hf, hmessage]
    have hreports : Reports x.operation event := by
      rw [hevent]
      cases hxo : x.operation with
      | init => exact absurd hxo hop
      | effort => exact absurd hxo he
      | other | fileRewind | contextComposition | sessionTitle => trivial
      | sideQuestion question => rfl
    rw [hone]
    refine ⟨[], (append_nil _).symm, ?_⟩
    have := Desk.Settles.drop h hx he (some event) (fun e hm => ?_) fun _ => rfl
    · exact this
    · obtain rfl := Option.some.inj hm
      exact hreports

theorem filter_cons_of_nodup {x : ExpiredControl} {table : List ExpiredControl}
    (h : (keys (x :: table)).Nodup) : (x :: table).filter (fun y => y.id ≠ x.id) = table := by
  rw [keys, map_cons, nodup_cons] at h
  rw [filter_cons_of_neg (by simp), Desk.filter_of_not_mem h.1]

theorem settles_settleExpired (expired : List ExpiredControl) (s : Session Choice Form)
    (h : Desk.Wf { table := expired ++ s.control.desk.table, changes := s.control.effort.pending })
    (hfits : ∀ x ∈ expired, x.Fits)
    (horder : expired.Pairwise fun x y => s.Unsent x = true → y.operation.completes = false)
    (hinit : ∀ x ∈ expired, x.operation = .init → ∀ y ∈ expired ++ s.control.desk.table,
      y.operation.completes = false) :
    SettledFrom { table := expired ++ s.control.desk.table, changes := s.control.effort.pending } s
      (settleExpired expired s).1 (settleExpired expired s).2 := by
  induction expired generalizing s with
  | nil => exact ⟨⟨[], (append_nil _).symm, .of_wf h (by simp [settleExpired])⟩, rfl, .inl rfl, .inl rfl⟩
  | cons x rest ih =>
    obtain ⟨hbehind, horder⟩ := pairwise_cons.mp horder
    have hfilter : (x :: (rest ++ s.control.desk.table)).filter (fun y => y.id ≠ x.id) =
        rest ++ s.control.desk.table := filter_cons_of_nodup h.keys
    have hx : x ∈ x :: rest ++ s.control.desk.table := mem_cons_self
    have hdesk : (keys s.control.desk.table).Nodup := h.keys.sublist ((sublist_append_right _ _).map _)
    have hunsent := s.cancelInput_unsent x
    obtain ⟨process, hs₁⟩ := s.cancelInput_frame x.input
    have hagain := fun y => s.unsent_cancelInput x.input y
    rw [settleExpired]
    generalize s.cancelInput x.input = cancel at hunsent hs₁ hagain ⊢
    obtain ⟨cancelled, s₁⟩ := cancel
    dsimp only at hunsent hs₁ hagain ⊢
    set message := expiryMessage x cancelled
    rw [hunsent]
    by_cases hu : s.Unsent x = true
    · rw [if_pos hu]
      have hrest : ∀ y ∈ x :: rest ++ s.control.desk.table, y.operation.completes = true →
          y ∈ s.control.desk.table := by
        intro y hy hc
        rcases mem_append.mp hy with hy | hy
        · rcases mem_cons.mp hy with rfl | hy
          · rw [← cancelInput_unsent, Bool.and_eq_true, (hfits y mem_cons_self).1 hc] at hu
            cases hu.2
          · rw [hbehind y hy hu] at hc
            cases hc
        · exact hy
      obtain ⟨applied, happ, hempty, hs⟩ := s.control.settles_close h hdesk
        (fun y hy => mem_append_right _ hy) hrest message process.abort.stdin
      rw [hs₁]
      refine ⟨⟨applied, happ, ?_⟩, rfl, .inr hempty, .inl rfl⟩
      have hnotice : ∀ notice ∈ [{ about := [], event := .error (batchMessage message) true : Notice }],
          notice.about = [] := by simp
      have hend := hs.trans (.of_wf hs.wf hnotice)
      rw [append_nil, ← hempty] at hend
      exact hend
    rw [if_neg hu]
    by_cases hop : x.operation = .init
    · rw [if_pos hop]
      have hdrop := Desk.Settles.drop h hx (by simp [hop]) (some (.error message true))
        (fun e he => by obtain rfl := Option.some.inj he; rw [hop]; trivial) fun _ => rfl
      dsimp only at hdrop
      rw [cons_append, hfilter] at hdrop
      have hrest : ∀ y ∈ rest ++ s.control.desk.table, y.operation.completes = true →
          y ∈ s.control.desk.table := by
        intro y hy hc
        rw [hinit x mem_cons_self hop y (mem_cons_of_mem _ hy)] at hc
        cases hc
      obtain ⟨applied, happ, hempty, hs⟩ := s.control.settles_close hdrop.wf hdesk
        (fun y hy => mem_append_right _ hy) hrest message s₁.process.stdin
      rw [hs₁] at hempty happ hs ⊢
      refine ⟨⟨applied, happ, ?_⟩, rfl, .inr hempty, .inl rfl⟩
      have hend := hdrop.trans hs
      rw [← hempty] at hend
      exact hend.perm perm_append_comm
    rw [if_neg hop]
    have hcancelled : x.operation = .effort → cancelled = false := by
      intro he
      rw [← hunsent, (hfits x mem_cons_self).2 he, Bool.and_true] at hu
      simpa using hu
    obtain ⟨applied, happ, hs⟩ := settles_settleOne h hx hop hcancelled (c := s.control)
    obtain ⟨effort, hframe⟩ := settleOne_frame x cancelled s.control
    rw [cons_append, hfilter, hframe] at hs
    have hrest := ih { s₁ with control := { s.control with effort } } hs.wf
      (fun y hy => hfits y (mem_cons_of_mem _ hy))
      (horder.imp fun {y _} himp hy => himp ((hagain y).symm.trans hy))
      fun y hy ho z hz => hinit y (mem_cons_of_mem _ hy) ho z (mem_cons_of_mem _ hz)
    rw [hs₁] at hrest ⊢
    dsimp only at hrest ⊢
    rw [hframe] at happ ⊢
    obtain ⟨applied', happ', hs'⟩ := hrest.desk
    refine ⟨⟨applied ++ applied', ?_, hs.trans hs'⟩, hrest.nextId, hrest.closed, hrest.ready⟩
    rw [happ', ← append_assoc]
    congr 1

/-- No file restore and no side question ran out of time behind a batch that is not sent yet. -/
def ExpiresInOrder (s : Session Choice Form) (now : ℕ) : Prop :=
  (s.control.expired now).1.Pairwise fun x y => s.Unsent x = true → y.operation.completes = false

theorem settled_pollTimeouts (h : s.Sound) {now : ℕ} (horder : s.ExpiresInOrder now) :
    s.Settled (s.pollTimeouts now).1 (s.pollTimeouts now).2 := by
  set left := s.control.pending.filter fun entry => now < entry.2.expiresAt with hleft
  have hperm : ((s.control.expired now).1 ++ left.map ExpiredControl.ofEntry).Perm s.control.desk.table := by
    have hnot : left = s.control.pending.filter fun entry => !decide (entry.2.expiresAt ≤ now) := by
      rw [hleft]
      refine filter_congr fun entry _ => ?_
      rw [← decide_not, decide_eq_decide, Nat.not_le]
    rw [hnot]
    exact (map_append ▸ (filter_append_perm _ s.control.pending).map ExpiredControl.ofEntry)
  have hstart := Desk.Settles.of_table_perm h.wf hperm
  have hmem : ∀ x ∈ (s.control.expired now).1, x ∈ s.control.desk.table :=
    fun x hx => hperm.mem_iff.mp (mem_append_left _ hx)
  have hend := settles_settleExpired (s.control.expired now).1
    { s with control := (s.control.expired now).2 } hstart.wf (fun x hx => h.fits x (hmem x hx)) horder
    fun x hx hop y hy => ?_
  · obtain ⟨applied, happ, hs⟩ := hend.desk
    exact ⟨⟨applied, happ, hstart.trans hs⟩, hend.nextId, hend.closed, hend.ready⟩
  · by_contra hc
    have hx := hmem x hx
    have hready := h.ready y (hperm.mem_iff.mp hy) (by simpa using hc)
    rw [h.waiting ((h.init x hx).mp hop ▸ mem_map_of_mem hx)] at hready
    cases hready

/-! ## The handshake and the other messages -/

variable {notices : List Notice}

theorem SettledFrom.numbered (h : s.Settled notices s') (hs : s.Numbered) : s'.Numbered := by
  obtain ⟨applied, -, hd⟩ := h.desk
  intro id hid
  rw [h.nextId]
  refine hs id (hid.imp (fun hk => ?_) fun hk => hd.changes id hk)
  obtain ⟨x, hx, rfl⟩ := mem_map.mp hk
  exact mem_map_of_mem (hd.table x hx)

theorem SettledFrom.books_of {s'' : Session Choice Form} (h : s.Settled notices s') (hs : s.Numbered)
    (ho : s'.Numbered → s'.Opens s'') : s.Books notices s'' := ⟨s', h, ho (h.numbered hs)⟩

/-- Requests that are owed no event may be dropped. -/
theorem Settled.of_forget (h : s.Sound) (p : ExpiredControl → Bool)
    (hp : ∀ x ∈ s.control.desk.table, p x = false → x.operation.owed = false)
    (hd : s'.control.desk = { s.control.desk with table := s.control.desk.table.filter p })
    (ha : s'.control.effort.applied = s.control.effort.applied)
    (hn : s'.control.nextId = s.control.nextId) (hc : s'.control.closed = s.control.closed)
    (hr : s'.ready = s.ready ∨ (s'.ready = true ∧ ∀ x, p x = true → x.id ≠ initRequestId))
    (hnotices : ∀ notice ∈ notices, notice.about = []) : s.Settled notices s' := by
  have hs := (Desk.Settles.forget h.wf p hp).trans (.of_wf (Desk.Settles.forget h.wf p hp).wf hnotices)
  refine ⟨⟨[], by rw [ha, append_nil], by rw [hd]; exact hs⟩, hn, .inl hc, hr.imp_right fun hr => .inl ⟨hr.1, ?_⟩⟩
  rw [hd]
  intro hk
  obtain ⟨x, hx, hid⟩ := mem_map.mp hk
  exact hr.2 x (mem_filter.mp hx).2 hid

/-- The handshake is over, without an event for its request. -/
theorem settled_complete_init (h : s.Sound) (s' : Session Choice Form) (notices : List Notice)
    (hd : s'.control = s.control.complete initRequestId)
    (hr : s'.ready = s.ready ∨ s'.ready = true) (hnotices : ∀ notice ∈ notices, notice.about = []) :
    s.Settled notices s' := by
  refine .of_forget h (fun x => x.id ≠ initRequestId) (fun x hx hp => ?_) ?_ (by rw [hd]; rfl) (by rw [hd]; rfl)
    (by rw [hd]; rfl) (hr.imp_right fun hr => ⟨hr, by simp⟩) hnotices
  · have hid : x.id = initRequestId := by simpa using hp
    rw [(h.init x hx).mpr hid]
    rfl
  · rw [hd, ControlState.desk_complete]

/-- The handshake is over, with an event for its request. -/
theorem settled_answer_init (h : s.Sound) (s' : Session Choice Form)
    (hopen : s.control.contains .init = true) (event : Event) (hevent : Reports .init event) (hd : s'.control = s.control.complete initRequestId)
    (hr : s'.ready = s.ready ∨ s'.ready = true) :
    s.Settled [{ about := [initRequestId], event }] s' := by
  obtain ⟨entry, hentry, hop⟩ := any_eq_true.mp hopen
  have hx : ExpiredControl.ofEntry entry ∈ s.control.desk.table := mem_map_of_mem hentry
  have hop : (ExpiredControl.ofEntry entry).operation = .init := of_decide_eq_true hop
  have hid := (h.init _ hx).mp hop
  have hs := Desk.Settles.drop h.wf hx (by simp [hop]) (some event)
    (fun e he => by obtain rfl := Option.some.inj he; rw [hop]; exact hevent) fun _ => rfl
  rw [hid, ← ControlState.desk_complete, ← hd] at hs
  refine ⟨⟨[], by rw [hd, append_nil]; rfl, hs⟩, by rw [hd]; rfl, .inl (by rw [hd]; rfl),
    hr.imp_right fun hr => .inl ⟨hr, ?_⟩⟩
  rw [hd, ControlState.desk_complete]
  intro hk
  obtain ⟨x, hx, hid⟩ := mem_map.mp hk
  simpa [hid] using (mem_filter.mp hx).2

/-- A change of the prompts, of the turn or of the input. -/
theorem Sound.frame (h : s.Sound) (hd : s'.control.desk = s.control.desk)
    (ha : s'.control.effort.applied = s.control.effort.applied)
    (hn : s'.control.nextId = s.control.nextId) (hc : s'.control.closed = s.control.closed)
    (hr : s'.ready = s.ready) (hnotices : ∀ notice ∈ notices, notice.about = []) : s.Books notices s' :=
  (Settled.of_eq h.wf hd ha hn hc hr hnotices).books

theorem books_trySend (h : s.Sound) (message : Json) : s.Books [] (s.trySend message).2 := by
  rcases s.trySend_cases message with ⟨-, p, he, -, -⟩ | ⟨-, e, p, he, -⟩
  all_goals
    rw [he]
    exact h.frame rfl rfl rfl rfl rfl (by simp)

theorem books_sendDialogReply (h : s.Sound) (id : Str) (response : Json) :
    s.Books [] (s.sendDialogReply id response).2 := by
  unfold sendDialogReply
  rcases s.trySend_cases (successResponse id response) with ⟨-, p, he, -, -⟩ | ⟨-, e, p, he, -⟩
  all_goals
    rw [he]
    exact h.frame rfl rfl rfl rfl rfl (by simp)

/-- Some of the new requests are dropped at once. -/
theorem opening_filter {n n' : ℕ} {ready : Bool} {opened : List ExpiredControl} {changes : List Change}
    (h : Opening n n' ready opened changes) (p : ExpiredControl → Bool)
    (hp : ∀ x ∈ opened, x.operation = .effort → p x = true) :
    Opening n n' ready (opened.filter p) changes := by
  have hmem : ∀ x ∈ opened.filter p, x ∈ opened := fun x hx => (mem_filter.mp hx).1
  refine ⟨h.mono, fun x hx => h.ids x (hmem x hx), h.nodup.sublist (filter_sublist.map _),
    fun x hx => h.operation x (hmem x hx), fun x hx => h.ready x (hmem x hx), fun x hx => h.fits x (hmem x hx),
    fun x hx => h.question x (hmem x hx), ?_, h.unanswered⟩
  rw [h.effort, filter_filter]
  congr 1
  refine filter_congr fun x hx => ?_
  by_cases he : x.operation = .effort
  · simp [he, hp x hx he]
  · simp [he]

/-- A generated title that is still asked for is not wanted any more. -/
theorem books_renameSession (h : s.Sound) (title : Str) (now : ℕ) :
    s.Books [] (s.renameSession title now).2 := by
  unfold renameSession
  dsimp only
  split_ifs
  · exact (Settled.refl h.wf (by simp)).books
  · set request : Json := .object [("subtype", .text "rename_session"), ("title", .string (trim title))]
    have ho : s.Opens (s.sendControl request .other now).2 :=
      opens_sendControl h.numbered _ (by simp) (by simp [PendingControlOperation.completes]) (by simp) now
    generalize s.sendControl request .other now = sent at ho ⊢
    obtain ⟨sent, s₁⟩ := sent
    cases sent with
    | error e => exact ho.books h.wf
    | ok id =>
      obtain ⟨opened, changes, hdesk, hopen, hclosed, happ, hcl, hready⟩ := ho
      dsimp only at hdesk hopen happ hcl hready ⊢
      set keep := fun x : ExpiredControl => !decide (x.operation = .sessionTitle) with hkeep
      have htable : ∀ c : ControlState Choice Form, ∀ stdin, (c.cancelGeneratedTitle stdin).1.desk =
          { c.desk with table := c.desk.table.filter keep } := by
        intro c stdin
        simp only [ControlState.cancelGeneratedTitle, ControlState.desk, filter_map]
        rfl
      have hset : s.Settled [] { s with control := (s.control.cancelGeneratedTitle s.process.stdin).1 } := by
        refine .of_forget h keep (fun x _ hx => ?_) (htable _ s.process.stdin) rfl rfl rfl (.inl rfl) (by simp)
        have : x.operation = .sessionTitle := by simpa [hkeep] using hx
        rw [this]
        rfl
      refine ⟨_, hset, opened.filter keep, changes, ?_, ?_, fun hc => ?_, happ, hcl, hready⟩
      · dsimp only
        rw [htable, hdesk, htable, filter_append]
      · exact opening_filter hopen keep fun x _ he => by simp [hkeep, he]
      · rw [hclosed hc]
        rfl

theorem books_respondApproval (h : s.Sound) (decision : Str) (now : ℕ) :
    s.Books [] (s.respondApproval decision now).2 := by
  unfold respondApproval
  cases s.control.pendingApproval with
  | none => exact (Settled.refl h.wf (by simp)).books
  | some pending =>
    dsimp only
    rcases s.trySend_cases (successResponse pending.requestId (approvalResponse decision pending)) with
      ⟨-, p, he, -, -⟩ | ⟨-, e, p, he, -⟩
    · rw [he]
      dsimp only
      have hs : s.Settled [] { s with process := p, control := { s.control with pendingApproval := none } } :=
        .of_eq h.wf rfl rfl rfl rfl rfl (by simp)
      split_ifs
      · exact hs.books_of h.numbered fun hn => opens_interrupt hn now
      · exact hs.books
    · rw [he]
      exact h.frame rfl rfl rfl rfl rfl (by simp)

theorem books_declineInput (h : s.Sound) (id : Str) : s.Books [] (s.declineInput id).2 := by
  unfold declineInput
  cases s.control.dialogs.decline id with
  | error e => exact (Settled.refl h.wf (by simp)).books
  | ok response => exact books_sendDialogReply h id response

theorem books_onToolRequest (h : s.Sound) (id : Str) (request : Json) :
    s.Books (s.onToolRequest id request).1 (s.onToolRequest id request).2 := by
  unfold onToolRequest
  dsimp only
  split_ifs
  · exact h.frame rfl rfl rfl rfl rfl (by simp)
  · exact h.frame rfl rfl rfl rfl rfl (by simp)
  · refine h.frame rfl rfl rfl rfl rfl fun notice hn => ?_
    rcases mem_append.mp hn with hn | hn
    · obtain ⟨-, -, rfl⟩ := Option.map_eq_some_iff.mp (Option.mem_toList.mp hn)
      rfl
    · obtain rfl := mem_singleton.mp hn
      rfl
  -- With suggestions and without.
  all_goals exact h.frame rfl rfl rfl rfl rfl (by simp)

theorem nextId_resolve (c : ControlState Choice Form) (response : Json) :
    (c.resolve response).2.nextId = c.nextId := by
  unfold ControlState.resolve
  split
  · rfl
  · dsimp only
    split <;> rfl

/-- An answer that names the handshake comes while the handshake is open, if it is read at all. -/
def AnswersOnce (s : Session Choice Form) (message : Json) : Prop :=
  ((message.get "response").get "request_id").asStr = some initRequestId →
    ((message.get "response").get "subtype").isText "error" = true ∨ s.ready = false →
      s.control.contains .init = true

theorem books_onControlResponse (h : s.Sound) (configured : Option Str) {message : Json}
    (hone : s.AnswersOnce message) (now : ℕ) :
    s.Books (s.onControlResponse configured message now).1 (s.onControlResponse configured message now).2 := by
  unfold onControlResponse
  dsimp only
  by_cases hid : ((message.get "response").get "request_id").asStr = some initRequestId
  · rw [if_pos hid]
    by_cases he : ((message.get "response").get "subtype").isText "error"
    · rw [if_pos he]
      set error := ((message.get "response").get "error").asStr.getD "unknown Claude control error".toList
      exact (settled_answer_init h { s with control := s.control.complete initRequestId } (hone hid (.inl he))
        (.error error true) trivial rfl (.inl rfl)).books
    rw [if_neg he]
    by_cases hr : s.ready
    · rw [if_pos hr]
      exact (settled_complete_init h { s with control := s.control.complete initRequestId } [] rfl (.inl rfl)
        (by simp)).books
    · rw [if_neg hr]
      set model := s.appliedModel.getD "default".toList
      set permission := (s.appliedPermission.or configured).getD "default".toList
      set opened : Session Choice Form := { s with
        control := s.control.complete initRequestId
        ready := true
        appliedModel := some model
        appliedPermission := some permission }
      have hset := settled_answer_init h opened (hone hid (.inr (by simpa using hr)))
        (.ready { model := some model, approval := some permission, effort := none }) trivial rfl (.inr rfl)
      exact hset.books_of h.numbered fun hn => opens_requestContextComposition hn now
  · rw [if_neg hid]
    have hs := s.control.settles_resolve h.wf (message.get "response")
    have hn := nextId_resolve s.control (message.get "response")
    have hc : (s.control.resolve (message.get "response")).2.closed = s.control.closed :=
      ControlState.samePrompts_resolve.closed
    generalize s.control.resolve (message.get "response") = r at hs hn hc ⊢
    obtain ⟨event, control⟩ := r
    exact (show s.Settled event.toList { s with control } from ⟨hs, hn, .inl hc, .inl rfl⟩).books

theorem books_onInit (h : s.Sound) (message : Json) (now : ℕ) :
    s.Books (s.onInit message now).1 (s.onInit message now).2 := by
  set opened : Session Choice Form := { s with
    control := s.control.complete initRequestId
    ready := true
    appliedModel := if s.ready then s.appliedModel else (message.get "model").asStr
    appliedPermission := (message.get "permissionMode").asStr }
  have hset := settled_complete_init h opened (s.onInit message now).1 rfl (.inr rfl) (by simp [onInit])
  exact hset.books_of h.numbered fun hn => opens_requestContextComposition hn now

theorem books_onSystem (h : s.Sound) (message : Json) (now : ℕ) :
    s.Books (s.onSystem message now).1 (s.onSystem message now).2 := by
  unfold onSystem
  dsimp only
  by_cases hi : (message.get "subtype").isText "init"
  · rw [if_pos hi]
    exact books_onInit h message now
  rw [if_neg hi]
  split
  · split
    · exact h.frame rfl rfl rfl rfl rfl (by simp)
    · exact h.frame rfl rfl rfl rfl rfl (by simp)
  · exact h.frame rfl rfl rfl rfl rfl (by simp)

theorem about_finishTurn {c : ControlState Choice Form} {notice : Notice} (hn : notice ∈ c.finishTurn.1) :
    notice.about = [] := by
  simp only [ControlState.finishTurn, mem_append, mem_map, Option.mem_toList,
    Option.map_eq_some_iff] at hn
  obtain (⟨-, -, rfl⟩ | ⟨-, -, rfl⟩) | ⟨-, -, rfl⟩ := hn <;> rfl

theorem books_onResult (h : s.Sound) (now : ℕ) : s.Books (s.onResult now).1 (s.onResult now).2 := by
  have hset : s.Settled (s.onResult now).1 { s with control := s.control.finishTurn.2, turn := .idle } :=
    .of_eq h.wf rfl rfl rfl rfl rfl fun notice hn => about_finishTurn hn
  exact hset.books_of h.numbered fun hn => opens_requestContextComposition hn now

theorem books_onCancelRequest (h : s.Sound) (id : Str) :
    s.Books (s.onCancelRequest id).1 (s.onCancelRequest id).2 := by
  refine h.frame rfl rfl rfl rfl rfl fun notice hn => ?_
  simp only [onCancelRequest, ControlState.cancelPrompt, mem_append, Option.mem_toList,
    Option.map_eq_some_iff] at hn
  obtain ⟨-, -, rfl⟩ | hn | hn := hn
  · rfl
  · split_ifs at hn
    · obtain rfl := mem_singleton.mp hn
      rfl
    · cases hn
  · split_ifs at hn
    · obtain rfl := mem_singleton.mp hn
      rfl
    · cases hn

/-- Nothing stays open when the session is closed. -/
theorem books_of_close (h : s.Sound) (message : Str)
    (hd : s'.control = (s.control.close message s.process.stdin).2.1) :
    s.Books (s.control.close message s.process.stdin).1 s' := by
  obtain ⟨applied, happ, hempty, hs⟩ := s.control.settles_close h.wf h.wf.keys (fun _ => id) (fun _ hx _ => hx)
    message s.process.stdin
  rw [← hd] at happ hempty
  have hset : s.Settled (s.control.close message s.process.stdin).1 s' := by
    refine ⟨⟨applied, happ, ?_⟩, by rw [hd]; rfl, .inr hempty, .inr (.inr (by rw [hempty]))⟩
    rw [hempty]
    exact hs
  exact hset.books

theorem books_onExit (h : s.Sound) : s.Books s.onExit.1 s.onExit.2 :=
  books_of_close h "Claude exited before the control request completed.".toList rfl

theorem books_shutdown (h : s.Sound) (force : Bool) : s.Books (s.shutdown force).1 (s.shutdown force).2 := by
  cases force with
  | true => exact books_of_close h "Claude exited before the control request completed.".toList rfl
  | false => exact h.frame rfl rfl rfl rfl rfl (by simp [shutdown])

section

variable [ChoiceDialog Choice] [Elicitation Form]

theorem books_respondInput (h : s.Sound) (id : Str) (answers : Option (List QuestionAnswer)) :
    s.Books [] (s.respondInput id answers).2 := by
  have hrefl : s.Books [] s := (Settled.refl h.wf (by simp)).books
  unfold respondInput
  split_ifs
  · cases s.control.dialogs.respond id answers with
    | error e => exact hrefl
    | ok response => exact books_sendDialogReply h id response
  · cases s.control.pendingQuestions with
    | none => exact hrefl
    | some pending =>
      dsimp only
      split_ifs
      · exact hrefl
      · exact hrefl
      · rcases s.trySend_cases (successResponse pending.requestId (questionsResponse answers pending)) with
          ⟨-, p, he, -, -⟩ | ⟨-, e, p, he, -⟩
        all_goals
          rw [he]
          exact h.frame rfl rfl rfl rfl rfl (by simp)

theorem books_onControlRequest (h : s.Sound) (message : Json) :
    s.Books (s.onControlRequest message).1 (s.onControlRequest message).2 := by
  unfold onControlRequest
  dsimp only
  split_ifs
  · rcases s.control.dialogs.receive (controlRequestId message) (message.get "request") with
      ⟨e | (_ | question), dialogs⟩
    all_goals exact h.frame rfl rfl rfl rfl rfl (by simp)
  · exact books_onToolRequest h _ _

theorem books_onMessage (h : s.Sound) (configured : Option Str) {message : Json}
    (hone : (message.get "type").isText "control_response" = true → s.AnswersOnce message) (now : ℕ) :
    s.Books (s.onMessage configured message now).1 (s.onMessage configured message now).2 := by
  have hrefl : s.Books [] s := (Settled.refl h.wf (by simp)).books
  unfold onMessage
  dsimp only
  split_ifs with h₁ h₂ h₃ h₄ h₅
  · exact books_onSystem h message now
  · exact books_onResult h now
  · exact books_onControlRequest h message
  · exact books_onControlResponse h configured (hone h₄) now
  · cases (message.get "request_id").asStr with
    | none => exact hrefl
    | some id => exact books_onCancelRequest h id
  · exact hrefl

/-- No poll stops before a completion that it owes, and the handshake is answered at most once. -/
def Orderly (s : Session Choice Form) : Call → Prop
  | .pollTimeouts now => s.ExpiresInOrder now
  | .handle _ message now => s.control.closed = false →
      if (message.get "method").isText timeoutMethod then s.ExpiresInOrder now
      else (message.get "method").isText progressMethod = false →
        (message.get "type").isText "control_response" = true → s.AnswersOnce message
  | _ => True

theorem books_handle (h : s.Sound) {configured : Option Str} {message : Json} {now : ℕ}
    (ho : s.Orderly (.handle configured message now)) :
    s.Books (s.handle configured message now).1 (s.handle configured message now).2 := by
  have hrefl : s.Books [] s := (Settled.refl h.wf (by simp)).books
  unfold handle
  by_cases hc : s.control.closed
  · rw [if_pos hc]
    exact hrefl
  rw [if_neg hc]
  have ho := ho (by simpa using hc)
  by_cases ht : (message.get "method").isText timeoutMethod
  · rw [if_pos ht] at ho ⊢
    exact (settled_pollTimeouts h ho).books
  rw [if_neg ht] at ho ⊢
  by_cases hp : (message.get "method").isText progressMethod
  · rw [if_pos hp]
    exact hrefl
  rw [if_neg hp]
  have h' : ({ s with turn := s.turn.observe message } : Session Choice Form).Sound :=
    ⟨h.wf, h.numbered, h.fits, h.init, h.waiting, h.ready, h.question, h.closed⟩
  obtain ⟨s₁, hset, hopen⟩ := books_onMessage h' configured (ho (by simpa using hp)) now
  exact ⟨s₁, ⟨hset.desk, hset.nextId, hset.closed, hset.ready⟩, hopen⟩

/-- **What one call does to the requests.** -/
theorem books_perform (h : s.Sound) {call : Call} (hf : s.Feasible call) (ho : s.Orderly call) :
    s.Books (s.perform call).1 (s.perform call).2 := by
  have hframe : ∀ {s' : Session Choice Form}, s'.control = s.control → s'.ready = s.ready → s.Books [] s' := by
    intro s' hc hr
    exact h.frame (by rw [hc]) (by rw [hc]) (by rw [hc]) (by rw [hc]) hr (by simp)
  cases call with
  | handle configured message now => exact books_handle h ho
  | sendUserMessage text settings images now =>
    exact (opens_sendUserMessage h.numbered text settings images now).books h.wf
  | executeSlashCommand name arguments =>
    have hs : (s.executeSlashCommand name arguments).2.control = s.control ∧
        (s.executeSlashCommand name arguments).2.ready = s.ready := by
      unfold executeSlashCommand
      split
      · exact ⟨rfl, rfl⟩
      · split <;> exact ⟨rfl, rfl⟩
    exact hframe hs.1 hs.2
  | requestContextComposition now => exact (opens_requestContextComposition h.numbered now).books h.wf
  | requestSessionTitle description now => exact (opens_requestSessionTitle h.numbered description now).books h.wf
  | renameSession title now => exact books_renameSession h title now
  | askSideQuestion question history now => exact (opens_askSideQuestion h.numbered question history now).books h.wf
  | cancelSideQuestion id => exact books_trySend h _
  | rewindFiles id now => exact (opens_rewindFiles h.numbered id now).books h.wf
  | interrupt now => exact (opens_interrupt h.numbered now).books h.wf
  | interruptBackgroundTask id now => exact (opens_interruptBackgroundTask h.numbered id now).books h.wf
  | respondApproval decision now => exact books_respondApproval h decision now
  | respondInput id answers => exact books_respondInput h id answers
  | declineInput id => exact books_declineInput h id
  | pollTimeouts now => exact (settled_pollTimeouts h ho).books
  | onExit => exact books_onExit h
  | shutdown force => exact books_shutdown h force
  | recv | writerStopped | kill => exact hframe rfl rfl
  | rehash order =>
    have hs := Desk.Settles.of_table_perm h.wf (List.Perm.map ExpiredControl.ofEntry hf)
    have hset : s.Settled [] { s with control := { s.control with pending := order } } :=
      ⟨⟨[], (append_nil _).symm, hs⟩, rfl, .inl rfl, .inl rfl⟩
    exact hset.books

end

end Session

end NiumaTerm.ClaudeCode
