import NiumaTerm.Team.Coherence
import NiumaTerm.Team.Runs

/-!
# Work is sent at most once

No run hands an attempt, or the operation of an arrangement, to a transport twice (`sent_once`).  Apart from
the two operations that are about it, no change starts a turn or publishes a reply (`Room.Step.tame`).
-/

namespace NiumaTerm.Team

open Growth Transition List

/-! ## Turns that start and replies that are published -/

/-- Nothing runs, and nothing was published. -/
def AttemptState.Idle (a : AttemptState) : Prop := a.inFlight = false ∧ ∀ m, a ≠ .completed m

/-- The attempt neither starts a turn nor publishes a reply. -/
structure Attempt.Tame (t t' : Attempt) : Prop where
  id : t'.id = t.id
  intent : t'.intent = t.intent
  flight : t'.state.inFlight = true → t.state.inFlight = true
  reply : ∀ m, t'.state = .completed m → t.state = .completed m

/-- No attempt of the room starts a turn or publishes a reply.  What is new was meant to be sent. -/
structure Room.Tame (N : DispatchIntent → Prop) (r r' : Room) : Prop where
  attempts : Grows Attempt.Tame (fun t => t.state.Idle ∧ N t.intent) r.attempts r'.attempts
  messages : ∀ m ∈ r'.messages, m.author = .user ∨ m ∈ r.messages

namespace Attempt.Tame

theorem refl (t : Attempt) : t.Tame t := ⟨rfl, rfl, fun h => h, fun _ h => h⟩

theorem trans {t t' t'' : Attempt} (h : t.Tame t') (h' : t'.Tame t'') : t.Tame t'' :=
  ⟨h'.id.trans h.id, h'.intent.trans h.intent, fun hf => h.flight (h'.flight hf),
    fun m hm => h.reply m (h'.reply m hm)⟩

theorem idle {t t' : Attempt} (h : t.Tame t') (ht : t.state.Idle) : t'.state.Idle := by
  refine ⟨?_, fun m hm => ht.2 m (h.reply m hm)⟩
  by_contra hf
  rw [Bool.not_eq_false] at hf
  exact Bool.false_ne_true (ht.1.symm.trans (h.flight hf))

end Attempt.Tame

namespace Room.Tame

variable {N : DispatchIntent → Prop} {r q : Room}

theorem of_messages
    (ha : Grows Attempt.Tame (fun t => t.state.Idle ∧ N t.intent) r.attempts q.attempts)
    (hm : q.messages = r.messages) : Tame N r q :=
  ⟨ha, fun _ hmem => .inr (hm ▸ hmem)⟩

theorem trans {r' : Room} (h : Tame N r q) (h' : Tame N q r') : Tame N r r' where
  attempts := h.attempts.trans h'.attempts (fun _ _ _ => Attempt.Tame.trans)
    fun _ _ ht h => ⟨h.idle ht.1, by rw [h.intent]; exact ht.2⟩
  messages m hm := (h'.messages m hm).elim .inl (h.messages m)

/-- Attempts that change in place. -/
theorem of_map {f : Attempt → Attempt} (hf : ∀ t ∈ r.attempts, t.Tame (f t))
    (ha : q.attempts = r.attempts.map f) (hm : q.messages = r.messages) : Tame N r q :=
  of_messages (by rw [ha]; exact .map hf) hm

/-- The outcome of an attempt in flight, other than a reply. -/
theorem settle (hn : (r.attempts.map Attempt.id).Nodup) {t : Attempt} (ht : t ∈ r.attempts)
    (hf : t.state.inFlight = true) {change : Attempt → Attempt} {mark : Discussion → Discussion}
    (hc : (change t).id = t.id ∧ (change t).intent = t.intent ∧ ∀ m, (change t).state ≠ .completed m) :
    Tame N r (r.settle t change mark) := by
  refine of_map (fun u hu => ?_) (settle_attempts _ _ _) (settle_messages _ _ _)
  split
  · next hid =>
    obtain rfl := inj_on_of_nodup_map hn hu ht hid
    exact ⟨hc.1, hc.2.1, fun _ => hf, fun m hm => absurd hm (hc.2.2 m)⟩
  · exact .refl u

theorem cancelReservations {id : DiscussionId} {f : Discussion → Discussion} :
    Tame N r ((r.cancelReservations id).modifyDiscussion id f) := by
  refine of_map (fun t _ => ?_) rfl rfl
  dsimp only
  split
  · exact ⟨rfl, rfl, nofun, nofun⟩
  · exact .refl t

end Room.Tame

/-- The room in which a reserved attempt is sent: its recipient was idle. -/
structure Room.Starts (r r' : Room) (t : Attempt) : Prop where
  mem : t ∈ r.attempts
  reserved : t.state = .reserved
  idle : ∀ u ∈ r.attempts, u.intent.recipient = t.intent.recipient → u.state.inFlight = false
  attempts : r'.attempts = r.attempts.map fun u => if u.id = t.id then { u with state := .sending } else u
  messages : r'.messages = r.messages

/-- The room in which the reply of an accepted turn is published. -/
structure Room.Publishes (r r' : Room) (t : Attempt) (reply : PublicMessage) : Prop where
  mem : t ∈ r.attempts
  accepted : t.state = .accepted
  author : ∃ name, reply.author = .member t.intent.recipient name
  attempts : r'.attempts =
    r.attempts.map fun u => if u.id = t.id then { u with state := .completed reply.id } else u
  messages : r'.messages = r.messages ++ [reply]

section

variable [TeamText] {n : ℕ} {op : Operation} {r r' : Room}

/-- **A change starts a turn, publishes a reply, or does neither.** -/
theorem Room.Step.tame (h : r.Step n op r') :
    Tame (fun intent => r.Asks n intent ∧ intent.Shows r) r r' ∨ (∃ t, r.Starts r' t) ∨ ∃ t reply, r.Publishes r' t reply := by
  obtain ⟨hv, hv', hb, hc⟩ := h
  have hn := hv.attempts_nodup
  cases hc with
  | quiet hq => exact .inl (.of_messages (by rw [hq.attempts]; exact .refl fun t _ => .refl t) hq.messages)
  | reopened =>
    refine .inl (.of_map (fun t _ => ?_) rfl rfl)
    dsimp only
    split
    · next hrun => exact ⟨rfl, rfl, fun _ => AttemptState.inFlight_of_isRunning hrun, by simp⟩
    · exact .refl t
  | ready _ ho hon h =>
    refine .inl (Room.fails_induction h hon hn ho ?_ fun q t q' hq ht hf hp h => hp.trans ?_)
    · exact .of_messages (.refl fun t _ => .refl t) rfl
    · rw [Room.fail_ok h]
      exact .settle hq ht hf ⟨rfl, rfl, by simp⟩
  | excluded _ h =>
    rw [Room.excludeMember_ok h]
    exact .inl (.of_messages (.refl fun t _ => .refl t) rfl)
  | reserved _ _ _ hi h =>
    obtain ⟨rfl, -⟩ := Room.reserve_ok h
    refine .inl (.of_messages (.append (fun t _ => .refl t) fun t ht => ?_) rfl)
    obtain ⟨⟨intent, i⟩, hmem, rfl⟩ := mem_map.mp ht
    obtain ⟨hasks, hshows, -⟩ := hi intent (fst_mem_of_mem_zipIdx hmem)
    exact ⟨⟨rfl, fun _ h => by cases h⟩, hasks, hshows⟩
  | prepared t _ ht _ _ hidle h =>
    obtain ⟨u, hu, hs, -, h⟩ := Room.prepare_ok h
    obtain rfl := Option.some.inj (ht.symm.trans hu)
    obtain ⟨hmem, rfl⟩ := TeamSession.id_of_attempt ht
    rcases h with ⟨-, -, -, -, -, -, -, -, rfl⟩ | ⟨-, rfl⟩
    · exact .inr (.inl ⟨t, hmem, hs, hidle, settle_attempts _ _ _, settle_messages _ _ _⟩)
    · exact .inr (.inl ⟨t, hmem, hs, hidle, rfl, rfl⟩)
  | finished h =>
    obtain ⟨t, ht, hs, h'⟩ := Room.finish_ok h
    clear h
    rcases h' with ⟨-, rfl⟩ | rfl
    all_goals
      exact .inl (.settle hn (TeamSession.id_of_attempt ht).1 (by rw [hs]; rfl) ⟨rfl, rfl, by simp⟩)
  | accepted t ht ha h =>
    have hmem := (Room.eventAttempt_some ht).1
    have hflight := Attempt.inFlight_of_accepts ha
    rcases Room.accept_ok h with ⟨-, rfl⟩ | ⟨-, rfl⟩
    · exact .inl (.settle hn hmem hflight ⟨rfl, rfl, by simp⟩)
    · refine .inl (.of_map (fun u hu => ?_) rfl rfl)
      split
      · next hid =>
        obtain rfl := hv.attempt_eq hu hmem hid
        exact ⟨rfl, rfl, fun _ => hflight, by simp⟩
      · exact .refl u
  | @completed _ _ text _ _ t _ ht hc h =>
    obtain ⟨m, hm, rfl, rfl⟩ := Room.complete_ok h
    have hs := Attempt.accepted_of_completes hc
    have hid : m.id = t.intent.recipient := by simpa using find?_some hm
    exact .inr (.inr ⟨t, replyOf t m text n, (Room.eventAttempt_some ht).1, hs,
      ⟨m.name, by rw [← hid]; rfl⟩, settle_attempts _ _ _, settle_messages _ _ _⟩)
  | failed _ ht hf h =>
    rw [Room.fail_ok h]
    refine .inl (.settle hn (Room.eventAttempt_some ht).1 hf ⟨rfl, rfl, fun m => ?_⟩)
    dsimp only
    split <;> simp
  | abandoned hx h =>
    obtain ⟨t, ht, rfl, hf⟩ := hx
    rw [Room.abandon_ok h]
    refine .inl (.of_map (fun u hu => ?_) rfl rfl)
    split
    · exact ⟨rfl, rfl, (fun h => by cases h), by simp⟩
    · exact .refl u
  | started _ _ h =>
    obtain ⟨-, -, rfl, -⟩ := Room.createDiscussion_ok h
    refine .inl ⟨.refl fun t _ => .refl t, fun m hm => ?_⟩
    rcases mem_append.mp hm with hm | hm
    · exact .inr hm
    · rw [mem_singleton.mp hm]
      exact .inl rfl
  | userInput =>
    refine .inl ⟨.refl fun t _ => .refl t, fun m hm => ?_⟩
    rcases mem_append.mp hm with hm | hm
    · exact .inr hm
    · rw [mem_singleton.mp hm]
      exact .inl rfl
  | stageOpened | decided => exact .inl (.of_messages (.refl fun t _ => .refl t) rfl)
  | continued | modeChanged | finishing =>
    exact .inl .cancelReservations

end

/-! ## One turn at a time, and a reply for each turn -/

/-- A member has at most one attempt in flight. -/
def Room.Exclusive (r : Room) : Prop := ∀ t ∈ r.attempts, ∀ u ∈ r.attempts,
  t.state.inFlight = true → u.state.inFlight = true → t.intent.recipient = u.intent.recipient → t = u

/-- The messages of members are the replies of completed attempts, each of one of them. -/
structure Room.Answered (r : Room) : Prop where
  replies : ∀ t ∈ r.attempts, ∀ id, t.state = .completed id →
    ∃! m, m ∈ r.messages ∧ m.id = id ∧ ∃ name, m.author = .member t.intent.recipient name
  turns : ∀ m ∈ r.messages, ∀ member name, m.author = .member member name →
    ∃! t, t ∈ r.attempts ∧ t.state = .completed m.id

section

variable {n : ℕ} {op : Operation} {r r' : Room}

theorem Room.Tame.exclusive {N : DispatchIntent → Prop} (h : Tame N r r') (hr : r.Exclusive) (hv : r'.Valid) : r'.Exclusive := by
  intro t' ht' u' hu' hft hfu he
  obtain ⟨t, ht, htt⟩ | hidle := h.attempts.of_mem ht'
  · obtain ⟨u, hu, huu⟩ | hidle := h.attempts.of_mem hu'
    · rw [htt.intent, huu.intent] at he
      obtain rfl := hr t ht u hu (htt.flight hft) (huu.flight hfu) he
      exact hv.attempt_eq ht' hu' (htt.id.trans huu.id.symm)
    · rw [hidle.1.1] at hfu
      cases hfu
  · rw [hidle.1.1] at hft
    cases hft

variable {t : Attempt} {id : MessageId}

theorem Room.Starts.exclusive (h : r.Starts r' t) (hr : r.Exclusive) (hv : r.Valid) :
    r'.Exclusive := by
  have hother (u : Attempt) (hu : u ∈ r.attempts) (hne : u.id ≠ t.id)
      (hf : u.state.inFlight = true) : u.intent.recipient ≠ t.intent.recipient := by
    intro he
    rw [h.idle u hu he] at hf
    cases hf
  intro a ha b hb hfa hfb he
  rw [h.attempts] at ha hb
  obtain ⟨u, hu, rfl⟩ := mem_map.mp ha
  obtain ⟨w, hw, rfl⟩ := mem_map.mp hb
  by_cases hut : u.id = t.id <;> by_cases hwt : w.id = t.id
  · obtain rfl := hv.attempt_eq hu hw (hut.trans hwt.symm)
    rfl
  · obtain rfl := hv.attempt_eq hu h.mem hut
    rw [if_pos rfl, if_neg hwt] at he
    rw [if_neg hwt] at hfb
    exact absurd he.symm (hother w hw hwt hfb)
  · obtain rfl := hv.attempt_eq hw h.mem hwt
    rw [if_pos rfl, if_neg hut] at he
    rw [if_neg hut] at hfa
    exact absurd he (hother u hu hut hfa)
  · rw [if_neg hut] at hfa he ⊢
    rw [if_neg hwt] at hfb he ⊢
    exact hr u hu w hw hfa hfb he

/-- What is in flight after a reply was so before. -/
theorem Room.Publishes.mem_of_inFlight {t u' : Attempt} {reply : PublicMessage}
    (h : r.Publishes r' t reply) (hu' : u' ∈ r'.attempts) (hf : u'.state.inFlight = true) :
    u' ∈ r.attempts := by
  rw [h.attempts] at hu'
  obtain ⟨u, hu, rfl⟩ := mem_map.mp hu'
  split at hf
  · cases hf
  · next hne =>
    rw [if_neg hne]
    exact hu

theorem Room.Step.exclusive [TeamText] (h : r.Step n op r') (hr : r.Exclusive) : r'.Exclusive := by
  rcases h.tame with ht | ⟨t, ht⟩ | ⟨t, reply, hp⟩
  · exact ht.exclusive hr h.valid'
  · exact ht.exclusive hr h.valid
  · exact fun a ha b hb hfa hfb =>
      hr a (hp.mem_of_inFlight ha hfa) b (hp.mem_of_inFlight hb hfb) hfa hfb

theorem Room.Valid.exists_reply (hv : r.Valid) (ht : t ∈ r.attempts)
    (hs : t.state = .completed id) :
    ∃ m ∈ r.messages, m.id = id ∧ ∃ name, m.author = .member t.intent.recipient name := by
  have hreply := hv.replies t ht
  simp only [missingReply, hs, Bool.not_eq_false', any_eq_true, Bool.and_eq_true,
    decide_eq_true_eq] at hreply
  obtain ⟨m, hm, hid, hauthor⟩ := hreply
  refine ⟨m, hm, hid, ?_⟩
  rw [isReplyOf] at hauthor
  split at hauthor
  · next author name ha => exact ⟨name, by rw [ha, of_decide_eq_true hauthor]⟩
  · cases hauthor

theorem Room.Valid.existsUnique_reply (hv : r.Valid) (ht : t ∈ r.attempts) (hs : t.state = .completed id) :
    ∃! m, m ∈ r.messages ∧ m.id = id ∧ ∃ name, m.author = .member t.intent.recipient name := by
  obtain ⟨m, hm, hid, hauthor⟩ := hv.exists_reply ht hs
  exact ⟨m, ⟨hm, hid, hauthor⟩, fun m' h =>
    inj_on_of_nodup_map hv.messages_nodup h.1 hm (h.2.1.trans hid.symm)⟩

/-- The attempt that a message replies to stays the only one. -/
theorem Room.Evolves.existsUnique_turn (h : r.Evolves n r') (hv' : r'.Valid)
    (hback : ∀ u' ∈ r'.attempts, u'.state = .completed id →
      ∃ u ∈ r.attempts, u.id = u'.id ∧ u.state = .completed id)
    (ht : ∃! t, t ∈ r.attempts ∧ t.state = .completed id) :
    ∃! t, t ∈ r'.attempts ∧ t.state = .completed id := by
  obtain ⟨t, ⟨hmem, hs⟩, hu⟩ := ht
  obtain ⟨t', hmem', he⟩ := h.attempts.exists_of_mem hmem
  refine ⟨t', ⟨hmem', ?_⟩, fun u' ⟨hu', hs'⟩ => ?_⟩
  · rw [← hs]
    exact he.state.eq_of_final (by rw [hs]; rfl)
  · obtain ⟨u, hmu, hid, hsu⟩ := hback u' hu' hs'
    obtain rfl := hu u ⟨hmu, hsu⟩
    exact hv'.attempt_eq hu' hmem' (hid.symm.trans he.id.symm)

theorem Room.Step.answered [TeamText] (h : r.Step n op r') (hr : r.Answered) : r'.Answered where
  replies t ht id := h.valid'.existsUnique_reply ht
  turns m hm member name hauthor := by
    rcases h.tame with ht | ⟨t, ht⟩ | ⟨t, reply, hp⟩
    · have hm := (ht.messages m hm).resolve_left (by rw [hauthor]; exact nofun)
      refine h.evolves.existsUnique_turn h.valid' (fun u' hu' hs => ?_) (hr.turns m hm _ _ hauthor)
      obtain ⟨u, hu, huu⟩ | hidle := ht.attempts.of_mem hu'
      · exact ⟨u, hu, huu.id.symm, huu.reply _ hs⟩
      · exact absurd hs (hidle.1.2 _)
    · rw [ht.messages] at hm
      refine h.evolves.existsUnique_turn h.valid' (fun u' hu' hs => ?_) (hr.turns m hm _ _ hauthor)
      rw [ht.attempts] at hu'
      obtain ⟨u, hu, rfl⟩ := mem_map.mp hu'
      split at hs
      · cases hs
      · next hne => exact ⟨u, hu, by rw [if_neg hne], hs⟩
    · have hn := h.valid'.messages_nodup
      rw [hp.messages, map_append, nodup_append] at hn
      -- No message of before has the id of the reply.
      have hnew (m : PublicMessage) (hm : m ∈ r.messages) : m.id ≠ reply.id :=
        hn.2.2 _ (mem_map_of_mem hm) _ (mem_singleton_self _)
      have hattempts := hp.attempts
      rw [hp.messages, mem_append, mem_singleton] at hm
      rcases hm with hm | rfl
      · refine h.evolves.existsUnique_turn h.valid' (fun u' hu' hs => ?_) (hr.turns m hm _ _ hauthor)
        rw [hattempts] at hu'
        obtain ⟨u, hu, rfl⟩ := mem_map.mp hu'
        split at hs
        · exact absurd (AttemptState.completed.inj hs).symm (hnew m hm)
        · next hne => exact ⟨u, hu, by rw [if_neg hne], hs⟩
      · refine ⟨{ t with state := .completed m.id }, ⟨?_, rfl⟩, fun u' ⟨hu', hs⟩ => ?_⟩
        · rw [hattempts]
          exact mem_map.mpr ⟨t, hp.mem, if_pos rfl⟩
        · rw [hattempts] at hu'
          obtain ⟨u, hu, rfl⟩ := mem_map.mp hu'
          split
          · next hid => rw [h.valid.attempt_eq hu hp.mem hid]
          · next hne =>
            rw [if_neg hne] at hs
            obtain ⟨m', hm', hid, -⟩ := h.valid.exists_reply hu hs
            exact absurd hid (hnew m' hm')

end

/-! ## What a room records -/

/-- What the state of an arrangement means. -/
def Room.Agrees (r : Room) (a : Arrangement) : Prop :=
  match a.state with
  | .pending => ∀ t ∈ r.attempts, t.intent.operation = a.operation → t.state.inFlight = false
  | .active id => ∃ t ∈ r.attempts, t.id = id ∧ t.intent.operation = a.operation ∧
      (t.state = .sending ∨ t.state = .accepted)
  | .uncertain id => ∃ t ∈ r.attempts, t.id = id ∧ t.intent.operation = a.operation ∧
      t.state = .uncertain
  | .completed id => ∃ t ∈ r.attempts, t.id = id ∧ t.intent.operation = a.operation ∧
      ∃ m, t.state = .completed m
  | .failed id => ∃ t ∈ r.attempts, t.id = id ∧ t.intent.operation = a.operation ∧
      (t.state = .failed ∨ t.state = .rejected)
  | .skipped | .cancelled => True

/-- What the records of a room say about each other. -/
structure Room.Recorded (r : Room) : Prop where
  exclusive : r.Exclusive
  arrangements : ∀ a ∈ r.arrangements, r.Agrees a
  /-- The turns of a discussion that are in flight are shown by its arrangements. -/
  live : ∀ t ∈ r.attempts, t.state.inFlight = true → ∀ d, t.intent.budget = .discussion d →
    ∃ a ∈ r.arrangements, a.operation = t.intent.operation ∧
      (a.state = .active t.id ∨ a.state = .uncertain t.id)
  answered : r.Answered

section

variable {r : Room}

theorem Room.mem_arrangements_works {a : Arrangement} : a ∈ r.arrangements ↔
    ∃ w ∈ r.works, w.arrangement = a := by
  rw [← works_arrangements, mem_map]

theorem Room.Coherent.agrees (h : r.Coherent) {a : Arrangement} (ha : a ∈ r.arrangements) :
    r.Agrees a := by
  obtain ⟨w, hw, rfl⟩ := mem_arrangements_works.mp ha
  have hshown := h.linked.shown w hw
  rw [Work.state] at hshown
  rw [Agrees]
  rcases hs : w.arrangement.state with _ | id | id | id | id | _ | _ <;> rw [hs] at hshown
  case pending =>
    intro t ht hop
    by_contra hf
    rw [Bool.not_eq_false] at hf
    have htells := h.linked.live t ht hf w hw hop
    rw [Work.state, hs] at htells
    exact htells
  case active =>
    obtain ⟨t, ht, hop, hid, hrun⟩ := hshown id rfl
    refine ⟨t, ht, hid, hop, ?_⟩
    rcases hst : t.state <;> simp_all [AttemptState.isRunning]
  case uncertain | completed | failed =>
    obtain ⟨t, ht, hop, hid, hst⟩ := hshown id rfl
    exact ⟨t, ht, hid, hop, hst⟩
  all_goals trivial

theorem Room.Coherent.recorded (h : r.Coherent) (he : r.Exclusive) (ha : r.Answered) : r.Recorded where
  exclusive := he
  arrangements a := h.agrees
  live t ht hf d hb := by
    obtain ⟨w, hw, hfor⟩ := h.linked.tracked t ht d hb
    exact ⟨w.arrangement, mem_arrangements_works.mpr ⟨w, hw, rfl⟩, hfor.operation.symm,
      (h.linked.live t ht hf w hw hfor.operation).active_or_uncertain hf⟩
  answered := ha

end

/-! ## What was handed to transports -/

/-- The attempt that a call hands to a transport, with its request. -/
def Call.handed? (c : Call) : Option (AttemptId × DispatchIntent) :=
  match c.operation, c.result with
  | .prepareDispatch id, .ok (some intent) => some (id, intent)
  | _, _ => none

def handed (calls : List Call) : List (AttemptId × DispatchIntent) := calls.filterMap Call.handed?

/-- The room records that an attempt was sent, and that the work it is for does not wait. -/
structure Room.Recalls (r : Room) (e : AttemptId × DispatchIntent) : Prop where
  sent : ∃ t ∈ r.attempts, t.id = e.1 ∧ t.intent = e.2 ∧ t.state ≠ .reserved
  started : ∀ d, e.2.budget = .discussion d →
    ∃ a ∈ r.arrangements, a.operation = e.2.operation ∧ a.state ≠ .pending

theorem Room.Evolves.exists_arrangement {n : ℕ} {r r' : Room} (h : r.Evolves n r')
    {a : Arrangement} (ha : a ∈ r.arrangements) : ∃ a' ∈ r'.arrangements, a.Evolves a' := by
  obtain ⟨d, hd, s, hs, ha⟩ := mem_arrangements.mp ha
  obtain ⟨d', hd', hdd⟩ := h.discussions.exists_of_mem hd
  obtain ⟨s', hs', hss⟩ := hdd.stages.exists_of_mem hs
  obtain ⟨a', ha', haa⟩ := hss.arrangements.exists_of_mem ha
  exact ⟨a', mem_arrangements.mpr ⟨d', hd', s', hs', ha'⟩, haa⟩

theorem Room.Evolves.recalls {n : ℕ} {r r' : Room} (h : r.Evolves n r')
    {e : AttemptId × DispatchIntent} (he : r.Recalls e) : r'.Recalls e where
  sent := by
    obtain ⟨t, ht, hid, hintent, hs⟩ := he.sent
    obtain ⟨t', ht', htt⟩ := h.attempts.exists_of_mem ht
    exact ⟨t', ht', htt.id.trans hid, htt.intent.trans hintent, htt.state.ne_reserved hs⟩
  started d hd := by
    obtain ⟨a, ha, hop, hs⟩ := he.started d hd
    obtain ⟨a', ha', haa⟩ := h.exists_arrangement ha
    exact ⟨a', ha', haa.operation.trans hop, haa.sent hs⟩

/-- What is sent now was not sent before, and neither was its operation if either of the two is a turn
of a discussion. -/
theorem Room.Recalls.ne_prepared {r next : Room} {e : AttemptId × DispatchIntent} {id : AttemptId}
    {intent : DispatchIntent} (he : r.Recalls e) (hv : r.Valid) (hr : r.Coherent)
    (h : r.prepare id = .ok (intent, next)) :
    e.1 ≠ id ∧ ∀ a ∈ r.arrangements, e.2.operation = a.operation → intent.operation ≠ a.operation := by
  obtain ⟨t, ht, hs, rfl, hcases⟩ := prepare_ok h
  obtain ⟨hmem, rfl⟩ := TeamSession.id_of_attempt ht
  obtain ⟨u, hu, huid, hintent, husent⟩ := he.sent
  refine ⟨fun hid => ?_, fun a ha hop hop' => ?_⟩
  · obtain rfl := hv.attempt_eq hu hmem (huid.trans hid)
    exact husent hs
  · obtain ⟨w, hw, rfl⟩ := mem_arrangements_works.mp ha
    have hub := hr.linked.owned u hu w hw (by rw [hintent]; exact hop)
    have htb := hr.linked.owned t hmem w hw hop'
    rw [hintent] at hub
    obtain ⟨b, hb, hbop, hbsent⟩ := he.started _ hub
    obtain ⟨v, hv', hfor⟩ := hr.linked.tracked t hmem _ htb
    rcases hcases with ⟨d, d', a', -, -, hd', ha', hpending, -⟩ | ⟨⟨-, -, hsummary⟩ | ⟨o, ho⟩, -⟩
    · have ha'mem : a' ∈ r.arrangements := by
        obtain ⟨s, hs, ha'⟩ := Discussion.mem_arrangements.mp (mem_of_find?_eq_some ha')
        exact mem_arrangements.mpr ⟨d', (TeamSession.id_of_discussion hd').1, s, hs, ha'⟩
      have ha'op : a'.operation = t.intent.operation := by simpa using find?_some ha'
      obtain rfl := inj_on_of_nodup_map hv.operations_nodup hb ha'mem
        (hbop.trans (hop.trans (hop'.symm.trans ha'op.symm)))
      exact hbsent hpending
    · rw [hfor.purpose] at hsummary
      exact stagePurpose_ne_summary _ hsummary
    · rw [ho] at htb
      cases htb

/-- The room after an attempt is prepared records that it was sent. -/
theorem Room.Coherent.recalls_prepared {r next : Room} {id : AttemptId} {intent : DispatchIntent}
    (hr : r.Coherent) (h : r.prepare id = .ok (intent, next)) :
    next.Recalls (id, intent) := by
  obtain ⟨t, ht, hs, rfl, hcases⟩ := prepare_ok h
  obtain ⟨hmem, rfl⟩ := TeamSession.id_of_attempt ht
  have hsent : ∃ u ∈ (r.modifyAttempt t.id fun t => { t with state := .sending }).attempts,
      u.id = t.id ∧ u.intent = t.intent ∧ u.state ≠ .reserved :=
    ⟨{ t with state := .sending }, mem_map.mpr ⟨t, hmem, if_pos rfl⟩, rfl, rfl, nofun⟩
  rcases hcases with ⟨d, d', a, hb, -, hd', ha, -, rfl⟩ | ⟨⟨d, hb, hsummary⟩ | ⟨o, ho⟩, rfl⟩
  · refine ⟨by rw [settle_attempts]; exact hsent, fun e _ => ?_⟩
    obtain ⟨hd'mem, hd'id⟩ := TeamSession.id_of_discussion hd'
    obtain ⟨s, hs, ha'⟩ := Discussion.mem_arrangements.mp (mem_of_find?_eq_some ha)
    have hop : a.operation = t.intent.operation := by simpa using find?_some ha
    refine ⟨{ a with state := .active t.id }, ?_, hop, nofun⟩
    rw [settle_of_discussion _ _ hb]
    refine mem_arrangements.mpr ⟨_, mem_map_of_mem hd'mem, ?_⟩
    rw [if_pos hd'id]
    refine ⟨_, mem_map_of_mem hs, mem_map.mpr ⟨a, ha', ?_⟩⟩
    dsimp only
    rw [if_pos hop]
  · obtain ⟨w, hw, hfor⟩ := hr.linked.tracked t hmem d hb
    rw [hfor.purpose] at hsummary
    exact absurd hsummary (stagePurpose_ne_summary _)
  · refine ⟨hsent, fun e he => ?_⟩
    rw [ho] at he
    cases he

/-- A list of which no two entries can follow each other has at most one. -/
theorem length_le_one_of_pairwise {α : Type*} {R : α → α → Prop} {l : List α} (h : l.Pairwise R)
    (hn : ∀ x ∈ l, ∀ y ∈ l, ¬ R x y) : l.length ≤ 1 := by
  rcases l with _ | ⟨x, _ | ⟨y, l⟩⟩
  · exact Nat.zero_le 1
  · exact le_rfl
  · have hxy := (pairwise_cons.mp h).1 y mem_cons_self
    exact absurd hxy (hn x mem_cons_self y (mem_cons_of_mem _ mem_cons_self))

section

variable {J : Serde Room} [TeamText] {p p' : TeamProcess J} {c : Call} {labels : List Call}

/-- What a successful `prepare_dispatch` has checked and saved. -/
theorem TeamSession.prepareDispatch_ok {s s' : TeamSession J} {id : AttemptId} {intent : DispatchIntent}
    (h : s.prepareDispatch id = (.ok intent, s')) :
    s.room.prepare id = .ok (intent, s'.room) ∧ s'.storage.store.failed = false ∧
      ∀ d, intent.budget = .discussion d →
        ∃ d', s.room.discussion d = some d' ∧ d'.isDispatchable = true := by
  rw [prepareDispatch] at h
  split at h
  · cases h
  next t ht =>
  split at h
  · cases h
  next hc =>
  obtain ⟨-, hgo, -⟩ := checkDispatch_ok hc
  split at h
  · cases h
  next intent' next hp =>
  have hroom := save_ok h
  obtain rfl : intent' = intent := by
    rw [save] at h
    split at h <;> cases h
    rfl
  rw [hroom]
  refine ⟨hp, not_failed_of_save h, ?_⟩
  obtain ⟨u, hu, -, hintent, -⟩ := Room.prepare_ok hp
  obtain rfl := Option.some.inj (ht.symm.trans hu)
  rwa [hintent]

/-- The room after a call that hands out an attempt: nothing else can be in the file. -/
theorem TeamProcess.step_handed {id : AttemptId} {intent : DispatchIntent}
    (h : (teams J).step p c p') (hp' : p'.Sound) (hc : c.handed? = some (id, intent)) :
    p.session.room.prepare id = .ok (intent, p'.session.room) ∧
      (∀ r, p'.Holds r → r = p'.session.room) ∧
      ∀ d, intent.budget = .discussion d →
        ∃ d', p.session.room.discussion d = some d' ∧ d'.isDispatchable = true := by
  obtain ⟨s', hact, hsession, -⟩ := step_act h
  have hroom : p'.session.room = s'.room := by rw [hsession]; rfl
  have hop : c.operation = .prepareDispatch id ∧ c.result = .ok (some intent) := by
    unfold Call.handed? at hc
    split at hc
    · next hop hres =>
      obtain ⟨rfl, rfl⟩ := Prod.mk.inj (Option.some.inj hc)
      exact ⟨hop, hres⟩
    · cases hc
  rw [hop.1, hop.2, TeamSession.act] at hact
  dsimp only at hact
  rcases hx : ({ p.session with writes := c.writes } : TeamSession J).prepareDispatch id with
    ⟨e | given, s''⟩
  · rw [hx] at hact
    cases hact
  rw [hx] at hact
  cases hact
  obtain ⟨hprepare, hf, hgo⟩ := TeamSession.prepareDispatch_ok hx
  rw [hroom]
  refine ⟨hprepare, ?_, hgo⟩
  rintro r ⟨revision, hheld⟩
  obtain ⟨cell, hr⟩ := hp'.cell
  have hfailed : p'.session.storage.store.failed = false := by rw [hsession]; exact hf
  have := hr.eq_of_not_failed hfailed (hr.holds hheld)
  rw [← hroom]
  exact congrArg Prod.snd this

theorem preserved_recorded : Preserved (fun _ _ => True)
    (fun r => r.Coherent ∧ r.Exclusive ∧ r.Answered) fun _ _ => True := by
  refine .of_invariant (fun r hr => ⟨hr.coherent, ?_, ?_⟩) fun n op r r' hs h =>
    ⟨hs.coherent h.1, hs.exclusive h.2.1, hs.answered h.2.2⟩
  · intro t ht
    simp [hr.attempts] at ht
  · constructor
    · intro t ht
      simp [hr.attempts] at ht
    · intro m hm
      simp [hr.messages] at hm

/-- Two entries are about different attempts, and about different operations of arrangements. -/
def Apart (e e' : AttemptId × DispatchIntent) : Prop :=
  e.1 ≠ e'.1 ∧ (e.2.operation = e'.2.operation → ∀ d, e'.2.budget ≠ .discussion d)

/-- What the calls of a run have handed out, seen from its end. -/
structure TeamProcess.Remembers (p : TeamProcess J) (labels : List Call) : Prop where
  sound : p.Sound
  rooms : ∀ r, p.Holds r → r.Coherent ∧ ∀ e ∈ handed labels, r.Recalls e
  apart : (handed labels).Pairwise Apart

namespace TeamProcess.Remembers

/-- Nothing that was handed out is forgotten. -/
theorem recalls_step (h : p.Remembers labels) (hs : (teams J).step p c p') :
    ∀ r, p'.Holds r → r.Coherent ∧ ∀ e ∈ handed labels, r.Recalls e := by
  have hkept : Kept (fun _ _ => True)
      (fun r => r.Coherent ∧ ∀ e ∈ handed labels, r.Recalls e) fun _ _ => True :=
    .of_invariant fun n op r r' hs hr => ⟨hs.coherent hr.1, fun e he => hs.evolves.recalls (hr.2 e he)⟩
  exact fun r hr => ((hkept.step_rule h.sound (fun r hr => ⟨h.rooms r hr, trivial⟩) trivial hs).1 r hr).1

theorem step (h : p.Remembers labels) (hs : (teams J).step p c p') :
    p'.Remembers (labels ++ [c]) := by
  have hsound := sound_step h.sound hs
  have hrecalls := h.recalls_step hs
  rcases hc : c.handed? with _ | ⟨id, intent⟩
  · have hsame : handed (labels ++ [c]) = handed labels := by simp [handed, hc]
    exact ⟨hsound, by rwa [hsame], by rw [hsame]; exact h.apart⟩
  obtain ⟨hprepare, honly, -⟩ := step_handed hs hsound hc
  have hnew : handed (labels ++ [c]) = handed labels ++ [(id, intent)] := by simp [handed, hc]
  have hmem := h.rooms _ p.holds_room
  have hlast := hrecalls _ p'.holds_room
  refine ⟨hsound, fun r hr => ?_, ?_⟩
  · rw [hnew, honly r hr]
    refine ⟨hlast.1, fun e he => ?_⟩
    rcases mem_append.mp he with he | he
    · exact hlast.2 e he
    · rw [mem_singleton.mp he]
      exact hmem.1.recalls_prepared hprepare
  · rw [hnew, pairwise_append]
    refine ⟨h.apart, pairwise_singleton _ _, fun e he e' he' => ?_⟩
    obtain rfl := mem_singleton.mp he'
    obtain ⟨hid, hop⟩ := (hmem.2 e he).ne_prepared h.sound.valid hmem.1 hprepare
    refine ⟨hid, fun heq d hd => ?_⟩
    obtain ⟨t, ht, -, hintent, -⟩ := Room.prepare_ok hprepare
    rw [hintent] at hd
    obtain ⟨w, hw, hfor⟩ := hmem.1.linked.tracked t (TeamSession.id_of_attempt ht).1 d hd
    have hwop : intent.operation = w.arrangement.operation := by rw [hintent]; exact hfor.operation
    exact hop _ (Room.mem_arrangements_works.mpr ⟨w, hw, rfl⟩) (heq.trans hwop) hwop

end TeamProcess.Remembers

theorem remembers_run (h : Run (teams J) labels p) : p.Remembers labels := by
  refine h.history (I := fun labels p => p.Remembers labels) (fun p hi => ?_) fun _ _ _ _ =>
    TeamProcess.Remembers.step
  exact ⟨TeamProcess.sound_init hi, fun r hr => ⟨(preserved_recorded.init hi r hr).1.1, by simp [handed]⟩,
    .nil⟩

/-- **Work is sent at most once, and recorded consistently.** -/
theorem sent_once (h : Run (teams J) labels p) :
    ((handed labels).map Prod.fst).Nodup ∧
    ∀ r, p.Holds r → r.Recorded ∧ ∀ a ∈ r.arrangements,
      ((handed labels).filter fun e ↦ e.2.operation = a.operation).length ≤ 1 := by
  have hm := remembers_run h
  refine ⟨pairwise_map.mpr (hm.apart.imp fun hapart ↦ hapart.1), fun r hr ↦ ?_⟩
  obtain ⟨-, hrooms⟩ := preserved_recorded.always h
  obtain ⟨hcoherent, hexclusive, hanswered⟩ := (hrooms r hr).1
  refine ⟨hcoherent.recorded hexclusive hanswered, fun a ha ↦ ?_⟩
  obtain ⟨w, hw, rfl⟩ := Room.mem_arrangements_works.mp ha
  refine length_le_one_of_pairwise (hm.apart.filter _) fun e he e' he' hapart ↦ ?_
  obtain ⟨-, hop⟩ := mem_filter.mp he
  obtain ⟨hmem', hop'⟩ := mem_filter.mp he'
  rw [decide_eq_true_eq] at hop hop'
  -- Both are turns of the discussion of the arrangement.
  obtain ⟨u, hu, -, hintent, -⟩ := ((hm.rooms r hr).2 e' hmem').sent
  have hb := hcoherent.linked.owned u hu w hw (by rw [hintent]; exact hop')
  rw [hintent] at hb
  exact hapart.2 (hop.trans hop'.symm) _ hb

end

section

attribute [local instance] plainText

theorem sent_once_alice : ∃ labels, Run (teams (.plain Room)) labels (aliceAfter reportThenRequest) ∧
    ((handed labels).map Prod.fst).Nodup ∧ (aliceAfter reportThenRequest).session.room.Recorded := by
  obtain ⟨labels, hr⟩ := reportThenRequest_run
  have hsent := sent_once hr
  exact ⟨labels, hr, hsent.1, (hsent.2 _ (TeamProcess.holds_room _)).1⟩

end

end NiumaTerm.Team
