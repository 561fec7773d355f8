import NiumaTerm.Team.Moves
import NiumaTerm.Team.Runs

/-!
# Direct requests

`TeamSession.directRequest` prepares the turn of each recipient, then saves the input, and then reserves the
turns.  Only the last half can find that the turns exceed the budget of the request.
-/

namespace NiumaTerm.Team

open Checks Transition List

/-! ## The budget of a request -/

/-- The turns of a request are charged to the operation that made them. -/
def Room.ChargesRequests (r : Room) : Prop :=
  ∀ t ∈ r.attempts, ∀ o, t.intent.budget = .direct o → t.intent.operation = o

theorem Room.Step.chargesRequests [TeamText] {n : ℕ} {op : Operation} {r r' : Room}
    (h : r.Step n op r') (hr : r.ChargesRequests) : r'.ChargesRequests := by
  intro t' ht' o hb
  rcases (h.change.moves h.valid).of_mem ht' with ⟨t, ht, hm⟩ | hnew
  · rw [hm.intent] at hb ⊢
    exact hr t ht o hb
  · rcases hnew.asks with ⟨hb', ho⟩ | ⟨d, s, a, -, -, -, -, -, hb'⟩
    · rw [ho]
      exact BudgetScope.direct.inj (hb'.symm.trans hb)
    · cases hb'.symm.trans hb

namespace Room

variable {r : Room} {n : ℕ} {o : OperationId}

/-- Nothing is charged to a request that is being made. -/
theorem budgetAttempts_direct (hr : r.ChargesRequests) (hb : r.Below n) (ho : o.uuid.serial = n) :
    r.budgetAttempts (.direct o) = [] := by
  refine filter_eq_nil_iff.mpr fun t ht hcharged => ?_
  simp only [Bool.and_eq_true, decide_eq_true_eq] at hcharged
  have hlt := hb.attempts t ht
  rw [hr t ht o hcharged.1, ho] at hlt
  exact lt_irrefl n hlt

/-- The budget of a request leaves room for the turn. -/
theorem reserveOne_direct {entry : DispatchIntent × ℕ} (hb : entry.1.budget = .direct o)
    (hm : (r.member entry.1.recipient).isSome = true) : reserveOne n r entry =
      if (r.budgetAttempts (.direct o)).length < Budget.defaultTurnLimit then
        .ok { r with attempts := r.attempts ++ [reservedAttempt n entry] }
      else .error (.budget .insufficientTurns) := by
  have hsome : (r.member entry.1.recipient).isNone = false := by
    rw [← Option.not_isSome, hm, Bool.not_true]
  have hcheck : Budget.direct.checkBatch (r.budgetAttempts (.direct o)) [entry.1.purpose] =
      if (r.budgetAttempts (.direct o)).length < Budget.defaultTurnLimit then .ok ()
      else .error .insufficientTurns := by
    simp only [Budget.checkBatch, Budget.direct, Budget.ofDiscussion, Bool.false_and,
      Bool.toNat_false, length_singleton, Nat.add_zero, gt_iff_lt]
    split <;> split <;> first | rfl | omega
  rw [reserveOne]
  simp only [hsome, hb, budgetOf]
  change (((Budget.direct.checkBatch (r.budgetAttempts (.direct o)) [entry.1.purpose]).mapError
    DispatchError.budget) >>= fun _ => _) = _
  rw [hcheck]
  split <;> rfl

theorem budgetAttempts_reserved {entry : DispatchIntent × ℕ} (hb : entry.1.budget = .direct o) :
    { r with attempts := r.attempts ++ [reservedAttempt n entry] }.budgetAttempts (.direct o) =
      r.budgetAttempts (.direct o) ++ [reservedAttempt n entry] := by
  have hcharged : [reservedAttempt n entry].filter (fun t => t.intent.budget = .direct o &&
      t.state != .rejected) = [reservedAttempt n entry] := by
    refine filter_eq_self.mpr fun t ht => ?_
    rw [mem_singleton.mp ht, reservedAttempt, hb]
    simp only [decide_true, Bool.true_and]
    rfl
  rw [budgetAttempts, filter_append, hcharged]
  rfl

/-- The turns of a request are reserved one by one until its budget is used up. -/
theorem reserveOne_foldlM {entries : List (DispatchIntent × ℕ)}
    (hb : ∀ e ∈ entries, e.1.budget = .direct o)
    (hm : ∀ e ∈ entries, (r.member e.1.recipient).isSome = true) :
    ((r.budgetAttempts (.direct o)).length + entries.length ≤ Budget.defaultTurnLimit →
      ∃ r', entries.foldlM (reserveOne n) r = .ok r') ∧
    ((r.budgetAttempts (.direct o)).length ≤ Budget.defaultTurnLimit →
      Budget.defaultTurnLimit < (r.budgetAttempts (.direct o)).length + entries.length →
      entries.foldlM (reserveOne n) r = .error (.budget .insufficientTurns)) := by
  induction entries generalizing r with
  | nil =>
    refine ⟨fun _ => ⟨r, rfl⟩, fun hle hlt => ?_⟩
    rw [length_nil] at hlt
    omega
  | cons entry rest ih =>
    rw [foldlM_cons, reserveOne_direct (hb entry mem_cons_self) (hm entry mem_cons_self)]
    have hrest := ih (r := { r with attempts := r.attempts ++ [reservedAttempt n entry] })
      (fun e he => hb e (mem_cons_of_mem _ he)) fun e he => hm e (mem_cons_of_mem _ he)
    rw [budgetAttempts_reserved (hb entry mem_cons_self), length_append, length_singleton] at hrest
    rw [length_cons]
    refine ⟨fun hle => ?_, fun hle hlt => ?_⟩
    · rw [if_pos (by omega)]
      exact hrest.1 (by omega)
    · split
      · exact hrest.2 (by omega) (by omega)
      · rfl

/-- **The turns of a request** are reserved when they are within its budget, and refused when they
are not. -/
theorem reserve_direct {intents : List DispatchIntent} (hfree : r.budgetAttempts (.direct o) = [])
    (hb : ∀ intent ∈ intents, intent.budget = .direct o)
    (hm : ∀ intent ∈ intents, (r.member intent.recipient).isSome = true) :
    (intents.length ≤ Budget.defaultTurnLimit → ∃ ids r', r.reserve intents n = .ok (ids, r')) ∧
    (Budget.defaultTurnLimit < intents.length →
      r.reserve intents n = .error (.budget .insufficientTurns)) := by
  have hb' : ∀ e ∈ intents.zipIdx, e.1.budget = .direct o := fun e he =>
    hb _ (fst_mem_of_mem_zipIdx he)
  have hm' : ∀ e ∈ intents.zipIdx, (r.member e.1.recipient).isSome = true := fun e he =>
    hm _ (fst_mem_of_mem_zipIdx he)
  have h := reserveOne_foldlM (n := n) hb' hm'
  rw [hfree, length_nil, Nat.zero_add, length_zipIdx] at h
  refine ⟨fun hle => ?_, fun hlt => ?_⟩
  · obtain ⟨r', hr'⟩ := h.1 hle
    exact ⟨_, r', bind_ok.mpr ⟨r', hr', rfl⟩⟩
  · rw [reserve, h.2 (Nat.zero_le _) hlt]
    rfl

/-- The reserved attempts of a batch are for the recipients of its intents. -/
theorem map_reservedAttempt {intents : List DispatchIntent} {n : ℕ} :
    ((intents.zipIdx.map (reservedAttempt n)).map fun t => t.intent.recipient) =
      intents.map DispatchIntent.recipient := by
  rw [map_map]
  have hfst : (fun t : Attempt => t.intent.recipient) ∘ reservedAttempt n =
      DispatchIntent.recipient ∘ Prod.fst := rfl
  rw [hfst, ← map_map, zipIdx_map_fst]

end Room

/-! ## One request -/

namespace TeamSession

variable {J : Serde Room} [TeamText] {s : TeamSession J} {input : UserInput}
  {recipients : List MemberId} {limits : ContextLimits}

omit [TeamText] in
def directPlan (s : TeamSession J) (recipient : MemberId) : DispatchPlan where
  recipient
  operation := ⟨s.serial, 0⟩
  stage := none
  budget := .direct ⟨s.serial, 0⟩
  purpose := .response

/-- The request passes what is checked before anything is saved. -/
structure Accepts (s : TeamSession J) (input : UserInput) (recipients : List MemberId)
    (limits : ContextLimits) : Prop where
  valid : s.validateInput input = .ok ()
  some : recipients ≠ []
  nodup : recipients.Nodup
  intents : ∀ m ∈ recipients, ∃ intent,
    s.prepareIntent (s.directPlan m) input s.room.publicSnapshot limits = .ok intent

/-- The save of the input. -/
def savingInput (s : TeamSession J) (input : UserInput) : Commit Room StorageError :=
  saving (s.room.withUserInput (publicRequest input s.serial)) (s.writes.headD .done)

/-- The store takes the room with the input, and the write succeeds. -/
def SavesInput (s : TeamSession J) (input : UserInput) : Prop :=
  s.storage.Writes (s.savingInput input) ∧ (s.savingInput input).Succeeds J

theorem exists_directIntents :
    (∃ intents, s.directIntents input recipients limits = .ok intents) ↔
      s.Accepts input recipients limits := by
  constructor
  · rintro ⟨intents, h⟩
    simp only [directIntents, bind_ok, failIf_ok, Bool.or_eq_true, Bool.not_eq_true',
      decide_eq_false_iff_not, not_or, not_not] at h
    obtain ⟨_, hinput, _, ⟨hsome, hnodup⟩, hintents⟩ := h
    exact ⟨hinput, by simpa using hsome, hnodup, exists_mapM.mp ⟨intents, hintents⟩⟩
  · intro h
    obtain ⟨intents, hintents⟩ := exists_mapM.mpr h.intents
    refine ⟨intents, ?_⟩
    simp only [directIntents, bind_ok, failIf_ok, Bool.or_eq_true, Bool.not_eq_true',
      decide_eq_false_iff_not, not_or, not_not]
    exact ⟨(), h.valid, (), ⟨by simpa using h.some, h.nodup⟩, hintents⟩

/-- The intents of a request are those of its recipients, who are still ready. -/
theorem directIntents_recipients {intents : List DispatchIntent}
    (h : s.directIntents input recipients limits = .ok intents) :
    intents.map DispatchIntent.recipient = recipients ∧
      ∀ intent ∈ intents, s.validateRecipient intent = .ok () := by
  simp only [directIntents, bind_ok, failIf_ok] at h
  obtain ⟨_, -, _, -, h⟩ := h
  constructor
  · rw [map_of_mapM (k := id) h fun m intent hm => (prepareIntent_ok hm).1.recipient, map_id]
  · intro intent hmem
    obtain ⟨m, -, hm⟩ := mapM_ok h intent hmem
    simp only [prepareIntent, bind_ok, okOr_ok] at hm
    obtain ⟨_, -, built, -, _, hv, he⟩ := hm
    rwa [← Except.ok.inj he]

/-- Saving the input of a request that passes its check. -/
theorem recordUserInput_cases (hv : s.validateInput input = .ok ()) :
    (∃ id s', s.recordUserInput input = (.ok id, s') ∧ s.SavesInput input) ∨
      ∃ e s', s.recordUserInput input = (.error (.storage e), s') ∧ ¬ s.SavesInput input := by
  have hplan : s.recordUserInput input = s.save .storage
      (s.room.withUserInput (publicRequest input s.serial)) (publicRequest input s.serial).id := by
    rw [recordUserInput, hv]
    rfl
  rw [hplan, save, commit, ← saving, ← savingInput]
  rcases hc : s.storage.commit roomFormat (s.savingInput input) with ⟨result, st⟩
  rcases Storage.commitStep roomFormat hc with ⟨e, hw⟩ | ⟨hf, hsame⟩ | ⟨image, hw, hs, hi⟩ |
    ⟨e, file, hw, hs, -⟩
  · exact .inr ⟨e, _, rfl, fun h => hw h.1⟩
  · refine absurd (congrArg (fun r => r.messages.length) (beq_iff_eq.mp hsame)) ?_
    change (s.room.messages ++ [_]).length ≠ s.room.messages.length
    rw [length_append, length_singleton]
    exact Nat.succ_ne_self _
  · exact .inl ⟨_, _, rfl, hw, hs⟩
  · exact .inr ⟨e, _, rfl, fun h => hs h.2⟩

/-- What a session after a saved input shares with the session before it. -/
theorem recordUserInput_ok {id : MessageId} {s' : TeamSession J}
    (h : s.recordUserInput input = (.ok id, s')) :
    s'.room = s.room.withUserInput (publicRequest input s.serial) ∧ s'.serial = s.serial ∧
      ∀ intent, s'.validateRecipient intent = s.validateRecipient intent := by
  have ht : Traced s.serial (.recordUserInput input) s (s.recordUserInput input) :=
    traced_recordUserInput rfl
  rw [h] at ht
  have hroom : s'.room = s.room.withUserInput (publicRequest input s.serial) := by
    obtain ⟨_, -, hp⟩ := bind_ok.mp (perform_ok h)
    exact (Prod.mk.inj (Except.ok.inj hp)).2.symm
  refine ⟨hroom, ht.serial, fun intent => ?_⟩
  have hmember (m : MemberId) : s'.room.member m = s.room.member m := by
    rw [hroom]
    rfl
  have hready : s'.readiness = s.readiness := ht.readiness
  have hunresolved : s'.unresolved = s.unresolved := ht.unresolved
  simp only [validateRecipient, validateMember, hready, hunresolved, hmember]

/-- More turns than the budget of a request are asked for, and nothing stops the request before its
input is saved. -/
structure Overcommits (s : TeamSession J) (input : UserInput) (recipients : List MemberId)
    (limits : ContextLimits) : Prop extends s.Accepts input recipients limits where
  many : Budget.defaultTurnLimit < recipients.length
  saves : s.SavesInput input

/-- A request fails and leaves messages, pauses and attempts as they were, or it succeeds: its input
is one new message, and there is one new reserved attempt for each recipient. -/
structure Atomic (s s' : TeamSession J) (input : UserInput) (recipients : List MemberId)
    (result : Except TeamError (List AttemptId)) : Prop where
  failed : ∀ e, result = .error e → e.IsPlain → s'.room.messages = s.room.messages ∧
    s'.room.discussions.map Discussion.pauses = s.room.discussions.map Discussion.pauses ∧
    s'.room.attempts = s.room.attempts
  succeeded : ∀ ids, result = .ok ids →
    s'.room.messages = s.room.messages ++ [publicRequest input s.serial] ∧
    ∃ reserved, s'.room.attempts = s.room.attempts ++ reserved ∧ reserved.map Attempt.id = ids ∧
      (reserved.map fun t => t.intent.recipient) = recipients ∧ ∀ t ∈ reserved, t.state = .reserved

theorem save_cases {α : Type} (wrap : StorageError → TeamError) {next : Room} {a : α} :
    (∃ s', s.save wrap next a = (.ok a, s') ∧ s'.room = next) ∨
      ∃ e s', s.save wrap next a = (.error (wrap e), s') := by
  rcases hx : s.save wrap next a with ⟨e | b, s'⟩
  · right
    rw [save] at hx
    split at hx
    · next e' _ _ =>
      cases hx
      exact ⟨e', s', rfl⟩
    · cases hx
  · left
    have hroom := save_ok hx
    rw [save] at hx
    split at hx
    · cases hx
    · cases hx
      exact ⟨s', rfl, hroom⟩

/-- Saving the reserved turns ends a request whose input is saved. -/
theorem atomic_save {s₁ : TeamSession J} {intents : List DispatchIntent} {ids : List AttemptId}
    {next : Room} (h : s₁.room.reserve intents s₁.serial = .ok (ids, next))
    (hroom : s₁.room = s.room.withUserInput (publicRequest input s.serial))
    (hrecipients : intents.map DispatchIntent.recipient = recipients) :
    Atomic s (s₁.save dispatchStorage next ids).2 input recipients
      (s₁.save dispatchStorage next ids).1 := by
  rcases s₁.save_cases dispatchStorage with
    ⟨s₂, hx, hnext⟩ | ⟨e, s₂, hx⟩
  · rw [hx]
    refine ⟨fun e he => (by cases he), fun ids' hids => ?_⟩
    obtain rfl := Except.ok.inj hids
    dsimp only
    rw [hnext]
    obtain ⟨rfl, rfl⟩ := Room.reserve_ok h
    rw [hroom]
    refine ⟨rfl, intents.zipIdx.map (Room.reservedAttempt s₁.serial), rfl, rfl, ?_, fun t ht => ?_⟩
    · rw [Room.map_reservedAttempt, hrecipients]
    · obtain ⟨entry, -, rfl⟩ := mem_map.mp ht
      rfl
  · rw [hx]
    refine ⟨fun e' he hplain => ?_, fun ids' hids => by cases hids⟩
    rw [← Except.error.inj he] at hplain
    cases hplain

/-- **One request** is atomic exactly when it does not overcommit. -/
theorem directRequest_spec (hr : s.room.ChargesRequests) (hb : s.room.Below s.serial) :
    Atomic s (s.directRequest input recipients limits).2 input recipients
      (s.directRequest input recipients limits).1 ↔ ¬ s.Overcommits input recipients limits := by
  rcases hi : s.directIntents input recipients limits with e | intents
  · have hrefused : ¬ s.Overcommits input recipients limits := by
      intro h
      obtain ⟨intents, hok⟩ := exists_directIntents.mpr h.toAccepts
      cases hi.symm.trans hok
    rw [directRequest, hi]
    exact iff_of_true ⟨fun _ _ _ => ⟨rfl, rfl, rfl⟩, fun ids hids => by cases hids⟩ hrefused
  have haccepts := exists_directIntents.mp ⟨intents, hi⟩
  obtain ⟨hrecipients, hvalid⟩ := directIntents_recipients hi
  have hlength : intents.length = recipients.length := by rw [← hrecipients, length_map]
  rw [directRequest, hi]
  rcases recordUserInput_cases haccepts.valid with ⟨id, s₁, hrecord, hsaves⟩ |
    ⟨e, s₁, hrecord, hsaves⟩
  · obtain ⟨hroom, -, hsame⟩ := recordUserInput_ok hrecord
    have hready : intents.forM s₁.validateRecipient = .ok () :=
      forM_ok.mpr fun intent hmem => (hsame intent).trans (hvalid intent hmem)
    have hfree : s₁.room.budgetAttempts (.direct ⟨s.serial, 0⟩) = [] := by
      rw [hroom]
      exact Room.budgetAttempts_direct (r := s.room) hr hb rfl
    have hmember : ∀ intent ∈ intents, (s₁.room.member intent.recipient).isSome = true := by
      intro intent hmem
      obtain ⟨m, hm, -⟩ := (validateRecipient_ok ((hsame intent).trans (hvalid intent hmem))).1
      rw [hm, Option.isSome_some]
    obtain ⟨hfits, hexceeds⟩ := Room.reserve_direct (n := s₁.serial) hfree
      (fun intent hmem => (directIntents_ok hi intent hmem).1.1) hmember
    simp only [hrecord, andThen, reserveDispatches, hready]
    rcases Nat.lt_or_ge Budget.defaultTurnLimit intents.length with hlt | hle
    · rw [hexceeds hlt]
      refine iff_of_false (fun h => ?_) fun h => h ⟨haccepts, hlength ▸ hlt, hsaves⟩
      have hmessages := congrArg List.length (h.failed _ rfl rfl).1
      rw [hroom] at hmessages
      change (s.room.messages ++ [_]).length = s.room.messages.length at hmessages
      rw [length_append, length_singleton] at hmessages
      exact Nat.succ_ne_self _ hmessages
    · obtain ⟨ids, next, hreserve⟩ := hfits hle
      rw [hreserve]
      exact iff_of_true (atomic_save hreserve hroom hrecipients) fun h =>
        absurd h.many (Nat.not_lt.mpr (hlength ▸ hle))
  · simp only [hrecord, andThen]
    refine iff_of_true ⟨fun e' he hplain => ?_, fun ids hids => by cases hids⟩ fun h => hsaves h.saves
    rw [← Except.error.inj he] at hplain
    cases hplain

end TeamSession

/-! ## Runs -/

section

variable {J : Serde Room} [TeamText] {p : TeamProcess J} {labels : List Call}

omit [TeamText] in
/-- The session when an operation begins whose writes end so. -/
def TeamSession.writing (s : TeamSession J) (writes : List WriteOutcome) : TeamSession J :=
  { s with writes }

theorem preserved_chargesRequests :
    Preserved (fun _ _ => True) Room.ChargesRequests fun _ _ => True :=
  .of_invariant (fun r hr t ht => by simp [hr.attempts] at ht) fun _ _ _ _ =>
    Room.Step.chargesRequests

/-- **A direct request is atomic**, in any session that a run leads to and however its writes end,
exactly when it does not overcommit. -/
theorem directRequest_atomic (h : Run (teams J) labels p) (writes : List WriteOutcome)
    (input : UserInput) (recipients : List MemberId) (limits : ContextLimits) :
    TeamSession.Atomic (p.session.writing writes)
      ((p.session.writing writes).directRequest input recipients limits).2 input recipients
      ((p.session.writing writes).directRequest input recipients limits).1 ↔
    ¬ (p.session.writing writes).Overcommits input recipients limits := by
  obtain ⟨hsound, hrooms⟩ := preserved_chargesRequests.always h
  exact TeamSession.directRequest_spec (s := p.session.writing writes) (hrooms _ p.holds_room).1
    (hsound.rooms _ p.holds_room).2

end

section

attribute [local instance] plainText

def crowdMember (n : ℕ) : Operation :=
  .addMember {
    name := [Char.ofNat (97 + n)]
    spec := { profile := { kind := .codex, name := [] }, roots := {}, settings := {}, role := [] } }

/-- Alice and twelve other members. -/
def crowd : List MemberId := aliceId :: (List.range 12).map fun n => ⟨⟨n, 0⟩⟩

/-- Twelve members join Alice, and all are ready. -/
def gathered : List Operation :=
  (List.range 12).map crowdMember ++ crowd.map fun m => .memberReady m 1 .unavailable

def more : UserInput := { text := "more".toList }

/-- The session that answers a request to the members who joined. -/
def gatheredSession : TeamSession (.plain Room) := (aliceAfter gathered).session.writing []

theorem gathered_run : ∃ labels, Run (teams (.plain Room)) labels (aliceAfter gathered) := by
  have hmay : aliceMay gathered = true := by decide +kernel
  obtain ⟨labels, hr⟩ := run_alice (fun _ _ => True) gathered hmay fun _ _ _ => trivial
  exact ⟨labels, hr.of_restrict⟩

theorem directRequest_atomic_twelve :
    (gatheredSession.directRequest more crowd.tail aliceLimits).1.isOk = true ∧
      TeamSession.Atomic gatheredSession
        (gatheredSession.directRequest more crowd.tail aliceLimits).2 more crowd.tail
        (gatheredSession.directRequest more crowd.tail aliceLimits).1 := by
  obtain ⟨labels, hr⟩ := gathered_run
  exact ⟨by decide +kernel, (directRequest_atomic hr [] more crowd.tail aliceLimits).mpr fun h ↦
    absurd h.many (by decide)⟩

/-- A request to thirteen members fails for its budget, and its input is a message all the same. -/
theorem directRequest_overcommits :
    (∃ labels, Run (teams (.plain Room)) labels (aliceAfter gathered)) ∧
      (aliceAfter gathered).isOpen = true ∧
      (gatheredSession.directRequest more crowd aliceLimits).1 =
        .error (.dispatch (.budget .insufficientTurns)) ∧
      gatheredSession.room.messages = [] ∧
      ((gatheredSession.directRequest more crowd aliceLimits).2.room.messages.map
        PublicMessage.text) = ["more".toList] := by
  refine ⟨gathered_run, ?_⟩
  decide +kernel

end

end NiumaTerm.Team
