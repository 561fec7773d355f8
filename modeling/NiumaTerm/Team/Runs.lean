import NiumaTerm.Team.Reach

/-!
# What holds in every run of a room

`sound_step` keeps what operations rely on.  `Preserved` is the rule that results about runs use: what
every change keeps of a room holds of every room that memory or the file can hold, and every step
relates the rooms before and after it.  The rule is also for runs in which only some operations are
made.
-/

namespace NiumaTerm.Team

open Checks Transition List

section

variable {J : Serde Room} [TeamText]

namespace TeamProcess

variable {p p' : TeamProcess J} {c : Call}

omit [TeamText] in
/-- Everything in flight was marked as uncertain when the room was opened. -/
theorem holds_of_reopened {r : Room} {id : AttemptId}
    (h : id ∈ ((r.reopened.attempts.filter fun t => t.state.inFlight).map Attempt.id)) :
    r.reopened.Holds id := by
  obtain ⟨t, ht, rfl⟩ := mem_map.mp h
  obtain ⟨hmem, hf⟩ := mem_filter.mp ht
  refine ⟨t, hmem, rfl, ?_⟩
  obtain ⟨u, -, rfl⟩ := mem_map.mp hmem
  dsimp only at hf ⊢
  split at hf
  · next hrun => rw [if_pos hrun]; rfl
  · next hrun =>
    rw [if_neg hrun]
    rcases hs : u.state <;> simp_all [AttemptState.inFlight, AttemptState.isRunning, AttemptState.isHeld]

theorem tracked_step (hs : p.Sound) (h : (teams J).step p c p') (ho : p'.isOpen = true) :
    p'.session.Tracked := by
  obtain ⟨s', hact, hp', hopen⟩ := step_act h
  rcases hop : c.operation.opens with _ | _
  · have hopen : p.isOpen = true := h.1.resolve_right (by simp [hop])
    have hr := hs.rooms _ p.holds_room
    have ht := TeamSession.tracked_act (s := { p.session with writes := c.writes })
      (hs.tracked hopen) hr.1 hr.2 hop
    rw [hact] at ht
    rw [hp']
    exact ht
  · obtain ⟨id, hid⟩ := exists_reopen hop
    obtain ⟨cell, hr⟩ := hs.cell
    rw [hid] at hact
    rcases hx : ({ p.session with writes := c.writes } : TeamSession J).reopen id with ⟨result, s''⟩
    rw [TeamSession.act, TeamSession.Outcome.done, hx] at hact
    obtain ⟨hresult, rfl⟩ := Prod.mk.inj hact
    have hok : result = .ok () := by
      rw [hopen, hop, if_pos rfl, ← hresult] at ho
      rcases result with e | _
      · cases ho
      · rfl
    rcases TeamSession.reopen_spec (n := 0) (s := { p.session with writes := c.writes }) hr hx with
      ⟨e, he, -⟩ | ⟨v, st, -, -, -, -, hv⟩
    · rw [hok] at he
      cases he
    · obtain ⟨hroom, hunresolved⟩ := hv hok
      rw [hp']
      intro key hkey
      refine .of_holds ?_
      change s''.room.Holds key
      rw [hroom]
      change key ∈ s''.unresolved at hkey
      rw [hunresolved, mem_toFinset] at hkey
      exact holds_of_reopened hkey

/-- **Every step keeps what operations rely on.** -/
theorem sound_step (hs : p.Sound) (h : (teams J).step p c p') : p'.Sound := by
  obtain ⟨st, ⟨cell, hr⟩, hheld, hsaves, -⟩ := exists_saves hs h
  obtain ⟨cell, hr, hexact⟩ := hr.exact
  have hrooms : ∀ v, st.Holds roomFormat v →
      v.2.validate = .ok () ∧ v.2.Below (p.session.serial + 1) := by
    intro v hv
    obtain ⟨hvalid, hb⟩ := hs.rooms v.2 ⟨v.1, hheld v hv⟩
    exact ⟨hvalid, hb.mono⟩
  obtain ⟨cell', hr', hcell', -⟩ := hsaves.rule (Q := fun _ _ => True)
    (P := fun r => r.validate = .ok () ∧ r.Below (p.session.serial + 1))
    (G := fun r => r.validate = .ok () ∧ r.Below (p.session.serial + 1)) hr
    (fun v hv => ⟨hrooms v (hexact v hv), trivial⟩) (hrooms _ (.inl rfl)) (fun r hr => ⟨hr, trivial⟩)
    fun r r' hr hvalid hc => ⟨⟨hvalid, Room.Step.below'
      ⟨valid_of_validate hr.1, valid_of_validate hvalid, hr.2, hc⟩⟩, trivial⟩
  refine ⟨⟨cell', hr'⟩, ?_, tracked_step hs h⟩
  rintro r ⟨revision, hheld'⟩
  obtain ⟨s', -, hp', -⟩ := step_act h
  have hserial : p'.session.serial = p.session.serial + 1 := by rw [hp']
  rw [hserial]
  exact (hcell' _ (hr'.holds hheld')).1

end TeamProcess

/-! ## The rule for runs -/

/-- The changes of operations that meet `L` keep `P`, and relate rooms by `Q`. -/
structure Kept (L : Operation → Room → Prop) (P : Room → Prop) (Q : Room → Room → Prop) : Prop where
  refl : ∀ r, Q r r
  trans : ∀ r r' r'', Q r r' → Q r' r'' → Q r r''
  opening : ∀ id r, L (.reopen id) r
  step : ∀ n op r r', Room.Step n op r r' → L op r → P r → P r' ∧ Q r r' ∧ L op r'

/-- `P` holds of the rooms, and `Q` relates them, in every run whose operations meet `L`. -/
structure Preserved (L : Operation → Room → Prop) (P : Room → Prop) (Q : Room → Room → Prop) : Prop
    extends Kept L P Q where
  blank : ∀ r : Room, r.Blank → P r

/-- What every change keeps. -/
theorem Kept.of_invariant {P : Room → Prop}
    (hstep : ∀ n op r r', Room.Step n op r r' → P r → P r') :
    Kept (fun _ _ => True) P fun _ _ => True :=
  ⟨fun _ => trivial, fun _ _ _ _ _ => trivial, fun _ _ => trivial,
    fun n op r r' hs _ hp => ⟨hstep n op r r' hs hp, trivial, trivial⟩⟩

/-- Invariants of every run. -/
theorem Preserved.of_invariant {P : Room → Prop} (hblank : ∀ r : Room, r.Blank → P r)
    (hstep : ∀ n op r r', Room.Step n op r r' → P r → P r') :
    Preserved (fun _ _ => True) P fun _ _ => True :=
  { Kept.of_invariant hstep with blank := hblank }

section

variable {L : Operation → Room → Prop} {P : Room → Prop} {Q : Room → Room → Prop}
  {p p' : TeamProcess J} {c : Call}

theorem Preserved.init (h : Preserved L P Q) (hi : (teams J).init p) :
    ∀ r, p.Holds r → P r ∧ Q p.session.room r := by
  obtain ⟨-, room, outcome, hblank, hc⟩ := hi
  simp only [TeamSession.create, bind_ok, mapError_ok] at hc
  obtain ⟨_, -, storage, hstore, hs⟩ := hc
  have hsession := (Except.ok.inj hs).symm
  have hr := Storage.Represents.settled (synced_createStore hstore)
  rintro r ⟨revision, hheld⟩
  rw [hsession] at hheld ⊢
  obtain ⟨-, rfl⟩ := Prod.mk.inj (hr.holds hheld)
  refine ⟨?_, h.refl _⟩
  rw [value_createStore hstore]
  exact h.blank room hblank

/-- **One step.** -/
theorem Kept.step_rule (h : Kept L P Q) (hs : p.Sound)
    (hp : ∀ r, p.Holds r → P r ∧ Q p.session.room r) (hL : L c.operation p.session.room)
    (hstep : (teams J).step p c p') :
    (∀ r, p'.Holds r → P r ∧ Q p'.session.room r) ∧ Q p.session.room p'.session.room := by
  obtain ⟨st, ⟨cell, hr⟩, hheld, hsaves, hst⟩ := TeamProcess.exists_saves hs hstep
  obtain ⟨cell, hr, hexact⟩ := hr.exact
  have hmem := hheld _ (.inl rfl)
  have hmemory : p.Holds st.store.value := ⟨_, hmem⟩
  have hcell : ∀ v, cell.Holds v → P v.2 ∧ Q st.store.value v.2 := by
    intro v hv
    have hheld := hexact v hv
    rcases hst with rfl | ⟨-, hsettled⟩
    · exact hp v.2 ⟨v.1, hheld⟩
    · rw [hsettled v hheld]
      exact ⟨(hp _ hmemory).1, h.refl _⟩
  let G (r : Room) : Prop := r.Valid ∧ r.Below (p.session.serial + 1) ∧ P r ∧
    L c.operation r ∧ Q p.session.room r
  have hstart : G st.store.value := by
    obtain ⟨hvalid, hb⟩ := hs.rooms _ hmemory
    refine ⟨valid_of_validate hvalid, hb.mono, (hp _ hmemory).1, ?_, (hp _ hmemory).2⟩
    rcases hst with rfl | ⟨hop, -⟩
    · exact hL
    · obtain ⟨id, hid⟩ := TeamProcess.exists_reopen hop
      rw [hid]
      exact h.opening id _
  have hchange : ∀ r r', G r → r'.validate = .ok () →
      Change p.session.serial c.operation r r' → G r' ∧ Q r r' := by
    rintro r r' ⟨hv, hb, hP, hL, hQ⟩ hvalid hc
    have hroom : Room.Step p.session.serial c.operation r r' :=
      ⟨hv, valid_of_validate hvalid, hb, hc⟩
    obtain ⟨hP', hQ', hL'⟩ := h.step _ _ r r' hroom hL hP
    exact ⟨⟨hroom.valid', hroom.below', hP', hL', h.trans _ _ _ hQ hQ'⟩, hQ'⟩
  obtain ⟨cell', hr', hcell', hG⟩ := hsaves.rule (P := P) (Q := Q) (G := G) hr hcell hstart
    (fun r hr => ⟨hr.2.2.1, h.refl r⟩) hchange
  refine ⟨?_, hG.2.2.2.2⟩
  rintro r ⟨revision, hheld'⟩
  exact hcell' _ (hr'.holds hheld')

/-- One step that meets the condition or saves nothing. -/
theorem Kept.step_or (h : Kept L P Q) (hs : p.Sound)
    (hp : ∀ r, p.Holds r → P r ∧ Q p.session.room r)
    (hL : L c.operation p.session.room ∨ p'.session.storage = p.session.storage)
    (hstep : (teams J).step p c p') :
    (∀ r, p'.Holds r → P r ∧ Q p'.session.room r) ∧ Q p.session.room p'.session.room := by
  rcases hL with hL | hst
  · exact h.step_rule hs hp hL hstep
  · have hroom : p'.session.room = p.session.room := by rw [TeamSession.room, hst, TeamSession.room]
    rw [hroom]
    refine ⟨fun r hheld => hp r ?_, h.refl _⟩
    rwa [TeamProcess.Holds, hst] at hheld

/-- **Every run.**  A condition on processes has to imply `L`, except for steps that save nothing. -/
theorem Preserved.run {allowed : TeamProcess J → Call → Prop} (h : Preserved L P Q)
    (hL : ∀ p c p', allowed p c → (teams J).step p c p' →
      L c.operation p.session.room ∨ p'.session.storage = p.session.storage)
    {labels : List Call} (hr : Run ((teams J).restrict allowed) labels p) :
    p.Sound ∧ ∀ r, p.Holds r → P r ∧ Q p.session.room r := by
  refine hr.invariant (I := fun p => p.Sound ∧ ∀ r, p.Holds r → P r ∧ Q p.session.room r) ?_ ?_
  · exact fun p hi => ⟨TeamProcess.sound_init hi, h.init hi⟩
  rintro p c p' ⟨hs, hp⟩ ⟨hallowed, hstep⟩
  exact ⟨TeamProcess.sound_step hs hstep, (h.step_or hs hp (hL p c p' hallowed hstep) hstep).1⟩

/-- An invariant of every run. -/
theorem Preserved.always (h : Preserved (fun _ _ => True) P Q) {labels : List Call}
    (hr : Run (teams J) labels p) : p.Sound ∧ ∀ r, p.Holds r → P r ∧ Q p.session.room r := by
  refine hr.invariant (I := fun p => p.Sound ∧ ∀ r, p.Holds r → P r ∧ Q p.session.room r) ?_ ?_
  · exact fun p hi => ⟨TeamProcess.sound_init hi, h.init hi⟩
  rintro p c p' ⟨hs, hp⟩ hstep
  exact ⟨TeamProcess.sound_step hs hstep, (h.step_rule hs hp trivial hstep).1⟩

end

/-! ## Performing operations -/

namespace TeamProcess

/-- Perform operations one after the other. -/
def performAll (p : TeamProcess J) : List (Operation × List WriteOutcome) → List Call × TeamProcess J
  | [] => ([], p)
  | (operation, writes) :: rest =>
    let (result, next) := p.call operation writes
    let (calls, last) := next.performAll rest
    ({ operation, writes, result } :: calls, last)

/-- Whether a process owns the room, or opens it, at each operation. -/
def mayPerform (p : TeamProcess J) : List (Operation × List WriteOutcome) → Bool
  | [] => true
  | (operation, writes) :: rest =>
    (p.isOpen || operation.opens) && (p.call operation writes).2.mayPerform rest

theorem step_call {p : TeamProcess J} (operation : Operation) (writes : List WriteOutcome)
    (h : (p.isOpen || operation.opens) = true) : (teams J).step p
      { operation, writes, result := (p.call operation writes).1 } (p.call operation writes).2 :=
  ⟨by simpa using h, rfl⟩

theorem run_performAll {allowed : TeamProcess J → Call → Prop} {labels : List Call}
    {p : TeamProcess J} {operations : List (Operation × List WriteOutcome)}
    (h : Run ((teams J).restrict allowed) labels p) (hmay : p.mayPerform operations = true)
    (hallowed : ∀ p c, (c.operation, c.writes) ∈ operations → allowed p c) :
    Run ((teams J).restrict allowed) (labels ++ (p.performAll operations).1)
      (p.performAll operations).2 := by
  induction operations generalizing labels p with
  | nil => rwa [performAll, append_nil]
  | cons entry rest ih =>
    obtain ⟨operation, writes⟩ := entry
    rw [mayPerform, Bool.and_eq_true] at hmay
    have := ih (h.step ⟨hallowed p _ mem_cons_self, step_call operation writes hmay.1⟩) hmay.2 fun p c hc => hallowed p c (mem_cons_of_mem _ hc)
    rwa [append_assoc] at this

end TeamProcess

end

/-! ## A room with one member -/

section

/-- Encoders that keep what a context is made of apart from its messages. -/
@[reducible] def plainText : TeamText where
  toLowercase name := name
  roleJson name role := name ++ role
  schedulingJson _ _ _ _ := []
  publicInputJson _ _ := some []
  userInputJson input := some input.text

attribute [local instance] plainText

def aliceId : MemberId := ⟨⟨0, 1⟩⟩

def aliceRoom : Room where
  id := ⟨⟨0, 0⟩⟩
  workspace := {}
  members := [{
    id := aliceId
    name := "alice".toList
    spec := { profile := { kind := .codex, name := [] }, roots := {}, settings := {}, role := [] }
    excluded := false
    providerId := none
    moderatorRegistered := false }]
  discussions := []
  messages := []
  summaries := []
  controls := {}
  attempts := []

/-- The process that has just created the room. -/
def aliceOpen : TeamProcess (.plain Room) where
  session :=
    { storage :=
        { store := { value := aliceRoom, revision := 0, failed := false }
          file := document (.plain Room) roomFormat aliceRoom 0 }
      readiness := fun _ => none
      unresolved := ∅
      serial := 0
      writes := [] }
  isOpen := true

def aliceLimits : ContextLimits := ⟨10000, 10⟩

theorem aliceOpen_init : (teams (.plain Room)).init aliceOpen := by
  refine ⟨rfl, aliceRoom, .done, ⟨rfl, rfl, rfl, rfl⟩, ?_⟩
  have hvalid : aliceRoom.validate = .ok () := by decide +kernel
  simp only [TeamSession.create, hvalid]
  rfl

/-- The process after operations on the room, without a write failing. -/
def aliceAfter (operations : List Operation) : TeamProcess (.plain Room) :=
  (aliceOpen.performAll (operations.map fun op => (op, []))).2

/-- Whether these operations can be performed. -/
def aliceMay (operations : List Operation) : Bool :=
  aliceOpen.mayPerform (operations.map fun op => (op, []))

theorem run_alice (allowed : TeamProcess (.plain Room) → Call → Prop) (operations : List Operation)
    (hmay : aliceMay operations = true)
    (hallowed : ∀ p c, c.operation ∈ operations → allowed p c) :
    ∃ labels, Run ((teams (.plain Room)).restrict allowed) labels (aliceAfter operations) := by
  refine ⟨_, TeamProcess.run_performAll (.init aliceOpen_init) hmay fun p c hc => hallowed p c ?_⟩
  obtain ⟨op, hop, he⟩ := mem_map.mp hc
  rwa [← (Prod.mk.inj he).1]

/-- A discussion completes; then a direct request is sent, and the room is opened again. -/
def reportThenRequest : List Operation := [
  .memberReady aliceId 1 .unavailable,
  .startDiscussion { text := "plan".toList } [aliceId] (.fixed aliceId),
  .finishWithReport ⟨⟨1, 0⟩⟩,
  .advanceDiscussion ⟨⟨1, 0⟩⟩ aliceLimits,
  .prepareDispatch ⟨⟨3, 0⟩⟩,
  .acceptAttempt ⟨⟨⟨3, 0⟩⟩, aliceId, 1⟩ "turn".toList,
  .completeReply ⟨⟨⟨3, 0⟩⟩, aliceId, 1⟩ "turn".toList "report".toList,
  .directRequest { text := "more".toList } [aliceId] aliceLimits,
  .prepareDispatch ⟨⟨7, 0⟩⟩,
  .reopen ⟨⟨0, 0⟩⟩]

theorem reportThenRequest_may : aliceMay reportThenRequest = true := by decide +kernel

theorem reportThenRequest_run :
    ∃ labels, Run (teams (.plain Room)) labels (aliceAfter reportThenRequest) := by
  obtain ⟨labels, hr⟩ := run_alice (fun _ _ => True) reportThenRequest reportThenRequest_may
    fun _ _ _ => trivial
  exact ⟨labels, hr.of_restrict⟩

end

end NiumaTerm.Team
