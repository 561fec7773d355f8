import NiumaTerm.Team.Tracked

/-!
# What holds in every run of a room

`TeamProcess.Sound`: everything that memory or the file can hold was accepted by the store, and the attempts
that a session lists as unresolved are in flight.  `Preserved` is the rule for runs: what every change keeps
holds of every room that memory or the file can hold.
-/

namespace NiumaTerm.Team

open Checks Durable

variable {J : Serde Room} [TeamText]

/-! ## Sequences of saves -/

namespace TeamSession

/-- **What one operation keeps.**  `G` holds of the room in memory all along; `P` and `Q` hold of
everything that the file can hold. -/
theorem Saves.rule {n : ℕ} {op : Operation} {st st' : Storage J} {cell : Cell (ℕ × Room)}
    {P G : Room → Prop} {Q : Room → Room → Prop} (h : Saves n op st st')
    (hr : st.Represents roomFormat cell)
    (hcell : ∀ v, cell.Holds v → P v.2 ∧ Q st.store.value v.2) (hmem : G st.store.value)
    (hG : ∀ r, G r → P r ∧ Q r r)
    (hstep : ∀ r r', G r → r'.validate = .ok () → Change n op r r' → G r' ∧ Q r r') :
    ∃ cell', st'.Represents roomFormat cell' ∧
      (∀ v, cell'.Holds v → P v.2 ∧ Q st'.store.value v.2) ∧ G st'.store.value := by
  induction h with
  | refl => exact ⟨cell, hr, hcell, hmem⟩
  | @step st₁ next write _ hc ih =>
    obtain ⟨cell₁, hr₁, hcell₁, hmem₁⟩ := ih
    rcases hcommit : st₁.commit roomFormat (saving next write) with ⟨result, st₂⟩
    rcases hr₁.commit hcommit with rfl | ⟨hw, cell₂, hr₂, hwrite⟩
    · exact ⟨cell₁, hr₁, hcell₁, hmem₁⟩
    have hvalid : next.validate = .ok () := by
      have := hw.checked
      simp only [saving, checkUpdate, bind_ok] at this
      exact this.choose_spec.1
    obtain ⟨hnext, hq⟩ := hstep _ _ hmem₁ hvalid hc
    refine ⟨cell₂, hr₂, ?_⟩
    have hvalue : cell₂.memory = (st₂.store.revision, st₂.store.value) := hr₂.memory
    rcases hwrite with ⟨v, _⟩ | ⟨v, _⟩
    · have hv : st₂.store.value = next := congrArg Prod.snd hvalue.symm
      rw [hv]
      refine ⟨?_, hnext⟩
      rintro w rfl
      exact hG _ hnext
    · have hv : st₂.store.value = v.2 := congrArg Prod.snd hvalue.symm
      have hv₁ : st₁.store.value = v.2 := congrArg Prod.snd hr₁.memory.symm
      rw [hv₁] at hq hmem₁
      rw [hv]
      refine ⟨?_, hmem₁⟩
      rintro w (rfl | rfl)
      · exact hG _ hmem₁
      · exact ⟨(hG _ hnext).1, hq⟩

/-! ## Opening a room -/

/-- Opening a room fails, or gives what the file holds, changed as `Room.reopened`. -/
theorem reopen_spec {s s' : TeamSession J} {id : RoomId} {cell : Cell (ℕ × Room)} {n : ℕ}
    {result : Except TeamError Unit} (hr : s.storage.Represents roomFormat cell)
    (h : s.reopen id = (result, s')) :
    (∃ e, result = .error e ∧ s' = s) ∨
      ∃ v st, cell.Holds v ∧ st.Represents roomFormat (.settled v) ∧ st.store.value = v.2 ∧
        Saves n (.reopen id) st s'.storage ∧
        (result = .ok () → s'.room = v.2.reopened ∧ s'.unresolved =
          ((v.2.reopened.attempts.filter fun t => t.state.inFlight).map Attempt.id).toFinset) := by
  rw [reopen] at h
  split at h
  · next e he =>
    cases h
    exact .inl ⟨e, rfl, rfl⟩
  next store hopen =>
  simp only [openRoom, bind_ok, mapError_ok, failIf_ok] at hopen
  obtain ⟨store', hstore, _, -, _, -, hopen⟩ := hopen
  obtain rfl := Except.ok.inj hopen
  obtain ⟨v, hread, hv⟩ := hr.openStore
  obtain rfl := Except.ok.inj (hread.symm.trans hstore)
  let st : Storage J := { s.storage with store := { value := v.2, revision := v.1, failed := false } }
  have hst : st.Represents roomFormat (.settled v) := .settled (synced_openStore hread)
  refine .inr ⟨v, st, hv, hst, rfl, ?_⟩
  let opened : TeamSession J :=
    { s with storage := st, readiness := fun _ => none, unresolved := ∅ }
  have hsave : Traced n (.reopen id) opened (opened.save .storage v.2.reopened ()) :=
    .save (fun _ => rfl) .reopened
  change TeamSession.andThen (opened.save .storage v.2.reopened ()) _ = _ at h
  rcases hx : opened.save .storage v.2.reopened () with ⟨e | _, s''⟩
  · rw [hx] at h hsave
    cases h
    exact ⟨hsave.saves, fun he => by cases he⟩
  · have hroom := save_ok hx
    rw [hx] at h hsave
    cases h
    exact ⟨hsave.saves, fun _ => ⟨hroom, rfl⟩⟩

end TeamSession

/-! ## Steps -/

/-- A change of an accepted room that the store accepts. -/
structure Room.Step (n : ℕ) (op : Operation) (r r' : Room) : Prop where
  valid : r.Valid
  valid' : r'.Valid
  below : r.Below (n + 1)
  change : Change n op r r'

variable {n : ℕ} {r r' : Room}

omit [TeamText] in
theorem Room.Below.mono (h : r.Below n) : r.Below (n + 1) :=
  ⟨fun a ha => (h.arrangements a ha).trans n.lt_succ_self,
    fun t ht => (h.attempts t ht).trans n.lt_succ_self⟩

omit [TeamText] in
theorem Room.Evolves.below (h : r.Evolves n r') (hb : r.Below (n + 1)) : r'.Below (n + 1) where
  arrangements a' ha' := by
    obtain ⟨d', hd', s', hs', ha'⟩ := Room.mem_arrangements.mp ha'
    have hmade : s'.MadeBy n → a'.operation.uuid.serial < n + 1 := by
      intro hm
      rw [hm a' ha']
      exact n.lt_succ_self
    obtain ⟨d, hd, he⟩ | hn := h.discussions.of_mem hd'
    · obtain ⟨s, hs, hse⟩ | hn := he.stages.of_mem hs'
      · obtain ⟨a, ha, hae⟩ | hn := hse.arrangements.of_mem ha'
        · rw [hae.operation]
          exact hb.arrangements a (Room.mem_arrangements.mpr ⟨d, hd, s, hs, ha⟩)
        · exact hn.elim
      · exact hmade hn
    · exact hmade (hn s' hs')
  attempts t' ht' := by
    obtain ⟨t, ht, he⟩ | hn := h.attempts.of_mem ht'
    · rw [he.intent]
      exact hb.attempts t ht
    · exact Nat.lt_succ_of_le hn

theorem Room.Step.evolves {op : Operation} (h : r.Step n op r') :
    r.Evolves n r' := h.change.evolves h.valid h.below

theorem Room.Step.below' {op : Operation} (h : r.Step n op r') :
    r'.Below (n + 1) := h.evolves.below h.below

/-! ## Sound processes -/

namespace TeamProcess

/-- Memory or the file holds the room. -/
def Holds (p : TeamProcess J) (r : Room) : Prop :=
  ∃ revision, p.session.storage.Holds roomFormat (revision, r)

/-- What operations rely on. -/
structure Sound (p : TeamProcess J) : Prop where
  cell : ∃ cell, p.session.storage.Represents roomFormat cell
  rooms : ∀ r, p.Holds r → r.validate = .ok () ∧ r.Below p.session.serial
  tracked : p.isOpen = true → p.session.Tracked

variable {p p' : TeamProcess J} {c : Call}

omit [TeamText] in
theorem holds_room (p : TeamProcess J) : p.Holds p.session.room :=
  ⟨p.session.storage.store.revision, .inl rfl⟩

theorem Sound.valid (h : p.Sound) : p.session.room.Valid := valid_of_validate (h.rooms _ p.holds_room).1

theorem sound_init (h : (teams J).init p) : p.Sound := by
  obtain ⟨-, room, outcome, hblank, hc⟩ := h
  simp only [TeamSession.create, bind_ok, mapError_ok] at hc
  obtain ⟨_, hvalid, storage, hstore, hs⟩ := hc
  have hsession := (Except.ok.inj hs).symm
  have hr := Storage.Represents.settled (synced_createStore hstore)
  refine ⟨⟨_, by rw [hsession]; exact hr⟩, ?_, fun _ id hid => ?_⟩
  · rintro r ⟨revision, hheld⟩
    rw [hsession] at hheld ⊢
    obtain ⟨-, rfl⟩ := Prod.mk.inj (hr.holds hheld)
    dsimp only
    rw [value_createStore hstore]
    refine ⟨hvalid, fun a ha => ?_, fun t ht => ?_⟩
    · simp [Room.arrangements, hblank.discussions] at ha
    · simp [hblank.attempts] at ht
  · rw [hsession] at hid
    simp at hid

omit [TeamText] in
theorem exists_reopen {op : Operation} (h : op.opens = true) : ∃ id, op = .reopen id := by
  rcases op <;> simp_all [Operation.opens]

theorem step_act (h : (teams J).step p c p') : ∃ s',
    ({ p.session with writes := c.writes } : TeamSession J).act c.operation = (c.result, s') ∧
      p'.session = { s' with serial := p.session.serial + 1 } ∧
      p'.isOpen = (if c.operation.opens then c.result.isOk else p.isOpen) := by
  obtain ⟨-, h⟩ := h
  rcases hact : ({ p.session with writes := c.writes } : TeamSession J).act c.operation with
    ⟨result, s'⟩
  simp only [call, TeamSession.run, hact] at h
  obtain ⟨rfl, rfl⟩ := Prod.mk.inj h
  exact ⟨s', rfl, rfl, rfl⟩

/-- **What a step saves.**  An operation starts from the storage of the process, or from what opening
the file gives. -/
theorem exists_saves (hs : p.Sound) (h : (teams J).step p c p') :
    ∃ st, (∃ cell, st.Represents roomFormat cell) ∧
      (∀ v, st.Holds roomFormat v → p.session.storage.Holds roomFormat v) ∧
      TeamSession.Saves p.session.serial c.operation st p'.session.storage ∧
      (st = p.session.storage ∨
        c.operation.opens = true ∧ ∀ v, st.Holds roomFormat v → v.2 = st.store.value) := by
  obtain ⟨s', hact, hp', -⟩ := step_act h
  obtain ⟨cell, hr⟩ := hs.cell
  have hstorage : p'.session.storage = s'.storage := by rw [hp']
  rw [hstorage]
  rcases hop : c.operation.opens with _ | _
  · have hopen : p.isOpen = true := h.1.resolve_right (by simp [hop])
    have hb := (hs.rooms _ p.holds_room).2
    have hsaved := TeamSession.saved_act (s := { p.session with writes := c.writes }) hs.valid hb
      (fun id hid => by
        obtain ⟨t, ht, he, hf, -⟩ := hs.tracked hopen id hid
        exact ⟨t, ht, he, hf⟩) hop
    rw [hact] at hsaved
    exact ⟨p.session.storage, ⟨cell, hr⟩, fun _ hv => hv, hsaved.saves, .inl rfl⟩
  · obtain ⟨id, hid⟩ := exists_reopen hop
    rw [hid] at hact ⊢
    obtain ⟨cell, hr, hexact⟩ := hr.exact
    rcases hx : ({ p.session with writes := c.writes } : TeamSession J).reopen id with ⟨result, s''⟩
    have hss : s'' = s' := by
      rw [TeamSession.act, TeamSession.Outcome.done, hx] at hact
      exact congrArg Prod.snd hact
    subst hss
    rcases TeamSession.reopen_spec (s := { p.session with writes := c.writes }) hr hx with
      ⟨e, -, rfl⟩ | ⟨v, st, hv, hst, hvalue, hsaves, -⟩
    · exact ⟨p.session.storage, ⟨cell, hr⟩, fun _ hv => hv, .refl _, .inl rfl⟩
    · refine ⟨st, ⟨_, hst⟩, fun w hw => ?_, hsaves, .inr ⟨rfl, fun w hw => ?_⟩⟩
      · obtain rfl := hst.holds hw
        exact hexact w hv
      · rw [hvalue, hst.holds hw]

end TeamProcess

end NiumaTerm.Team
