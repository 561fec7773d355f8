import NiumaTerm.Team.Evolution

/-!
# Arrangements and the attempts made for them

What was sent for an arrangement is recorded in its state and in the state of an attempt; `Linked` says how
the two agree.  `Work` is an arrangement with what its stage and discussion add to it.
-/

namespace NiumaTerm.Team

open Rust List

/-- An arrangement in its place. -/
structure Work where
  discussion : DiscussionId
  stage : StageId
  kind : StageKind
  /-- The last segment of the stage. -/
  boundary : Option PublicSnapshot
  arrangement : Arrangement

namespace Work

def operation (w : Work) : OperationId := w.arrangement.operation

def state (w : Work) : ArrangementState := w.arrangement.state

def withState (w : Work) (state : ArrangementState) : Work :=
  { w with arrangement := { w.arrangement with state } }

@[simp] theorem withState_state (w : Work) (a : ArrangementState) : (w.withState a).state = a := rfl

/-- An attempt that was reserved for the work. -/
structure IsFor (w : Work) (t : Attempt) : Prop where
  operation : t.intent.operation = w.operation
  budget : t.intent.budget = .discussion w.discussion
  recipient : t.intent.recipient = w.arrangement.recipient
  stage : t.intent.stage = some w.stage
  purpose : t.intent.purpose = stagePurpose w.kind

end Work

def Discussion.works (d : Discussion) : List Work :=
  d.stages.flatMap fun s => s.arrangements.map fun a =>
    { discussion := d.id, stage := s.id, kind := s.kind, boundary := s.segments.getLast?, arrangement := a }

def Room.works (r : Room) : List Work := r.discussions.flatMap Discussion.works

/-- What the state of an arrangement says about an attempt. -/
def ArrangementState.Tells (t : Attempt) : ArrangementState → Prop
  | active id => t.id = id ∧ t.state.isRunning = true
  | uncertain id => t.id = id ∧ t.state = .uncertain
  | completed id => t.id = id ∧ ∃ message, t.state = .completed message
  | failed id => t.id = id ∧ (t.state = .failed ∨ t.state = .rejected)
  | _ => False

/-- The attempt that the state of an arrangement names. -/
def ArrangementState.attempt? : ArrangementState → Option AttemptId
  | active id | uncertain id | completed id | failed id => some id
  | _ => none

namespace ArrangementState

variable {a : ArrangementState} {t : Attempt}

theorem Tells.attempt (h : a.Tells t) : a.attempt? = some t.id := by
  rcases a with _ | _ | _ | _ | _ | _ | _ <;> simp_all [Tells, attempt?]

theorem Tells.ne_reserved (h : a.Tells t) : t.state ≠ .reserved := by
  intro hs
  rcases a with _ | _ | _ | _ | _ | _ | _ <;> simp_all [Tells, AttemptState.isRunning]

/-- Work of an attempt in flight is not settled. -/
theorem Tells.isActive (h : a.Tells t) (hf : t.state.inFlight = true) : a.isActive = true := by
  rcases a with _ | _ | _ | _ | _ | _ | _
  case active | uncertain => rfl
  case pending | skipped | cancelled => exact h.elim
  case completed =>
    obtain ⟨-, m, hm⟩ := h
    simp [hm, AttemptState.inFlight] at hf
  case failed =>
    rcases h with ⟨-, h | h⟩ <;> simp [h, AttemptState.inFlight] at hf

/-- Active work is told of an attempt in flight. -/
theorem Tells.inFlight (h : a.Tells t) (ha : a.isActive = true) : t.state.inFlight = true := by
  rcases a with _ | _ | _ | _ | _ | _ | _
  case active => exact AttemptState.inFlight_of_isRunning h.2
  case uncertain => rw [h.2]; rfl
  all_goals cases ha

theorem Tells.eq_active (h : a.Tells t) (hr : t.state.isRunning = true) : a = .active t.id := by
  rcases a with _ | _ | _ | _ | _ | _ | _
  case active => rw [h.1]
  case pending | skipped | cancelled => exact h.elim
  case completed =>
    obtain ⟨-, m, hm⟩ := h
    simp [hm, AttemptState.isRunning] at hr
  case failed => rcases h with ⟨-, h | h⟩ <;> simp [h, AttemptState.isRunning] at hr
  case uncertain => simp [h.2, AttemptState.isRunning] at hr

theorem Tells.active_or_uncertain (h : a.Tells t) (hf : t.state.inFlight = true) :
    a = .active t.id ∨ a = .uncertain t.id := by
  have hactive := h.isActive hf
  rcases a with _ | _ | _ | _ | _ | _ | _
  case active => exact .inl (by rw [h.1])
  case uncertain => exact .inr (by rw [h.1])
  all_goals cases hactive

theorem attempt?_of_isActive (h : a.isActive = true) : ∃ id, a.attempt? = some id := by
  rcases a with _ | id | _ | _ | id | _ | _ <;> first | exact ⟨id, rfl⟩ | cases h

end ArrangementState

/-- The records of attempts and of arrangements agree. -/
structure Linked (works : List Work) (attempts : List Attempt) : Prop where
  /-- The turns of a discussion are for its arrangements. -/
  tracked : ∀ t ∈ attempts, ∀ id, t.intent.budget = .discussion id → ∃ w ∈ works, w.IsFor t
  /-- An attempt for an arrangement is charged to its discussion. -/
  owned : ∀ t ∈ attempts, ∀ w ∈ works, t.intent.operation = w.operation →
    t.intent.budget = .discussion w.discussion
  /-- What is in flight is shown. -/
  live : ∀ t ∈ attempts, t.state.inFlight = true → ∀ w ∈ works, t.intent.operation = w.operation →
    w.state.Tells t
  /-- What is shown is true. -/
  shown : ∀ w ∈ works, ∀ id, w.state.attempt? = some id →
    ∃ t ∈ attempts, t.intent.operation = w.operation ∧ w.state.Tells t
  /-- What is reserved is for the last segment of its stage. -/
  current : ∀ t ∈ attempts, t.state = .reserved → ∀ w ∈ works, t.intent.operation = w.operation →
    w.boundary = some t.intent.snapshot

namespace Linked

variable {works works' : List Work} {attempts attempts' : List Attempt} {t : Attempt}

theorem nil : Linked [] [] := by
  constructor <;> simp

/-- Only what the lists contain matters. -/
theorem congr (h : Linked works attempts) (hw : ∀ w, w ∈ works' ↔ w ∈ works) :
    Linked works' attempts where
  tracked t ht id hid := by
    obtain ⟨w, hmem, hfor⟩ := h.tracked t ht id hid
    exact ⟨w, (hw w).mpr hmem, hfor⟩
  owned t ht w hmem := h.owned t ht w ((hw w).mp hmem)
  live t ht hf w hmem := h.live t ht hf w ((hw w).mp hmem)
  shown w hmem := h.shown w ((hw w).mp hmem)
  current t ht hs w hmem := h.current t ht hs w ((hw w).mp hmem)

/-- Attempts and arrangements change their states. -/
theorem map (h : Linked works attempts) {g : Attempt → Attempt} {f : Work → ArrangementState}
    (hg : ∀ t ∈ attempts, (g t).intent = t.intent ∧ ((g t).state = .reserved → t.state = .reserved))
    (hlive : ∀ t ∈ attempts, ∀ w ∈ works, t.intent.operation = w.operation →
      (g t).state.inFlight = true → (f w).Tells (g t))
    (hshown : ∀ w ∈ works, ∀ id, (f w).attempt? = some id →
      ∃ t ∈ attempts, t.intent.operation = w.operation ∧ (f w).Tells (g t)) :
    Linked (works.map fun w => w.withState (f w)) (attempts.map g) where
  tracked := by
    rintro _ ht' id hid
    obtain ⟨t, ht, rfl⟩ := mem_map.mp ht'
    rw [(hg t ht).1] at hid
    obtain ⟨w, hw, hfor⟩ := h.tracked t ht id hid
    refine ⟨_, mem_map_of_mem hw, ?_⟩
    obtain ⟨h₁, h₂, h₃, h₄, h₅⟩ := hfor
    constructor <;> rw [(hg t ht).1] <;> assumption
  owned := by
    rintro _ ht' _ hw'
    obtain ⟨t, ht, rfl⟩ := mem_map.mp ht'
    obtain ⟨w, hw, rfl⟩ := mem_map.mp hw'
    rw [(hg t ht).1]
    exact h.owned t ht w hw
  live := by
    rintro _ ht' hf _ hw' hop
    obtain ⟨t, ht, rfl⟩ := mem_map.mp ht'
    obtain ⟨w, hw, rfl⟩ := mem_map.mp hw'
    rw [(hg t ht).1] at hop
    exact hlive t ht w hw hop hf
  shown := by
    rintro _ hw' id hid
    obtain ⟨w, hw, rfl⟩ := mem_map.mp hw'
    obtain ⟨t, ht, hop, htells⟩ := hshown w hw id hid
    exact ⟨_, mem_map_of_mem ht, by rw [(hg t ht).1]; exact hop, htells⟩
  current := by
    rintro _ ht' hs _ hw' hop
    obtain ⟨t, ht, rfl⟩ := mem_map.mp ht'
    obtain ⟨w, hw, rfl⟩ := mem_map.mp hw'
    rw [(hg t ht).1] at hop ⊢
    exact h.current t ht ((hg t ht).2 hs) w hw hop

/-- The outcome of an attempt, recorded at its arrangement. -/
theorem settle (h : Linked works attempts) (hn : (attempts.map Attempt.id).Nodup)
    (ht : t ∈ attempts) {f : Attempt → Attempt} {a : ArrangementState}
    (hc : (f t).intent = t.intent) (hr : (f t).state ≠ .reserved)
    (hsent : t.state.inFlight = true ∨
      ∀ w ∈ works, t.intent.operation = w.operation → w.state = .pending)
    (htells : (∃ w ∈ works, t.intent.operation = w.operation) → a.Tells (f t)) :
    Linked (works.map fun w => w.withState (if w.operation = t.intent.operation then a else w.state))
      (attempts.map fun u => if u.id = t.id then f u else u) := by
  have hchange : ∀ u ∈ attempts, u.id = t.id → u = t := fun u hu hid =>
    inj_on_of_nodup_map hn hu ht hid
  refine h.map (fun u hu => ?_) (fun u hu w hw hop hf => ?_) fun w hw id hid => ?_
  · split
    · next hid =>
      obtain rfl := hchange u hu hid
      exact ⟨hc, fun hs => absurd hs hr⟩
    · exact ⟨rfl, fun hs => hs⟩
  · by_cases hid : u.id = t.id
    · obtain rfl := hchange u hu hid
      rw [if_pos rfl, if_pos hop.symm]
      exact htells ⟨w, hw, hop⟩
    · rw [if_neg hid] at hf ⊢
      have hold := h.live u hu hf w hw hop
      split
      · next hwop =>
        -- Two attempts of one operation are not in flight together.
        rcases hsent with ht' | hpending
        · have htold := h.live t ht ht' w hw hwop.symm
          exact absurd (Option.some.inj (hold.attempt.symm.trans htold.attempt)) hid
        · rw [hpending w hw hwop.symm] at hold
          exact hold.elim
      · exact hold
  · by_cases hwop : w.operation = t.intent.operation
    · rw [if_pos hwop]
      exact ⟨t, ht, hwop.symm, by rw [if_pos rfl]; exact htells ⟨w, hw, hwop.symm⟩⟩
    · rw [if_neg hwop] at hid ⊢
      obtain ⟨u, hu, hop, hold⟩ := h.shown w hw id hid
      refine ⟨u, hu, hop, ?_⟩
      rw [if_neg]
      · exact hold
      · intro he
        rw [hchange u hu he] at hop
        exact hwop hop.symm

/-- Reservations are cancelled, and work that is not running. -/
theorem cancel (h : Linked works attempts) {g : Attempt → Attempt} {f : Work → ArrangementState}
    (hg : ∀ t ∈ attempts, g t = t ∨ t.state = .reserved ∧ g t = { t with state := .rejected })
    (hf : ∀ w ∈ works, f w = w.state ∨ w.state.isActive = false ∧ (f w).attempt? = none) :
    Linked (works.map fun w => w.withState (f w)) (attempts.map g) := by
  refine h.map (fun t ht => ?_) (fun t ht w hw hop hfl => ?_) fun w hw id hid => ?_
  · rcases hg t ht with he | ⟨-, he⟩
    · rw [he]
      exact ⟨rfl, fun hs => hs⟩
    · rw [he]
      exact ⟨rfl, nofun⟩
  · rcases hg t ht with he | ⟨-, he⟩
    · rw [he] at hfl ⊢
      have hold := h.live t ht hfl w hw hop
      rcases hf w hw with hw' | ⟨hw', -⟩
      · rwa [hw']
      · rw [hold.isActive hfl] at hw'
        cases hw'
    · rw [he] at hfl
      cases hfl
  · rcases hf w hw with hw' | ⟨-, hw'⟩
    · rw [hw'] at hid ⊢
      obtain ⟨t, ht, hop, hold⟩ := h.shown w hw id hid
      rcases hg t ht with he | ⟨hs, -⟩
      · exact ⟨t, ht, hop, by rwa [he]⟩
      · exact absurd hs hold.ne_reserved
    · rw [hw'] at hid
      cases hid

/-- New arrangements wait. -/
theorem addWorks (h : Linked works attempts) {new : List Work}
    (hn : ∀ w ∈ new, w.state.attempt? = none ∧ ∀ t ∈ attempts, t.intent.operation ≠ w.operation) :
    Linked (works ++ new) attempts where
  tracked t ht id hid := by
    obtain ⟨w, hw, hfor⟩ := h.tracked t ht id hid
    exact ⟨w, mem_append_left _ hw, hfor⟩
  owned t ht w hw hop := by
    rcases mem_append.mp hw with hw | hw
    · exact h.owned t ht w hw hop
    · exact absurd hop ((hn w hw).2 t ht)
  live t ht hf w hw hop := by
    rcases mem_append.mp hw with hw | hw
    · exact h.live t ht hf w hw hop
    · exact absurd hop ((hn w hw).2 t ht)
  shown w hw id hid := by
    rcases mem_append.mp hw with hw | hw
    · exact h.shown w hw id hid
    · rw [(hn w hw).1] at hid
      cases hid
  current t ht hs w hw hop := by
    rcases mem_append.mp hw with hw | hw
    · exact h.current t ht hs w hw hop
    · exact absurd hop ((hn w hw).2 t ht)

/-- New attempts are reserved, for work that is there or for a new operation. -/
theorem addAttempts (h : Linked works attempts) {new : List Attempt}
    (hn : ∀ t ∈ new, t.state = .reserved ∧
      ((∀ id, t.intent.budget ≠ .discussion id) ∧ (∀ w ∈ works, t.intent.operation ≠ w.operation) ∨
        ∃ w ∈ works, w.IsFor t ∧ w.boundary = some t.intent.snapshot ∧
          ∀ w' ∈ works, w'.operation = w.operation → w' = w)) : Linked works (attempts ++ new) where
  tracked t ht id hid := by
    rcases mem_append.mp ht with ht | ht
    · exact h.tracked t ht id hid
    · rcases (hn t ht).2 with ⟨hb, -⟩ | ⟨w, hw, hfor, -⟩
      · exact absurd hid (hb id)
      · exact ⟨w, hw, hfor⟩
  owned t ht w hw hop := by
    rcases mem_append.mp ht with ht | ht
    · exact h.owned t ht w hw hop
    · rcases (hn t ht).2 with ⟨-, hne⟩ | ⟨w', hw', hfor, -, hu⟩
      · exact absurd hop (hne w hw)
      · rw [hu w hw (hop.symm.trans hfor.operation)]
        exact hfor.budget
  live t ht hf w hw hop := by
    rcases mem_append.mp ht with ht | ht
    · exact h.live t ht hf w hw hop
    · rw [(hn t ht).1] at hf
      cases hf
  shown w hw id hid := by
    obtain ⟨t, ht, hold⟩ := h.shown w hw id hid
    exact ⟨t, mem_append_left _ ht, hold⟩
  current t ht hs w hw hop := by
    rcases mem_append.mp ht with ht | ht
    · exact h.current t ht hs w hw hop
    · rcases (hn t ht).2 with ⟨-, hne⟩ | ⟨w', hw', hfor, hb, hu⟩
      · exact absurd hop (hne w hw)
      · rw [hu w hw (hop.symm.trans hfor.operation)]
        exact hb

/-- Stages of a discussion without reservations get new segments. -/
theorem rebase (h : Linked works attempts)
    (hto : ∀ w ∈ works, ∃ boundary, { w with boundary } ∈ works')
    (hfrom : ∀ w' ∈ works', ∃ w ∈ works, ∃ boundary, w' = { w with boundary } ∧
      (boundary = w.boundary ∨ ∀ t ∈ attempts, t.intent.budget = .discussion w.discussion →
        t.state ≠ .reserved)) : Linked works' attempts where
  tracked t ht id hid := by
    obtain ⟨w, hw, h₁, h₂, h₃, h₄, h₅⟩ := h.tracked t ht id hid
    obtain ⟨boundary, hw'⟩ := hto w hw
    exact ⟨_, hw', h₁, h₂, h₃, h₄, h₅⟩
  owned t ht w' hw' := by
    obtain ⟨w, hw, boundary, rfl, -⟩ := hfrom w' hw'
    exact h.owned t ht w hw
  live t ht hf w' hw' := by
    obtain ⟨w, hw, boundary, rfl, -⟩ := hfrom w' hw'
    exact h.live t ht hf w hw
  shown w' hw' id hid := by
    obtain ⟨w, hw, boundary, rfl, -⟩ := hfrom w' hw'
    exact h.shown w hw id hid
  current t ht hs w' hw' hop := by
    obtain ⟨w, hw, boundary, rfl, rfl | hr⟩ := hfrom w' hw'
    · exact h.current t ht hs w hw hop
    · exact absurd hs (hr t ht (h.owned t ht w hw hop))

end Linked

end NiumaTerm.Team
