import NiumaTerm.ClaudeCode.Prompting

/-!
# The requests of the CLI

`Session.Serves`: what the CLI waits for was answered once, or is held so that the user can answer it.
Approvals and questions have one slot each; `requests_served` is what holds as long as no second request
replaces the first.
-/

namespace NiumaTerm.ClaudeCode

open Rust Transition List

variable {Choice Form : Type}

/-- An answer of the user. -/
def Call.IsAnswer : Call → Prop
  | .respondApproval _ _ | .respondInput _ _ | .declineInput _ => True
  | _ => False

section

variable [ChoiceDialog Choice] [Elicitation Form]

/-- An answer of the user would be written for the request. -/
def Session.Answerable (s : Session Choice Form) (id : Str) : Prop :=
  ∃ call : Call, call.IsAnswer ∧ (s.perform call).2.replies id = s.replies id + 1

/-- Every request that the CLI waits for was answered once, or is held and can be answered. -/
def Session.Serves (s : Session Choice Form) (calls : List Call) : Prop :=
  s.Connected → ∀ id ∈ openRequests calls, (s.replies id = 1 ∧ ¬ s.Holds id) ∨
    (s.replies id = 0 ∧ s.Holds id ∧ s.Answerable id)

end

/-! ## Every request is answered or held -/

namespace Session

/-- What the calls so far say about the prompts of a connected session. -/
structure Kept (calls : List Call) (s : Session Choice Form) : Prop where
  nodup : s.heldIds.Nodup
  held : ∀ id, s.Holds id → id ∈ openRequests calls
  replied : ∀ id, s.replies id ≠ 0 → id ∈ asked calls
  retired : ∀ id ∈ s.control.dialogs.retired, id ∈ asked calls
  served : ∀ id ∈ openRequests calls,
    (s.replies id = 1 ∧ ¬ s.Holds id) ∨ (s.replies id = 0 ∧ s.Holds id)

end Session

theorem openRequests_concat (calls : List Call) (call : Call) :
    openRequests (calls ++ [call]) = stillOpen (openRequests calls) call := by
  rw [openRequests, foldl_append]
  rfl

theorem asked_concat (calls : List Call) (call : Call) :
    asked (calls ++ [call]) = asked calls ++ call.asks.toList := by
  rw [asked, filterMap_append]
  cases h : call.asks <;> simp [asked, h]

theorem mem_asked_of_mem_openRequests {calls : List Call} {id : Str} (h : id ∈ openRequests calls) :
    id ∈ asked calls := by
  induction calls using reverseRecOn with
  | nil => exact absurd h (by simp [openRequests])
  | append_singleton calls call ih =>
    rw [openRequests_concat, stillOpen] at h
    rw [asked_concat]
    split at h
    · cases h
    · rcases mem_append.mp h with h | h
      · exact mem_append_left _ (ih (mem_filter.mp h).1)
      · exact mem_append_right _ h

theorem stillOpen_of_asks {ids : List Str} {call : Call} (hc : call.cancels = none)
    (he : call.endsTurn = false) : stillOpen ids call = ids ++ call.asks.toList := by
  simp [stillOpen, hc, he]

namespace Session

variable {s s' : Session Choice Form} {calls : List Call} {call : Call}

/-- Nothing was asked and nothing was given up. -/
theorem Kept.idle (h : s.Kept calls) (ha : call.asks = none) (hc : call.cancels = none)
    (he : call.endsTurn = false) (hh : s'.heldIds = s.heldIds) (hr : ∀ id, s'.replies id = s.replies id)
    (hret : s.Retires s') : s'.Kept (calls ++ [call]) := by
  have hopen : openRequests (calls ++ [call]) = openRequests calls := by
    rw [openRequests_concat, stillOpen_of_asks hc he, ha, Option.toList_none, append_nil]
  have hasked : asked (calls ++ [call]) = asked calls := by
    rw [asked_concat, ha, Option.toList_none, append_nil]
  constructor
  · rw [hh]
    exact h.nodup
  · rw [hopen]
    intro id hi
    rw [Holds, hh] at hi
    exact h.held id hi
  · intro id hi
    rw [hr] at hi
    rw [hasked]
    exact h.replied id hi
  · intro id hi
    rw [hasked]
    exact (hret id hi).elim (h.retired id) fun hh => mem_asked_of_mem_openRequests (h.held id hh)
  · rw [hopen]
    intro id hi
    rw [hr, Holds, hh]
    exact h.served id hi

/-- A held request is given up, with or without a reply. -/
theorem Kept.release {id : Str} (h : s.Kept calls) (hh : s'.heldIds = s.heldIds.filter (· ≠ id))
    (hret : s.Retires s') (ha : call.asks = none) (he : call.endsTurn = false)
    (hr : (call.cancels = some id ∧ ∀ x, s'.replies x = s.replies x) ∨
      (call.cancels = none ∧ s.Holds id ∧ ∀ x, s'.replies x = s.replies x + if x = id then 1 else 0)) :
    s'.Kept (calls ++ [call]) := by
  have hholds : ∀ x, s'.Holds x ↔ s.Holds x ∧ x ≠ id := by
    intro x
    rw [Holds, Holds, hh, mem_filter, decide_eq_true_eq]
  have hasked : asked (calls ++ [call]) = asked calls := by
    rw [asked_concat, ha, Option.toList_none, append_nil]
  have hret' : ∀ x ∈ s'.control.dialogs.retired, x ∈ asked (calls ++ [call]) := by
    intro x hx
    rw [hasked]
    exact (hret x hx).elim (h.retired x) fun hh => mem_asked_of_mem_openRequests (h.held x hh)
  have hnodup : s'.heldIds.Nodup := by
    rw [hh]
    exact h.nodup.filter _
  rcases hr with ⟨hc, hr⟩ | ⟨hc, hid, hr⟩
  · have hopen : ∀ x, x ∈ openRequests (calls ++ [call]) ↔ x ∈ openRequests calls ∧ x ≠ id := by
      intro x
      simp only [openRequests_concat, stillOpen, he, Bool.false_eq_true, if_false, hc, ha,
        Option.toList_none, append_nil, mem_filter, ne_eq, Option.some.injEq, decide_eq_true_eq]
      exact and_congr_right fun _ => not_congr eq_comm
    refine ⟨hnodup, fun x hx => ?_, fun x hx => ?_, hret', fun x hx => ?_⟩
    · exact (hopen x).mpr ⟨h.held x ((hholds x).mp hx).1, ((hholds x).mp hx).2⟩
    · rw [hr] at hx
      rw [hasked]
      exact h.replied x hx
    · obtain ⟨hx, hne⟩ := (hopen x).mp hx
      rw [hr, hholds]
      exact (h.served x hx).imp (And.imp_right fun hn hh => hn hh.1) (And.imp_right fun hh => ⟨hh, hne⟩)
  · have hopen : openRequests (calls ++ [call]) = openRequests calls := by
      rw [openRequests_concat, stillOpen_of_asks hc he, ha, Option.toList_none, append_nil]
    refine ⟨hnodup, fun x hx => ?_, fun x hx => ?_, hret', fun x hx => ?_⟩
    · rw [hopen]
      exact h.held x ((hholds x).mp hx).1
    · rw [hasked]
      by_cases hxi : x = id
      · exact mem_asked_of_mem_openRequests (h.held x (hxi ▸ hid))
      · rw [hr, if_neg hxi] at hx
        exact h.replied x hx
    · rw [hopen] at hx
      rw [hr, hholds]
      by_cases hxi : x = id
      · obtain ⟨-, hn⟩ | ⟨hz, -⟩ := h.served x hx
        · exact absurd (hxi ▸ hid) hn
        · rw [if_pos hxi, hz]
          exact .inl ⟨rfl, fun hh => hh.2 hxi⟩
      · rw [if_neg hxi, Nat.add_zero]
        exact (h.served x hx).imp (And.imp_right fun hn hh => hn hh.1) (And.imp_right fun hh => ⟨hh, hxi⟩)

/-- A new request is refused, or held. -/
theorem Kept.ask {id : Str} (h : s.Kept calls) (ha : call.asks = some id) (hfresh : id ∉ asked calls)
    (hc : call.cancels = none) (he : call.endsTurn = false) (hret : s.Retires s')
    (hr : (s'.heldIds = s.heldIds ∧ ∀ x, s'.replies x = s.replies x + if x = id then 1 else 0) ∨
      (s'.heldIds.Perm (id :: s.heldIds) ∧ ∀ x, s'.replies x = s.replies x)) :
    s'.Kept (calls ++ [call]) := by
  have hopen : ∀ x, x ∈ openRequests (calls ++ [call]) ↔ x ∈ openRequests calls ∨ x = id := by
    intro x
    rw [openRequests_concat, stillOpen_of_asks hc he, ha, Option.toList_some, mem_append,
      mem_singleton]
  have hasked : ∀ x, x ∈ asked (calls ++ [call]) ↔ x ∈ asked calls ∨ x = id := by
    intro x
    rw [asked_concat, ha, Option.toList_some, mem_append, mem_singleton]
  have hzero : s.replies id = 0 := by
    by_contra hz
    exact hfresh (h.replied id hz)
  have hnot : ¬ s.Holds id := fun hh => hfresh (mem_asked_of_mem_openRequests (h.held id hh))
  have hret' : ∀ x ∈ s'.control.dialogs.retired, x ∈ asked (calls ++ [call]) := fun x hx =>
    (hasked x).mpr (.inl ((hret x hx).elim (h.retired x)
      fun hh => mem_asked_of_mem_openRequests (h.held x hh)))
  have hne : ∀ x ∈ openRequests calls, x ≠ id := by
    rintro x hx rfl
    exact hfresh (mem_asked_of_mem_openRequests hx)
  rcases hr with ⟨hh, hr⟩ | ⟨hh, hr⟩
  · have hholds : ∀ x, s'.Holds x ↔ s.Holds x := fun x => by rw [Holds, Holds, hh]
    refine ⟨hh ▸ h.nodup, fun x hx => ?_, fun x hx => ?_, hret', fun x hx => ?_⟩
    · exact (hopen x).mpr (.inl (h.held x ((hholds x).mp hx)))
    · by_cases hxi : x = id
      · exact (hasked x).mpr (.inr hxi)
      · rw [hr, if_neg hxi] at hx
        exact (hasked x).mpr (.inl (h.replied x hx))
    · rw [hr, hholds]
      rcases (hopen x).mp hx with hx | rfl
      · rw [if_neg (hne x hx), Nat.add_zero]
        exact h.served x hx
      · rw [if_pos rfl, hzero]
        exact .inl ⟨rfl, hnot⟩
  · have hholds : ∀ x, s'.Holds x ↔ x = id ∨ s.Holds x := by
      intro x
      rw [Holds, Holds, hh.mem_iff, mem_cons]
    refine ⟨hh.nodup_iff.mpr (nodup_cons.mpr ⟨hnot, h.nodup⟩), fun x hx => ?_, fun x hx => ?_, hret',
      fun x hx => ?_⟩
    · exact (hopen x).mpr (((hholds x).mp hx).symm.imp_left (h.held x))
    · rw [hr] at hx
      exact (hasked x).mpr (.inl (h.replied x hx))
    · rw [hr, hholds]
      rcases (hopen x).mp hx with hx | rfl
      · exact (h.served x hx).imp (And.imp_right fun hn hh => hh.elim (hne x hx) hn)
          (And.imp_right .inr)
      · exact .inr ⟨hzero, .inl rfl⟩

theorem Kept.finish (h : s.Kept calls) (he : call.endsTurn = true) (hh : s'.heldIds = [])
    (hr : ∀ id, s'.replies id = s.replies id) (hret : s.Retires s') : s'.Kept (calls ++ [call]) := by
  have hopen : openRequests (calls ++ [call]) = [] := by rw [openRequests_concat, stillOpen, if_pos he]
  have hasked : ∀ x ∈ asked calls, x ∈ asked (calls ++ [call]) := by
    intro x hx
    rw [asked_concat]
    exact mem_append_left _ hx
  refine ⟨by rw [hh]; exact nodup_nil, fun x hx => ?_, fun x hx => ?_, fun x hx => ?_, fun x hx => ?_⟩
  · rw [Holds, hh] at hx
    cases hx
  · rw [hr] at hx
    exact hasked x (h.replied x hx)
  · exact hasked x ((hret x hx).elim (h.retired x) fun hh => mem_asked_of_mem_openRequests (h.held x hh))
  · rw [hopen] at hx
    cases hx

/-- One call keeps it, if no request takes the place of another. -/
theorem Kept.step (h : s.Kept calls) (hroom : s.Roomy call)
    (hfresh : ∀ id, call.asks = some id → id ∉ asked calls) (hret : s.Retires s')
    (hp : s.Prompting call s') : s'.Kept (calls ++ [call]) := by
  cases hp with
  | idle ha hc he hh hr => exact h.idle ha hc he hh hr hret
  | finished he hh hr => exact h.finish he hh hr hret
  | cancelled id ha hc he hh hr => exact h.release hh hret ha he (.inl ⟨hc, hr⟩)
  | answered id ha hc he hi hh hr => exact h.release hh hret ha he (.inr ⟨hc, hi, hr⟩)
  | refused id ha hc he _ hh hr => exact h.ask ha (hfresh id ha) hc he hret (.inl ⟨hh, hr⟩)
  | taken id ha hc he _ hh hr => exact h.ask ha (hfresh id ha) hc he hret (.inr ⟨hh, hr⟩)
  | replaced id old ha hc he hnot ho hh hr => exact absurd hroom hnot
  | ignored id ha hc he hi hh hr =>
    refine absurd (hi.elim (fun hh => ?_) (h.retired id)) (hfresh id ha)
    exact mem_asked_of_mem_openRequests (h.held id hh)

theorem trySend_ok (hc : s.Connected) (message : Json) : ∃ process,
    s.trySend message = (.ok (), { s with process }) ∧ process.written = s.process.written ++ [message] := by
  rcases s.trySend_cases message with ⟨-, p, hp, -, hw⟩ | ⟨hn, -⟩
  · exact ⟨p, hp, hw⟩
  · exact absurd hc hn

section

variable [ChoiceDialog Choice] [Elicitation Form]

/-- A held request can be answered: an approval and questions by declining, a dialog by dismissing it. -/
theorem answerable {id : Str} (hc : s.Connected) (hi : s.Holds id) : s.Answerable id := by
  rw [Holds, heldIds, mem_append, mem_append] at hi
  by_cases hd : s.control.dialogs.contains id
  · refine ⟨.respondInput id none, trivial, ?_⟩
    have hr : ∃ response, s.control.dialogs.respond id none = .ok response := by
      obtain ⟨dialog, hl⟩ := Option.isSome_iff_exists.mp hd
      rw [Dialogs.respond, hl]
      exact dialog.respond_none
    obtain ⟨response, hr⟩ := hr
    obtain ⟨p, hp, hw⟩ := s.trySend_ok hc (successResponse id response)
    simp only [perform, respondInput, if_pos hd, hr, sendDialogReply, hp]
    rw [replies_reply hw (isReplyTo_successResponse _ · _) rfl, if_pos rfl]
  rcases hi with (ha | hq) | hk
  · cases hp : s.control.pendingApproval with
    | none =>
      rw [hp] at ha
      cases ha
    | some pending =>
      rw [hp, Option.map_some, Option.toList_some, mem_singleton] at ha
      refine ⟨.respondApproval "decline".toList 0, trivial, ?_⟩
      obtain ⟨p, ht, hw⟩ := s.trySend_ok hc
        (successResponse pending.requestId (approvalResponse "decline".toList pending))
      simp only [perform, respondApproval, hp, ht]
      rw [if_neg (by decide), replies_reply hw (isReplyTo_successResponse _ · _) rfl, if_pos ha]
  · cases hp : s.control.pendingQuestions with
    | none =>
      rw [hp] at hq
      cases hq
    | some pending =>
      rw [hp, Option.map_some, Option.toList_some, mem_singleton] at hq
      subst hq
      refine ⟨.respondInput pending.requestId none, trivial, ?_⟩
      obtain ⟨p, ht, hw⟩ := s.trySend_ok hc (successResponse pending.requestId (questionsResponse none pending))
      have hr : (s.respondInput pending.requestId none).2 =
          { s with process := p, control := { s.control with pendingQuestions := none } } := by
        rw [respondInput, if_neg hd, hp]
        dsimp only
        rw [if_neg (by simp), if_neg (by simp), ht]
      rw [perform, hr, replies_reply hw (isReplyTo_successResponse _ · _) rfl, if_pos rfl]
  · exact absurd (dialog_contains.mpr hk) hd

end

end Session

theorem Session.roomy_of_asks_eq_none {s : Session Choice Form} {call : Call} (h : call.asks = none) :
    s.Roomy call := by
  intro message hl ht
  rw [(Session.line_kind hl ht).1, if_pos rfl] at h
  cases h

theorem Call.asks_of_endsTurn {call : Call} (h : call.endsTurn = true) : call.asks = none := by
  rw [endsTurn] at h
  cases hl : call.line with
  | none =>
    rw [hl] at h
    cases h
  | some message =>
    rw [hl] at h
    exact (Session.line_kind hl h).1

theorem Session.kept_spawn (model approval effort : Option Str) (now : ℕ) :
    (Session.spawn model approval effort now : Session Choice Form).Kept [] := by
  constructor
  · exact nodup_nil
  · intro id hi
    cases hi
  · intro id hi
    refine absurd ?_ hi
    rw [replies, countP_eq_zero]
    intro message hm
    have : message = initializeRequest := mem_singleton.mp hm
    rw [this]
    simp [isReplyTo, initializeRequest, Json.isText]
  · intro id hi
    cases hi
  · intro id hi
    cases hi

variable [ChoiceDialog Choice] [Elicitation Form] {moves : List Move} {s s' : Session Choice Form}

/-- The calls of a run in which no prompt takes the place of another. -/
def roomy : System (Session Choice Form) Move :=
  sessions.restrict fun s move => s.Roomy move.call

theorem Session.kept_step {calls : List Call} {move : Move} (h : s.Connected → s.Kept calls)
    (hs : sessions.step s move s') (hroom : s.Roomy move.call)
    (hfresh : ∀ id, move.call.asks = some id → id ∉ asked calls) :
    s'.Connected → s'.Kept (calls ++ [move.call]) := by
  intro hc
  have hs' : (s.perform move.call).2 = s' := congrArg Prod.snd hs.2.1
  subst hs'
  obtain ⟨hs, hret, hp⟩ := perform_prompting (fun hs => (h hs).nodup) move.call hc
  exact (h hs).step hroom hfresh hret hp

/-- The requests of a run have ids of their own. -/
theorem kept_run (h : Run (roomy : System (Session Choice Form) Move) moves s)
    (hfresh : (asked (moves.map (·.call))).Nodup) : s.Connected → s.Kept (moves.map (·.call)) := by
  induction h with
  | init h =>
    obtain ⟨model, approval, effort, now, rfl⟩ := h
    exact fun _ => Session.kept_spawn model approval effort now
  | @step moves s s' move _ hs ih =>
    rw [map_append, map_singleton, asked_concat, nodup_append] at hfresh
    rw [map_append]
    refine Session.kept_step (ih hfresh.1) hs.2 hs.1 fun id ha hi => ?_
    exact hfresh.2.2 id hi id (by rw [ha]; exact mem_cons_self) rfl

theorem Session.Kept.serves {calls : List Call} (h : s.Connected → s.Kept calls) : s.Serves calls :=
  fun hc id hi => ((h hc).served id hi).imp_right fun hh => ⟨hh.1, hh.2, answerable hc hh.2⟩

/-- **No request of the CLI is dropped**, as long as no approval or question is asked for while another
one is open, and only then: the step that brings it drops the one before. -/
theorem requests_served (h : Run (roomy : System (Session Choice Form) Move) moves s)
    (hfresh : (asked (moves.map (·.call))).Nodup) :
    s.Serves (moves.map (·.call)) ∧
    ∀ (move : Move) (s' : Session Choice Form), sessions.step s move s' →
      (asked ((moves ++ [move]).map (·.call))).Nodup →
      (s'.Serves ((moves ++ [move]).map (·.call)) ↔ (s'.Connected → s.Roomy move.call)) := by
  have hk := kept_run h hfresh
  refine ⟨Session.Kept.serves hk, fun move s' hs hfresh' ↦ ?_⟩
  rw [map_append, map_singleton, asked_concat, nodup_append] at hfresh'
  have hnew : ∀ id, move.call.asks = some id → id ∉ asked (moves.map (·.call)) := fun id ha hi ↦
    hfresh'.2.2 id hi id (by rw [ha]; exact mem_cons_self) rfl
  rw [map_append, map_singleton]
  constructor
  · intro hserves hc
    have hs' : (s.perform move.call).2 = s' := congrArg Prod.snd hs.2.1
    subst hs'
    obtain ⟨hconn, -, hp⟩ := Session.perform_prompting (fun hs ↦ (hk hs).nodup) move.call hc
    have hk := hk hconn
    cases hp with
    | idle ha _ _ _ _ => exact Session.roomy_of_asks_eq_none ha
    | finished he _ _ => exact Session.roomy_of_asks_eq_none (Call.asks_of_endsTurn he)
    | cancelled _ ha _ _ _ _ => exact Session.roomy_of_asks_eq_none ha
    | answered _ ha _ _ _ _ _ => exact Session.roomy_of_asks_eq_none ha
    | refused _ _ _ _ hroom _ _ => exact hroom
    | taken _ _ _ _ hroom _ _ => exact hroom
    | ignored id ha _ _ hi _ _ =>
      refine absurd (hi.elim (fun hh ↦ ?_) (hk.retired id)) (hnew id ha)
      exact mem_asked_of_mem_openRequests (hk.held id hh)
    | replaced id old ha hcancels he hroom ho hh hr =>
      -- The request that was held before is open, not replied to, and held no more.
      have hopen := hk.held old ho
      have hne : old ≠ id := by
        rintro rfl
        exact hnew old ha (mem_asked_of_mem_openRequests hopen)
      have hzero : s.replies old = 0 := by
        obtain ⟨-, hn⟩ | ⟨hz, -⟩ := hk.served old hopen
        · exact absurd ho hn
        · exact hz
      have hgone : ¬ (s.perform move.call).2.Holds old := by
        rw [Session.Holds, hh.mem_iff, mem_cons, not_or]
        exact ⟨hne, hk.nodup.not_mem_erase⟩
      have hopen' : old ∈ openRequests (moves.map (·.call) ++ [move.call]) := by
        rw [openRequests_concat, stillOpen_of_asks hcancels he]
        exact mem_append_left _ hopen
      obtain ⟨h₁, -⟩ | ⟨-, hh', -⟩ := hserves hc old hopen'
      · rw [hr, hzero] at h₁
        cases h₁
      · exact absurd hh' hgone
  · intro hroom
    exact Session.Kept.serves fun hc ↦ Session.kept_step hk hs (hroom hc) hnew hc

/-! ## Two sessions -/

section

/-- A build without dialogs. -/
@[reducible] def noDialogs : ChoiceDialog Empty where
  parse _ _ := .ok none
  questions := Empty.elim
  respond := Empty.elim
  respond_none dialog := dialog.elim

@[reducible] def noForms : Elicitation Empty where
  parse _ := .error "Elicitation is unavailable".toList
  questions := Empty.elim
  respond := Empty.elim
  respond_none form := form.elim

attribute [local instance] noDialogs noForms

/-- The CLI asks to run a command. -/
def bashRequest (id : String) : Call :=
  .handle none (.object [("type", .text "control_request"), ("request_id", .text id),
    ("request", .object [("subtype", .text "can_use_tool"), ("tool_name", .text "Bash"),
      ("input", .object [("command", .text "ls")])])]) 0

def freshSession : Session Empty Empty := .spawn none none none 0

def oneAfterAnother : List Call :=
  [bashRequest "r1", .respondApproval "accept".toList 0, bashRequest "r2"]

theorem requests_served_oneAfterAnother :
    (freshSession.after oneAfterAnother).Connected ∧
    (freshSession.after oneAfterAnother).Serves oneAfterAnother ∧
    (freshSession.after oneAfterAnother).replies "r1".toList = 1 ∧
    (freshSession.after oneAfterAnother).Holds "r2".toList := by
  have hfirst : freshSession.Roomy (bashRequest "r1") := fun _ _ _ ↦ ⟨fun _ ↦ rfl, fun _ ↦ rfl⟩
  have hallows : freshSession.Allows Session.Roomy oneAfterAnother :=
    ⟨⟨hfirst, trivial⟩, ⟨Session.roomy_of_asks_eq_none rfl, trivial⟩,
      ⟨fun _ _ _ ↦ ⟨fun _ ↦ rfl, fun _ ↦ rfl⟩, trivial⟩, trivial⟩
  have h := (requests_served (run_calls _ (.init ⟨none, none, none, 0, rfl⟩) hallows)
    (by rw [nil_append, Session.calls_moves]; decide)).1
  rw [nil_append, Session.calls_moves] at h
  exact ⟨⟨rfl, by decide⟩, h, by decide, by decide⟩

/-- Two approvals at once: the first is held no more, and nothing was replied to it. -/
theorem parallel_approval_dropped :
    ¬ ∀ (moves : List Move) (s : Session Empty Empty), Run sessions moves s →
      (asked (moves.map (·.call))).Nodup → s.Serves (moves.map (·.call)) := by
  intro h
  have hallows : freshSession.Allows (fun _ _ ↦ True) [bashRequest "r1", bashRequest "r2"] :=
    ⟨⟨trivial, trivial⟩, ⟨trivial, trivial⟩, trivial⟩
  have hrun := (run_calls _ (.init ⟨none, none, none, 0, rfl⟩) hallows).of_restrict
  have hserves := h _ _ hrun (by rw [nil_append, Session.calls_moves]; decide)
  rw [nil_append, Session.calls_moves] at hserves
  obtain ⟨hr, -⟩ | ⟨-, hh, -⟩ := hserves ⟨rfl, by decide⟩ "r1".toList (by decide)
  · exact absurd hr (by decide)
  · exact absurd hh (by decide)

end

end NiumaTerm.ClaudeCode
