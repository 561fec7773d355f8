import NiumaTerm.Team.Evolution

/-!
# How attempts move

`Change.moves` says what becomes of each attempt of a room: which moves there are (`Attempt.Moves`), from
which state each starts, and which operations make the moves that give a turn back or charge it.  No
attempt is removed, and the new ones are reserved.
-/

namespace NiumaTerm.Team

open Rust Growth List

/-- The operations that cancel what a discussion has reserved. -/
def Operation.Cancels (op : Operation) (d : DiscussionId) : Prop :=
  op = .continueDiscussion d ∨ (∃ mode, op = .changeMode d mode) ∨ op = .finishWithReport d

/-- The operations that give the turn of an attempt back: they cancel it before it is sent, or the member
refused it. -/
def Operation.GivesBack (op : Operation) (t : Attempt) : Prop :=
  (t.state = .reserved ∧ ∃ d, t.intent.budget = .discussion d ∧ op.Cancels d) ∨
    t.state = .sending ∧ op = .finishDispatch t.id .notReady

inductive Attempt.Moves (op : Operation) (t : Attempt) : Attempt → Prop
  | stays : Moves op t t
  | lost (h : t.state.inFlight = true) : Moves op t { t with state := .uncertain }
  | cancelled {d : DiscussionId} (hb : t.intent.budget = .discussion d) (hop : op.Cancels d)
    (h : t.state = .reserved) : Moves op t { t with state := .rejected }
  | sent (hop : op = .prepareDispatch t.id) (h : t.state = .reserved) :
    Moves op t { t with state := .sending }
  | refused (hop : op = .finishDispatch t.id .notReady) (h : t.state = .sending) :
    Moves op t { t with state := .rejected }
  | accepted {turn : Str} (h : t.state.inFlight = true) :
    Moves op t { t with providerTurn := some turn, state := .accepted }
  | completed {reply : MessageId} (h : t.state = .accepted) :
    Moves op t { t with state := .completed reply }
  | failed (h : t.state.inFlight = true) : Moves op t { t with state := .failed }
  | abandoned (h : t.state.inFlight = true) : Moves op t { t with state := .abandoned }

structure Room.Reserves (n : ℕ) (op : Operation) (r : Room) (t : Attempt) : Prop where
  state : t.state = .reserved
  operation : op.reserves = true
  asks : r.Asks n t.intent
  available : r.Available t.intent.recipient

namespace Attempt.Moves

variable {op : Operation} {t t' : Attempt}

theorem id (h : t.Moves op t') : t'.id = t.id := by rcases h with _ | _ | _ | _ | _ | _ | _ | _ | _ <;> rfl

theorem intent (h : t.Moves op t') : t'.intent = t.intent := by
  rcases h with _ | _ | _ | _ | _ | _ | _ | _ | _ <;> rfl

/-- Nothing becomes reserved. -/
theorem reserved (h : t.Moves op t') (hs : t'.state = .reserved) : t.state = .reserved := by
  rcases h with _ | _ | _ | _ | _ | _ | _ | _ | _
  case stays => exact hs
  all_goals cases hs

theorem rejected (h : t.Moves op t') (hs : t'.state = .rejected) :
    t.state = .rejected ∨ op.GivesBack t := by
  rcases h with _ | _ | ⟨hb, hop, hr⟩ | _ | ⟨hop, hr⟩ | _ | _ | _ | _
  case stays => exact .inl hs
  case cancelled d => exact .inr (.inl ⟨hr, d, hb, hop⟩)
  case refused => exact .inr (.inr ⟨hr, hop⟩)
  all_goals cases hs

/-- What is being sent was, or has just been handed out. -/
theorem sending (h : t.Moves op t') (hs : t'.state = .sending) :
    t.state = .sending ∨ op = .prepareDispatch t.id := by
  rcases h with _ | _ | _ | ⟨hop, -⟩ | _ | _ | _ | _ | _
  case stays => exact .inl hs
  case sent => exact .inr hop
  all_goals cases hs

theorem stays_rejected (h : t.Moves op t') (hs : t.state = .rejected) : t'.state = .rejected := by
  rcases h with _ | hf | ⟨-, -, hr⟩ | ⟨-, hr⟩ | ⟨-, hr⟩ | hf | hr | hf | hf
  case stays => exact hs
  all_goals simp [hs, AttemptState.inFlight] at *

end Attempt.Moves

namespace Room

variable {op : Operation} {N : Attempt → Prop} {r : Room}

/-- The outcome of an attempt. -/
theorem moves_modifyAttempt (hn : (r.attempts.map Attempt.id).Nodup) {t : Attempt} (ht : t ∈ r.attempts)
    {change : Attempt → Attempt} (h : t.Moves op (change t)) :
    Grows (Attempt.Moves op) N r.attempts (r.modifyAttempt t.id change).attempts := by
  refine .map fun u hu => ?_
  split
  · next hid =>
    obtain rfl := inj_on_of_nodup_map hn hu ht hid
    exact h
  · exact .stays

theorem moves_settle (hn : (r.attempts.map Attempt.id).Nodup) {t : Attempt} (ht : t ∈ r.attempts)
    {change : Attempt → Attempt} {mark : Discussion → Discussion} (h : t.Moves op (change t)) :
    Grows (Attempt.Moves op) N r.attempts (r.settle t change mark).attempts := by
  rw [settle_attempts]
  exact moves_modifyAttempt hn ht h

theorem moves_cancelReservations {d : DiscussionId} (hop : op.Cancels d) :
    Grows (Attempt.Moves op) N r.attempts (r.cancelReservations d).attempts := by
  refine .map fun t _ => ?_
  dsimp only
  split
  · next h => exact .cancelled h.1 hop h.2
  · exact .stays

/-- Losing track of several attempts. -/
theorem moves_fails {orphaned : List Attempt} {p q : Room} (hp : p.attempts = r.attempts)
    (hn : (r.attempts.map Attempt.id).Nodup) (hon : (orphaned.map Attempt.id).Nodup)
    (ho : ∀ t ∈ orphaned, t ∈ r.attempts ∧ t.state.inFlight = true)
    (h : orphaned.foldlM (fun r t => r.fail t true) p = .ok q) :
    Grows (Attempt.Moves op) N r.attempts q.attempts := by
  let Lost (t t' : Attempt) : Prop := t' = t ∨ t.state.inFlight = true ∧ t' = { t with state := .uncertain }
  have hlost : Grows Lost (fun _ => False) r.attempts q.attempts := by
    refine fails_induction (P := fun q => Grows Lost (fun _ => False) r.attempts q.attempts) h hon
      (by rwa [hp]) (fun t ht => by rw [hp]; exact ho t ht) ?_ fun q u q' hq hu hf hq' h => ?_
    · rw [hp]
      exact .refl fun t _ => .inl rfl
    · rw [fail_ok h, settle_attempts]
      refine hq'.trans (.map fun t ht => ?_) (fun x y z hxy hyz => ?_) fun _ _ h _ => h
      · split
        · next hid =>
          obtain rfl := inj_on_of_nodup_map hq ht hu hid
          exact .inr ⟨hf, rfl⟩
        · exact .inl rfl
      · rcases hyz with rfl | ⟨hy, rfl⟩
        · exact hxy
        · rcases hxy with rfl | ⟨hx, rfl⟩
          · exact .inr ⟨hy, rfl⟩
          · exact .inr ⟨hx, rfl⟩
  refine hlost.imp (fun t t' ht => ?_) fun _ h => h.elim
  rcases ht with rfl | ⟨hf, rfl⟩
  · exact .stays
  · exact .lost hf

end Room

variable [TeamText] {n : ℕ} {op : Operation} {r r' : Room}

/-- **What a change does to attempts.**  It reserves a batch, or each attempt makes a move. -/
theorem Change.moves_or (hv : r.Valid) (h : Change n op r r') :
    (∃ intents ids, r.reserve intents n = .ok (ids, r') ∧ op.reserves = true ∧
      ∀ intent ∈ intents, r.Asks n intent ∧ intent.Shows r ∧ r.Available intent.recipient) ∨
    Grows (Attempt.Moves op) (fun _ => False) r.attempts r'.attempts := by
  have hn := hv.attempts_nodup
  have hstay : Grows (Attempt.Moves op) (fun _ => False) r.attempts r.attempts :=
    .refl fun _ _ => .stays
  refine or_iff_not_imp_left.mpr fun hnew => ?_
  cases h with
  | quiet hq =>
    rw [hq.attempts]
    exact hstay
  | reopened =>
    refine .map fun t _ => ?_
    dsimp only
    split
    · next hrun => exact .lost (AttemptState.inFlight_of_isRunning hrun)
    · exact .stays
  | ready _ ho hon h => exact Room.moves_fails (p := r.mapDiscussions _) rfl hn hon ho h
  | excluded _ h =>
    rw [Room.excludeMember_ok h]
    exact hstay
  | reserved intents ids _ hi h hop => exact absurd ⟨intents, ids, h, hop, hi⟩ hnew
  | prepared _ _ ht _ _ _ h =>
    obtain ⟨u, hu, hs, -, h⟩ := Room.prepare_ok h
    obtain rfl := Option.some.inj (ht.symm.trans hu)
    obtain ⟨hmem, rfl⟩ := TeamSession.id_of_attempt ht
    rcases h with ⟨-, -, -, -, -, -, -, -, rfl⟩ | ⟨-, rfl⟩
    · exact Room.moves_settle hn hmem (.sent rfl hs)
    · exact Room.moves_modifyAttempt hn hmem (.sent rfl hs)
  | finished h =>
    obtain ⟨t, ht, hs, h'⟩ := Room.finish_ok h
    clear h
    obtain ⟨hmem, rfl⟩ := TeamSession.id_of_attempt ht
    rcases h' with ⟨rfl, rfl⟩ | rfl
    · exact Room.moves_settle hn hmem (.refused rfl hs)
    · exact Room.moves_settle hn hmem (.lost (by rw [hs]; rfl))
  | accepted t ht ha h =>
    have hmem := (Room.eventAttempt_some ht).1
    have hflight := Attempt.inFlight_of_accepts ha
    rcases Room.accept_ok h with ⟨-, rfl⟩ | ⟨-, rfl⟩
    · exact Room.moves_settle hn hmem (.accepted hflight)
    · exact Room.moves_modifyAttempt hn hmem (.accepted hflight)
  | completed t _ ht hc h =>
    obtain ⟨m, hm, rfl, rfl⟩ := Room.complete_ok h
    have hs := Attempt.accepted_of_completes hc
    rw [Room.settle_attempts]
    change Grows _ _ r.attempts (r.modifyAttempt t.id _).attempts
    exact Room.moves_modifyAttempt hn (Room.eventAttempt_some ht).1 (.completed hs)
  | @failed _ uncertain _ _ _ ht hf h =>
    rw [Room.fail_ok h]
    refine Room.moves_settle hn (Room.eventAttempt_some ht).1 ?_
    rcases uncertain with _ | _
    · exact .failed hf
    · exact .lost hf
  | abandoned hx h =>
    obtain ⟨t, ht, rfl, hf⟩ := hx
    rw [Room.abandon_ok h]
    exact Room.moves_modifyAttempt hn ht (.abandoned hf)
  | started _ _ h =>
    obtain ⟨-, -, rfl, -⟩ := Room.createDiscussion_ok h
    exact hstay
  | userInput | stageOpened => exact hstay
  | continued => exact Room.moves_cancelReservations (.inl rfl)
  | modeChanged => exact Room.moves_cancelReservations (.inr (.inl ⟨_, rfl⟩))
  | finishing => exact Room.moves_cancelReservations (.inr (.inr rfl))
  | decided => exact hstay

theorem Change.moves (hv : r.Valid) (h : Change n op r r') :
    Grows (Attempt.Moves op) (r.Reserves n op) r.attempts r'.attempts := by
  rcases h.moves_or hv with ⟨intents, ids, h, hop, hi⟩ | h
  · obtain ⟨rfl, -⟩ := Room.reserve_ok h
    refine .append (fun t _ => .stays) fun t ht => ?_
    obtain ⟨⟨intent, i⟩, hmem, rfl⟩ := mem_map.mp ht
    obtain ⟨hasks, -, ha⟩ := hi intent (fst_mem_of_mem_zipIdx hmem)
    exact ⟨rfl, hop, hasks, ha⟩
  · exact h.imp (fun _ _ h => h) fun _ h => h.elim

end NiumaTerm.Team
