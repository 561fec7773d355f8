import Mathlib.Data.List.Pairwise
import Mathlib.Data.List.Induction

/-!
# The times of a client's hellos

A host refuses a hello that is not later than the last it accepted.  An attempt to connect copies the
record of the last time, makes its hellos from the copy and is stored if it succeeds; other attempts may
run beside it.
-/

namespace NiumaTerm

open List
namespace Remote

/-- `last` is what the attempt's copy of the record has. -/
structure HelloClock where
  last : ℕ
  deriving DecidableEq

def HelloClock.next (clock : HelloClock) (nowMs : ℕ) : HelloClock := ⟨max nowMs (clock.last + 1)⟩

/-- The host's side of a pairing: the last time it accepted, and of which hello. -/
structure Accepted where
  lastHelloMs : ℕ := 0
  hello : Option ℕ := none
  deriving DecidableEq

/-- A client and one host after pairing.  `made` are the times of the hellos in the order they were made, `refused` the
hellos that the host refused, each with the hello whose time it had. -/
structure Paired where
  lastHelloMs : ℕ := 0
  attempts : List (Option HelloClock) := []
  made : List ℕ := []
  accepted : Accepted := {}
  arrived : List ℕ := []
  refused : List (ℕ × Option ℕ) := []
  deriving DecidableEq

/-- An attempt starts from the stored record, makes hellos, is stored or is dropped: it failed, timed out, lost to another
or was not taken up.  Hellos arrive in any order, or never. -/
inductive Action
  | start
  | hello (attempt nowMs : ℕ)
  | store (attempt : ℕ)
  | drop (attempt : ℕ)
  | arrive (hello : ℕ)

namespace Paired

def clock (p : Paired) (attempt : ℕ) : Option HelloClock := p.attempts[attempt]?.join

def step (p : Paired) : Action → Option Paired
  | .start => some { p with attempts := p.attempts ++ [some ⟨p.lastHelloMs⟩] }
  | .hello attempt nowMs => (p.clock attempt).map fun clock =>
    { p with
      attempts := p.attempts.set attempt (some (clock.next nowMs))
      made := p.made ++ [(clock.next nowMs).last] }
  | .store attempt => (p.clock attempt).map fun clock =>
    { p with lastHelloMs := clock.last, attempts := p.attempts.set attempt none }
  | .drop attempt => (p.clock attempt).map fun _ => { p with attempts := p.attempts.set attempt none }
  | .arrive hello =>
    if hello ∈ p.arrived then none
    else p.made[hello]?.map fun helloMs =>
      if helloMs ≤ p.accepted.lastHelloMs then
        { p with arrived := hello :: p.arrived, refused := p.refused ++ [(hello, p.accepted.hello)] }
      else { p with arrived := hello :: p.arrived, accepted := ⟨helloMs, some hello⟩ }

def run (p : Paired) (actions : List Action) : Option Paired := actions.foldlM step p

/-- When the hello is made, each hello before it is older than the wall clock or known to the attempt. -/
def Timely (p : Paired) : Action → Prop
  | .hello attempt nowMs => ∀ clock, p.clock attempt = some clock → ∀ t ∈ p.made, t < nowMs ∨ t ≤ clock.last
  | _ => True

variable {p p' : Paired} {a : Action} {actions : List Action}

/-- What a step does to the hellos made: nothing, or one more, which is later than another exactly when that is older
than the wall clock or known. -/
theorem step_made (h : p.step a = some p') : (p'.made = p.made ∧ Timely p a) ∨
    ∃ t, p'.made = p.made ++ [t] ∧ 0 < t ∧ ((∀ x ∈ p.made, x < t) ↔ Timely p a) := by
  cases a with
  | hello attempt nowMs =>
    obtain ⟨clock, hclock, rfl⟩ := Option.map_eq_some_iff.mp h
    have hlater (x : ℕ) : x < max nowMs (clock.last + 1) ↔ x < nowMs ∨ x ≤ clock.last := by omega
    have hpos : 0 < (clock.next nowMs).last := Nat.lt_of_lt_of_le (Nat.succ_pos clock.last) (Nat.le_max_right ..)
    refine .inr ⟨(clock.next nowMs).last, rfl, hpos, ?_⟩
    simp only [Timely, hclock, Option.some.injEq, forall_eq', HelloClock.next, hlater]
  | start =>
    cases h
    exact .inl ⟨rfl, trivial⟩
  | store attempt | drop attempt =>
    obtain ⟨clock, -, rfl⟩ := Option.map_eq_some_iff.mp h
    exact .inl ⟨rfl, trivial⟩
  | arrive hello =>
    rw [step] at h
    split at h
    · cases h
    · obtain ⟨t, -, rfl⟩ := Option.map_eq_some_iff.mp h
      refine .inl ⟨?_, trivial⟩
      split <;> rfl

/-- The times that were made stay. -/
theorem step_extends (h : p.step a = some p') : p.made <+: p'.made := by
  rcases step_made h with ⟨hmade, -⟩ | ⟨t, hmade, -⟩
  · exact hmade ▸ prefix_refl _
  · exact hmade ▸ prefix_append ..

theorem run_cons (h : p.run (a :: actions) = some p') : ∃ q, p.step a = some q ∧ q.run actions = some p' := by
  rw [run, foldlM_cons] at h
  exact Option.bind_eq_some_iff.mp h

/-- What the host has is a hello that arrived, and it refused none because of one made before it. -/
structure Inv (p : Paired) : Prop where
  positive : ∀ t ∈ p.made, 0 < t
  fresh : p.accepted.hello = none → p.accepted.lastHelloMs = 0
  accepted : ∀ k, p.accepted.hello = some k → p.made[k]? = some p.accepted.lastHelloMs ∧ k ∈ p.arrived
  later : p.made.Pairwise (· < ·) → ∀ r ∈ p.refused, ∃ k, r.2 = some k ∧ r.1 < k

theorem inv_init : Inv {} := ⟨by simp, fun _ => rfl, by simp, by simp⟩

/-- A step that the host does not hear of. -/
theorem Inv.unheard (hi : Inv p) (h : p.step a = some p') (haccepted : p'.accepted = p.accepted)
    (harrived : p'.arrived = p.arrived) (hrefused : p'.refused = p.refused) : Inv p' := by
  have hfront := step_extends h
  refine ⟨fun t ht => ?_, fun hk => ?_, fun k hk => ?_, fun hall => ?_⟩
  · rcases step_made h with ⟨hmade, -⟩ | ⟨t', hmade, hpos, -⟩
    · exact hi.positive t (hmade ▸ ht)
    · rw [hmade, mem_append, mem_singleton] at ht
      rcases ht with ht | rfl
      · exact hi.positive t ht
      · exact hpos
  · rw [haccepted] at hk ⊢
    exact hi.fresh hk
  · rw [haccepted] at hk ⊢
    obtain ⟨hget, hin⟩ := hi.accepted k hk
    refine ⟨?_, harrived ▸ hin⟩
    obtain ⟨more, hmore⟩ := hfront
    rw [← hmore, getElem?_append_left (List.getElem?_eq_some_iff.mp hget).1, hget]
  · rw [hrefused]
    exact hi.later (hall.sublist hfront.sublist)

theorem inv_step (hi : Inv p) (h : p.step a = some p') : Inv p' := by
  cases a with
  | start =>
    refine hi.unheard h ?_ ?_ ?_ <;> cases h <;> rfl
  | hello attempt nowMs | store attempt | drop attempt =>
    refine hi.unheard h ?_ ?_ ?_ <;> obtain ⟨clock, -, rfl⟩ := Option.map_eq_some_iff.mp h <;> rfl
  | arrive hello =>
    rw [step] at h
    split at h
    · cases h
    next hnew =>
    obtain ⟨t, ht, rfl⟩ := Option.map_eq_some_iff.mp h
    by_cases hle : t ≤ p.accepted.lastHelloMs
    · rw [if_pos hle]
      refine ⟨hi.positive, hi.fresh, fun k hk => ⟨(hi.accepted k hk).1, .tail _ (hi.accepted k hk).2⟩, fun hall r hr => ?_⟩
      rcases mem_append.mp hr with hr | hr
      · exact hi.later hall r hr
      · rw [mem_singleton.mp hr]
        have hpos := hi.positive t (mem_of_getElem? ht)
        cases hk : p.accepted.hello with
        | none =>
          have hzero := hi.fresh hk
          omega
        | some k =>
          obtain ⟨hget, hin⟩ := hi.accepted k hk
          refine ⟨k, rfl, Nat.lt_of_le_of_ne (Nat.le_of_not_lt fun hlt => ?_) fun (he : hello = k) => hnew (he ▸ hin)⟩
          -- the hello that the host has would be older, and so its time less
          obtain ⟨hkl, hkt⟩ := List.getElem?_eq_some_iff.mp hget
          obtain ⟨hhl, hht⟩ := List.getElem?_eq_some_iff.mp ht
          have := pairwise_iff_getElem.mp hall k hello hkl hhl hlt
          dsimp only at hlt this
          omega
    · rw [if_neg hle]
      refine ⟨hi.positive, (fun hk => by cases hk), fun k hk => ?_, hi.later⟩
      cases hk
      exact ⟨ht, .head _⟩

theorem run_inv (hi : Inv p) (h : p.run actions = some p') : Inv p' := by
  induction actions generalizing p with
  | nil =>
    cases h
    exact hi
  | cons a rest ih =>
    obtain ⟨q, hstep, hrest⟩ := run_cons h
    exact ih (inv_step hi hstep) hrest

end Paired

end Remote
end NiumaTerm
