import Mathlib.Data.Finset.Card

/-!
# Loops that may not end

A body takes a state and goes on in another one, or leaves the loop; `run body fuel s` is the result
within `fuel` rounds.  A measure or a finite universe bounds the rounds, and a loop that can always go on
among some states never leaves (`run_eq_none`).
-/

namespace Loop

variable {σ α : Type*}

inductive Round (σ α : Type*)
  | next (s : σ)
  | leave (result : α)

def run (body : σ → Round σ α) : ℕ → σ → Option α
  | 0, _ => none
  | fuel + 1, s =>
    match body s with
    | .next s' => run body fuel s'
    | .leave result => some result

variable {body : σ → Round σ α} {s s' : σ} {a b : α} {fuel : ℕ}

theorem run_next (h : body s = .next s') : run body (fuel + 1) s = run body fuel s' := by
  rw [run, h]

theorem run_leave (h : body s = .leave a) : run body (fuel + 1) s = some a := by
  rw [run, h]

/-- More rounds do not change a result. -/
theorem run_mono {fuel' : ℕ} (h : run body fuel s = some a) (hle : fuel ≤ fuel') :
    run body fuel' s = some a := by
  induction fuel generalizing s fuel' with
  | zero => cases h
  | succ fuel ih =>
    obtain ⟨more, rfl⟩ := Nat.exists_eq_add_of_le' hle
    rw [run] at h
    rw [← Nat.add_assoc, run]
    split at h
    · exact ih h (Nat.le_add_left fuel more)
    · exact h

/-- A loop has one result. -/
theorem run_unique {fuel' : ℕ} (h : run body fuel s = some a) (h' : run body fuel' s = some b) :
    a = b := by
  have hmax := run_mono h (Nat.le_max_left fuel fuel')
  rw [run_mono h' (Nat.le_max_right fuel fuel')] at hmax
  exact (Option.some.inj hmax).symm

/-- **Termination** by a measure. -/
theorem run_isSome (measure : σ → ℕ)
    (hdesc : ∀ s s', body s = .next s' → measure s' < measure s) (hfuel : measure s < fuel) :
    (run body fuel s).isSome = true := by
  induction fuel generalizing s with
  | zero => omega
  | succ fuel ih =>
    rw [run]
    split
    · rename_i s' hs
      exact ih (by have := hdesc s s' hs; omega)
    · rfl

/-- **Termination** of a walk that remembers where it has been. -/
theorem run_isSome_of_visited {κ : Type*} [DecidableEq κ] (places : List κ) (seen : σ → List κ)
    (hvisit : ∀ s s', body s = .next s' → ∃ k ∈ places, k ∉ seen s ∧ seen s' = k :: seen s)
    (hfuel : places.length < fuel) : (run body fuel s).isSome = true := by
  refine run_isSome (fun s => (places.toFinset \ (seen s).toFinset).card) ?_ ?_
  · intro s s' h
    obtain ⟨k, hk, hnew, hseen⟩ := hvisit s s' h
    refine Finset.card_lt_card (Finset.ssubset_iff_of_subset ?_ |>.mpr ⟨k, ?_, ?_⟩)
    · refine Finset.sdiff_subset_sdiff (Finset.Subset.refl _) ?_
      intro l hl
      simp only [hseen, List.toFinset_cons, Finset.mem_insert]
      exact .inr hl
    · simp [hk, hnew]
    · simp [hseen]
  · calc (places.toFinset \ (seen s).toFinset).card
        ≤ places.toFinset.card := Finset.card_le_card Finset.sdiff_subset
      _ ≤ places.length := places.toFinset_card_le
      _ < fuel := hfuel

/-- **Divergence** among states that the loop never leaves. -/
theorem run_eq_none {S : σ → Prop} (hS : ∀ s, S s → ∃ s', body s = .next s' ∧ S s') (hs : S s) :
    run body fuel s = none := by
  induction fuel generalizing s with
  | zero => rfl
  | succ fuel ih =>
    obtain ⟨s', hbody, hs'⟩ := hS s hs
    rw [run_next hbody, ih hs']

/-- What every round keeps gives what the loop leaves with. -/
theorem run_spec {I : σ → Prop} {post : α → Prop} (hnext : ∀ s s', I s → body s = .next s' → I s')
    (hleave : ∀ s a, I s → body s = .leave a → post a) (hs : I s)
    (h : run body fuel s = some a) : post a := by
  induction fuel generalizing s with
  | zero => cases h
  | succ fuel ih =>
    rw [run] at h
    split at h
    · rename_i s' hbody
      exact ih (hnext s s' hs hbody) h
    · rename_i result hbody
      cases h
      exact hleave s _ hs hbody

end Loop
