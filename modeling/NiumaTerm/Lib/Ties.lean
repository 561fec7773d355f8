import Mathlib.Logic.Relation

/-!
# Names held together

Several names may stand for one thing; the evidence is that some record held them together.  `Tied` is
the equivalence generated by such groups, and a partial function `resolve` that is `Faithful` picks one
representative for each class.
-/

namespace Rust

open List

variable {α : Type}

/-- A chain of groups leads from one name to the other. -/
def Tied (ties : List (List α)) : α → α → Prop :=
  Relation.EqvGen fun a b => ∃ group ∈ ties, a ∈ group ∧ b ∈ group

namespace Tied

variable {ties : List (List α)} {a b : α}

theorem of_mem {group : List α} (hgroup : group ∈ ties) (ha : a ∈ group) (hb : b ∈ group) :
    Tied ties a b :=
  .rel _ _ ⟨group, hgroup, ha, hb⟩

theorem cons (h : Tied ties a b) (group : List α) : Tied (group :: ties) a b :=
  h.mono fun _ _ ⟨old, hold, hmem⟩ => ⟨old, mem_cons_of_mem _ hold, hmem⟩

end Tied

/-- The representatives are those of the tied names. -/
structure Faithful (ties : List (List α)) (resolve : α → Option α) : Prop where
  together : ∀ group ∈ ties, ∀ a ∈ group, ∃ row, ∀ b ∈ group, resolve b = some row
  apart : ∀ a row, resolve a = some row → Tied ties a row
  own : ∀ a row, resolve a = some row → resolve row = some row

namespace Faithful

variable {ties : List (List α)} {resolve resolve' : α → Option α}

theorem nil : Faithful [] fun _ : α => none where
  together _ hgroup := absurd hgroup not_mem_nil
  apart _ _ h := nomatch h
  own _ _ h := nomatch h

theorem congr (h : Faithful ties resolve) {a b : α} (hab : Tied ties a b) :
    resolve a = resolve b := by
  induction hab with
  | rel a b hgroup =>
    obtain ⟨group, hmem, ha, hb⟩ := hgroup
    obtain ⟨row, hrow⟩ := h.together group hmem a ha
    rw [hrow a ha, hrow b hb]
  | refl => rfl
  | symm _ _ _ ih => exact ih.symm
  | trans _ _ _ _ _ ih₁ ih₂ => exact ih₁.trans ih₂

/-- **Two names are tied exactly if they have the same representative.** -/
theorem tied_iff (h : Faithful ties resolve) {a b row : α} (ha : resolve a = some row) :
    Tied ties a b ↔ resolve b = some row := by
  refine ⟨fun hab => h.congr hab ▸ ha, fun hb => ?_⟩
  exact (h.apart a row ha).trans _ _ _ ((h.apart b row hb).symm _ _)

/-- Two representatives that are tied are one. -/
theorem single (h : Faithful ties resolve) {a b : α} (ha : resolve a = some a)
    (hb : resolve b = some b) (hab : Tied ties a b) : a = b :=
  Option.some.inj (ha.symm.trans ((h.congr hab).trans hb))

/-- A name that stands alone adds nothing. -/
theorem skip (h : Faithful ties resolve) : Faithful ([] :: ties) resolve where
  together group hgroup a ha := by
    rcases mem_cons.mp hgroup with rfl | hold
    · exact absurd ha not_mem_nil
    · exact h.together group hold a ha
  apart a row ha := (h.apart a row ha).cons []
  own := h.own

/-- **A group is given a representative.**  It is one of the names, or represents one of them
already, and none of them had another. -/
theorem link (h : Faithful ties resolve) {group : List α} {row : α}
    [∀ a, Decidable (a = row ∨ a ∈ group)] (hrow : row ∈ group ∨ ∃ a ∈ group, resolve a = some row)
    (honly : ∀ a ∈ group, ∀ old, resolve a = some old → old = row)
    (hnext : ∀ a, resolve' a = if a = row ∨ a ∈ group then some row else resolve a) :
    Faithful (group :: ties) resolve' := by
  have hself : ∀ old, resolve row = some old → old = row := by
    intro old hold
    rcases hrow with hmem | ⟨a, _, ha⟩
    · exact honly row hmem old hold
    · exact Option.some.inj (hold.symm.trans (h.own a row ha))
  -- a name that had a representative keeps it
  have hkeep : ∀ a old, resolve a = some old → resolve' a = some old := by
    intro a old hold
    rw [hnext]
    split
    · next hcase =>
      rcases hcase with rfl | hmem
      · rw [hself old hold]
      · rw [honly a hmem old hold]
    · exact hold
  have hnew : ∀ a, a = row ∨ a ∈ group → resolve' a = some row :=
    fun a hcase => (hnext a).trans (if_pos hcase)
  refine ⟨?_, ?_, ?_⟩
  · intro old hmem a ha
    rcases mem_cons.mp hmem with rfl | hold
    · exact ⟨row, fun b hb => hnew b (.inr hb)⟩
    · obtain ⟨known, hknown⟩ := h.together old hold a ha
      exact ⟨known, fun b hb => hkeep b known (hknown b hb)⟩
  · intro a found hfound
    rw [hnext] at hfound
    split at hfound
    · next hcase =>
      cases hfound
      rcases hcase with rfl | hmem
      · exact .refl _
      · rcases hrow with hself | ⟨b, hb, hbrow⟩
        · exact .of_mem mem_cons_self hmem hself
        · exact (Tied.of_mem mem_cons_self hmem hb).trans _ _ _ ((h.apart b _ hbrow).cons group)
    · exact (h.apart a found hfound).cons group
  · intro a found hfound
    rw [hnext] at hfound
    split at hfound
    · cases hfound
      exact hnew row (.inl rfl)
    · exact hkeep found found (h.own a found hfound)

end Faithful
end Rust
