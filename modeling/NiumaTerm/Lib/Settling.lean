import Mathlib.Data.List.Count
import Mathlib.Data.List.GetD
import Mathlib.Data.Nat.Basic
import Mathlib.Order.Basic

/-!
# Passes that settle values until nothing changes

A `rule` may give a value to an entry of a table that has none; passes over the entries follow one another
until one of them settles nothing.  They end (`within_isSome`), keep what settling one entry keeps, and
leave the rule nothing to do (`within_stable`).
-/

namespace Settling

open List

variable {ν : Type} (rule : List (Option ν) → ℕ → Option ν)

/-- Whether an entry changed so far, and the table. -/
abbrev Progress (ν : Type) := Bool × List (Option ν)

def visit (s : Progress ν) (entry : ℕ) : Progress ν :=
  if (s.2.getD entry none).isSome then s
  else
    match rule s.2 entry with
    | some value => (true, s.2.set entry (some value))
    | none => s

def pass (table : List (Option ν)) : Progress ν :=
  (List.range table.length).foldl (visit rule) (false, table)

/-- The passes, if there are fewer than `rounds` that change something. -/
def within : ℕ → List (Option ν) → Option (List (Option ν))
  | 0, _ => none
  | rounds + 1, table =>
    let (changed, next) := pass rule table
    if changed then within rounds next else some next

/-- How many entries have no value. -/
def missing (table : List (Option ν)) : ℕ := table.countP Option.isNone

variable {rule} {s : Progress ν} {entry : ℕ} {table : List (Option ν)}

variable (rule) in
/-- A visit changes nothing, or it settles an entry. -/
theorem visit_cases (s : Progress ν) (entry : ℕ) : visit rule s entry = s ∨
    ∃ value, s.2.getD entry none = none ∧ rule s.2 entry = some value ∧
      visit rule s entry = (true, s.2.set entry (some value)) := by
  rw [visit]
  split
  · exact .inl rfl
  · next hnone =>
    cases hrule : rule s.2 entry with
    | none => exact .inl rfl
    | some value => exact .inr ⟨value, Option.not_isSome_iff_eq_none.mp hnone, rfl, rfl⟩

theorem missing_set (hentry : entry < table.length) (hnone : table.getD entry none = none)
    (value : ν) : missing (table.set entry (some value)) + 1 = missing table := by
  have hget : table[entry] = none := by
    rwa [getD_eq_getElem _ _ hentry] at hnone
  have hmem : none ∈ table := hget ▸ getElem_mem hentry
  have hpos : 0 < table.countP Option.isNone := countP_pos_iff.mpr ⟨none, hmem, rfl⟩
  have hset : (table.set entry (some value)).countP Option.isNone =
      table.countP Option.isNone - 1 + 0 := by
    rw [countP_set hentry, hget]
    rfl
  rw [missing, missing, hset]
  omega

/-- What a part of a pass does to the number of entries without a value. -/
structure Goes (s s' : Progress ν) : Prop where
  length : s'.2.length = s.2.length
  flag : s.1 = true → s'.1 = true
  less : missing s'.2 ≤ missing s.2
  /-- a change settles an entry -/
  settled : s.1 = false → s'.1 = true → missing s'.2 < missing s.2
  unchanged : s'.1 = false → s' = s

theorem Goes.refl (s : Progress ν) : Goes s s :=
  ⟨rfl, id, le_rfl, fun h h' => absurd (h.symm.trans h') Bool.false_ne_true, fun _ => rfl⟩

theorem Goes.trans {s' s'' : Progress ν} (h : Goes s s') (h' : Goes s' s'') : Goes s s'' where
  length := h'.length.trans h.length
  flag hs := h'.flag (h.flag hs)
  less := h'.less.trans h.less
  settled hs hs'' := by
    cases hs' : s'.1 with
    | true => exact h'.less.trans_lt (h.settled hs hs')
    | false => exact (h'.settled hs' hs'').trans_le h.less
  unchanged hs'' := by
    have hsame := h'.unchanged hs''
    rw [hsame]
    exact h.unchanged (hsame ▸ hs'')

variable (rule) in
theorem goes_visit (hentry : entry < s.2.length) : Goes s (visit rule s entry) := by
  rcases visit_cases rule s entry with hsame | ⟨value, hnone, -, hset⟩
  · rw [hsame]
    exact .refl s
  · have hless := missing_set hentry hnone value
    rw [hset]
    refine ⟨length_set, fun _ => rfl, ?_, fun _ _ => ?_, fun h => nomatch h⟩
    · exact Nat.le.intro hless
    · exact Nat.lt_of_succ_le hless.le

theorem goes_foldl {entries : List ℕ} (hentries : ∀ entry ∈ entries, entry < s.2.length) :
    Goes s (entries.foldl (visit rule) s) := by
  induction entries generalizing s with
  | nil => exact .refl s
  | cons entry rest ih =>
    have hone := goes_visit rule (hentries entry mem_cons_self)
    refine hone.trans (ih fun other hother => ?_)
    rw [hone.length]
    exact hentries other (mem_cons_of_mem _ hother)

variable (rule) in
theorem goes_pass (table : List (Option ν)) : Goes (false, table) (pass rule table) :=
  goes_foldl fun _ hentry => mem_range.mp hentry

/-! ## The passes end -/

/-- **The passes end.** -/
theorem within_isSome {rounds : ℕ} (h : missing table < rounds) :
    (within rule rounds table).isSome := by
  induction rounds generalizing table with
  | zero => omega
  | succ rounds ih =>
    have hgoes := goes_pass rule table
    rw [within]
    cases hpass : pass rule table with
    | mk changed next =>
      rw [hpass] at hgoes
      cases changed with
      | false => rfl
      | true => exact ih ((hgoes.settled rfl rfl).trans_le (Nat.le_of_lt_succ h))

/-- More rounds make no difference. -/
theorem within_mono {rounds more : ℕ} {final : List (Option ν)}
    (h : within rule rounds table = some final) (hmore : rounds ≤ more) :
    within rule more table = some final := by
  induction rounds generalizing table more with
  | zero => cases h
  | succ rounds ih =>
    have hpos : 1 ≤ more := Nat.le_trans (Nat.le_add_left 1 rounds) hmore
    obtain ⟨more, rfl⟩ := Nat.exists_eq_add_of_le' hpos
    rw [within] at h ⊢
    cases hpass : pass rule table with
    | mk changed next =>
      rw [hpass] at h
      cases changed with
      | false => exact h
      | true => exact ih h (Nat.le_of_succ_le_succ hmore)

/-! ## Where they end -/

section

variable {P : List (Option ν) → Prop}
  (hstep : ∀ table entry value, P table → entry < table.length → table.getD entry none = none →
    rule table entry = some value → P (table.set entry (some value)))

include hstep

theorem foldl_invariant {entries : List ℕ} (hentries : ∀ entry ∈ entries, entry < s.2.length)
    (h : P s.2) : P (entries.foldl (visit rule) s).2 := by
  induction entries generalizing s with
  | nil => exact h
  | cons entry rest ih =>
    have hlt := hentries entry mem_cons_self
    refine ih (fun other hother => ?_) ?_
    · rw [(goes_visit rule hlt).length]
      exact hentries other (mem_cons_of_mem _ hother)
    · rcases visit_cases rule s entry with hsame | ⟨value, hnone, hvalue, hset⟩
      · rwa [hsame]
      · rw [hset]
        exact hstep s.2 entry value h hlt hnone hvalue

/-- **What settling one entry keeps,** the passes keep. -/
theorem within_invariant {rounds : ℕ} {final : List (Option ν)} (h : P table)
    (hfinal : within rule rounds table = some final) : P final := by
  induction rounds generalizing table with
  | zero => cases hfinal
  | succ rounds ih =>
    have hnext : P (pass rule table).2 :=
      foldl_invariant hstep (fun _ hentry => mem_range.mp hentry) h
    rw [within] at hfinal
    cases hpass : pass rule table with
    | mk changed next =>
      rw [hpass] at hfinal hnext
      cases changed with
      | false =>
        cases hfinal
        exact hnext
      | true => exact ih hnext hfinal

end

theorem within_length {rounds : ℕ} {final : List (Option ν)}
    (hfinal : within rule rounds table = some final) : final.length = table.length :=
  within_invariant (P := fun other => other.length = table.length)
    (fun _ _ _ h _ _ _ => (length_set).trans h) rfl hfinal

/-- A part of a pass that changes nothing has visited entries that cannot be settled. -/
theorem visit_eq_self_of_foldl {entries : List ℕ} (hentries : ∀ entry ∈ entries, entry < s.2.length)
    (h : (entries.foldl (visit rule) s).1 = false) : ∀ entry ∈ entries, visit rule s entry = s := by
  induction entries generalizing s with
  | nil => exact fun _ hentry => absurd hentry not_mem_nil
  | cons entry rest ih =>
    have hone := goes_visit rule (hentries entry mem_cons_self)
    have hrest : ∀ other ∈ rest, other < (visit rule s entry).2.length := fun other hother => by
      rw [hone.length]
      exact hentries other (mem_cons_of_mem _ hother)
    have hsame : visit rule s entry = s := by
      refine hone.unchanged ?_
      cases hflag : (visit rule s entry).1 with
      | false => rfl
      | true => exact absurd (((goes_foldl hrest).flag hflag).symm.trans h).symm Bool.false_ne_true
    intro other hother
    rcases mem_cons.mp hother with rfl | hother
    · exact hsame
    · have := ih hrest h other hother
      rwa [hsame] at this

/-- **When the passes end,** the rule gives no value to an entry without one. -/
theorem within_stable {rounds : ℕ} {final : List (Option ν)}
    (hfinal : within rule rounds table = some final) (hentry : entry < final.length)
    (hnone : final.getD entry none = none) : rule final entry = none := by
  induction rounds generalizing table with
  | zero => cases hfinal
  | succ rounds ih =>
    rw [within] at hfinal
    cases hpass : pass rule table with
    | mk changed next =>
      rw [hpass] at hfinal
      cases changed with
      | true => exact ih hfinal
      | false =>
        cases hfinal
        have hgoes := goes_pass rule table
        rw [hpass] at hgoes
        obtain rfl : final = table := congrArg Prod.snd (hgoes.unchanged rfl)
        have hflag : (pass rule final).1 = false := by rw [hpass]
        have hself := visit_eq_self_of_foldl (fun _ hmem => mem_range.mp hmem) hflag entry
          (mem_range.mpr hentry)
        rw [visit, if_neg (by simp only [hnone]; exact Bool.false_ne_true)] at hself
        cases hrule : rule final entry with
        | none => rfl
        | some value =>
          simp only [hrule] at hself
          exact absurd (congrArg Prod.fst hself) Bool.noConfusion

end Settling
