import Mathlib.Data.List.Nodup

/-!
# Parent links

A partial map names the parent of each member that has one.

* `Lineage parent a path` : following the links from `a` visits `path`, and ends
* `Lineage.nodup` : it visits no member twice
* `ends_update_iff` : after one more link all lineages still end just if it does not close a loop
-/

namespace ParentLinks

open List

variable {α : Type*} {parent : α → Option α} {a b k : α} {path : List α}

inductive Lineage (parent : α → Option α) : α → List α → Prop
  | last {a : α} (h : parent a = none) : Lineage parent a [a]
  | up {a b : α} {path : List α} (h : parent a = some b) (hp : Lineage parent b path) :
    Lineage parent a (a :: path)

theorem Lineage.head_mem (h : Lineage parent a path) : a ∈ path := by
  cases h with
  | last => exact mem_singleton_self _
  | up => exact mem_cons_self

theorem Lineage.unique {path' : List α} (h : Lineage parent a path) (h' : Lineage parent a path') :
    path = path' := by
  induction h generalizing path' with
  | last h =>
    cases h' with
    | last => rfl
    | up h' => cases h.symm.trans h'
  | up h _ ih =>
    cases h' with
    | last h' => cases h.symm.trans h'
    | up h' hp' =>
      cases h.symm.trans h'
      rw [ih hp']

/-- What a lineage visits has a lineage that is no longer. -/
theorem Lineage.of_mem (h : Lineage parent a path) (hb : b ∈ path) :
    ∃ path', Lineage parent b path' ∧ path'.length ≤ path.length := by
  induction h with
  | last h =>
    obtain rfl := mem_singleton.mp hb
    exact ⟨_, .last h, Nat.le_refl _⟩
  | up h hp ih =>
    rcases mem_cons.mp hb with rfl | hb
    · exact ⟨_, .up h hp, Nat.le_refl _⟩
    · obtain ⟨path', hp', hle⟩ := ih hb
      exact ⟨path', hp', Nat.le_trans hle (Nat.le_succ _)⟩

theorem Lineage.not_mem (h : parent a = some b) (hp : Lineage parent b path) : a ∉ path := by
  intro ha
  obtain ⟨path', hp', hle⟩ := hp.of_mem ha
  have he := hp'.unique (.up h hp)
  rw [he, length_cons] at hle
  exact Nat.not_succ_le_self _ hle

theorem Lineage.nodup (h : Lineage parent a path) : path.Nodup := by
  induction h with
  | last => exact nodup_singleton _
  | up h hp ih => exact nodup_cons.mpr ⟨hp.not_mem h, ih⟩

/-- A lineage ends at a member without a parent. -/
theorem Lineage.exists_last (h : Lineage parent a path) :
    ∃ last, path.getLast? = some last ∧ last ∈ path ∧ parent last = none := by
  induction h with
  | last h => exact ⟨_, rfl, mem_singleton_self _, h⟩
  | up _ hp ih =>
    obtain ⟨last, hlast, hmem, hnone⟩ := ih
    refine ⟨last, ?_, mem_cons_of_mem _ hmem, hnone⟩
    rw [getLast?_cons, hlast]
    rfl

/-- What the links keep holds of everything a lineage visits. -/
theorem Lineage.forall_mem {P : α → Prop} (hstep : ∀ a b, P a → parent a = some b → P b)
    (h : Lineage parent a path) (ha : P a) : ∀ b ∈ path, P b := by
  induction h with
  | last =>
    intro b hb
    rwa [mem_singleton.mp hb]
  | up hab hp ih =>
    intro c hc
    rcases mem_cons.mp hc with rfl | hc
    · exact ha
    · exact ih (hstep _ _ ha hab) c hc

def Ends (parent : α → Option α) : Prop := ∀ a, ∃ path, Lineage parent a path

section

variable [DecidableEq α]

/-- A lineage past `k` does not see its link. -/
theorem Lineage.update {v : Option α} (h : Lineage parent a path) (hk : k ∉ path) :
    Lineage (Function.update parent k v) a path := by
  induction h with
  | last h => exact .last (by rwa [Function.update_of_ne (fun he => hk (by simp [he]))])
  | up h hp ih =>
    rw [mem_cons, not_or] at hk
    exact .up (by rwa [Function.update_of_ne (Ne.symm hk.1)]) (ih hk.2)

/-- A lineage that visits `k` still does so when the link of `k` changes. -/
theorem Lineage.mem_update {v : Option α} {path' : List α} (h : Lineage parent a path)
    (hk : k ∈ path) (h' : Lineage (Function.update parent k v) a path') : k ∈ path' := by
  induction h generalizing path' with
  | last =>
    rw [mem_singleton.mp hk]
    exact h'.head_mem
  | @up a b path hab _ ih =>
    by_cases ha : k = a
    · rw [ha]
      exact h'.head_mem
    · have hrest := (mem_cons.mp hk).resolve_left ha
      cases h' with
      | last hnone =>
        rw [Function.update_of_ne (Ne.symm ha), hab] at hnone
        cases hnone
      | up hab' hp' =>
        rw [Function.update_of_ne (Ne.symm ha), hab] at hab'
        obtain rfl := Option.some.inj hab'
        exact mem_cons_of_mem _ (ih hrest hp')

/-- **One more link.** -/
theorem ends_update_iff (h : Ends parent) (hb : Lineage parent b path) :
    Ends (Function.update parent k (some b)) ↔ k ∉ path := by
  constructor
  · intro hends hk
    obtain ⟨path', hp'⟩ := hends b
    exact hp'.not_mem (Function.update_self ..) (hb.mem_update hk hp')
  · intro hk a
    obtain ⟨pathA, hp⟩ := h a
    induction hp with
    | @last a ha =>
      by_cases hak : a = k
      · exact ⟨_, .up (by rw [hak, Function.update_self]) (hb.update hk)⟩
      · exact ⟨_, .last (by rwa [Function.update_of_ne hak])⟩
    | @up a c pathC hac _ ih =>
      by_cases hak : a = k
      · exact ⟨_, .up (by rw [hak, Function.update_self]) (hb.update hk)⟩
      · obtain ⟨pathC', hp'⟩ := ih
        exact ⟨_, .up (by rwa [Function.update_of_ne hak]) hp'⟩

end

end ParentLinks
