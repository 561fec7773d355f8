import Mathlib.Data.List.Induction
import Mathlib.Data.List.Nodup

/-!
# Checks that stop at the first error

Computations in `Except` whose results say what was checked.  `failIf` and `okOr` stop with an error,
`bind_ok` and `mapM_ok` take a successful computation apart, `foldlM_ok` is the invariant rule of a loop,
and `checkEach` checks each element of a list against the ones before it.
-/

namespace Checks

open List

universe u

variable {α β σ : Type u} {ε : Type*}

/-- Stop with an error when something is wrong. -/
def failIf (bad : Prop) [Decidable bad] (e : ε) : Except ε Unit := if bad then .error e else .ok ()

@[simp] theorem failIf_ok {bad : Prop} [Decidable bad] {e : ε} {u : Unit} :
    failIf bad e = .ok u ↔ ¬ bad := by
  rw [failIf]
  split <;> simp_all

/-- `Option::ok_or` -/
def okOr (x : Option α) (e : ε) : Except ε α :=
  match x with
  | some a => .ok a
  | none => .error e

@[simp] theorem okOr_ok {x : Option α} {e : ε} {a : α} : okOr x e = .ok a ↔ x = some a := by
  cases x <;> simp [okOr]

theorem bind_ok {x : Except ε α} {f : α → Except ε β} {b : β} :
    x >>= f = .ok b ↔ ∃ a, x = .ok a ∧ f a = .ok b := by
  cases x with
  | error e =>
    constructor
    · intro h
      cases h
    · rintro ⟨_, h, -⟩
      cases h
  | ok a =>
    constructor
    · exact fun h => ⟨a, rfl, h⟩
    · rintro ⟨_, ha, h⟩
      cases ha
      exact h

theorem map_ok {x : Except ε α} {f : α → β} {b : β} :
    x.map f = .ok b ↔ ∃ a, x = .ok a ∧ f a = b := by
  cases x <;> simp [Except.map]

theorem mapError_ok {ε' : Type*} {x : Except ε α} {f : ε → ε'} {a : α} :
    x.mapError f = .ok a ↔ x = .ok a := by
  cases x <;> simp [Except.mapError]

/-- Where the values of a successful `mapM` come from. -/
theorem mapM_ok {f : α → Except ε β} {xs : List α} {ys : List β} (h : xs.mapM f = .ok ys) :
    ∀ y ∈ ys, ∃ x ∈ xs, f x = .ok y := by
  induction xs generalizing ys with
  | nil =>
    cases h
    simp
  | cons x xs ih =>
    rw [mapM_cons] at h
    obtain ⟨y, hy, h⟩ := bind_ok.mp h
    obtain ⟨rest, hrest, h⟩ := bind_ok.mp h
    cases h
    intro z hz
    rcases mem_cons.mp hz with rfl | hz
    · exact ⟨x, mem_cons_self, hy⟩
    · obtain ⟨w, hw, hwz⟩ := ih hrest z hz
      exact ⟨w, mem_cons_of_mem _ hw, hwz⟩

/-- Where the arguments of a successful `mapM` go. -/
theorem exists_of_mapM {f : α → Except ε β} {xs : List α} {ys : List β} (h : xs.mapM f = .ok ys) :
    ∀ x ∈ xs, ∃ y ∈ ys, f x = .ok y := by
  induction xs generalizing ys with
  | nil => simp
  | cons x xs ih =>
    rw [mapM_cons] at h
    obtain ⟨y, hy, h⟩ := bind_ok.mp h
    obtain ⟨rest, hrest, h⟩ := bind_ok.mp h
    cases h
    intro z hz
    rcases mem_cons.mp hz with rfl | hz
    · exact ⟨y, mem_cons_self, hy⟩
    · obtain ⟨w, hw, hwz⟩ := ih hrest z hz
      exact ⟨w, mem_cons_of_mem _ hw, hwz⟩

/-- A `mapM` succeeds where each of its steps does. -/
theorem exists_mapM {f : α → Except ε β} {xs : List α} :
    (∃ ys, xs.mapM f = .ok ys) ↔ ∀ x ∈ xs, ∃ y, f x = .ok y := by
  constructor
  · rintro ⟨ys, h⟩ x hx
    obtain ⟨y, -, hy⟩ := exists_of_mapM h x hx
    exact ⟨y, hy⟩
  · intro h
    induction xs with
    | nil => exact ⟨[], rfl⟩
    | cons x xs ih =>
      obtain ⟨y, hy⟩ := h x mem_cons_self
      obtain ⟨ys, hys⟩ := ih fun x' hx' => h x' (mem_cons_of_mem _ hx')
      refine ⟨y :: ys, ?_⟩
      rw [mapM_cons]
      exact bind_ok.mpr ⟨y, hy, bind_ok.mpr ⟨ys, hys, rfl⟩⟩

/-- A `mapM` whose steps are known. -/
theorem mapM_of_forall₂ {f : α → Except ε β} {xs : List α} {ys : List β}
    (h : Forall₂ (fun x y => f x = .ok y) xs ys) : xs.mapM f = .ok ys := by
  induction h with
  | nil => rfl
  | cons hx _ ih =>
    rw [mapM_cons]
    exact bind_ok.mpr ⟨_, hx, bind_ok.mpr ⟨_, ih, rfl⟩⟩

/-- What each step says of its value, read off the list of the values. -/
theorem map_of_mapM {γ : Type*} {f : α → Except ε β} {g : β → γ} {k : α → γ} {xs : List α}
    {ys : List β} (h : xs.mapM f = .ok ys) (hf : ∀ x y, f x = .ok y → g y = k x) :
    ys.map g = xs.map k := by
  induction xs generalizing ys with
  | nil =>
    cases h
    rfl
  | cons x xs ih =>
    rw [mapM_cons] at h
    obtain ⟨y, hy, h⟩ := bind_ok.mp h
    obtain ⟨rest, hrest, h⟩ := bind_ok.mp h
    cases h
    rw [map_cons, map_cons, hf x y hy, ih hrest]

/-- A `forM` succeeds where each of its steps does. -/
theorem forM_ok {f : α → Except ε PUnit} {xs : List α} :
    xs.forM f = .ok ⟨⟩ ↔ ∀ x ∈ xs, f x = .ok ⟨⟩ := by
  induction xs with
  | nil => simp [pure, Except.pure]
  | cons x xs ih =>
    rw [List.forM, bind_ok, forall_mem_cons, ← ih]
    constructor
    · rintro ⟨⟨⟩, h⟩
      exact h
    · exact fun h => ⟨⟨⟩, h⟩

/-- Where the values of a `mapM` of options come from. -/
theorem mapM_some {f : α → Option β} {xs : List α} {ys : List β} (h : xs.mapM f = some ys) :
    ∀ y ∈ ys, ∃ x ∈ xs, f x = some y := by
  induction xs generalizing ys with
  | nil =>
    cases h
    simp
  | cons x xs ih =>
    rw [mapM_cons] at h
    obtain ⟨y, hy, h⟩ := Option.bind_eq_some_iff.mp h
    obtain ⟨rest, hrest, h⟩ := Option.bind_eq_some_iff.mp h
    cases h
    intro z hz
    rcases mem_cons.mp hz with rfl | hz
    · exact ⟨x, mem_cons_self, hy⟩
    · obtain ⟨w, hw, hwz⟩ := ih hrest z hz
      exact ⟨w, mem_cons_of_mem _ hw, hwz⟩

theorem mapM_some_map {f : α → Option β} {g : α → β} {xs : List α}
    (h : ∀ x ∈ xs, f x = some (g x)) : xs.mapM f = some (xs.map g) := by
  induction xs with
  | nil => rfl
  | cons x xs ih =>
    rw [mapM_cons, h x mem_cons_self, ih fun y hy => h y (mem_cons_of_mem _ hy)]
    rfl

/-- **Loops.**  What every step keeps holds of the accumulator at the end. -/
theorem foldlM_ok {f : σ → α → Except ε σ} {I : σ → Prop} {xs : List α} {s s' : σ}
    (h : xs.foldlM f s = .ok s') (hs : I s)
    (hstep : ∀ s, ∀ x ∈ xs, ∀ s', I s → f s x = .ok s' → I s') : I s' := by
  induction xs generalizing s with
  | nil =>
    cases h
    exact hs
  | cons x xs ih =>
    rw [foldlM_cons] at h
    obtain ⟨mid, hx, h⟩ := bind_ok.mp h
    exact ih h (hstep s x mem_cons_self mid hs hx) fun s y hy =>
      hstep s y (mem_cons_of_mem _ hy)

/-- The computation stops with no error but these. -/
def FailsWith (P : ε → Prop) (x : Except ε α) : Prop := ∀ e, x = .error e → P e

section

variable {P : ε → Prop}

theorem FailsWith.ok (a : α) : FailsWith P (.ok a : Except ε α) := by
  intro e h
  cases h

theorem FailsWith.error {e : ε} (h : P e) : FailsWith P (.error e : Except ε α) := by
  rintro _ ⟨⟩
  exact h

theorem FailsWith.failIf {bad : Prop} [Decidable bad] {e : ε} (h : P e) :
    FailsWith P (failIf bad e) := by
  rw [Checks.failIf]
  split
  · exact .error h
  · exact .ok ()

theorem FailsWith.okOr {x : Option α} {e : ε} (h : P e) : FailsWith P (okOr x e) := by
  rcases x with _ | a
  · exact .error h
  · exact .ok a

theorem FailsWith.bind {x : Except ε α} {f : α → Except ε β} (hx : FailsWith P x)
    (hf : ∀ a, FailsWith P (f a)) : FailsWith P (x >>= f) := by
  rcases x with e | a
  · exact .error (hx e rfl)
  · exact hf a

theorem FailsWith.bind_of {x : Except ε α} {f : α → Except ε β} (hx : FailsWith P x)
    (hf : ∀ a, x = .ok a → FailsWith P (f a)) : FailsWith P (x >>= f) := by
  rcases x with e | a
  · exact .error (hx e rfl)
  · exact hf a rfl

theorem FailsWith.map {x : Except ε α} {f : α → β} (hx : FailsWith P x) : FailsWith P (x.map f) := by
  rcases x with e | a
  · exact .error (hx e rfl)
  · exact .ok (f a)

theorem FailsWith.mapError {ε' : Type*} {x : Except ε' α} {f : ε' → ε}
    (h : FailsWith (fun e => P (f e)) x) : FailsWith P (x.mapError f) := by
  rcases x with e | a
  · exact .error (h e rfl)
  · exact .ok a

theorem FailsWith.foldlM {f : σ → α → Except ε σ} {xs : List α} {s : σ}
    (hf : ∀ s x, FailsWith P (f s x)) : FailsWith P (xs.foldlM f s) := by
  induction xs generalizing s with
  | nil => exact .ok s
  | cons x xs ih =>
    rw [foldlM_cons]
    exact (hf s x).bind fun _ => ih

theorem FailsWith.mapM {f : α → Except ε β} {xs : List α} (hf : ∀ x, FailsWith P (f x)) :
    FailsWith P (xs.mapM f) := by
  induction xs with
  | nil => exact .ok []
  | cons x xs ih =>
    rw [mapM_cons]
    exact (hf x).bind fun _ => ih.bind fun _ => .ok _

theorem FailsWith.forM {f : α → Except ε PUnit} {xs : List α} (hf : ∀ x, FailsWith P (f x)) :
    FailsWith P (xs.forM f) := by
  induction xs with
  | nil => exact .ok _
  | cons x xs ih => exact .bind (hf x) fun _ => ih

end

/-- Check each element against the ones before it. -/
def checkEach (check : List α → α → Except ε Unit) : List α → List α → Except ε Unit
  | _, [] => .ok ()
  | seen, x :: rest => do
    check seen x
    checkEach check (seen ++ [x]) rest

variable {check : List α → α → Except ε Unit}

/-- **What a loop of checks establishes.** -/
theorem checkEach_ok {seen xs : List α} : checkEach check seen xs = .ok () ↔
    ∀ before x after, xs = before ++ x :: after → check (seen ++ before) x = .ok () := by
  induction xs generalizing seen with
  | nil => simp [checkEach]
  | cons y ys ih =>
    rw [checkEach, bind_ok]
    constructor
    · rintro ⟨_, hy, hrest⟩ before x after he
      rcases before with _ | ⟨z, before⟩
      · cases he
        simpa using hy
      · cases he
        simpa using ih.mp hrest before x after rfl
    · intro h
      refine ⟨(), by simpa using h [] y ys rfl, ih.mpr fun before x after he => ?_⟩
      simpa using h (y :: before) x after (by rw [he]; rfl)

/-- A loop of checks stops with the errors of its checks. -/
theorem FailsWith.checkEach {P : ε → Prop} {seen xs : List α}
    (h : ∀ before x after, xs = before ++ x :: after → FailsWith P (check (seen ++ before) x)) :
    FailsWith P (checkEach check seen xs) := by
  induction xs generalizing seen with
  | nil => exact .ok ()
  | cons y ys ih =>
    refine .bind (by simpa using h [] y ys rfl) fun _ => ih fun before x after he => ?_
    simpa using h (y :: before) x after (by rw [he]; rfl)

/-- Every element passed its check. -/
theorem checkEach_mem {seen xs : List α} (h : checkEach check seen xs = .ok ()) {x : α}
    (hx : x ∈ xs) : ∃ before after, xs = before ++ x :: after ∧ check (seen ++ before) x = .ok () := by
  obtain ⟨before, after, he⟩ := append_of_mem hx
  exact ⟨before, after, he, checkEach_ok.mp h before x after he⟩

theorem checkEach_append {seen xs ys : List α} : checkEach check seen (xs ++ ys) = .ok () ↔
    checkEach check seen xs = .ok () ∧ checkEach check (seen ++ xs) ys = .ok () := by
  induction xs generalizing seen with
  | nil => simp [checkEach]
  | cons x xs ih =>
    rw [cons_append, checkEach, checkEach, bind_ok, bind_ok]
    simp only [ih, append_assoc, singleton_append]
    constructor
    · rintro ⟨u, hx, hxs, hys⟩
      exact ⟨⟨u, hx, hxs⟩, hys⟩
    · rintro ⟨⟨u, hx, hxs⟩, hys⟩
      exact ⟨u, hx, hxs, hys⟩

/-- Loops over the items of each element, which go on from what they have seen, are one loop over all
items. -/
theorem checkEach_flatMap {check : List β → β → Except ε Unit} {items : α → List β} {xs : List α}
    (h : ∀ before x after, xs = before ++ x :: after →
      checkEach check (before.flatMap items) (items x) = .ok ()) :
    checkEach check [] (xs.flatMap items) = .ok () := by
  suffices hfront : ∀ pre, pre <+: xs → checkEach check [] (pre.flatMap items) = .ok () from
    hfront xs xs.prefix_rfl
  intro pre
  induction pre using reverseRecOn with
  | nil =>
    intro
    rfl
  | append_singleton pre x ih =>
    rintro ⟨after, he⟩
    rw [flatMap_append, checkEach_append, nil_append, flatMap_singleton]
    exact ⟨ih ⟨x :: after, by simpa using he⟩, h pre x after (by simpa using he.symm)⟩

/-- A check that refuses keys of items seen before leaves distinct keys. -/
theorem nodup_flatMap_of_checkEach {γ : Type*} {items : α → List β} {key : β → γ} {xs : List α}
    (hcheck : ∀ seen x, check seen x = .ok () → ((items x).map key).Nodup ∧
      ∀ item ∈ items x, key item ∉ (seen.flatMap items).map key)
    (h : checkEach check [] xs = .ok ()) : ((xs.flatMap items).map key).Nodup := by
  rw [checkEach_ok] at h
  suffices hfront : ∀ pre, pre <+: xs → ((pre.flatMap items).map key).Nodup from
    hfront xs xs.prefix_rfl
  intro pre
  induction pre using reverseRecOn with
  | nil => simp
  | append_singleton pre x ih =>
    rintro ⟨after, he⟩
    obtain ⟨hx, hnew⟩ := hcheck _ _ (by simpa using h pre x after (by simpa using he.symm))
    have hpre := ih ⟨x :: after, by simpa using he⟩
    rw [flatMap_append, map_append, flatMap_singleton]
    refine hpre.append hx fun k hk hk' => ?_
    obtain ⟨item, hitem, rfl⟩ := mem_map.mp hk'
    exact hnew item hitem hk

/-- A check that refuses a key seen before leaves distinct keys. -/
theorem nodup_of_checkEach {γ : Type*} {key : α → γ} {xs : List α}
    (hcheck : ∀ seen x, check seen x = .ok () → key x ∉ seen.map key)
    (h : checkEach check [] xs = .ok ()) : (xs.map key).Nodup := by
  have := @nodup_flatMap_of_checkEach α α _ check γ (fun x => [x]) key xs (fun seen x hx => by
    simpa [flatMap_singleton'] using hcheck seen x hx) h
  simpa [flatMap_singleton'] using this

/-- A loop passes where a loop over corresponding elements does, when each check follows from the
other. -/
theorem checkEach_imp {R : α → β → Prop} {check' : List β → β → Except ε Unit}
    (hcheck : ∀ seen seen' x y, Forall₂ R seen seen' → R x y → check seen x = .ok () →
      check' seen' y = .ok ())
    {seen xs : List α} {seen' ys : List β} (hs : Forall₂ R seen seen')
    (hxy : Forall₂ R xs ys) (h : checkEach check seen xs = .ok ()) :
    checkEach check' seen' ys = .ok () := by
  induction hxy generalizing seen seen' with
  | nil => rfl
  | cons hr _ ih =>
    rw [checkEach, bind_ok] at h ⊢
    obtain ⟨_, hx, h⟩ := h
    exact ⟨(), hcheck _ _ _ _ hs hr hx, ih (rel_append hs (.cons hr .nil)) h⟩

end Checks
