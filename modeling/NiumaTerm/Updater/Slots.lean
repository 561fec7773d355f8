import NiumaTerm.Updater.SelfUpdate

/-!
# The three names of a file

Replacing a file touches its own name, the one it is set aside under and the one its replacement is staged
under: its `Slot`.  For `Plain` names the slots of two files have no name in common.
-/

namespace NiumaTerm.SelfUpdate

open Rust Crash List

variable {α : Type}

structure Slot (α : Type) where
  live : Option (Entry α)
  previous : Option (Entry α)
  incoming : Option (Entry α)

def slotOf (d : Directory α) (name : Str) : Slot α where
  live := d.lookup name
  previous := d.lookup (previous name)
  incoming := d.lookup (incoming name)

structure Plain (name : Str) : Prop where
  previous : ∀ other, name ≠ previous other
  incoming : ∀ other, name ≠ incoming other

theorem previous_injective : Function.Injective previous := fun _ _ h => append_cancel_right h

theorem incoming_injective : Function.Injective incoming := fun _ _ h => append_cancel_right h

/-- The two suffixes end in different letters. -/
theorem previous_ne_incoming (a b : Str) : previous a ≠ incoming b := by
  intro h
  have hlast : (previous a).getLast? = (incoming b).getLast? := by rw [h]
  rw [previous, incoming, getLast?_append, getLast?_append,
    show previousSuffix.getLast? = some 's' by decide, show incomingSuffix.getLast? = some 'g' by decide] at hlast
  exact absurd hlast (by simp)

/-- Nothing changed but the three names of `x`. -/
def OnlyAt (x : Str) (d d' : Directory α) : Prop :=
  ∀ name, name ≠ x → name ≠ previous x → name ≠ incoming x → d'.lookup name = d.lookup name

theorem OnlyAt.slotOf {x y : Str} {d d' : Directory α} (h : OnlyAt x d d') (hx : Plain x) (hy : Plain y)
    (hne : y ≠ x) : slotOf d' y = slotOf d y := by
  rw [SelfUpdate.slotOf, SelfUpdate.slotOf, h y hne (hy.previous x) (hy.incoming x),
    h (previous y) (hx.previous y).symm (fun heq => hne (previous_injective heq)) (previous_ne_incoming y x),
    h (incoming y) (hx.incoming y).symm (previous_ne_incoming x y).symm fun heq => hne (incoming_injective heq)]

/-! ## Operations on one file -/

/-- An operation does nothing, or it does `effect` to the slot of `x` where `guard` holds. -/
def Acts (x : Str) (f : Option (Outcome α) → Directory α → Bool × Directory α) (guard : Slot α → Prop)
    (effect : Slot α → Slot α) : Prop :=
  ∀ outcome d, f outcome d = (false, d) ∨
    (f outcome d).1 = true ∧ guard (slotOf d x) ∧ slotOf (f outcome d).2 x = effect (slotOf d x) ∧
      OnlyAt x d (f outcome d).2

def Slot.setAside (s : Slot α) : Slot α := { s with live := none, previous := s.live }

def Slot.moveIn (s : Slot α) : Slot α := { s with live := s.incoming, incoming := none }

def Slot.putBack (s : Slot α) : Slot α := { s with live := s.previous, previous := none }

def Slot.moveOut (s : Slot α) : Slot α := { s with live := none, incoming := s.live }

theorem rename_cases {source target : Str} (hne : source ≠ target) (outcome : Option (Outcome α)) (d : Directory α) :
    Directory.rename source target outcome d = (false, d) ∨
      (Directory.rename source target outcome d).1 = true ∧
      ∃ entry, d.lookup source = some entry ∧ entry.mayReplace (d.lookup target) = true ∧
        (Directory.rename source target outcome d).2.lookup target = some entry ∧
        (Directory.rename source target outcome d).2.lookup source = none ∧
        ∀ name, name ≠ source → name ≠ target →
          (Directory.rename source target outcome d).2.lookup name = d.lookup name := by
  rw [Directory.rename]
  cases hs : d.lookup source with
  | none => exact .inl rfl
  | some entry =>
    dsimp only
    by_cases hmay : (entry.mayReplace (d.lookup target) && Outcome.isDone outcome) = true
    · rw [if_pos hmay]
      refine .inr ⟨rfl, entry, rfl, (Bool.and_eq_true_iff.mp hmay).1, AList.lookup_insert _, ?_, fun name h₁ h₂ => ?_⟩
      · rw [AList.lookup_insert_ne hne, AList.lookup_erase]
      · rw [AList.lookup_insert_ne h₂, AList.lookup_erase_ne h₁]
    · rw [if_neg hmay]
      exact .inl rfl

section

variable {x : Str} (hx : Plain x)
include hx

theorem acts_setAside : Acts (α := α) x (Directory.rename x (previous x))
    (fun s => ∃ e, s.live = some e ∧ e.mayReplace s.previous = true) Slot.setAside := by
  intro outcome d
  refine (rename_cases (hx.previous x) outcome d).imp id fun ⟨hok, e, hs, hmay, ht, hn, hother⟩ => ?_
  refine ⟨hok, ⟨e, hs, hmay⟩, ?_, fun name h₁ h₂ _ => hother name h₁ h₂⟩
  rw [slotOf, ht, hn, hother (incoming x) (hx.incoming x).symm (previous_ne_incoming x x).symm]
  simp [slotOf, Slot.setAside, hs]

theorem acts_moveIn : Acts (α := α) x (Directory.rename (incoming x) x)
    (fun s => ∃ e, s.incoming = some e ∧ e.mayReplace s.live = true) Slot.moveIn := by
  intro outcome d
  refine (rename_cases (hx.incoming x).symm outcome d).imp id fun ⟨hok, e, hs, hmay, ht, hn, hother⟩ => ?_
  refine ⟨hok, ⟨e, hs, hmay⟩, ?_, fun name h₁ _ h₂ => hother name h₂ h₁⟩
  rw [slotOf, ht, hn, hother (previous x) (previous_ne_incoming x x) (hx.previous x).symm]
  simp [slotOf, Slot.moveIn, hs]

theorem acts_putBack : Acts (α := α) x (Directory.rename (previous x) x)
    (fun s => ∃ e, s.previous = some e ∧ e.mayReplace s.live = true) Slot.putBack := by
  intro outcome d
  refine (rename_cases (hx.previous x).symm outcome d).imp id fun ⟨hok, e, hs, hmay, ht, hn, hother⟩ => ?_
  refine ⟨hok, ⟨e, hs, hmay⟩, ?_, fun name h₁ h₂ _ => hother name h₂ h₁⟩
  rw [slotOf, ht, hn, hother (incoming x) (previous_ne_incoming x x).symm (hx.incoming x).symm]
  simp [slotOf, Slot.putBack, hs]

theorem acts_moveOut : Acts (α := α) x (Directory.rename x (incoming x))
    (fun s => ∃ e, s.live = some e ∧ e.mayReplace s.incoming = true) Slot.moveOut := by
  intro outcome d
  refine (rename_cases (hx.incoming x) outcome d).imp id fun ⟨hok, e, hs, hmay, ht, hn, hother⟩ => ?_
  refine ⟨hok, ⟨e, hs, hmay⟩, ?_, fun name h₁ _ h₂ => hother name h₁ h₂⟩
  rw [slotOf, ht, hn, hother (previous x) (hx.previous x).symm (previous_ne_incoming x x)]
  simp [slotOf, Slot.moveOut, hs]

theorem acts_remove : Acts (α := α) x (Directory.remove (incoming x)) (fun _ => True)
    fun s => { s with incoming := none } := by
  intro outcome d
  rw [Directory.remove]
  split
  · refine .inr ⟨rfl, trivial, ?_, fun name _ _ h => AList.lookup_erase_ne h⟩
    simp [slotOf, AList.lookup_erase_ne (hx.incoming x), AList.lookup_erase_ne (previous_ne_incoming x x)]
  · exact .inl rfl

end

/-- A copy that fails may leave anything under the staged name. -/
theorem copy_cases {x : Str} (hx : Plain x) (content : Option (Entry α)) (outcome : Option (Outcome α))
    (d : Directory α) :
    OnlyAt x d (Directory.copy content (incoming x) outcome d).2 ∧
    (slotOf (Directory.copy content (incoming x) outcome d).2 x).live = (slotOf d x).live ∧
    (slotOf (Directory.copy content (incoming x) outcome d).2 x).previous = (slotOf d x).previous ∧
    ((Directory.copy content (incoming x) outcome d).1 = true → content.isSome = true ∧
      (slotOf (Directory.copy content (incoming x) outcome d).2 x).incoming = content) := by
  have hinsert (left : Entry α) : OnlyAt x d (d.insert (incoming x) left) ∧
      (slotOf (d.insert (incoming x) left) x).live = (slotOf d x).live ∧
      (slotOf (d.insert (incoming x) left) x).previous = (slotOf d x).previous := by
    refine ⟨fun name _ _ h => AList.lookup_insert_ne h, ?_, ?_⟩
    · rw [slotOf, AList.lookup_insert_ne (hx.incoming x)]
      rfl
    · rw [slotOf, AList.lookup_insert_ne (previous_ne_incoming x x)]
      rfl
  have hsame : OnlyAt x d d ∧ (slotOf d x).live = (slotOf d x).live ∧ (slotOf d x).previous = (slotOf d x).previous :=
    ⟨fun _ _ _ _ => rfl, rfl, rfl⟩
  rcases content with _ | content | _
  · exact ⟨hsame.1, hsame.2.1, hsame.2.2, fun h => by cases h⟩
  · have hdone : (slotOf (d.insert (incoming x) (.file content)) x).incoming = some (.file content) :=
      AList.lookup_insert _
    by_cases hfree : (d.lookup (incoming x)).all Entry.isFile = true
    · simp only [Directory.copy, hfree, if_true]
      rcases outcome with _ | _ | _ | _ | left
      · exact ⟨(hinsert _).1, (hinsert _).2.1, (hinsert _).2.2, fun _ => ⟨rfl, hdone⟩⟩
      · exact ⟨(hinsert _).1, (hinsert _).2.1, (hinsert _).2.2, fun _ => ⟨rfl, hdone⟩⟩
      · exact ⟨hsame.1, hsame.2.1, hsame.2.2, fun h => by cases h⟩
      · exact ⟨fun name _ _ h => AList.lookup_erase_ne h, AList.lookup_erase_ne (hx.incoming x),
          AList.lookup_erase_ne (previous_ne_incoming x x), fun h => by cases h⟩
      · exact ⟨(hinsert _).1, (hinsert _).2.1, (hinsert _).2.2, fun h => by cases h⟩
    · simp only [Directory.copy, hfree]
      exact ⟨hsame.1, hsame.2.1, hsame.2.2, fun h => by cases h⟩
  · exact ⟨hsame.1, hsame.2.1, hsame.2.2, fun h => by cases h⟩

/-! ## Assertions slot by slot -/

def Each (p : Str → Slot α → Prop) (s : Install α) : Prop := ∀ y, Plain y → p y (slotOf s.files y)

variable {p q : Str → Slot α → Prop} {C : Install α → Prop}

variable {s : Install α} {r : Slot α → Prop}

theorem Each.imp (h : Each p s) (hpq : ∀ y t, Plain y → p y t → q y t) : Each q s :=
  fun y hy => hpq y _ hy (h y hy)

theorem Each.update {x : Str} {s s' : Install α} (h : Each p s) (hx : Plain x) (hd : OnlyAt x s.files s'.files)
    (hr : r (slotOf s'.files x)) : Each (Function.update p x r) s' := by
  intro y hy
  by_cases hyx : y = x
  · subst hyx
    rwa [Function.update_self]
  · rw [Function.update_of_ne hyx, hd.slotOf hx hy hyx]
    exact h y hy

theorem Each.of_update {x : Str} (h : Each (Function.update p x r) s)
    (hr : ∀ t, r t → q x t) (hp : ∀ y t, y ≠ x → p y t → q y t) : Each q s := by
  refine h.imp fun y t _ ht => ?_
  by_cases hyx : y = x
  · subst hyx
    rw [Function.update_self] at ht
    exact hr t ht
  · rw [Function.update_of_ne hyx] at ht
    exact hp y t hyx ht

theorem fallible_spec {op : Operation} {f : Option (Outcome α) → Directory α → Bool × Directory α} {P : Install α → Prop}
    {Q : Bool → Install α → Prop} (h : ∀ outcome s, P s →
      Q (f outcome s.files).1 { files := (f outcome s.files).2, log := s.log ++ [(op, (f outcome s.files).1)] })
    (hc : ∀ ok s, Q ok s → C s) : Spec P C (fallible op f) Q := .operation h hc

/-- An operation on `x` changes what is said of the slot of `x`. -/
theorem Acts.spec {x : Str} {op : Operation} {f : Option (Outcome α) → Directory α → Bool × Directory α}
    {guard : Slot α → Prop} {effect : Slot α → Slot α} (h : Acts x f guard effect) (hx : Plain x)
    (hr : ∀ t, p x t → guard t → r (effect t)) (hc : ∀ s, Each p s → C s)
    (hc' : ∀ s, Each (Function.update p x r) s → C s) :
    Spec (Each p) C (fallible op f) fun ok => bif ok then Each (Function.update p x r) else Each p := by
  refine fallible_spec (fun outcome s hs => ?_) fun ok s hs => ?_
  · obtain heq | ⟨hok, hguard, heffect, honly⟩ := h outcome s.files
    · simp only [heq]
      exact hs
    · simp only [hok]
      refine hs.update hx honly ?_
      rw [heffect]
      exact hr _ (hs x hx) hguard
  · cases ok with
    | true => exact hc' s hs
    | false => exact hc s hs

end NiumaTerm.SelfUpdate
