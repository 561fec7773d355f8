import NiumaTerm.Updater.Slots

/-!
# What `replaceFiles` leaves

`old` is the slot of a file before the attempt and `new` what the package has for it.  A file goes through
`Staged`, `Away` and `Swapped`; a failure takes it back to `Restored`, or, where a rename back fails as well,
leaves it `Safe`.  `Stopped` holds at every point between two operations and `Finished` at the end.
-/

namespace NiumaTerm.SelfUpdate

open Rust Crash List

variable {α : Type}

/-! ## One file -/

section

variable (old : Slot α) (new : Option (Entry α))

/-- The file is under its own name or set aside, and what was only set aside still is. -/
structure Safe (s : Slot α) : Prop where
  live : s.live = old.live ∨ s.live = new ∨ s.live = none
  kept : ∀ content, old.live = some (.file content) →
    s.live = some (.file content) ∨ s.previous = some (.file content)
  aside : (∀ content, old.live ≠ some (.file content)) → ∀ content, old.previous = some (.file content) →
    s.previous = some (.file content)

/-- What is set aside when the file has been. -/
def IsAside (aside : Option (Entry α)) : Prop :=
  (old.live = none ∧ aside = old.previous) ∨
    ∃ entry, old.live = some entry ∧ entry.mayReplace old.previous = true ∧ aside = some entry

structure Staged (s : Slot α) : Prop where
  live : s.live = old.live
  previous : s.previous = old.previous
  incoming : s.incoming = new
  isSome : new.isSome = true

structure Away (s : Slot α) : Prop where
  live : s.live = none
  previous : IsAside old s.previous
  incoming : s.incoming = new
  isSome : new.isSome = true

structure Swapped (s : Slot α) : Prop where
  live : s.live = new
  previous : IsAside old s.previous
  isSome : new.isSome = true

structure Restored (s : Slot α) : Prop where
  live : s.live = old.live
  previous : s.previous = old.previous ∨
    s.previous = none ∧ ∃ entry, old.live = some entry ∧ entry.mayReplace old.previous = true

/-- After a failure: restored, unless a rename back failed. -/
structure Undone (errors : List RollbackError) (s : Slot α) : Prop where
  restored : errors = [] → Restored old s
  safe : Safe old new s

end

variable {old : Slot α} {new : Option (Entry α)} {s : Slot α}

/-- A directory that may be set aside has nothing set aside before it. -/
theorem not_mayReplace_directory {content : α} {entry : Entry α} (hfile : ∀ content, entry ≠ .file content) :
    entry.mayReplace (some (.file content)) = false := by
  cases entry with
  | file c => exact absurd rfl (hfile c)
  | directory => rfl

theorem IsAside.safe (h : IsAside old s.previous) (hlive : s.live = new ∨ s.live = none) : Safe old new s := by
  refine ⟨.inr hlive, fun content hl => .inr ?_, fun hno content hp => ?_⟩
  · obtain ⟨hn, -⟩ | ⟨entry, he, -, ha⟩ := h
    · rw [hn] at hl
      cases hl
    · rw [ha, ← he, hl]
  · obtain ⟨-, ha⟩ | ⟨entry, he, hmay, -⟩ := h
    · rw [ha, hp]
    · rw [hp, not_mayReplace_directory fun c hc => hno c (by rw [he, hc])] at hmay
      cases hmay

theorem Swapped.safe (h : Swapped old new s) : Safe old new s := h.previous.safe (.inl h.live)

theorem Away.safe (h : Away old new s) : Safe old new s := h.previous.safe (.inr h.live)

theorem Restored.safe (h : Restored old s) : Safe old new s := by
  refine ⟨.inl h.live, fun content hl => .inl (by rw [h.live, hl]), fun hno content hp => ?_⟩
  obtain ha | ⟨-, entry, he, hmay⟩ := h.previous
  · rw [ha, hp]
  · rw [hp, not_mayReplace_directory fun c hc => hno c (by rw [he, hc])] at hmay
    cases hmay

theorem Staged.restored (h : Staged old new s) : Restored old s := ⟨h.live, .inl h.previous⟩

theorem Restored.undone (h : Restored old s) (errors : List RollbackError) : Undone old new errors s :=
  ⟨fun _ => h, h.safe⟩

theorem Safe.undone (h : Safe old new s) {errors : List RollbackError} (hne : errors ≠ []) :
    Undone old new errors s := ⟨fun he => absurd he hne, h⟩

theorem Undone.append {errors : List RollbackError} (h : Undone old new errors s) (before after : List RollbackError) :
    Undone old new (before ++ errors ++ after) s :=
  ⟨fun he => h.restored (append_eq_nil_iff.mp (append_eq_nil_iff.mp he).1).2, h.safe⟩

theorem Staged.setAside (h : Staged old new s) {entry : Entry α} (he : s.live = some entry)
    (hmay : entry.mayReplace s.previous = true) : Away old new s.setAside :=
  ⟨rfl, .inr ⟨entry, by rw [← h.live, he], by rwa [← h.previous], he⟩, h.incoming, h.isSome⟩

theorem Away.moveIn (h : Away old new s) : Swapped old new s.moveIn := ⟨h.incoming, h.previous, h.isSome⟩

theorem Away.putBack (h : Away old new s) (hhad : old.live.isSome = true) : Restored old s.putBack := by
  obtain ⟨hn, -⟩ | ⟨entry, he, hmay, ha⟩ := h.previous
  · rw [hn] at hhad
    cases hhad
  · exact ⟨by rw [he]; exact ha, .inr ⟨rfl, entry, he, hmay⟩⟩

theorem Away.restored (h : Away old new s) (hhad : old.live.isSome = false) : Restored old s := by
  obtain ⟨hn, ha⟩ | ⟨entry, he, -⟩ := h.previous
  · exact ⟨by rw [h.live, hn], .inl ha⟩
  · rw [he] at hhad
    cases hhad

theorem Swapped.moveOut (h : Swapped old new s) : Away old new s.moveOut := ⟨rfl, h.previous, h.live, h.isSome⟩

/-! ## Replacing one file, and undoing it -/

section

variable {p : Str → Slot α → Prop} {C : Install α → Prop} {x : Str}

/-- A file that a failed `replace` leaves behind keeps its staged copy. -/
structure Failed (old : Slot α) (new : Option (Entry α)) (errors : List RollbackError) (s : Slot α) : Prop
    extends Undone old new errors s where
  incoming : s.incoming.isSome = true

/-- What is said of the file while it is replaced. -/
def Underway (old : Slot α) (new : Option (Entry α)) (s : Slot α) : Prop := Safe old new s ∧ s.incoming.isSome = true

theorem Away.underway (h : Away old new s) : Underway old new s := ⟨h.safe, by rw [h.incoming]; exact h.isSome⟩

theorem Staged.underway (h : Staged old new s) : Underway old new s :=
  ⟨h.restored.safe, by rw [h.incoming]; exact h.isSome⟩

/-- What `replace` answers, with what it has done to the file. -/
def Tried (p : Str → Slot α → Prop) (x : Str) (old : Slot α) (new : Option (Entry α)) :
    Except (List RollbackError) Bool → Install α → Prop
  | .ok hadPrevious, s => hadPrevious = old.live.isSome ∧ Each (Function.update p x (Swapped old new)) s
  | .error errors, s => Each (Function.update p x (Failed old new errors)) s

theorem each_update_self {r : Slot α → Prop} {s : Install α} (h : Each p s) (hr : ∀ t, p x t → r t) :
    Each (Function.update p x r) s := by
  refine h.imp fun y t _ ht => ?_
  by_cases hyx : y = x
  · subst hyx
    rw [Function.update_self]
    exact hr t ht
  · rwa [Function.update_of_ne hyx]

theorem each_update_imp {r r' : Slot α → Prop} {s : Install α} (h : Each (Function.update p x r) s)
    (hr : ∀ t, r t → r' t) : Each (Function.update p x r') s := by
  have := each_update_self h (r := r') (x := x) fun t ht => hr t (by rwa [Function.update_self] at ht)
  rwa [Function.update_idem] at this

theorem moveIn_spec (hx : Plain x) (hp : ∀ t, p x t → Away old new t)
    (hc : ∀ s, Each (Function.update p x (Underway old new)) s → C s)
    (hc' : ∀ s, Each (Function.update p x (Swapped old new)) s → C s) :
    Spec (Each p) C (moveIn x old.live.isSome) (Tried p x old new) := by
  have haway (s : Install α) (h : Each p s) : C s := hc s (each_update_self h fun t ht => (hp t ht).underway)
  refine Spec.ite ((acts_moveIn hx).spec hx (fun t ht _ => (hp t ht).moveIn) haway hc') ?_ ?_
  · exact .pure fun s hs => ⟨rfl, hs⟩
  · dsimp only [cond_false]
    split
    · rename_i hhad
      have hback {t : Slot α} (h : p x t) : Failed old new [] t.putBack :=
        ⟨((hp t h).putBack hhad).undone _, (hp t h).underway.2⟩
      refine Spec.ite ((acts_putBack hx).spec hx (fun t ht _ => hback ht) haway fun s hs => hc s ?_) ?_ ?_
      · exact each_update_imp hs fun t ht => ⟨ht.safe, ht.incoming⟩
      · exact .pure fun s hs => hs
      · refine .pure fun s hs => each_update_self hs fun t ht => ⟨(hp t ht).safe.undone ?_, (hp t ht).underway.2⟩
        exact cons_ne_nil _ _
    · rename_i hhad
      refine .pure fun s hs => each_update_self hs fun t ht => ⟨?_, (hp t ht).underway.2⟩
      exact ((hp t ht).restored (Bool.eq_false_iff.mpr hhad)).undone _

theorem replace_spec (hx : Plain x) (hp : ∀ t, p x t → Staged old new t)
    (hc : ∀ s, Each (Function.update p x (Underway old new)) s → C s)
    (hc' : ∀ s, Each (Function.update p x (Swapped old new)) s → C s) :
    Spec (Each p) C (replace x) (Tried p x old new) := by
  have hstaged (s : Install α) (h : Each p s) : C s := hc s (each_update_self h fun t ht => (hp t ht).underway)
  have hthere : Spec (Each p) C (isThere x) fun had s => had = old.live.isSome ∧ Each p s := by
    refine .observe fun s hs => ⟨?_, hs⟩
    rw [← (hp _ (hs x hx)).live]
    rfl
  refine Spec.ite hthere (.fact fun hhad => ?_) (.fact fun hhad => ?_)
  · refine Spec.ite ((acts_setAside hx).spec hx (fun t ht ⟨entry, he, hmay⟩ => (hp t ht).setAside he hmay) hstaged
      fun s hs => hc s (each_update_imp hs fun t ht => ht.underway)) ?_ ?_
    · have haway (t : Slot α) (ht : Function.update p x (Away old new) x t) : Away old new t := by
        rwa [Function.update_self] at ht
      suffices h : Spec (Each (Function.update p x (Away old new))) C (moveIn x old.live.isSome) (Tried p x old new) by
        rwa [← hhad] at h
      refine (moveIn_spec hx haway ?_ ?_).post fun r s hs => ?_
      · rwa [Function.update_idem]
      · rwa [Function.update_idem]
      · cases r with
        | ok had | error errors =>
          rw [Tried, Function.update_idem] at hs
          exact hs
    · refine .pure fun s hs => each_update_self hs fun t ht => ⟨(hp t ht).restored.undone _, (hp t ht).underway.2⟩
  · suffices h : Spec (Each p) C (moveIn x old.live.isSome) (Tried p x old new) by rwa [← hhad] at h
    refine moveIn_spec hx (fun t ht => ?_) hc hc'
    have hst := hp t ht
    have hnone : old.live = none := Option.not_isSome_iff_eq_none.mp (by rw [← hhad]; exact Bool.false_ne_true)
    exact ⟨by rw [hst.live, hnone], .inl ⟨hnone, hst.previous⟩, hst.incoming, hst.isSome⟩

theorem undoOne_spec (hx : Plain x) (hp : ∀ t, p x t → Swapped old new t)
    (hc : ∀ s, Each (Function.update p x (Safe old new)) s → C s) :
    Spec (Each p) C (undoOne x old.live.isSome) fun errors => Each (Function.update p x (Undone old new errors)) := by
  have hswapped (s : Install α) (h : Each p s) : C s := hc s (each_update_self h fun t ht => (hp t ht).safe)
  have haway (s : Install α) (h : Each (Function.update p x (Away old new)) s) : C s :=
    hc s (each_update_imp h fun t ht => ht.safe)
  refine Spec.ite ((acts_moveOut hx).spec hx (fun t ht _ => (hp t ht).moveOut) hswapped haway) ?_ ?_
  · dsimp only [cond_true]
    split
    · rename_i hhad
      have hself (t : Slot α) (ht : Function.update p x (Away old new) x t) : Away old new t := by
        rwa [Function.update_self] at ht
      refine Spec.ite ((acts_putBack hx).spec hx (fun t ht _ => (hself t ht).putBack hhad) haway fun s hs => ?_) ?_ ?_
      · rw [Function.update_idem] at hs
        exact hc s (each_update_imp hs fun t ht => ht.safe)
      · refine .pure fun s hs => ?_
        rw [cond_true, Function.update_idem] at hs
        exact each_update_imp hs fun t ht => ht.undone _
      · exact .pure fun s hs => each_update_imp hs fun t ht => ht.safe.undone (cons_ne_nil _ _)
    · rename_i hhad
      refine .pure fun s hs => each_update_imp hs fun t ht => ?_
      exact (ht.restored (Bool.eq_false_iff.mpr hhad)).undone _
  · exact .pure fun s hs => each_update_self hs fun t ht => (hp t ht).safe.undone (cons_ne_nil _ _)

end

/-! ## All files -/

section

variable {p : Str → Slot α → Prop} {C : Install α → Prop} (old : Str → Slot α) (new : Str → Option (Entry α))

/-- The files of `replaced` are undone one after another. -/
theorem undoEach_spec (replaced : List (Str × Bool)) (hnodup : (replaced.map Prod.fst).Nodup)
    (hplain : ∀ r ∈ replaced, Plain r.1 ∧ r.2 = (old r.1).live.isSome)
    (hp : ∀ r ∈ replaced, ∀ t, p r.1 t → Swapped (old r.1) (new r.1) t)
    (hc : ∀ s, Each (fun y t => p y t ∨ y ∈ replaced.map Prod.fst ∧ Safe (old y) (new y) t) s → C s) :
    Spec (Each p) C (undoEach replaced) fun errors =>
      Each fun y t => if y ∈ replaced.map Prod.fst then Undone (old y) (new y) errors t else p y t := by
  induction replaced generalizing p with
  | nil => exact .pure fun s hs => hs
  | cons r rest ih =>
    obtain ⟨x, had⟩ := r
    obtain ⟨hx, hhad⟩ := hplain _ (.head _)
    obtain ⟨hxr, hrest⟩ := nodup_cons.mp hnodup
    dsimp only at hx hhad hxr
    subst hhad
    refine (undoOne_spec hx (hp _ (.head _)) fun s hs => hc s (hs.of_update (fun t ht => .inr ⟨.head _, ht⟩)
      fun _ _ _ ht => .inl ht)).bind fun errors => ?_
    have hother {y : Str} (hy : y ∈ rest.map Prod.fst) : y ≠ x := fun he => hxr (he ▸ hy)
    refine (ih hrest (fun r hr => hplain r (.tail _ hr)) (fun r hr t ht => ?_) fun s hs => hc s ?_).bind fun more =>
      .pure fun s hs => hs.imp fun y t _ ht => ?_
    · rw [Function.update_of_ne (hother (mem_map_of_mem hr))] at ht
      exact hp r (.tail _ hr) t ht
    · refine hs.imp fun y t _ ht => ?_
      rcases ht with ht | ⟨hy, ht⟩
      · by_cases hyx : y = x
        · subst hyx
          rw [Function.update_self] at ht
          exact .inr ⟨.head _, ht.safe⟩
        · rw [Function.update_of_ne hyx] at ht
          exact .inl ht
      · exact .inr ⟨.tail _ hy, ht⟩
    · rw [map_cons]
      by_cases hy : y ∈ rest.map Prod.fst
      · rw [if_pos hy] at ht
        rw [if_pos (mem_cons_of_mem _ hy)]
        simpa using ht.append errors []
      · rw [if_neg hy] at ht
        by_cases hyx : y = x
        · subst hyx
          rw [Function.update_self] at ht
          rw [if_pos (mem_cons_self ..)]
          exact ht.append [] more
        · rw [Function.update_of_ne hyx] at ht
          rwa [if_neg (by simp [hyx, hy])]

/-- The staged copy of a file is gone, or removing it failed. -/
def Discarded (y : Str) (s : Install α) : Prop :=
  (slotOf s.files y).incoming = none ∨ (.remove (incoming y), false) ∈ s.log

theorem discardIncoming_spec {names : List Str} (hplain : ∀ x ∈ names, Plain x)
    (hp : ∀ x ∈ names, ∀ t : Slot α, p x t → p x { t with incoming := none }) (hc : ∀ s, Each p s → C s) :
    Spec (Each p) C (discardIncoming names) fun _ s => Each p s ∧ ∀ y ∈ names, Discarded y s := by
  refine (Spec.forM (I := fun rest s => Each p s ∧ ∀ y ∈ names, y ∈ rest ∨ Discarded y s) fun x hx rest => ?_).imp
    (fun s hs => ⟨hs, fun y hy => .inl hy⟩) (fun _ => id)
    fun _ s hs => ⟨hs.1, fun y hy => (hs.2 y hy).resolve_left not_mem_nil⟩
  refine Spec.bind (fallible_spec (Q := fun _ s => Each p s ∧ ∀ y ∈ names, y ∈ rest ∨ Discarded y s)
    (fun outcome s hs => ?_) fun _ s hs => hc s hs.1) fun _ => .pure fun s hs => hs
  have hlog (op : Operation × Bool) (hop : op ∈ s.log) (more : List (Operation × Bool)) : op ∈ s.log ++ more :=
    mem_append_left _ hop
  obtain heq | ⟨hok, -, heffect, honly⟩ := acts_remove (hplain x hx) outcome s.files
  · simp only [heq]
    refine ⟨hs.1, fun y hy => ?_⟩
    rcases hs.2 y hy with hmem | hdone | hfailed
    · rcases mem_cons.mp hmem with rfl | hmem
      · exact .inr (.inr (mem_append_right _ (.head _)))
      · exact .inl hmem
    · exact .inr (.inl hdone)
    · exact .inr (.inr (hlog _ hfailed _))
  · refine ⟨fun y hy => ?_, fun y hy => ?_⟩
    · by_cases hyx : y = x
      · subst hyx
        dsimp only
        rw [heffect]
        exact hp y hx _ (hs.1 y hy)
      · dsimp only
        rw [honly.slotOf (hplain x hx) hy hyx]
        exact hs.1 y hy
    · by_cases hyx : y = x
      · subst hyx
        refine .inr (.inl ?_)
        dsimp only
        rw [heffect]
      · rw [Discarded]
        dsimp only
        rw [honly.slotOf (hplain x hx) (hplain y hy) hyx]
        rcases hs.2 y hy with hmem | hdone | hfailed
        · exact .inl ((mem_cons.mp hmem).resolve_left hyx)
        · exact .inr (.inl hdone)
        · exact .inr (.inr (hlog _ hfailed _))

variable (names : List Str)

/-- The files named are as `r` says, and all others as they were. -/
def Among (r : Str → Slot α → Prop) (y : Str) (t : Slot α) : Prop := if y ∈ names then r y t else t = old y

/-- What an attempt leaves wherever it is stopped. -/
structure Stopped (s : Install α) : Prop where
  safe : Each (Among old names fun y => Safe (old y) (new y)) s
  /-- Something is staged, or all files are replaced, or none is. -/
  recoverable : (∃ x, (slotOf s.files x).incoming.isSome = true) ∨
    (∀ y ∈ names, (slotOf s.files y).live = new y) ∨ ∀ y ∈ names, (slotOf s.files y).live = (old y).live

def ReplaceFilesError.rollbackErrors : ReplaceFilesError → List RollbackError
  | .copy _ => []
  | .replace _ errors => errors

/-- What an attempt leaves when it answers. -/
def Finished : Except ReplaceFilesError Unit → Install α → Prop
  | .ok _, s => Each (Among old names fun y => Swapped (old y) (new y)) s
  | .error error, s => Each (Among old names fun y => Undone (old y) (new y) error.rollbackErrors) s ∧
      (error.rollbackErrors = [] → ∀ y ∈ names, Discarded y s) ∧
      (error.rollbackErrors ≠ [] → ∃ x, (slotOf s.files x).incoming.isSome = true)

variable {old new names}

variable {y : Str} {t : Slot α} {r : Str → Slot α → Prop} {replaced : List (Str × Bool)}

theorem Among.imp {r r' : Str → Slot α → Prop} (h : Among old names r y t)
    (hr : y ∈ names → r y t → r' y t) : Among old names r' y t := by
  rw [Among] at h ⊢
  split
  · rename_i hy
    rw [if_pos hy] at h
    exact hr hy h
  · rename_i hy
    rwa [if_neg hy] at h

theorem Among.get (h : Among old names r y t) (hy : y ∈ names) : r y t := by
  rwa [Among, if_pos hy] at h

theorem Among.of_mem (hy : y ∈ names) (h : r y t) : Among old names r y t := by
  rwa [Among, if_pos hy]

theorem Finished.stopped (hplain : ∀ x ∈ names, Plain x) {r : Except ReplaceFilesError Unit} {s : Install α}
    (h : Finished old new names r s) : Stopped old new names s := by
  cases r with
  | ok _ =>
    refine ⟨h.imp fun _ _ _ ht => ht.imp fun _ ht => ht.safe, .inr (.inl fun y hy => ?_)⟩
    exact ((h y (hplain y hy)).get hy).live
  | error error =>
    obtain ⟨hundone, -, hstaged⟩ := h
    refine ⟨hundone.imp fun _ _ _ ht => ht.imp fun _ ht => ht.safe, ?_⟩
    by_cases hnil : error.rollbackErrors = []
    · exact .inr (.inr fun y hy => (((hundone y (hplain y hy)).get hy).restored hnil).live)
    · exact .inl (hstaged hnil)

/-- Until something is moved, the files are where they were. -/
structure Still (old : Slot α) (s : Slot α) : Prop where
  live : s.live = old.live
  previous : s.previous = old.previous

theorem Still.restored {old s : Slot α} (h : Still old s) : Restored old s := ⟨h.live, .inl h.previous⟩

theorem stopped_of_restored (hplain : ∀ x ∈ names, Plain x) {s : Install α}
    (h : Each (Among old names fun y => Restored (old y)) s) : Stopped old new names s :=
  ⟨h.imp fun _ _ _ ht => ht.imp fun _ ht => ht.safe, .inr (.inr fun y hy => ((h y (hplain y hy)).get hy).live)⟩

theorem restored_discardIncoming (hplain : ∀ x ∈ names, Plain x) :
    Spec (Each (Among old names fun y => Restored (old y))) (Stopped old new names) (discardIncoming names) fun _ s =>
      Each (Among old names fun y => Restored (old y)) s ∧ ∀ y ∈ names, Discarded y s :=
  discardIncoming_spec hplain (fun _ hx _ ht => .of_mem hx ⟨(ht.get hx).live, (ht.get hx).previous⟩)
    fun _ hs => stopped_of_restored hplain hs

/-- A file is staged, or its copy is still to come. -/
structure Copied (old : Slot α) (new : Option (Entry α)) (later : Prop) (s : Slot α) : Prop extends Still old s where
  staged : ¬ later → Staged old new s

theorem copyIn_spec {package : Directory α} (hplain : ∀ x ∈ names, Plain x) (rest : List Str) (hrest : rest ⊆ names) :
    Spec (Each (Among old names fun y => Copied (old y) (package.lookup y) (y ∈ rest)))
      (Stopped old package.lookup names) (copyIn package names rest) fun r s =>
        match r with
        | .ok _ => Each (Among old names fun y => Staged (old y) (package.lookup y)) s
        | .error error => Finished old package.lookup names (.error error) s := by
  have hstill {later : Str → Prop} {s : Install α}
      (h : Each (Among old names fun y => Copied (old y) (package.lookup y) (later y)) s) :
      Each (Among old names fun y => Restored (old y)) s :=
    h.imp fun _ _ _ ht => ht.imp fun _ ht => ht.toStill.restored
  induction rest with
  | nil => exact .pure fun s hs => hs.imp fun _ _ _ ht => ht.imp fun _ ht => ht.staged not_mem_nil
  | cons x rest ih =>
    obtain ⟨hx, hrest⟩ := cons_subset.mp hrest
    refine Spec.ite (fallible_spec (Q := fun ok => Each (Among old names fun y =>
      Copied (old y) (package.lookup y) (y ∈ bif ok then rest else x :: rest))) (fun outcome s hs => ?_)
      fun _ s hs => stopped_of_restored hplain (hstill hs)) (ih hrest) ?_
    · obtain ⟨honly, hlive, hprevious, hok⟩ := copy_cases (hplain x hx) (package.lookup x) outcome s.files
      intro y hy
      by_cases hyx : y = x
      · subst hyx
        have hcopied := (hs y hy).get hx
        refine .of_mem hx ⟨⟨hlive.trans hcopied.live, hprevious.trans hcopied.previous⟩, fun hlater => ?_⟩
        cases ho : (Directory.copy (package.lookup y) (incoming y) outcome s.files).1 with
        | true =>
          obtain ⟨hsome, hincoming⟩ := hok ho
          exact ⟨hlive.trans hcopied.live, hprevious.trans hcopied.previous, hincoming, hsome⟩
        | false =>
          rw [ho] at hlater
          exact absurd (mem_cons_self ..) hlater
      · dsimp only
        rw [honly.slotOf (hplain x hx) hy hyx]
        refine (hs y hy).imp fun _ ht => ⟨ht.toStill, fun hlater => ht.staged fun hmem => hlater ?_⟩
        cases (Directory.copy (package.lookup x) (incoming x) outcome s.files).1 with
        | true => exact (mem_cons.mp hmem).resolve_left hyx
        | false => exact hmem
    · refine ((restored_discardIncoming hplain).pre fun s hs => hstill hs).bind fun _ => .pure fun s hs => ?_
      exact ⟨hs.1.imp fun _ _ _ ht => ht.imp fun _ ht => ht.undone _, fun _ => hs.2, fun hne => absurd rfl hne⟩

/-- In the middle of `swap`. -/
def During (old : Str → Slot α) (new : Str → Option (Entry α)) (names : List Str) (replaced : List (Str × Bool))
    (y : Str) (t : Slot α) : Prop :=
  Among old names (fun y t => if y ∈ replaced.map Prod.fst then Swapped (old y) (new y) t else Staged (old y) (new y) t) y t

theorem During.safe (h : During old new names replaced y t) :
    Among old names (fun y => Safe (old y) (new y)) y t := by
  refine Among.imp h fun _ ht => ?_
  split at ht
  · exact ht.safe
  · exact ht.restored.safe

/-- The files that `swap` has replaced. -/
structure Replaced (old : Str → Slot α) (names : List Str) (replaced : List (Str × Bool)) (rest : List Str) : Prop where
  split : names = replaced.map Prod.fst ++ rest
  nodup : names.Nodup
  plain : ∀ x ∈ names, Plain x
  had : ∀ r ∈ replaced, r.2 = (old r.1).live.isSome

theorem Replaced.push {x : Str} {rest : List Str} (h : Replaced old names replaced (x :: rest)) :
    Replaced old names (replaced ++ [(x, (old x).live.isSome)]) rest := by
  refine ⟨by rw [h.split]; simp, h.nodup, h.plain, fun r hr => ?_⟩
  rcases mem_append.mp hr with hr | hr
  · exact h.had r hr
  · rw [mem_singleton.mp hr]

theorem rollBack_spec {x : Str} {rest : List Str}
    (h : Replaced old names replaced (x :: rest)) (errors : List RollbackError) :
    Spec (Each (Function.update (During old new names replaced) x (Failed (old x) (new x) errors)))
      (Stopped old new names) (rollBack names replaced x errors) fun r => Finished old new names r := by
  have hx : x ∈ names := by simp [h.split]
  have hnodup : (replaced.map Prod.fst).Nodup := (nodup_append.mp (h.split ▸ h.nodup)).1
  have hxr : x ∉ replaced.map Prod.fst := fun hm =>
    (nodup_append.mp (h.split ▸ h.nodup)).2.2 x hm x (.head _) rfl
  have hmem {y : Str} (hy : y ∈ replaced.map Prod.fst) : y ∈ names := by
    rw [h.split]
    exact mem_append_left _ hy
  have hrev {y : Str} : y ∈ replaced.reverse.map Prod.fst ↔ y ∈ replaced.map Prod.fst := by simp
  refine Spec.bind (undoEach_spec old new replaced.reverse ?_ (fun r hr => ?_) (fun r hr t ht => ?_) fun s hs => ?_)
    fun more => ?_
  · rw [map_reverse]
    exact nodup_reverse.mpr hnodup
  · have hr := mem_reverse.mp hr
    exact ⟨h.plain _ (hmem (mem_map_of_mem hr)), h.had r hr⟩
  · have hr : r.1 ∈ replaced.map Prod.fst := mem_map_of_mem (mem_reverse.mp hr)
    have hne : r.1 ≠ x := fun he => hxr (he ▸ hr)
    rw [Function.update_of_ne hne] at ht
    have := ht.get (hmem hr)
    rwa [if_pos hr] at this
  -- The file that failed keeps its staged copy until all others are undone.
  · refine ⟨hs.imp fun y t _ ht => ?_, .inl ⟨x, ?_⟩⟩
    · rcases ht with ht | ⟨hy, ht⟩
      · by_cases hyx : y = x
        · subst hyx
          rw [Function.update_self] at ht
          exact .of_mem hx ht.safe
        · rw [Function.update_of_ne hyx] at ht
          exact ht.safe
      · exact .of_mem (hmem (hrev.mp hy)) ht
    · have ht := (hs x (h.plain x hx)).resolve_right fun hy => hxr (hrev.mp hy.1)
      rw [Function.update_self] at ht
      exact ht.incoming
  · have hundone (s : Install α) (hs : Each (fun y t => if y ∈ replaced.reverse.map Prod.fst then
        Undone (old y) (new y) more t else Function.update (During old new names replaced) x
          (Failed (old x) (new x) errors) y t) s) :
        Each (Among old names fun y => Undone (old y) (new y) (errors ++ more)) s := by
      refine hs.imp fun y t _ ht => ?_
      by_cases hy : y ∈ replaced.map Prod.fst
      · rw [if_pos (hrev.mpr hy)] at ht
        refine .of_mem (hmem hy) ?_
        simpa using ht.append errors []
      · rw [if_neg fun hm => hy (hrev.mp hm)] at ht
        by_cases hyx : y = x
        · subst hyx
          rw [Function.update_self] at ht
          exact .of_mem hx (ht.toUndone.append [] more)
        · rw [Function.update_of_ne hyx] at ht
          refine Among.imp ht fun _ ht => ?_
          rw [if_neg hy] at ht
          exact ht.restored.undone _
    split
    · rename_i hnone
      have hnil : errors ++ more = [] := List.isEmpty_iff.mp hnone
      refine ((restored_discardIncoming h.plain).pre fun s hs => ?_).bind fun _ => .pure fun s hs => ?_
      · exact (hundone s hs).imp fun _ _ _ ht => ht.imp fun _ ht => ht.restored hnil
      · exact ⟨hs.1.imp fun _ _ _ ht => ht.imp fun _ ht => ht.undone _, fun _ => hs.2, fun hne => absurd rfl hne⟩
    · rename_i hsome
      refine .pure fun s hs => ⟨hundone s hs, fun hnil => absurd (List.isEmpty_iff.mpr hnil) hsome, fun _ => ⟨x, ?_⟩⟩
      have ht := hs x (h.plain x hx)
      simp only [if_neg fun hm => hxr (hrev.mp hm), Function.update_self] at ht
      exact ht.incoming

theorem swap_spec (rest : List Str) (h : Replaced old names replaced rest) :
    Spec (Each (During old new names replaced)) (Stopped old new names) (swap names replaced rest) fun r =>
      Finished old new names r := by
  induction rest generalizing replaced with
  | nil =>
    refine .pure fun s hs => hs.imp fun y t _ ht => Among.imp ht fun hy ht => ?_
    rwa [if_pos (by simpa [h.split] using hy)] at ht
  | cons x rest ih =>
    have hx : x ∈ names := by simp [h.split]
    have hxr : x ∉ replaced.map Prod.fst := fun hm =>
      (nodup_append.mp (h.split ▸ h.nodup)).2.2 x hm x (.head _) rfl
    have hpush {s : Install α} (hs : Each (Function.update (During old new names replaced) x
        (Swapped (old x) (new x))) s) : Each (During old new names (replaced ++ [(x, (old x).live.isSome)])) s := by
      refine hs.of_update (fun t ht => .of_mem hx ?_) fun y t hyx ht => Among.imp ht fun _ ht => ?_
      · rwa [if_pos (by simp)]
      · by_cases hy : y ∈ replaced.map Prod.fst
        · rw [if_pos hy] at ht
          rwa [if_pos (by simp only [map_append, mem_append]; exact .inl hy)]
        · rw [if_neg hy] at ht
          rwa [if_neg (by simpa [hyx] using hy)]
    refine Spec.bind (Q := Tried (During old new names replaced) x (old x) (new x))
      (replace_spec (h.plain x hx) (fun t ht => ?_) (fun s hs => ?_) fun s hs => ?_) fun r => ?_
    · have := ht.get hx
      rwa [if_neg hxr] at this
    · refine ⟨hs.of_update (fun t ht => .of_mem hx ht.1) fun y t _ ht => ht.safe, .inl ⟨x, ?_⟩⟩
      have ht := hs x (h.plain x hx)
      rw [Function.update_self] at ht
      exact ht.2
    -- The next file is staged, or this was the last one.
    · refine ⟨hs.of_update (fun t ht => .of_mem hx ht.safe) fun y t _ ht => ht.safe, ?_⟩
      cases rest with
      | nil =>
        refine .inr (.inl fun y hy => ?_)
        have ht := (hpush hs y (h.plain y hy)).get hy
        rw [if_pos (by simpa [h.split] using hy)] at ht
        exact ht.live
      | cons next rest =>
        refine .inl ⟨next, ?_⟩
        have hn : next ∈ names := by simp [h.split]
        have hnr : next ∉ (replaced ++ [(x, (old x).live.isSome)]).map Prod.fst := fun hm =>
          (nodup_append.mp (h.push.split ▸ h.push.nodup)).2.2 next hm next (.head _) rfl
        have ht := (hpush hs next (h.plain next hn)).get hn
        rw [if_neg hnr] at ht
        rw [ht.incoming]
        exact ht.isSome
    · cases r with
      | ok had =>
        refine Spec.fact fun hhad => ?_
        subst hhad
        exact (ih h.push).pre fun s hs => hpush hs
      | error errors => exact rollBack_spec h errors

/-- **One attempt**, whatever the directory holds and however its operations go. -/
theorem replaceFiles_spec {package : Directory α} (hnodup : names.Nodup) (hplain : ∀ x ∈ names, Plain x)
    (d : Directory α) :
    Spec (fun s => s.files = d) (Stopped (slotOf d) package.lookup names) (replaceFiles package names) fun r =>
      Finished (slotOf d) package.lookup names r := by
  refine ((copyIn_spec hplain names (List.Subset.refl _)).pre fun s hs y _ => ?_).bind fun r => ?_
  · subst hs
    rw [Among]
    split
    · rename_i hy
      exact ⟨⟨rfl, rfl⟩, fun hlater => absurd hy hlater⟩
    · rfl
  · cases r with
    | ok u =>
      have hnone : Replaced (slotOf d) names [] names := ⟨rfl, hnodup, hplain, fun r hr => absurd hr not_mem_nil⟩
      refine (swap_spec names hnone).pre fun s hs => ?_
      exact hs.imp fun _ _ _ ht => ht.imp fun _ ht => by
        rwa [if_neg (by simp)]
    | error error => exact .pure fun s hs => hs

end

end NiumaTerm.SelfUpdate
