import NiumaTerm.Updater.Replacement

/-!
# Updating in place

`updates` is the system of attempts to install a release and of starts of the application, each of which may
be stopped between any two of its file operations.  An attempt that is stopped in the middle of the swap
leaves files of both releases; what is kept is a copy of each file.
-/

namespace NiumaTerm.SelfUpdate

open Rust Crash Transition List

variable {α : Type}

/-! ## What a start does -/

/-- Only set-aside copies of files that are there are removed, and none as long as something is staged. -/
def Cleaned (d d' : Directory α) : Prop :=
  ∀ name, d'.lookup name = d.lookup name ∨
    d'.lookup name = none ∧ (∀ x, d.lookup (incoming x) = none) ∧
      ∃ original, name = previous original ∧ (d.lookup original).any Entry.isFile = true

theorem Cleaned.refl (d : Directory α) : Cleaned d d := fun _ => .inl rfl

/-- Nothing that was there has changed. -/
def Added (d d' : Directory α) : Prop := ∀ name, (d.lookup name).isSome = true → d'.lookup name = d.lookup name

theorem Added.refl (d : Directory α) : Added d d := fun _ _ => rfl

def Settled (d d' : Directory α) : Prop := ∃ mid, Added d mid ∧ Cleaned mid d'

theorem discardPreviousOf_spec {d : Directory α} (hstaged : ∀ x, d.lookup (incoming x) = none) (entry : Str) :
    Spec (fun s => Cleaned d s.files) (fun s => Cleaned d s.files) (discardPreviousOf entry) fun _ s =>
      Cleaned d s.files := by
  unfold discardPreviousOf
  split
  · exact .pure fun _ hs => hs
  · rename_i original horiginal
    obtain ⟨suffix, hentry, hsuffix⟩ := dropSuffix?_eq_some_iff.mp horiginal
    have hname : entry = previous original := by rw [hentry, eq_of_beq hsuffix, previous]
    refine Spec.ite (Q := fun ok s => (ok = true → (d.lookup original).any Entry.isFile = true) ∧ Cleaned d s.files)
      (.observe fun s hs => ⟨fun hfile => ?_, hs⟩) (.fact fun hfile => ?_) (.pure fun _ hs => hs.2)
    · obtain heq | ⟨hnone, -⟩ := hs original
      · rwa [heq] at hfile
      · rw [hnone] at hfile
        cases hfile
    · refine Spec.bind (fallible_spec (Q := fun _ s => Cleaned d s.files) (fun outcome s hs name => ?_) fun _ _ => id)
        fun _ => .pure fun _ hs => hs
      dsimp only [Directory.remove]
      split
      · by_cases hn : name = entry
        · subst hn
          exact .inr ⟨AList.lookup_erase _ _, hstaged, original, hname, hfile rfl⟩
        · rw [AList.lookup_erase_ne hn]
          exact hs name
      · exact hs name

theorem discardPrevious_spec (d : Directory α) :
    Spec (fun s => s.files = d) (fun s => Cleaned d s.files) discardPrevious fun _ s => Cleaned d s.files := by
  have hread : Spec (fun s : Install α => s.files = d) (fun s => Cleaned d s.files) readDir fun r s =>
      (∀ entries, r = some entries → entries = d.keys) ∧ s.files = d := by
    refine Spec.ite (fallible_spec (Q := fun _ (s : Install α) => s.files = d) (fun _ s hs => hs)
      fun _ s hs => hs ▸ .refl _) ?_ ?_
    · refine Spec.bind (.observe (Q := fun names s => names = d.keys ∧ s.files = d)
        fun s hs => ⟨congrArg AList.keys hs, hs⟩) fun names => .pure fun s hs => ⟨fun entries he => ?_, hs.2⟩
      cases he
      exact hs.1
    · exact .pure fun s hs => ⟨fun entries he => (nomatch he), hs⟩
  refine hread.bind fun r => .fact fun hentries => ?_
  cases r with
  | none => exact .pure fun s hs => hs ▸ .refl _
  | some entries =>
    have hkeys := hentries entries rfl
    subst hkeys
    dsimp only
    split
    · exact .pure fun s hs => hs ▸ .refl _
    · rename_i hany
      have hstaged (x : Str) : d.lookup (incoming x) = none := by
        rw [AList.lookup_eq_none]
        intro hmem
        refine hany (any_eq_true.mpr ⟨incoming x, hmem, ?_⟩)
        exact isSuffixOf_iff_suffix.mpr ⟨x, rfl⟩
      refine (Spec.forM (I := fun _ (s : Install α) => Cleaned d s.files) fun entry _ _ => discardPreviousOf_spec hstaged entry).pre
        fun s hs => ?_
      exact hs ▸ .refl _

theorem copy_lookup_of_ne {content : Option (Entry α)} {target name : Str} {outcome : Option (Outcome α)}
    {d : Directory α} (hne : name ≠ target) :
    (Directory.copy content target outcome d).2.lookup name = d.lookup name := by
  rcases content with _ | content | _
  · rfl
  · by_cases hfree : (d.lookup target).all Entry.isFile = true
    · simp only [Directory.copy, hfree, if_true]
      rcases outcome with _ | _ | _ | _ | left
      · exact AList.lookup_insert_ne hne
      · exact AList.lookup_insert_ne hne
      · rfl
      · exact AList.lookup_erase_ne hne
      · exact AList.lookup_insert_ne hne
    · simp only [Directory.copy, hfree]
      rfl
  · rfl

variable (versionString : Entry α → Str → Option Str)

theorem installAdditions_spec (d package : Directory α) :
    Spec (fun s => Added d s.files) (fun s => Added d s.files) (installAdditions versionString package) fun _ s =>
      Added d s.files := by
  refine Spec.ite (Q := fun _ (s : Install α) => Added d s.files) (.observe fun _ hs => hs) ?_ (.pure fun _ hs => hs)
  refine Spec.forM (I := fun _ (s : Install α) => Added d s.files) fun name _ _ => ?_
  refine Spec.ite (Q := fun there s => Added d s.files ∧ (s.files.lookup name).isSome = there)
    (.observe fun s hs => ⟨hs, rfl⟩) (.pure fun _ hs => hs.1) ?_
  refine Spec.bind (fallible_spec (Q := fun _ s => Added d s.files) (fun outcome s hs other ho => ?_) fun _ _ => id)
    fun _ => .pure fun _ hs => hs
  have hne : other ≠ name := by
    rintro rfl
    rw [← hs.1 other ho, hs.2] at ho
    cases ho
  rw [← hs.1 other ho]
  exact copy_lookup_of_ne hne

theorem settlePreviousUpdate_spec (d : Directory α) (packages : List (Directory α)) :
    Spec (fun s => s.files = d) (fun s => Settled d s.files) (settlePreviousUpdate versionString packages) fun _ s =>
      Settled d s.files := by
  refine Spec.bind (Q := fun _ s => Added d s.files) ?_ fun _ => .each fun s hs => ?_
  · refine (Spec.forM (I := fun _ (s : Install α) => Added d s.files) fun package _ _ =>
      installAdditions_spec versionString d package).imp (fun s hs => hs ▸ .refl _)
      (fun s hs => ⟨s.files, hs, .refl _⟩) fun _ _ hs => hs
  · exact (discardPrevious_spec s.files).imp (fun _ hs' => hs' ▸ rfl) (fun _ hs' => ⟨_, hs, hs'⟩)
      fun _ _ hs' => ⟨_, hs, hs'⟩

section

variable {d d' : Directory α} (h : Settled d d')
include h

theorem Settled.live {y : Str} (hy : Plain y) (hsome : (d.lookup y).isSome = true) : d'.lookup y = d.lookup y := by
  obtain ⟨mid, hadded, hcleaned⟩ := h
  obtain heq | ⟨-, -, original, hname, -⟩ := hcleaned y
  · rw [heq, hadded y hsome]
  · exact absurd hname (hy.previous original)

/-- As long as something is staged, a start changes nothing that is there. -/
theorem Settled.staged {x : Str} (hx : (d.lookup (incoming x)).isSome = true) : Added d d' := by
  intro name hsome
  obtain ⟨mid, hadded, hcleaned⟩ := h
  obtain heq | ⟨-, hnone, -⟩ := hcleaned name
  · rw [heq, hadded name hsome]
  · rw [← hadded _ hx, hnone x] at hx
    cases hx

end

/-! ## Files that are kept -/

/-- There is a file under its own name or set aside. -/
def Held (s : Slot α) : Prop := ∃ content, s.live = some (.file content) ∨ s.previous = some (.file content)

theorem Safe.held {old s : Slot α} {new : Option (Entry α)} (h : Safe old new s) (ho : Held old) : Held s := by
  by_cases hfile : ∃ content, old.live = some (.file content)
  · obtain ⟨content, hc⟩ := hfile
    exact ⟨content, h.kept content hc⟩
  · have hno : ∀ content, old.live ≠ some (.file content) := fun content hc => hfile ⟨content, hc⟩
    obtain ⟨content, hl | hp⟩ := ho
    · exact absurd hl (hno content)
    · exact ⟨content, .inr (h.aside hno content hp)⟩

theorem Settled.held {d d' : Directory α} (h : Settled d d') {y : Str} (hy : Plain y) (hd : Held (slotOf d y)) :
    Held (slotOf d' y) := by
  have hlive {content : α} (hl : d.lookup y = some (.file content)) : d'.lookup y = some (.file content) := by
    rw [h.live hy (by rw [hl]; rfl), hl]
  obtain ⟨content, hl | hp⟩ := hd
  · exact ⟨content, .inl (hlive hl)⟩
  · obtain ⟨mid, hadded, hcleaned⟩ := h
    have hmid : mid.lookup (previous y) = some (.file content) := by
      rw [hadded _ (by rw [show d.lookup (previous y) = _ from hp]; rfl)]
      exact hp
    obtain heq | ⟨-, -, original, hname, hfile⟩ := hcleaned (previous y)
    · exact ⟨content, .inr (by rw [← hmid]; exact heq)⟩
    · cases previous_injective hname
      obtain ⟨entry, he, hentry⟩ := (Option.any_eq_true _ _).mp hfile
      cases entry with
      | directory => cases hentry
      | file live =>
        obtain heq | ⟨-, -, original, hname, -⟩ := hcleaned y
        · exact ⟨live, .inl (by rw [← he]; exact heq)⟩
        · exact absurd hname (hy.previous original)

/-! ## Attempts and starts -/

/-- What can be found in the directory after a run of `x`. -/
def Found {β : Type} (x : Updating α β) (d d' : Directory α) : Prop := ∃ s, Leaves x ⟨d, []⟩ s ∧ s.files = d'

def PlainNames (names : List Str) : Prop := names.Nodup ∧ ∀ name ∈ names, Plain name

inductive Call (α : Type)
  | attempt (package : Directory α) (names : List Str)
  | start (packages : List (Directory α))

def updates : System (Directory α) (Call α) where
  init _ := True
  step d call d' :=
    match call with
    | .attempt package names => PlainNames names ∧ Found (applyPlan package names) d d'
    | .start packages => Found (settlePreviousUpdate versionString packages) d d'

def starts : System (Directory α) (List (Directory α)) where
  init _ := True
  step d packages d' := Found (settlePreviousUpdate versionString packages) d d'

theorem settled_of_found {packages : List (Directory α)} {d d' : Directory α}
    (h : Found (settlePreviousUpdate versionString packages) d d') : Settled d d' := by
  obtain ⟨s, hs, rfl⟩ := h
  exact (settlePreviousUpdate_spec versionString d packages).leaves (fun s hs => ⟨d, .refl _, hs ▸ .refl _⟩)
    (fun _ _ hs => hs) rfl hs

theorem Stopped.safeOf {d package : Directory α} {names : List Str} {s : Install α}
    (h : Stopped (slotOf d) package.lookup names s) {y : Str} (hy : Plain y) :
    Safe (slotOf d y) (package.lookup y) (slotOf s.files y) := by
  have hs := h.safe y hy
  by_cases hm : y ∈ names
  · exact hs.get hm
  · rw [Among, if_neg hm] at hs
    rw [hs]
    exact Restored.safe ⟨rfl, .inl rfl⟩

/-- Nothing has happened yet. -/
theorem stopped_refl {d package : Directory α} {names : List Str} {s : Install α} (hs : s.files = d) :
    Stopped (slotOf d) package.lookup names s := by
  subst hs
  refine ⟨fun y _ => ?_, .inr (.inr fun _ _ => rfl)⟩
  rw [Among]
  split
  · exact Restored.safe ⟨rfl, .inl rfl⟩
  · rfl

/-- An attempt, ended or stopped, keeps what is held. -/
theorem held_of_found {package : Directory α} {names : List Str} (hn : PlainNames names) {d d' : Directory α}
    (h : Found (applyPlan package names) d d') {y : Str} (hy : Plain y) (hd : Held (slotOf d y)) :
    Held (slotOf d' y) := by
  have hspec : Spec (fun s => s.files = d) (fun s => Held (slotOf s.files y)) (applyPlan package names) fun _ s =>
      Held (slotOf s.files y) := by
    refine Spec.bind (Q := fun _ s => Held (slotOf s.files y)) ((replaceFiles_spec hn.1 hn.2 d).imp (fun _ => id)
      (fun s hs => (hs.safeOf hy).held hd) fun _ s hs => ((hs.stopped hn.2).safeOf hy).held hd) fun r => ?_
    split
    · refine Spec.bind (Q := fun _ s => Held (slotOf s.files y)) (.each fun s hs => ?_) fun _ => .pure fun _ hs => hs
      refine (discardPrevious_spec s.files).imp (fun _ hs' => hs' ▸ rfl) (fun s' hs' => ?_) fun _ s' hs' => ?_
      · exact Settled.held ⟨_, .refl _, hs'⟩ hy hs
      · exact Settled.held ⟨_, .refl _, hs'⟩ hy hs
    · exact .pure fun _ hs => hs
    · exact .pure fun _ hs => hs
  obtain ⟨s, hs, rfl⟩ := h
  exact hspec.leaves (fun s hs => hs ▸ hd) (fun _ _ hs => hs) rfl hs

/-! ## In place -/

/-- What an attempt on `d` has done when it answers. -/
structure Answered (d package : Directory α) (names : List Str) (answer : Except ReplaceFilesError Unit)
    (s : Install α) : Prop where
  ok : answer = .ok () → ∀ y ∈ names, (slotOf s.files y).live = package.lookup y
  error : ∀ error, answer = .error error → error.rollbackErrors = [] → ∀ y ∈ names,
    (slotOf s.files y).live = (slotOf d y).live ∧
    ((slotOf s.files y).previous = (slotOf d y).previous ∨ (slotOf s.files y).previous = none) ∧ Discarded y s
  others : ∀ y, Plain y → y ∉ names → slotOf s.files y = slotOf d y

/-- All files named are those of the package, or each file that was there still is, perhaps set aside. -/
def Recoverable (d package : Directory α) (names : List Str) (d' d'' : Directory α) : Prop :=
  (∀ y ∈ names, (slotOf d' y).live = package.lookup y) ∨
    ∀ y content, Plain y → (slotOf d y).live = some (.file content) →
      (slotOf d'' y).live = some (.file content) ∨ (slotOf d'' y).previous = some (.file content)

structure InPlace (d package : Directory α) (names : List Str) : Prop where
  answered : ∀ outcomes, Answered d package names (replaceFiles package names ⟨⟨d, []⟩, [], outcomes⟩).1
    (replaceFiles package names ⟨⟨d, []⟩, [], outcomes⟩).2.now
  stopped : ∀ d', Found (replaceFiles package names) d d' → ∀ y, Plain y →
    Safe (slotOf d y) (package.lookup y) (slotOf d' y)
  started : ∀ d', Found (replaceFiles package names) d d' → ∀ settled d'', Steps (starts versionString) d' settled d'' →
    Recoverable d package names d' d''
  settled : ∀ packages d', Found (settlePreviousUpdate versionString packages) d d' → Settled d d'
  held : ∀ calls d', Steps (updates versionString) d calls d' → ∀ y, Plain y → Held (slotOf d y) → Held (slotOf d' y)

section

variable {d package : Directory α} {names : List Str}

theorem Finished.answered (hn : PlainNames names) {answer : Except ReplaceFilesError Unit} {s : Install α}
    (h : Finished (slotOf d) package.lookup names answer s) : Answered d package names answer s := by
  refine ⟨fun hok y hy => ?_, fun error he hnil y hy => ?_, fun y hy hm => ?_⟩
  · subst hok
    exact ((h y (hn.2 y hy)).get hy).live
  · subst he
    have hrestored := ((h.1 y (hn.2 y hy)).get hy).restored hnil
    exact ⟨hrestored.live, hrestored.previous.imp_right And.left, h.2.1 hnil y hy⟩
  · have hs := (h.stopped hn.2).safe y hy
    rwa [Among, if_neg hm] at hs

theorem stopped_of_found (hn : PlainNames names) {d' : Directory α} (h : Found (replaceFiles package names) d d') :
    ∃ s, s.files = d' ∧ Stopped (slotOf d) package.lookup names s := by
  obtain ⟨s, hs, rfl⟩ := h
  exact ⟨s, rfl, (replaceFiles_spec hn.1 hn.2 d).leaves (fun s hs => stopped_refl hs) (fun _ _ hs => hs.stopped hn.2)
    rfl hs⟩

/-- While something is staged the starts change nothing; otherwise the files are in place, as they were or all
replaced. -/
theorem Stopped.recoverable_starts {s : Install α} (h : Stopped (slotOf d) package.lookup names s)
    {settled : List (List (Directory α))} {d'' : Directory α}
    (hsteps : Steps (starts versionString) s.files settled d'') : Recoverable d package names s.files d'' := by
  obtain ⟨x, hx⟩ | hnew | hold := h.recoverable
  · refine .inr fun y content hy hl => ?_
    have hadded : Added s.files d'' := by
      refine hsteps.stable (P := Added s.files) (fun d₁ packages d₂ h₁ hstep => ?_) (.refl _)
      have hx₁ : (d₁.lookup (incoming x)).isSome = true := by
        rw [h₁ _ hx]
        exact hx
      have h₂ := (settled_of_found versionString hstep).staged hx₁
      exact fun name hname => (h₂ name (by rwa [h₁ name hname])).trans (h₁ name hname)
    refine ((h.safeOf hy).kept content hl).imp (fun hk => ?_) fun hk => ?_
    · exact (hadded y (by rw [show s.files.lookup y = _ from hk]; rfl)).trans hk
    · exact (hadded (previous y) (by rw [show s.files.lookup (previous y) = _ from hk]; rfl)).trans hk
  · exact .inl hnew
  · refine .inr fun y content hy hl => .inl ?_
    have hlive : s.files.lookup y = some (.file content) := by
      have hs := h.safe y hy
      by_cases hm : y ∈ names
      · exact (hold y hm).trans hl
      · rw [Among, if_neg hm] at hs
        exact (congrArg Slot.live hs).trans hl
    refine hsteps.stable (P := fun d₁ => d₁.lookup y = some (.file content)) (fun d₁ packages d₂ h₁ hstep => ?_) hlive
    rw [(settled_of_found versionString hstep).live hy (by rw [h₁]; rfl), h₁]

/-- **Updating in place.** -/
theorem updated_in_place (hn : PlainNames names) : InPlace versionString d package names := by
  refine ⟨fun outcomes ↦ ?_, fun d' h y hy ↦ ?_, fun d' h settled d'' hsteps ↦ ?_,
    fun _ _ h ↦ settled_of_found versionString h, fun calls d' h y hy hd ↦ ?_⟩
  · exact ((replaceFiles_spec hn.1 hn.2 d) ⟨⟨d, []⟩, [], outcomes⟩ rfl).1.answered hn
  · obtain ⟨s, rfl, hs⟩ := stopped_of_found hn h
    exact hs.safeOf hy
  · obtain ⟨s, rfl, hs⟩ := stopped_of_found hn h
    exact hs.recoverable_starts versionString hsteps
  · refine h.stable (P := fun d' ↦ Held (slotOf d' y)) (fun d₁ call d₂ h₁ hstep ↦ ?_) hd
    cases call with
    | attempt package names => exact held_of_found hstep.1 hstep.2 hy h₁
    | start packages => exact (settled_of_found versionString hstep).held hy h₁

end

/-! ## The next plan -/

section

variable {d package : Directory α}

theorem plainNames_plan (hplain : ∀ name ∈ stagedNames package, Plain name) :
    PlainNames (plan versionString package d) := by
  have hnodup : (stagedNames package).Nodup := (mergeSort_perm ..).nodup_iff.mpr (package.keys_nodup.filter _)
  exact ⟨hnodup.filter _, fun name hm => hplain name (mem_of_mem_filter hm)⟩

theorem differs_self (version : Option Str) : differs version version = version.isNone := by
  cases version <;> simp [differs]

/-- **A plan that is carried out leaves nothing to do** but to replace again the files without a version. -/
theorem plan_of_replaced (hplain : ∀ name ∈ stagedNames package, Plain name) {w w' : World (Outcome α) (Install α)}
    (h : replaceFiles package (plan versionString package w.now.files) w = (.ok (), w')) :
    plan versionString package w'.now.files =
      (stagedNames package).filter fun name => (versionOf versionString package name (versionKey name)).isNone := by
  have hn : PlainNames (plan versionString package w.now.files) := plainNames_plan versionString hplain
  have hspec : Spec _ (Stopped _ package.lookup _) (replaceFiles package _) _ :=
    replaceFiles_spec hn.1 hn.2 w.now.files
  have hfinished := (hspec w rfl).1
  rw [h] at hfinished
  have hanswered := hfinished.answered hn
  refine filter_congr fun name hm => ?_
  by_cases hplan : name ∈ plan versionString package w.now.files
  · have hnew : w'.now.files.lookup name = package.lookup name := hanswered.ok rfl name hplan
    rw [versionOf, versionOf, hnew, differs_self]
  · have hsame := congrArg Slot.live (hanswered.others name (hplain name hm) hplan)
    have hold : versionOf versionString w'.now.files name (versionKey name) =
        versionOf versionString w.now.files name (versionKey name) :=
      congrArg (Option.bind · (versionString · (versionKey name))) hsame
    have hequal : differs (versionOf versionString package name (versionKey name))
        (versionOf versionString w.now.files name (versionKey name)) = false := by
      simpa [plan, hm] using hplan
    rw [hold, hequal]
    -- versions that do not differ can be read
    cases hversion : versionOf versionString package name (versionKey name) with
    | none => simp [hversion, differs] at hequal
    | some version => rfl

end

/-! ## Small directories -/

theorem plain_of_length_lt {name : Str} (h : name.length < 13) : Plain name := by
  constructor
  · rintro other rfl
    rw [previous, length_append, show previousSuffix.length = 13 by decide] at h
    omega
  · rintro other rfl
    rw [incoming, length_append, show incomingSuffix.length = 13 by decide] at h
    omega

def nameA : Str := ['a']

def nameB : Str := ['b']

theorem plainNames_ab : PlainNames [nameA, nameB] := by
  refine ⟨by decide, fun name hm => plain_of_length_lt ?_⟩
  have hname : name = nameA ∨ name = nameB := by simpa using hm
  obtain rfl | rfl := hname <;> decide

def filesOf (files : List (Str × ℕ)) : Directory ℕ := (files.map fun f => ⟨f.1, .file f.2⟩).toAList

def installed : Directory ℕ := filesOf [(nameA, 1), (nameB, 1)]

def released : Directory ℕ := filesOf [(nameA, 2), (nameB, 2)]

def noVersion : Entry ℕ → Str → Option Str := fun _ _ => none

/-- The second file cannot be moved in, and the first one is restored. -/
def secondFails : List (Outcome ℕ) := [.done, .done, .done, .done, .done, .failed]

theorem updated_in_place_abFails :
    (slotOf (replaceFiles released [nameA, nameB] ⟨⟨installed, []⟩, [], secondFails⟩).2.now.files nameA).live =
      some (.file 1) := by
  have hplace : InPlace noVersion installed released [nameA, nameB] := updated_in_place noVersion plainNames_ab
  have h := (hplace.answered secondFails).error (.replace nameB []) (by decide +kernel) rfl nameA (.head _)
  rw [h.1]
  decide +kernel

/-- A file's content is its version. -/
def contentVersion (entry : Entry ℕ) (_key : Str) : Option Str :=
  match entry with
  | .file content => some [Char.ofNat content]
  | .directory => none

theorem plan_of_replaced_a :
    plan contentVersion (filesOf [(nameA, 2)])
      (replaceFiles (filesOf [(nameA, 2)]) [nameA] ⟨⟨installed, []⟩, [], []⟩).2.now.files = [] := by
  have hkeys : ((filesOf [(nameA, 2)]).keys.filter fun name => ((filesOf [(nameA, 2)]).lookup name).any Entry.isFile) =
      [nameA] := by decide +kernel
  have hstaged : stagedNames (filesOf [(nameA, 2)]) = [nameA] := by rw [stagedNames, hkeys, mergeSort_singleton]
  have hplan : plan contentVersion (filesOf [(nameA, 2)]) installed = [nameA] := by
    rw [plan, hstaged]
    decide +kernel
  have hplain : ∀ name ∈ stagedNames (filesOf [(nameA, 2)]), Plain name := by
    rw [hstaged]
    exact fun name hm => plainNames_ab.2 name (mem_singleton.mp hm ▸ mem_cons_self)
  have hok : replaceFiles (filesOf [(nameA, 2)]) (plan contentVersion (filesOf [(nameA, 2)]) installed)
      ⟨⟨installed, []⟩, [], []⟩ = (.ok (), (replaceFiles (filesOf [(nameA, 2)]) [nameA] ⟨⟨installed, []⟩, [], []⟩).2) := by
    rw [hplan]
    exact Prod.ext (by decide +kernel) rfl
  refine (plan_of_replaced contentVersion (w := ⟨⟨installed, []⟩, [], []⟩) hplain hok).trans ?_
  rw [hstaged]
  decide +kernel

/-- The second file is not in the package, and the staged copy of the first cannot be removed. -/
def removalFails : List (Outcome ℕ) := [.done, .done, .failed]

/-- A staged copy can be left behind; an attempt that is stopped in the swap leaves files of both releases, also
after a start; and a file can be lost when a name is given twice or is that of a set-aside copy. -/
theorem not_always_in_place :
    (¬ ∀ (d package : Directory ℕ) (names : List Str) (outcomes : List (Outcome ℕ)) (error : ReplaceFilesError),
      PlainNames names → (replaceFiles package names ⟨⟨d, []⟩, [], outcomes⟩).1 = .error error →
      error.rollbackErrors = [] → ∀ y ∈ names,
        (slotOf (replaceFiles package names ⟨⟨d, []⟩, [], outcomes⟩).2.now.files y).incoming = none) ∧
    (¬ ∀ (d package d' d'' : Directory ℕ) (names : List Str), PlainNames names →
      Found (replaceFiles package names) d d' → Found (settlePreviousUpdate noVersion []) d' d'' →
        (∀ y ∈ names, (slotOf d'' y).live = (slotOf d y).live) ∨
          ∀ y ∈ names, (slotOf d'' y).live = package.lookup y) ∧
    (¬ ∀ (d package d' : Directory ℕ) (names : List Str), Found (replaceFiles package names) d d' →
      ∀ y ∈ names, ∀ content, (slotOf d y).live = some (.file content) →
        (slotOf d' y).live = some (.file content) ∨ (slotOf d' y).previous = some (.file content)) ∧
    ¬ ∀ (d package : Directory ℕ) (names : List Str), names.Nodup →
      (replaceFiles package names ⟨⟨d, []⟩, [], []⟩).1 = .ok () → ∀ y ∈ names,
        (slotOf (replaceFiles package names ⟨⟨d, []⟩, [], []⟩).2.now.files y).live = package.lookup y := by
  refine ⟨fun h ↦ ?_, fun h ↦ ?_, fun h ↦ ?_, fun h ↦ ?_⟩
  · have hleft := h installed (filesOf [(nameA, 2)]) [nameA, nameB] removalFails (.copy nameB) plainNames_ab (by decide +kernel)
      rfl nameA (.head _)
    exact absurd hleft (by decide +kernel)
  · obtain ⟨s, hs, ha, hb⟩ : ∃ s ∈ (replaceFiles released [nameA, nameB] ⟨⟨installed, []⟩, [], []⟩).2.past,
        (slotOf (settlePreviousUpdate noVersion [] ⟨⟨s.files, []⟩, [], []⟩).2.now.files nameA).live = some (.file 2) ∧
        (slotOf (settlePreviousUpdate noVersion [] ⟨⟨s.files, []⟩, [], []⟩).2.now.files nameB).live = some (.file 1) := by
      decide +kernel
    obtain hold | hnew := h installed released s.files _ [nameA, nameB] plainNames_ab ⟨s, .inr ⟨[], .inr hs⟩, rfl⟩
      ⟨_, .inr ⟨[], .inl rfl⟩, rfl⟩
    · exact absurd (ha.symm.trans (hold nameA (.head _))) (by decide +kernel)
    · exact absurd (hb.symm.trans (hnew nameB (.tail _ (.head _)))) (by decide +kernel)
  · obtain ⟨s, hs, hlive, hprevious⟩ : ∃ s ∈ (replaceFiles released [nameA, nameA] ⟨⟨installed, []⟩, [], []⟩).2.past,
        (slotOf s.files nameA).live ≠ some (.file 1) ∧ (slotOf s.files nameA).previous ≠ some (.file 1) := by
      decide +kernel
    exact (h installed released s.files [nameA, nameA] ⟨s, .inr ⟨[], .inr hs⟩, rfl⟩ nameA (.head _) 1 (by decide +kernel)).elim
      hlive hprevious
  · have hleft := h installed (filesOf [(nameA, 2), (previous nameA, 2)]) [previous nameA, nameA] (by decide +kernel) (by decide +kernel)
      (previous nameA) (.head _)
    exact absurd hleft (by decide +kernel)

end NiumaTerm.SelfUpdate
