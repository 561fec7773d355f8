import NiumaTerm.InputHistory.Writer
import NiumaTerm.Lib.Transition

/-!
# The histories of all processes

`histories` is the system of any number of processes on one file; a save reads, merges and replaces it at
once, as it does under its lock.  `Histories.Kept` is what the file owes to the scopes and a process to
its flushes (`input_history_kept`).
-/

namespace NiumaTerm.InputHistory

open Rust Transition List

/-! ## The system -/

structure Histories where
  file : HistoryFile
  processes : List Process
  /-- What the file had at first and all that was saved to it. -/
  saved : StoredHistory
  /-- The entries so far, saved or not. -/
  known : List HistoryEntry

def entriesIn (snapshot : StoredHistory) : List HistoryEntry := snapshot.flatMap StoredScope.entries

namespace Histories

inductive Call
  | start
  | process (index : ℕ) (call : Process.Call)

section

variable (v5 : Identity → Uuid) (w : Histories)

def new (file : HistoryFile) : Histories where
  file := file
  processes := []
  saved := file.rows v5
  known := entriesIn (file.rows v5)

/-- The file after a snapshot has reached it. -/
def afterSave (file : HistoryFile) : Option StoredHistory → HistoryFile
  | some snapshot => (save v5 file snapshot).getD file
  | none => file

def recorded (p : Process) : Process.Call → List HistoryEntry
  | .record scope text now id => (p.store.newEntry scope text now id).toList
  | _ => []

def perform : Call → Histories
  | .start => { w with processes := w.processes ++ [.new ((load v5 w.file).getD ∅)] }
  | .process index call =>
    match w.processes[index]? with
    | some p =>
      { file := afterSave v5 w.file (p.saves call)
        processes := w.processes.set index (p.perform call)
        saved := w.saved ++ (p.saves call).getD []
        known := w.known ++ recorded p call }
    | none => w

def FreshId (known : List HistoryEntry) : Process.Call → Prop
  | .record _ _ _ id => ∀ entry ∈ known, entry.id ≠ id
  | _ => True

/-- A save that reaches the file could read it. -/
def Enabled : Call → Prop
  | .start => True
  | .process index call => ∃ p, w.processes[index]? = some p ∧ p.Enabled call ∧ FreshId w.known call ∧
      ∀ snapshot, p.saves call = some snapshot → (save v5 w.file snapshot).isSome = true

end

end Histories

def histories (v5 : Identity → Uuid) : System Histories Histories.Call where
  init w := ∃ file, IdsUnique {entry | entry ∈ entriesIn (file.rows v5)} ∧ w = .new v5 file
  step w call w' := w.Enabled v5 call ∧ w' = w.perform v5 call

/-! ## The property -/

namespace Histories

/-- The file has the newest entries of all that were saved, and every flush its answer. -/
structure Kept (v5 : Identity → Uuid) (w : Histories) : Prop where
  newest : ∀ store, load v5 w.file = some store → ∀ scope,
    IsNewest HistoryEntry.key maxEntriesPerScope (savedIn w.saved scope) (store.entriesOf scope)
  answers : ∀ p ∈ w.processes, p.Answers

def RecordsPlain : Process.Call → Prop
  | .record scope _ _ _ => scope.IsPlain
  | _ => True

/-- Prompts are recorded for directories that keep their keys, and no flush is left behind. -/
def Keeps (w : Histories) : Call → Prop
  | .start => True
  | .process index call => RecordsPlain call ∧ ∀ p, w.processes[index]? = some p → p.LeavesNone call

end Histories

/-- The runs from a file whose rows are all kept. -/
def keeping (v5 : Identity → Uuid) : System Histories Histories.Call where
  init w := (histories v5).init w ∧ w.file.KeepsRows v5 ∧ PlainRows (w.file.rows v5)
  step w call w' := w.Keeps call ∧ (histories v5).step w call w'

/-- The laws of merging the entries of a scope. -/
structure MergeLaws : Prop where
  idempotent : ∀ a b, IdsUnique {e | e ∈ a ++ b} → mergeEntries (mergeEntries a b) b = mergeEntries a b
  commutative : ∀ a b, IdsUnique {e | e ∈ a ++ b} → mergeEntries a b = mergeEntries b a
  associative : ∀ a b c, IdsUnique {e | e ∈ a ++ b ++ c} →
    mergeEntries (mergeEntries a b) c = mergeEntries a (mergeEntries b c)

theorem mergeLaws : MergeLaws := ⟨fun _ _ => mergeEntries_idem, fun _ _ => mergeEntries_comm, fun _ _ _ => mergeEntries_assoc⟩

/-! ## The invariant -/

variable {snapshot : StoredHistory}

theorem mem_entriesIn {entry : HistoryEntry} :
    entry ∈ entriesIn snapshot ↔ ∃ row ∈ snapshot, entry ∈ row.entries := mem_flatMap

theorem savedIn_subset {scope : Scope} {entry : HistoryEntry}
    (h : entry ∈ savedIn snapshot scope) : entry ∈ entriesIn snapshot := by
  obtain ⟨row, hr, -, he⟩ := h
  exact mem_entriesIn.mpr ⟨row, hr, he⟩

/-- A snapshot that may be saved: of known entries, and with keys that stay. -/
structure Fit (known : List HistoryEntry) (snapshot : StoredHistory) : Prop where
  plain : PlainRows snapshot
  known : ∀ entry ∈ entriesIn snapshot, entry ∈ known

theorem Fit.mono {known more : List HistoryEntry} (h : Fit known snapshot) :
    Fit (known ++ more) snapshot := ⟨h.plain, fun entry he => mem_append_left _ (h.known entry he)⟩

/-- The store of a process. -/
structure FitStore (known : List HistoryEntry) (store : HistoryStore) : Prop where
  plain : store.Plain
  known : ∀ scope, ∀ entry ∈ store.entriesOf scope, entry ∈ known

namespace FitStore

variable {known : List HistoryEntry} {store : HistoryStore}

theorem toStored (h : FitStore known store) : Fit known store.toStored := by
  refine ⟨h.plain.rows, fun entry he => ?_⟩
  obtain ⟨row, hr, he⟩ := mem_entriesIn.mp he
  exact h.known _ entry (h.plain.savedIn_toStored.mp ⟨row, hr, rfl, he⟩)

theorem mono (h : FitStore known store) (more : List HistoryEntry) : FitStore (known ++ more) store :=
  ⟨h.plain, fun scope entry he => mem_append_left _ (h.known scope entry he)⟩

theorem record (h : FitStore known store) {scope : Scope} (hplain : scope.IsPlain) (text : Str) (now : ℕ) (id : Uuid) :
    FitStore (known ++ (store.newEntry scope text now id).toList) (store.record scope text now id).2 := by
  unfold HistoryStore.record
  cases hn : store.newEntry scope text now id with
  | none => exact h.mono _
  | some entry =>
    refine ⟨fun other hm => ?_, fun other e he => ?_⟩
    · rcases (AList.mem_insert _).mp hm with rfl | hm
      · exact hplain
      · exact h.plain other hm
    · by_cases ho : other = scope
      · subst ho
        rw [HistoryStore.entriesOf_insert] at he
        rcases mem_append.mp (mem_of_mem_drop he) with he | he
        · exact mem_append_left _ (h.known other e he)
        · exact mem_append_right _ he
      · rw [HistoryStore.entriesOf_insert_ne ho] at he
        exact mem_append_left _ (h.known other e he)

end FitStore

namespace Histories

structure FitProcess (known : List HistoryEntry) (p : Process) : Prop where
  sound : p.Sound
  store : FitStore known p.store
  snapshots : p.Holds (Fit known)

structure Sound (v5 : Identity → Uuid) (w : Histories) : Prop where
  rows : w.file.KeepsRows v5 ∧ PlainRows (w.file.rows v5)
  ids : IdsUnique {entry | entry ∈ w.known}
  saved : ∀ entry ∈ entriesIn w.saved, entry ∈ w.known
  file : ∀ entry ∈ entriesIn (w.file.rows v5), entry ∈ w.known
  newest : ∀ store, load v5 w.file = some store → ∀ scope,
    IsNewest HistoryEntry.key maxEntriesPerScope (savedIn w.saved scope) (store.entriesOf scope)
  processes : ∀ p ∈ w.processes, FitProcess w.known p

variable {v5 : Identity → Uuid} {w : Histories}

theorem Sound.new {file : HistoryFile} (hids : IdsUnique {entry | entry ∈ entriesIn (file.rows v5)})
    (hk : file.KeepsRows v5) (hp : PlainRows (file.rows v5)) : (new v5 file).Sound v5 where
  rows := ⟨hk, hp⟩
  ids := hids
  saved _ he := he
  file _ he := he
  newest _ hl scope := isNewest_load hl hk scope (hids.mono fun _ he => savedIn_subset he)
  processes _ hm := by cases hm

theorem queue_store (p : Process) (snapshot : StoredHistory) (flush : Option Flush) :
    (p.queue snapshot flush).store = p.store := by
  unfold Process.queue
  split <;> rfl

theorem dropState_store (p : Process) : p.dropState.store = p.store := by
  unfold Process.dropState
  split <;> rfl

variable {call : Process.Call} {p : Process}

/-- Only recording changes the store. -/
theorem store_perform (p : Process) :
    (p.perform call).store = match call with
      | .record scope text now id => (p.store.record scope text now id).2
      | _ => p.store := by
  cases call with
  | record scope text now id =>
    rw [Process.perform, Process.record]
    split
    · rename_i heq
      rw [queue_store]
      dsimp only
      rw [heq]
    · rename_i heq
      dsimp only
      rw [heq]
      unfold HistoryStore.record at heq
      split at heq <;> cases heq
      rfl
  | flush => exact queue_store _ _ _
  | take =>
    rw [Process.perform, Process.take]
    split <;> rfl
  | finishSave result =>
    rw [Process.perform, Process.finishSave]
    split
    · cases result with
      | panicked => exact dropState_store _
      | _ => rfl
    · rfl
  | answer =>
    rw [Process.perform, Process.answer]
    split
    · dsimp only
      split <;> rfl
    · rfl
  | close => exact dropState_store _
  | _ => rfl

theorem FitProcess.perform {known : List HistoryEntry} (hp : FitProcess known p)
    (he : p.Enabled call) (hl : p.LeavesNone call) (hr : RecordsPlain call) :
    FitProcess (known ++ recorded p call) (p.perform call) := by
  have hstore : FitStore (known ++ recorded p call) (p.perform call).store := by
    rw [store_perform]
    cases call with
    | record scope text now id => exact hp.store.record hr text now id
    | _ => exact hp.store.mono _
  exact ⟨hp.sound.perform he hl, hstore, (hp.snapshots.imp fun _ hs => hs.mono).perform he hstore.toStored⟩

theorem FitProcess.mono {known : List HistoryEntry} (hp : FitProcess known p) (more : List HistoryEntry) :
    FitProcess (known ++ more) p :=
  ⟨hp.sound, hp.store.mono more, hp.snapshots.imp fun _ hs => hs.mono⟩

theorem idsUnique_recorded {known : List HistoryEntry} (hids : IdsUnique {entry | entry ∈ known})
    (hfresh : FreshId known call) : IdsUnique {entry | entry ∈ known ++ recorded p call} := by
  have hnew : ∀ entry ∈ recorded p call, recorded p call = [entry] ∧ ∀ old ∈ known, old.id ≠ entry.id := by
    intro entry hm
    cases call with
    | record scope text now id =>
      rw [recorded] at hm ⊢
      cases hn : p.store.newEntry scope text now id with
      | none =>
        rw [hn] at hm
        cases hm
      | some e =>
        rw [hn] at hm
        cases mem_singleton.mp hm
        have hid : entry.id = id := by
          unfold HistoryStore.newEntry at hn
          dsimp only at hn
          split at hn <;> cases hn
          rfl
        exact ⟨rfl, fun old ho heq => hfresh old ho (heq.trans hid)⟩
    | _ => cases hm
  intro a ha b hb heq
  rcases mem_append.mp ha with ha | ha <;> rcases mem_append.mp hb with hb | hb
  · exact hids ha hb heq
  · exact absurd heq ((hnew b hb).2 a ha)
  · exact absurd heq.symm ((hnew a ha).2 b hb)
  · have hone := (hnew a ha).1
    rw [hone] at hb
    exact (mem_singleton.mp hb).symm

/-- A saved snapshot is merged into what the file has. -/
theorem Sound.save (hs : w.Sound v5) {snapshot : StoredHistory} (hfit : Fit w.known snapshot)
    (hsome : (InputHistory.save v5 w.file snapshot).isSome = true) :
    ({ w with file := afterSave v5 w.file (some snapshot), saved := w.saved ++ snapshot } : Histories).Sound v5 := by
  obtain ⟨file, hfile⟩ := Option.isSome_iff_exists.mp hsome
  obtain ⟨merged, hload, rfl⟩ := Option.map_eq_some_iff.mp hfile
  have hplain : (merged.merge snapshot).Plain := (plain_load hload hs.rows.2).merge hfit.plain
  have hsub (scope : Scope) : savedIn w.saved scope ∪ savedIn snapshot scope ⊆ {entry | entry ∈ w.known} := by
    rintro entry (he | he)
    · exact hs.saved entry (savedIn_subset he)
    · exact hfit.known entry (savedIn_subset he)
  have hmerged (scope : Scope) := HistoryStore.isNewest_merge (hs.newest merged hload scope) (hs.ids.mono (hsub scope))
  have hrows : ∀ entry ∈ entriesIn (merged.merge snapshot).toStored, entry ∈ w.known := by
    intro entry he
    obtain ⟨row, hr, he⟩ := mem_entriesIn.mp he
    exact hsub _ ((hmerged _).mem entry (hplain.savedIn_toStored.mp ⟨row, hr, rfl, he⟩))
  rw [show afterSave v5 w.file (some snapshot) = .current (merged.merge snapshot).toStored by
    rw [afterSave, hfile]
    rfl]
  refine ⟨⟨trivial, hplain.rows⟩, hs.ids, fun entry he => ?_, hrows, fun store hstore scope => ?_, hs.processes⟩
  · obtain ⟨row, hr, he⟩ := mem_entriesIn.mp he
    rcases mem_append.mp hr with hr | hr
    · exact hs.saved entry (mem_entriesIn.mpr ⟨row, hr, he⟩)
    · exact hfit.known entry (mem_entriesIn.mpr ⟨row, hr, he⟩)
  · have hread := isNewest_load hstore trivial scope (hs.ids.mono fun entry he => hrows entry (savedIn_subset he))
    rw [savedIn_append]
    exact (hmerged scope).absorb_self (hread.congr fun entry => hplain.savedIn_toStored)

theorem Sound.perform (hs : w.Sound v5) {call : Call} (he : w.Enabled v5 call) (hk : w.Keeps call) :
    (w.perform v5 call).Sound v5 := by
  cases call with
  | start =>
    refine ⟨hs.rows, hs.ids, hs.saved, hs.file, hs.newest, fun p hm => ?_⟩
    rcases mem_append.mp hm with hm | hm
    · exact hs.processes p hm
    · rw [mem_singleton.mp hm]
      refine ⟨.new _, ?_, .new _⟩
      show FitStore w.known ((load v5 w.file).getD ∅)
      cases hl : load v5 w.file with
      | none => exact ⟨fun scope hm => absurd hm (AList.notMem_empty scope), fun scope entry hm => by cases hm⟩
      | some store =>
        exact ⟨plain_load hl hs.rows.2, fun scope entry hm =>
          hs.saved entry (savedIn_subset ((hs.newest store hl scope).mem entry hm))⟩
  | process index call =>
    obtain ⟨p, hp, hpe, hfresh, hsave⟩ := he
    have hfit := hs.processes p (mem_of_getElem? hp)
    have hfile : ({ w with file := afterSave v5 w.file (p.saves call), saved := w.saved ++ (p.saves call).getD [] } :
        Histories).Sound v5 := by
      cases hsaves : p.saves call with
      | none =>
        rw [Option.getD_none, append_nil]
        exact hs
      | some snapshot => exact hs.save (hfit.snapshots.saves hpe hsaves) (hsave snapshot hsaves)
    rw [Histories.perform, hp]
    refine ⟨hfile.rows, idsUnique_recorded hs.ids hfresh, fun entry he => mem_append_left _ (hfile.saved entry he),
      fun entry he => mem_append_left _ (hfile.file entry he), hfile.newest, fun q hq => ?_⟩
    rcases mem_or_eq_of_mem_set hq with hq | rfl
    · exact (hs.processes q hq).mono _
    · exact hfit.perform hpe (hk.2 p hp) hk.1

end Histories

/-! ## Every run -/

section

variable {v5 : Identity → Uuid} {calls : List Histories.Call} {w : Histories}

theorem histories_sound (hr : Run (keeping v5) calls w) : w.Sound v5 := by
  refine hr.invariant (fun w hw => ?_) fun w call w' hs hstep => ?_
  · obtain ⟨⟨file, hids, rfl⟩, hk, hp⟩ := hw
    exact .new hids hk hp
  · obtain ⟨hk, he, rfl⟩ := hstep
    exact hs.perform he hk

/-- **Input history merges without loss** in every run that keeps to the conditions. -/
theorem input_history_kept (hr : Run (keeping v5) calls w) : w.Kept v5 ∧ MergeLaws := by
  have hs := histories_sound hr
  exact ⟨⟨hs.newest, fun p hp ↦ (hs.processes p hp).sound.answers⟩, mergeLaws⟩

end

/-! ## One prompt, and an old file -/

def oldIdentity : Identity where
  target := "local".toList
  backend := "codex".toList
  cwd := "//?/c:/x".toList
  additional := []
  index := 0
  text := "old".toList

def newIdentity : Identity := { oldIdentity with cwd := "c:/x".toList, text := "new".toList }

/-- The ids of two legacy prompts. -/
def someIds (identity : Identity) : Uuid :=
  if identity = oldIdentity then 25724038511413088584989236266225142401
  else if identity = newIdentity then 268397732381153743163804813285845273945
  else 0

def directory : Scope where
  target := "local".toList
  backend := "codex".toList
  cwd := "c:/x".toList
  additional := []

def promptSnapshot : StoredHistory := [directory.stored [{ id := 5, createdAt := 7, text := "hi".toList }]]

/-- A process records a prompt, and its writer saves it. -/
def onePrompt : List Histories.Call :=
  [.start, .process 0 (.record directory "hi ".toList 7 5),
    .process 0 (.push { snapshot := promptSnapshot, version := 1, flush := none }), .process 0 .wake, .process 0 .take,
    .process 0 (.finishSave .stored), .process 0 .answer]

theorem input_history_kept_onePrompt :
    ((onePrompt.foldl (Histories.perform someIds · ·) (.new someIds .missing)).Kept someIds ∧ MergeLaws) ∧
    (onePrompt.foldl (Histories.perform someIds · ·) (.new someIds .missing)).file = .current promptSnapshot := by
  have hinit : (keeping someIds).init (.new someIds .missing) :=
    ⟨⟨.missing, (fun _ ha ↦ by cases ha), rfl⟩, trivial, (fun _ hr ↦ by cases hr)⟩
  have hplain : directory.IsPlain := by decide
  have hperforms : Performs (keeping someIds) (Histories.perform someIds · ·) (.new someIds .missing) onePrompt := by
    refine ⟨⟨trivial, trivial, rfl⟩, ⟨⟨hplain, fun _ _ ↦ trivial⟩, ⟨_, rfl, ⟨rfl, rfl⟩, ?_, ?_⟩, rfl⟩,
      ⟨⟨trivial, ?_⟩, ⟨_, rfl, .head _, trivial, ?_⟩, rfl⟩, ⟨⟨trivial, fun _ _ ↦ trivial⟩,
      ⟨_, rfl, ⟨rfl, rfl⟩, trivial, ?_⟩, rfl⟩, ⟨⟨trivial, fun _ _ ↦ trivial⟩, ⟨_, rfl, rfl, trivial, ?_⟩, rfl⟩,
      ⟨⟨trivial, fun _ _ ↦ trivial⟩, ⟨_, rfl, ⟨_, rfl⟩, trivial, fun _ _ ↦ rfl⟩, rfl⟩,
      ⟨⟨trivial, fun _ _ ↦ trivial⟩, ⟨_, rfl, ⟨_, _, rfl⟩, trivial, ?_⟩, rfl⟩, trivial⟩
    · intro entry hm
      cases hm
    · intro snapshot hm
      cases hm
    · intro p hp hf
      cases hf
    · intro snapshot hm
      cases hm
    · intro snapshot hm
      cases hm
    · intro snapshot hm
      cases hm
    · intro snapshot hm
      cases hm
  exact ⟨input_history_kept ((Run.init hinit).performs hperforms), by rfl⟩

/-- Two spellings of one directory. -/
def oldFile : HistoryFile :=
  .legacy [
    { target := "local".toList, backend := "codex".toList, cwd := "//?/c:/x".toList, additional := [],
      entries := ["old".toList] },
    { target := "local".toList, backend := "codex".toList, cwd := "c:/x".toList, additional := [],
      entries := ["new".toList] }]

def oldEntry : HistoryEntry where
  id := someIds oldIdentity
  createdAt := 0
  text := "old".toList

def newEntry : HistoryEntry where
  id := someIds newIdentity
  createdAt := 0
  text := "new".toList

/-- The second row overwrites the first one when the file is loaded. -/
theorem old_rows_lost : ¬ ∀ (calls : List Histories.Call) (w : Histories), Run (histories someIds) calls w →
    w.Kept someIds := by
  intro h
  have hentries : entriesIn (oldFile.rows someIds) = [oldEntry, newEntry] := by decide
  have hids : IdsUnique {entry | entry ∈ entriesIn (oldFile.rows someIds)} := by
    rw [hentries]
    intro a ha b hb hid
    have ha' : a = oldEntry ∨ a = newEntry := by simpa using ha
    have hb' : b = oldEntry ∨ b = newEntry := by simpa using hb
    obtain rfl | rfl := ha' <;> obtain rfl | rfl := hb'
    · rfl
    · exact absurd hid (by decide)
    · exact absurd hid (by decide)
    · rfl
  have hkept := (h [] _ (.init ⟨oldFile, hids, rfl⟩)).newest _ rfl directory
  have hold : oldEntry ∈ savedIn (oldFile.rows someIds) directory :=
    ⟨legacyRow someIds _, mem_map_of_mem (.head _), by decide, by decide⟩
  exact absurd (hkept.older oldEntry hold (by decide)).1 (by decide)

end NiumaTerm.InputHistory
