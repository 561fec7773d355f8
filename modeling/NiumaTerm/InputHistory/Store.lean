import Mathlib.Algebra.Group.Nat.Defs
import Mathlib.Data.List.AList
import Mathlib.Data.Prod.Lex
import NiumaTerm.Lib.Newest
import NiumaTerm.Lib.Str

/-!
# The store of prompts

`HistoryStore` has the prompts of each scope, `merge` adds those of a snapshot, and `load` reads a file of
either format.  What a row of a file means is a set of entries (`savedIn`, `legacyIn`), and what the functions
do to a scope is said with it: `isNewest_merge`, `isNewest_load`.
-/

namespace NiumaTerm.InputHistory

open Rust List

/-! ## Entries and scopes -/

/-- 128 bits. -/
abbrev Uuid := Fin (2 ^ 128)

structure HistoryEntry where
  id : Uuid
  createdAt : ℕ
  text : Str
deriving DecidableEq

/-- The source's `InputHistoryScope`. -/
structure Scope where
  target : Str
  backend : Str
  cwd : Str
  additional : Str
deriving DecidableEq

structure StoredScope (E : Type) where
  target : Str
  backend : Str
  cwd : Str
  additional : Str
  entries : List E
deriving DecidableEq

abbrev StoredHistory := List (StoredScope HistoryEntry)

/-- The key a stored directory spelling has today. -/
def currentCwdKey (cwd : Str) : Str :=
  match cwd.dropPrefix? "//?/unc/".toList with
  | some share => "//".toList ++ share
  | none => (cwd.dropPrefix? "//?/".toList).getD cwd

def historyScope {E : Type} (value : StoredScope E) : Scope where
  target := value.target
  backend := value.backend
  cwd := currentCwdKey value.cwd
  additional := value.additional

def Scope.stored (scope : Scope) (entries : List HistoryEntry) : StoredScope HistoryEntry where
  target := scope.target
  backend := scope.backend
  cwd := scope.cwd
  additional := scope.additional
  entries := entries

/-- The key of the scope's directory stays the same when it is stored. -/
def Scope.IsPlain (scope : Scope) : Prop := currentCwdKey scope.cwd = scope.cwd

instance (scope : Scope) : Decidable scope.IsPlain := inferInstanceAs (Decidable (_ = _))

def maxEntriesPerScope : ℕ := 100

def u64Max : ℕ := 2 ^ 64 - 1

/-- The order of the entries. -/
def HistoryEntry.key (entry : HistoryEntry) : ℕ ×ₗ Uuid := toLex (entry.createdAt, entry.id)

/-- A map from ids keeps the last entry of each. -/
def unique : List HistoryEntry → List HistoryEntry
  | [] => []
  | entry :: rest => if rest.any fun later => later.id = entry.id then unique rest else entry :: unique rest

def mergeEntries (entries stored : List HistoryEntry) : List HistoryEntry :=
  let merged := (unique (entries ++ stored)).insertionSort fun a b => a.key ≤ b.key
  merged.drop (merged.length - maxEntriesPerScope)

/-! ## The store -/

abbrev HistoryStore := AList fun _ : Scope => List HistoryEntry

namespace HistoryStore

def entriesOf (store : HistoryStore) (scope : Scope) : List HistoryEntry := (store.lookup scope).getD []

/-- What a prompt adds to the scope: nothing if it is blank or the last one again.  `id` is the new id. -/
def newEntry (store : HistoryStore) (scope : Scope) (text : Str) (now : ℕ) (id : Uuid) : Option HistoryEntry :=
  let text := trim text
  let last := (store.entriesOf scope).getLast?
  if text = [] ∨ (last.any fun entry => entry.text = text) = true then none
  else
    let after := (last.map fun entry => min (entry.createdAt + 1) u64Max).getD 0
    some { id, createdAt := max (min now u64Max) after, text }

def record (store : HistoryStore) (scope : Scope) (text : Str) (now : ℕ) (id : Uuid) : Bool × HistoryStore :=
  match store.newEntry scope text now id with
  | none => (false, store)
  | some entry =>
    let entries := store.entriesOf scope ++ [entry]
    (true, store.insert scope (entries.drop (entries.length - maxEntriesPerScope)))

def mergeScope (store : HistoryStore) (scope : StoredScope HistoryEntry) : HistoryStore :=
  store.insert (historyScope scope) (mergeEntries (store.entriesOf (historyScope scope)) scope.entries)

def merge (store : HistoryStore) (snapshot : StoredHistory) : HistoryStore := snapshot.foldl mergeScope store

def toStored (store : HistoryStore) : StoredHistory :=
  store.entries.map fun ⟨scope, entries⟩ => scope.stored entries

end HistoryStore

/-! ## Files -/

/-- A legacy prompt is identified by where and how it is stored. -/
structure Identity where
  target : Str
  backend : Str
  cwd : Str
  additional : Str
  index : ℕ
  text : Str
deriving DecidableEq

section

variable (v5 : Identity → Uuid)

/-- What a legacy prompt becomes, after the entries before it. -/
def migrated (scope : StoredScope Str) (entries : List HistoryEntry) (prompt : Str × ℕ) : Option HistoryEntry :=
  let text := trim prompt.1
  if text = [] ∨ (entries.getLast?.any fun entry => entry.text = text) = true then none
  else
    let key := historyScope scope
    let identity :=
      { target := key.target, backend := key.backend, cwd := scope.cwd, additional := key.additional,
        index := prompt.2, text }
    some { id := v5 identity, createdAt := prompt.2, text }

/-- The source keeps the last hundred. -/
def migrate (scope : StoredScope Str) (entries : List HistoryEntry) (prompt : Str × ℕ) : List HistoryEntry :=
  match migrated v5 scope entries prompt with
  | some entry =>
    let entries := entries ++ [entry]
    if entries.length > maxEntriesPerScope then entries.drop 1 else entries
  | none => entries

def loadLegacyScope (store : HistoryStore) (scope : StoredScope Str) : HistoryStore :=
  store.insert (historyScope scope) (scope.entries.zipIdx.foldl (migrate v5 scope) [])

inductive HistoryFile
  | missing
  /-- Not to be read, no JSON, or of another version. -/
  | unreadable
  | legacy (scopes : List (StoredScope Str))
  | current (scopes : StoredHistory)

def load : HistoryFile → Option HistoryStore
  | .missing => some ∅
  | .unreadable => none
  | .legacy scopes => some (scopes.foldl (loadLegacyScope v5) ∅)
  | .current scopes => some (HistoryStore.merge ∅ scopes)

/-- The file that a save leaves; the source writes it under the lock. -/
def save (file : HistoryFile) (history : StoredHistory) : Option HistoryFile :=
  (load v5 file).map fun merged => .current (merged.merge history).toStored

end

/-! ## What the rows of a file mean -/

/-- The entries of the scope. -/
def savedIn (snapshot : StoredHistory) (scope : Scope) : Set HistoryEntry :=
  fun entry => ∃ row ∈ snapshot, historyScope row = scope ∧ entry ∈ row.entries

theorem mem_savedIn {snapshot : StoredHistory} {scope : Scope} {entry : HistoryEntry} :
    entry ∈ savedIn snapshot scope ↔ ∃ row ∈ snapshot, historyScope row = scope ∧ entry ∈ row.entries := Iff.rfl

/-- All prompts of a legacy row. -/
def migrateAll (v5 : Identity → Uuid) (scope : StoredScope Str) : List HistoryEntry :=
  scope.entries.zipIdx.foldl (fun entries prompt => entries ++ (migrated v5 scope entries prompt).toList) []

/-- A legacy row, as it would be stored without a limit. -/
def legacyRow (v5 : Identity → Uuid) (scope : StoredScope Str) : StoredScope HistoryEntry :=
  { target := scope.target, backend := scope.backend, cwd := scope.cwd, additional := scope.additional,
    entries := migrateAll v5 scope }

def HistoryFile.rows (v5 : Identity → Uuid) : HistoryFile → StoredHistory
  | .missing | .unreadable => []
  | .legacy scopes => scopes.map (legacyRow v5)
  | .current scopes => scopes

/-- No row of an old file has entries and is followed by another one of its scope. -/
def HistoryFile.KeepsRows (v5 : Identity → Uuid) : HistoryFile → Prop
  | .legacy scopes => scopes.Pairwise fun earlier later =>
      historyScope earlier = historyScope later → migrateAll v5 earlier = []
  | _ => True

/-! ## Merging -/

abbrev IdsUnique (entries : Set HistoryEntry) : Prop := entries.InjOn HistoryEntry.id

theorem unique_sublist (entries : List HistoryEntry) : (unique entries).Sublist entries := by
  induction entries with
  | nil => exact .slnil
  | cons entry rest ih =>
    rw [unique]
    split
    · exact ih.cons entry
    · exact ih.cons_cons entry

theorem mem_unique {entries : List HistoryEntry} (hids : IdsUnique {e | e ∈ entries}) {entry : HistoryEntry} :
    entry ∈ unique entries ↔ entry ∈ entries := by
  refine ⟨fun h => (unique_sublist entries).subset h, fun h => ?_⟩
  induction entries with
  | nil => exact h
  | cons first rest ih =>
    have hrest : IdsUnique {e | e ∈ rest} := hids.mono fun e he => mem_cons_of_mem first he
    rw [unique]
    split
    · rename_i hany
      obtain ⟨later, hl, hid⟩ := any_eq_true.mp hany
      rcases mem_cons.mp h with rfl | h
      · have : later = entry := hids (mem_cons_of_mem _ hl) mem_cons_self (of_decide_eq_true hid)
        exact ih hrest (this ▸ hl)
      · exact ih hrest h
    · rcases mem_cons.mp h with rfl | h
      · exact mem_cons_self
      · exact mem_cons_of_mem _ (ih hrest h)

theorem pairwise_unique (entries : List HistoryEntry) : (unique entries).Pairwise fun a b => a.id ≠ b.id := by
  induction entries with
  | nil => exact .nil
  | cons entry rest ih =>
    rw [unique]
    split
    · exact ih
    · rename_i hany
      refine .cons (fun later hl heq => hany ?_) ih
      exact any_eq_true.mpr ⟨later, (unique_sublist rest).subset hl, decide_eq_true heq.symm⟩

theorem key_lt_of_le {a b : HistoryEntry} (h : a.key ≤ b.key) (hid : a.id ≠ b.id) : a.key < b.key := by
  refine lt_of_le_of_ne h fun heq => hid ?_
  exact congrArg Prod.snd (toLex.injective heq)

/-- The newest of both lists, in order. -/
theorem isNewest_mergeEntries {entries stored : List HistoryEntry} (hids : IdsUnique {e | e ∈ entries ++ stored}) :
    IsNewest HistoryEntry.key maxEntriesPerScope ({e | e ∈ entries} ∪ {e | e ∈ stored})
      (mergeEntries entries stored) := by
  let merged := (unique (entries ++ stored)).insertionSort fun a b => a.key ≤ b.key
  have hperm : merged.Perm (unique (entries ++ stored)) := perm_insertionSort _ _
  have hle : merged.Pairwise fun a b => a.key ≤ b.key := by
    have htotal : Std.Total fun a b : HistoryEntry => a.key ≤ b.key := ⟨fun a b => le_total a.key b.key⟩
    have htrans : IsTrans HistoryEntry fun a b => a.key ≤ b.key := ⟨fun a b c hab hbc => le_trans hab hbc⟩
    exact pairwise_insertionSort _ _
  have hne : merged.Pairwise fun a b => a.id ≠ b.id :=
    (hperm.pairwise_iff fun h => h.symm).mpr (pairwise_unique _)
  have hlt : merged.Pairwise fun a b => a.key < b.key := (hle.and hne).imp fun h => key_lt_of_le h.1 h.2
  refine (isNewest_drop hlt).congr fun e => ?_
  show e ∈ merged ↔ e ∈ entries ∨ e ∈ stored
  rw [hperm.mem_iff, mem_unique hids, mem_append]

namespace HistoryStore

variable {store : HistoryStore} {scope : Scope} {S : Set HistoryEntry}

@[simp] theorem entriesOf_insert (entries : List HistoryEntry) :
    entriesOf (store.insert scope entries) scope = entries := by
  rw [entriesOf, AList.lookup_insert]
  rfl

theorem entriesOf_insert_ne {other : Scope} (h : other ≠ scope) (entries : List HistoryEntry) :
    entriesOf (store.insert scope entries) other = store.entriesOf other := by
  rw [entriesOf, AList.lookup_insert_ne h]
  rfl

theorem isNewest_mergeScope (h : IsNewest HistoryEntry.key maxEntriesPerScope S (store.entriesOf scope))
    {row : StoredScope HistoryEntry} (hids : IdsUnique (S ∪ savedIn [row] scope)) :
    IsNewest HistoryEntry.key maxEntriesPerScope (S ∪ savedIn [row] scope) ((store.mergeScope row).entriesOf scope) := by
  by_cases hk : historyScope row = scope
  · subst hk
    have hrow {e : HistoryEntry} : e ∈ savedIn [row] (historyScope row) ↔ e ∈ row.entries := by
      rw [mem_savedIn]
      simp
    have hsub : IdsUnique {e | e ∈ store.entriesOf (historyScope row) ++ row.entries} := by
      refine hids.mono fun e he => ?_
      rcases mem_append.mp he with he | he
      · exact .inl (h.mem e he)
      · exact .inr (hrow.mpr he)
    rw [mergeScope, entriesOf_insert]
    refine (h.absorb (isNewest_mergeEntries hsub)).congr fun e => or_congr Iff.rfl hrow.symm
  · rw [mergeScope, entriesOf_insert_ne fun he => hk he.symm]
    refine h.congr fun e => ⟨.inl, fun he => he.resolve_right ?_⟩
    rintro ⟨other, ho, hother, -⟩
    rw [mem_singleton.mp ho] at hother
    exact hk hother

end HistoryStore

theorem savedIn_append (first second : StoredHistory) (scope : Scope) :
    savedIn (first ++ second) scope = savedIn first scope ∪ savedIn second scope := by
  refine Set.ext fun e => ⟨?_, ?_⟩
  · rintro ⟨row, hr, hk, he⟩
    rcases mem_append.mp hr with hr | hr
    · exact .inl ⟨row, hr, hk, he⟩
    · exact .inr ⟨row, hr, hk, he⟩
  · rintro (⟨row, hr, hk, he⟩ | ⟨row, hr, hk, he⟩)
    · exact ⟨row, mem_append_left _ hr, hk, he⟩
    · exact ⟨row, mem_append_right _ hr, hk, he⟩

theorem HistoryStore.isNewest_merge {store : HistoryStore} {scope : Scope} {S : Set HistoryEntry}
    (h : IsNewest HistoryEntry.key maxEntriesPerScope S (store.entriesOf scope)) {snapshot : StoredHistory}
    (hids : IdsUnique (S ∪ savedIn snapshot scope)) :
    IsNewest HistoryEntry.key maxEntriesPerScope (S ∪ savedIn snapshot scope)
      ((store.merge snapshot).entriesOf scope) := by
  induction snapshot generalizing store S with
  | nil =>
    refine h.congr fun e => ⟨.inl, fun he => he.resolve_right ?_⟩
    rintro ⟨row, hr, -⟩
    cases hr
  | cons row rest ih =>
    have hsplit : S ∪ savedIn (row :: rest) scope = (S ∪ savedIn [row] scope) ∪ savedIn rest scope := by
      rw [← singleton_append, savedIn_append, Set.union_assoc]
    rw [hsplit] at hids ⊢
    exact ih (HistoryStore.isNewest_mergeScope h (hids.mono Set.subset_union_left)) hids

/-! ## The laws of merging -/

section

variable {a b c : List HistoryEntry}

theorem mergeEntries_comm (hids : IdsUnique {e | e ∈ a ++ b}) : mergeEntries a b = mergeEntries b a := by
  have hids' : IdsUnique {e | e ∈ b ++ a} :=
    hids.mono fun e he => (show (b ++ a).Perm (a ++ b) from perm_append_comm).mem_iff.mp he
  refine (isNewest_mergeEntries hids).unique ((isNewest_mergeEntries hids').congr fun e => ?_)
  rw [Set.union_comm]

theorem mergeEntries_left (hids : IdsUnique {e | e ∈ a ++ b ++ c}) :
    IsNewest HistoryEntry.key maxEntriesPerScope ({e | e ∈ a} ∪ {e | e ∈ b} ∪ {e | e ∈ c})
      (mergeEntries (mergeEntries a b) c) := by
  have hab := isNewest_mergeEntries (hids.mono fun e he => mem_append_left c he)
  refine hab.absorb (isNewest_mergeEntries (hids.mono fun e he => ?_))
  rcases mem_append.mp he with he | he
  · exact mem_append_left c (mem_append.mpr (hab.mem e he))
  · exact mem_append_right _ he

theorem mergeEntries_assoc (hids : IdsUnique {e | e ∈ a ++ b ++ c}) :
    mergeEntries (mergeEntries a b) c = mergeEntries a (mergeEntries b c) := by
  have hbc : IdsUnique {e | e ∈ b ++ c} := hids.mono fun e he => by
    rw [append_assoc]
    exact mem_append_right a he
  have hright : IdsUnique {e | e ∈ a ++ mergeEntries b c} := hids.mono fun e he => by
    rw [append_assoc]
    rcases mem_append.mp he with he | he
    · exact mem_append_left _ he
    · exact mem_append_right _ (mem_append.mpr ((isNewest_mergeEntries hbc).mem e he))
  have hmerged := (isNewest_mergeEntries hright).congr (T := {e | e ∈ mergeEntries b c} ∪ {e | e ∈ a}) fun e => by
    rw [Set.union_comm]
  refine (mergeEntries_left hids).unique (((isNewest_mergeEntries hbc).absorb hmerged).congr fun e => ?_)
  rw [Set.union_comm, Set.union_assoc]

/-- Merging the same again changes nothing. -/
theorem mergeEntries_idem (hids : IdsUnique {e | e ∈ a ++ b}) :
    mergeEntries (mergeEntries a b) b = mergeEntries a b := by
  have hids' : IdsUnique {e | e ∈ a ++ b ++ b} := hids.mono fun e he => by
    rcases mem_append.mp he with he | he
    · exact he
    · exact mem_append_right a he
  refine (mergeEntries_left hids').unique ((isNewest_mergeEntries hids).congr fun e => ?_)
  rw [Set.union_assoc, Set.union_self]

end

/-! ## Loading and saving -/

section

variable {v5 : Identity → Uuid}

theorem migrated_eq_some {scope : StoredScope Str} {entries : List HistoryEntry} {prompt : Str × ℕ}
    {entry : HistoryEntry} (h : migrated v5 scope entries prompt = some entry) : entry.createdAt = prompt.2 := by
  unfold migrated at h
  dsimp only at h
  split at h
  · cases h
  · cases h
    rfl

/-- The entries of a row are created one after another. -/
theorem pairwise_migrateAll (scope : StoredScope Str) :
    (migrateAll v5 scope).Pairwise fun a b => a.createdAt < b.createdAt := by
  suffices h : ∀ (prompts : List Str) (start : ℕ) (entries : List HistoryEntry),
      (entries.Pairwise fun a b => a.createdAt < b.createdAt) → (∀ e ∈ entries, e.createdAt < start) →
      ((prompts.zipIdx start).foldl (fun entries prompt => entries ++ (migrated v5 scope entries prompt).toList)
        entries).Pairwise fun a b => a.createdAt < b.createdAt from
    h scope.entries 0 [] .nil fun e he => by cases he
  intro prompts
  induction prompts with
  | nil => exact fun _ _ hp _ => hp
  | cons prompt rest ih =>
    intro start entries hp hlt
    rw [zipIdx_cons, foldl_cons]
    cases hm : migrated v5 scope entries (prompt, start) with
    | none =>
      rw [Option.toList_none, append_nil]
      exact ih _ _ hp fun e he => Nat.lt_succ_of_lt (hlt e he)
    | some entry =>
      have hc : entry.createdAt = start := migrated_eq_some hm
      refine ih _ _ (pairwise_append.mpr ⟨hp, pairwise_singleton _ _, fun a ha b hb => ?_⟩) fun e he => ?_
      · rw [mem_singleton.mp hb, hc]
        exact hlt a ha
      · rcases mem_append.mp he with he | he
        · exact Nat.lt_succ_of_lt (hlt e he)
        · rw [mem_singleton.mp he, hc]
          exact Nat.lt_succ_self start

/-- The source keeps the last hundred of them. -/
theorem foldl_migrate (scope : StoredScope Str) : scope.entries.zipIdx.foldl (migrate v5 scope) [] =
    (migrateAll v5 scope).drop ((migrateAll v5 scope).length - maxEntriesPerScope) := by
  suffices h : ∀ (prompts : List (Str × ℕ)) (all : List HistoryEntry),
      prompts.foldl (migrate v5 scope) (all.drop (all.length - maxEntriesPerScope)) =
        let full := prompts.foldl (fun entries prompt => entries ++ (migrated v5 scope entries prompt).toList) all
        full.drop (full.length - maxEntriesPerScope) from h scope.entries.zipIdx []
  intro prompts
  induction prompts with
  | nil => exact fun _ => rfl
  | cons prompt rest ih =>
    intro all
    have hmigrated : migrated v5 scope (all.drop (all.length - maxEntriesPerScope)) prompt =
        migrated v5 scope all prompt := by
      have hlast : (all.drop (all.length - maxEntriesPerScope)).getLast? = all.getLast? := by
        cases all with
        | nil => rfl
        | cons first others =>
          rw [getLast?_drop, if_neg]
          simp only [length_cons, maxEntriesPerScope]
          omega
      unfold migrated
      rw [hlast]
    rw [foldl_cons, foldl_cons, ← ih]
    congr 1
    rw [migrate, hmigrated]
    cases hm : migrated v5 scope all prompt with
    | none => rw [Option.toList_none, append_nil]
    | some entry =>
      dsimp only [Option.toList_some]
      rw [length_append, length_append, length_drop, length_singleton]
      split
      · rename_i hfull
        have hlong : maxEntriesPerScope ≤ all.length := by omega
        rw [drop_append_of_le_length (by rw [length_drop]; simp only [maxEntriesPerScope] at *; omega),
          drop_append_of_le_length (by simp only [maxEntriesPerScope] at *; omega), drop_drop]
        congr 2
        omega
      · rename_i hshort
        have hzero : all.length + 1 - maxEntriesPerScope = 0 := by omega
        rw [hzero, Nat.sub_eq_zero_of_le (by omega)]
        rfl

/-- A migrated row has the newest of its prompts. -/
theorem isNewest_migrate (scope : StoredScope Str) :
    IsNewest HistoryEntry.key maxEntriesPerScope {e | e ∈ migrateAll v5 scope}
      (scope.entries.zipIdx.foldl (migrate v5 scope) []) := by
  rw [foldl_migrate]
  refine isNewest_drop ((pairwise_migrateAll scope).imp fun {a b} hlt => ?_)
  rw [HistoryEntry.key, HistoryEntry.key, Prod.Lex.toLex_lt_toLex]
  exact .inl hlt

/-- Rows of one scope overwrite each other. -/
theorem isNewest_loadLegacy {rows : List (StoredScope Str)} (hkeep : (HistoryFile.legacy rows).KeepsRows v5)
    (scope : Scope) : IsNewest HistoryEntry.key maxEntriesPerScope (savedIn (rows.map (legacyRow v5)) scope)
      (HistoryStore.entriesOf (rows.foldl (loadLegacyScope v5) ∅) scope) := by
  induction rows using reverseRecOn with
  | nil =>
    refine (IsNewest.empty _ _).congr fun e => ⟨fun he => he.elim, ?_⟩
    rintro ⟨row, hr, -⟩
    cases hr
  | append_singleton rows row ih =>
    obtain ⟨hrows, -, hrow⟩ := pairwise_append.mp hkeep
    have hmem {e : HistoryEntry} : e ∈ savedIn ((rows ++ [row]).map (legacyRow v5)) scope ↔
        e ∈ savedIn (rows.map (legacyRow v5)) scope ∨ historyScope row = scope ∧ e ∈ migrateAll v5 row := by
      rw [map_append, savedIn_append, Set.mem_union]
      simp [mem_savedIn, legacyRow, historyScope]
    rw [foldl_append, foldl_cons, foldl_nil, loadLegacyScope]
    by_cases hk : historyScope row = scope
    · subst hk
      rw [HistoryStore.entriesOf_insert]
      refine (isNewest_migrate row).congr fun e => ?_
      rw [hmem]
      refine ⟨fun he => .inr ⟨rfl, he⟩, fun he => (he.resolve_left ?_).2⟩
      rintro ⟨earlier, hearlier, hscope, he⟩
      obtain ⟨old, ho, rfl⟩ := mem_map.mp hearlier
      have hempty := hrow old ho row (mem_singleton.mpr rfl) hscope
      rw [legacyRow, hempty] at he
      cases he
    · rw [HistoryStore.entriesOf_insert_ne fun he => hk he.symm]
      refine (ih hrows).congr fun e => ?_
      rw [hmem]
      exact ⟨.inl, fun he => he.resolve_right fun h => hk h.1⟩

/-- A store read from a file has the newest entries of its rows. -/
theorem isNewest_load {file : HistoryFile} {store : HistoryStore} (hload : load v5 file = some store)
    (hkeep : file.KeepsRows v5) (scope : Scope) (hids : IdsUnique (savedIn (file.rows v5) scope)) :
    IsNewest HistoryEntry.key maxEntriesPerScope (savedIn (file.rows v5) scope) (store.entriesOf scope) := by
  cases file with
  | missing =>
    cases hload
    refine (IsNewest.empty _ _).congr fun e => ⟨fun he => he.elim, ?_⟩
    rintro ⟨row, hr, -⟩
    cases hr
  | unreadable => cases hload
  | legacy rows =>
    cases hload
    exact isNewest_loadLegacy hkeep scope
  | current rows =>
    cases hload
    have h : IsNewest HistoryEntry.key maxEntriesPerScope ∅ (HistoryStore.entriesOf ∅ scope) := IsNewest.empty _ _
    have hids' : IdsUnique (∅ ∪ savedIn rows scope) := by rwa [Set.empty_union]
    have hmerged := HistoryStore.isNewest_merge h hids'
    rwa [Set.empty_union] at hmerged

/-- Every scope of the store keeps its key when it is stored. -/
def HistoryStore.Plain (store : HistoryStore) : Prop := ∀ scope ∈ store, scope.IsPlain

def PlainRows (snapshot : StoredHistory) : Prop := ∀ row ∈ snapshot, (historyScope row).IsPlain

theorem HistoryStore.Plain.merge {store : HistoryStore} (h : store.Plain) {snapshot : StoredHistory}
    (hs : PlainRows snapshot) : (store.merge snapshot).Plain := by
  induction snapshot generalizing store with
  | nil => exact h
  | cons row rest ih =>
    refine ih (fun scope hm => ?_) fun other ho => hs other (mem_cons_of_mem _ ho)
    rcases (AList.mem_insert _).mp hm with rfl | hm
    · exact hs row mem_cons_self
    · exact h scope hm

theorem mem_toStored {store : HistoryStore} {row : StoredScope HistoryEntry} : row ∈ store.toStored ↔
    ∃ scope entries, store.lookup scope = some entries ∧ row = scope.stored entries := by
  constructor
  · intro h
    obtain ⟨⟨scope, entries⟩, hm, rfl⟩ := mem_map.mp h
    exact ⟨scope, entries, AList.mem_lookup_iff.mpr hm, rfl⟩
  · rintro ⟨scope, entries, hl, rfl⟩
    exact mem_map.mpr ⟨⟨scope, entries⟩, AList.mem_lookup_iff.mp hl, rfl⟩

theorem HistoryStore.Plain.historyScope_eq {store : HistoryStore} (h : store.Plain) {scope : Scope}
    {entries : List HistoryEntry} (hl : store.lookup scope = some entries) :
    historyScope (scope.stored entries) = scope := by
  have hplain : currentCwdKey scope.cwd = scope.cwd := h scope (AList.lookup_isSome.mp (by rw [hl]; rfl))
  rw [historyScope, show (scope.stored entries).cwd = scope.cwd from rfl, hplain]
  rfl

theorem HistoryStore.Plain.rows {store : HistoryStore} (h : store.Plain) : PlainRows store.toStored := by
  intro row hr
  obtain ⟨scope, entries, hl, rfl⟩ := mem_toStored.mp hr
  rw [h.historyScope_eq hl]
  exact h scope (AList.lookup_isSome.mp (by rw [hl]; rfl))

/-- What is stored of a scope is what the store has. -/
theorem HistoryStore.Plain.savedIn_toStored {store : HistoryStore} (h : store.Plain) {scope : Scope}
    {entry : HistoryEntry} : entry ∈ savedIn store.toStored scope ↔ entry ∈ store.entriesOf scope := by
  rw [mem_savedIn]
  constructor
  · rintro ⟨row, hr, hk, he⟩
    obtain ⟨other, entries, hl, rfl⟩ := mem_toStored.mp hr
    rw [h.historyScope_eq hl] at hk
    subst hk
    rw [HistoryStore.entriesOf, hl]
    exact he
  · intro he
    unfold HistoryStore.entriesOf at he
    cases hl : store.lookup scope with
    | none =>
      rw [hl] at he
      cases he
    | some entries =>
      rw [hl] at he
      exact ⟨_, mem_toStored.mpr ⟨scope, entries, hl, rfl⟩, h.historyScope_eq hl, he⟩

theorem plain_load {file : HistoryFile} {store : HistoryStore} (hload : load v5 file = some store)
    (hp : PlainRows (file.rows v5)) : store.Plain := by
  cases file with
  | missing =>
    cases hload
    intro scope hm
    exact absurd hm (AList.notMem_empty scope)
  | unreadable => cases hload
  | legacy rows =>
    cases hload
    suffices h : ∀ (rows : List (StoredScope Str)) (store : HistoryStore), store.Plain →
        PlainRows (rows.map (legacyRow v5)) → (rows.foldl (loadLegacyScope v5) store).Plain from
      h rows ∅ (fun scope hm => absurd hm (AList.notMem_empty scope)) hp
    intro rows
    induction rows with
    | nil => exact fun _ hs _ => hs
    | cons row rest ih =>
      intro store hs hrows
      refine ih _ (fun scope hm => ?_) fun other ho => hrows other (mem_cons_of_mem _ ho)
      rcases (AList.mem_insert _).mp hm with rfl | hm
      · exact hrows _ mem_cons_self
      · exact hs scope hm
  | current rows =>
    cases hload
    exact HistoryStore.Plain.merge (fun scope hm => absurd hm (AList.notMem_empty scope)) hp

end

end NiumaTerm.InputHistory
