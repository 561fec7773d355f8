import Mathlib.Data.List.Chain
import NiumaTerm.Lib.Checks
import NiumaTerm.Lib.Json
import NiumaTerm.Lib.Loop
import NiumaTerm.Lib.ParentLinks

/-!
# The active chain of a Claude transcript

`activeChainIndices` finds the latest leaf of the main conversation and walks `parentUuid` back to the
root.  Its loops are bounded by a `fuel` here, and `activeChainIndices_ends` says how much is enough.
-/

namespace NiumaTerm.ClaudeCode

open Rust Loop ParentLinks List

def TRANSCRIPT_ENTRY_TYPES : List String :=
  ["user", "assistant", "progress", "system", "attachment"]

def isTranscriptEntry (record : Json) : Bool :=
  TRANSCRIPT_ENTRY_TYPES.any (record.get "type").isText && (record.get "uuid").asStr.isSome

section

variable (records : List Json)

def recordAt (index : ℕ) : Json := records.getD index .null

def uuidAt (index : ℕ) : Option Str := ((recordAt records index).get "uuid").asStr

def parentAt (index : ℕ) : Option Str := ((recordAt records index).get "parentUuid").asStr

/-- The indices of the entries. -/
def transcriptEntries : List ℕ :=
  (List.range records.length).filter fun index => isTranscriptEntry (recordAt records index)

/-- Of two entries with one uuid the later one counts: it stands first. -/
def byUuid : List (Str × ℕ) :=
  (transcriptEntries records).reverse.map fun index => ((uuidAt records index).getD [], index)

def parentUuids : List Str := (transcriptEntries records).filterMap (parentAt records)

/-- Entries that no entry names as its parent. -/
def terminals : List ℕ :=
  (transcriptEntries records).filter fun index =>
    (uuidAt records index).any fun uuid => uuid ∉ parentUuids records

def isMessage (index : ℕ) : Bool :=
  let kind := (recordAt records index).get "type"
  kind.isText "user" || kind.isText "assistant"

def parentIndex (index : ℕ) : Option ℕ :=
  (parentAt records index).bind fun parent => (byUuid records).lookup parent

structure LeafSearch where
  current : Option ℕ
  seen : List Str := []

def leafRound (s : LeafSearch) : Round LeafSearch (Option ℕ) :=
  match s.current with
  | none => .leave none
  | some index =>
    match uuidAt records index with
    | none => .leave none
    | some uuid =>
      if uuid ∈ s.seen then .leave none
      else if isMessage records index then .leave (some index)
      else .next { current := parentIndex records index, seen := uuid :: s.seen }

/-- The leaf that a terminal leads up to; `none` outside is a loop that goes on. -/
def leafFrom (fuel : ℕ) (terminal : ℕ) : Option (Option ℕ) :=
  run (leafRound records) fuel { current := some terminal }

def leaves (fuel : ℕ) : Option (List ℕ) :=
  ((terminals records).mapM (leafFrom records fuel)).map fun found => found.filterMap id

def isMainLeaf (index : ℕ) : Bool :=
  let record := recordAt records index
  (record.get "isSidechain").asBool ≠ some true && (record.get "isMeta").asBool ≠ some true &&
    (record.get "teamName").asStr.isNone

def latestLeaf (leaves : List ℕ) : Option ℕ :=
  (leaves.filter (isMainLeaf records)).max?.or leaves.max?

structure ChainWalk where
  current : ℕ
  /-- The latest record pushed is the first, which is the order the chain is returned in. -/
  pushed : List ℕ := []
  seen : List Str := []

def chainRound (s : ChainWalk) : Round ChainWalk (List ℕ × Option Str) :=
  match uuidAt records s.current with
  | none => .leave (s.pushed, none)
  | some uuid =>
    if uuid ∈ s.seen then .leave (s.pushed, none)
    else
      match parentAt records s.current with
      | none => .leave (s.current :: s.pushed, none)
      | some parent =>
        match (byUuid records).lookup parent with
        | none => .leave (s.current :: s.pushed, some parent)
        | some parentIndex =>
          .next { current := parentIndex, pushed := s.current :: s.pushed, seen := uuid :: s.seen }

/-- The chain and the parent it broke off at.  `none` is a loop that goes on. -/
def activeChainIndices (fuel : ℕ) : Option (List ℕ × Option Str) :=
  if (transcriptEntries records).isEmpty then some (List.range records.length, none)
  else
    (leaves records fuel).bind fun leaves =>
      match latestLeaf records leaves with
      | none => some ([], none)
      | some leaf => run (chainRound records) fuel { current := leaf }

end

structure TranscriptIndex where
  records : List Json
  chain : List ℕ
  snapshotMessageIds : List Str
  malformedSnapshot : Bool
  brokenParent : Option Str

def TranscriptIndex.read (fuel : ℕ) (records : List Json) : Option TranscriptIndex :=
  (activeChainIndices records fuel).map fun found =>
    let snapshots := records.filter fun record => (record.get "type").isText "file-history-snapshot"
    { records := records
      chain := found.1
      snapshotMessageIds := snapshots.filterMap fun record => (record.get "messageId").asStr
      malformedSnapshot := snapshots.any fun record => (record.get "messageId").asStr.isNone
      brokenParent := found.2 }

/-! ## The loops end -/

section

variable {records : List Json}

/-- The uuids that the loops can come to. -/
def uuids (records : List Json) : List Str :=
  (List.range records.length).filterMap (uuidAt records)

theorem length_uuids_le (records : List Json) : (uuids records).length ≤ records.length := by
  have h := length_filterMap_le (uuidAt records) (List.range records.length)
  rwa [length_range] at h

theorem mem_uuids {index : ℕ} {uuid : Str} (h : uuidAt records index = some uuid) :
    uuid ∈ uuids records := by
  refine mem_filterMap.mpr ⟨index, mem_range.mpr ?_, h⟩
  by_contra hge
  rw [uuidAt, recordAt, getD_eq_getElem?_getD, getElem?_eq_none (Nat.le_of_not_lt hge)] at h
  cases h

theorem leafRound_next {s s' : LeafSearch} (h : leafRound records s = .next s') :
    ∃ index uuid, s.current = some index ∧ uuidAt records index = some uuid ∧ uuid ∉ s.seen ∧
      isMessage records index = false ∧ s' = ⟨parentIndex records index, uuid :: s.seen⟩ := by
  rw [leafRound] at h
  split at h
  · cases h
  · rename_i index hindex
    split at h
    · cases h
    · rename_i uuid huuid
      split_ifs at h with hseen hmessage
      cases h
      exact ⟨index, uuid, hindex, huuid, hseen, by simpa using hmessage, rfl⟩

theorem chainRound_next {s s' : ChainWalk} (h : chainRound records s = .next s') :
    ∃ uuid parent index, uuidAt records s.current = some uuid ∧ uuid ∉ s.seen ∧
      parentAt records s.current = some parent ∧ (byUuid records).lookup parent = some index ∧
      s' = ⟨index, s.current :: s.pushed, uuid :: s.seen⟩ := by
  rw [chainRound] at h
  split at h
  · cases h
  · rename_i uuid huuid
    split_ifs at h with hseen
    split at h
    · cases h
    · rename_i parent hparent
      split at h
      · cases h
      · rename_i index hindex
        cases h
        exact ⟨uuid, parent, index, huuid, hseen, hparent, hindex, rfl⟩

theorem leafFrom_ends {fuel : ℕ} (hfuel : records.length < fuel) (terminal : ℕ) :
    (leafFrom records fuel terminal).isSome = true := by
  refine run_isSome_of_visited (uuids records) LeafSearch.seen ?_
    (Nat.lt_of_le_of_lt (length_uuids_le records) hfuel)
  intro s s' h
  obtain ⟨index, uuid, -, huuid, hnew, -, rfl⟩ := leafRound_next h
  exact ⟨uuid, mem_uuids huuid, hnew, rfl⟩

theorem chainRound_ends {fuel : ℕ} (hfuel : records.length < fuel) (s : ChainWalk) :
    (run (chainRound records) fuel s).isSome = true := by
  refine run_isSome_of_visited (uuids records) ChainWalk.seen ?_
    (Nat.lt_of_le_of_lt (length_uuids_le records) hfuel)
  intro s s' h
  obtain ⟨uuid, -, -, huuid, hnew, -, -, rfl⟩ := chainRound_next h
  exact ⟨uuid, mem_uuids huuid, hnew, rfl⟩

end

/-! ## Leaves -/

section

variable {records : List Json} {index leaf terminal : ℕ} {uuid : Str}

theorem mem_transcriptEntries :
    index ∈ transcriptEntries records ↔ isTranscriptEntry (recordAt records index) = true := by
  rw [transcriptEntries, mem_filter, mem_range]
  refine ⟨And.right, fun h => ⟨?_, h⟩⟩
  by_contra hge
  rw [recordAt, getD_eq_getElem?_getD, getElem?_eq_none (Nat.le_of_not_lt hge)] at h
  cases h

theorem uuidAt_of_mem (h : index ∈ transcriptEntries records) :
    ∃ uuid, uuidAt records index = some uuid := by
  have hentry := mem_transcriptEntries.mp h
  rw [isTranscriptEntry, Bool.and_eq_true] at hentry
  exact Option.isSome_iff_exists.mp hentry.2

theorem lookup_byUuid (h : (byUuid records).lookup uuid = some index) :
    index ∈ transcriptEntries records ∧ uuidAt records index = some uuid := by
  obtain ⟨before, after, hsplit, -⟩ := lookup_eq_some_iff.mp h
  have hmem : (uuid, index) ∈ byUuid records := by simp [hsplit]
  rw [byUuid, mem_map] at hmem
  obtain ⟨i, hi, heq⟩ := hmem
  obtain ⟨uuid', huuid'⟩ := uuidAt_of_mem (mem_reverse.mp hi)
  rw [huuid', Option.getD_some] at heq
  cases heq
  exact ⟨mem_reverse.mp hi, huuid'⟩

/-- The record that the search for a leaf goes on at. -/
def stepUp (records : List Json) (index : ℕ) : Option ℕ :=
  if isMessage records index then none else parentIndex records index

/-- A message that an entry which is nobody's parent leads up to, over records that are none. -/
def IsLeaf (records : List Json) (leaf : ℕ) : Prop :=
  isMessage records leaf = true ∧ ∃ terminal ∈ terminals records, ∃ path,
    Lineage (stepUp records) terminal path ∧ path.getLast? = some leaf

theorem stepUp_eq_some {next : ℕ} (h : stepUp records index = some next) :
    isMessage records index = false ∧ parentIndex records index = some next := by
  rw [stepUp] at h
  split_ifs at h with hmessage
  exact ⟨by simpa using hmessage, h⟩

theorem parentIndex_spec {next : ℕ} (hentry : index ∈ transcriptEntries records)
    (h : parentIndex records index = some next) :
    next ∈ transcriptEntries records ∧ ∃ uuid ∈ parentUuids records,
      uuidAt records next = some uuid ∧ (byUuid records).lookup uuid = some next := by
  obtain ⟨parent, hparent, hlookup⟩ := Option.bind_eq_some_iff.mp h
  obtain ⟨hnext, huuid⟩ := lookup_byUuid hlookup
  exact ⟨hnext, parent, mem_filterMap.mpr ⟨index, hentry, hparent⟩, huuid, hlookup⟩

section

variable {path : List ℕ}

theorem entries_of_lineage (ht : terminal ∈ transcriptEntries records)
    (h : Lineage (stepUp records) terminal path) :
    ∀ index ∈ path, index ∈ transcriptEntries records :=
  h.forall_mem (fun _ _ hentry hstep => (parentIndex_spec hentry (stepUp_eq_some hstep).2).1) ht

/-- The uuids on the way up from a terminal are distinct. -/
theorem nodup_uuids_of_lineage (ht : terminal ∈ terminals records)
    (h : Lineage (stepUp records) terminal path) : (path.map (uuidAt records)).Nodup := by
  rw [terminals, mem_filter, Option.any_eq_true] at ht
  obtain ⟨hentry, root, hroot, hnone⟩ := ht
  rw [decide_eq_true_eq] at hnone
  -- past the terminal every record is the one that counts for its uuid, which is a parent's
  have hmem := h.forall_mem
    (P := fun index => index ∈ transcriptEntries records ∧ (index = terminal ∨
      ∃ uuid ∈ parentUuids records, uuidAt records index = some uuid ∧
        (byUuid records).lookup uuid = some index))
    (fun _ _ hindex hstep =>
      have hspec := parentIndex_spec hindex.1 (stepUp_eq_some hstep).2
      ⟨hspec.1, .inr hspec.2⟩) ⟨hentry, .inl rfl⟩
  refine h.nodup.map_on fun i hi j hj huuids => ?_
  rcases (hmem i hi).2 with rfl | ⟨ui, hui, hiu, hil⟩ <;>
    rcases (hmem j hj).2 with rfl | ⟨uj, huj, hju, hjl⟩
  · rfl
  · rw [hroot, hju, Option.some.injEq] at huuids
    exact absurd (huuids ▸ huj) hnone
  · rw [hroot, hiu, Option.some.injEq] at huuids
    exact absurd (huuids ▸ hui) hnone
  · rw [hiu, hju, Option.some.injEq] at huuids
    rw [huuids, hjl, Option.some.injEq] at hil
    exact hil.symm

/-- The search follows a lineage whose uuids it has not seen. -/
theorem leafRound_of_lineage {seen : List Str} (h : Lineage (stepUp records) index path)
    (hlast : path.getLast? = some leaf) (hmessage : isMessage records leaf = true)
    (hentry : ∀ index ∈ path, index ∈ transcriptEntries records)
    (hnodup : (path.map (uuidAt records)).Nodup)
    (hseen : ∀ uuid ∈ seen, some uuid ∉ path.map (uuidAt records)) :
    run (leafRound records) path.length ⟨some index, seen⟩ = some (some leaf) := by
  induction h generalizing seen with
  | @last index hnone =>
    obtain rfl : index = leaf := Option.some.inj hlast
    obtain ⟨uuid, huuid⟩ := uuidAt_of_mem (hentry index (mem_singleton_self _))
    have hnew : uuid ∉ seen := fun hmem => hseen uuid hmem (by simp [huuid])
    exact run_leave (by simp [leafRound, huuid, hnew, hmessage])
  | @up index next path hstep hp ih =>
    obtain ⟨hno, hnext⟩ := stepUp_eq_some hstep
    obtain ⟨uuid, huuid⟩ := uuidAt_of_mem (hentry index mem_cons_self)
    have hnew : uuid ∉ seen := fun hmem => hseen uuid hmem (by simp [huuid])
    rw [map_cons, nodup_cons] at hnodup
    have hround : leafRound records ⟨some index, seen⟩ = .next ⟨some next, uuid :: seen⟩ := by
      simp [leafRound, huuid, hnew, hno, hnext]
    rw [length_cons, run_next hround]
    refine ih ?_ (fun i hi => hentry i (mem_cons_of_mem _ hi)) hnodup.2 ?_
    · obtain ⟨last, hlast', -⟩ := hp.exists_last
      rwa [getLast?_cons, hlast', Option.getD_some, ← hlast'] at hlast
    · intro u hu
      rcases mem_cons.mp hu with rfl | hu
      · rw [← huuid]
        exact hnodup.1
      · exact fun hmem => hseen u hu (mem_cons_of_mem _ hmem)

/-- What the search finds is at the end of the lineage. -/
theorem lineage_of_leafRound {fuel : ℕ} {s : LeafSearch}
    (h : run (leafRound records) fuel s = some (some leaf)) :
    isMessage records leaf = true ∧ ∃ index path, s.current = some index ∧
      Lineage (stepUp records) index path ∧ path.getLast? = some leaf := by
  induction fuel generalizing s with
  | zero => cases h
  | succ fuel ih =>
    rcases hround : leafRound records s with s' | found
    · rw [run_next hround] at h
      obtain ⟨index, uuid, hindex, -, -, hno, rfl⟩ := leafRound_next hround
      obtain ⟨hmessage, next, path, hnext, hp, hlast⟩ := ih h
      refine ⟨hmessage, index, index :: path, hindex, .up ?_ hp, ?_⟩
      · rw [stepUp, hno, if_neg Bool.false_ne_true]
        exact hnext
      · rw [getLast?_cons, hlast, Option.getD_some]
    · rw [run_leave hround] at h
      cases h
      rw [leafRound] at hround
      split at hround
      · cases hround
      · rename_i index hindex
        split at hround
        · cases hround
        · split_ifs at hround with hseen hmessage
          · cases hround
          · cases hround
            exact ⟨hmessage, _, _, hindex, .last (if_pos hmessage), rfl⟩

end

theorem leafFrom_eq_some_iff {fuel : ℕ} (hfuel : records.length < fuel)
    (ht : terminal ∈ terminals records) :
    leafFrom records fuel terminal = some (some leaf) ↔ isMessage records leaf = true ∧
      ∃ path, Lineage (stepUp records) terminal path ∧ path.getLast? = some leaf := by
  constructor
  · intro h
    obtain ⟨hmessage, index, path, hindex, hp, hlast⟩ := lineage_of_leafRound h
    cases hindex
    exact ⟨hmessage, path, hp, hlast⟩
  · rintro ⟨hmessage, path, hp, hlast⟩
    have hentry := entries_of_lineage (mem_of_mem_filter ht) hp
    have hrun := leafRound_of_lineage hp hlast hmessage hentry (nodup_uuids_of_lineage ht hp)
      (forall_mem_nil _)
    obtain ⟨found, hfound⟩ := Option.isSome_iff_exists.mp (leafFrom_ends hfuel terminal)
    rw [hfound, run_unique hfound hrun]

/-- **Leaves.** -/
theorem leaves_spec {fuel : ℕ} (hfuel : records.length < fuel) :
    ∃ found, leaves records fuel = some found ∧ ∀ leaf, leaf ∈ found ↔ IsLeaf records leaf := by
  have hmap : (terminals records).mapM (leafFrom records fuel) =
      some ((terminals records).map fun terminal => (leafFrom records fuel terminal).getD none) := by
    refine Checks.mapM_some_map fun terminal _ => ?_
    obtain ⟨found, hfound⟩ := Option.isSome_iff_exists.mp (leafFrom_ends hfuel terminal)
    rw [hfound, Option.getD_some]
  refine ⟨_, by rw [leaves, hmap]; rfl, fun leaf => ?_⟩
  simp only [mem_filterMap, mem_map, id_eq]
  constructor
  · rintro ⟨found, ⟨terminal, ht, rfl⟩, hfound⟩
    obtain ⟨answer, hanswer⟩ := Option.isSome_iff_exists.mp (leafFrom_ends hfuel terminal)
    rw [hanswer, Option.getD_some] at hfound
    rw [hfound] at hanswer
    obtain ⟨hmessage, path, hp⟩ := (leafFrom_eq_some_iff hfuel ht).mp hanswer
    exact ⟨hmessage, terminal, ht, path, hp⟩
  · rintro ⟨hmessage, terminal, ht, path, hp⟩
    refine ⟨some leaf, ⟨terminal, ht, ?_⟩, rfl⟩
    rw [(leafFrom_eq_some_iff hfuel ht).mpr ⟨hmessage, path, hp⟩, Option.getD_some]

/-- The latest leaf of the main conversation; the latest of all where it has none. -/
def IsLatestLeaf (records : List Json) (leaf : ℕ) : Prop :=
  (IsLeaf records leaf ∧ isMainLeaf records leaf = true ∧
    ∀ other, IsLeaf records other → isMainLeaf records other = true → other ≤ leaf) ∨
  ((∀ other, IsLeaf records other → isMainLeaf records other = false) ∧ IsLeaf records leaf ∧
    ∀ other, IsLeaf records other → other ≤ leaf)

theorem latestLeaf_eq_some_iff {found : List ℕ}
    (hfound : ∀ leaf, leaf ∈ found ↔ IsLeaf records leaf) (leaf : ℕ) :
    latestLeaf records found = some leaf ↔ IsLatestLeaf records leaf := by
  rw [latestLeaf, Option.or_eq_some_iff, max?_eq_none_iff, max?_eq_some_iff,
    max?_eq_some_iff, IsLatestLeaf]
  simp only [mem_filter, hfound, and_imp, and_assoc, filter_eq_nil_iff, Bool.not_eq_true]

end

/-! ## The chain -/

section

variable {records : List Json} {leaf : ℕ} {chain : List ℕ}

/-- The chain of a transcript that has entries. -/
structure ActiveChain (records : List Json) (chain : List ℕ) : Prop where
  entries : ∀ index ∈ chain, index ∈ transcriptEntries records
  distinct : (chain.map (uuidAt records)).Nodup
  linked : chain.IsChain fun parent index => parentIndex records index = some parent
  latest : ∀ leaf, chain.getLast? = some leaf ↔ IsLatestLeaf records leaf

/-- What the walk has pushed is the chain from the record after the current one on. -/
structure Walked (records : List Json) (leaf : ℕ) (s : ChainWalk) : Prop where
  entries : ∀ index ∈ s.current :: s.pushed, index ∈ transcriptEntries records
  seen : s.pushed.map (uuidAt records) = s.seen.map some
  distinct : s.seen.Nodup
  linked : (s.current :: s.pushed).IsChain fun parent index =>
    parentIndex records index = some parent
  last : (s.current :: s.pushed).getLast? = some leaf

theorem Walked.start (h : leaf ∈ transcriptEntries records) :
    Walked records leaf { current := leaf } where
  entries := by simpa using h
  seen := rfl
  distinct := nodup_nil
  linked := .singleton _
  last := rfl

theorem Walked.next {s s' : ChainWalk} (h : Walked records leaf s)
    (hround : chainRound records s = .next s') : Walked records leaf s' := by
  obtain ⟨uuid, parent, index, huuid, hnew, hparent, hindex, rfl⟩ := chainRound_next hround
  refine ⟨?_, ?_, nodup_cons.mpr ⟨hnew, h.distinct⟩, ?_, ?_⟩
  · exact forall_mem_cons.mpr ⟨(lookup_byUuid hindex).1, h.entries⟩
  · rw [map_cons, map_cons, huuid, h.seen]
  · exact isChain_cons_cons.mpr ⟨by rw [parentIndex, hparent]; exact hindex, h.linked⟩
  · rw [getLast?_cons_cons]
    exact h.last

/-- The records of a walk that ends at a record whose uuid is new. -/
theorem Walked.leave {s : ChainWalk} {uuid : Str} (h : Walked records leaf s)
    (huuid : uuidAt records s.current = some uuid) (hnew : uuid ∉ s.seen) :
    ((s.current :: s.pushed).map (uuidAt records)).Nodup := by
  rw [map_cons, huuid, h.seen, nodup_cons]
  exact ⟨by simpa using hnew, h.distinct.map (Option.some_injective _)⟩

theorem Walked.result {s : ChainWalk} {found : List ℕ × Option Str} (h : Walked records leaf s)
    (hround : chainRound records s = .leave found) :
    (∀ index ∈ found.1, index ∈ transcriptEntries records) ∧ (found.1.map (uuidAt records)).Nodup ∧
      (found.1.IsChain fun parent index => parentIndex records index = some parent) ∧
      found.1.getLast? = some leaf := by
  obtain ⟨uuid, huuid⟩ := uuidAt_of_mem (h.entries _ mem_cons_self)
  rw [chainRound, huuid] at hround
  simp only at hround
  split_ifs at hround with hseen
  · -- the walk has come round: the record it stands at is on the chain already
    cases hround
    refine ⟨fun index hindex => h.entries index (mem_cons_of_mem _ hindex), ?_,
      h.linked.of_cons, ?_⟩
    · rw [h.seen]
      exact h.distinct.map (Option.some_injective _)
    · have hlast := h.last
      cases hpushed : s.pushed with
      | nil =>
        have hnil := h.seen
        rw [hpushed, map_nil, eq_comm, map_eq_nil_iff] at hnil
        rw [hnil] at hseen
        cases hseen
      | cons index rest => rwa [hpushed, getLast?_cons_cons] at hlast
  · have hfound : found.1 = s.current :: s.pushed := by
      split at hround
      · cases hround
        rfl
      · split at hround
        · cases hround
          rfl
        · cases hround
    rw [hfound]
    exact ⟨h.entries, h.leave huuid hseen, h.linked, h.last⟩

theorem IsLeaf.mem_transcriptEntries (h : IsLeaf records leaf) :
    leaf ∈ transcriptEntries records := by
  obtain ⟨-, terminal, ht, path, hp, hlast⟩ := h
  exact entries_of_lineage (mem_of_mem_filter ht) hp leaf (mem_of_getLast? hlast)

/-- **The chain.**  The loops end on any records; without an entry the chain is all of them. -/
theorem activeChain (records : List Json) {fuel : ℕ} (hfuel : records.length < fuel) :
    ∃ found, activeChainIndices records fuel = some found ∧
      (transcriptEntries records = [] → found.1 = List.range records.length) ∧
      (transcriptEntries records ≠ [] → ActiveChain records found.1) := by
  rw [activeChainIndices]
  by_cases hempty : transcriptEntries records = []
  · rw [if_pos (by rw [hempty]; rfl)]
    exact ⟨_, rfl, fun _ => rfl, fun hne => absurd hempty hne⟩
  rw [if_neg (by simpa using hempty)]
  obtain ⟨found, hleaves, hmem⟩ := leaves_spec hfuel
  rw [hleaves, Option.bind_some]
  have hlatest := latestLeaf_eq_some_iff hmem
  split
  · rename_i hnone
    refine ⟨_, rfl, fun h => absurd h hempty, fun _ => ⟨by simp, nodup_nil, .nil, ?_⟩⟩
    intro leaf
    rw [← hlatest leaf, hnone]
    simp
  · rename_i leaf hleaf
    have hentry : leaf ∈ transcriptEntries records := by
      rcases (hlatest leaf).mp hleaf with h | h
      · exact h.1.mem_transcriptEntries
      · exact h.2.1.mem_transcriptEntries
    obtain ⟨found, hrun⟩ := Option.isSome_iff_exists.mp (chainRound_ends hfuel { current := leaf })
    obtain ⟨hentries, hdistinct, hlinked, hlast⟩ := run_spec (I := Walked records leaf)
      (fun _ _ h => h.next) (fun _ _ h => h.result) (Walked.start hentry) hrun
    refine ⟨found, hrun, fun h => absurd h hempty, fun _ => ⟨hentries, hdistinct, hlinked, ?_⟩⟩
    intro other
    rw [hlast, ← hlatest other, hleaf]

end

end NiumaTerm.ClaudeCode
