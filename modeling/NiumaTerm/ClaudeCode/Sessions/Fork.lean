import NiumaTerm.ClaudeCode.Sessions.Index
import NiumaTerm.ClaudeCode.Sessions.Titles
import NiumaTerm.ClaudeCode.Tasks.Records

/-!
# Forking a Claude transcript in front of a prompt

`buildForkRecords` copies the active chain before a prompt under new uuids.  Progress records are left
out, so the parent of a copied record is looked for over them; the loop does not remember where it has
been, and has no end in one case (`OpensWithLoop`, `relinking_stuck`).
-/

namespace NiumaTerm.ClaudeCode

open Rust Loop List

/-! ## The copied records -/

/-- What a fork is asked for; `newUuid n` is the uuid drawn after `n` others. -/
structure ForkRequest where
  sourceSessionId : Str
  userMessageId : Str
  newSessionId : Str
  now : Str
  newUuid : ℕ → Str

def uuidOf (record : Json) : Option Str := (record.get "uuid").asStr

def parentOf (record : Json) : Option Str := (record.get "parentUuid").asStr

def isProgress (record : Json) : Bool := (record.get "type").isText "progress"

/-- Removes a member; the last one takes its place. -/
def swapRemove (members : List (String × Json)) (name : String) : List (String × Json) :=
  match members.findIdx? fun member => member.1 = name, members.getLast? with
  | some index, some last => (members.set index last).dropLast
  | _, _ => members

/-- The records copied by uuid, the last of a uuid first. -/
def recordsByUuid (records : List Json) : List (Str × Json) :=
  (records.filterMap fun record => (uuidOf record).map fun uuid => (uuid, record)).reverse

def uuidMapping (request : ForkRequest) (records : List Json) : List (Str × Str) :=
  ((records.filterMap uuidOf).zipIdx.map fun drawn => (drawn.1, request.newUuid drawn.2)).reverse

/-- One round of the search for the parent of a copied record. -/
def relinkRound (byUuid : List (Str × Json)) (mapping : List (Str × Str)) (parent : Option Str) :
    Round (Option Str) (Option Str) :=
  match parent with
  | none => .leave none
  | some parentUuid =>
    match byUuid.lookup parentUuid with
    | none => .leave none
    | some parentRecord =>
      if isProgress parentRecord then .next (parentOf parentRecord)
      else .leave (mapping.lookup parentUuid)

def textOrNull (text : Option Str) : Json := (text.map Json.string).getD .null

def forkedMembers (request : ForkRequest) (mapping : List (Str × Str)) (isLast : Bool)
    (original : Json) (originalUuid newUuid : Str) (newParent : Option Str)
    (members : List (String × Json)) : List (String × Json) :=
  let logicalParent := (original.get "logicalParentUuid").asStr.bind fun uuid => mapping.lookup uuid
  let timestamp :=
    if isLast then .string request.now
    else (memberOf original "timestamp").getD (.string request.now)
  let members := Json.setMember "uuid" (.string newUuid) members
  let members := Json.setMember "parentUuid" (textOrNull newParent) members
  let members := Json.setMember "logicalParentUuid" (textOrNull logicalParent) members
  let members := Json.setMember "sessionId" (.string request.newSessionId) members
  let members := Json.setMember "isSidechain" (.bool false) members
  let members := Json.setMember "timestamp" timestamp members
  let members := Json.setMember "forkedFrom" (.object
    [("sessionId", .string request.sourceSessionId), ("messageUuid", .string originalUuid)]) members
  ["teamName", "agentName", "slug", "sourceToolAssistantUUID"].foldl swapRemove members

section

variable (fuel : ℕ) (request : ForkRequest)

def forkRecord (byUuid : List (Str × Json)) (mapping : List (Str × Str)) (isLast : Bool)
    (original : Json) : ExceptT Str Option Json := do
  match uuidOf original with
  | none => throw "Claude fork record is missing its UUID".toList
  | some originalUuid =>
    match mapping.lookup originalUuid with
    | none => throw ("Claude fork could not remap message ".toList ++ originalUuid)
    | some newUuid =>
      let newParent ← ExceptT.lift (run (relinkRound byUuid mapping) fuel (parentOf original))
      match original with
      | .object members =>
        return .object
          (forkedMembers request mapping isLast original originalUuid newUuid newParent members)
      | _ => throw "Claude fork record is not a JSON object".toList

def findCutoff (transcript : TranscriptIndex) : Option ℕ :=
  transcript.chain.findIdx? fun index =>
    let record := recordAt transcript.records index
    uuidOf record = some request.userMessageId && (userPromptText record).isSome

/-- The records of the chain in front of the prompt. -/
def recordsBefore (transcript : TranscriptIndex) (cutoff : ℕ) : List Json :=
  (transcript.chain.take cutoff).filterMap fun index => transcript.records[index]?

def replacementsOf (transcript : TranscriptIndex) : List Json :=
  (transcript.records.filter fun record =>
    (record.get "type").isText "content-replacement" &&
      (record.get "sessionId").asStr = some request.sourceSessionId).flatMap fun record =>
    (record.get "replacements").asArray.getD []

/-- The two records that are no messages. -/
def closingRecords (transcript : TranscriptIndex) (copied : List Json) : List Json :=
  let replacements := replacementsOf request transcript
  let drawn := (copied.filterMap uuidOf).length
  let replaced := if replacements.isEmpty then [] else
    [Json.object
      [("type", .text "content-replacement"), ("sessionId", .string request.newSessionId),
        ("replacements", .array replacements), ("uuid", .string (request.newUuid drawn)),
        ("timestamp", .string request.now)]]
  let title := (copied.findSome? fun record =>
    (userPromptText record).bind provisionalTitleFromPrompt).getD "Rewound session".toList
  replaced ++ [.object
    [("type", .text "custom-title"), ("sessionId", .string request.newSessionId),
      ("customTitle", .string (title ++ " (rewind)".toList)),
      ("uuid", .string (request.newUuid (drawn + replaced.length))),
      ("timestamp", .string request.now)]]

/-- The fork of the records in front of the prompt. -/
def forkRecords (transcript : TranscriptIndex) (copied : List Json) :
    ExceptT Str Option (Option (List Json)) := do
  let writable := copied.filter fun record => !isProgress record
  if writable.isEmpty then return none
  else
    let forked ← writable.zipIdx.mapM fun original =>
      forkRecord fuel request (recordsByUuid copied) (uuidMapping request copied)
        (original.2 + 1 = writable.length) original.1
    return some (forked ++ closingRecords request transcript copied)

def buildForkRecords (transcript : TranscriptIndex) : ExceptT Str Option (Option (List Json)) :=
  match findCutoff request transcript with
  | none =>
    throw ("Claude user message ".toList ++ request.userMessageId ++
      " is not a prompt on the active conversation".toList)
  | some cutoff => forkRecords fuel request transcript (recordsBefore transcript cutoff)

end

/-! ## Relinking -/

section

variable {copied : List Json} {mapping : List (Str × Str)} {fuel index : ℕ} {record : Json}
  {uuid : Str}

/-- What the copied part of a chain has: uuids of its own, and each record's parent before it. -/
structure Linked (copied : List Json) : Prop where
  named : ∀ record ∈ copied, (uuidOf record).isSome = true
  distinct : (copied.map uuidOf).Nodup
  linked : copied.IsChain fun parent record => parentOf record = uuidOf parent

theorem lookup_recordsByUuid_mem (h : (recordsByUuid copied).lookup uuid = some record) :
    record ∈ copied ∧ uuidOf record = some uuid := by
  obtain ⟨before, after, hsplit, -⟩ := lookup_eq_some_iff.mp h
  have hmem : (uuid, record) ∈ recordsByUuid copied := by simp [hsplit]
  rw [recordsByUuid, mem_reverse, mem_filterMap] at hmem
  obtain ⟨found, hfound, heq⟩ := hmem
  obtain ⟨uuid', huuid, heq⟩ := Option.map_eq_some_iff.mp heq
  cases heq
  exact ⟨hfound, huuid⟩

theorem exists_lookup_recordsByUuid (hmem : record ∈ copied) (huuid : uuidOf record = some uuid) :
    ∃ found, (recordsByUuid copied).lookup uuid = some found := by
  rw [← Option.isSome_iff_exists, List.lookup_isSome_iff]
  refine ⟨(uuid, record), ?_, by simp⟩
  rw [recordsByUuid, mem_reverse, mem_filterMap]
  exact ⟨record, hmem, by rw [huuid]; rfl⟩

theorem Linked.lookup (h : Linked copied) (hmem : record ∈ copied)
    (huuid : uuidOf record = some uuid) :
    (recordsByUuid copied).lookup uuid = some record := by
  obtain ⟨found, hfound⟩ := exists_lookup_recordsByUuid hmem huuid
  obtain ⟨hfound', huuid'⟩ := lookup_recordsByUuid_mem hfound
  rw [hfound, inj_on_of_nodup_map h.distinct hfound' hmem (huuid'.trans huuid.symm)]

variable (mapping) in
theorem Linked.round (h : Linked copied) (hmem : record ∈ copied) :
    (isProgress record = true ∧
      relinkRound (recordsByUuid copied) mapping (uuidOf record) = .next (parentOf record)) ∨
    (isProgress record = false ∧ ∃ found,
      relinkRound (recordsByUuid copied) mapping (uuidOf record) = .leave found) := by
  obtain ⟨uuid, huuid⟩ := Option.isSome_iff_exists.mp (h.named record hmem)
  rw [huuid, relinkRound]
  simp only [h.lookup hmem huuid]
  cases isProgress record
  · exact .inr ⟨rfl, _, rfl⟩
  · exact .inl ⟨rfl, rfl⟩

theorem Linked.parentOf_succ (h : Linked copied) (hlt : index + 1 < copied.length) :
    parentOf copied[index + 1] = uuidOf copied[index] :=
  isChain_iff_getElem.mp h.linked index hlt

/-- The chain opens with progress records, and its root names one of them as its parent. -/
def OpensWithLoop (copied : List Json) : Prop :=
  ∃ root ∈ copied.head?, ∃ record ∈ copied.takeWhile isProgress, parentOf root = uuidOf record

variable (mapping) in
theorem Linked.run_of_writable (h : Linked copied) {i : ℕ} (hlt : index < copied.length)
    (hi : i ≤ index) (hwritable : isProgress copied[i] = false) :
    (run (relinkRound (recordsByUuid copied) mapping) (index + 1)
      (uuidOf copied[index])).isSome = true := by
  induction index with
  | zero =>
    obtain rfl := Nat.le_zero.mp hi
    rcases h.round mapping (getElem_mem hlt) with ⟨hp, -⟩ | ⟨-, found, hround⟩
    · cases hp.symm.trans hwritable
    · rw [run_leave hround]
      rfl
  | succ index ih =>
    rcases h.round mapping (getElem_mem hlt) with ⟨hp, hround⟩ | ⟨-, found, hround⟩
    · rw [run_next hround, h.parentOf_succ hlt]
      have hne : i ≠ index + 1 := by
        rintro rfl
        cases hp.symm.trans hwritable
      exact ih (Nat.lt_of_succ_lt hlt) (Nat.lt_succ_iff.mp (Nat.lt_of_le_of_ne hi hne)) hwritable
    · rw [run_leave hround]
      rfl

/-- Where the loop ends at the parent of the root, it ends at every record. -/
theorem Linked.run_of_root (h : Linked copied) {rounds : ℕ} (hlt : index < copied.length)
    (hroot : (run (relinkRound (recordsByUuid copied) mapping) rounds
      (parentOf copied[0])).isSome = true) :
    (run (relinkRound (recordsByUuid copied) mapping) (rounds + index + 1)
      (uuidOf copied[index])).isSome = true := by
  induction index with
  | zero =>
    rcases h.round mapping (getElem_mem hlt) with ⟨-, hround⟩ | ⟨-, found, hround⟩
    · rwa [run_next hround]
    · rw [run_leave hround]
      rfl
  | succ index ih =>
    rcases h.round mapping (getElem_mem hlt) with ⟨-, hround⟩ | ⟨-, found, hround⟩
    · rw [run_next hround, h.parentOf_succ hlt]
      exact ih (Nat.lt_of_succ_lt hlt) hroot
    · rw [run_leave hround]
      rfl

/-- A progress record that no writable one precedes is among those the chain opens with. -/
theorem mem_takeWhile_of_le (hlt : index < copied.length)
    (hprogress : ∀ i (hi : i ≤ index), isProgress copied[i] = true) :
    copied[index] ∈ copied.takeWhile isProgress := by
  induction copied generalizing index with
  | nil => cases hlt
  | cons first rest ih =>
    have hfirst : isProgress first = true := hprogress 0 (Nat.zero_le _)
    rw [takeWhile_cons_of_pos hfirst]
    cases index with
    | zero => exact mem_cons_self
    | succ index =>
      exact mem_cons_of_mem _ (ih (Nat.lt_of_succ_lt_succ hlt) fun i hi =>
        hprogress (i + 1) (Nat.succ_le_succ hi))

variable (mapping) in
theorem Linked.root_ends (h : Linked copied) (hpos : 0 < copied.length)
    (hloop : ¬ OpensWithLoop copied) :
    (run (relinkRound (recordsByUuid copied) mapping) (copied.length + 1)
      (parentOf copied[0])).isSome = true := by
  rcases hparent : parentOf copied[0] with - | uuid
  · rfl
  rcases hlookup : (recordsByUuid copied).lookup uuid with - | record
  · have hround : relinkRound (recordsByUuid copied) mapping (some uuid) = .leave none := by
      rw [relinkRound, hlookup]
    rw [run_leave hround]
    rfl
  obtain ⟨hmem, huuid⟩ := lookup_recordsByUuid_mem hlookup
  obtain ⟨index, hlt, rfl⟩ := mem_iff_getElem.mp hmem
  by_cases hprogress : ∀ i (hi : i ≤ index), isProgress copied[i] = true
  · refine absurd ⟨copied[0], ?_, copied[index], mem_takeWhile_of_le hlt hprogress, ?_⟩ hloop
    · rw [head?_eq_getElem?, getElem?_eq_getElem hpos, Option.mem_def]
    · rw [hparent, huuid]
  · obtain ⟨i, hi, hwritable⟩ : ∃ i, ∃ hi : i ≤ index, ¬ isProgress copied[i] = true := by
      simpa using hprogress
    obtain ⟨found, hfound⟩ := Option.isSome_iff_exists.mp
      (h.run_of_writable mapping hlt hi (by simpa using hwritable))
    rw [← huuid, run_mono hfound (by omega)]
    rfl

/-- **Relinking ends** in a chain that does not open with a loop. -/
theorem relinking_ends (h : Linked copied) (hloop : ¬ OpensWithLoop copied)
    (hmem : record ∈ copied) (hfuel : 2 * copied.length < fuel) :
    (run (relinkRound (recordsByUuid copied) mapping) fuel (parentOf record)).isSome = true := by
  obtain ⟨index, hlt, rfl⟩ := mem_iff_getElem.mp hmem
  have hroot := h.root_ends mapping (Nat.lt_of_le_of_lt (Nat.zero_le _) hlt) hloop
  cases index with
  | zero =>
    obtain ⟨found, hfound⟩ := Option.isSome_iff_exists.mp hroot
    rw [run_mono hfound (by omega)]
    rfl
  | succ index =>
    obtain ⟨found, hfound⟩ := Option.isSome_iff_exists.mp
      (h.run_of_root (Nat.lt_of_succ_lt hlt) hroot)
    rw [h.parentOf_succ hlt, run_mono hfound (by omega)]
    rfl

/-- The first writable record follows what the chain opens with. -/
theorem split_of_filter {rest : List Json}
    (hfirst : copied.filter (fun record => !isProgress record) = record :: rest) :
    ∃ opening tail, copied = opening ++ record :: tail ∧ copied.takeWhile isProgress = opening ∧
      ∀ progress ∈ opening, isProgress progress = true := by
  induction copied with
  | nil => cases hfirst
  | cons first more ih =>
    by_cases hp : isProgress first = true
    · rw [filter_cons_of_neg (by simp [hp])] at hfirst
      obtain ⟨opening, tail, hsplit, htake, hopening⟩ := ih hfirst
      refine ⟨first :: opening, tail, by rw [hsplit, cons_append], ?_,
        forall_mem_cons.mpr ⟨hp, hopening⟩⟩
      rw [takeWhile_cons_of_pos hp, htake]
    · rw [filter_cons_of_pos (by simpa using hp)] at hfirst
      cases hfirst
      exact ⟨[], more, rfl, takeWhile_cons_of_neg hp, by simp⟩

/-- **Relinking does not end** at the first writable record of a chain that opens with a loop. -/
theorem relinking_stuck (h : Linked copied) (hloop : OpensWithLoop copied) {rest : List Json}
    (hfirst : copied.filter (fun record => !isProgress record) = record :: rest) :
    run (relinkRound (recordsByUuid copied) mapping) fuel (parentOf record) = none := by
  obtain ⟨root, hroot, first, hfirst', hparent⟩ := hloop
  obtain ⟨opening, tail, hsplit, hopening, hprogress⟩ := split_of_filter hfirst
  rw [hopening] at hfirst'
  have hlength : copied.length = opening.length + (tail.length + 1) := by
    rw [hsplit, length_append, length_cons]
  have hget : ∀ k (hk : k < opening.length) (hk' : k < copied.length), copied[k] = opening[k] := by
    intro k hk hk'
    simp [hsplit, hk]
  -- the states are the uuids of the opening, and the last of them is the parent of `record`
  refine run_eq_none (S := fun parent => ∃ progress ∈ opening, parent = uuidOf progress) ?_ ?_
  · rintro _ ⟨progress, hmem, rfl⟩
    have hcopied : progress ∈ copied := by
      rw [hsplit]
      exact mem_append_left _ hmem
    have hround := h.round mapping hcopied
    rw [hprogress progress hmem] at hround
    obtain ⟨-, hnext⟩ := hround.resolve_right fun hno => Bool.noConfusion hno.1
    refine ⟨_, hnext, ?_⟩
    obtain ⟨k, hk, rfl⟩ := mem_iff_getElem.mp hmem
    cases k with
    | zero =>
      rw [head?_eq_getElem?, getElem?_eq_getElem (by omega), Option.mem_def,
        Option.some.injEq, hget 0 hk (by omega)] at hroot
      exact ⟨first, hfirst', by rw [hroot, hparent]⟩
    | succ k =>
      refine ⟨opening[k], getElem_mem _, ?_⟩
      rw [← hget _ _ (by omega), ← hget _ _ (by omega), h.parentOf_succ (by omega)]
  · obtain ⟨last, hlast⟩ : ∃ last, opening.length = last + 1 :=
      Nat.exists_eq_succ_of_ne_zero (by have := length_pos_of_mem hfirst'; omega)
    have hlast' : last + 1 < copied.length := by omega
    have hrecord : copied[last + 1] = record := by
      simp [hsplit, ← hlast]
    refine ⟨opening[last], getElem_mem _, ?_⟩
    rw [← hrecord, h.parentOf_succ (by omega), hget _ (by omega)]

end

/-! ## The fork -/

section

universe u

variable {ε α β : Type u}

/-- The computation does not run into a loop that goes on. -/
def Ends (x : ExceptT ε Option α) : Prop := x.run.isSome = true

variable {f : α → ExceptT ε Option β}

theorem ends_bind {x : ExceptT ε Option α} (hx : Ends x)
    (hf : ∀ a, Ends (f a)) : Ends (x >>= f) := by
  obtain ⟨result, hresult⟩ := Option.isSome_iff_exists.mp hx
  rw [Ends, ExceptT.run_bind, hresult]
  cases result with
  | error e => rfl
  | ok a => exact hf a

theorem ends_mapM {xs : List α} (h : ∀ x ∈ xs, Ends (f x)) : Ends (xs.mapM f) := by
  induction xs with
  | nil => rfl
  | cons x xs ih =>
    rw [mapM_cons]
    refine ends_bind (h x mem_cons_self) fun y =>
      ends_bind (ih fun z hz => h z (mem_cons_of_mem _ hz)) fun ys => rfl

/-- A loop that goes on is all there is of a computation that starts with it. -/
theorem not_ends_bind {x : ExceptT ε Option α} (hx : x.run = none) : ¬ Ends (x >>= f) := by
  rw [Ends, ExceptT.run_bind, hx]
  exact Bool.false_ne_true

end

section

variable {request : ForkRequest} {transcript : TranscriptIndex} {fuel cutoff : ℕ}

theorem forkRecord_ends {byUuid : List (Str × Json)} {mapping : List (Str × Str)} {isLast : Bool}
    {original : Json}
    (h : (run (relinkRound byUuid mapping) fuel (parentOf original)).isSome = true) :
    Ends (forkRecord fuel request byUuid mapping isLast original) := by
  rw [forkRecord]
  split
  · rfl
  · split
    · rfl
    · obtain ⟨newParent, hrun⟩ := Option.isSome_iff_exists.mp h
      rw [hrun]
      refine ends_bind (by rw [Ends, ExceptT.run_lift]; rfl) fun newParent => ?_
      split <;> rfl

theorem forkRecord_stuck {byUuid : List (Str × Json)} {isLast : Bool} {original : Json}
    {copied : List Json} (hmem : original ∈ copied) (hnamed : (uuidOf original).isSome = true)
    (h : run (relinkRound byUuid (uuidMapping request copied)) fuel (parentOf original) = none) :
    (forkRecord fuel request byUuid (uuidMapping request copied) isLast original).run = none := by
  obtain ⟨uuid, huuid⟩ := Option.isSome_iff_exists.mp hnamed
  have hmapped : ((uuidMapping request copied).lookup uuid).isSome = true := by
    have hdrawn : uuid ∈ copied.filterMap uuidOf := mem_filterMap.mpr ⟨original, hmem, huuid⟩
    obtain ⟨n, hn⟩ := mem_iff_getElem?.mp hdrawn
    rw [List.lookup_isSome_iff]
    refine ⟨(uuid, request.newUuid n), ?_, beq_self_eq_true uuid⟩
    rw [uuidMapping, mem_reverse, mem_map]
    exact ⟨(uuid, n), mk_mem_zipIdx_iff_getElem?.mpr hn, rfl⟩
  obtain ⟨newUuid, hnew⟩ := Option.isSome_iff_exists.mp hmapped
  rw [forkRecord, huuid]
  simp only [hnew, h]
  rfl

theorem forkRecords_stuck {copied : List Json} (hlinked : Linked copied)
    (hloop : OpensWithLoop copied) (hex : ∃ record ∈ copied, isProgress record = false) :
    ¬ Ends (forkRecords fuel request transcript copied) := by
  obtain ⟨record, hmem, hno⟩ := hex
  have hmem : record ∈ copied.filter fun record => !isProgress record :=
    mem_filter.mpr ⟨hmem, by rw [hno]; rfl⟩
  rcases hwritable : copied.filter fun record => !isProgress record with - | ⟨first, rest⟩
  · rw [hwritable] at hmem
    cases hmem
  have hfirst : first ∈ copied := by
    refine mem_of_mem_filter (p := fun record => !isProgress record) ?_
    rw [hwritable]
    exact mem_cons_self
  simp only [forkRecords, hwritable, isEmpty_cons, Bool.false_eq_true, if_false]
  refine not_ends_bind ?_
  rw [zipIdx_cons, mapM_cons, ExceptT.run_bind, forkRecord_stuck hfirst
    (hlinked.named _ hfirst) (relinking_stuck hlinked hloop hwritable)]
  rfl

/-- **The fork ends** just if the records it copies do not open with a loop that a writable one
follows. -/
theorem forkRecords_ends_iff {copied : List Json} (hlinked : Linked copied)
    (hfuel : 2 * copied.length < fuel) :
    Ends (forkRecords fuel request transcript copied) ↔
      ¬ (OpensWithLoop copied ∧ ∃ record ∈ copied, isProgress record = false) := by
  refine ⟨fun hends hno => forkRecords_stuck hlinked hno.1 hno.2 hends, fun hno => ?_⟩
  by_cases hempty : copied.filter (fun record => !isProgress record) = []
  · simp only [forkRecords, hempty, isEmpty_nil, if_true]
    rfl
  obtain ⟨first, hfirst⟩ := exists_mem_of_ne_nil _ hempty
  have hloop : ¬ OpensWithLoop copied := fun hloop =>
    hno ⟨hloop, first, by simpa using hfirst⟩
  simp only [forkRecords, List.isEmpty_iff, if_neg hempty]
  refine ends_bind (ends_mapM fun original horiginal => forkRecord_ends ?_) fun _ => rfl
  exact relinking_ends hlinked hloop (mem_of_mem_filter (fst_mem_of_mem_zipIdx horiginal)) hfuel

/-- A chain opens with a loop if a part of it from its root on does. -/
theorem OpensWithLoop.append {copied : List Json} (h : OpensWithLoop copied) (rest : List Json) :
    OpensWithLoop (copied ++ rest) := by
  obtain ⟨root, hroot, record, hrecord, hparent⟩ := h
  refine ⟨root, by rw [head?_append, hroot, Option.some_or, Option.mem_def], record, ?_, hparent⟩
  rw [takeWhile_append]
  split
  · exact mem_append_left _ (takeWhile_subset _ hrecord)
  · exact hrecord

/-- A prompt with a uuid is an entry. -/
theorem isTranscriptEntry_of_prompt {record : Json} {uuid : Str} (huuid : uuidOf record = some uuid)
    (hprompt : (userPromptText record).isSome = true) : isTranscriptEntry record = true := by
  have huser : (record.get "type").isText "user" = true := by
    rw [userPromptText] at hprompt
    split_ifs at hprompt with hside
    · cases hprompt
    · rw [conversationUserText] at hprompt
      split_ifs at hprompt with hno
      · cases hprompt
      · simp only [Bool.or_eq_true, not_or, Bool.not_eq_true, Bool.not_eq_false'] at hno
        exact hno.1.1.1.1
  rw [isTranscriptEntry, Bool.and_eq_true]
  rw [uuidOf] at huuid
  exact ⟨by simp [TRANSCRIPT_ENTRY_TYPES, huser], by rw [huuid]; rfl⟩

theorem findCutoff_eq_none (h : transcriptEntries transcript.records = []) :
    findCutoff request transcript = none := by
  rw [findCutoff, findIdx?_eq_none_iff]
  intro index _
  by_contra hfound
  rw [Bool.not_eq_false, Bool.and_eq_true, decide_eq_true_eq] at hfound
  have hmem := mem_transcriptEntries.mpr (isTranscriptEntry_of_prompt hfound.1 hfound.2)
  rw [h] at hmem
  cases hmem

theorem recordsBefore_eq {chain : List ℕ} {records : List Json} (hchain : transcript.chain = chain)
    (hrecords : transcript.records = records)
    (h : ∀ index ∈ chain, index ∈ transcriptEntries records) :
    recordsBefore transcript cutoff = (chain.take cutoff).map (recordAt records) := by
  rw [recordsBefore, hchain, hrecords, ← filterMap_eq_map]
  refine filterMap_congr fun index hindex => ?_
  have hlt := mem_range.mp (mem_of_mem_filter (h index (mem_of_mem_take hindex)))
  rw [Function.comp_apply, recordAt, getD_eq_getElem?_getD, getElem?_eq_getElem hlt,
    Option.getD_some]

/-- The part of the chain before a prompt has what relinking needs. -/
theorem ActiveChain.linked_take {chain : List ℕ} {records : List Json}
    (h : ActiveChain records chain) (cutoff : ℕ) :
    Linked ((chain.take cutoff).map (recordAt records)) where
  named := by
    intro record hrecord
    obtain ⟨index, hindex, rfl⟩ := mem_map.mp hrecord
    obtain ⟨uuid, huuid⟩ := uuidAt_of_mem (h.entries index (mem_of_mem_take hindex))
    exact Option.isSome_of_eq_some huuid
  distinct := by
    rw [map_map]
    exact (h.distinct.sublist ((take_sublist cutoff chain).map _))
  linked := by
    rw [isChain_map]
    refine (h.linked.take cutoff).imp fun parent index hlink => ?_
    obtain ⟨uuid, hparent, hlookup⟩ := Option.bind_eq_some_iff.mp hlink
    exact hparent.trans (lookup_byUuid hlookup).2.symm

/-- **Forking a transcript.**  Enough rounds find the chain of any records, and fork it in front of
any prompt unless it opens with a loop. -/
theorem fork_ends (records : List Json) :
    ∃ enough, ∀ fuel, enough ≤ fuel → ∃ index, TranscriptIndex.read fuel records = some index ∧
      (transcriptEntries records = [] → index.chain = List.range records.length) ∧
      (transcriptEntries records ≠ [] → ActiveChain records index.chain) ∧
      (¬ OpensWithLoop (index.chain.map (recordAt records)) →
        ∀ request, Ends (buildForkRecords fuel request index)) := by
  refine ⟨2 * records.length + 1, fun fuel hfuel ↦ ?_⟩
  have hlength : records.length ≤ 2 * records.length := by omega
  obtain ⟨found, hfound, hempty, hchain⟩ := activeChain records (Nat.lt_of_le_of_lt hlength hfuel)
  refine ⟨_, by rw [TranscriptIndex.read, hfound]; rfl, hempty, hchain, fun hloop request ↦ ?_⟩
  rw [buildForkRecords]
  by_cases hentries : transcriptEntries records = []
  · rw [findCutoff_eq_none hentries]
    rfl
  split
  · rfl
  · rename_i cutoff _
    have hactive := hchain hentries
    rw [recordsBefore_eq rfl rfl hactive.entries]
    rw [forkRecords_ends_iff (hactive.linked_take cutoff)]
    · rintro ⟨hopens, -⟩
      refine hloop ?_
      have happend := hopens.append ((found.1.drop cutoff).map (recordAt records))
      rwa [← map_append, take_append_drop] at happend
    · rw [length_map]
      have hlen : found.1.length ≤ records.length := by
        have hsub : found.1 ⊆ List.range records.length := fun index hindex ↦
          mem_of_mem_filter (hactive.entries index hindex)
        have hnodup : found.1.Nodup := hactive.distinct.of_map _
        simpa using (subperm_of_subset hnodup hsub).length_le
      have htake := length_take_le' cutoff found.1
      omega

/-- A transcript that opens with a progress record which is its own parent. -/
def selfParented : List Json :=
  [.object [("type", .text "progress"), ("uuid", .text "p"), ("parentUuid", .text "p")],
    .object [("type", .text "assistant"), ("uuid", .text "a"), ("parentUuid", .text "p")],
    .object [("type", .text "user"), ("uuid", .text "u"), ("parentUuid", .text "a"),
      ("message", .object [("content", .text "again")])]]

/-- Records without an entry, two of them with one uuid. -/
def withoutEntries : List Json :=
  [.object [("type", .text "summary"), ("uuid", .text "s")],
    .object [("type", .text "summary"), ("uuid", .text "s")]]

def rewindTo (uuid : String) : ForkRequest where
  sourceSessionId := "session".toList
  userMessageId := uuid.toList
  newSessionId := "rewound".toList
  now := "2026-08-07T02:00:00.000Z".toList
  newUuid n := replicate n 'f'

/-- The chain of records without an entry repeats a uuid, and in front of the last prompt of
`selfParented` the fork never ends. -/
theorem fork_stuck :
    (∃ index, TranscriptIndex.read 3 withoutEntries = some index ∧
      ¬ (index.chain.map (uuidAt withoutEntries)).Nodup) ∧
    ∃ index, TranscriptIndex.read 7 selfParented = some index ∧
      ∀ fuel, ¬ Ends (buildForkRecords fuel (rewindTo "u") index) := by
  have hlegacy : activeChainIndices withoutEntries 3 = some ([0, 1], none) := by decide +kernel
  have hchain : activeChainIndices selfParented 7 = some ([0, 1, 2], none) := by decide +kernel
  refine ⟨⟨_, by rw [TranscriptIndex.read, hlegacy]; rfl, by decide +kernel⟩,
    _, by rw [TranscriptIndex.read, hchain]; rfl, fun fuel ↦ ?_⟩
  have hfuel : selfParented.length < 7 := by decide
  obtain ⟨found, hfound, -, hactive⟩ := activeChain selfParented hfuel
  obtain rfl := Option.some.inj (hchain.symm.trans hfound)
  have hactive := hactive (by decide +kernel)
  have hcutoff : findCutoff (rewindTo "u") ⟨selfParented, [0, 1, 2], [], false, none⟩ = some 2 := by
    decide +kernel
  rw [buildForkRecords]
  split
  · rename_i h
    cases h.symm.trans hcutoff
  · rename_i cutoff h
    obtain rfl := Option.some.inj (hcutoff.symm.trans h)
    rw [recordsBefore_eq rfl rfl hactive.entries]
    have hprogress : isProgress (recordAt selfParented 0) = true := by decide +kernel
    refine forkRecords_stuck (hactive.linked_take 2)
      ⟨_, rfl, recordAt selfParented 0, ?_, by decide +kernel⟩
      ⟨recordAt selfParented 1, by simp, by decide +kernel⟩
    rw [take_succ_cons, map_cons, takeWhile_cons_of_pos hprogress]
    exact mem_cons_self

end

end NiumaTerm.ClaudeCode
