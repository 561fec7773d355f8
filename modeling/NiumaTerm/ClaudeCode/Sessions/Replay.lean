import NiumaTerm.ClaudeCode.Records
import NiumaTerm.ClaudeCode.Sessions.Fork

/-!
# Replaying a Claude transcript

`parseTranscript` reads the records of the active chain into turns of items.  The items of all turns are
one list, since a result completes an item placed long before.  A record is accounted for first and shown
after that.  A sum of tokens stops where it leaves 64 bits.
-/

namespace NiumaTerm.ClaudeCode

open Rust Transcript

structure TurnBuilder where
  start : ℕ := 0
  seconds : Option ℕ := none
  outputTokens : Option ℕ := none
  interrupted : Bool := false

structure ReplayItem where
  item : Item
  time : Option ℤ

structure ReplayTurn where
  items : List ReplayItem
  seconds : Option ℕ
  outputTokens : Option ℕ
  interrupted : Bool

/-- What is known of the whole transcript before it is walked, and what is not the program's: the
reading of a time and the uuids it draws. -/
structure ReplayContext where
  sidechain : Bool
  durations : List (Str × ℕ)
  retracted : List Str
  retractedTools : List Str
  unixSeconds : Str → Option ℤ
  newUuid : ℕ → Str

structure Reading where
  items : List ReplayItem := []
  /-- The turns before the last one. -/
  turns : List TurnBuilder := []
  turn : TurnBuilder := {}
  pendingTools : List (Str × ℕ) := []
  messageSeq : ℕ := 0
  thinkingSeq : ℕ := 0
  compactionSeq : ℕ := 0
  summaryAwaitingBoundary : Option ℕ := none
  boundaryAwaitingSummary : Option ℕ := none

/-! ## Accounting -/

/-- `durationMs` by the uuid of the message a turn ended on; the last record of a message counts. -/
def turnDurations (records : List Json) : List (Str × ℕ) :=
  (records.filterMap fun record =>
    if (record.get "type").isText "system" && (record.get "subtype").isText "turn_duration" then
      (parentOf record).bind fun parent =>
        (record.get "durationMs").asU64.map fun duration => (parent, duration)
    else none).reverse

/-- Output tokens an assistant record reported for itself. -/
def outputTokens (record : Json) : Option ℕ :=
  if (record.get "type").isText "assistant" then
    (((record.get "message").get "usage").get "output_tokens").asU64
  else none

def durationOf (durations : List (Str × ℕ)) (record : Json) : Option ℕ :=
  (uuidOf record).bind fun uuid => durations.lookup uuid

/-- `+` on `u64`. -/
def addTokens (total tokens : Option ℕ) : Option (Option ℕ) :=
  match total, tokens with
  | some total, some tokens => if total + tokens < 2 ^ 64 then some (some (total + tokens)) else none
  | total, tokens => some (total.or tokens)

def TurnBuilder.account (durations : List (Str × ℕ)) (turn : TurnBuilder) (record : Json) :
    Option TurnBuilder :=
  (addTokens turn.outputTokens (ClaudeCode.outputTokens record)).map fun total =>
    { turn with
      seconds := ((durationOf durations record).map (· / 1000)).or turn.seconds
      interrupted := turn.interrupted || isInterruption record
      outputTokens := total }

/-! ## Showing a record -/

def replayedCompactionId (record : Json) (sequence : ℕ) : Str :=
  match uuidOf record with
  | some uuid => "compaction-".toList ++ uuid
  | none => "replay-compaction-".toList ++ (Nat.repr sequence).toList

def promptText (sidechain : Bool) (record : Json) : Option Str :=
  (conversationUserText record).map fun text => if sidechain then trim text else cleanPrompt text

namespace Reading

variable (context : ReplayContext) (s : Reading) (record : Json)

def push (item : Item) (time : Option ℤ) : Reading :=
  { s with items := s.items ++ [⟨item, time⟩] }

/-- The result of a call completes the item of the call. -/
def completeTool (block : Json) : Reading :=
  if !(block.get "type").isText "tool_result" then s
  else
    match (block.get "tool_use_id").asStr with
    | none => s
    | some id =>
      match s.pendingTools.lookup id with
      | none => s
      | some index =>
        { s with
          pendingTools := s.pendingTools.filter fun pending => pending.1 ≠ id
          items := s.items.modify index fun entry =>
            { entry with item := completeToolItem entry.item block } }

def completeReplayedTools : Reading :=
  (((record.get "message").get "content").asArray.getD []).foldl completeTool s

/-- The compaction in a row, if there is one. -/
def compactionAt (index : Option ℕ) : Option (ℕ × Str × Compaction) :=
  index.bind fun index =>
    match s.items[index]?.map ReplayItem.item with
    | some (.compaction id detail) => some (index, id, detail)
    | _ => none

def showSummary (summary : Str) (time : Option ℤ) : Reading :=
  let cleared := { s with boundaryAwaitingSummary := none }
  match s.compactionAt s.boundaryAwaitingSummary with
  | some (index, id, detail) =>
    { cleared with items := s.items.modify index fun entry =>
        { entry with item := .compaction id { detail with summary := some summary } } }
  | none =>
    { cleared with
      compactionSeq := s.compactionSeq + 1
      summaryAwaitingBoundary := some s.items.length
      items := s.items ++ [⟨.compaction (replayedCompactionId record (s.compactionSeq + 1))
        { parseCompaction .null with summary := some summary }, time⟩] }

def showPrompt (text : Str) (time : Option ℤ) : Reading :=
  if text.isEmpty then s
  else
    let opened :=
      if s.turn.start < s.items.length then
        { s with turns := s.turns ++ [s.turn], turn := { start := s.items.length } }
      else s
    opened.push (.userMessage (some text)) time

def showUser (time : Option ℤ) : Reading :=
  let s := s.completeReplayedTools record
  match compactionSummaryText record with
  | some summary => s.showSummary record summary time
  | none =>
    match promptText context.sidechain record with
    | some text => s.showPrompt text time
    | none => s

def showBoundary (time : Option ℤ) : Reading :=
  let detail := parseCompaction (compactionMetadata record)
  let cleared := { s with summaryAwaitingBoundary := none }
  match s.compactionAt s.summaryAwaitingBoundary with
  | some (index, _, summed) =>
    let id := replayedCompactionId record s.compactionSeq
    { cleared with items := s.items.modify index fun entry =>
        { entry with item := .compaction id { detail with summary := summed.summary } } }
  | none =>
    { cleared with
      compactionSeq := s.compactionSeq + 1
      boundaryAwaitingSummary := some s.items.length
      items := s.items ++ [⟨.compaction (replayedCompactionId record (s.compactionSeq + 1))
        detail, time⟩] }

def showBlock (apiError : Bool) (time : Option ℤ) (s : Reading) (block : Json) : Reading :=
  match assistantBlock block with
  | some (.text text) =>
    if text.isEmpty then s
    else if apiError then s.push (.error text) time
    else
      let id := "replay-message-".toList ++ (Nat.repr s.messageSeq).toList
      { (s.push (.agentMessage id (some text) none) time) with messageSeq := s.messageSeq + 1 }
  | some (.thinking summary) =>
    if summary.isEmpty then s
    else
      match (block.get "id").asStr with
      | some id => s.push (.reasoning id (some summary)) time
      | none =>
        let id := "replay-thinking-".toList ++ (Nat.repr s.thinkingSeq).toList
        { (s.push (.reasoning id (some summary)) time) with thinkingSeq := s.thinkingSeq + 1 }
  | some (.toolUse id item) =>
    if id ∈ context.retractedTools then s
    else
      { (s.push item time) with
        pendingTools := (id, s.items.length) :: s.pendingTools.filter fun pending => pending.1 ≠ id }
  | none => s

/-- Shows a record that is accounted for. -/
def display : Reading :=
  let time := (record.get "timestamp").asStr.bind context.unixSeconds
  if (uuidOf record).any fun uuid => uuid ∈ context.retracted then s
  else
    match modelNotice (context.newUuid s.items.length) record with
    | some item => s.push item time
    | none =>
      if (record.get "type").isText "user" then s.showUser context record time
      else if (record.get "type").isText "system" && (record.get "subtype").isText "compact_boundary"
        then s.showBoundary record time
      else if (record.get "type").isText "assistant" then
        match ((record.get "message").get "content").asArray with
        | none => s
        | some blocks => blocks.foldl (showBlock context (isApiError record) time) s
      else s

def read : Option Reading :=
  (s.turn.account context.durations record).map fun turn =>
    { s with turn := turn }.display context record

end Reading

/-! ## The turns -/

def MODEL_NOTICE_SUBTYPES : List String :=
  ["model_refusal_fallback", "model_fallback", "model_consent_fallback"]

/-- The indices of the chain and of the notices that hang off it, directly or over another one. -/
def replayIndices (transcript : TranscriptIndex) : List ℕ :=
  let active := transcript.chain.filterMap fun index => transcript.records[index]?
  let noticed := (List.range transcript.records.length).foldl (fun (found : List ℕ × List Str) index =>
    let record := recordAt transcript.records index
    if index ∈ found.1 || !(record.get "type").isText "system" ||
        !MODEL_NOTICE_SUBTYPES.any (record.get "subtype").isText ||
        !(parentOf record).any (fun parent => parent ∈ found.2) then found
    else (index :: found.1, (uuidOf record).toList ++ found.2))
    (transcript.chain, active.filterMap uuidOf)
  (List.range transcript.records.length).filter fun index => index ∈ noticed.1

/-- The records that are read, in the order of the file. -/
def replayRecords (transcript : TranscriptIndex) (sidechain : Bool) : List Json :=
  ((replayIndices transcript).map (recordAt transcript.records)).filter fun record =>
    (record.get "isSidechain").asBool.getD false = sidechain &&
      (record.get "isMeta").asBool ≠ some true

/-- What is known of the transcript before it is walked. -/
def replayContext (transcript : TranscriptIndex) (sidechain : Bool)
    (unixSeconds : Str → Option ℤ) (newUuid : ℕ → Str) : ReplayContext :=
  let records := replayRecords transcript sidechain
  let retracted := records.flatMap retractedMessageUuids
  let withdrawn := records.filter fun record =>
    (uuidOf record).any (fun uuid => uuid ∈ retracted) && (record.get "type").isText "user"
  { sidechain := sidechain
    durations := turnDurations transcript.records
    retracted := retracted
    retractedTools := withdrawn.flatMap fun record =>
      (((record.get "message").get "content").asArray.getD []).filterMap fun block =>
        if (block.get "type").isText "tool_result" then (block.get "tool_use_id").asStr else none
    unixSeconds := unixSeconds
    newUuid := newUuid }

def turnEnd (items : List ReplayItem) (rest : List TurnBuilder) : ℕ :=
  match rest.head? with
  | some next => min next.start items.length
  | none => items.length

/-- The items of each turn, without the turns that have none. -/
def sliceTurns (items : List ReplayItem) : List TurnBuilder → List ReplayTurn
  | [] => []
  | turn :: rest =>
    let shown := (items.take (turnEnd items rest)).drop turn.start
    if shown.isEmpty then sliceTurns items rest
    else ⟨shown, turn.seconds, turn.outputTokens, turn.interrupted⟩ :: sliceTurns items rest

def Reading.slice (s : Reading) : List ReplayTurn := sliceTurns s.items (s.turns ++ [s.turn])

def parseTranscript (transcript : TranscriptIndex) (sidechain : Bool)
    (unixSeconds : Str → Option ℤ) (newUuid : ℕ → Str) : Option (List ReplayTurn) :=
  ((replayRecords transcript sidechain).foldlM
    (Reading.read (replayContext transcript sidechain unixSeconds newUuid)) {}).map Reading.slice

end NiumaTerm.ClaudeCode
