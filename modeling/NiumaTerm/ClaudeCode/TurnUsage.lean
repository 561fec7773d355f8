import NiumaTerm.ClaudeCode.Records

/-!
# The output tokens of a live turn

`TurnOutputUsage` holds the sum of the responses that ended and the count of the one that streams.
The messages of the stream reach it as `UsageReport`s: a response starts, or the count of the
current one is replaced.

* `total_reports` : after the reports of some responses the total is the sum of their last counts
-/

namespace NiumaTerm.ClaudeCode

open Rust List

/-- `u64::saturating_add` -/
def saturatingAdd (a b : ℕ) : ℕ := min (a + b) (2 ^ 64 - 1)

structure ClaudeUsage where
  totalTokens : ℕ
  inputTokens : Option ℕ
  cacheReadInputTokens : Option ℕ
  cacheWriteInputTokens : Option ℕ
  outputTokens : Option ℕ

/-- The usage of a message; none if it counts no token at all. -/
def parseClaudeUsage (usage : Json) : Option ClaudeUsage :=
  let directInput := (usage.get "input_tokens").asU64
  let cacheWrite := (usage.get "cache_creation_input_tokens").asU64
  let cacheRead := (usage.get "cache_read_input_tokens").asU64
  let output := (usage.get "output_tokens").asU64
  let input := ([directInput, cacheWrite, cacheRead].filterMap id).foldl saturatingAdd 0
  let total := saturatingAdd input (output.getD 0)
  if 0 < total then
    some
      { totalTokens := total
        inputTokens :=
          if directInput.isSome || cacheWrite.isSome || cacheRead.isSome then some input else none
        cacheReadInputTokens := cacheRead
        cacheWriteInputTokens := cacheWrite
        outputTokens := output }
  else none

/-! ## One turn -/

structure TurnOutputUsage where
  completedResponses : ℕ := 0
  currentResponse : Option ℕ := none

namespace TurnOutputUsage

variable (u : TurnOutputUsage) (outputTokens : ℕ)

def total : ℕ := saturatingAdd u.completedResponses (u.currentResponse.getD 0)

def startResponse : TurnOutputUsage :=
  { completedResponses := saturatingAdd u.completedResponses (u.currentResponse.getD 0)
    currentResponse := some outputTokens }

def updateResponse : TurnOutputUsage := { u with currentResponse := some outputTokens }

end TurnOutputUsage

/-- What a message of the stream tells of the output. -/
inductive UsageReport
  | start (outputTokens : ℕ)
  | update (outputTokens : ℕ)
  deriving DecidableEq

def TurnOutputUsage.apply (u : TurnOutputUsage) : UsageReport → TurnOutputUsage
  | .start outputTokens => u.startResponse outputTokens
  | .update outputTokens => u.updateResponse outputTokens

/-- A message of the process that can hold usage, or what withdraws messages. -/
inductive LiveMessage
  | streamEvent (message : Json)
  | assistant (message : Json)
  | retraction (uuids : List Str)

/-- The report in a stream event; a child's events have none. -/
def streamReport (message : Json) : Option UsageReport :=
  if !(message.get "parent_tool_use_id").isNull then none
  else
    let event := message.get "event"
    if (event.get "type").isText "message_start" then
      let usage := parseClaudeUsage ((event.get "message").get "usage")
      some (.start ((usage.bind ClaudeUsage.outputTokens).getD 0))
    else if (event.get "type").isText "message_delta" then
      ((event.get "usage").get "output_tokens").asU64.map .update
    else none

/-- The report in a snapshot, given the messages that are withdrawn. -/
def assistantReport (retracted : List Str) (message : Json) : Option UsageReport :=
  if (message.get "uuid").asStr.any fun uuid => uuid ∈ retracted then none
  else if ((message.get "message").get "content").asArray.isNone then none
  else
    ((parseClaudeUsage ((message.get "message").get "usage")).bind ClaudeUsage.outputTokens).map
      .update

/-- What the messages of a turn report, and the messages withdrawn by then. -/
def reportsOf (retracted : List Str) : List LiveMessage → List UsageReport
  | [] => []
  | .retraction uuids :: rest => reportsOf (retracted ++ uuids) rest
  | .streamEvent message :: rest => (streamReport message).toList ++ reportsOf retracted rest
  | .assistant message :: rest =>
    if !(message.get "parent_tool_use_id").isNull then reportsOf retracted rest
    else
      let retracted := retracted ++ retractedMessageUuids message
      (assistantReport retracted message).toList ++ reportsOf retracted rest

/-- The totals that the turn publishes, in order. -/
def totals (u : TurnOutputUsage) : List UsageReport → List ℕ
  | [] => []
  | report :: rest => (u.apply report).total :: totals (u.apply report) rest

/-! ## The sum of the responses -/

/-- A response as it streams: the count it starts with and the ones that replace it. -/
structure StreamedResponse where
  first : ℕ
  updates : List ℕ

namespace StreamedResponse

variable (r : StreamedResponse)

def reports : List UsageReport := .start r.first :: r.updates.map .update

/-- Its final count. -/
def tokens : ℕ := r.updates.getLast?.getD r.first

end StreamedResponse

variable {u : TurnOutputUsage}

theorem foldl_updates (updates : List ℕ) {count : ℕ} (hcount : u.currentResponse = some count) :
    (updates.map UsageReport.update).foldl TurnOutputUsage.apply u =
      { u with currentResponse := some (updates.getLast?.getD count) } := by
  induction updates generalizing u count with
  | nil =>
    cases u
    cases hcount
    rfl
  | cons update rest ih =>
    rw [map_cons, foldl_cons, ih rfl, getLast?_cons]
    rfl

theorem foldl_response (r : StreamedResponse) :
    r.reports.foldl TurnOutputUsage.apply u =
      { completedResponses := saturatingAdd u.completedResponses (u.currentResponse.getD 0)
        currentResponse := some r.tokens } := by
  rw [StreamedResponse.reports, foldl_cons]
  exact foldl_updates r.updates rfl

/-- **The total** of the responses of a turn. -/
theorem total_reports (responses : List StreamedResponse) :
    ((responses.flatMap StreamedResponse.reports).foldl TurnOutputUsage.apply u).total =
      min (u.total + (responses.map StreamedResponse.tokens).sum) (2 ^ 64 - 1) := by
  induction responses generalizing u with
  | nil => simp [TurnOutputUsage.total, saturatingAdd]
  | cons r rest ih =>
    rw [flatMap_cons, foldl_append, foldl_response, ih, map_cons, sum_cons]
    simp only [TurnOutputUsage.total, saturatingAdd, Option.getD_some]
    omega

theorem totals_append (reports more : List UsageReport) :
    totals u (reports ++ more) =
      totals u reports ++ totals (reports.foldl TurnOutputUsage.apply u) more := by
  induction reports generalizing u with
  | nil => rfl
  | cons report rest ih => rw [cons_append, totals, totals, foldl_cons, ih]; rfl

/-- The last total that is published is the total at the end. -/
theorem getLast?_totals {reports : List UsageReport} (hne : reports ≠ []) :
    (totals u reports).getLast? = some (reports.foldl TurnOutputUsage.apply u).total := by
  obtain ⟨front, last, rfl⟩ := (eq_nil_or_concat' reports).resolve_left hne
  rw [totals_append, foldl_append, getLast?_append]
  rfl

theorem getLast?_totals_responses (responses : List StreamedResponse) :
    (totals {} (responses.flatMap StreamedResponse.reports)).getLast? =
      if responses = [] then none
      else some (min (responses.map StreamedResponse.tokens).sum (2 ^ 64 - 1)) := by
  cases responses with
  | nil => rfl
  | cons r rest =>
    have htotal : (({} : TurnOutputUsage)).total = 0 := rfl
    rw [getLast?_totals (by simp [StreamedResponse.reports]), total_reports, htotal, Nat.zero_add,
      if_neg (cons_ne_nil _ _)]

end NiumaTerm.ClaudeCode
