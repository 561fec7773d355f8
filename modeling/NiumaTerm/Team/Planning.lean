import NiumaTerm.Team.Context
import NiumaTerm.Team.Validation

/-!
# Planning turns

Which stage a discussion opens next (`nextStage`), and the intent that sends a member its turn
(`buildIntent`).  `buildIntent_ok` is the specification of an intent: what it takes over from its plan,
and that its text is an instruction followed by a context within its snapshot.
-/

namespace NiumaTerm.Team

open Rust Checks

/-- `DispatchError` -/
inductive DispatchError
  | storage (error : StorageError)
  | budget (error : BudgetError)
  | ineligible
  deriving DecidableEq

inductive TeamError
  | member (error : MemberError)
  | storage (error : StorageError)
  | dispatch (error : DispatchError)
  | unavailable
  | paused
  | busy
  | discussion (error : DiscussionError)
  | context (error : ContextError)
  | budget (error : BudgetError)
  | unresolved
  deriving DecidableEq

/-! ## Stages -/

structure DispatchPlan where
  recipient : MemberId
  operation : OperationId
  stage : Option (StageId × StageKind)
  budget : BudgetScope
  purpose : TurnPurpose

/-- What a discussion whose last stage settled does next. -/
inductive NextStage
  | schedule (kind : StageKind) (recipients : List MemberId)
  /-- The moderator's decision stage completed without recording a decision. -/
  | invalidModeration (operation : OperationId)

def publicRequest (input : UserInput) (serial : ℕ) : PublicMessage where
  id := ⟨serial, 0⟩
  author := .user
  publication := .userInput
  text := input.text
  repliesTo := input.references

/-- Whether a stage is the moderator's completed decision stage. -/
def Stage.isDecidedBy (s : Stage) (moderator : MemberId) : Bool :=
  s.kind = .moderatorDecision && s.arrangements.any fun a =>
    a.recipient = moderator &&
      match a.state with
      | .completed _ => true
      | _ => false

def moderatedNextStage (d : Discussion) (moderator : MemberId) : Except TeamError NextStage :=
  match d.stages.getLast?.filter fun s => s.isDecidedBy moderator with
  | none => .ok (.schedule .moderatorDecision [moderator])
  | some s =>
    match s.decision with
    | some decision =>
      match decision.action with
      | .invite recipients => .ok (.schedule .invitedResponses recipients)
      | .report => .ok (.schedule .report [moderator])
    | none => do
      let first ← okOr s.arrangements.head? .unavailable
      return .invalidModeration first.operation

/-- The kind of the next stage of a fixed discussion. -/
def fixedKind (d : Discussion) : StageKind :=
  if !d.stages.any (·.kind = .initialAnswers) then .initialAnswers
  else if !d.stages.any (·.kind = .peerResponses) then .peerResponses
  else .report

/-- The stage a discussion opens once its last one settled.  A spent turn budget goes straight to the
report, unless the moderator was just asked to decide. -/
def nextStage (d : Discussion) (remainingTurns : ℕ) (isExcluded : MemberId → Bool) :
    Except TeamError NextStage :=
  if remainingTurns = 0 && d.stages.getLast?.all fun s => s.kind != .moderatorDecision then
    .ok (.schedule .report [d.mode.reportAuthor])
  else
    match d.mode with
    | .fixed reportAuthor =>
      let kind := fixedKind d
      .ok (.schedule kind (if kind = .report then [reportAuthor]
        else d.participants.filter fun m => !isExcluded m))
    | .moderated moderator => moderatedNextStage d moderator

def stagePurpose : StageKind → TurnPurpose
  | .report => .report
  | .moderatorDecision => .moderation
  | _ => .response

/-! ## Intents -/

def stageInstruction : Option StageKind → Str
  | some .initialAnswers => ("Give your initial answer to the user's objective. " ++
    "Identify assumptions and reasons.").toList
  | some .peerResponses | some .invitedResponses => ("Respond to the preceding public " ++
    "contributions. Explain agreement, disagreement, and any changed view.").toList
  | some .report => ("Conclude with separate agreements, disagreements, each member's attributed " ++
    "reasons, and suggested next steps. Cite public message IDs. Do not present one member's " ++
    "preference as consensus.").toList
  | some .moderatorDecision => ("Review public progress and call team_decide exactly once. " ++
    "Invite eligible member IDs or request a report with an empty recipients list. " ++
    "Prose alone cannot schedule work.").toList
  | _ => ("Answer this one request. Further Team turns require a separate scheduling " ++
    "decision.").toList

section

variable [TeamText] (r : Room)

/-- The line that gives a moderator what it decides from. -/
def schedulingLine (d : Discussion) (plan : DispatchPlan) : Str :=
  let eligible := (d.participants.filterMap r.member).map fun m => (m.id, m.name)
  "Application scheduling context: ".toList ++
    TeamText.schedulingJson plan.operation (plan.stage.map Prod.fst) eligible
      (r.remainingNonReportTurns d) ++ "\n".toList

/-- The instructions of a turn: they hold no public message. -/
def instructions (plan : DispatchPlan) (m : Member) : Except TeamError Str := do
  let base := "Team role: ".toList ++ TeamText.roleJson m.name m.spec.role ++ "\n".toList ++
    stageInstruction (plan.stage.map Prod.snd) ++ "\n".toList
  match plan.purpose, plan.budget with
  | .moderation, .discussion id =>
    let d ← okOr (r.discussion id) .unavailable
    return base ++ schedulingLine r d plan
  | _, _ => return base

def buildIntent (plan : DispatchPlan) (backendGeneration : ℕ) (input : UserInput)
    (snapshot : PublicSnapshot) (limits : ContextLimits) : Except TeamError DispatchIntent := do
  let m ← okOr (r.member plan.recipient) .unavailable
  let instructions ← instructions r plan m
  failIf (limits.maxBytes < utf8Len instructions) (.context .oversizedInput)
  let bodyLimits := { limits with maxBytes := limits.maxBytes - utf8Len instructions }
  let prepared ← (r.prepareContext plan.recipient snapshot input bodyLimits).mapError .context
  return {
    invocation := .memberConversation
    recipient := plan.recipient
    backendGeneration
    operation := plan.operation
    stage := plan.stage.map Prod.fst
    budget := plan.budget
    purpose := plan.purpose
    input
    preparedText := instructions ++ prepared.text
    snapshot
    coverage := prepared.coverage }

variable {r}

/-- What an intent takes over from its plan. -/
structure DispatchIntent.Follows (intent : DispatchIntent) (plan : DispatchPlan)
    (snapshot : PublicSnapshot) : Prop where
  recipient : intent.recipient = plan.recipient
  operation : intent.operation = plan.operation
  stage : intent.stage = plan.stage.map Prod.fst
  budget : intent.budget = plan.budget
  purpose : intent.purpose = plan.purpose
  snapshot : intent.snapshot = snapshot

/-- The text of an intent is instructions, which a room without public content determines as well,
and a context within the snapshot of the intent. -/
def DispatchIntent.Shows (intent : DispatchIntent) (r : Room) : Prop :=
  ∃ plan m silent instructionText messages summaries contextText,
    silent.messages = [] ∧ silent.summaries = [] ∧
    instructions silent plan m = .ok instructionText ∧
    intent.preparedText = instructionText ++ contextText ∧
    r.Shows intent.snapshot intent.input messages summaries contextText

theorem DispatchIntent.Shows.mono {intent : DispatchIntent} {r' : Room} (h : intent.Shows r)
    (hm : r.messages ⊆ r'.messages) (hs : r'.summaries = r.summaries) : intent.Shows r' := by
  obtain ⟨plan, m, silent, text, messages, summaries, context, hsm, hss, hi, ht, hshows⟩ := h
  exact ⟨plan, m, silent, text, messages, summaries, context, hsm, hss, hi, ht, hshows.mono hm hs⟩

/-- **The specification of `build_intent`.** -/
theorem buildIntent_ok {plan : DispatchPlan} {generation : ℕ} {input : UserInput}
    {snapshot : PublicSnapshot} {limits : ContextLimits} {intent : DispatchIntent}
    (h : buildIntent r plan generation input snapshot limits = .ok intent) :
    intent.Follows plan snapshot ∧ intent.backendGeneration = generation ∧ intent.Shows r := by
  simp only [buildIntent, bind_ok, okOr_ok, failIf_ok, mapError_ok] at h
  obtain ⟨m, -, instructionText, hi, -, -, prepared, hp, h⟩ := h
  obtain rfl := Except.ok.inj h
  obtain ⟨messages, summaries, hs, -⟩ := Room.prepareContext_ok hp
  exact ⟨⟨rfl, rfl, rfl, rfl, rfl, rfl⟩, rfl, plan, m, { r with messages := [], summaries := [] },
    instructionText, messages, summaries, prepared.text, rfl, rfl, hi, rfl, hs⟩

end

end NiumaTerm.Team
