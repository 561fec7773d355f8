import NiumaTerm.Lib.Checks
import NiumaTerm.SnapshotStore
import NiumaTerm.Team.Room

/-!
# What the room store accepts

`validate` checks a room before it is saved, and `validateUpdate` checks a change of one.  The loops
of the source that fill sets while they check are `Checks.checkEach`: each entry is checked against the
entries before it.

`valid_of_validate` collects what an accepted room satisfies (`Room.Valid`).
-/

namespace NiumaTerm.Team

open Rust Checks List

inductive StorageError
  | io
  | json
  | unsupportedVersion (version : ℕ)
  | invalid (message : Str)
  | legacyFormat
  | reopenRequired
  deriving DecidableEq

instance : FromSnapshot StorageError where
  fromSnapshot
    | .io => .io
    | .json => .json
    | .unsupportedVersion version => .unsupportedVersion version
    | .invalid message => .invalid message
    | .reopenRequired => .reopenRequired

/-- `StorageError::Invalid` -/
def invalid (message : String) : StorageError := .invalid message.toList

namespace Room

variable (r : Room)

/-! ## Whole rooms -/

def hasMember (id : MemberId) : Bool := r.members.any (·.id = id)

def hasMessage (id : MessageId) : Bool := r.messages.any (·.id = id)

def hasSummary (id : SummaryId) : Bool := r.summaries.any (·.id = id)

def hasDiscussion (id : DiscussionId) : Bool := r.discussions.any (·.id = id)

def checkMember [TeamText] (seen : List Member) (m : Member) : Except StorageError Unit := do
  failIf (m.id ∈ seen.map Member.id) (invalid "duplicate member or conversation identity")
  failIf ((trim m.name).isEmpty || m.name.any isControl || trim m.name != m.name ||
    (TeamText.toLowercase m.name) ∈ seen.map fun m => TeamText.toLowercase m.name)
    (invalid "invalid or duplicate member name")
  failIf (m.spec.roots.primary.isNone && !m.spec.roots.additional.isEmpty)
    (invalid "member roots have no primary directory")

/-- Whether a member wrote the message who is not in the room. -/
def missingAuthor (message : PublicMessage) : Bool :=
  match message.author with
  | .member id _ => !r.hasMember id
  | .user => false

def checkMessage (seen : List PublicMessage) (message : PublicMessage) : Except StorageError Unit := do
  failIf (message.repliesTo.any (· ∉ seen.map PublicMessage.id)) (invalid "reply source is missing")
  failIf (message.id ∈ seen.map PublicMessage.id) (invalid "duplicate public message")
  failIf (r.missingAuthor message) (invalid "public author is missing")

/-- Whether a fragment lies outside its summary's sources or its message's text. -/
def badFragment (s : Summary) (part : SourceFragment) : Bool :=
  part.source ∉ s.sources ||
    match r.messages.find? (·.id = part.source) with
    | none => true
    | some message =>
      part.start > part.stop || part.stop > utf8Len message.text ||
        !isCharBoundary message.text part.start || !isCharBoundary message.text part.stop

def checkSummary (seen : List Summary) (s : Summary) : Except StorageError Unit := do
  failIf (s.version = 0 || !r.hasMember s.owner || s.sources.any (!r.hasMessage ·) ||
    s.fragments.any (r.badFragment s) || s.priorSummaries.any (· ∉ seen.map Summary.id) ||
    s.disagreements.any fun position =>
      !r.hasMember position.member || position.sources.any (· ∉ s.sources))
    (invalid "summary owner or source is missing")
  failIf (s.id ∈ seen.map Summary.id) (invalid "duplicate summary identity")

def checkArrangement (earlier seen : List Arrangement) (a : Arrangement) :
    Except StorageError Unit :=
  failIf (!r.hasMember a.recipient || a.recipient ∈ seen.map Arrangement.recipient ||
    a.operation ∈ (earlier ++ seen).map Arrangement.operation) (invalid "invalid stage arrangement")

def checkStage (seen : List Stage) (s : Stage) : Except StorageError Unit := do
  failIf (s.id ∈ seen.map Stage.id) (invalid "duplicate stage identity")
  checkEach (r.checkArrangement (seen.flatMap Stage.arrangements)) [] s.arrangements
  failIf (s.segments.any fun snapshot =>
    snapshot.messages.any (!r.hasMessage ·) || snapshot.summaries.any (!r.hasSummary ·))
    (invalid "stage context source is missing")

def checkDiscussion (seen : List Discussion) (d : Discussion) : Except StorageError Unit := do
  failIf (d.id ∈ seen.map Discussion.id) (invalid "duplicate discussion identity")
  failIf (d.participants.isEmpty || !decide d.participants.Nodup ||
    d.participants.any (!r.hasMember ·) || !r.hasMember d.mode.reportAuthor)
    (invalid "invalid discussion participants")
  failIf (!d.budget.validate (r.budgetAttempts (.discussion d.id)))
    (invalid "budget exceeds scheduled turn limit")
  checkEach r.checkStage (seen.flatMap Discussion.stages) d.stages

def activeDiscussions : List Discussion := r.discussions.filter fun d => d.state != .completed

/-- Whether an attempt was given something outside the room or its own boundary. -/
def badContext (t : Attempt) : Bool :=
  t.intent.snapshot.messages.any (!r.hasMessage ·) ||
    t.intent.snapshot.summaries.any (!r.hasSummary ·) ||
    !decide (∀ id ∈ t.intent.coverage.messages, id ∈ t.intent.snapshot.messages) ||
    !decide (∀ id ∈ t.intent.coverage.summaries, id ∈ t.intent.snapshot.summaries)

/-- Whether the attempt's turn has no name, or one that an earlier attempt of its recipient has. -/
def reusedTurn (seen : List Attempt) (t : Attempt) : Bool :=
  match t.providerTurn with
  | some turn => turn.isEmpty || seen.any fun earlier =>
    earlier.intent.recipient = t.intent.recipient && earlier.providerTurn = some turn
  | none => false

def isReplyOf (id : MemberId) (message : PublicMessage) : Bool :=
  match message.author with
  | .member author _ => author = id
  | .user => false

/-- Whether the attempt completed without a reply of its recipient. -/
def missingReply (t : Attempt) : Bool :=
  match t.state with
  | .completed id => !r.messages.any fun message => message.id = id && isReplyOf t.intent.recipient message
  | _ => false

def missingDiscussion (t : Attempt) : Bool :=
  match t.intent.budget with
  | .discussion id => !r.hasDiscussion id
  | .direct _ => false

/-- Whether the attempt is the first of a direct request that exceeds its budget. -/
def exceedsDirect (seen : List Attempt) (t : Attempt) : Bool :=
  match t.intent.budget with
  | .discussion _ => false
  | .direct _ => (seen.all fun earlier => earlier.intent.budget != t.intent.budget) &&
    !Budget.direct.validate (r.budgetAttempts t.intent.budget)

def checkAttempt (seen : List Attempt) (t : Attempt) : Except StorageError Unit := do
  failIf (t.id ∈ seen.map Attempt.id || !r.hasMember t.intent.recipient)
    (invalid "duplicate attempt or missing recipient")
  failIf (r.badContext t) (invalid "attempt context source is missing or outside its boundary")
  failIf (reusedTurn seen t) (invalid "duplicate or empty accepted provider identity")
  failIf (t.state = .accepted && t.providerTurn.isNone)
    (invalid "accepted provider identity changed")
  failIf (r.missingReply t) (invalid "completed reply or its author is missing")
  failIf (r.missingDiscussion t) (invalid "attempt has no discussion budget")
  failIf (r.exceedsDirect seen t) (invalid "direct request exceeds scheduled turn limit")

def validate [TeamText] : Except StorageError Unit := do
  checkEach checkMember [] r.members
  checkEach r.checkMessage [] r.messages
  checkEach r.checkSummary [] r.summaries
  checkEach r.checkDiscussion [] r.discussions
  failIf (r.activeDiscussions.length > 1) (invalid "multiple active discussions")
  checkEach r.checkAttempt [] r.attempts

/-! ## Changes -/

def validateUpdate (previous next : Room) : Except StorageError Unit := do
  failIf (previous.id != next.id || previous.workspace != next.workspace)
    (invalid "room identity or workspace changed")
  failIf (!previous.messages.isPrefixOf next.messages || !previous.summaries.isPrefixOf next.summaries ||
    previous.members.any (fun old => (next.member old.id).isNone) ||
    previous.discussions.any (fun old => !next.hasDiscussion old.id) ||
    previous.attempts.any fun old => (next.attempt old.id).isNone)
    (invalid "retained history was removed or replaced")
  checkEach (fun _ m => do
    let new ← okOr (next.member m.id) (invalid "member is missing")
    failIf (m.spec.roots != new.spec.roots) (invalid "existing conversation roots changed"))
    [] previous.members
  checkEach (fun _ old => do
    let new ← okOr (next.attempt old.id) (invalid "attempt is missing")
    failIf (old.intent != new.intent || (old.providerTurn.isSome && new.providerTurn != old.providerTurn))
      (invalid "attempt input or accepted provider identity changed"))
    [] previous.attempts

end Room

/-! ## What an accepted room satisfies -/

/-- All arrangements of a room, in order. -/
def Room.arrangements (r : Room) : List Arrangement := r.discussions.flatMap Discussion.arrangements

theorem Room.mem_arrangements {r : Room} {a : Arrangement} : a ∈ r.arrangements ↔
    ∃ d ∈ r.discussions, ∃ s ∈ d.stages, a ∈ s.arrangements := by
  simp [Room.arrangements, Discussion.arrangements]

/-- What `validate` establishes and later results use. -/
structure Room.Valid (r : Room) : Prop where
  members_nodup : (r.members.map Member.id).Nodup
  messages_nodup : (r.messages.map PublicMessage.id).Nodup
  discussions_nodup : (r.discussions.map Discussion.id).Nodup
  stages_nodup : ((r.discussions.flatMap Discussion.stages).map Stage.id).Nodup
  operations_nodup : (r.arrangements.map Arrangement.operation).Nodup
  segments : ∀ d ∈ r.discussions, ∀ s ∈ d.stages, ∀ snapshot ∈ s.segments,
    ∀ id ∈ snapshot.messages, r.hasMessage id = true
  active : r.activeDiscussions.length ≤ 1
  attempts_nodup : (r.attempts.map Attempt.id).Nodup
  replies : ∀ t ∈ r.attempts, r.missingReply t = false
  budgets : ∀ t ∈ r.attempts, r.missingDiscussion t = false

section

variable {r : Room}

theorem Room.Valid.discussion_eq (h : r.Valid) {d d' : Discussion} (hd : d ∈ r.discussions)
    (hd' : d' ∈ r.discussions) (he : d.id = d'.id) : d = d' :=
  inj_on_of_nodup_map h.discussions_nodup hd hd' he

theorem Room.Valid.attempt_eq (h : r.Valid) {t t' : Attempt} (ht : t ∈ r.attempts)
    (ht' : t' ∈ r.attempts) (he : t.id = t'.id) : t = t' :=
  inj_on_of_nodup_map h.attempts_nodup ht ht' he

theorem checkStage_ok {seen : List Stage} {s : Stage} (h : r.checkStage seen s = .ok ()) :
    s.id ∉ seen.map Stage.id ∧
      checkEach (r.checkArrangement (seen.flatMap Stage.arrangements)) [] s.arrangements = .ok () ∧
      ∀ snapshot ∈ s.segments, ∀ id ∈ snapshot.messages, r.hasMessage id = true := by
  simp only [Room.checkStage, bind_ok, failIf_ok] at h
  obtain ⟨_, hid, _, harr, hseg⟩ := h
  refine ⟨hid, harr, fun snapshot hs id hi => ?_⟩
  simp only [any_eq_true, Bool.or_eq_true, Bool.not_eq_true', not_exists, not_and, not_or] at hseg
  simpa using (hseg snapshot hs).1 id hi

theorem checkArrangement_ok {earlier seen : List Arrangement} {a : Arrangement}
    (h : r.checkArrangement earlier seen a = .ok ()) :
    a.operation ∉ (earlier ++ seen).map Arrangement.operation := by
  rw [Room.checkArrangement, failIf_ok, Bool.or_eq_true, not_or] at h
  simpa using h.2

theorem checkEach_stages (h : checkEach r.checkDiscussion [] r.discussions = .ok ()) :
    checkEach r.checkStage [] (r.discussions.flatMap Discussion.stages) = .ok () := by
  refine checkEach_flatMap fun before d after he => ?_
  have hd := checkEach_ok.mp h before d after he
  simp only [Room.checkDiscussion, bind_ok, failIf_ok] at hd
  obtain ⟨-, -, -, -, -, -, hd⟩ := hd
  simpa using hd

theorem operations_nodup (h : checkEach r.checkDiscussion [] r.discussions = .ok ()) :
    (r.arrangements.map Arrangement.operation).Nodup := by
  have := @nodup_flatMap_of_checkEach _ _ _ _ _ Stage.arrangements Arrangement.operation _
    (fun seen s hs => ?_) (checkEach_stages h)
  · rw [flatMap_assoc] at this
    exact this
  · obtain ⟨-, harr, -⟩ := checkStage_ok hs
    refine ⟨nodup_of_checkEach (fun seen a ha => ?_) harr, fun a ha => ?_⟩
    · have := checkArrangement_ok ha
      simp only [map_append, mem_append, not_or] at this
      exact this.2
    · obtain ⟨before, after, -, hc⟩ := checkEach_mem harr ha
      have := checkArrangement_ok hc
      simp only [map_append, mem_append, not_or] at this
      exact this.1

theorem valid_of_validate [TeamText] (h : r.validate = .ok ()) : r.Valid := by
  simp only [Room.validate, bind_ok, failIf_ok] at h
  obtain ⟨_, hmembers, _, hmessages, _, -, _, hdiscussions, _, hactive, hattempts⟩ := h
  refine ⟨?_, ?_, ?_, ?_, operations_nodup hdiscussions, ?_, by omega, ?_, ?_, ?_⟩
  · refine nodup_of_checkEach (fun seen m hm => ?_) hmembers
    simp only [Room.checkMember, bind_ok, failIf_ok] at hm
    exact hm.choose_spec.1
  · refine nodup_of_checkEach (fun seen m hm => ?_) hmessages
    simp only [Room.checkMessage, bind_ok, failIf_ok] at hm
    obtain ⟨-, -, -, hm, -⟩ := hm
    exact hm
  · refine nodup_of_checkEach (fun seen d hd => ?_) hdiscussions
    simp only [Room.checkDiscussion, bind_ok, failIf_ok] at hd
    exact hd.choose_spec.1
  · exact nodup_of_checkEach (fun seen s hs => (checkStage_ok hs).1) (checkEach_stages hdiscussions)
  · intro d hd s hs
    obtain ⟨before, after, -, hc⟩ := checkEach_mem (checkEach_stages hdiscussions)
      (mem_flatMap.mpr ⟨d, hd, hs⟩)
    exact (checkStage_ok hc).2.2
  · refine nodup_of_checkEach (fun seen t ht => ?_) hattempts
    simp only [Room.checkAttempt, bind_ok, failIf_ok, Bool.or_eq_true, not_or] at ht
    simpa using ht.choose_spec.1.1
  · intro t ht
    obtain ⟨before, after, -, hc⟩ := checkEach_mem hattempts ht
    simp only [Room.checkAttempt, bind_ok, failIf_ok] at hc
    obtain ⟨-, -, -, -, -, -, -, -, -, hreply, -⟩ := hc
    simpa using hreply
  · intro t ht
    obtain ⟨before, after, -, hc⟩ := checkEach_mem hattempts ht
    simp only [Room.checkAttempt, bind_ok, failIf_ok] at hc
    obtain ⟨-, -, -, -, -, -, -, -, -, -, -, hdiscussion, -⟩ := hc
    simpa using hdiscussion

end

end NiumaTerm.Team
