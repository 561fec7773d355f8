import NiumaTerm.Lib.Precedence
import NiumaTerm.Team.Exclusion

/-!
# Only recorded decisions invite

A stage asks invited members right after a decision of the moderator that names exactly them
(`Scheduled`).  A decision is recorded once, with the attempt that was given the stage it is of
(`Room.Records`), and later changes only add stages (`moderators_schedule`).
-/

namespace NiumaTerm.Team

open Growth Transition List

/-- What a stage asks, and its decision. -/
abbrev Choice := StagePlan × Option ModeratorDecision

def Stage.choice (s : Stage) : Choice := (s.plan, s.decision)

def Discussion.choices (d : Discussion) : List Choice := d.stages.map Stage.choice

def Choice.Invites (c : Choice) (recipients : List MemberId) : Prop :=
  c.1.kind = .moderatorDecision ∧ ∃ decision, c.2 = some decision ∧
    decision.action = .invite recipients

/-- Members are invited by the decision of the stage before. -/
def Scheduled (choices : List Choice) : Prop :=
  ∀ before c after, choices = before ++ c :: after → c.1.kind = .invitedResponses →
    ∃ last ∈ before.getLast?, Choice.Invites last c.1.recipients

/-- A decision of a discussion, and the attempt that took it. -/
structure Room.Records (r : Room) (d : Discussion) (plan : StagePlan) (decision : ModeratorDecision) :
    Prop where
  kind : plan.kind = .moderatorDecision
  invited : ∀ recipients, decision.action = .invite recipients →
    recipients ≠ [] ∧ recipients.Nodup ∧ recipients ⊆ d.participants
  attempt : ∃ t ∈ r.attempts, t.id = decision.attempt ∧ t.intent.budget = .discussion d.id ∧
    t.intent.purpose = .moderation ∧ t.intent.operation = decision.operation ∧
    t.intent.stage = some plan.id ∧ t.intent.recipient = decision.actor

structure Room.Moderated (r : Room) (d : Discussion) : Prop where
  scheduled : Scheduled d.choices
  recorded : ∀ c ∈ d.choices, ∀ decision, c.2 = some decision → r.Records d c.1 decision

/-- Discussions and their stages are only added to. -/
def Room.Extends (r r' : Room) : Prop :=
  Grows (fun d d' => d'.id = d.id ∧ Grows Stage.Evolves (fun _ => True) d.stages d'.stages)
    (fun _ => True) r.discussions r'.discussions

/-! ## What a change does to the choices -/

/-- At most a stage is opened, or the last one is decided. -/
inductive Chooses (records : StagePlan → ModeratorDecision → Prop) (choices : List Choice) :
    List Choice → Prop
  | same : Chooses records choices choices
  | opened {plan : StagePlan} (h : plan.kind = .invitedResponses →
      ∃ last ∈ choices.getLast?, Choice.Invites last plan.recipients) :
    Chooses records choices (choices ++ [(plan, none)])
  | decided {before : List Choice} {plan : StagePlan} {decision : ModeratorDecision}
    (hb : choices = before ++ [(plan, none)]) (hk : plan.kind = .moderatorDecision)
    (h : records plan decision) : Chooses records choices (before ++ [(plan, some decision)])

section

variable {records : StagePlan → ModeratorDecision → Prop} {choices choices' : List Choice}

theorem Chooses.scheduled (h : Chooses records choices choices') (hs : Scheduled choices) :
    Scheduled choices' := by
  rcases h with _ | h | ⟨rfl, hk, -⟩
  case same => exact hs
  all_goals
    intro before c after he hc
    obtain ⟨rfl, rfl⟩ | ⟨rest, hrest⟩ := Precedence.concat_eq_append_cons he
  · exact h hc
  · exact hs before c rest hrest hc
  · cases hk.symm.trans hc
  · exact hs before c (rest ++ [_]) (by rw [hrest, append_assoc, cons_append]) hc

theorem Chooses.recorded (h : Chooses records choices choices')
    (hr : ∀ c ∈ choices, ∀ decision, c.2 = some decision → records c.1 decision) :
    ∀ c ∈ choices', ∀ decision, c.2 = some decision → records c.1 decision := by
  rcases h with _ | _ | ⟨rfl, -, hnew⟩
  case same => exact hr
  all_goals
    intro c hc decision hd
    rcases mem_append.mp hc with hc | hc
  · exact hr c hc decision hd
  · rw [mem_singleton.mp hc] at hd
    cases hd
  · exact hr c (mem_append_left _ hc) decision hd
  · rw [mem_singleton.mp hc] at hd ⊢
    cases hd
    exact hnew

end

section

variable {n : ℕ} {op : Operation} {r r' : Room} {d d' : Discussion} {kind : StageKind}
  {recipients : List MemberId}

theorem Discussion.choices_of_outline (h : d'.outline = d.outline) : d'.choices = d.choices := by
  have hp (e : Discussion) : e.choices = e.outline.map Stage.choice := by
    rw [choices, outline, map_map]
    exact map_congr_left fun s _ => by rw [Function.comp, Stage.choice, Stage.choice, s.plan_outline]; rfl
  rw [hp, hp, h]

theorem Discussion.chooses_pushStage {records : StagePlan → ModeratorDecision → Prop}
    {snapshot : PublicSnapshot} (h : kind = .invitedResponses →
      ∃ last ∈ d.choices.getLast?, Choice.Invites last recipients) :
    Chooses records d.choices (d.pushStage (.pending kind recipients snapshot n)).choices := by
  have hplan : (Stage.pending kind recipients snapshot n).plan = ⟨⟨n, 0⟩, kind, recipients⟩ := by
    simpa [plans, pushStage] using plans_pushStage (d := d) (n := n)
  have hchoices : (d.pushStage (.pending kind recipients snapshot n)).choices =
      d.choices ++ [(⟨⟨n, 0⟩, kind, recipients⟩, none)] := by
    rw [choices, pushStage, map_append, map_singleton, Stage.choice, hplan]
    rfl
  rw [hchoices]
  exact .opened h

/-- Members are only invited by a decision. -/
theorem nextStage_invites {turns : ℕ} {isExcluded : MemberId → Bool}
    (h : nextStage d turns isExcluded = .ok (.schedule .invitedResponses recipients)) :
    ∃ last ∈ d.choices.getLast?, Choice.Invites last recipients := by
  rw [nextStage] at h
  split at h
  · cases h
  split at h
  · have hk := (NextStage.schedule.inj (Except.ok.inj h)).1
    rw [fixedKind] at hk
    split_ifs at hk
  rw [moderatedNextStage] at h
  split at h
  · cases h
  next s hs =>
  split at h
  · next decision hdecision =>
    split at h
    · next invited haction =>
      obtain ⟨hlast, hby⟩ := Option.filter_eq_some_iff.mp hs
      rw [Stage.isDecidedBy, Bool.and_eq_true, decide_eq_true_eq] at hby
      refine ⟨s.choice, by rw [Discussion.choices, getLast?_map, hlast]; rfl, hby.1, decision,
        hdecision, ?_⟩
      rw [haction, (NextStage.schedule.inj (Except.ok.inj h)).2]
    · cases h
  · rcases hh : s.arrangements.head? with _ | a <;> rw [hh] at h <;> cases h

theorem Discussion.choices_modifyLastStage {F : Stage → Stage} (hF : ∀ s, (F s).choice = s.choice) :
    (d.modifyLastStage F).choices = d.choices := by
  rw [modifyLastStage]
  split
  · rfl
  · next s hs =>
    obtain ⟨before, hb⟩ := getLast?_eq_some_iff.mp hs
    rw [choices, choices, hb, dropLast_concat, map_append, map_append, map_singleton, map_singleton, hF]

/-- **Where the choices of a discussion come from.** -/
theorem Discussion.Next.chooses (h : Next n op r d') : d'.choices = [] ∨
    ∃ d ∈ r.discussions, d'.id = d.id ∧ d'.participants = d.participants ∧
      Chooses (r.Records d) d.choices d'.choices := by
  rcases h with ⟨hd, hcalm⟩ | _ | ⟨hd, -, -, -, -, hnext⟩ | ⟨hd, -, -, -⟩ | ⟨hd, -, -, h⟩ |
    ⟨hd, -, -⟩ | ⟨hd, -, h⟩
  case calm =>
    refine .inr ⟨_, hd, hcalm.id, hcalm.participants, ?_⟩
    rw [choices_of_outline hcalm.outline]
    exact .same
  case started => exact .inl rfl
  case opened limits kind recipients =>
    refine .inr ⟨_, hd, rfl, rfl, chooses_pushStage fun hk => ?_⟩
    obtain rfl : kind = .invitedResponses := hk
    exact nextStage_invites hnext
  case continued d =>
    refine .inr ⟨d, hd, continued_id .., ?_, ?_⟩ <;> rw [Discussion.continued] <;> split
    · rfl
    · exact modifyLastStage_participants ..
    · exact chooses_pushStage (d := d.retainPauses fun reason => !reason.clearedByContinue) (by rintro ⟨⟩)
    · have hp := choices_modifyLastStage (d := d.retainPauses fun reason => !reason.clearedByContinue)
        (F := fun s => { s with segments := s.segments ++ [r.publicSnapshot] }) fun _ => rfl
      exact Eq.mpr (congrArg _ hp) .same
  case modeChanged d changed mode =>
    obtain ⟨-, -, rfl⟩ := changeMode_ok h
    refine .inr ⟨d, hd, d.paused_id _, d.paused_participants _, ?_⟩
    have hsame : (Discussion.modeChanged r.isExcluded
        ({ d.paused .modeChange with mode } : Discussion)).choices = d.choices := by
      refine (choices_of_outline (outline_mapStages fun s => ?_)).trans ?_
      · split
        · simp [Stage.outline, Stage.mapArrangements]
        · rfl
      · exact congrArg (map Stage.choice) (d.paused_stages _)
    rw [hsame]
    exact .same
  case finishing d =>
    refine .inr ⟨d, hd, rfl, rfl, ?_⟩
    have hcancel : (d.mapArrangements cancelOpen).choices = d.choices :=
      choices_of_outline (outline_mapStages fun s => by simp [Stage.outline, Stage.mapArrangements])
    rw [← hcancel]
    exact chooses_pushStage (d := (d.mapArrangements cancelOpen).retainPauses fun reason =>
      !reason.clearedByFinish) (by rintro ⟨⟩)
  case decided d s t key stage operation action =>
    refine .inr ⟨d, hd, modifyLastStage_id .., modifyLastStage_participants .., ?_⟩
    obtain ⟨before, hb⟩ := getLast?_eq_some_iff.mp h.last
    have hchoices : d.choices = before.map Stage.choice ++ [(s.plan, none)] := by
      rw [choices, hb, map_append, map_singleton, Stage.choice, h.undecided]
    rw [modifyLastStage, h.last]
    have hrecords : r.Records d s.plan { operation, attempt := key.attempt, actor := key.member, action } := by
      obtain ⟨ht, hid⟩ := TeamSession.id_of_attempt h.attempt
      refine ⟨h.kind, fun recipients ha => ?_, t, ht, hid, h.budget, h.purpose, h.operation,
        h.intended.trans (congrArg some h.current.symm), h.recipient⟩
      exact ⟨(h.invited recipients ha).1, (h.invited recipients ha).2.1, fun m hm =>
        ((h.invited recipients ha).2.2 m hm).1⟩
    refine Eq.mpr (congrArg _ ?_) (.decided hchoices h.kind hrecords)
    rw [choices, hb, dropLast_concat, map_append, map_singleton]
    rfl

variable [TeamText]

theorem Room.Step.moderated (h : r.Step n op r') (hr : ∀ d ∈ r.discussions, r.Moderated d) :
    ∀ d ∈ r'.discussions, r'.Moderated d := by
  intro d' hd'
  rcases (h.progress.discussions d' hd').chooses with hnil | ⟨d, hd, hid, hp, hc⟩
  · refine ⟨fun before c after he => ?_, fun c hc => ?_⟩ <;> simp [hnil] at *
  refine ⟨hc.scheduled (hr d hd).scheduled, fun c hmem decision hdecision => ?_⟩
  obtain ⟨hkind, hinvited, t, ht, hkey, hintent⟩ :=
    hc.recorded (hr d hd).recorded c hmem decision hdecision
  obtain ⟨t', ht', he⟩ := h.evolves.attempts.exists_of_mem ht
  refine ⟨hkind, by rwa [hp], t', ht', he.id.trans hkey, ?_⟩
  rwa [he.intent, hid]

end

section

variable {J : Serde Room} [TeamText] {p q : TeamProcess J} {labels : List Call}

end

section

attribute [local instance] plainText

end

end NiumaTerm.Team
