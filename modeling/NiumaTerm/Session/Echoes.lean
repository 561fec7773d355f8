import Mathlib.Logic.Function.Iterate
import NiumaTerm.Lib.History
import NiumaTerm.Session.Delivery

/-!
# Delivery by echoes

Codex and Claude send every prompt back when they read it.  A prompt that opens a turn is in the transcript
at once, a steered one is held until its echo, or until the process exits or is stopped for an update.
Echoes are told apart by their text: prompts are published once and in order as long as no text stands for
two prompts where that matters (`Known`).
-/

namespace NiumaTerm.Delivery

open Rust Transition History List

structure SkillReference where
  name : Str
  path : Str

/-- Text and bindings returned when an unanswered prompt is interrupted. -/
structure RecoverablePrompt where
  text : Str
  responseAnnotations : List Str
  skill : Option SkillReference

namespace MessageDelivery

variable (d : MessageDelivery)

def exited : MessageDelivery := { d with active := false, confirmed := d.pending.length }

def stoppingForUpdate : MessageDelivery := { d with confirmed := d.pending.length }

/-- Restored turns reserve numbers without starting live work. -/
def replayTurn : MessageDelivery := { d with turn := d.turn + 1 }

def popConfirmed : Option Str × MessageDelivery :=
  if d.confirmed = 0 then (none, d)
  else
    (d.pending.head?.map QueuedPrompt.text,
      { d with confirmed := d.confirmed - 1, pending := d.pending.tail })

end MessageDelivery

/-- A delivery with the prompt that opened a turn and is not answered. -/
structure RecoverableDelivery extends MessageDelivery where
  unanswered : Option (ℕ × RecoverablePrompt)

namespace RecoverableDelivery

variable (d : RecoverableDelivery)

/-- A refusal changes no delivery state.  Recovery is retained only for the prompt that starts a new
turn. -/
def submit (outcome : SendOutcome) (text : Str) (recovery : Option RecoverablePrompt) :
    RecoverableDelivery where
  toMessageDelivery := d.toMessageDelivery.submit outcome text
  unanswered :=
    match outcome with
    | .startedTurn => recovery.map fun prompt => (d.turn + 1, prompt)
    | _ => d.unanswered

def visibleOutput : RecoverableDelivery :=
  if d.unanswered.any fun (turn, _) => turn = d.turn then { d with unanswered := none } else d

def takeInterruptedPrompt : Option (ℕ × RecoverablePrompt) × RecoverableDelivery :=
  match d.unanswered.filter fun (turn, _) => d.active ∧ turn = d.turn with
  | none => (none, { d with unanswered := none })
  | some prompt => (some prompt, { d with unanswered := none, active := false })

def completed : RecoverableDelivery where
  toMessageDelivery := d.toMessageDelivery.completed
  unanswered := none

def exited : RecoverableDelivery where
  toMessageDelivery := d.toMessageDelivery.exited
  unanswered := none

end RecoverableDelivery

/-! ## The provider's echoes -/

structure AcceptedPrompt where
  text : Str
  opens : Bool
  deriving DecidableEq

/-- The session, what its transcript shows of the user, and the prompts that providers have
accepted. The running provider still owes the echoes of the `outstanding` ones.  `opened` says that
the last turn that a prompt has opened is not completed. -/
structure EchoSession where
  delivery : RecoverableDelivery
  rows : List AcceptedPrompt
  accepted : List AcceptedPrompt
  outstanding : List AcceptedPrompt
  opened : Bool

inductive EchoAction
  | submit (outcome : SendOutcome) (text : Str) (recovery : Option RecoverablePrompt)
  /-- A command or an accepted answer opens a turn. -/
  | beginTurn
  | turnStarted
  | replayTurn
  | turnCompleted
  | visibleOutput
  | interrupt
  | exited
  | stoppingForUpdate
  /-- The provider that was stopped for an update is gone. -/
  | retired
  /-- One confirmed prompt is published. -/
  | publish
  | echo

namespace EchoSession

def new (kind : AgentKind) : EchoSession where
  delivery := { MessageDelivery.new kind with unanswered := none }
  rows := []
  accepted := []
  outstanding := []
  opened := false

variable (w : EchoSession)

def setDelivery (d : MessageDelivery) : EchoSession :=
  { w with delivery := { w.delivery with toMessageDelivery := d } }

/-- `push_item` of a prompt that was held. -/
def pushItem (text : Option Str) : EchoSession :=
  { w with rows := w.rows ++ text.toList.map (⟨·, false⟩) }

def submit (outcome : SendOutcome) (text : Str) (recovery : Option RecoverablePrompt) :
    EchoSession :=
  let w' : EchoSession := { w with delivery := w.delivery.submit outcome text recovery }
  match outcome with
  | .notReady | .rejected _ => w'
  | .steered =>
    { w' with
      accepted := w.accepted ++ [⟨text, false⟩]
      outstanding := w.outstanding ++ [⟨text, false⟩] }
  | .startedTurn =>
    { w' with
      rows := w.rows ++ [⟨text, true⟩]
      accepted := w.accepted ++ [⟨text, true⟩]
      outstanding := w.outstanding ++ [⟨text, true⟩]
      opened := true }

def publish : EchoSession :=
  (w.setDelivery w.delivery.popConfirmed.2).pushItem w.delivery.popConfirmed.1

/-- `start_item` of a prompt that the provider sends back. -/
def echo : EchoSession :=
  match w.outstanding with
  | prompt :: rest =>
    { w.setDelivery (w.delivery.echoed prompt.text).2 with outstanding := rest }
      |>.pushItem (w.delivery.echoed prompt.text).1
  | [] => w

def perform : EchoAction → EchoSession
  | .submit outcome text recovery => w.submit outcome text recovery
  | .beginTurn => w.setDelivery w.delivery.beginTurn
  | .turnStarted => w.setDelivery w.delivery.providerStarted
  | .replayTurn => w.setDelivery w.delivery.replayTurn
  | .turnCompleted => { w with delivery := w.delivery.completed, opened := false }
  | .visibleOutput => { w with delivery := w.delivery.visibleOutput }
  | .interrupt => { w with delivery := w.delivery.takeInterruptedPrompt.2 }
  | .exited => { w with delivery := w.delivery.exited, outstanding := [] }
  | .stoppingForUpdate => w.setDelivery w.delivery.stoppingForUpdate
  | .retired => { w with outstanding := [] }
  | .publish => w.publish
  | .echo => w.echo

/-- The controller publishes what is confirmed before it reads the next echo, and a provider is
retired when no prompt is held. -/
def Enabled : EchoAction → Prop
  | .echo => w.outstanding ≠ [] ∧ w.delivery.confirmed = 0
  | .retired => w.delivery.pending = []
  | _ => True

instance : DecidablePred w.Enabled
  | .echo => inferInstanceAs (Decidable (w.outstanding ≠ [] ∧ w.delivery.confirmed = 0))
  | .retired => inferInstanceAs (Decidable (w.delivery.pending = []))
  | .submit _ _ _ | .beginTurn | .turnStarted | .replayTurn | .turnCompleted | .visibleOutput
  | .interrupt | .exited | .stoppingForUpdate | .publish => instDecidableTrue

/-- No text stands for two prompts where that matters.  The prompt that opens a turn has the text of
none that is outstanding; and a prompt with the text of the opening one is steered while that one,
or one with its text, is outstanding: not when the process that has read it is gone. -/
def Known : EchoAction → Prop
  | .submit .startedTurn text _ => ∀ prompt ∈ w.outstanding, prompt.text ≠ text
  | .submit .steered text _ =>
    w.delivery.publishedPrompt = some text → ∃ prompt ∈ w.outstanding, prompt.text = text
  | _ => True

instance : DecidablePred w.Known
  | .submit .startedTurn text _ =>
    inferInstanceAs (Decidable (∀ prompt ∈ w.outstanding, prompt.text ≠ text))
  | .submit .steered text _ =>
    inferInstanceAs (Decidable (w.delivery.publishedPrompt = some text →
      ∃ prompt ∈ w.outstanding, prompt.text = text))
  | .submit .notReady _ _ | .submit (.rejected _) _ _ | .beginTurn | .turnStarted | .replayTurn
  | .turnCompleted | .visibleOutput | .interrupt | .exited | .stoppingForUpdate | .retired
  | .publish | .echo => instDecidableTrue

end EchoSession

def echoes : System EchoSession EchoAction where
  init w := ∃ kind, kind ≠ .deepSeek ∧ w = .new kind
  step w action w' := w.Enabled action ∧ w' = w.perform action

/-! ## Held and published prompts -/

def steeredPrompts (prompts : List AcceptedPrompt) : List AcceptedPrompt :=
  prompts.filter fun p => !p.opens

def openingPrompts (prompts : List AcceptedPrompt) : List AcceptedPrompt :=
  prompts.filter fun p => p.opens

section

variable (prompts more : List AcceptedPrompt) (text : Str)

@[simp] theorem steeredPrompts_append :
    steeredPrompts (prompts ++ more) = steeredPrompts prompts ++ steeredPrompts more :=
  filter_append ..

@[simp] theorem openingPrompts_append :
    openingPrompts (prompts ++ more) = openingPrompts prompts ++ openingPrompts more :=
  filter_append ..

@[simp] theorem steeredPrompts_steered : steeredPrompts [⟨text, false⟩] = [⟨text, false⟩] := rfl

@[simp] theorem steeredPrompts_opening : steeredPrompts [⟨text, true⟩] = [] := rfl

@[simp] theorem openingPrompts_steered : openingPrompts [⟨text, false⟩] = [] := rfl

@[simp] theorem openingPrompts_opening : openingPrompts [⟨text, true⟩] = [⟨text, true⟩] := rfl

end

namespace EchoSession

/-- The prompts that are held. -/
def waiting (w : EchoSession) : List AcceptedPrompt :=
  w.delivery.pending.map fun p => ⟨p.text, false⟩

/-- `publish_confirmed`: every confirmed prompt is published. -/
def publishConfirmed (w : EchoSession) : EchoSession := publish^[w.delivery.confirmed] w

variable {w : EchoSession}

/-- What holds in every run: no more is confirmed than held, and every accepted prompt is published
or held, in order. -/
structure Inv (w : EchoSession) : Prop where
  policy : w.delivery.policy = .providerEcho
  confirmed : w.delivery.confirmed ≤ w.delivery.pending.length
  opening : openingPrompts w.rows = openingPrompts w.accepted
  steered : steeredPrompts w.rows ++ w.waiting = steeredPrompts w.accepted
  outstanding : w.outstanding <:+ w.accepted

theorem inv_new {kind : AgentKind} (h : kind ≠ .deepSeek) : (new kind).Inv where
  policy := by
    cases kind with
    | deepSeek => exact absurd rfl h
    | codex | claude => rfl
  confirmed := Nat.le_refl _
  opening := rfl
  steered := rfl
  outstanding := suffix_rfl

variable {outstanding rest before : List AcceptedPrompt} {prompt : AcceptedPrompt}

/-- A delivery that holds the same keeps what holds. -/
theorem Inv.of_held (h : w.Inv) {d : RecoverableDelivery} {opened : Bool}
    (hpolicy : d.policy = w.delivery.policy)
    (hpending : d.pending = w.delivery.pending)
    (hconfirmed : d.confirmed ≤ w.delivery.pending.length) (ho : outstanding <:+ w.accepted) :
    Inv { w with delivery := d, outstanding, opened } where
  policy := hpolicy.trans h.policy
  confirmed := hconfirmed.trans_eq (congrArg List.length hpending.symm)
  opening := h.opening
  steered := by
    rw [waiting, hpending]
    exact h.steered
  outstanding := ho

/-- The first held prompt is published. -/
theorem Inv.pushed (h : w.Inv) {front : QueuedPrompt} {rest : List QueuedPrompt} {confirmed : ℕ}
    (hpending : w.delivery.pending = front :: rest)
    (hconfirmed : confirmed ≤ rest.length) (ho : outstanding <:+ w.accepted) :
    Inv { w with
          delivery.pending := rest
          delivery.confirmed := confirmed
          outstanding
          rows := w.rows ++ [⟨front.text, false⟩] } where
  policy := h.policy
  confirmed := hconfirmed
  opening := by simp [h.opening]
  steered := by
    have hs := h.steered
    rw [waiting, hpending, map_cons] at hs
    simpa [waiting] using hs
  outstanding := ho

theorem Inv.submit (h : w.Inv) (outcome : SendOutcome) (text : Str)
    (recovery : Option RecoverablePrompt) : (w.submit outcome text recovery).Inv := by
  have ho (prompt : AcceptedPrompt) : w.outstanding ++ [prompt] <:+ w.accepted ++ [prompt] := by
    obtain ⟨before, hb⟩ := h.outstanding
    exact ⟨before, by rw [← hb, append_assoc]⟩
  cases outcome with
  | notReady | rejected => exact h.of_held rfl rfl h.confirmed h.outstanding
  | startedTurn =>
    refine ⟨h.policy, h.confirmed, ?_, ?_, ho _⟩
    · simp [EchoSession.submit, h.opening]
    · simpa [EchoSession.submit, RecoverableDelivery.submit, MessageDelivery.submit,
        MessageDelivery.beginTurn, waiting] using h.steered
  | steered =>
    refine ⟨h.policy, ?_, ?_, ?_, ho _⟩
    · change w.delivery.confirmed ≤ (w.delivery.pending ++ [_]).length
      rw [length_append]
      exact h.confirmed.trans (Nat.le_add_right _ _)
    · simp [EchoSession.submit, h.opening]
    · simp [EchoSession.submit, RecoverableDelivery.submit, MessageDelivery.submit, waiting,
        QueuedPrompt.local, ← h.steered]

/-! ## What publishing and an echo do -/

theorem pushItem_none : w.pushItem none = w := by
  rw [pushItem, Option.toList_none, map_nil, append_nil]

theorem publish_zero (h : w.delivery.confirmed = 0) : w.publish = w := by
  rw [publish, MessageDelivery.popConfirmed, if_pos h]
  exact pushItem_none

theorem publish_succ {n : ℕ} {front : QueuedPrompt} {rest : List QueuedPrompt}
    (h : w.delivery.confirmed = n + 1) (hpending : w.delivery.pending = front :: rest) :
    w.publish =
      { w with
        delivery.pending := rest
        delivery.confirmed := n
        rows := w.rows ++ [⟨front.text, false⟩] } := by
  rw [publish, MessageDelivery.popConfirmed, if_neg (by omega), hpending, h]
  rfl

inductive Echoed (w : EchoSession) (prompt : AcceptedPrompt) (rest : List AcceptedPrompt) :
    EchoSession → Prop
  /-- It is taken for the echo of the opening prompt. -/
  | drawn (h : w.delivery.publishedPrompt = some prompt.text) :
    Echoed w prompt rest { w with delivery.publishedPrompt := none, outstanding := rest }
  | read (front : QueuedPrompt) (held : List QueuedPrompt)
    (h : w.delivery.publishedPrompt ≠ some prompt.text)
    (hpending : w.delivery.pending = front :: held) (htext : front.text = prompt.text) :
    Echoed w prompt rest
      { w with
        delivery.pending := held
        delivery.confirmed := w.delivery.confirmed - 1
        outstanding := rest
        rows := w.rows ++ [⟨front.text, false⟩] }
  | unknown (h : w.delivery.publishedPrompt ≠ some prompt.text)
    (hfront : ∀ front ∈ w.delivery.pending.head?, front.text ≠ prompt.text) :
    Echoed w prompt rest { w with outstanding := rest }

theorem echoed_echo (hpolicy : w.delivery.policy = .providerEcho)
    (ho : w.outstanding = prompt :: rest) :
    w.Echoed prompt rest w.echo := by
  have hecho : w.echo = (
      { w.setDelivery (w.delivery.echoed prompt.text).2 with outstanding := rest }
      |>.pushItem (w.delivery.echoed prompt.text).1) := by
    rw [echo, ho]
  rw [hecho, MessageDelivery.echoed]
  by_cases hdrawn : w.delivery.publishedPrompt = some prompt.text
  · rw [if_pos ⟨hpolicy, hdrawn⟩, pushItem_none]
    exact .drawn hdrawn
  · rw [if_neg fun h => hdrawn h.2]
    cases hpending : w.delivery.pending with
    | nil =>
      rw [pushItem_none]
      exact .unknown hdrawn (by simp [hpending])
    | cons front held =>
      dsimp only
      split
      · next htext => exact .read front held hdrawn hpending htext
      · next htext =>
        rw [pushItem_none]
        exact .unknown hdrawn (by simpa [hpending] using htext)

theorem Inv.publish (h : w.Inv) : w.publish.Inv := by
  cases hconfirmed : w.delivery.confirmed with
  | zero => rwa [publish_zero hconfirmed]
  | succ n =>
    have hle := h.confirmed
    cases hpending : w.delivery.pending with
    | nil => simp [hpending, hconfirmed] at hle
    | cons front rest =>
      rw [publish_succ hconfirmed hpending]
      rw [hpending, hconfirmed, length_cons] at hle
      exact h.pushed hpending (Nat.le_of_succ_le_succ hle) h.outstanding

theorem Inv.echo (h : w.Inv) (hne : w.outstanding ≠ []) : w.echo.Inv := by
  obtain ⟨prompt, rest, ho⟩ := exists_cons_of_ne_nil hne
  have hrest : rest <:+ w.accepted :=
    (suffix_cons prompt rest).trans (ho ▸ h.outstanding)
  have hechoed := echoed_echo h.policy ho
  generalize w.echo = w' at hechoed ⊢
  cases hechoed with
  | drawn | unknown => exact h.of_held rfl rfl h.confirmed hrest
  | read front held _ hpending =>
    refine h.pushed hpending ?_ hrest
    have := h.confirmed
    rw [hpending, length_cons] at this
    omega

theorem Inv.perform (h : w.Inv) {action : EchoAction} (he : w.Enabled action) :
    (w.perform action).Inv := by
  cases action with
  | submit outcome text recovery => exact h.submit outcome text recovery
  | beginTurn | replayTurn | turnCompleted => exact h.of_held rfl rfl h.confirmed h.outstanding
  | turnStarted =>
    change (w.setDelivery w.delivery.providerStarted).Inv
    rw [MessageDelivery.providerStarted]
    split
    · exact h
    · exact h.of_held rfl rfl h.confirmed h.outstanding
  | visibleOutput =>
    change Inv { w with delivery := w.delivery.visibleOutput }
    rw [RecoverableDelivery.visibleOutput]
    split
    · exact h.of_held rfl rfl h.confirmed h.outstanding
    · exact h
  | interrupt =>
    change Inv { w with delivery := w.delivery.takeInterruptedPrompt.2 }
    rw [RecoverableDelivery.takeInterruptedPrompt]
    split <;> exact h.of_held rfl rfl h.confirmed h.outstanding
  | exited => exact h.of_held rfl rfl (Nat.le_refl _) nil_suffix
  | stoppingForUpdate => exact h.of_held rfl rfl (Nat.le_refl _) h.outstanding
  | retired => exact h.of_held rfl rfl h.confirmed nil_suffix
  | publish => exact h.publish
  | echo => exact h.echo he.1

/-- The publishing loop publishes what is confirmed. -/
theorem publishConfirmed_eq (h : w.delivery.confirmed ≤ w.delivery.pending.length) :
    w.publishConfirmed.waiting = w.waiting.drop w.delivery.confirmed ∧
      w.publishConfirmed.rows = w.rows ++ w.waiting.take w.delivery.confirmed := by
  rw [publishConfirmed]
  induction hconfirmed : w.delivery.confirmed generalizing w with
  | zero => simp
  | succ n ih =>
    rw [hconfirmed] at h
    cases hpending : w.delivery.pending with
    | nil => simp [hpending] at h
    | cons front rest =>
      rw [hpending, length_cons] at h
      rw [Function.iterate_succ_apply]
      obtain ⟨hwaiting, hrows⟩ := ih (w := w.publish)
        (by rw [publish_succ hconfirmed hpending]; exact Nat.le_of_succ_le_succ h)
        (by rw [publish_succ hconfirmed hpending])
      rw [hwaiting, hrows, publish_succ hconfirmed hpending]
      simp [waiting, hpending]

/-! ## Echoes that are told apart -/

/-- The last outstanding prompt that has opened a turn, and those before it. -/
structure LastOpening (outstanding before : List AcceptedPrompt) (prompt : AcceptedPrompt) :
    Prop where
  opens : prompt.opens = true
  last : ∃ after, outstanding = before ++ prompt :: after ∧ ∀ later ∈ after, later.opens = false

/-- What holds as long as the texts tell prompts apart: the echo of every prompt that is held and
not confirmed is outstanding, and the text of the opening prompt is heard first in its own echo. -/
structure Heard (w : EchoSession) : Prop where
  owed : (texts (w.delivery.pending.drop w.delivery.confirmed)).Sublist
    ((steeredPrompts w.outstanding).map AcceptedPrompt.text)
  drawn : ∀ text, w.delivery.publishedPrompt = some text →
    ∀ prompt, w.outstanding.find? (·.text = text) = some prompt → prompt.opens = true
  opening : w.opened = true → ∀ before prompt, LastOpening w.outstanding before prompt →
    w.delivery.publishedPrompt = some prompt.text ∧ ∀ earlier ∈ before, earlier.text ≠ prompt.text

theorem not_lastOpening_nil : ¬ LastOpening [] before prompt := by
  rintro ⟨-, after, h, -⟩
  simp at h

theorem LastOpening.of_steered
    {text : Str} (h : LastOpening (outstanding ++ [⟨text, false⟩]) before prompt) :
    LastOpening outstanding before prompt := by
  obtain ⟨hopens, after, he, hafter⟩ := h
  obtain rfl | ⟨after, last, rfl⟩ := after.eq_nil_or_concat
  · obtain ⟨-, hlast⟩ := append_inj' he rfl
    obtain rfl := singleton_inj.mp hlast
    cases hopens
  · rw [concat_eq_append, ← cons_append, ← append_assoc] at he
    exact ⟨hopens, after, (append_inj' he rfl).1, fun later hl => hafter later (by simp [hl])⟩

theorem LastOpening.of_opening
    {text : Str} (h : LastOpening (outstanding ++ [⟨text, true⟩]) before prompt) :
    before = outstanding ∧ prompt = ⟨text, true⟩ := by
  obtain ⟨-, after, he, hafter⟩ := h
  obtain rfl | ⟨after, last, rfl⟩ := after.eq_nil_or_concat
  · obtain ⟨rfl, hlast⟩ := append_inj' he rfl
    exact ⟨rfl, (singleton_inj.mp hlast).symm⟩
  · rw [concat_eq_append, ← cons_append, ← append_assoc] at he
    have hlast := hafter last (by simp)
    rw [← singleton_inj.mp (append_inj' he rfl).2] at hlast
    cases hlast

theorem LastOpening.cons {first prompt : AcceptedPrompt} (h : LastOpening rest before prompt) :
    LastOpening (first :: rest) (first :: before) prompt := by
  obtain ⟨hopens, after, rfl, hafter⟩ := h
  exact ⟨hopens, after, rfl, hafter⟩

theorem heard_new (kind : AgentKind) : (new kind).Heard where
  owed := nil_sublist _
  drawn _ h := by cases h
  opening h := by cases h

/-- Without outstanding prompts nothing is owed. -/
theorem Heard.of_gone (w : EchoSession) (h : w.delivery.pending.length ≤ w.delivery.confirmed)
    (ho : w.outstanding = []) : w.Heard where
  owed := by
    rw [drop_eq_nil_of_le h]
    exact nil_sublist _
  drawn _ _ _ hfind := by
    rw [ho] at hfind
    cases hfind
  opening _ _ _ hlast := by
    rw [ho] at hlast
    exact absurd hlast not_lastOpening_nil

/-- What is owed depends on what is held and not confirmed only. -/
theorem Heard.of_held {w' : EchoSession} (h : w.Heard) (ho : w'.outstanding = w.outstanding)
    (hheld : w'.delivery.pending.drop w'.delivery.confirmed =
      w.delivery.pending.drop w.delivery.confirmed)
    (hdrawn : w'.delivery.publishedPrompt = w.delivery.publishedPrompt)
    (hopened : w'.opened = true → w.opened = true) : w'.Heard where
  owed := by
    rw [hheld, ho]
    exact h.owed
  drawn := by
    rw [hdrawn, ho]
    exact h.drawn
  opening ho' := by
    rw [hdrawn, ho]
    exact h.opening (hopened ho')

theorem Heard.submit (h : w.Heard) (hw : w.Inv) {outcome : SendOutcome} {text : Str}
    {recovery : Option RecoverablePrompt} (hknown : w.Known (.submit outcome text recovery)) :
    (w.submit outcome text recovery).Heard := by
  cases outcome with
  | notReady | rejected => exact h.of_held rfl rfl rfl id
  | steered =>
    refine ⟨?_, fun drawn hdrawn prompt hfind => ?_, fun hopened before prompt hlast => ?_⟩
    · have howed := h.owed.append (List.Sublist.refl [text])
      change (texts ((w.delivery.pending ++ [_]).drop w.delivery.confirmed)).Sublist
        ((steeredPrompts (w.outstanding ++ [_])).map AcceptedPrompt.text)
      rw [drop_append_of_le_length hw.confirmed]
      simpa [texts, QueuedPrompt.local] using howed
    · change (w.outstanding ++ _).find? _ = _ at hfind
      rw [find?_append] at hfind
      cases hold : w.outstanding.find? (·.text = drawn) with
      | some first =>
        rw [hold] at hfind
        cases hfind
        exact h.drawn drawn hdrawn prompt hold
      | none =>
        rw [hold, Option.none_or, find?_singleton] at hfind
        split at hfind
        · next htext =>
          obtain rfl : text = drawn := of_decide_eq_true htext
          obtain ⟨earlier, he, htext⟩ := hknown hdrawn
          exact absurd (decide_eq_true htext) (find?_eq_none.mp hold earlier he)
        · cases hfind
    · exact h.opening hopened before prompt hlast.of_steered
  | startedTurn =>
    refine ⟨?_, fun drawn hdrawn prompt hfind => ?_, fun _ before prompt hlast => ?_⟩
    · change (texts (w.delivery.pending.drop w.delivery.confirmed)).Sublist _
      simpa [EchoSession.submit] using h.owed
    · obtain rfl : text = drawn := Option.some.inj hdrawn
      change (w.outstanding ++ _).find? _ = _ at hfind
      have hnone : w.outstanding.find? (·.text = text) = none :=
        find?_eq_none.mpr fun earlier he => by simpa using hknown earlier he
      rw [find?_append, hnone, Option.none_or] at hfind
      obtain rfl := mem_singleton.mp (mem_of_find?_eq_some hfind)
      rfl
    · obtain ⟨rfl, rfl⟩ := hlast.of_opening
      exact ⟨rfl, hknown⟩

theorem Heard.publish (h : w.Heard) (hw : w.Inv) : w.publish.Heard := by
  cases hconfirmed : w.delivery.confirmed with
  | zero => rwa [publish_zero hconfirmed]
  | succ n =>
    cases hpending : w.delivery.pending with
    | nil =>
      have := hw.confirmed
      simp [hpending, hconfirmed] at this
    | cons front rest =>
      rw [publish_succ hconfirmed hpending]
      exact h.of_held rfl (by rw [hpending, hconfirmed]; rfl) rfl id

/-- An echo that is not taken for the opening prompt's. -/
theorem Heard.read (h : w.Heard) (ho : w.outstanding = prompt :: rest) (hother : w.delivery.publishedPrompt ≠ some prompt.text)
    {w' : EchoSession} (ho' : w'.outstanding = rest)
    (howed : (texts (w'.delivery.pending.drop w'.delivery.confirmed)).Sublist
      ((steeredPrompts rest).map AcceptedPrompt.text))
    (hdrawn : w'.delivery.publishedPrompt = w.delivery.publishedPrompt)
    (hopened : w'.opened = w.opened) : w'.Heard := by
  refine ⟨?_, fun text hd p hfind => ?_, fun hopen before p hlast => ?_⟩
  · rwa [ho']
  · rw [hdrawn] at hd
    rw [ho'] at hfind
    refine h.drawn text hd p ?_
    have hne : ¬ prompt.text = text := fun he => hother (he ▸ hd)
    rwa [ho, find?_cons_of_neg (by simpa using hne)]
  · rw [ho'] at hlast
    rw [hopened] at hopen
    obtain ⟨hd, hearlier⟩ := h.opening hopen (prompt :: before) p (by rw [ho]; exact hlast.cons)
    exact ⟨hdrawn.trans hd, fun earlier he => hearlier earlier (mem_cons_of_mem _ he)⟩

theorem Heard.echo (h : w.Heard) (hw : w.Inv) (hne : w.outstanding ≠ [])
    (hconfirmed : w.delivery.confirmed = 0) : w.echo.Heard := by
  obtain ⟨prompt, rest, ho⟩ := exists_cons_of_ne_nil hne
  have howed := h.owed
  rw [hconfirmed, drop_zero, ho] at howed
  have hopening (hopens : prompt.opens = true) :
      steeredPrompts (prompt :: rest) = steeredPrompts rest :=
    filter_cons_of_neg (by simp [hopens])
  have hsteered (hopens : ¬ prompt.opens = true) :
      steeredPrompts (prompt :: rest) = prompt :: steeredPrompts rest :=
    filter_cons_of_pos (by simpa using hopens)
  have hechoed := echoed_echo hw.policy ho
  generalize w.echo = w' at hechoed ⊢
  cases hechoed with
  | drawn hdrawn =>
    have hopens := h.drawn _ hdrawn prompt (by rw [ho]; exact find?_cons_of_pos (by simp))
    refine ⟨?_, fun _ hd => (by cases hd), fun hopened before p hlast => ?_⟩
    · rw [hopening hopens] at howed
      rwa [hconfirmed, drop_zero]
    · obtain ⟨hd, hearlier⟩ := h.opening hopened (prompt :: before) p (by rw [ho]; exact hlast.cons)
      exact absurd (Option.some.inj (hdrawn.symm.trans hd)) (hearlier prompt mem_cons_self)
  | read front held hother hpending htext =>
    refine h.read ho hother rfl ?_ rfl rfl
    rw [hpending] at howed
    rw [hconfirmed, Nat.zero_sub, drop_zero]
    by_cases hopens : prompt.opens = true
    · rw [hopening hopens] at howed
      exact (sublist_cons_self _ _).trans howed
    · rw [hsteered hopens] at howed
      exact howed.tail
  | unknown hother hfront =>
    refine h.read ho hother rfl ?_ rfl rfl
    rw [hconfirmed, drop_zero]
    by_cases hopens : prompt.opens = true
    · rwa [hopening hopens] at howed
    · rw [hsteered hopens] at howed
      cases hpending : w.delivery.pending with
      | nil => exact nil_sublist _
      | cons front held =>
        rw [hpending] at howed
        exact howed.of_cons_of_ne (hfront front (by rw [hpending]; rfl))

theorem Heard.perform (h : w.Heard) (hw : w.Inv) {action : EchoAction} (he : w.Enabled action)
    (hknown : w.Known action) : (w.perform action).Heard := by
  cases action with
  | submit outcome text recovery => exact h.submit hw hknown
  | beginTurn | replayTurn => exact h.of_held rfl rfl rfl id
  | turnStarted =>
    change (w.setDelivery w.delivery.providerStarted).Heard
    rw [MessageDelivery.providerStarted]
    split
    · exact h
    · exact h.of_held rfl rfl rfl id
  | turnCompleted =>
    refine ⟨h.owed, fun text hdrawn => ?_, fun hopened => (by cases hopened)⟩
    change w.delivery.toMessageDelivery.completed.publishedPrompt = some text at hdrawn
    rw [MessageDelivery.completed, if_pos hw.policy] at hdrawn
    cases hdrawn
  | visibleOutput =>
    change Heard { w with delivery := w.delivery.visibleOutput }
    rw [RecoverableDelivery.visibleOutput]
    split
    · exact h.of_held rfl rfl rfl id
    · exact h
  | interrupt =>
    change Heard { w with delivery := w.delivery.takeInterruptedPrompt.2 }
    rw [RecoverableDelivery.takeInterruptedPrompt]
    split <;> exact h.of_held rfl rfl rfl id
  | exited => exact .of_gone _ (Nat.le_refl _) rfl
  | stoppingForUpdate =>
    refine ⟨?_, h.drawn, h.opening⟩
    change (texts (w.delivery.pending.drop w.delivery.pending.length)).Sublist _
    rw [drop_length]
    exact nil_sublist _
  | retired =>
    have hnone : w.delivery.pending = [] := he
    exact .of_gone _ ((congrArg List.length hnone).trans_le (Nat.zero_le _)) rfl
  | publish => exact h.publish hw
  | echo => exact h.echo hw he.1 he.2

/-! ## Recovery -/

/-- What takes the recovery of a prompt away: an answer to it, its return, the end of its turn, or
another turn. -/
def Revokes : EchoAction → Prop
  | .visibleOutput | .interrupt | .turnCompleted | .exited | .beginTurn | .replayTurn
  | .submit .startedTurn _ _ => True
  | _ => False

/-- The prompt of an unanswered turn is from the submission that has opened it, as long as it is the
last turn. -/
def Recovers (actions : List EchoAction) (w : EchoSession) : Prop :=
  ∀ turn prompt, w.delivery.unanswered = some (turn, prompt) →
    turn ≤ w.delivery.turn ∧ (turn = w.delivery.turn →
      ∃ text, Since actions (.submit .startedTurn text (some prompt)) Revokes)

section

variable {actions : List EchoAction} {action : EchoAction} {w' : EchoSession}

/-- A step that changes neither the turn nor the unanswered prompt. -/
theorem Recovers.same (h : Recovers actions w)
    (hunanswered : w'.delivery.unanswered = w.delivery.unanswered)
    (hturn : w'.delivery.turn = w.delivery.turn) (hgo : ¬ Revokes action) :
    Recovers (actions ++ [action]) w' := by
  intro turn prompt hu
  rw [hunanswered] at hu
  rw [hturn]
  obtain ⟨hle, hsince⟩ := h turn prompt hu
  refine ⟨hle, fun he => ?_⟩
  obtain ⟨text, hs⟩ := hsince he
  exact ⟨text, since_concat.mpr (.inr ⟨hs, hgo⟩)⟩

/-- A step that opens another turn. -/
theorem Recovers.later (h : Recovers actions w)
    (hunanswered : w'.delivery.unanswered = w.delivery.unanswered)
    (hturn : w.delivery.turn < w'.delivery.turn) : Recovers (actions ++ [action]) w' := by
  intro turn prompt hu
  rw [hunanswered] at hu
  have hlt := (h turn prompt hu).1.trans_lt hturn
  exact ⟨hlt.le, fun he => absurd he hlt.ne⟩

theorem recovers_none (h : w'.delivery.unanswered = none) : Recovers actions w' := by
  intro turn prompt hu
  cases h.symm.trans hu

theorem Recovers.submit (h : Recovers actions w) (outcome : SendOutcome) (text : Str)
    (recovery : Option RecoverablePrompt) :
    Recovers (actions ++ [.submit outcome text recovery]) (w.submit outcome text recovery) := by
  cases outcome with
  | startedTurn =>
    intro turn prompt hu
    obtain ⟨_, rfl, he⟩ := Option.map_eq_some_iff.mp hu
    cases he
    exact ⟨Nat.le_refl _, fun _ => ⟨text, since_concat.mpr (.inl rfl)⟩⟩
  | steered | notReady | rejected => exact h.same rfl rfl id

theorem echoed_turn (d : MessageDelivery) (text : Str) : (d.echoed text).2.turn = d.turn := by
  rw [MessageDelivery.echoed]
  split
  · rfl
  · split
    · split <;> rfl
    · rfl

theorem popConfirmed_turn (d : MessageDelivery) : d.popConfirmed.2.turn = d.turn := by
  rw [MessageDelivery.popConfirmed]
  split <;> rfl

theorem Recovers.perform (h : Recovers actions w) (action : EchoAction) :
    Recovers (actions ++ [action]) (w.perform action) := by
  cases action with
  | submit outcome text recovery => exact h.submit outcome text recovery
  | beginTurn | replayTurn => exact h.later rfl (Nat.lt_succ_self _)
  | turnStarted =>
    change Recovers _ (w.setDelivery w.delivery.providerStarted)
    rw [MessageDelivery.providerStarted]
    split
    · exact h.same rfl rfl id
    · exact h.later rfl (Nat.lt_succ_self _)
  | turnCompleted | exited => exact recovers_none rfl
  | visibleOutput =>
    change Recovers _ { w with delivery := w.delivery.visibleOutput }
    rw [RecoverableDelivery.visibleOutput]
    split
    · exact recovers_none rfl
    · next hother =>
      intro turn prompt hu
      have hne : turn ≠ w.delivery.turn := fun he => hother (by
        rw [show w.delivery.unanswered = some (turn, prompt) from hu]
        exact decide_eq_true he)
      exact ⟨(h turn prompt hu).1, fun he => absurd he hne⟩
  | interrupt =>
    refine recovers_none ?_
    change w.delivery.takeInterruptedPrompt.2.unanswered = none
    rw [RecoverableDelivery.takeInterruptedPrompt]
    split <;> rfl
  | stoppingForUpdate | retired => exact h.same rfl rfl id
  | publish => exact h.same rfl (popConfirmed_turn _) id
  | echo =>
    change Recovers _ w.echo
    rw [echo]
    split
    · exact h.same rfl (echoed_turn _ _) id
    · exact h.same rfl rfl id

end

/-! ## The main result -/

/-- Every prompt is published once: the opening ones at once, and the steered ones in order and no
later than their echo, which is outstanding for those that are held and not confirmed.  The echo of
the opening prompt of a turn that is not completed publishes nothing. -/
structure PublishesOnce (w : EchoSession) : Prop where
  opening : openingPrompts w.rows = openingPrompts w.accepted
  steered : steeredPrompts w.rows ++ w.waiting = steeredPrompts w.accepted
  owed : w.waiting.drop w.delivery.confirmed <:+ steeredPrompts w.outstanding
  silent : w.opened = true → ∀ prompt rest, w.outstanding = prompt :: rest → prompt.opens = true →
    (∀ later ∈ rest, later.opens = false) → w.echo.rows = w.rows

theorem Heard.publishesOnce (h : w.Heard) (hw : w.Inv) : w.PublishesOnce := by
  refine ⟨hw.opening, hw.steered, ?_, fun hopened prompt rest ho hopens hlater => ?_⟩
  · have hwaiting : w.waiting.drop w.delivery.confirmed <:+ steeredPrompts w.accepted :=
      (drop_suffix _ _).trans (hw.steered ▸ suffix_append _ _)
    refine suffix_of_suffix_length_le hwaiting (hw.outstanding.filter _) ?_
    have hle := h.owed.length_le
    rw [texts, length_map, length_map, length_drop] at hle
    rw [length_drop, waiting, length_map]
    exact hle
  · have hdrawn := (h.opening hopened [] prompt ⟨hopens, rest, ho, hlater⟩).1
    have hechoed := echoed_echo hw.policy ho
    generalize w.echo = w' at hechoed ⊢
    cases hechoed with
    | drawn => rfl
    | read _ _ hother | unknown hother => exact absurd hdrawn hother

/-- After an exit or a stop everything that was held is published. -/
theorem Inv.flushed (h : w.Inv) (hall : w.delivery.confirmed = w.delivery.pending.length) :
    w.publishConfirmed.rows = w.rows ++ w.waiting ∧ w.publishConfirmed.waiting = [] := by
  obtain ⟨hwaiting, hrows⟩ := publishConfirmed_eq h.confirmed
  have hlength : w.delivery.confirmed = w.waiting.length := hall.trans (length_map _).symm
  rw [hrows, hwaiting, hlength, take_length, drop_length]
  exact ⟨rfl, rfl⟩

end EchoSession

open EchoSession

/-- **Every accepted prompt is published or held, in order,** whatever the texts and the echoes. -/
theorem echo_inv {actions : List EchoAction} {w : EchoSession} (h : Run echoes actions w) :
    w.Inv := by
  refine h.invariant (I := EchoSession.Inv) ?_ ?_
  · rintro w ⟨kind, hkind, rfl⟩
    exact inv_new hkind
  · rintro w action _ hw ⟨he, rfl⟩
    exact hw.perform he

theorem recovers_of_run {actions : List EchoAction} {w : EchoSession} (h : Run echoes actions w) :
    Recovers actions w := by
  refine h.history (I := Recovers) ?_ ?_
  · rintro w ⟨kind, -, rfl⟩
    exact recovers_none rfl
  · rintro actions w action _ hw ⟨-, rfl⟩
    exact hw.perform action

theorem heard_of_run {actions : List EchoAction} {w : EchoSession}
    (h : Run (echoes.restrict EchoSession.Known) actions w) : w.Inv ∧ w.Heard := by
  refine h.invariant (I := fun w => w.Inv ∧ w.Heard) ?_ ?_
  · rintro w ⟨kind, hkind, rfl⟩
    exact ⟨inv_new hkind, heard_new kind⟩
  · rintro w action _ ⟨hw, hheard⟩ ⟨hknown, he, rfl⟩
    exact ⟨hw.perform he, hheard.perform hw he hknown⟩

/-- **Echoes publish once.**  In a run in which the texts tell the prompts apart every accepted
prompt is published once; an exit or a stop publishes what is held, no more is ever confirmed than
held, and an interrupt returns a prompt only for the active turn, which nothing has answered or
taken back before. -/
theorem echoes_publish_once {actions : List EchoAction} {w : EchoSession}
    (h : Run (echoes.restrict EchoSession.Known) actions w) :
    w.PublishesOnce ∧
      (∀ before action, actions = before ++ [action] →
        action = .exited ∨ action = .stoppingForUpdate →
          w.publishConfirmed.rows = w.rows ++ w.waiting ∧ w.publishConfirmed.waiting = []) ∧
      w.delivery.confirmed ≤ w.delivery.pending.length ∧
      ∀ turn prompt, w.delivery.takeInterruptedPrompt.1 = some (turn, prompt) →
        w.delivery.active = true ∧ turn = w.delivery.turn ∧
          ∃ text, Since actions (.submit .startedTurn text (some prompt)) Revokes := by
  obtain ⟨hw, hheard⟩ := heard_of_run h
  refine ⟨hheard.publishesOnce hw, ?_, hw.confirmed, fun turn prompt htake ↦ ?_⟩
  · rintro before action rfl hflush
    obtain ⟨w, -, -, -, rfl⟩ := h.of_concat
    refine hw.flushed ?_
    rcases hflush with rfl | rfl <;> rfl
  · have hfilter : w.delivery.unanswered.filter (fun (turn, _) ↦
        w.delivery.active ∧ turn = w.delivery.turn) = some (turn, prompt) := by
      rw [RecoverableDelivery.takeInterruptedPrompt] at htake
      split at htake
      · cases htake
      · next hf => rw [hf, Option.some.inj htake]
    obtain ⟨hunanswered, hcheck⟩ := Option.filter_eq_some_iff.mp hfilter
    obtain ⟨hactive, hturn⟩ := of_decide_eq_true hcheck
    exact ⟨hactive, hturn, (recovers_of_run (h.of_restrict) turn prompt hunanswered).2 hturn⟩

/-- A turn is opened to run the tests and told twice to go on, before the update that stops it. -/
def goOnTwice : List EchoAction :=
  [.submit .startedTurn "run tests".toList (some ⟨"run tests".toList, [], none⟩),
    .submit .steered "go on".toList none, .submit .steered "go on".toList none, .echo, .echo,
    .stoppingForUpdate]

theorem echoes_publish_once_twice :
    let w := goOnTwice.foldl EchoSession.perform (.new .codex)
    w.PublishesOnce ∧
      (∀ before action, goOnTwice = before ++ [action] →
        action = .exited ∨ action = .stoppingForUpdate →
          w.publishConfirmed.rows = w.rows ++ w.waiting ∧ w.publishConfirmed.waiting = []) ∧
      w.delivery.confirmed ≤ w.delivery.pending.length ∧
      ∀ turn prompt, w.delivery.takeInterruptedPrompt.1 = some (turn, prompt) →
        w.delivery.active = true ∧ turn = w.delivery.turn ∧
          ∃ text, Since goOnTwice (.submit .startedTurn text (some prompt)) Revokes := by
  have hperforms : Performs (echoes.restrict EchoSession.Known) EchoSession.perform (.new .codex)
      goOnTwice := by
    refine ⟨⟨?_, ?_, rfl⟩, ⟨?_, ?_, rfl⟩, ⟨?_, ?_, rfl⟩, ⟨?_, ?_, rfl⟩, ⟨?_, ?_, rfl⟩,
      ⟨?_, ?_, rfl⟩, trivial⟩ <;> decide +kernel
  have hinit : Run (echoes.restrict EchoSession.Known) [] (.new .codex) :=
    .init ⟨.codex, by decide, rfl⟩
  exact echoes_publish_once (hinit.performs hperforms)

/-- Two prompts wait while `continue`, the text of the first of them, opens the next turn. -/
def repeatedText : List EchoAction :=
  [.submit .startedTurn "run tests".toList none, .echo, .submit .steered "continue".toList none,
    .submit .steered "push".toList none, .turnCompleted,
    .submit .startedTurn "continue".toList none, .echo, .echo, .echo]

/-- `go` opens a turn, the process exits, and `go` is steered into a turn that a command has opened.
-/
def exitedText : List EchoAction :=
  [.submit .startedTurn "go".toList none, .exited, .beginTurn, .submit .steered "go".toList none,
    .echo]

theorem echo_inv_exitedText : (exitedText.foldl EchoSession.perform (.new .codex)).Inv := by
  have hperforms : Performs echoes EchoSession.perform (.new .codex) exitedText := by
    refine ⟨⟨?_, rfl⟩, ⟨?_, rfl⟩, ⟨?_, rfl⟩, ⟨?_, rfl⟩, ⟨?_, rfl⟩, trivial⟩ <;> decide +kernel
  have hinit : Run echoes [] (.new .codex) := .init ⟨.codex, by decide, rfl⟩
  exact echo_inv (hinit.performs hperforms)

/-- Every echo has come, nothing is left to confirm, and a steered prompt is not published. -/
def Loses (actions : List EchoAction) (text : Str) : Prop :=
  ∃ w, Run echoes actions w ∧ w.outstanding = [] ∧ w.delivery.confirmed = 0 ∧
    ⟨text, false⟩ ∈ w.accepted ∧ ⟨text, false⟩ ∉ w.rows

theorem steered_prompts_lost : Loses repeatedText "push".toList ∧ Loses exitedText "go".toList := by
  have hrepeated : Performs echoes EchoSession.perform (.new .claude) repeatedText := by
    refine ⟨⟨?_, rfl⟩, ⟨?_, rfl⟩, ⟨?_, rfl⟩, ⟨?_, rfl⟩, ⟨?_, rfl⟩, ⟨?_, rfl⟩, ⟨?_, rfl⟩, ⟨?_, rfl⟩,
      ⟨?_, rfl⟩, trivial⟩ <;> decide +kernel
  have hexited : Performs echoes EchoSession.perform (.new .claude) exitedText := by
    refine ⟨⟨?_, rfl⟩, ⟨?_, rfl⟩, ⟨?_, rfl⟩, ⟨?_, rfl⟩, ⟨?_, rfl⟩, trivial⟩ <;> decide +kernel
  have hinit : Run echoes [] (.new .claude) := .init ⟨.claude, by decide, rfl⟩
  exact ⟨⟨_, hinit.performs hrepeated, by decide +kernel⟩,
    ⟨_, hinit.performs hexited, by decide +kernel⟩⟩

end NiumaTerm.Delivery
