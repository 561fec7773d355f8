import NiumaTerm.AgentSpec
import NiumaTerm.Lib.Transition

/-!
# Delivery of prompts

A session holds the prompts that its provider has accepted and not started.  DeepSeek republishes its
inbox, and a prompt that is held and no longer listed has been read.  Prompts have no id until they are
listed, so they are told apart by their text: they are published once and in order as long as a text does
not stand for two prompts where that matters (`InOrder`).
-/

namespace NiumaTerm.Delivery

open Rust Transition List

inductive PromptPlacement
  | queued
  | steering
deriving DecidableEq

structure QueuedPrompt where
  id : Option Str
  text : Str
  placement : PromptPlacement
deriving DecidableEq

/-- A prompt that the provider has said nothing of. -/
def QueuedPrompt.local (text : Str) (placement : PromptPlacement) : QueuedPrompt := ⟨none, text, placement⟩

inductive SendOutcome
  | startedTurn
  | steered
  | notReady
  | rejected (message : Str)

inductive QueuedPromptDelivery
  | providerEcho
  | pendingInbox
deriving DecidableEq

structure MessageDelivery where
  policy : QueuedPromptDelivery
  turn : ℕ
  active : Bool
  pending : List QueuedPrompt
  publishedPrompt : Option Str
  confirmed : ℕ

namespace MessageDelivery

def new (kind : AgentKind) : MessageDelivery where
  policy := match kind with
    | .codex | .claude => .providerEcho
    | .deepSeek => .pendingInbox
  turn := 0
  active := false
  pending := []
  publishedPrompt := none
  confirmed := 0

variable (d : MessageDelivery)

def beginTurn : MessageDelivery := { d with turn := d.turn + 1, active := true }

def submit (outcome : SendOutcome) (text : Str) : MessageDelivery :=
  match outcome with
  | .notReady | .rejected _ => d
  | .steered => { d with pending := d.pending ++ [.local text .steering] }
  | .startedTurn => { d.beginTurn with publishedPrompt := some text }

def providerStarted : MessageDelivery := if d.active then d else d.beginTurn

def completed : MessageDelivery :=
  { d with
    active := false
    publishedPrompt := if d.policy = .providerEcho then none else d.publishedPrompt }

/-- The text that the echo publishes, if any. -/
def echoed (text : Str) : Option Str × MessageDelivery :=
  -- the opening prompt is already in the transcript
  if d.policy = .providerEcho ∧ d.publishedPrompt = some text then (none, { d with publishedPrompt := none })
  else
    match d.pending with
    | front :: rest =>
      if front.text = text then (some front.text, { d with confirmed := d.confirmed - 1, pending := rest })
      else (none, d)
    | [] => (none, d)

/-- The provider's list without the opening prompt, and whether that is still in it. -/
def withoutPublished (prompts : List QueuedPrompt) : List QueuedPrompt × Option Str :=
  match d.publishedPrompt with
  | none => (prompts, none)
  | some drawn =>
    let rest := prompts.filter fun prompt => prompt.text ≠ drawn
    (rest, if rest.length = prompts.length then none else some drawn)

/-- The texts of the prompts that the provider has claimed. -/
def snapshot (prompts : List QueuedPrompt) : List Str × MessageDelivery :=
  let (prompts, published) := d.withoutPublished prompts
  ((d.pending.filter fun held => ¬ prompts.any (·.text = held.text)).map QueuedPrompt.text,
    { d with pending := prompts, publishedPrompt := published, confirmed := 0 })

end MessageDelivery

/-! ## The provider's inbox -/

def texts (prompts : List QueuedPrompt) : List Str := prompts.map QueuedPrompt.text

/-- The session, what its transcript shows of the user, and the provider with the prompts that it has read and those that
wait.  `opening` is the prompt that opened the last turn. -/
structure Inbox where
  delivery : MessageDelivery
  published : List Str
  consumed : List QueuedPrompt
  waiting : List QueuedPrompt
  opening : Option Str

inductive InboxAction
  | submit (outcome : SendOutcome) (text : Str) (id : Str) (placement : PromptPlacement)
  /-- The provider reads the next prompt. -/
  | consume
  /-- It sends a prompt back that it has read. -/
  | echo (index : ℕ)
  | snapshot
  | turnStarted
  | turnCompleted

namespace Inbox

def new : Inbox where
  delivery := .new .deepSeek
  published := []
  consumed := []
  waiting := []
  opening := none

variable (w : Inbox)

def submit (outcome : SendOutcome) (text : Str) (id : Str) (placement : PromptPlacement) : Inbox :=
  let w' : Inbox := { w with delivery := w.delivery.submit outcome text }
  match outcome with
  | .notReady | .rejected _ => w'
  | .steered => { w' with waiting := w.waiting ++ [⟨some id, text, placement⟩] }
  | .startedTurn =>
    { w' with
      published := w.published ++ [text]
      waiting := w.waiting ++ [⟨some id, text, placement⟩]
      opening := some id }

def consume : Inbox :=
  match w.waiting with
  | prompt :: rest => { w with consumed := w.consumed ++ [prompt], waiting := rest }
  | [] => w

def echo (index : ℕ) : Inbox :=
  match w.consumed[index]? with
  | some prompt =>
    { w with
      delivery := (w.delivery.echoed prompt.text).2
      published := w.published ++ (w.delivery.echoed prompt.text).1.toList }
  | none => w

def snapshot : Inbox :=
  { w with
    delivery := (w.delivery.snapshot w.waiting).2
    published := w.published ++ (w.delivery.snapshot w.waiting).1 }

def perform : InboxAction → Inbox
  | .submit outcome text id placement => w.submit outcome text id placement
  | .consume => w.consume
  | .echo index => w.echo index
  | .snapshot => w.snapshot
  | .turnStarted => { w with delivery := w.delivery.providerStarted }
  | .turnCompleted => { w with delivery := w.delivery.completed }

def prompts : List QueuedPrompt := w.consumed ++ w.waiting

/-- Ids are new. -/
def Enabled : InboxAction → Prop
  | .submit _ _ id _ => ∀ prompt ∈ w.prompts, prompt.id ≠ some id
  | .consume => w.waiting ≠ []
  | .echo index => index < w.consumed.length
  | _ => True

/-! ## What is published -/

def isOpening (prompt : QueuedPrompt) : Bool := w.opening.isSome ∧ prompt.id = w.opening

def opened : List QueuedPrompt := w.waiting.filter w.isOpening

def behind : List QueuedPrompt := w.waiting.filter fun prompt => !w.isOpening prompt

/-- The prompts whose texts are due: those read, and the opening one. -/
def due : List Str := texts (w.consumed ++ w.opened)

def unpublished : List Str := w.due.drop w.published.length

instance : DecidablePred w.Enabled
  | .submit _ _ id _ => inferInstanceAs (Decidable (∀ prompt ∈ w.prompts, prompt.id ≠ some id))
  | .consume => inferInstanceAs (Decidable (w.waiting ≠ []))
  | .echo index => inferInstanceAs (Decidable (index < w.consumed.length))
  | .snapshot | .turnStarted | .turnCompleted => instDecidableTrue

/-- What is published is due, each text once and in order, and what is due or waits and is not published is held. -/
structure Kept : Prop where
  published : w.published <+: w.due
  held : texts w.delivery.pending = w.unpublished ++ texts w.behind

/-- The session holds what waits, under the provider's ids, and everything due is published. -/
structure UpToDate : Prop where
  held : w.delivery.pending = w.behind
  published : w.published = w.due

/-- No text stands for two prompts where that matters.  A turn is opened when the last opening prompt has
been read and nothing else is unpublished; the front prompt is echoed when it is due; and no prompt that
waits at a snapshot has the text of the opening prompt or an unpublished one. -/
def InOrder : InboxAction → Prop
  | .submit .startedTurn text _ _ => w.opened = [] ∧ ∀ held ∈ w.unpublished, held = text
  | .consume => ∀ prompt ∈ w.waiting.head?, ∀ opening ∈ w.opened, opening.text = prompt.text
  | .echo index =>
    ∀ prompt ∈ w.consumed[index]?, ∀ front ∈ w.delivery.pending.head?, front.text = prompt.text → w.unpublished ≠ []
  | .snapshot => ∀ prompt ∈ w.behind, w.delivery.publishedPrompt ≠ some prompt.text ∧ prompt.text ∉ w.unpublished
  | _ => True

instance : DecidablePred w.InOrder
  | .submit .startedTurn text _ _ => inferInstanceAs (Decidable (w.opened = [] ∧ ∀ held ∈ w.unpublished, held = text))
  | .consume =>
    inferInstanceAs (Decidable (∀ prompt ∈ w.waiting.head?, ∀ opening ∈ w.opened, opening.text = prompt.text))
  | .echo index =>
    inferInstanceAs (Decidable (∀ prompt ∈ w.consumed[index]?, ∀ front ∈ w.delivery.pending.head?,
      front.text = prompt.text → w.unpublished ≠ []))
  | .snapshot =>
    inferInstanceAs (Decidable (∀ prompt ∈ w.behind,
      w.delivery.publishedPrompt ≠ some prompt.text ∧ prompt.text ∉ w.unpublished))
  | .submit .steered _ _ _ | .submit .notReady _ _ _ | .submit (.rejected _) _ _ _ | .turnStarted | .turnCompleted =>
    instDecidableTrue

end Inbox

def inboxes : System Inbox InboxAction where
  init w := w = .new
  step w action w' := w.Enabled action ∧ w' = w.perform action

namespace Inbox

section

variable {w : Inbox}

theorem texts_append (prompts more : List QueuedPrompt) : texts (prompts ++ more) = texts prompts ++ texts more :=
  map_append

/-- The order of equal texts does not matter. -/
theorem append_comm_of_eq {held : List Str} {text : Str} (h : ∀ x ∈ held, x = text) : held ++ [text] = text :: held := by
  rw [eq_replicate_of_mem h, ← replicate_succ', replicate_succ]

/-- What the published texts, the unpublished ones and the held ones have to do with each other. -/
theorem kept_iff : w.Kept ↔ ∃ rest, w.published ++ rest = w.due ∧ texts w.delivery.pending = rest ++ texts w.behind := by
  constructor
  · rintro ⟨⟨rest, hrest⟩, hheld⟩
    refine ⟨rest, hrest, ?_⟩
    rw [hheld, unpublished, ← hrest, drop_left]
  · rintro ⟨rest, hrest, hheld⟩
    refine ⟨⟨rest, hrest⟩, ?_⟩
    rw [hheld, unpublished, ← hrest, drop_left]

theorem unpublished_eq {rest : List Str} (h : w.published ++ rest = w.due) : w.unpublished = rest := by
  rw [unpublished, ← h, drop_left]

/-- The session works as it does for DeepSeek, knows the opening prompt by its text, and its texts are in order. -/
structure Inv (w : Inbox) : Prop where
  policy : w.delivery.policy = .pendingInbox
  drawn : ∀ opening ∈ w.opened, w.delivery.publishedPrompt = some opening.text
  known : ∀ id ∈ w.opening, ∃ prompt ∈ w.prompts, prompt.id = some id
  kept : w.Kept

theorem inv_new : Inv new where
  policy := rfl
  drawn := by simp [new, opened]
  known := by simp [new]
  kept := kept_iff.mpr ⟨[], rfl, rfl⟩

theorem isOpening_iff {prompt : QueuedPrompt} : w.isOpening prompt ↔ ∃ id, w.opening = some id ∧ prompt.id = some id := by
  cases ho : w.opening <;> simp [isOpening, ho]

/-! ## Steps -/

theorem Inv.steered (hw : w.Inv) {id : Str} (hnew : ∀ prompt ∈ w.prompts, prompt.id ≠ some id) (text : Str)
    (placement : PromptPlacement) : (w.submit .steered text id placement).Inv := by
  have hno : w.isOpening ⟨some id, text, placement⟩ = false := by
    rw [← Bool.not_eq_true, isOpening_iff]
    rintro ⟨other, ho, hid⟩
    obtain ⟨prompt, hp, hpid⟩ := hw.known other ho
    exact hnew prompt hp (hpid.trans hid.symm)
  have hopened : (w.submit .steered text id placement).opened = w.opened := by
    change List.filter w.isOpening (w.waiting ++ [_]) = _
    rw [filter_append, filter_singleton, hno]
    exact append_nil _
  have hbehind : (w.submit .steered text id placement).behind = w.behind ++ [⟨some id, text, placement⟩] := by
    change List.filter (fun prompt => !w.isOpening prompt) (w.waiting ++ [_]) = _
    rw [filter_append, filter_singleton, hno]
    rfl
  obtain ⟨rest, hdue, hheld⟩ := kept_iff.mp hw.kept
  refine ⟨hw.policy, ?_, ?_, kept_iff.mpr ⟨rest, ?_, ?_⟩⟩
  · rw [hopened]
    exact hw.drawn
  · intro other ho
    obtain ⟨prompt, hp, hpid⟩ := hw.known other ho
    refine ⟨prompt, ?_, hpid⟩
    change prompt ∈ w.consumed ++ (w.waiting ++ [_])
    rw [← append_assoc]
    exact mem_append_left _ hp
  · rw [due, hopened]
    exact hdue
  · rw [hbehind]
    change texts (w.delivery.pending ++ [_]) = _
    simp only [texts_append, hheld, append_assoc]
    rfl

theorem Inv.startedTurn (hw : w.Inv) {text id : Str} (hnew : ∀ prompt ∈ w.prompts, prompt.id ≠ some id)
    (hopened : w.opened = []) (heq : ∀ held ∈ w.unpublished, held = text) (placement : PromptPlacement) :
    (w.submit .startedTurn text id placement).Inv := by
  set w' := w.submit .startedTurn text id placement
  have hold : ∀ prompt ∈ w.waiting, w'.isOpening prompt = false := by
    intro prompt hp
    rw [← Bool.not_eq_true, isOpening_iff]
    rintro ⟨other, ho, hid⟩
    cases ho
    exact hnew prompt (mem_append_right _ hp) hid
  have hself : w'.isOpening ⟨some id, text, placement⟩ = true := isOpening_iff.mpr ⟨id, rfl, rfl⟩
  have hopened' : w'.opened = [⟨some id, text, placement⟩] := by
    change List.filter w'.isOpening (w.waiting ++ [_]) = _
    rw [filter_append, filter_singleton, hself, filter_eq_nil_iff.mpr (by simpa using hold)]
    rfl
  have hbehind : w'.behind = w.behind := by
    have hall : w.behind = w.waiting := by
      refine filter_eq_self.mpr fun prompt hp => ?_
      simpa using filter_eq_nil_iff.mp hopened prompt hp
    change List.filter (fun prompt => !w'.isOpening prompt) (w.waiting ++ [_]) = _
    rw [filter_append, filter_singleton, hself, hall, filter_eq_self.mpr (by simpa using hold)]
    exact append_nil _
  obtain ⟨rest, hdue, hheld⟩ := kept_iff.mp hw.kept
  rw [unpublished_eq hdue] at heq
  refine ⟨hw.policy, ?_, ?_, kept_iff.mpr ⟨rest, ?_, ?_⟩⟩
  · rw [hopened']
    intro opening ho
    rw [mem_singleton.mp ho]
    rfl
  · intro other ho
    cases ho
    exact ⟨_, mem_append_right _ (mem_append_right _ (mem_singleton_self _)), rfl⟩
  · have hdue' : w'.due = w.due ++ [text] := by
      rw [due, due, hopened, hopened', append_nil]
      exact texts_append _ _
    -- the unpublished texts are all equal to the new one
    rw [hdue', ← hdue, append_assoc, append_comm_of_eq heq]
    exact append_assoc w.published [text] rest
  · rw [hbehind]
    exact hheld

theorem Inv.consume (hw : w.Inv) (hfirst : ∀ prompt ∈ w.waiting.head?, ∀ opening ∈ w.opened, opening.text = prompt.text) :
    w.consume.Inv := by
  obtain ⟨rest, hdue, hheld⟩ := kept_iff.mp hw.kept
  cases hwait : w.waiting with
  | nil =>
    rw [Inbox.consume, hwait]
    exact hw
  | cons prompt waiting =>
    have hc : w.consume = { w with consumed := w.consumed ++ [prompt], waiting } := by
      rw [Inbox.consume, hwait]
    rw [hc]
    set w' : Inbox := { w with consumed := w.consumed ++ [prompt], waiting }
    have hprompts : w'.prompts = w.prompts := by
      rw [prompts, prompts, hwait, append_assoc]
      rfl
    have hopened : w.opened = List.filter w.isOpening (prompt :: waiting) := by rw [opened, hwait]
    have hbehind : w.behind = List.filter (fun prompt => !w.isOpening prompt) (prompt :: waiting) := by rw [behind, hwait]
    have hsub : ∀ opening ∈ w'.opened, opening ∈ w.opened := by
      intro opening ho
      rw [hopened]
      exact (sublist_cons_self _ _).filter _ |>.subset ho
    have hkept : w'.Kept := by
      rw [kept_iff]
      by_cases hp : w.isOpening prompt = true
      · rw [filter_cons_of_pos hp] at hopened
        rw [filter_cons_of_neg (by simp [hp])] at hbehind
        refine ⟨rest, ?_, hheld.trans (by rw [hbehind]; rfl)⟩
        rw [hdue, due, due, hopened, append_cons]
        rfl
      · rw [filter_cons_of_neg hp] at hopened
        rw [filter_cons_of_pos (by simp [hp])] at hbehind
        refine ⟨rest ++ [prompt.text], ?_, ?_⟩
        · have heq : ∀ text ∈ texts w.opened, text = prompt.text := by
            intro text ht
            obtain ⟨opening, ho, rfl⟩ := mem_map.mp ht
            exact hfirst prompt (by rw [hwait]; rfl) opening ho
          rw [← append_assoc, hdue, due, due, texts_append, append_assoc, append_comm_of_eq heq, hopened]
          change _ = texts ((w.consumed ++ [prompt]) ++ _)
          simp only [texts_append, append_assoc]
          rfl
        · rw [append_assoc, hheld.trans (by rw [hbehind])]
          rfl
    refine ⟨hw.policy, fun opening ho => hw.drawn opening (hsub opening ho), fun id hid => ?_, hkept⟩
    rw [hprompts]
    exact hw.known id hid

theorem Inv.echo (hw : w.Inv) {index : ℕ}
    (hdue : ∀ prompt ∈ w.consumed[index]?, ∀ front ∈ w.delivery.pending.head?, front.text = prompt.text →
      w.unpublished ≠ []) : (w.echo index).Inv := by
  cases hprompt : w.consumed[index]? with
  | none =>
    rw [Inbox.echo, hprompt]
    exact hw
  | some prompt =>
    have he : w.echo index =
        { w with
          delivery := (w.delivery.echoed prompt.text).2
          published := w.published ++ (w.delivery.echoed prompt.text).1.toList } := by
      rw [Inbox.echo, hprompt]
    rw [he, MessageDelivery.echoed, if_neg (by simp [hw.policy])]
    cases hpending : w.delivery.pending with
    | nil => simpa using hw
    | cons front held =>
      by_cases htext : front.text = prompt.text
      · simp only [htext, if_true]
        obtain ⟨rest, hrest, hheld⟩ := kept_iff.mp hw.kept
        have hne := hdue prompt hprompt front (by rw [hpending]; rfl) htext
        rw [unpublished_eq hrest] at hne
        obtain ⟨first, rest, rfl⟩ := exists_cons_of_ne_nil hne
        rw [hpending] at hheld
        obtain ⟨hfirst, hheld⟩ := List.cons.inj hheld
        refine ⟨hw.policy, hw.drawn, hw.known, kept_iff.mpr ⟨rest, ?_, hheld⟩⟩
        rw [← htext, hfirst]
        exact (append_assoc w.published [first] rest).trans hrest
      · simp only [if_neg htext]
        simpa using hw

/-- What the session takes out of the provider's list is the opening prompt. -/
theorem Inv.withoutPublished (hw : w.Inv) (hfree : ∀ prompt ∈ w.behind, w.delivery.publishedPrompt ≠ some prompt.text) :
    (w.delivery.withoutPublished w.waiting).1 = w.behind ∧
      ∀ opening ∈ w.opened, (w.delivery.withoutPublished w.waiting).2 = some opening.text := by
  rw [MessageDelivery.withoutPublished]
  cases hdrawn : w.delivery.publishedPrompt with
  | none =>
    have hnone : ∀ prompt ∈ w.waiting, ¬ w.isOpening prompt = true := by
      intro prompt hp ho
      cases hdrawn.symm.trans (hw.drawn prompt (mem_filter.mpr ⟨hp, ho⟩))
    refine ⟨(filter_eq_self.mpr fun prompt hp => by simpa using hnone prompt hp).symm, fun opening ho => ?_⟩
    exact absurd (mem_filter.mp ho).2 (hnone opening (mem_filter.mp ho).1)
  | some drawn =>
    have hrest : (w.waiting.filter fun prompt => prompt.text ≠ drawn) = w.behind := by
      refine filter_congr fun prompt hp => ?_
      cases ho : w.isOpening prompt with
      | true =>
        have htext := hdrawn.symm.trans (hw.drawn prompt (mem_filter.mpr ⟨hp, ho⟩))
        cases htext
        exact decide_eq_false fun hne => hne rfl
      | false =>
        have := hfree prompt (mem_filter.mpr ⟨hp, by simp [ho]⟩)
        rw [hdrawn] at this
        exact decide_eq_true fun heq => this (congrArg some heq.symm)
    refine ⟨hrest, fun opening ho => ?_⟩
    have hlt : w.behind.length < w.waiting.length := by
      refine length_filter_lt_length_iff_exists.mpr ⟨opening, (mem_filter.mp ho).1, ?_⟩
      simp [(mem_filter.mp ho).2]
    have htext := hdrawn.symm.trans (hw.drawn opening ho)
    simp only [hrest, if_neg hlt.ne]
    exact htext

theorem Inv.snapshot (hw : w.Inv)
    (hfree : ∀ prompt ∈ w.behind, w.delivery.publishedPrompt ≠ some prompt.text ∧ prompt.text ∉ w.unpublished) :
    w.snapshot.Inv ∧ w.snapshot.UpToDate := by
  obtain ⟨hwithout, hdrawn⟩ := hw.withoutPublished fun prompt hp => (hfree prompt hp).1
  obtain ⟨rest, hdue, hheld⟩ := kept_iff.mp hw.kept
  rw [unpublished_eq hdue] at hfree
  have hpending : w.snapshot.delivery.pending = w.behind := hwithout
  have hclaimed : (w.delivery.snapshot w.waiting).1 = rest := by
    change ((w.delivery.pending.filter fun held =>
      ¬ (w.delivery.withoutPublished w.waiting).1.any (·.text = held.text)).map QueuedPrompt.text) = rest
    rw [hwithout]
    change ((w.delivery.pending.filter
      ((fun text => decide ¬ w.behind.any (·.text = text)) ∘ QueuedPrompt.text)).map QueuedPrompt.text) = rest
    rw [← filter_map, ← texts, hheld, filter_append, filter_eq_self.mpr, filter_eq_nil_iff.mpr,
      append_nil]
    · intro text ht
      obtain ⟨prompt, hp, rfl⟩ := mem_map.mp ht
      simpa using ⟨prompt, hp, rfl⟩
    · intro text ht
      have : ∀ prompt ∈ w.behind, prompt.text ≠ text := fun prompt hp heq => (hfree prompt hp).2 (heq ▸ ht)
      simpa using this
  have hpublished : w.snapshot.published = w.due := by
    change w.published ++ (w.delivery.snapshot w.waiting).1 = w.due
    rw [hclaimed, hdue]
  exact ⟨⟨hw.policy, hdrawn, hw.known, kept_iff.mpr ⟨[], (append_nil _).trans hpublished, by rw [hpending]; rfl⟩⟩,
    hpending, hpublished⟩

theorem Inv.perform (hw : w.Inv) {action : InboxAction} (he : w.Enabled action) (ho : w.InOrder action) :
    (w.perform action).Inv := by
  cases action with
  | submit outcome text id placement =>
    cases outcome with
    | startedTurn => exact hw.startedTurn he ho.1 ho.2 placement
    | steered => exact hw.steered he text placement
    | notReady | rejected => exact hw
  | consume => exact hw.consume ho
  | echo => exact hw.echo ho
  | snapshot => exact (hw.snapshot ho).1
  | turnStarted =>
    change Inv { w with delivery := w.delivery.providerStarted }
    rw [MessageDelivery.providerStarted]
    split
    · exact hw
    · exact ⟨hw.policy, hw.drawn, hw.known, hw.kept.published, hw.kept.held⟩
  | turnCompleted =>
    have hdrawn : w.delivery.completed.publishedPrompt = w.delivery.publishedPrompt := by
      simp [MessageDelivery.completed, hw.policy]
    exact ⟨hw.policy, fun opening ho => hdrawn.trans (hw.drawn opening ho), hw.known, hw.kept.published, hw.kept.held⟩

end

end Inbox

/-- In a run that is in order every prompt's text is published once, in the order in which they are read, and after a snapshot
the session is up to date. -/
theorem prompts_published_once {actions : List InboxAction} {w : Inbox}
    (h : Run (inboxes.restrict Inbox.InOrder) actions w) :
    w.Kept ∧ ∀ before, actions = before ++ [.snapshot] → w.UpToDate := by
  have hinv : ∀ {actions w}, Run (inboxes.restrict Inbox.InOrder) actions w → w.Inv := by
    intro actions w h
    refine h.invariant (I := Inbox.Inv) ?_ ?_
    · rintro w rfl
      exact Inbox.inv_new
    · rintro w action w' hw ⟨ho, he, rfl⟩
      exact hw.perform he ho
  refine ⟨(hinv h).kept, ?_⟩
  rintro before rfl
  obtain ⟨w, hr, ho, -, rfl⟩ := h.of_concat
  exact ((hinv hr).snapshot ho).2

/-- A turn that is opened to run the tests and told to push them. -/
def twoPrompts : List InboxAction :=
  [.submit .startedTurn "run tests".toList "1".toList .queued, .submit .steered "push".toList "2".toList .steering, .snapshot,
    .consume, .consume, .echo 1, .snapshot]

theorem prompts_published_once_two :
    let w := twoPrompts.foldl Inbox.perform .new
    (w.Kept ∧ ∀ before, twoPrompts = before ++ [.snapshot] → w.UpToDate) ∧
      w.published = ["run tests".toList, "push".toList] := by
  have hperforms : Performs (inboxes.restrict Inbox.InOrder) Inbox.perform .new twoPrompts := by
    refine ⟨⟨?_, ?_, rfl⟩, ⟨?_, ?_, rfl⟩, ⟨?_, ?_, rfl⟩, ⟨?_, ?_, rfl⟩, ⟨?_, ?_, rfl⟩, ⟨?_, ?_, rfl⟩, ⟨?_, ?_, rfl⟩, trivial⟩ <;>
      decide +kernel
  exact ⟨prompts_published_once ((Run.init rfl).performs hperforms), by decide +kernel⟩

/-- `continue` opens a turn and is sent again while it waits. -/
def sameText : List InboxAction :=
  [.submit .startedTurn "continue".toList "1".toList .queued, .submit .steered "continue".toList "2".toList .steering,
    .snapshot]

/-- The second prompt waits and is published and not held. -/
theorem repeated_text_published_early :
    ∃ w, Run inboxes sameText w ∧ w.behind = [⟨some "2".toList, "continue".toList, .steering⟩] ∧
      w.delivery.pending = [] ∧ w.published = ["continue".toList, "continue".toList] ∧ w.consumed = [] := by
  have hperforms : Performs inboxes Inbox.perform .new sameText :=
    ⟨⟨by decide +kernel, rfl⟩, ⟨by decide +kernel, rfl⟩, ⟨by decide +kernel, rfl⟩, trivial⟩
  exact ⟨_, (Run.init rfl).performs hperforms, by decide +kernel⟩

end NiumaTerm.Delivery
