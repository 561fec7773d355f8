import NiumaTerm.ClaudeCode.Tasks.Steps
import NiumaTerm.Lib.Transition

/-!
# One child, one row

A child is named by task, tool-use and agent identifiers, and a record that holds two of them proves that
they name one child.  `reducer` is the system of the records, in any order; `one_row_per_child` says that
the rows of a run are the classes of tied identifiers.
-/

namespace NiumaTerm.ClaudeCode

open Rust List

namespace ClaudeTasks

variable {Item : Type} {content : ChildContent Item} {t t' : ClaudeTasks Item} {row : Str}
  {links ids : List Str} {sid : Str} {names : List Str} {ties : List (List Str)}

/-! ## The invariant -/

theorem canonical_of_keeps (h : Keeps t t') : t'.canonical = t.canonical := by
  funext id
  rw [canonical, canonical, h.aliases, h.rows]

theorem Sound.of_keeps (h : t.Sound sid names ties) (hkeeps : Keeps t t') :
    t'.Sound sid names ([] :: ties) where
  session := hkeeps.session.trans h.session
  claude := hkeeps.claude h.claude
  fits := hkeeps.aliases ▸ h.fits
  valued id row hid := by
    rw [hkeeps.rows]
    exact h.valued id row (hkeeps.aliases ▸ hid)
  keyed id row hid := by
    have hnone := h.keyed id row (hkeeps.aliases ▸ hid)
    rw [← Option.not_isSome_iff_eq_none, hkeeps.rows, hnone]
    exact Bool.false_ne_true
  faithful := canonical_of_keeps hkeeps ▸ h.faithful.skip

section

variable {held : List Str} (h : t.Sound sid names ties) (htouches : Touches t t' row links)
  (habout : About t held row links) (hheld : held ⊆ names)

include h habout

/-- The row of a record is no alias. -/
theorem Sound.lookup_row : t.aliases.lookup row = none := by
  by_contra hne
  obtain ⟨other, hother⟩ := Option.ne_none_iff_exists'.mp hne
  have hnone := h.keyed row other hother
  have hself : other = row := by
    rcases habout.lead with hmem | ⟨id, _, hid⟩
    · exact habout.only row hmem other (canonical_of_lookup hother)
    · have hmade := h.made hid
      rw [hnone] at hmade
      cases hmade
  have hvalued := h.valued row other hother
  rw [hself, hnone] at hvalued
  cases hvalued

include htouches hheld

theorem Sound.lookup_next (x : Str) : t'.aliases.lookup x =
    (t.aliases.lookup x).or (if x ∈ links ∧ x ≠ row then some row else none) := by
  rw [htouches.aliases]
  exact AliasTable.lookup_linkAll h.fits (List.Subset.trans habout.linked hheld) x

/-- **What the record's identifiers resolve to afterwards.** -/
theorem Sound.canonical_next (x : Str) :
    t'.canonical x = if x = row ∨ x ∈ held then some row else t.canonical x := by
  have hlookup := h.lookup_next htouches habout hheld x
  by_cases hself : x = row
  · subst hself
    rw [h.lookup_row habout, Option.none_or, if_neg fun hx => hx.2 rfl] at hlookup
    rw [if_pos (.inl rfl), canonical_of_row hlookup htouches.made]
  · rw [canonical, hlookup, htouches.others x hself]
    by_cases hmem : x ∈ held
    · rw [if_pos (show x = row ∨ x ∈ held from .inr hmem)]
      cases hx : t.canonical x with
      | some old =>
        -- it resolved to the row by the table, since it is not the row itself
        have hold := habout.only x hmem old hx
        subst hold
        rcases canonical_cases hx with hlook | ⟨-, heq, -⟩
        · rw [hlook, Option.some_or, Option.some_or]
        · exact absurd heq hself
      | none =>
        have hlink : x ∈ links := by
          rcases habout.rest x hmem with hlink | heq | hrow
          · exact hlink
          · exact absurd heq hself
          · rw [hx] at hrow
            cases hrow
        rw [canonical, Option.or_eq_none_iff] at hx
        rw [hx.1, Option.none_or, if_pos (show x ∈ links ∧ x ≠ row from ⟨hlink, hself⟩),
          Option.some_or]
    · rw [if_neg (not_or_intro hself hmem), if_neg fun hx => hmem (habout.linked hx.1),
        Option.or_none, canonical]

/-- A record that tells of one row keeps the invariant, and its identifiers are tied. -/
theorem Sound.of_touches : t'.Sound sid names (held :: ties) where
  session := htouches.session.trans h.session
  claude := htouches.claude h.claude
  fits := by
    rw [htouches.aliases]
    exact AliasTable.fits_linkAll h.fits (List.Subset.trans habout.linked hheld)
  valued id value hid := by
    by_cases hvalue : value = row
    · rw [hvalue]
      exact htouches.made
    · rw [h.lookup_next htouches habout hheld, Option.or_eq_some_iff] at hid
      rcases hid with hid | ⟨-, hid⟩
      · rw [htouches.others value hvalue]
        exact h.valued id value hid
      · split at hid
        · exact absurd (Option.some.inj hid).symm hvalue
        · cases hid
  keyed id value hid := by
    rw [h.lookup_next htouches habout hheld, Option.or_eq_some_iff] at hid
    have hself : id ≠ row := by
      rintro rfl
      rw [h.lookup_row habout] at hid
      simp at hid
    rw [htouches.others id hself]
    rcases hid with hid | ⟨hnone, hid⟩
    · exact h.keyed id value hid
    · -- a new alias had no row, or it would have been the row of the record
      split at hid
      · next hlink =>
        rw [← Option.not_isSome_iff_eq_none]
        intro hrow
        exact hself (habout.only id (habout.linked hlink.1) id (canonical_of_row hnone hrow))
      · cases hid
  faithful := h.faithful.link habout.lead habout.only
    (h.canonical_next htouches habout hheld)

end

theorem held_subset (t : ClaudeTasks Item) (o : Observed Item) : t.held o ⊆ o.names := by
  cases o with
  | lifecycle kind record | hook message | sidechain parentToolUseId message =>
    rw [held]
    split
    · exact List.Subset.refl _
    · exact nil_subset _
  | assistantBlock block | backgroundEntry entry | restored task startingSequence =>
    exact List.Subset.refl _
  | userBlock message block =>
    rw [held, Observed.names]
    cases toolResult block with
    | none => exact List.Subset.refl _
    | some toolUseId =>
      rw [Option.elim_some, Option.elim_some]
      split
      · exact List.Subset.refl _
      · exact nil_subset _
  | discovery state | exited | taken => exact nil_subset _

/-- **One clear step keeps the invariant.** -/
theorem Sound.react (h : t.Sound sid names ties) (now : ℕ) (o : Observed Item)
    (hclear : t.clear o = true) (hnames : o.names ⊆ names) :
    (t.react content now o).2.Sound sid names (t.held o :: ties) := by
  cases responds content h now o hclear with
  | silent hheld hkeeps =>
    rw [hheld]
    exact h.of_keeps hkeeps
  | tells row links htouches habout =>
    exact h.of_touches htouches habout (List.Subset.trans (held_subset t o) hnames)

/-- **A record changes no row that none of its identifiers resolves to.** -/
theorem Sound.frame (h : t.Sound sid names ties) (now : ℕ) {o : Observed Item}
    (hclear : t.clear o = true) (hnames : o.names ⊆ names) (hrecord : o.isRecord = true) {id : Str}
    (hid : ∀ name ∈ t.held o, (t.react content now o).2.canonical name ≠ some id) :
    (t.react content now o).2.row id = t.row id ∧
      (t.react content now o).2.transcript id = t.transcript id := by
  cases responds content h now o hclear with
  | silent _ _ hleaves =>
    have hleaves := hleaves hrecord
    exact ⟨hleaves.rows id, hleaves.told id⟩
  | tells row links htouches habout =>
    have hnext := h.canonical_next htouches habout (List.Subset.trans (held_subset t o) hnames)
    have hsome : ∃ name, name ∈ t.held o := by
      rcases habout.lead with hmem | ⟨name, hmem, -⟩
      · exact ⟨row, hmem⟩
      · exact ⟨name, hmem⟩
    obtain ⟨name, hmem⟩ := hsome
    have hne : id ≠ row := by
      rintro rfl
      exact hid name hmem ((hnext name).trans (if_pos (.inr hmem)))
    exact ⟨htouches.others id hne, htouches.told id hne⟩

theorem sound_started (hroom : names.length ≤ MAX_ALIASES) (sessionId : Str) :
    (setSession ({} : ClaudeTasks Item) sessionId).2.Sound sessionId names [] where
  session := rfl
  claude registry hregistry key hkey := by
    cases hregistry
    cases hkey
  fits := .empty hroom
  valued _ _ h := nomatch h
  keyed _ _ h := nomatch h
  faithful := .nil

end ClaudeTasks

/-! ## The system -/

/-- The steps of a message. -/
def Observed.ofMessage {Item : Type} (message : Json) : List (Observed Item) :=
  let kind := message.get "type"
  let linkedParent := (message.get "parent_tool_use_id").asStr
  let subtype := (message.get "subtype").asStr.getD []
  if kind.isText "system" then
    if subtype = "hook_started".toList || subtype = "hook_response".toList then [.hook message]
    else if subtype = "background_tasks_changed".toList then
      ((message.get "tasks").asArray.getD []).map .backgroundEntry
    else ((LifecycleKind.ofSubtype subtype).map fun kind => .lifecycle kind message).toList
  else if kind.isText "assistant" || kind.isText "stream_event" then
    linkedParent.elim ((contentBlocks message).map .assistantBlock) fun parent =>
      [.sidechain parent message]
  else if kind.isText "user" then
    linkedParent.elim ((contentBlocks message).map (.userBlock message)) fun parent =>
      [.sidechain parent message]
  else []

namespace ClaudeTasks

variable {Item : Type} (content : ChildContent Item) (t : ClaudeTasks Item)

/-- One step after another. -/
def reactAll (now : ℕ) (steps : List (Observed Item)) : ClaudeTasks Item :=
  steps.foldl (fun t o => (t.react content now o).2) t

/-- A message of the session that is current resets nothing. -/
theorem observe_current (now : ℕ) (message : Json) (hlive : t.sessionId.isSome)
    (hsession : (message.get "session_id").asStr.all fun id => t.sessionId = some id) :
    t.observe content now message = t.observeCurrent content now message := by
  have hsome : t.registry.isNone = false := by
    rw [sessionId, Option.isSome_map] at hlive
    rw [← Option.not_isSome, hlive, Bool.not_true]
  rw [observe]
  cases hid : (message.get "session_id").asStr with
  | none =>
    dsimp only
    rw [hsome, if_neg Bool.false_ne_true]
  | some id =>
    rw [hid, Option.all_some, decide_eq_true_eq] at hsession
    have hsame : (t.setSession id).2 = t := by rw [setSession, if_pos hsession]
    simp only [hsame, hsome, Bool.false_eq_true, if_false]

/-- **A message of the session is a run of steps.** -/
theorem observe_eq (now : ℕ) (message : Json) (hlive : t.sessionId.isSome)
    (hsession : (message.get "session_id").asStr.all fun id => t.sessionId = some id) :
    (t.observe content now message).2 =
      t.reactAll content now (Observed.ofMessage message) := by
  rw [observe_current content t now message hlive hsession, observeCurrent, Observed.ofMessage]
  simp only [observeSystem]
  split
  · split
    · rfl
    · split
      · rw [observeBackgroundSnapshot, foldChanges_snd, reactAll, foldl_map]
        rfl
      · cases LifecycleKind.ofSubtype ((message.get "subtype").asStr.getD []) <;> rfl
  · split
    · cases (message.get "parent_tool_use_id").asStr with
      | none =>
        simp only [Option.elim_none]
        rw [observeParentAssistant, foldChanges_snd, reactAll, foldl_map]
        rfl
      | some parent => rfl
    · split
      · cases (message.get "parent_tool_use_id").asStr with
        | none =>
          simp only [Option.elim_none]
          rw [observeParentUser, foldChanges_snd, reactAll, foldl_map]
          rfl
        | some parent => rfl
      · rfl

/-- **So is a history.** -/
theorem finishRestoration_eq (now : ℕ) (tasks : List (RestoredTask Item)) (startingSequence : ℕ)
    (hlive : t.sessionId.isSome) :
    (t.finishRestoration (.ok tasks) startingSequence).2 =
      t.reactAll content now
        (tasks.map (.restored · startingSequence) ++ [.discovery .ready]) := by
  rw [sessionId, Option.isSome_map] at hlive
  obtain ⟨registry, hregistry⟩ := Option.isSome_iff_exists.mp hlive
  rw [finishRestoration, hregistry, reactAll, foldl_append, foldl_map]
  simp only [foldl_cons, foldl_nil, react, ← foldChanges_snd]

end ClaudeTasks

open Transition

/-- A reducer, and the groups of identifiers that records of an admitted child held together. -/
structure Tracked (Item : Type) where
  tasks : ClaudeTasks Item
  ties : List (List Str)

variable {Item : Type} (content : ChildContent Item) (sessionId : Str)

def Tracked.observe (s : Tracked Item) (label : ℕ × Observed Item) : Tracked Item where
  tasks := (s.tasks.react content label.1 label.2).2
  ties := s.tasks.held label.2 :: s.ties

def Tracked.started : Tracked Item := ⟨(ClaudeTasks.setSession {} sessionId).2, []⟩

/-- One session: its records in any order, each with the time it comes at. -/
def reducer : System (Tracked Item) (ℕ × Observed Item) where
  init s := s = Tracked.started sessionId
  step s label s' := s' = s.observe content label

def Tracked.Clear (s : Tracked Item) (label : ℕ × Observed Item) : Prop :=
  s.tasks.clear label.2 = true

instance (s : Tracked Item) (label : ℕ × Observed Item) : Decidable (s.Clear label) :=
  inferInstanceAs (Decidable (_ = true))

/-- A child is a class of tied identifiers. -/
structure Tracked.OneRow (s : Tracked Item) : Prop where
  /-- identifiers that one record held are about one row -/
  together : ∀ ids ∈ s.ties, ∀ a ∈ ids, ∃ row, (s.tasks.row row).isSome ∧
    ∀ b ∈ ids, s.tasks.canonical b = some row
  single : ∀ a b, Tied s.ties a b → (s.tasks.row a).isSome → (s.tasks.row b).isSome → a = b
  apart : ∀ a b row, s.tasks.canonical a = some row → s.tasks.canonical b = some row →
    Tied s.ties a b
  own : ∀ id, (s.tasks.row id).isSome → s.tasks.canonical id = some id

variable {content sessionId}

theorem oneRow_of_sound {s : Tracked Item} {names : List Str}
    (h : s.tasks.Sound sessionId names s.ties) : s.OneRow := by
  have hown : ∀ id, (s.tasks.row id).isSome → s.tasks.canonical id = some id := by
    intro id hrow
    refine ClaudeTasks.canonical_of_row ?_ hrow
    cases hlookup : s.tasks.aliases.lookup id with
    | none => rfl
    | some row =>
      rw [h.keyed id row hlookup] at hrow
      cases hrow
  refine ⟨?_, ?_, ?_, hown⟩
  · intro ids hids a ha
    obtain ⟨row, hrow⟩ := h.faithful.together ids hids a ha
    exact ⟨row, h.made (hrow a ha), hrow⟩
  · exact fun a b htied ha hb => h.faithful.single (hown a ha) (hown b hb) htied
  · exact fun a b row ha hb => (h.faithful.tied_iff ha).mpr hb

theorem sound_of_run {ids : List Str} (hroom : ids.length ≤ MAX_ALIASES)
    {labels : List (ℕ × Observed Item)} {s : Tracked Item}
    (hr : Run ((reducer content sessionId).restrict Tracked.Clear) labels s)
    (hnames : ∀ label ∈ labels, label.2.names ⊆ ids) :
    s.tasks.Sound sessionId ids s.ties := by
  induction hr with
  | init hinit =>
    rw [hinit]
    exact ClaudeTasks.sound_started hroom sessionId
  | @step labels s s' label _ hs ih =>
    obtain ⟨hclear, rfl⟩ := hs
    have hsound := ih fun other hother => hnames other (mem_append_left _ hother)
    have hlabel := hnames label (mem_append_right _ mem_cons_self)
    exact hsound.react label.1 label.2 hclear hlabel

/-- **One child is one row.**  In every run whose records are clear, the rows are the classes of
tied identifiers that records of an admitted child named; and a further record leaves the rows and
the transcripts of the others alone. -/
theorem one_row_per_child {ids : List Str} (hroom : ids.length ≤ MAX_ALIASES)
    {labels : List (ℕ × Observed Item)} {s : Tracked Item}
    (hr : Run ((reducer content sessionId).restrict Tracked.Clear) labels s)
    (hnames : ∀ label ∈ labels, label.2.names ⊆ ids) :
    s.OneRow ∧ ∀ label s', ((reducer content sessionId).restrict Tracked.Clear).step s label s' →
      label.2.names ⊆ ids → label.2.isRecord = true →
      ∀ id, (∀ name ∈ s.tasks.held label.2, s'.tasks.canonical name ≠ some id) →
        s'.tasks.row id = s.tasks.row id ∧ s'.tasks.transcript id = s.tasks.transcript id := by
  have hsound := sound_of_run hroom hr hnames
  refine ⟨oneRow_of_sound hsound, ?_⟩
  rintro label s' ⟨hclear, rfl⟩ hlabel hrecord id hid
  exact hsound.frame label.1 hclear hlabel hrecord hid

/-- A lifecycle record of one child, and the launch of the same call. -/
def startedRecord : Json :=
  .object [("task_type", .text "local_agent"), ("task_id", .text "task-1"),
    ("tool_use_id", .text "toolu-1")]

def launchBlock : Json :=
  .object [("type", .text "tool_use"), ("name", .text "Task"), ("id", .text "toolu-1"),
    ("input", .object [("prompt", .text "look around")])]

/-- Items that are the texts of the user's messages. -/
def userTexts : ChildContent (Option Str) where
  userMessage := id
  childContentItems _ openTools := ([], openTools)

def recordFirst : List (ℕ × Observed (Option Str)) :=
  [(0, .lifecycle .taskStarted startedRecord), (1, .assistantBlock launchBlock)]

def launchFirst : List (ℕ × Observed (Option Str)) :=
  [(0, .assistantBlock launchBlock), (1, .lifecycle .taskStarted startedRecord)]

def trackedAfter (labels : List (ℕ × Observed (Option Str))) : Tracked (Option Str) :=
  labels.foldl (Tracked.observe userTexts) (.started "session".toList)

/-- The launch of a child that a lifecycle record named first makes it a second row. -/
theorem launch_after_record : Run (reducer userTexts "session".toList) recordFirst
    (trackedAfter recordFirst) ∧ ¬ (trackedAfter recordFirst).OneRow := by
  constructor
  · suffices h : Performs (reducer userTexts "session".toList) (Tracked.observe userTexts)
        (.started "session".toList) recordFirst from (Run.init rfl).performs h
    exact ⟨rfl, rfl, trivial⟩
  · intro h
    have hties : ["task-1".toList, "toolu-1".toList] ∈ (trackedAfter recordFirst).ties := by
      decide +kernel
    have hsame := h.single "task-1".toList "toolu-1".toList
      (.of_mem hties mem_cons_self (by decide)) (by decide +kernel) (by decide +kernel)
    exact absurd hsame (by decide)

theorem one_row_launchFirst : (trackedAfter launchFirst).OneRow := by
  have hr : Run ((reducer userTexts "session".toList).restrict Tracked.Clear) launchFirst
      (trackedAfter launchFirst) := by
    suffices h : Performs ((reducer userTexts "session".toList).restrict Tracked.Clear)
        (Tracked.observe userTexts) (.started "session".toList) launchFirst from
      (Run.init rfl).performs h
    exact ⟨⟨by decide +kernel, rfl⟩, ⟨by decide +kernel, rfl⟩, trivial⟩
  have hroom : ["toolu-1".toList, "task-1".toList].length ≤ MAX_ALIASES := by decide
  exact (one_row_per_child hroom hr (by decide +kernel)).1

/-! ## Whole messages -/

/-- What a session hands its reducer: a message of its process, or the history that it has read. -/
inductive Received (Item : Type)
  | message (message : Json)
  | history (tasks : List (RestoredTask Item)) (startingSequence : ℕ)

def Received.steps : Received Item → List (Observed Item)
  | message value => Observed.ofMessage value
  | history tasks startingSequence => tasks.map (.restored · startingSequence) ++ [.discovery .ready]

/-- A message names no session, or the current one. -/
def Received.IsCurrent (t : ClaudeTasks Item) : Received Item → Prop
  | message value => (value.get "session_id").asStr.all fun id => t.sessionId = some id
  | history .. => True

section

variable (content sessionId)

def ClaudeTasks.receive (t : ClaudeTasks Item) (now : ℕ) : Received Item → ClaudeTasks Item
  | .message value => (t.observe content now value).2
  | .history tasks startingSequence => (t.finishRestoration (.ok tasks) startingSequence).2

def Tracked.observeAll (s : Tracked Item) (now : ℕ) (steps : List (Observed Item)) : Tracked Item :=
  (steps.map (now, ·)).foldl (Tracked.observe content) s

def Tracked.receive (s : Tracked Item) (label : ℕ × Received Item) : Tracked Item where
  tasks := s.tasks.receive content label.1 label.2
  ties := (s.observeAll content label.1 label.2.steps).ties

variable {content sessionId}

theorem Tracked.tasks_observeAll (s : Tracked Item) (now : ℕ) (steps : List (Observed Item)) :
    (s.observeAll content now steps).tasks = s.tasks.reactAll content now steps := by
  induction steps generalizing s with
  | nil => rfl
  | cons o steps ih => exact ih (s.observe content (now, o))

theorem Tracked.receive_eq {s : Tracked Item} {label : ℕ × Received Item} (hlive : s.tasks.sessionId.isSome)
    (hcurrent : label.2.IsCurrent s.tasks) :
    s.receive content label = s.observeAll content label.1 label.2.steps := by
  refine congrArg (Tracked.mk · _) (Eq.trans ?_ (s.tasks_observeAll ..).symm)
  obtain ⟨now, value | ⟨tasks, startingSequence⟩⟩ := label
  · exact s.tasks.observe_eq content now value hlive hcurrent
  · exact s.tasks.finishRestoration_eq content now tasks startingSequence hlive

end

end NiumaTerm.ClaudeCode
