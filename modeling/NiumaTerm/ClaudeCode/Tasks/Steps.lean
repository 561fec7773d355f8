import NiumaTerm.ClaudeCode.Tasks.Reducer
import NiumaTerm.Lib.Ties

/-!
# What one record can do to the rows

`Observed` is what reaches the reducer of a session, `held` the identifiers that a record holds
together if it is one of an admitted child, and `clear` the condition under which the reducer gives
them one row.

* `Responds` : a step tells nothing, or it tells of one row and records identifiers against it
* `Sound` : what is known of a session's identifiers
* `responds` : the first, of every clear step from a sound state
-/

namespace NiumaTerm.ClaudeCode

open Rust BackgroundTask List

/-- What reaches the reducer of a session: one record, or one block of a message, or one task of a
history. -/
inductive Observed (Item : Type)
  | lifecycle (kind : LifecycleKind) (record : Json)
  | hook (message : Json)
  | assistantBlock (block : Json)
  | userBlock (message block : Json)
  | sidechain (parentToolUseId : Str) (message : Json)
  | backgroundEntry (entry : Json)
  | restored (task : RestoredTask Item) (startingSequence : ℕ)
  | discovery (state : BackgroundTaskLoadState)
  /-- the process exits -/
  | exited
  /-- the caller takes the pending transcripts -/
  | taken

/-- The call of a launch block. -/
def launched (block : Json) : Option Str :=
  (toolUse block).bind fun use => if LAUNCH_TOOLS.contains use.1 then some use.2 else none

/-- The acknowledgement in a block that reports no failure. -/
def acknowledgement (message block : Json) : Option Json :=
  if ClaudeTasks.isFailed block then none else asyncAgentResult message

def answerIdentifiers (message block : Json) (toolUseId : Str) : List Str :=
  (acknowledgement message block).elim [toolUseId] (ClaudeTasks.asyncIdentifiers toolUseId)

/-- The identifiers that come with a record. -/
def Observed.names {Item : Type} : Observed Item → List Str
  | lifecycle _ record => recordIdentifiers record
  | hook message => recordIdentifiers message
  | assistantBlock block => (launched block).toList
  | userBlock message block => (toolResult block).elim [] (answerIdentifiers message block)
  | sidechain parentToolUseId _ => [parentToolUseId]
  | backgroundEntry entry => (ClaudeTasks.runningShell entry).toList
  | restored task _ => task.id :: ClaudeTasks.refIdentifiers task.update
  | _ => []

/-- Whether it tells of a child. -/
def Observed.isRecord {Item : Type} : Observed Item → Bool
  | exited | taken => false
  | _ => true

namespace ClaudeTasks

variable {Item : Type} (content : ChildContent Item) (t : ClaudeTasks Item)

def react (now : ℕ) : Observed Item → Bool × ClaudeTasks Item
  | .lifecycle kind record => t.observeLifecycle now kind record
  | .hook message => t.observeHook now message
  | .assistantBlock block => t.parentAssistantBlock content now block
  | .userBlock message block => t.parentUserBlock now message block
  | .sidechain parentToolUseId message => t.observeSidechain content parentToolUseId message
  | .backgroundEntry entry => t.backgroundEntry now entry
  | .restored task startingSequence => t.restoreTask startingSequence task
  | .discovery state => t.setDiscovery state
  | .exited => t.stopActiveTasks now
  | .taken => (false, t.takeTranscripts.2)

/-- The identifiers that a record holds together, if it is one of an admitted child. -/
def held : Observed Item → List Str
  | .lifecycle _ record =>
    let taskType := (record.get "task_type").asStr
    let ids := recordIdentifiers record
    if !isForeign taskType && (t.knows ids || admitsNewRow taskType record) then ids else []
  | .hook message =>
    let ids := recordIdentifiers message
    if isSubagentStop message && t.knows ids then ids else []
  | .assistantBlock block => (launched block).toList
  | .userBlock message block =>
    (toolResult block).elim [] fun toolUseId =>
      if (t.canonical toolUseId).isSome then answerIdentifiers message block toolUseId else []
  | .sidechain parentToolUseId _ =>
    if (t.canonical parentToolUseId).isSome then [parentToolUseId] else []
  | .backgroundEntry entry => (runningShell entry).toList
  | .restored task _ => task.id :: refIdentifiers task.update
  | _ => []

/-- None of the identifiers is about another row. -/
def agrees (row : Str) (ids : List Str) : Bool := ids.all fun id => (t.canonical id).all (· = row)

/-- All of the identifiers are about the row. -/
def settled (row : Str) (ids : List Str) : Bool := ids.all fun id => t.canonical id = some row

/-- **The condition.**  A launch is not of a call that is an alias of another row; a lifecycle
record, an acknowledgement or a stored task does not join identifiers of two rows; and what records
nothing, a hook or the answer to a shell's call, holds no identifier that is not about its row. -/
def clear (o : Observed Item) : Bool :=
  match o with
  | .lifecycle _ record =>
    (t.canonicalFrom (recordIdentifiers record)).all fun row => t.agrees row (t.held o)
  | .hook message =>
    (t.canonicalFrom (recordIdentifiers message)).all fun row => t.settled row (t.held o)
  | .assistantBlock block => (launched block).all fun id => (t.aliases.lookup id).isNone
  | .userBlock _ block =>
    ((toolResult block).bind t.canonical).all fun row =>
      if t.isShell row then t.settled row (t.held o) else t.agrees row (t.held o)
  | .restored task _ => t.agrees (t.restoredCanonical task) (t.held o)
  | _ => true

/-! ## What a step can do -/

/-- The registry has rows of Claude only. -/
def OnlyClaude (t : ClaudeTasks Item) : Prop :=
  ∀ registry, t.registry = some registry →
    ∀ key, registry.contains key = true → key.provider = .claude

/-- No row comes or goes, and no alias. -/
structure Keeps (t t' : ClaudeTasks Item) : Prop where
  session : t'.sessionId = t.sessionId
  aliases : t'.aliases = t.aliases
  rows : ∀ id, (t'.row id).isSome = (t.row id).isSome
  claude : t.OnlyClaude → t'.OnlyClaude

/-- Nothing is told of any child. -/
structure Leaves (t t' : ClaudeTasks Item) : Prop where
  session : t'.sessionId = t.sessionId
  aliases : t'.aliases = t.aliases
  rows : ∀ id, t'.row id = t.row id
  told : ∀ id, t'.transcript id = t.transcript id
  claude : t.OnlyClaude → t'.OnlyClaude

/-- One row is told of, and identifiers are recorded against it. -/
structure Touches (t t' : ClaudeTasks Item) (row : Str) (links : List Str) : Prop where
  session : t'.sessionId = t.sessionId
  aliases : t'.aliases = t.aliases.linkAll row links
  made : (t'.row row).isSome
  others : ∀ id, id ≠ row → t'.row id = t.row id
  told : ∀ id, id ≠ row → t'.transcript id = t.transcript id
  claude : t.OnlyClaude → t'.OnlyClaude

variable {content t} {t' u : ClaudeTasks Item} {row : Str} {links ids : List Str}

theorem Leaves.refl (t : ClaudeTasks Item) : Leaves t t :=
  ⟨rfl, rfl, fun _ => rfl, fun _ => rfl, id⟩

theorem Leaves.keeps (h : Leaves t t') : Keeps t t' :=
  ⟨h.session, h.aliases, fun id => by rw [h.rows], h.claude⟩

/-- What tells nothing new of a row that exists. -/
theorem Leaves.touches (h : Leaves t t') (hrow : (t.row row).isSome) : Touches t t' row [] where
  session := h.session
  aliases := h.aliases
  made := by rwa [h.rows]
  others id _ := h.rows id
  told id _ := h.told id
  claude := h.claude

theorem isSome_row (id : Str) : (t.row id).isSome ↔
    ∃ registry, t.registry = some registry ∧ registry.contains (.claudeCode id) = true := by
  rw [row, Option.isSome_bind]
  cases t.registry <;> simp [BackgroundTaskRegistry.contains]

theorem claudeCode_ne {a b : Str} (h : a ≠ b) : BackgroundTaskKey.claudeCode a ≠ .claudeCode b :=
  fun heq => h (congrArg BackgroundTaskKey.id heq)

/-- An update of one row, after identifiers were recorded against it. -/
theorem touches_of_apply {registry : BackgroundTaskRegistry} (hlive : t.registry = some registry)
    (update : BackgroundTaskUpdate) (ht' : t'.registry =
      some (registry.apply (.claudeCode row) update).2)
    (haliases : t'.aliases = t.aliases.linkAll row links)
    (htold : ∀ id, id ≠ row → t'.transcript id = t.transcript id) : Touches t t' row links where
  session := by
    rw [sessionId, sessionId, ht', hlive, Option.map_some, Option.map_some,
      BackgroundTaskRegistry.apply_parentSession]
  aliases := haliases
  made := (isSome_row row).mpr
    ⟨_, ht', BackgroundTaskRegistry.contains_apply_self update⟩
  others id hid := by
    rw [ClaudeTasks.row, ClaudeTasks.row, ht', hlive]
    exact BackgroundTaskRegistry.get_apply_of_ne (claudeCode_ne hid) update
  told := htold
  claude honly next hnext key hkey := by
    rw [ht'] at hnext
    cases hnext
    by_cases hsame : key = .claudeCode row
    · rw [hsame]
      rfl
    · rw [BackgroundTaskRegistry.contains, BackgroundTaskRegistry.get_apply_of_ne hsame] at hkey
      exact honly registry hlive key hkey

/-- The row that is updated, if there is a session. -/
theorem apply_touches (hlive : t.sessionId.isSome) (hreg : u.registry = t.registry)
    (haliases : u.aliases = t.aliases.linkAll row links)
    (htold : ∀ id, id ≠ row → u.transcript id = t.transcript id) (update : BackgroundTaskUpdate) :
    Touches t (u.apply row update).2 row links := by
  rw [sessionId, Option.isSome_map] at hlive
  obtain ⟨registry, hregistry⟩ := Option.isSome_iff_exists.mp hlive
  rw [apply, hreg, hregistry]
  exact touches_of_apply hregistry update rfl haliases htold

theorem Touches.trans_told {t'' : ClaudeTasks Item} (h : Touches t t' row links)
    (hreg : t''.registry = t'.registry) (haliases : t''.aliases = t'.aliases)
    (htold : ∀ id, id ≠ row → t''.transcript id = t'.transcript id) :
    Touches t t'' row links where
  session := by rw [← h.session, sessionId, sessionId, hreg]
  aliases := haliases.trans h.aliases
  made := by rw [ClaudeTasks.row, hreg]; exact h.made
  others id hid := by rw [← h.others id hid, ClaudeTasks.row, ClaudeTasks.row, hreg]
  told id hid := (htold id hid).trans (h.told id hid)
  claude honly registry hregistry := h.claude honly registry (hreg ▸ hregistry)

/-- The identifiers a record holds together are those of one row: one of them is the row or is
about it, none is about another, and those that are not recorded against it now are about it. -/
structure About (t : ClaudeTasks Item) (held : List Str) (row : Str) (links : List Str) : Prop where
  lead : row ∈ held ∨ ∃ id ∈ held, t.canonical id = some row
  only : ∀ id ∈ held, ∀ old, t.canonical id = some old → old = row
  linked : links ⊆ held
  rest : ∀ id ∈ held, id ∈ links ∨ id = row ∨ t.canonical id = some row

/-- What one step can do. -/
inductive Responds (t t' : ClaudeTasks Item) (held : List Str) (isRecord : Bool) : Prop
  | silent (hheld : held = []) (hkeeps : Keeps t t') (hleaves : isRecord = true → Leaves t t')
  | tells (row : Str) (links : List Str) (htouches : Touches t t' row links)
      (habout : About t held row links)

variable {held : List Str} {id : Str}

theorem Responds.of_leaves {isRecord : Bool} (hheld : held = [])
    (h : Leaves t t') : Responds t t' held isRecord :=
  .silent hheld h.keeps fun _ => h

/-- What the identifiers of a session are known to be: `names` are all that came up, and `ties` what
records held together. -/
structure Sound (sessionId : Str) (names : List Str) (ties : List (List Str))
    (t : ClaudeTasks Item) : Prop where
  session : t.sessionId = some sessionId
  claude : t.OnlyClaude
  fits : t.aliases.Fits MAX_ALIASES names
  /-- an alias is of a row -/
  valued : ∀ id row, t.aliases.lookup id = some row → (t.row row).isSome
  /-- and names none itself -/
  keyed : ∀ id row, t.aliases.lookup id = some row → t.row id = none
  faithful : Faithful ties t.canonical

variable {sid : Str} {names : List Str} {ties : List (List Str)}

theorem canonical_of_lookup (h : t.aliases.lookup id = some row) : t.canonical id = some row := by
  rw [canonical, h, Option.some_or]

theorem canonical_of_row (h : t.aliases.lookup id = none) (hrow : (t.row id).isSome) :
    t.canonical id = some id := by
  rw [canonical, h, Option.none_or, if_pos hrow]

/-- Where an answer comes from. -/
theorem canonical_cases (h : t.canonical id = some row) :
    t.aliases.lookup id = some row ∨ t.aliases.lookup id = none ∧ id = row ∧ (t.row id).isSome := by
  rw [canonical, Option.or_eq_some_iff] at h
  rcases h with h | ⟨hnone, h⟩
  · exact .inl h
  · split at h
    · next hrow => exact .inr ⟨hnone, Option.some.inj h, hrow⟩
    · cases h

/-- Every answer is a row. -/
theorem Sound.made (h : t.Sound sid names ties) (hid : t.canonical id = some row) :
    (t.row row).isSome := by
  rcases canonical_cases hid with hlookup | ⟨-, rfl, hrow⟩
  · exact h.valued id row hlookup
  · exact hrow

theorem Sound.live (h : t.Sound sid names ties) : t.sessionId.isSome := by
  rw [h.session]
  rfl

theorem canonicalFrom_cases (h : t.canonicalFrom ids = some row) :
    (∃ id ∈ ids, t.canonical id = some row) ∨ t.knows ids = false ∧ row ∈ ids := by
  rw [canonicalFrom, Option.or_eq_some_iff] at h
  rcases h with h | ⟨hnone, hhead⟩
  · obtain ⟨before, id, after, rfl, hid, -⟩ := findSome?_eq_some_iff.mp h
    exact .inl ⟨id, by simp, hid⟩
  · refine .inr ⟨?_, mem_of_head? hhead⟩
    rw [knows, any_eq_false]
    intro id hid
    rw [findSome?_eq_none_iff.mp hnone id hid]
    exact Bool.false_ne_true

theorem canonicalFrom_eq_none (h : t.canonicalFrom ids = none) : ids = [] := by
  rw [canonicalFrom, Option.or_eq_none_iff] at h
  exact head?_eq_none_iff.mp h.2

theorem agrees_eq_true_iff : t.agrees row ids = true ↔
    ∀ id ∈ ids, ∀ old, t.canonical id = some old → old = row := by
  simp [agrees, Option.all_eq_true]

theorem settled_iff : t.settled row ids = true ↔ ∀ id ∈ ids, t.canonical id = some row := by
  simp [settled]

/-! ## Each record -/

/-- An identifier that a record resolves leads to the row. -/
theorem About.resolved (hid : id ∈ held) (hrow : t.canonical id = some row)
    (honly : ∀ id ∈ held, ∀ old, t.canonical id = some old → old = row) :
    About t held row held where
  lead := .inr ⟨id, hid, hrow⟩
  only := honly
  linked := List.Subset.refl _
  rest _ hother := .inl hother

/-- A record that only uses identifiers of the row. -/
theorem About.settled (hid : id ∈ held)
    (h : ∀ id ∈ held, t.canonical id = some row) : About t held row [] where
  lead := .inr ⟨id, hid, h id hid⟩
  only id hid _ hold := Option.some.inj (hold.symm.trans (h id hid))
  linked := nil_subset _
  rest id hid := .inr (.inr (h id hid))

theorem enrich_touches (hlive : t.sessionId.isSome) (now : ℕ) (kind : LifecycleKind)
    (record : Json) (ids : List Str) (row : Str) :
    Touches t ((t.rememberShellRecord record).enrich now kind record ids row).2 row ids := by
  rw [enrich]
  exact apply_touches hlive (u := (t.rememberShellRecord record).linkAll row ids) rfl rfl
    (fun _ _ => rfl) _

theorem responds_lifecycle (h : t.Sound sid names ties) (now : ℕ) (kind : LifecycleKind)
    (record : Json) (hclear : t.clear (.lifecycle kind record) = true) :
    Responds t (t.observeLifecycle now kind record).2 (t.held (.lifecycle kind record)) true := by
  rw [clear] at hclear
  rw [held] at hclear ⊢
  simp only [observeLifecycle]
  by_cases hforeign : isForeign (record.get "task_type").asStr = true
  · simp only [hforeign, if_true, Bool.not_true, Bool.false_and, Bool.false_eq_true, if_false]
    exact .of_leaves rfl (.refl t)
  · have hsame : Leaves t (t.rememberShellRecord record) :=
      ⟨rfl, rfl, fun _ => rfl, fun _ => rfl, id⟩
    have hknows : (t.rememberShellRecord record).knows (recordIdentifiers record) =
      t.knows (recordIdentifiers record) := rfl
    have hfrom : (t.rememberShellRecord record).canonicalFrom (recordIdentifiers record) =
      t.canonicalFrom (recordIdentifiers record) := rfl
    rw [Bool.not_eq_true] at hforeign
    simp only [hforeign, hknows, hfrom, Bool.false_eq_true, if_false, Bool.not_false,
      Bool.true_and] at hclear ⊢
    by_cases hadmit : (t.knows (recordIdentifiers record) ||
        admitsNewRow (record.get "task_type").asStr record) = true
    · have hnot : (!t.knows (recordIdentifiers record) &&
          !admitsNewRow (record.get "task_type").asStr record) = false := by
        rw [← Bool.not_or, hadmit, Bool.not_true]
      rw [hnot, if_neg Bool.false_ne_true]
      rw [if_pos hadmit] at hclear ⊢
      cases hrow : t.canonicalFrom (recordIdentifiers record) with
      | none => exact .of_leaves (canonicalFrom_eq_none hrow) hsame
      | some row =>
        rw [hrow, Option.all_some, agrees_eq_true_iff] at hclear
        refine .tells row (recordIdentifiers record)
          (enrich_touches h.live now kind record _ row) ?_
        rcases canonicalFrom_cases hrow with ⟨id, hid, hrow⟩ | ⟨-, hmem⟩
        · exact .resolved hid hrow hclear
        · exact ⟨.inl hmem, hclear, List.Subset.refl _, fun _ hid => .inl hid⟩
    · have hnot : (!t.knows (recordIdentifiers record) &&
          !admitsNewRow (record.get "task_type").asStr record) = true := by
        rw [← Bool.not_or, Bool.eq_false_iff.mpr hadmit, Bool.not_false]
      rw [hnot, if_pos rfl, if_neg hadmit]
      exact .of_leaves rfl hsame

theorem stateOf_of_unknown (hunknown : t.canonical id = none) : t.stateOf id = none := by
  rw [canonical, Option.or_eq_none_iff] at hunknown
  rw [stateOf]
  split at hunknown
  · exact nomatch hunknown.2
  · next hrow => rw [Option.not_isSome_iff_eq_none.mp hrow, Option.map_none]

theorem responds_hook (h : t.Sound sid names ties) (now : ℕ) (message : Json)
    (hclear : t.clear (.hook message) = true) :
    Responds t (t.observeHook now message).2 (t.held (.hook message)) true := by
  rw [clear] at hclear
  rw [held] at hclear ⊢
  rw [observeHook]
  by_cases hstop : isSubagentStop message = true
  · simp only [hstop, if_true, Bool.true_and] at hclear ⊢
    rw [observeSubagentStop]
    cases hrow : t.canonicalFrom (recordIdentifiers message) with
    | none =>
      refine .of_leaves ?_ (.refl t)
      rw [canonicalFrom_eq_none hrow, ite_self]
    | some row =>
      rw [hrow, Option.all_some, settled_iff] at hclear
      simp only
      rcases canonicalFrom_cases hrow with ⟨id, hid, hknown⟩ | ⟨hunknown, hmem⟩
      · have hknows : t.knows (recordIdentifiers message) = true :=
          any_eq_true.mpr ⟨id, hid, by rw [hknown]; rfl⟩
        rw [if_pos hknows] at hclear ⊢
        have habout := About.settled hid hclear
        split
        · exact .tells row [] ((Leaves.refl t).touches (h.made hknown)) habout
        · exact .tells row [] (apply_touches h.live rfl rfl (fun _ _ => rfl) _) habout
      · -- a hook that matches nothing finds no state to end
        have hnone : t.canonical row = none := by
          have hfalse := any_eq_false.mp hunknown row hmem
          exact Option.not_isSome_iff_eq_none.mp hfalse
        rw [stateOf_of_unknown hnone, Option.all_none, if_pos rfl]
        exact .of_leaves (by rw [hunknown, if_neg Bool.false_ne_true]) (.refl t)
  · rw [if_neg hstop]
    rw [Bool.not_eq_true] at hstop
    exact .of_leaves (by simp [hstop]) (.refl t)

theorem openChildConversation_told (toolUseId : Str) (objective : Option Str)
    (hid : id ≠ toolUseId) :
    (t.openChildConversation content toolUseId objective).2.transcript id = t.transcript id := by
  cases objective with
  | none => rfl
  | some prompt => exact ChildTranscripts.transcript_openConversation_of_ne content hid _

theorem openChildConversation_registry (toolUseId : Str) (objective : Option Str) :
    (t.openChildConversation content toolUseId objective).2.registry = t.registry := by
  cases objective <;> rfl

theorem openChildConversation_aliases (toolUseId : Str) (objective : Option Str) :
    (t.openChildConversation content toolUseId objective).2.aliases = t.aliases := by
  cases objective <;> rfl

theorem responds_assistantBlock (h : t.Sound sid names ties) (now : ℕ) (block : Json)
    (hclear : t.clear (.assistantBlock block) = true) :
    Responds t (t.parentAssistantBlock content now block).2 (t.held (.assistantBlock block))
      true := by
  rw [clear, launched] at hclear
  rw [held, launched, parentAssistantBlock]
  split
  · next hnone => exact .of_leaves (by rw [hnone]; rfl) (.refl t)
  · next name toolUseId hsome =>
    rw [hsome, Option.bind_some] at hclear ⊢
    dsimp only at hclear ⊢
    split
    · next hbash =>
      have hnot : LAUNCH_TOOLS.contains name = false := by rw [hbash]; decide
      refine .of_leaves ?_ ⟨rfl, rfl, fun _ => rfl, fun _ => rfl, id⟩
      rw [hnot]
      rfl
    · split
      · next hlaunch =>
        rw [if_pos hlaunch, Option.all_some, Option.isNone_iff_eq_none] at hclear
        rw [Option.toList_some]
        refine .tells toolUseId [] ?_ ⟨.inl mem_cons_self, ?_, nil_subset _, ?_⟩
        · rw [launch]
          exact (apply_touches h.live rfl rfl (fun _ _ => rfl) _).trans_told
            (openChildConversation_registry _ _) (openChildConversation_aliases _ _)
            fun _ hid => openChildConversation_told _ _ hid
        · intro id hid old hold
          rw [mem_singleton.mp hid] at hold
          rcases canonical_cases hold with hlookup | ⟨-, heq, -⟩
          · rw [hclear] at hlookup
            cases hlookup
          · exact heq.symm
        · exact fun id hid => .inr (.inl (mem_singleton.mp hid))
      · exact .of_leaves rfl (.refl t)

theorem acknowledge_touches (hlive : t.sessionId.isSome) (toolUseId row : Str) (result : Json) :
    Touches t (t.acknowledge toolUseId row result).2 row (asyncIdentifiers toolUseId result) := by
  rw [acknowledge]
  exact apply_touches hlive (u := t.linkAll row (asyncIdentifiers toolUseId result)) rfl rfl
    (fun _ _ => rfl) _

theorem responds_userBlock (h : t.Sound sid names ties) (now : ℕ) (message block : Json)
    (hclear : t.clear (.userBlock message block) = true) :
    Responds t (t.parentUserBlock now message block).2 (t.held (.userBlock message block))
      true := by
  rw [clear] at hclear
  rw [held] at hclear ⊢
  rw [parentUserBlock]
  split
  · next hnone => exact .of_leaves (by rw [hnone]; rfl) (.refl t)
  · next toolUseId hsome =>
    rw [hsome, Option.bind_some, Option.elim_some] at hclear
    rw [hsome, Option.elim_some]
    split
    · next hunknown =>
      exact .of_leaves (by rw [hunknown]; rfl) (.refl t)
    · next row hrow =>
      have hmem : toolUseId ∈ answerIdentifiers message block toolUseId := by
        rw [answerIdentifiers]
        cases acknowledgement message block <;> exact mem_cons_self
      simp only [hrow, Option.isSome_some, if_true, Option.all_some] at hclear ⊢
      split
      · next hshell =>
        rw [if_pos hshell, settled_iff] at hclear
        exact .tells row [] (Leaves.touches ⟨rfl, rfl, fun _ => rfl, fun _ => rfl, id⟩ (h.made hrow))
          (.settled hmem hclear)
      · next hshell =>
        rw [if_neg hshell, agrees_eq_true_iff] at hclear
        have hacknowledgement : (if isFailed block then none else asyncAgentResult message) =
          acknowledgement message block := rfl
        rw [answerIdentifiers] at hclear hmem ⊢
        cases hresult : acknowledgement message block with
        | none =>
          rw [hacknowledgement, hresult]
          refine .tells row [] (apply_touches h.live rfl rfl (fun _ _ => rfl) _)
            (.settled (mem_cons_self (a := toolUseId)) fun id hid => ?_)
          rw [mem_singleton.mp hid]
          exact hrow
        | some result =>
          rw [hresult] at hclear hmem
          rw [hacknowledgement, hresult]
          exact .tells row _ (acknowledge_touches h.live toolUseId row result)
            (.resolved hmem hrow hclear)

theorem observeSidechain_touches (hlive : t.sessionId.isSome) {parentToolUseId : Str}
    (hrow : t.canonical parentToolUseId = some row) (message : Json) :
    Touches t (t.observeSidechain content parentToolUseId message).2 row [] := by
  rw [observeSidechain, hrow]
  let shown := t.children.sidechainItems content row message
  exact apply_touches hlive (u := { t with children := shown.2.push row shown.1 }) rfl rfl
    (fun id hid => ChildTranscripts.transcript_push_of_ne hid _) _

theorem responds_sidechain (h : t.Sound sid names ties) (parentToolUseId : Str) (message : Json) :
    Responds t (t.observeSidechain content parentToolUseId message).2
      (t.held (.sidechain parentToolUseId message)) true := by
  rw [held]
  cases hrow : t.canonical parentToolUseId with
  | none =>
    refine .of_leaves rfl ?_
    rw [observeSidechain, hrow]
    exact .refl t
  | some row =>
    rw [Option.isSome_some, if_pos rfl]
    refine .tells row [] (observeSidechain_touches h.live hrow message) ?_
    exact .settled mem_cons_self fun id hid => by rw [mem_singleton.mp hid, hrow]

theorem backgroundEntry_touches (hlive : t.sessionId.isSome) (now : ℕ) {entry : Json}
    {taskId : Str} (hentry : runningShell entry = some taskId) :
    Touches t (t.backgroundEntry now entry).2 ((t.canonical taskId).getD taskId) [] := by
  rw [backgroundEntry, hentry]
  exact apply_touches hlive (u := { t with shells := t.shells.reserveShellMeta taskId }) rfl rfl
    (fun _ _ => rfl) _

theorem responds_backgroundEntry (h : t.Sound sid names ties) (now : ℕ) (entry : Json) :
    Responds t (t.backgroundEntry now entry).2 (t.held (.backgroundEntry entry)) true := by
  rw [held]
  cases hentry : runningShell entry with
  | none =>
    refine .of_leaves rfl ?_
    rw [backgroundEntry, hentry]
    exact .refl t
  | some taskId =>
    refine .tells _ [] (backgroundEntry_touches h.live now hentry) ?_
    rw [Option.toList_some]
    cases hrow : t.canonical taskId with
    | none =>
      refine ⟨.inl mem_cons_self, ?_, nil_subset _, ?_⟩
      · intro id hid old hold
        rw [mem_singleton.mp hid, hrow] at hold
        cases hold
      · exact fun id hid => .inr (.inl (mem_singleton.mp hid))
    | some row =>
      exact .settled mem_cons_self fun id hid => by
        rw [mem_singleton.mp hid, hrow, Option.getD_some]

theorem refIdentifiers_restoredUpdate (contained : Bool) (update : BackgroundTaskUpdate) :
    refIdentifiers (restoredUpdate contained update) = refIdentifiers update := by
  rw [restoredUpdate]
  split <;> rfl

theorem restoreTask_touches (hlive : t.sessionId.isSome) (startingSequence : ℕ)
    (task : RestoredTask Item) :
    Touches t (t.restoreTask startingSequence task).2 (t.restoredCanonical task)
      (refIdentifiers task.update) := by
  rw [sessionId, Option.isSome_map] at hlive
  obtain ⟨registry, hregistry⟩ := Option.isSome_iff_exists.mp hlive
  obtain ⟨accepted, haccepted⟩ := @BackgroundTaskRegistry.mergeRestored_eq registry
    (.claudeCode (t.restoredCanonical task)) (restoredUpdate (t.row (t.restoredCanonical task)).isSome task.update) startingSequence
  simp only [restoreTask, linkAll, hregistry, haccepted, refIdentifiers_restoredUpdate]
  refine touches_of_apply hregistry accepted rfl rfl fun id hid => ?_
  simp only [transcript]
  split
  · rfl
  · exact ChildTranscripts.transcript_pushRestored_of_ne hid _

theorem responds_restored (h : t.Sound sid names ties) (startingSequence : ℕ)
    (task : RestoredTask Item) (hclear : t.clear (.restored task startingSequence) = true) :
    Responds t (t.restoreTask startingSequence task).2 (t.held (.restored task startingSequence))
      true := by
  rw [clear, agrees_eq_true_iff] at hclear
  rw [held] at hclear ⊢
  refine .tells _ _ (restoreTask_touches h.live startingSequence task) ⟨?_, hclear, ?_, ?_⟩
  · rw [restoredCanonical]
    cases hlookup : t.aliases.lookup task.id with
    | none => exact .inl mem_cons_self
    | some row => exact .inr ⟨task.id, mem_cons_self, canonical_of_lookup hlookup⟩
  · exact subset_cons_self _ _
  · intro id hid
    rcases mem_cons.mp hid with rfl | hid
    · rw [restoredCanonical]
      cases hlookup : t.aliases.lookup task.id with
      | none => exact .inr (.inl rfl)
      | some row => exact .inr (.inr (canonical_of_lookup hlookup))
    · exact .inl hid

theorem setDiscovery_leaves (discovery : BackgroundTaskLoadState) :
    Leaves t (t.setDiscovery discovery).2 := by
  rw [setDiscovery]
  cases hregistry : t.registry with
  | none => exact .refl t
  | some registry =>
    have hsame : (registry.setDiscovery discovery).2.tasks = registry.tasks ∧
        (registry.setDiscovery discovery).2.parentSession = registry.parentSession := by
      rw [BackgroundTaskRegistry.setDiscovery]
      split <;> exact ⟨rfl, rfl⟩
    refine ⟨?_, rfl, fun id => ?_, fun _ => rfl, fun honly next hnext key hkey => ?_⟩
    · rw [sessionId, sessionId, hregistry, Option.map_some, Option.map_some, hsame.2]
    · rw [row, row, hregistry, Option.bind_some, Option.bind_some, BackgroundTaskRegistry.get,
        hsame.1, BackgroundTaskRegistry.get]
    · have hnext' : (registry.setDiscovery discovery).2 = next := Option.some.inj hnext
      rw [← hnext', BackgroundTaskRegistry.contains, BackgroundTaskRegistry.get, hsame.1] at hkey
      exact honly registry hregistry key hkey

theorem Keeps.refl (t : ClaudeTasks Item) : Keeps t t := (Leaves.refl t).keeps

theorem Keeps.trans {t'' : ClaudeTasks Item} (h : Keeps t t') (h' : Keeps t' t'') :
    Keeps t t'' where
  session := h'.session.trans h.session
  aliases := h'.aliases.trans h.aliases
  rows id := (h'.rows id).trans (h.rows id)
  claude honly := h'.claude (h.claude honly)

/-- A row that exists is updated. -/
theorem apply_keeps (hlive : t.sessionId.isSome) (hrow : (t.row row).isSome)
    (update : BackgroundTaskUpdate) : Keeps t (t.apply row update).2 := by
  have htouches : Touches t (t.apply row update).2 row [] :=
    apply_touches hlive rfl rfl (fun _ _ => rfl) update
  refine ⟨htouches.session, htouches.aliases, fun id => ?_, htouches.claude⟩
  by_cases hid : id = row
  · rw [hid, htouches.made, hrow]
  · rw [htouches.others id hid]

theorem foldChanges_snd {σ α : Type} (body : σ → α → Bool × σ) (state : σ) (elements : List α) :
    (foldChanges body state elements).2 =
      elements.foldl (fun state element => (body state element).2) state := by
  suffices h : ∀ changed, (elements.foldl (fun found element =>
      (found.1 || (body found.2 element).1, (body found.2 element).2)) (changed, state)).2 =
      elements.foldl (fun state element => (body state element).2) state from h false
  induction elements generalizing state with
  | nil => exact fun _ => rfl
  | cons element rest ih => exact fun _ => ih _ _

theorem applyAll_keeps (hlive : t.sessionId.isSome) (update : BackgroundTaskUpdate)
    {rows : List Str} (hrows : ∀ id ∈ rows, (t.row id).isSome) :
    Keeps t (rows.foldl (fun t id => (t.apply id update).2) t) := by
  induction rows generalizing t with
  | nil => exact .refl t
  | cons id rest ih =>
    have hone := apply_keeps hlive (hrows id mem_cons_self) update
    refine hone.trans (ih (by rwa [hone.session]) fun other hother => ?_)
    rw [hone.rows]
    exact hrows other (mem_cons_of_mem _ hother)

theorem staleRows_isSome (honly : t.OnlyClaude) (hid : id ∈ t.staleRows) : (t.row id).isSome := by
  rw [staleRows, mem_mergeSort, mem_map] at hid
  obtain ⟨task, htask, rfl⟩ := hid
  cases hregistry : t.registry with
  | none =>
    rw [hregistry, Option.elim_none, filter_nil] at htask
    exact absurd htask not_mem_nil
  | some registry =>
    rw [hregistry, Option.elim_some] at htask
    have hcontains : registry.contains task.key = true :=
      BackgroundTaskRegistry.mem_tasks_iff.mpr ⟨task, (mem_filter.mp htask).1, rfl⟩
    have hkey : BackgroundTaskKey.claudeCode task.key.id = task.key := by
      rw [BackgroundTaskKey.claudeCode, ← honly registry hregistry task.key hcontains]
    exact (isSome_row _).mpr ⟨registry, hregistry, hkey ▸ hcontains⟩

/-- The end of the process updates rows that exist. -/
theorem stopActiveTasks_keeps (h : t.Sound sid names ties) (now : ℕ) :
    Keeps t (t.stopActiveTasks now).2 := by
  rw [stopActiveTasks, foldChanges_snd]
  exact applyAll_keeps h.live _ fun _ => staleRows_isSome h.claude

variable (content) in
/-- **What a step can do,** where it is clear. -/
theorem responds (h : t.Sound sid names ties) (now : ℕ) (o : Observed Item)
    (hclear : t.clear o = true) :
    Responds t (t.react content now o).2 (t.held o) o.isRecord := by
  cases o with
  | lifecycle kind record => exact responds_lifecycle h now kind record hclear
  | hook message => exact responds_hook h now message hclear
  | assistantBlock block => exact responds_assistantBlock h now block hclear
  | userBlock message block => exact responds_userBlock h now message block hclear
  | sidechain parentToolUseId message => exact responds_sidechain h parentToolUseId message
  | backgroundEntry entry => exact responds_backgroundEntry h now entry
  | restored task startingSequence => exact responds_restored h startingSequence task hclear
  | discovery state => exact .of_leaves rfl (setDiscovery_leaves state)
  | exited => exact .silent rfl (stopActiveTasks_keeps h now) (absurd · Bool.false_ne_true)
  | taken => exact .silent rfl ⟨rfl, rfl, fun _ => rfl, id⟩ (absurd · Bool.false_ne_true)

end ClaudeTasks

end NiumaTerm.ClaudeCode
