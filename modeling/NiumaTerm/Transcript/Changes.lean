import NiumaTerm.Transcript.Conversation

/-!
# Incremental changes are exact

A step leaves a conversation as it is, renews it, or records one change (`Stepped`), and a recorded
change that is no reset tells what the step did to the entries (`Tells`).  `Tracks` collects this
over the steps since a version, and `changes_exact` says what a reader of that version can rely on.
-/

namespace NiumaTerm.Transcript

open Rust Transition List

/-! ## Updates of one entry -/

def updateOf (entries : List (ℕ × EntryChange)) (i : ℕ) : Option EntryChange :=
  (entries.find? (·.1 = i)).map Prod.snd

/-- What an update of an entry says of its text before and after. -/
def Describes (update : Option EntryChange) (old new : Option Str) : Prop :=
  match update with
  | none => new = old
  | some (.append previousBytes) =>
    utf8Len (old.getD []) = previousBytes ∧ old.getD [] <+: new.getD []
  | some .replace => True

/-- Merged updates describe both changes. -/
theorem Describes.merge {update update' : Option EntryChange} {old mid new : Option Str}
    (h : Describes update old mid) (h' : Describes update' mid new) :
    Describes (update.merge EntryChange.merge update') old new := by
  cases update with
  | none =>
    obtain rfl : mid = old := h
    rwa [Option.merge_none_left]
  | some u =>
    cases update' with
    | none =>
      obtain rfl : new = mid := h'
      rwa [Option.merge_none_right]
    | some u' =>
      cases u with
      | replace => trivial
      | append bytes =>
        cases u' with
        | replace => trivial
        | append bytes' =>
          obtain ⟨rfl, hpre⟩ := h
          obtain ⟨rfl, hpre'⟩ := h'
          have hle := utf8Len_le_of_prefix hpre
          exact ⟨(Nat.min_eq_left hle).symm, hpre.trans hpre'⟩

theorem updateOf_cons (j : ℕ) (u : EntryChange) (rest : List (ℕ × EntryChange)) (i : ℕ) :
    updateOf ((j, u) :: rest) i = if j = i then some u else updateOf rest i := by
  by_cases h : j = i <;> simp [updateOf, h]

theorem updateOf_absorbEntry (entries : List (ℕ × EntryChange)) (update : ℕ × EntryChange) (i : ℕ) :
    updateOf (ContentChange.absorbEntry entries update) i =
      (updateOf entries i).merge EntryChange.merge (updateOf [update] i) := by
  obtain ⟨index, u⟩ := update
  induction entries with
  | nil => exact Option.merge_none_left.symm
  | cons entry rest ih =>
    obtain ⟨j, previous⟩ := entry
    rw [ContentChange.absorbEntry]
    split
    · next hj =>
      subst hj
      simp only [updateOf_cons]
      split
      · rw [Option.merge_some_some]
      · exact Option.merge_none_right.symm
    · next hj =>
      rw [updateOf_cons, updateOf_cons, ih]
      split
      · next hi =>
        subst hi
        rw [updateOf_cons, if_neg fun he => hj he.symm]
        exact Option.merge_none_right.symm
      · rfl

/-- The updates are of different entries. -/
def Separate (entries : List (ℕ × EntryChange)) : Prop := (entries.map Prod.fst).Nodup

variable {entries : List (ℕ × EntryChange)}

theorem Separate.absorbEntry (h : Separate entries)
    (update : ℕ × EntryChange) : Separate (ContentChange.absorbEntry entries update) := by
  obtain ⟨index, u⟩ := update
  have hkeys : ∀ entries : List (ℕ × EntryChange), ∀ i,
      i ∈ (ContentChange.absorbEntry entries (index, u)).map Prod.fst →
        i ∈ entries.map Prod.fst ∨ i = index := by
    intro entries i hi
    induction entries with
    | nil => exact .inr (by simpa [ContentChange.absorbEntry] using hi)
    | cons entry rest ih =>
      rw [ContentChange.absorbEntry] at hi
      split at hi
      · exact .inl hi
      · rcases mem_cons.mp hi with rfl | hi
        · exact .inl mem_cons_self
        · exact (ih hi).imp_left (mem_cons_of_mem _)
  induction entries with
  | nil => exact nodup_singleton _
  | cons entry rest ih =>
    obtain ⟨hnew, hrest⟩ := nodup_cons.mp h
    rw [ContentChange.absorbEntry]
    split
    · exact h
    · next hne =>
      refine nodup_cons.mpr ⟨fun hmem => ?_, ih hrest⟩
      rcases hkeys rest _ hmem with hmem | he
      · exact hnew hmem
      · exact hne he

theorem Separate.updateOf_eq (h : Separate entries) {i : ℕ}
    {u : EntryChange} (hmem : (i, u) ∈ entries) : updateOf entries i = some u := by
  induction entries with
  | nil => cases hmem
  | cons entry rest ih =>
    obtain ⟨j, v⟩ := entry
    obtain ⟨hnew, hrest⟩ := nodup_cons.mp h
    rw [updateOf_cons]
    rcases mem_cons.mp hmem with he | hmem
    · cases he
      exact if_pos rfl
    · rw [if_neg ?_]
      · exact ih hrest hmem
      · rintro rfl
        exact hnew (mem_map.mpr ⟨(j, u), hmem, rfl⟩)

theorem updateOf_eq_none {i : ℕ} (h : ∀ u, (i, u) ∉ entries) : updateOf entries i = none := by
  rw [updateOf, find?_eq_none.mpr, Option.map_none]
  rintro ⟨j, u⟩ hmem hj
  obtain rfl : j = i := by simpa using hj
  exact h u hmem

/-! ## Changes one after another -/

def logUpdate (log : List ContentChange) (i : ℕ) : Option EntryChange :=
  log.foldl (fun update change => update.merge EntryChange.merge (updateOf change.entries i)) none

theorem logUpdate_concat (log : List ContentChange) (change : ContentChange) (i : ℕ) :
    logUpdate (log ++ [change]) i =
      (logUpdate log i).merge EntryChange.merge (updateOf change.entries i) := by
  rw [logUpdate, foldl_append]
  rfl

structure AddsUp (start total : ContentChange) (log : List ContentChange) : Prop where
  first_le : total.first ≤ start.first
  first : ∀ change ∈ log, total.first ≤ change.first
  reset : total.resetFrom = none → ∀ change ∈ log, change.resetFrom = none
  separate : Separate total.entries
  updates : ∀ i, updateOf total.entries i = logUpdate log i

/-- Absorbing the changes of a log, each of at most one entry. -/
theorem addsUp_foldl {start : ContentChange} (hstart : start.entries = [])
    {log : List ContentChange} (hone : ∀ change ∈ log, change.entries.length ≤ 1) :
    AddsUp start (log.foldl ContentChange.absorb start) log := by
  induction log using reverseRecOn with
  | nil =>
    refine ⟨Nat.le_refl _, fun _ h => (by cases h), fun _ _ h => (by cases h), ?_, fun i => ?_⟩
    · rw [foldl_nil, hstart]
      exact nodup_nil
    · rw [foldl_nil, hstart]
      rfl
  | append_singleton log change ih =>
    have hlog := ih fun c hc => hone c (mem_append_left _ hc)
    rw [foldl_append, foldl_cons, foldl_nil]
    have hentries : change.entries = [] ∨ ∃ update, change.entries = [update] := by
      have hle := hone change (mem_append_right _ (mem_singleton_self _))
      rcases hc : change.entries with _ | ⟨update, _ | ⟨_, _⟩⟩
      · exact .inl rfl
      · exact .inr ⟨update, rfl⟩
      · simp [hc] at hle
    refine ⟨(Nat.min_le_left _ _).trans hlog.first_le, ?_, ?_, ?_, fun i => ?_⟩
    · intro c hc
      rcases mem_append.mp hc with hc | hc
      · exact (Nat.min_le_left _ _).trans (hlog.first c hc)
      · rw [mem_singleton.mp hc]
        exact Nat.min_le_right _ _
    · intro hreset
      rw [ContentChange.absorb] at hreset
      dsimp only at hreset
      split at hreset
      · cases hreset
      · next hnone =>
        intro c hc
        rcases mem_append.mp hc with hc | hc
        · exact hlog.reset hreset c hc
        · rw [mem_singleton.mp hc, hnone]
    · rcases hentries with he | ⟨update, he⟩ <;> simp only [ContentChange.absorb, he]
      · exact hlog.separate
      · exact hlog.separate.absorbEntry update
    · rw [logUpdate_concat, ← hlog.updates]
      rcases hentries with he | ⟨update, he⟩ <;> simp only [ContentChange.absorb, he]
      · exact Option.merge_none_right.symm
      · exact updateOf_absorbEntry _ _ _

/-! ## One step -/

def textAt (entries : List Entry) (i : ℕ) : Option Str := entries[i]?.bind fun e => e.item.text

/-- What a recorded change that is no reset tells of the entries before and after. -/
structure Tells (old new : List Entry) (change : ContentChange) : Prop where
  length_le : old.length ≤ new.length
  before : ∀ i < change.first, i < old.length → new[i]? = old[i]?
  first_le : old.length < new.length → change.first ≤ old.length
  text : ∀ i < old.length, Describes (updateOf change.entries i) (textAt old i) (textAt new i)
  fresh : ∀ i, old.length ≤ i → updateOf change.entries i = none

variable {old new : List Entry} {change : ContentChange}

theorem Tells.added {more : List Entry} (h : change.entries = [])
    (hfirst : more ≠ [] → change.first ≤ old.length) : Tells old (old ++ more) change where
  length_le := by simp
  before i _ hi := getElem?_append_left hi
  first_le hlt := hfirst fun he => by simp [he] at hlt
  text i hi := by
    rw [h, textAt, textAt, getElem?_append_left hi]
    rfl
  fresh i _ := by
    rw [h]
    rfl

theorem Tells.nothing (h : change.entries = []) : Tells old old change := by
  have hadded : Tells old (old ++ []) change := .added h fun hne => absurd rfl hne
  rwa [append_nil] at hadded

theorem Tells.modified {index : ℕ} {f : Entry → Entry} (hindex : index < old.length)
    (hfirst : change.first ≤ index) (hother : ∀ i, i ≠ index → updateOf change.entries i = none)
    (htext : ∀ e, old[index]? = some e →
      Describes (updateOf change.entries index) e.item.text (f e).item.text) :
    Tells old (old.modify index f) change where
  length_le := by simp
  before i hi _ := by
    rw [getElem?_modify_ne _ _ (by omega)]
  first_le hlt := by simp at hlt
  text i hi := by
    rw [textAt, textAt]
    by_cases he : index = i
    · subst he
      rw [getElem?_modify_eq, getElem?_eq_getElem hi]
      exact htext _ (getElem?_eq_getElem hi)
    · rw [hother i fun h => he h.symm, getElem?_modify_ne _ _ he]
      rfl
  fresh i hi := hother i (by omega)

/-- What a step can do. -/
inductive Stepped (c : ConversationState) : ConversationState → Prop
  | silent : Stepped c c
  | renewed {c' : ConversationState} (h : c.generation < c'.generation)
    (hold : ∀ change ∈ c'.changes, change.revision ≤ c'.revision) : Stepped c c'
  | recorded (content : TranscriptContent EntryMetadata) (change : ContentChange)
    (hrevision : change.revision = c.revision + 1) (hone : change.entries.length ≤ 1)
    (htells : change.resetFrom = none → Tells c.content.entries content.entries change) :
    Stepped c { content, generation := c.generation, revision := c.revision + 1
                changes := Window.push ConversationState.remembered c.changes change }

/-- A recorded change after the content was replaced. -/
theorem Stepped.record {c : ConversationState} (content : TranscriptContent EntryMetadata)
    (first : ℕ) (reply : Option (ℕ × ℕ)) (entries : List (ℕ × EntryChange)) (resetFrom : Option ℕ)
    (hone : entries.length ≤ 1)
    (htells : resetFrom = none → Tells c.content.entries content.entries
      { revision := c.revision + 1, first, reply, entries, resetFrom }) :
    Stepped c ({ c with content }.recordChange first reply entries resetFrom) :=
  .recorded content _ rfl hone htells

/-- The entries after several are appended. -/
theorem entries_foldl_append {α : Type} (content : TranscriptContent EntryMetadata) (f : α → Entry)
    (xs : List α) : (xs.foldl (fun content x => content.append (f x)) content).entries =
      content.entries ++ xs.map f := by
  induction xs generalizing content with
  | nil => simp
  | cons x xs ih =>
    rw [foldl_cons, ih]
    simp [TranscriptContent.append]

namespace ConversationState

variable {c : ConversationState}

theorem stepped_presentation (content : TranscriptContent EntryMetadata) {first : ℕ}
    (h : Tells c.content.entries content.entries
      { revision := c.revision + 1, first, reply := none, entries := [], resetFrom := none }) :
    Stepped c ({ c with content }.presentationChanged first) :=
  .record content first none [] none (Nat.zero_le _) fun _ => h

theorem stepped_renewed (content : TranscriptContent EntryMetadata) :
    Stepped c (c.renewed content) := by
  refine .renewed (Nat.lt_succ_self _) fun change h => ?_
  rcases Window.mem_of_mem_push h with h | rfl
  · cases h
  · exact Nat.le_refl _

theorem stepped_append (entry : Entry) : Stepped c (c.append entry) :=
  stepped_presentation (c.content.append entry) (.added rfl fun _ => Nat.sub_le _ _)

theorem stepped_replay (turn : ℕ) (items : List ReplayItem) : Stepped c (c.replay turn items) := by
  refine stepped_presentation _ ?_
  rw [entries_foldl_append]
  exact .added rfl fun _ => Nat.sub_le _ _

theorem stepped_attachLastImages (images : List ConversationImage) :
    Stepped c (c.attachLastImages images) := by
  rw [attachLastImages]
  split
  · exact .silent
  · next hne =>
    have hpos : 0 < c.content.entries.length := length_pos_iff.mpr hne
    exact stepped_presentation _
      (.modified (by omega) (Nat.le_refl _) (fun _ _ => rfl) fun _ _ => rfl)

theorem stepped_changedTurn (turn : ℕ) : Stepped c (c.changedTurn turn) :=
  stepped_presentation c.content (.nothing rfl)

theorem stepped_start : Stepped c c.start := stepped_presentation c.content (.nothing rfl)

theorem stepped_mergeCompleted (item : Item) : Stepped c (c.mergeCompleted item) := by
  rw [mergeCompleted]
  split
  · exact .silent
  next index content h =>
  obtain ⟨e, merged, he, hmerged, hentries⟩ := TranscriptContent.mergeCompleted_some h
  have hindex : index < c.content.entries.length := (List.getElem?_eq_some_iff.mp he).1
  split
  · next homits =>
    refine stepped_presentation content ?_
    rw [hentries]
    refine .modified hindex (Nat.le_refl _) (fun _ _ => rfl) fun e' he' => ?_
    obtain rfl := Option.some.inj (he'.symm.trans he)
    rw [hmerged]
    exact Item.mergeCompleted_text hmerged homits
  · refine .record content index none _ none (Nat.le_refl _) fun _ => ?_
    rw [hentries]
    refine .modified hindex (Nat.le_refl _) (fun i hi => ?_) fun e' _ => ?_
    · rw [updateOf_cons, if_neg fun h => hi h.symm]
      rfl
    · rw [updateOf_cons, if_pos rfl]
      trivial

theorem stepped_appendDelta (itemId delta : Str) (field : TextField) :
    Stepped c (c.appendDelta itemId delta field).2 := by
  rw [appendDelta]
  split
  · exact .silent
  next update content h =>
  obtain ⟨e, he, hfits, hbytes, hentries⟩ := TranscriptContent.appendDelta_some h
  refine .record content update.index _ _ none (Nat.le_refl _) fun _ => ?_
  rw [hentries]
  refine .modified (List.getElem?_eq_some_iff.mp he).1 (Nat.le_refl _) (fun i hi => ?_)
    fun e' he' => ?_
  · rw [updateOf_cons, if_neg fun h => hi h.symm]
    rfl
  · obtain rfl := Option.some.inj (he'.symm.trans he)
    rw [updateOf_cons, if_pos rfl]
    refine ⟨hbytes.symm, ?_⟩
    dsimp only
    rw [Item.pushText_text delta hfits]
    exact prefix_append _ _

/-- **Every operation** leaves the conversation alone, renews it, or records one change. -/
theorem stepped_perform (c : ConversationState) (op : Operation) : Stepped c (c.perform op) := by
  cases op with
  | changed first reply =>
    exact .record c.content first reply [] (some first) (Nat.zero_le _) fun h => by cases h
  | attachLastImages images => exact stepped_attachLastImages images
  | append entry => exact stepped_append entry
  | push turn item images now => exact stepped_append _
  | replay turn items => exact stepped_replay turn items
  | mergeCompleted item => exact stepped_mergeCompleted item
  | removeItems itemIds =>
    rw [perform, removeItems]
    split
    · exact .silent
    · exact stepped_renewed _
  | appendDelta itemId delta field => exact stepped_appendDelta itemId delta field
  | start => exact stepped_start
  | changedTurn turn | settle turn => exact stepped_changedTurn turn
  | splice start entries =>
    exact .record _ _ _ [] (some _) (Nat.zero_le _) fun h => by cases h
  | retainLast count =>
    rw [perform, retainLast]
    dsimp only
    split
    · exact stepped_renewed _
    · exact .silent
  | clear => exact .renewed (Nat.lt_succ_self _) fun _ h => by cases h

end ConversationState

/-! ## The steps since a version -/

/-- The second state is between the others. -/
def Between (c₀ c₁ c : ConversationState) : Prop :=
  ∃ before after, Steps conversations c₀ before c₁ ∧ Steps conversations c₁ after c

theorem Between.step {c₀ c₁ c c' : ConversationState} {op : Operation} (h : Between c₀ c₁ c)
    (hstep : conversations.step c op c') : Between c₀ c₁ c' := by
  obtain ⟨before, after, hbefore, hafter⟩ := h
  exact ⟨before, after ++ [op], hbefore, hafter.tail hstep⟩

/-- Where the text of an entry comes from: a state since the version, or the state of the version
for an entry of it. -/
structure Origin (c₀ c₁ c : ConversationState) (i : ℕ) : Prop where
  between : Between c₀ c₁ c
  exists_entry : i < c₁.content.entries.length
  old : i < c₀.content.entries.length → c₁ = c₀

theorem Origin.step {c₀ c₁ c c' : ConversationState} {op : Operation} {i : ℕ}
    (h : Origin c₀ c₁ c i) (hstep : conversations.step c op c') : Origin c₀ c₁ c' i :=
  ⟨h.between.step hstep, h.exists_entry, h.old⟩

/-- What the changes recorded since a version tell, when none of them is a reset. -/
structure Tracks (c₀ c : ConversationState) (log : List ContentChange) : Prop where
  length_le : c₀.content.entries.length ≤ c.content.entries.length
  before : ∀ i < c₀.content.entries.length, (∀ change ∈ log, i < change.first) →
    c.content.entries[i]? = c₀.content.entries[i]?
  first_le : c₀.content.entries.length < c.content.entries.length →
    ∃ change ∈ log, change.first ≤ c₀.content.entries.length
  text : ∀ i < c.content.entries.length, ∃ c₁, Origin c₀ c₁ c i ∧
    Describes (logUpdate log i) (textAt c₁.content.entries i) (textAt c.content.entries i)
  fresh : ∀ i, c.content.entries.length ≤ i → logUpdate log i = none

theorem Tracks.refl (c : ConversationState) : Tracks c c [] where
  length_le := Nat.le_refl _
  before _ _ _ := rfl
  first_le h := absurd h (Nat.lt_irrefl _)
  text _ hi := ⟨c, ⟨⟨[], [], .refl c, .refl c⟩, hi, fun _ => rfl⟩, rfl⟩
  fresh _ _ := rfl

/-- A recorded change continues what is tracked. -/
theorem Tracks.step {c₀ c c' : ConversationState} {operations : List Operation} {op : Operation}
    {log : List ContentChange} {change : ContentChange} (h : Tracks c₀ c log)
    (hs : Steps conversations c₀ operations c) (hstep : conversations.step c op c')
    (htells : Tells c.content.entries c'.content.entries change) :
    Tracks c₀ c' (log ++ [change]) where
  length_le := h.length_le.trans htells.length_le
  before i hi hfirst := by
    rw [htells.before i (hfirst change (mem_append_right _ (mem_singleton_self _)))
      (by have := h.length_le; omega)]
    exact h.before i hi fun r hr => hfirst r (mem_append_left _ hr)
  first_le hlt := by
    by_cases hgrown : c₀.content.entries.length < c.content.entries.length
    · obtain ⟨r, hr, hle⟩ := h.first_le hgrown
      exact ⟨r, mem_append_left _ hr, hle⟩
    · have hsame := h.length_le
      refine ⟨change, mem_append_right _ (mem_singleton_self _), ?_⟩
      have := htells.first_le (by omega)
      omega
  text i hi := by
    rw [logUpdate_concat]
    by_cases hold : i < c.content.entries.length
    · obtain ⟨c₁, horigin, hdescribes⟩ := h.text i hold
      exact ⟨c₁, horigin.step hstep, hdescribes.merge (htells.text i hold)⟩
    · have hge := Nat.not_lt.mp hold
      rw [h.fresh i hge, htells.fresh i hge]
      exact ⟨c', ⟨⟨_, [], hs.tail hstep, .refl _⟩, hi,
        fun h₀ => absurd (h₀.trans_le h.length_le) hold⟩, rfl⟩
  fresh i hi := by
    rw [logUpdate_concat, h.fresh i (htells.length_le.trans hi),
      htells.fresh i (htells.length_le.trans hi)]
    rfl

/-- The log of what was recorded since a version, in a conversation that was not renewed. -/
structure Follows (c₀ c : ConversationState) (log : List ContentChange) : Prop where
  generation : c.generation = c₀.generation
  revision : c.revision = c₀.revision + log.length
  numbered : Window.NumberedFrom ContentChange.revision c₀.revision log
  window : c.changes <:+ c₀.changes ++ log
  one : ∀ change ∈ log, change.entries.length ≤ 1
  unchanged : log = [] → c = c₀
  tracks : (∀ change ∈ log, change.resetFrom = none) → Tracks c₀ c log

/-- **What follows a version** renews the conversation, or is recorded. -/
theorem follows_steps {c₀ c : ConversationState} {operations : List Operation}
    (hs : Steps conversations c₀ operations c) :
    c₀.generation < c.generation ∨ ∃ log, Follows c₀ c log := by
  induction hs with
  | refl c =>
    refine .inr ⟨[], rfl, rfl, .nil, ?_, fun _ h => (by cases h), fun _ => rfl, fun _ => .refl c⟩
    simp only [append_nil, suffix_rfl]
  | @tail operations c₀ c c' op hs hstep ih =>
    have hstepped : Stepped c c' := by
      obtain rfl : c' = c.perform op := hstep
      exact c.stepped_perform op
    rcases ih with hlt | ⟨log, h⟩
    · cases hstepped with
      | silent | recorded => exact .inl hlt
      | renewed hgeneration _ => exact .inl (hlt.trans hgeneration)
    cases hstepped with
    | silent =>
      refine .inr ⟨log, { h with tracks := fun hnone => ?_ }⟩
      have ht := h.tracks hnone
      refine { ht with text := fun i hi => ?_ }
      obtain ⟨c₁, horigin, hdescribes⟩ := ht.text i hi
      exact ⟨c₁, horigin.step hstep, hdescribes⟩
    | renewed hgeneration _ => exact .inl (h.generation ▸ hgeneration)
    | recorded content change hrevision hone htells =>
      refine .inr ⟨log ++ [change], h.generation, ?_, ?_, ?_, ?_, fun hnil => ?_, fun hnone => ?_⟩
      · rw [length_append, length_singleton, ← Nat.add_assoc, ← h.revision]
      · exact h.numbered.concat (by rw [hrevision, h.revision])
      · rw [← append_assoc]
        exact Window.suffix_push h.window change
      · intro r hr
        rcases mem_append.mp hr with hr | hr
        · exact h.one r hr
        · rw [mem_singleton.mp hr]
          exact hone
      · simp at hnil
      · have hlast := hnone change (mem_append_right _ (mem_singleton_self _))
        exact (h.tracks fun r hr => hnone r (mem_append_left _ hr)).step hs hstep (htells hlast)

/-! ## What a reader can rely on -/

/-- The remembered changes of a run are older than its version. -/
theorem remembered_le {labels : List Operation} {c : ConversationState}
    (h : Run conversations labels c) : ∀ change ∈ c.changes, change.revision ≤ c.revision := by
  refine h.invariant (I := fun c => ∀ change ∈ c.changes, change.revision ≤ c.revision) ?_ ?_
  · rintro _ rfl change hmem
    cases hmem
  · intro c op c' ih hstep
    have hstepped : Stepped c c' := by
      obtain rfl : c' = c.perform op := hstep
      exact c.stepped_perform op
    cases hstepped with
    | silent => exact ih
    | renewed _ hold => exact hold
    | recorded content change hrevision =>
      intro r hr
      rcases Window.mem_of_mem_push hr with hr | rfl
      · exact (ih r hr).trans (Nat.le_succ _)
      · exact hrevision.le

/-- What changes that are no reset tell a reader of an earlier state: the entries before the first
one are the same, the text of an appended entry continues what it was, and what is not listed is
unchanged. -/
structure Exact (c₀ c : ConversationState) (change : ContentChange) : Prop where
  first_le : change.first ≤ c₀.content.entries.length
  before : c.content.entries.take change.first = c₀.content.entries.take change.first
  appended : ∀ i previousBytes, (i, .append previousBytes) ∈ change.entries →
    ∃ c₁ old new, Origin c₀ c₁ c i ∧ (textAt c₁.content.entries i).getD [] = old ∧
      (textAt c.content.entries i).getD [] = new ∧ utf8Len old = previousBytes ∧ old <+: new ∧
      isCharBoundary new previousBytes = true
  unlisted : ∀ i < c₀.content.entries.length, (∀ update, (i, update) ∉ change.entries) →
    textAt c.content.entries i = textAt c₀.content.entries i

theorem Follows.exact {c₀ c : ConversationState} {log : List ContentChange} (h : Follows c₀ c log)
    {start total : ContentChange} (hstart : start.first = c.content.entries.length)
    (htotal : AddsUp start total log) (hreset : total.resetFrom = none) : Exact c₀ c total := by
  have ht := h.tracks (htotal.reset hreset)
  have hfirst : total.first ≤ c₀.content.entries.length := by
    rcases ht.length_le.lt_or_eq with hlt | he
    · obtain ⟨change, hmem, hle⟩ := ht.first_le hlt
      exact (htotal.first change hmem).trans hle
    · rw [he, ← hstart]
      exact htotal.first_le
  refine ⟨hfirst, ?_, fun i previousBytes hmem => ?_, fun i hi hnone => ?_⟩
  · refine ext_getElem? fun i => ?_
    rw [getElem?_take, getElem?_take]
    split
    · next hi =>
      exact ht.before i (hi.trans_le hfirst) fun change hmem =>
        hi.trans_le (htotal.first change hmem)
    · rfl
  · have hupdate := htotal.separate.updateOf_eq hmem
    rw [htotal.updates] at hupdate
    have hi : i < c.content.entries.length := by
      by_contra hge
      rw [ht.fresh i (Nat.not_lt.mp hge)] at hupdate
      cases hupdate
    obtain ⟨c₁, horigin, hdescribes⟩ := ht.text i hi
    rw [hupdate] at hdescribes
    obtain ⟨hbytes, hprefix⟩ := hdescribes
    exact ⟨c₁, _, _, horigin, rfl, rfl, hbytes, hprefix, hbytes ▸ isCharBoundary_of_prefix hprefix⟩
  · obtain ⟨c₁, horigin, hdescribes⟩ := ht.text i (hi.trans_le ht.length_le)
    rw [← htotal.updates, updateOf_eq_none hnone, horigin.old hi] at hdescribes
    exact hdescribes

/-- **Incremental changes are exact.**  A reader of an earlier version learns of no changes exactly
when the version is current, and nothing has changed then; otherwise it learns of a reset, or of
changes that tell exactly what it has to read again. -/
theorem changes_exact {labels operations : List Operation} {c₀ c : ConversationState}
    (h : Run conversations labels c₀) (hs : Steps conversations c₀ operations c) :
    (c.changesSince c₀.version = none ↔ c.version = c₀.version) ∧
      (c.version = c₀.version → c.content.entries = c₀.content.entries) ∧
      ∀ change, c.changesSince c₀.version = some change → change.resetFrom = none →
        Exact c₀ c change := by
  have hnone : c.changesSince c₀.version = none ↔ c.version = c₀.version := by
    rw [ConversationState.changesSince]
    split
    · next he => exact iff_of_true rfl he.symm
    · next hne =>
      refine iff_of_false ?_ fun he ↦ hne he.symm
      split <;> exact Option.some_ne_none _
  refine ⟨hnone, fun he ↦ ?_, fun change hchange hreset ↦ ?_⟩
  · obtain ⟨hgeneration, hrevision⟩ := Prod.mk.inj he
    rcases follows_steps hs with hlt | ⟨log, hf⟩
    · exact absurd hgeneration hlt.ne'
    · have hlength := hf.revision
      rw [hf.unchanged (length_eq_zero_iff.mp (by omega))]
  · rw [ConversationState.changesSince] at hchange
    split at hchange
    · cases hchange
    next hne =>
    split at hchange
    · obtain rfl := Option.some.inj hchange
      cases hreset
    next hexpired =>
    rw [ConversationState.expired, Bool.or_eq_true, not_or, Bool.not_eq_true, Bool.not_eq_true,
      Option.all_eq_false] at hexpired
    obtain ⟨hother, first, hfirst, hfar⟩ := hexpired
    have hgeneration : c₀.generation = c.generation :=
      Decidable.not_not.mp (of_decide_eq_false hother)
    have hreach : first.revision ≤ c₀.revision + 1 := Nat.not_lt.mp (of_decide_eq_false hfar)
    rcases follows_steps hs with hlt | ⟨log, hf⟩
    · exact absurd hgeneration hlt.ne
    · have hmissed : c.missed c₀.version = log :=
        Window.filter_of_suffix hf.window (remembered_le h) hf.numbered hfirst hreach
      rw [hmissed] at hchange
      obtain rfl := Option.some.inj hchange
      exact hf.exact rfl (addsUp_foldl rfl hf.one) hreset

/-- A short conversation: a reply in two parts. -/
def shortReply : List Operation :=
  [.push 0 (.agentMessage "a".toList (some ("ab".toList)) none) [] 0,
    .appendDelta "a".toList "cd".toList .reply]

theorem conversations_perform (c : ConversationState) (operations : List Operation) :
    Steps conversations c operations (operations.foldl .perform c) := by
  induction operations using reverseRecOn with
  | nil => exact .refl c
  | append_singleton operations op ih =>
    rw [foldl_append]
    exact ih.tail rfl

/-- The reader of a version before the reply learns of bytes 2 and following, and has to read the
whole reply, of which nothing was there at that version. -/
theorem changes_exact_shortReply :
    let c := shortReply.foldl .perform .empty
    (c.changesSince (0, 0) = none ↔ c.version = (0, 0)) ∧
      (c.version = (0, 0) → c.content.entries = []) ∧
      ∀ change, c.changesSince (0, 0) = some change → change.resetFrom = none →
        Exact .empty c change :=
  changes_exact (.init rfl) (conversations_perform .empty shortReply)

/-- An entry that was added after the version, and appended to later, is listed as appended from a
byte of a text that the version did not have. -/
theorem appended_after_version : ∃ c change, Steps conversations .empty shortReply c ∧
    c.changesSince ConversationState.empty.version = some change ∧ change.resetFrom = none ∧
      (0, .append 2) ∈ change.entries ∧ ConversationState.empty.content.entries[0]? = none ∧
      utf8Len ((textAt ConversationState.empty.content.entries 0).getD []) ≠ 2 := by
  refine ⟨_, { revision := 2, first := 0, reply := some (0, 2), entries := [(0, .append 2)]
               resetFrom := none },
    conversations_perform .empty shortReply, ?_, rfl, mem_singleton_self _, rfl, ?_⟩
  · decide +kernel
  · decide

end NiumaTerm.Transcript
