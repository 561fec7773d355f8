import NiumaTerm.BackgroundTask.Registry
import NiumaTerm.Lib.KeyedLog
import NiumaTerm.Transcript.Conversation

/-!
# Transcripts of child agents

A `ChildTranscript` accumulates what a provider reports of one child agent; only the last rows are kept,
and the dropped ones are counted.  `tail_of_run`: it is the end of a transcript without a bound, as long as
no update completes a row that was cut.
-/

namespace NiumaTerm.Session

open Rust Transition Transcript BackgroundTask List

abbrev TranscriptUpdate := BackgroundTaskTranscriptUpdate Item

/-- Items retained for each child. -/
def maxTranscriptItems : ℕ := 512

structure ChildTranscript where
  conversation : ConversationState
  state : BackgroundTaskLoadState
  dropped : ℕ

namespace ChildTranscript

def new : ChildTranscript where
  conversation := .empty
  state := .notLoaded
  dropped := 0

/-- Complete the row with the identity of the item, or show a new row. -/
def addItem (c : ConversationState) (item : Item) (now : ℤ) : ConversationState :=
  if item.id.any c.content.containsItem then c.mergeCompleted item else c.push 0 item [] now

/-- Add the items of an update; each of them has its own reading of the clock. -/
def addItems (clock : ℕ → ℤ) (c : ConversationState) : List Item → ConversationState
  | [] => c
  | item :: rest => addItems (fun i => clock (i + 1)) (addItem c item (clock 0)) rest

variable (t : ChildTranscript)

def entries : List Entry := t.conversation.content.entries

/-- `apply`, with the trimming at its end as a parameter. -/
def applyWith (trim : ConversationState → ℕ × ConversationState) (update : TranscriptUpdate)
    (clock : ℕ → ℤ) : Bool × ChildTranscript :=
  let changed := update.state.any (t.state ≠ ·)
  let t := { t with state := update.state.getD t.state }
  if update.restore ∧ t.entries ≠ [] then (changed, t)
  else if (update.replace ∨ update.restore) ∧ t.entries.map (·.item) = update.items then
    (changed, t)
  else
    let cleared := update.replace || update.restore
    let t := if cleared then { t with conversation := t.conversation.clear, dropped := 0 } else t
    let (dropped, conversation) := trim (addItems clock t.conversation update.items)
    (changed || cleared || !update.items.isEmpty,
      { t with conversation, dropped := t.dropped + dropped })

def apply (update : TranscriptUpdate) (clock : ℕ → ℤ) : Bool × ChildTranscript :=
  t.applyWith (·.retainLast maxTranscriptItems) update clock

/-- `apply` without a bound. -/
def applyUnbounded (update : TranscriptUpdate) (clock : ℕ → ℤ) : Bool × ChildTranscript :=
  t.applyWith (0, ·) update clock

end ChildTranscript

/-! ## Rows -/

theorem id_of_mergeCompleted {item completed merged : Item}
    (h : item.mergeCompleted completed = some merged) :
    completed.id.isSome ∧ item.id = completed.id := by
  rw [Item.mergeCompleted] at h
  split at h
  · cases h
  · next hids =>
    simp only [Bool.or_eq_true, Option.isNone_iff_eq_none, bne_iff_ne, not_or, not_not] at hids
    exact ⟨hids.2 ▸ Option.isSome_iff_ne_none.mpr hids.1, hids.2⟩

/-- Items are known by their identity, and a completed payload is merged into its row. -/
def rules : KeyedLog.Rules Entry Str where
  key e := e.item.id
  merge e new := (e.item.mergeCompleted new.item).map fun item => { e with item }
  key_merge h := by
    obtain ⟨item, hm, rfl⟩ := Option.map_eq_some_iff.mp h
    exact Item.mergeCompleted_id hm
  merge_key h := by
    obtain ⟨item, hm, -⟩ := Option.map_eq_some_iff.mp h
    exact id_of_mergeCompleted hm

def row (item : Item) (timestamp : Option ℤ) : Entry where
  turn := 0
  item
  metadata := { timestamp, images := [] }

/-- The rows that an update adds, when it completes none. -/
def newRows (clock : ℕ → ℤ) : List Item → List Entry
  | [] => []
  | item :: rest => row item (some (clock 0)) :: newRows (fun i => clock (i + 1)) rest

/-- The search in the index finds the first entry that takes the payload. -/
theorem find?_positionsFrom {q : Entry → Bool} {id : Str}
    (hq : ∀ e, q e = true → e.item.id = some id) (whole : List Entry) :
    ∀ (start : ℕ) (rest : List Entry), whole.drop start = rest →
    ((positionsFrom start rest id).find? fun i => whole[i]?.any q) =
      (rest.findIdx? q).map (· + start)
  | _, [], _ => rfl
  | start, e :: rest, h => by
    have he : whole[start]? = some e := by
      rw [← Nat.add_zero start, ← getElem?_drop, h]
      rfl
    have hrest : whole.drop (start + 1) = rest := by
      rw [← drop_drop, h]
      rfl
    have ih := find?_positionsFrom hq whole (start + 1) rest hrest
    have hcons : positionsFrom start (e :: rest) id =
        positionsFrom start [e] id ++ positionsFrom (start + 1) rest id :=
      positionsFrom_append start [e] rest id
    have hshift : (rest.findIdx? q).map (· + (start + 1)) =
        ((rest.findIdx? q).map (· + 1)).map (· + start) := by
      rw [Option.map_map]
      congr 1
      funext i
      simp only [Function.comp_apply]
      omega
    rw [hcons, find?_append, ih, findIdx?_cons, hshift]
    by_cases hid : e.item.id = some id
    · cases hqe : q e <;> simp [positionsFrom, hid, he, hqe]
    · have hqe : q e = false := Bool.eq_false_iff.mpr fun h => hid (hq e h)
      simp [positionsFrom, hid, hqe]

/-- A completed payload goes to the first row that takes it. -/
theorem entries_mergeCompleted (c : ConversationState) (item : Item) (timestamp : Option ℤ) :
    (c.mergeCompleted item).content.entries =
      KeyedLog.mergeFirst rules (row item timestamp) c.content.entries := by
  let q (e : Entry) : Bool := (e.item.mergeCompleted item).isSome
  have hq (e : Entry) (h : q e = true) : item.id.isSome ∧ e.item.id = item.id := by
    obtain ⟨merged, hm⟩ := Option.isSome_iff_exists.mp h
    exact id_of_mergeCompleted hm
  have htakes : (fun e : Entry => (rules.merge e (row item timestamp)).isSome) = q := by
    funext e
    exact Option.isSome_map
  have hentries : (c.mergeCompleted item).content.entries =
      (c.content.mergeCompleted item).elim c.content.entries fun m => m.2.entries := by
    rw [ConversationState.mergeCompleted]
    cases c.content.mergeCompleted item with
    | none => rfl
    | some m =>
      obtain ⟨index, content⟩ := m
      by_cases ho : item.omitsOutput = true <;> simp only [ho] <;> rfl
  rw [hentries, KeyedLog.mergeFirst_eq_modify, htakes, TranscriptContent.mergeCompleted]
  cases hid : item.id with
  | none =>
    have hnone : c.content.entries.findIdx? q = none := by
      refine findIdx?_eq_none_iff.mpr fun e _ => Bool.eq_false_iff.mpr fun h => ?_
      have hsome := (hq e h).1
      rw [hid] at hsome
      cases hsome
    rw [hnone]
    rfl
  | some id =>
    have hfind := find?_positionsFrom (fun e h => (hq e h).2.trans hid) c.content.entries 0 _ rfl
    rw [drop_zero, ← c.content.indexed] at hfind
    simp only [Option.bind_eq_bind, Option.bind_some, Option.pure_def]
    rw [hfind]
    cases c.content.entries.findIdx? q with
    | none => rfl
    | some index =>
      refine congrArg (c.content.entries.modify index) (funext fun e => ?_)
      show (⟨e.turn, (e.item.mergeCompleted item).getD e.item, e.metadata⟩ : Entry) =
        (Option.map _ (e.item.mergeCompleted item)).getD e
      cases e.item.mergeCompleted item <;> rfl

theorem containsItem_iff (content : TranscriptContent EntryMetadata) (id : Str) :
    content.containsItem id = content.entries.any fun e => e.item.id = some id := by
  have hempty (entries : List Entry) : ∀ start, (positionsFrom start entries id).isEmpty =
      !entries.any fun e => e.item.id = some id := by
    induction entries with
    | nil => exact fun _ => rfl
    | cons e rest ih =>
      intro start
      have ih := ih (start + 1)
      rw [positionsFrom] at ih ⊢
      rw [zipIdx_cons, filter_cons, any_cons]
      by_cases hid : e.item.id = some id
      · simp [hid]
      · simpa [hid] using ih
  rw [TranscriptContent.containsItem, content.indexed, hempty, Bool.not_not]

theorem entries_addItem (c : ConversationState) (item : Item) (now : ℤ) :
    (ChildTranscript.addItem c item now).content.entries =
      KeyedLog.add rules c.content.entries (row item (some now)) := by
  have hholds : KeyedLog.holds rules c.content.entries (row item (some now)) =
      item.id.any c.content.containsItem := by
    cases hid : item.id with
    | none => simp [KeyedLog.holds, rules, row, hid]
    | some id => simp [KeyedLog.holds, rules, row, hid, containsItem_iff]
  rw [ChildTranscript.addItem, KeyedLog.add, hholds]
  split
  · exact entries_mergeCompleted c item (some now)
  · rfl

theorem entries_addItems (clock : ℕ → ℤ) (c : ConversationState) (items : List Item) :
    (ChildTranscript.addItems clock c items).content.entries =
      KeyedLog.addAll rules c.content.entries (newRows clock items) := by
  induction items generalizing clock c with
  | nil => rfl
  | cons item rest ih =>
    rw [ChildTranscript.addItems, ih, entries_addItem]
    rfl

theorem entries_retainLast (c : ConversationState) (limit : ℕ) :
    (c.retainLast limit).2.content.entries = KeyedLog.retain limit c.content.entries := by
  rw [ConversationState.retainLast, TranscriptContent.retainLast, KeyedLog.retain]
  by_cases hpos : c.content.entries.length - limit > 0
  · simp only [hpos, if_true]
    rfl
  · rw [show c.content.entries.length - limit = 0 by omega]
    rfl

/-! ## What an update does -/

namespace ChildTranscript

variable {t u : ChildTranscript} {update : TranscriptUpdate} (clock : ℕ → ℤ)
  (trim : ConversationState → ℕ × ConversationState)

/-- History behind live content, or a complete read that shows nothing new. -/
def Ignores (t : ChildTranscript) (update : TranscriptUpdate) : Prop :=
  (update.restore ∧ t.entries ≠ []) ∨
    ((update.replace ∨ update.restore) ∧ t.entries.map (·.item) = update.items)

/-- The rows that an update adds to: none when it starts over. -/
def base (t : ChildTranscript) (update : TranscriptUpdate) : List Entry :=
  if update.replace || update.restore then [] else t.entries

/-- The rows with those of the update, before any are dropped. -/
def extended (t : ChildTranscript) (update : TranscriptUpdate) (clock : ℕ → ℤ) : List Entry :=
  KeyedLog.addAll rules (t.base update) (newRows clock update.items)

theorem applyWith_of_ignores (h : t.Ignores update) :
    t.applyWith trim update clock =
      (update.state.any (t.state ≠ ·), { t with state := update.state.getD t.state }) := by
  rw [applyWith]
  rcases h with h | h
  · exact if_pos h
  · split
    · rfl
    · exact if_pos h

theorem applyWith_of_not_ignores (h : ¬ t.Ignores update) :
    ∃ conversation : ConversationState, conversation.content.entries = t.extended update clock ∧
      t.applyWith trim update clock =
        (update.state.any (t.state ≠ ·) || (update.replace || update.restore) ||
            !update.items.isEmpty,
          { conversation := (trim conversation).2
            state := update.state.getD t.state
            dropped := (if update.replace || update.restore then 0 else t.dropped) +
              (trim conversation).1 }) := by
  obtain ⟨hrestore, hsame⟩ := not_or.mp h
  refine ⟨addItems clock (if update.replace || update.restore then t.conversation.clear
    else t.conversation) update.items, ?_, ?_⟩
  · rw [entries_addItems, extended, base]
    split <;> rfl
  · refine (if_neg hrestore).trans ((if_neg hsame).trans ?_)
    cases update.replace || update.restore <;> rfl

theorem state_applyWith : (t.applyWith trim update clock).2.state = update.state.getD t.state := by
  by_cases h : t.Ignores update
  · rw [applyWith_of_ignores _ _ h]
  · obtain ⟨conversation, -, h⟩ := applyWith_of_not_ignores clock trim h
    rw [h]

theorem entries_applyWith_retainLast (limit : ℕ) (h : ¬ t.Ignores update) :
    (t.applyWith (·.retainLast limit) update clock).2.entries =
        KeyedLog.retain limit (t.extended update clock) ∧
      (t.applyWith (·.retainLast limit) update clock).2.dropped =
        (if update.replace || update.restore then 0 else t.dropped) +
          ((t.extended update clock).length - limit) := by
  obtain ⟨c, hc, h⟩ := applyWith_of_not_ignores clock (·.retainLast limit) h
  rw [h, ← hc]
  exact ⟨entries_retainLast c limit, rfl⟩

theorem entries_apply (h : ¬ t.Ignores update) :
    (t.apply update clock).2.entries =
        KeyedLog.retain maxTranscriptItems (t.extended update clock) ∧
      (t.apply update clock).2.dropped =
        (if update.replace || update.restore then 0 else t.dropped) +
          ((t.extended update clock).length - maxTranscriptItems) :=
  entries_applyWith_retainLast clock maxTranscriptItems h

theorem entries_applyUnbounded (h : ¬ u.Ignores update) :
    (u.applyUnbounded update clock).2.entries = u.extended update clock := by
  obtain ⟨c, hc, h⟩ := applyWith_of_not_ignores clock (0, ·) h
  rw [applyUnbounded, h, ← hc]
  rfl

end ChildTranscript

/-! ## The end of the whole history -/

/-- A transcript, and one without a bound that is given the same updates. -/
def histories : System (ChildTranscript × ChildTranscript) (TranscriptUpdate × (ℕ → ℤ)) where
  init p := p = (.new, .new)
  step p l p' := p' = ((p.1.apply l.1 l.2).2, (p.2.applyUnbounded l.1 l.2).2)

/-- Once rows were cut, no item has the identity of one of them, and no complete read shows exactly
the rows that are left. -/
def Keeps (p : ChildTranscript × ChildTranscript) (l : TranscriptUpdate × (ℕ → ℤ)) : Prop :=
  l.1.restore = false → 0 < p.1.dropped →
    if l.1.replace then l.1.items ≠ p.1.entries.map (·.item)
    else ∀ item ∈ l.1.items, item.id.isSome →
      ∀ e ∈ p.2.entries.take p.1.dropped, e.item.id ≠ item.id

/-- No complete read shows the whole history over again either; its rows would be new ones, with
the time at which they were read. -/
def KeepsTimes (p : ChildTranscript × ChildTranscript) (l : TranscriptUpdate × (ℕ → ℤ)) : Prop :=
  Keeps p l ∧ (l.1.restore = false → 0 < p.1.dropped → l.1.replace →
    l.1.items ≠ p.2.entries.map (·.item))

/-- A row, with its timestamp seen through `stamp`. -/
def shown (stamp : Option ℤ → Option ℤ) (e : Entry) : Entry :=
  { e with metadata := { e.metadata with timestamp := stamp e.metadata.timestamp } }

theorem shown_id : shown id = id := rfl

theorem shown_view (stamp : Option ℤ → Option ℤ) : KeyedLog.View rules (shown stamp) where
  key _ := rfl
  merge e new := by
    show (e.item.mergeCompleted new.item).map _ = ((e.item.mergeCompleted new.item).map _).map _
    rw [Option.map_map]
    rfl

theorem map_item_shown (stamp : Option ℤ → Option ℤ) (entries : List Entry) :
    (entries.map (shown stamp)).map (·.item) = entries.map (·.item) := by
  rw [map_map]
  rfl

/-- A history has one row of an identity, and its rows are those of its items. -/
structure Sound (u : ChildTranscript) : Prop where
  distinct : KeyedLog.Distinct rules u.entries
  plain : ∀ e ∈ u.entries, e = row e.item e.metadata.timestamp

/-- One transcript is the end of the other. -/
structure TailOf (stamp : Option ℤ → Option ℤ) (t u : ChildTranscript) : Prop where
  entries : t.entries.map (shown stamp) =
    KeyedLog.retain maxTranscriptItems (u.entries.map (shown stamp))
  dropped : t.dropped = u.entries.length - maxTranscriptItems
  state : t.state = u.state

section

variable {t u : ChildTranscript} {update : TranscriptUpdate} {clock : ℕ → ℤ}
  {stamp : Option ℤ → Option ℤ}

theorem row_of_mem_newRows (items : List Item) (clock : ℕ → ℤ) :
    ∀ e ∈ newRows clock items, e = row e.item e.metadata.timestamp ∧ e.item ∈ items := by
  induction items generalizing clock with
  | nil => exact fun e he => absurd he not_mem_nil
  | cons item rest ih =>
    refine forall_mem_cons.mpr ⟨⟨rfl, mem_cons_self⟩, fun e he => ?_⟩
    obtain ⟨hrow, hmem⟩ := ih _ e he
    exact ⟨hrow, mem_cons_of_mem _ hmem⟩

theorem map_item_newRows (items : List Item) (clock : ℕ → ℤ) :
    (newRows clock items).map (·.item) = items := by
  induction items generalizing clock with
  | nil => rfl
  | cons item rest ih =>
    rw [newRows, map_cons, ih]
    rfl

theorem Sound.applyUnbounded (h : Sound u) : Sound (u.applyUnbounded update clock).2 := by
  by_cases hi : u.Ignores update
  · rw [ChildTranscript.applyUnbounded, ChildTranscript.applyWith_of_ignores _ _ hi]
    exact ⟨h.distinct, h.plain⟩
  have hbase : KeyedLog.Distinct rules (u.base update) ∧
      ∀ e ∈ u.base update, e = row e.item e.metadata.timestamp := by
    rw [ChildTranscript.base]
    split
    · exact ⟨List.Pairwise.nil, fun e he => absurd he not_mem_nil⟩
    · exact ⟨h.distinct, h.plain⟩
  refine ⟨?_, ?_⟩ <;> rw [ChildTranscript.entries_applyUnbounded _ hi, ChildTranscript.extended]
  · exact hbase.1.addAll
  · refine KeyedLog.forall_addAll hbase.2 (fun e he => (row_of_mem_newRows _ _ e he).1) ?_
    intro e new merged he hm
    obtain ⟨item, -, rfl⟩ := Option.map_eq_some_iff.mp hm
    rw [he]
    rfl

/-- Without timestamps, a history read over again is the same. -/
theorem Sound.reread (h : Sound u) (hitems : update.items = u.entries.map (·.item)) :
    (KeyedLog.addAll rules [] (newRows clock update.items)).map (shown fun _ => none) =
      u.entries.map (shown fun _ => none) := by
  have hmap (rows : List Entry) (hrows : ∀ e ∈ rows, e = row e.item e.metadata.timestamp) :
      rows.map (shown fun _ => none) = (rows.map (·.item)).map fun item => row item none := by
    rw [map_map]
    refine map_congr_left fun e he => ?_
    rw [hrows e he]
    rfl
  have hrows : (newRows clock update.items).map (shown fun _ => none) =
      u.entries.map (shown fun _ => none) := by
    rw [hmap _ fun e he => (row_of_mem_newRows _ _ e he).1, map_item_newRows, hitems,
      hmap _ h.plain]
  rw [(shown_view _).map_addAll, hrows, map_nil]
  refine KeyedLog.addAll_of_distinct ?_
  rw [KeyedLog.Distinct, map_map]
  exact h.distinct

theorem TailOf.length (h : TailOf stamp t u) :
    t.entries.length = min u.entries.length maxTranscriptItems := by
  have hlen := congrArg List.length h.entries
  rwa [length_map, KeyedLog.length_retain, length_map] at hlen

theorem TailOf.items (h : TailOf stamp t u) :
    t.entries.map (·.item) = KeyedLog.retain maxTranscriptItems (u.entries.map (·.item)) := by
  have hitems := congrArg (List.map (·.item)) h.entries
  rwa [map_item_shown, KeyedLog.map_retain, map_item_shown] at hitems

theorem TailOf.nil_iff (h : TailOf stamp t u) : t.entries = [] ↔ u.entries = [] := by
  rw [← length_eq_zero_iff, ← length_eq_zero_iff, h.length]
  have : maxTranscriptItems = 512 := rfl
  omega

/-- Nothing was cut yet. -/
theorem TailOf.items_of_dropped_zero (h : TailOf stamp t u) (hzero : t.dropped = 0) :
    t.entries.map (·.item) = u.entries.map (·.item) := by
  rw [h.items, KeyedLog.retain, length_map, ← h.dropped, hzero, drop_zero]

/-- Rows are left once some were cut. -/
theorem TailOf.ne_nil (h : TailOf stamp t u) (hpos : 0 < t.dropped) : t.entries ≠ [] := by
  intro hnil
  have hlen := h.length
  rw [hnil] at hlen
  have hdropped := h.dropped
  have : maxTranscriptItems = 512 := rfl
  rw [length_nil] at hlen
  omega

/-- Both ignore an update, or a complete read shows the whole longer history over again. -/
theorem TailOf.ignores (h : TailOf stamp t u) (hk : Keeps (t, u) (update, clock)) :
    (t.Ignores update → u.Ignores update) ∧ (u.Ignores update → t.Ignores update ∨
      (0 < t.dropped ∧ update.restore = false ∧ update.replace = true ∧
        update.items = u.entries.map (·.item))) := by
  have hrestored (hrestore : update.restore = true) (hne : t.entries ≠ []) :
      u.Ignores update := .inl ⟨hrestore, fun hnil => hne (h.nil_iff.mpr hnil)⟩
  refine ⟨?_, ?_⟩
  · rintro (⟨hrestore, hne⟩ | ⟨hstarts, hsame⟩)
    · exact hrestored hrestore hne
    · rcases Nat.eq_zero_or_pos t.dropped with hzero | hpos
      · exact .inr ⟨hstarts, h.items_of_dropped_zero hzero ▸ hsame⟩
      · cases hrestore : update.restore with
        | true => exact hrestored hrestore (h.ne_nil hpos)
        | false =>
          have hreplace : update.replace = true :=
            hstarts.resolve_right (by rw [hrestore]; exact Bool.false_ne_true)
          have hk := hk hrestore hpos
          rw [if_pos hreplace] at hk
          exact absurd hsame.symm hk
  · rintro (⟨hrestore, hne⟩ | ⟨hstarts, hsame⟩)
    · exact .inl (.inl ⟨hrestore, fun hnil => hne (h.nil_iff.mp hnil)⟩)
    · rcases Nat.eq_zero_or_pos t.dropped with hzero | hpos
      · exact .inl (.inr ⟨hstarts, (h.items_of_dropped_zero hzero).trans hsame⟩)
      · cases hrestore : update.restore with
        | true => exact .inl (.inl ⟨hrestore, h.ne_nil hpos⟩)
        | false =>
          have hreplace : update.replace = true :=
            hstarts.resolve_right (by rw [hrestore]; exact Bool.false_ne_true)
          exact .inr ⟨hpos, rfl, hreplace, hsame.symm⟩

/-- What an update that starts over leaves. -/
theorem TailOf.restarted (h : TailOf stamp t u) (ht : ¬ t.Ignores update)
    (hstarts : (update.replace || update.restore) = true) {rows : List Entry}
    (hrows : (t.extended update clock).map (shown stamp) = rows.map (shown stamp))
    {u' : ChildTranscript} (hu : u'.entries = rows)
    (hstate : u'.state = update.state.getD u.state) :
    TailOf stamp (t.apply update clock).2 u' := by
  obtain ⟨hentries, hdropped⟩ := ChildTranscript.entries_apply clock ht
  have hlen := congrArg List.length hrows
  rw [length_map, length_map] at hlen
  refine ⟨?_, ?_, ?_⟩
  · rw [hentries, KeyedLog.map_retain, hrows, hu]
  · rw [hdropped, if_pos hstarts, Nat.zero_add, hlen, hu]
  · rw [hstate, ← h.state]
    exact ChildTranscript.state_applyWith _ _

/-- **One update.**  The transcript stays the end of the history. -/
theorem TailOf.step (h : TailOf stamp t u) (hk : Keeps (t, u) (update, clock))
    (hreread : 0 < t.dropped → update.restore = false → update.replace = true →
      update.items = u.entries.map (·.item) →
      (KeyedLog.addAll rules [] (newRows clock update.items)).map (shown stamp) =
        u.entries.map (shown stamp)) :
    TailOf stamp (t.apply update clock).2 (u.applyUnbounded update clock).2 := by
  have hignores := h.ignores hk
  have hstate : (u.applyUnbounded update clock).2.state = update.state.getD u.state :=
    ChildTranscript.state_applyWith _ _
  by_cases ht : t.Ignores update
  · rw [ChildTranscript.apply, ChildTranscript.applyUnbounded,
      ChildTranscript.applyWith_of_ignores _ _ ht,
      ChildTranscript.applyWith_of_ignores _ _ (hignores.1 ht)]
    exact ⟨h.entries, h.dropped, congrArg (update.state.getD ·) h.state⟩
  by_cases hu : u.Ignores update
  · obtain ⟨hpos, hrestore, hreplace, hitems⟩ := (hignores.2 hu).resolve_left ht
    have hstarts : (update.replace || update.restore) = true := by rw [hreplace]; rfl
    have hunchanged : (u.applyUnbounded update clock).2.entries = u.entries := by
      rw [ChildTranscript.applyUnbounded, ChildTranscript.applyWith_of_ignores _ _ hu]
      rfl
    refine h.restarted ht hstarts ?_ hunchanged hstate
    rw [ChildTranscript.extended, ChildTranscript.base, if_pos hstarts]
    exact hreread hpos hrestore hreplace hitems
  have hunbounded := ChildTranscript.entries_applyUnbounded clock hu
  cases hstarts : update.replace || update.restore with
  | true =>
    refine h.restarted ht hstarts (congrArg _ ?_) hunbounded hstate
    rw [ChildTranscript.extended, ChildTranscript.extended, ChildTranscript.base,
      ChildTranscript.base, if_pos hstarts, if_pos hstarts]
  | false =>
    obtain ⟨hreplace, hrestore⟩ := Bool.or_eq_false_iff.mp hstarts
    have hbase (t : ChildTranscript) : t.base update = t.entries :=
      if_neg (Bool.eq_false_iff.mp hstarts)
    have hfresh : ∀ new ∈ (newRows clock update.items).map (shown stamp), KeyedLog.Fresh rules
        ((u.entries.map (shown stamp)).take
          ((u.entries.map (shown stamp)).length - maxTranscriptItems)) new := by
      rw [length_map, ← h.dropped]
      intro new hnew hsome e he
      obtain ⟨new, hmem, rfl⟩ := mem_map.mp hnew
      rw [← map_take] at he
      obtain ⟨old, hold, rfl⟩ := mem_map.mp he
      rcases Nat.eq_zero_or_pos t.dropped with hzero | hpos
      · rw [hzero] at hold
        exact absurd hold not_mem_nil
      · have hk := hk hrestore hpos
        rw [if_neg (Bool.eq_false_iff.mp hreplace)] at hk
        exact hk new.item (row_of_mem_newRows _ _ new hmem).2 hsome old hold
    obtain ⟨hentries, hdropped⟩ := ChildTranscript.entries_apply clock ht
    obtain ⟨htail, hcount⟩ := KeyedLog.retain_addAll hfresh
    rw [← h.entries, ← (shown_view stamp).map_addAll,
      ← (shown_view stamp).map_addAll] at htail hcount
    simp only [length_map] at hcount
    rw [ChildTranscript.extended, hbase] at hentries hdropped hunbounded
    refine ⟨?_, ?_, ?_⟩
    · rw [hentries, hunbounded, KeyedLog.map_retain]
      exact htail
    · rw [hdropped, hunbounded, if_neg (Bool.eq_false_iff.mp hstarts), h.dropped]
      exact hcount
    · rw [hstate, ← h.state]
      exact ChildTranscript.state_applyWith _ _

/-! ## Restores, reports and split updates -/

/-- Content that is shown is not replaced by history. -/
theorem entries_apply_restore (hrestore : update.restore = true) (hne : t.entries ≠ []) :
    (t.apply update clock).2.entries = t.entries ∧
      (t.apply update clock).2.dropped = t.dropped := by
  rw [ChildTranscript.apply, ChildTranscript.applyWith_of_ignores _ _ (.inl ⟨hrestore, hne⟩)]
  exact ⟨rfl, rfl⟩

/-- Nothing is reported only when nothing has changed. -/
theorem unchanged_of_apply (hlen : t.entries.length ≤ maxTranscriptItems)
    (h : (t.apply update clock).1 = false) :
    (t.apply update clock).2.state = t.state ∧ (t.apply update clock).2.entries = t.entries ∧
      (t.apply update clock).2.dropped = t.dropped := by
  have hstate (hs : update.state.any (t.state ≠ ·) = false) :
      (t.apply update clock).2.state = t.state := by
    rw [ChildTranscript.apply, ChildTranscript.state_applyWith]
    cases hu : update.state with
    | none => rfl
    | some state =>
      rw [hu, Option.any_some, decide_eq_false_iff_not, not_not] at hs
      exact hs.symm
  by_cases hi : t.Ignores update
  · have heq := ChildTranscript.applyWith_of_ignores clock (·.retainLast maxTranscriptItems) hi
    rw [ChildTranscript.apply, heq] at h
    refine ⟨hstate h, ?_⟩
    rw [ChildTranscript.apply, heq]
    exact ⟨rfl, rfl⟩
  · obtain ⟨c, -, heq⟩ := ChildTranscript.applyWith_of_not_ignores clock
      (·.retainLast maxTranscriptItems) hi
    rw [ChildTranscript.apply, heq, Bool.or_eq_false_iff, Bool.or_eq_false_iff] at h
    obtain ⟨⟨hs, hstarts⟩, hempty⟩ := h
    have hitems : update.items = [] := by
      rwa [Bool.not_eq_false', List.isEmpty_iff] at hempty
    have hextended : t.extended update clock = t.entries := by
      rw [ChildTranscript.extended, ChildTranscript.base, if_neg (Bool.eq_false_iff.mp hstarts),
        hitems]
      rfl
    obtain ⟨hentries, hdropped⟩ := ChildTranscript.entries_apply clock hi
    rw [hextended] at hentries hdropped
    refine ⟨hstate hs, ?_, ?_⟩
    · rw [hentries, KeyedLog.retain, Nat.sub_eq_zero_of_le hlen, drop_zero]
    · rw [hdropped, if_neg (Bool.eq_false_iff.mp hstarts), Nat.sub_eq_zero_of_le hlen]
      rfl

theorem newRows_append (xs ys : List Item) (clock : ℕ → ℤ) :
    newRows clock (xs ++ ys) = newRows clock xs ++ newRows (fun i => clock (xs.length + i)) ys := by
  induction xs generalizing clock with
  | nil =>
    simp only [nil_append, length_nil, Nat.zero_add]
    rfl
  | cons x xs ih =>
    rw [cons_append, newRows, ih, newRows, cons_append, length_cons]
    simp only [Nat.add_right_comm _ 1]

end

namespace ChildTranscript

variable (t : ChildTranscript)

/-- The rows that an update drops. -/
def cuts (update : TranscriptUpdate) (clock : ℕ → ℤ) : List Entry :=
  (t.extended update clock).take ((t.extended update clock).length - maxTranscriptItems)

/-- The rest of an update that was split. -/
def remainder (update : TranscriptUpdate) (items : List Item) : TranscriptUpdate :=
  { update with replace := false, restore := false, items }

variable {t} {update : TranscriptUpdate} {clock : ℕ → ℤ} {xs ys : List Item}

/-- An update may be split, when its rest completes nothing that its start has cut. -/
theorem apply_split (hwhole : ¬ t.Ignores { update with items := xs ++ ys })
    (hfirst : ¬ t.Ignores { update with items := xs })
    (hcuts : ∀ item ∈ ys, item.id.isSome → ∀ e ∈ t.cuts { update with items := xs } clock,
      e.item.id ≠ item.id) :
    let first := (t.apply { update with items := xs } clock).2
    let second := (first.apply (remainder update ys) fun i => clock (xs.length + i)).2
    let whole := (t.apply { update with items := xs ++ ys } clock).2
    second.entries = whole.entries ∧ second.dropped = whole.dropped ∧
      second.state = whole.state := by
  intro first second whole
  have hrest : ¬ first.Ignores (remainder update ys) := by
    rintro (⟨h, -⟩ | ⟨h | h, -⟩) <;> cases h
  obtain ⟨hentries₁, hdropped₁⟩ := entries_apply clock hfirst
  obtain ⟨hentries₂, hdropped₂⟩ := entries_apply (fun i => clock (xs.length + i)) hrest
  obtain ⟨hentries, hdropped⟩ := entries_apply clock hwhole
  have hextended : t.extended { update with items := xs ++ ys } clock =
      KeyedLog.addAll rules (t.extended { update with items := xs } clock)
        (newRows (fun i => clock (xs.length + i)) ys) := by
    rw [extended, newRows_append, KeyedLog.addAll_concat]
    rfl
  have hextended₂ : first.extended (remainder update ys) (fun i => clock (xs.length + i)) =
      KeyedLog.addAll rules
        (KeyedLog.retain maxTranscriptItems (t.extended { update with items := xs } clock))
        (newRows (fun i => clock (xs.length + i)) ys) := by
    rw [← hentries₁]
    rfl
  have hfresh : ∀ new ∈ newRows (fun i => clock (xs.length + i)) ys,
      KeyedLog.Fresh rules (t.cuts { update with items := xs } clock) new := fun new hnew hsome =>
    hcuts new.item (row_of_mem_newRows _ _ new hnew).2 hsome
  obtain ⟨htail, hcount⟩ := KeyedLog.retain_addAll hfresh
  refine ⟨?_, ?_, ?_⟩
  · rw [hentries₂, hextended₂, hentries, hextended]
    exact htail
  · rw [hdropped₂, hextended₂, hdropped, hextended, ← hcount, ← Nat.add_assoc, ← hdropped₁]
    rfl
  · show ((first.applyWith _ _ _).2).state = ((t.applyWith _ _ _).2).state
    rw [state_applyWith, state_applyWith]
    show update.state.getD (t.applyWith _ _ _).2.state = _
    rw [state_applyWith]
    cases update.state <;> rfl

/-! ## Runs -/

variable {labels : List (TranscriptUpdate × (ℕ → ℤ))} {p : ChildTranscript × ChildTranscript}

theorem length_le_of_run (h : Run histories labels p) :
    p.1.entries.length ≤ maxTranscriptItems := by
  refine h.invariant (I := fun p => p.1.entries.length ≤ maxTranscriptItems) ?_ ?_
  · rintro p rfl
    exact Nat.zero_le _
  · rintro p ⟨update, clock⟩ p' hp rfl
    by_cases hi : p.1.Ignores update
    · show (p.1.apply update clock).2.entries.length ≤ _
      rw [apply, applyWith_of_ignores _ _ hi]
      exact hp
    · rw [(entries_apply clock hi).1, KeyedLog.length_retain]
      exact Nat.min_le_right _ _

theorem sound_of_run (h : Run histories labels p) : Sound p.2 := by
  refine h.invariant (I := fun p => Sound p.2) ?_ ?_
  · rintro p rfl
    exact ⟨List.Pairwise.nil, fun e he => absurd he not_mem_nil⟩
  · rintro p l p' hp rfl
    exact hp.applyUnbounded

theorem tailOf_new (stamp : Option ℤ → Option ℤ) : TailOf stamp new new :=
  ⟨drop_nil.symm, (Nat.zero_sub _).symm, rfl⟩

/-- **The end of the history.**  After updates that complete no row that was cut, and no complete read of
exactly the rows that are left, the rows are the last ones of the history without a bound and the rows
before them are counted; the timestamps too, if no complete read showed the whole history over again. -/
theorem tail_of_run {labels : List (TranscriptUpdate × (ℕ → ℤ))}
    {p : ChildTranscript × ChildTranscript} (h : Run (histories.restrict Keeps) labels p) :
    p.1.entries.map (shown fun _ ↦ none) =
        KeyedLog.retain maxTranscriptItems (p.2.entries.map (shown fun _ ↦ none)) ∧
      p.1.dropped = p.2.entries.length - maxTranscriptItems ∧ p.1.state = p.2.state ∧
      (Run (histories.restrict KeepsTimes) labels p →
        p.1.entries = KeyedLog.retain maxTranscriptItems p.2.entries) ∧
      ∀ update clock,
        (update.restore = true → p.1.entries ≠ [] →
          (p.1.apply update clock).2.entries = p.1.entries ∧
            (p.1.apply update clock).2.dropped = p.1.dropped) ∧
        (((p.1.apply update clock).2.state ≠ p.1.state ∨
            (p.1.apply update clock).2.entries ≠ p.1.entries ∨
            (p.1.apply update clock).2.dropped ≠ p.1.dropped) →
          (p.1.apply update clock).1 = true) ∧
        ∀ xs ys, ¬ p.1.Ignores { update with items := xs ++ ys } →
          ¬ p.1.Ignores { update with items := xs } →
          (∀ item ∈ ys, item.id.isSome → ∀ e ∈ p.1.cuts { update with items := xs } clock,
            e.item.id ≠ item.id) →
          let first := (p.1.apply { update with items := xs } clock).2
          let second := (first.apply (remainder update ys) fun i ↦ clock (xs.length + i)).2
          let whole := (p.1.apply { update with items := xs ++ ys } clock).2
          second.entries = whole.entries ∧ second.dropped = whole.dropped ∧
            second.state = whole.state := by
  have htail : TailOf (fun _ ↦ none) p.1 p.2 ∧ Sound p.2 := by
    refine h.invariant (I := fun p ↦ TailOf (fun _ ↦ none) p.1 p.2 ∧ Sound p.2) ?_ ?_
    · rintro p rfl
      exact ⟨tailOf_new _, sound_of_run (.init rfl)⟩
    · rintro p ⟨update, clock⟩ p' ⟨htail, hsound⟩ ⟨hk, rfl⟩
      exact ⟨htail.step hk fun _ _ _ hitems ↦ hsound.reread hitems, hsound.applyUnbounded⟩
  have htimes (h : Run (histories.restrict KeepsTimes) labels p) : TailOf id p.1 p.2 := by
    refine h.invariant (I := fun p ↦ TailOf id p.1 p.2) (fun p hp ↦ hp ▸ tailOf_new _) ?_
    rintro p ⟨update, clock⟩ p' htail ⟨⟨hk, htimes⟩, rfl⟩
    exact htail.step hk fun hpos hrestore hreplace hitems ↦
      absurd hitems (htimes hrestore hpos hreplace)
  refine ⟨htail.1.entries, htail.1.dropped, htail.1.state, fun h ↦ ?_, fun update clock ↦
    ⟨entries_apply_restore, fun hchange ↦ ?_, fun xs ys ↦ apply_split⟩⟩
  · have hentries := (htimes h).entries
    rwa [shown_id, map_id, map_id] at hentries
  · rw [← Bool.not_eq_false]
    intro hfalse
    obtain ⟨hstate, hentries, hdropped⟩ :=
      unchanged_of_apply (length_le_of_run h.of_restrict) hfalse
    rcases hchange with hne | hne | hne
    · exact hne hstate
    · exact hne hentries
    · exact hne hdropped

/-- A tool call, and as many messages after it as rows are kept. -/
def overflowing : TranscriptUpdate :=
  .appended (.reasoning ['a'] none :: replicate maxTranscriptItems (.userMessage none))

/-- Only the messages are left of it, and the call was cut. -/
theorem apply_overflowing : ∃ (t u : ChildTranscript) (kept : List Entry),
    (new.apply overflowing fun _ => 0).2 = t ∧ (new.applyUnbounded overflowing fun _ => 0).2 = u ∧
    t.entries = kept ∧ t.dropped = 1 ∧ u.entries = row (.reasoning ['a'] none) (some 0) :: kept ∧
    kept.length = maxTranscriptItems ∧ (∀ e ∈ kept, e.item.id = none) ∧
    kept.map (·.item) = replicate maxTranscriptItems (.userMessage none) := by
  obtain ⟨messages, hmessages⟩ : ∃ messages : List Item,
      messages = replicate maxTranscriptItems (.userMessage none) := ⟨_, rfl⟩
  obtain ⟨kept, hkept⟩ : ∃ kept, kept = newRows (fun _ => 0) messages := ⟨_, rfl⟩
  have hitems : kept.map (·.item) = messages := hkept ▸ map_item_newRows _ _
  have hlength : kept.length = maxTranscriptItems := by
    rw [← length_map (·.item), hitems, hmessages, length_replicate]
  have hkeyless : ∀ e ∈ kept, e.item.id = none := fun e he => by
    rw [hkept, hmessages] at he
    rw [eq_of_mem_replicate (row_of_mem_newRows _ _ e he).2]
    rfl
  have hi : ¬ new.Ignores overflowing := by
    rintro (⟨h, -⟩ | ⟨h | h, -⟩) <;> cases h
  have hextended : new.extended overflowing (fun _ => 0) =
      row (.reasoning ['a'] none) (some 0) :: kept := by
    rw [extended, base, if_neg (by decide), overflowing, BackgroundTaskTranscriptUpdate.appended,
      newRows, ← hmessages, ← hkept, KeyedLog.addAll, foldl_cons]
    exact KeyedLog.addAll_of_keyless hkeyless
  have hcut : (row (.reasoning ['a'] none) (some 0) :: kept).length - maxTranscriptItems = 1 := by
    rw [length_cons, hlength]
    omega
  obtain ⟨hentries, hdropped⟩ := entries_apply (fun _ => 0) hi
  rw [hextended] at hentries hdropped
  refine ⟨_, _, kept, rfl, rfl, ?_, ?_, ?_, hlength, hkeyless, hitems.trans hmessages⟩
  · rw [hentries, KeyedLog.retain, hcut]
    rfl
  · rw [hdropped, hcut]
    rfl
  · rw [entries_applyUnbounded _ hi, hextended]

theorem tail_of_overflowing : ∃ t u : ChildTranscript,
    (new.apply overflowing fun _ ↦ 0).2 = t ∧ (new.applyUnbounded overflowing fun _ ↦ 0).2 = u ∧
    t.entries = KeyedLog.retain maxTranscriptItems u.entries ∧
    u.entries.length - maxTranscriptItems = 1 := by
  obtain ⟨t, u, -, ht, hu, -, hone, -⟩ := apply_overflowing
  have hkeeps : KeepsTimes (new, new) (overflowing, fun _ ↦ 0) :=
    ⟨fun _ hpos ↦ absurd hpos (by decide), fun _ hpos ↦ absurd hpos (by decide)⟩
  have hstart : Run (histories.restrict Keeps) [] (new, new) := .init rfl
  have hstart' : Run (histories.restrict KeepsTimes) [] (new, new) := .init rfl
  have hstep : histories.step (new, new) (overflowing, fun _ ↦ 0) (t, u) := by
    rw [← ht, ← hu]
    rfl
  obtain ⟨-, hdropped, -, htimes, -⟩ := tail_of_run (hstart.step ⟨hkeeps.1, hstep⟩)
  exact ⟨t, u, ht, hu, htimes (hstart'.step ⟨hkeeps, hstep⟩), hdropped.symm.trans hone⟩

theorem run_step (h : Run histories labels p) (update : TranscriptUpdate) :
    Run histories (labels ++ [(update, fun _ => 0)])
      ((p.1.apply update fun _ => 0).2, (p.2.applyUnbounded update fun _ => 0).2) :=
  h.step rfl

theorem ignores_read {t : ChildTranscript} {items : List Item}
    (h : t.entries.map (·.item) = items) : t.Ignores ⟨true, false, items, some .ready⟩ :=
  .inr ⟨.inl rfl, h⟩

/-- Completing an item that was cut shows it as a new row, and a complete read of the rows that are
left does not reset the count. -/
theorem cut_completed :
    (∃ labels t u, Run histories labels (t, u) ∧ t.dropped = 2 ∧ u.entries.length = 513) ∧
      ∃ labels t u, Run histories labels (t, u) ∧ t.dropped = 1 ∧ u.entries.length = 512 := by
  obtain ⟨t, u, kept, ht, hu, hentries, hdropped, hall, hlength, hkeyless, hitems⟩ :=
    apply_overflowing
  have hrun := run_step (.init rfl : Run histories [] (new, new)) overflowing
  rw [ht, hu] at hrun
  let completed : TranscriptUpdate := .appended [.reasoning ['a'] none]
  let read : TranscriptUpdate :=
    ⟨true, false, replicate maxTranscriptItems (.userMessage none), some .ready⟩
  have hcompleted (t : ChildTranscript) : ¬ t.Ignores completed := by
    rintro (⟨h, -⟩ | ⟨h | h, -⟩) <;> cases h
  refine ⟨⟨_, _, _, run_step hrun completed, ?_, ?_⟩, ⟨_, _, _, run_step hrun read, ?_, ?_⟩⟩
  · have hextended : t.extended completed (fun _ ↦ 0) =
        kept ++ [row (.reasoning ['a'] none) (some 0)] := by
      rw [extended, base, if_neg (by decide), hentries]
      refine KeyedLog.add_of_fresh fun _ e he hid ↦ ?_
      rw [show rules.key e = none from hkeyless e he] at hid
      cases hid
    rw [(entries_apply _ (hcompleted _)).2, hextended, hdropped, length_append, hlength,
      length_singleton, Nat.add_sub_cancel_left]
    rfl
  · have hextended : u.extended completed (fun _ ↦ 0) =
        row (.reasoning ['a'] none) (some 0) :: kept := by
      rw [extended, base, if_neg (by decide), hall]
      rfl
    rw [entries_applyUnbounded _ (hcompleted _), hextended, length_cons, hlength]
    rfl
  · have hi : t.Ignores read := ignores_read (hentries ▸ hitems)
    rw [apply, applyWith_of_ignores _ _ hi]
    exact hdropped
  · have hi : ¬ u.Ignores read := by
      rintro (⟨h, -⟩ | ⟨-, h⟩)
      · cases h
      · rw [hall, map_cons, hitems] at h
        have hlen := congrArg List.length h
        rw [length_cons, length_replicate] at hlen
        omega
    have hextended : u.extended read (fun _ ↦ 0) = newRows (fun _ ↦ 0) read.items := by
      refine KeyedLog.addAll_of_keyless fun e he ↦ ?_
      show e.item.id = none
      rw [eq_of_mem_replicate (row_of_mem_newRows _ _ e he).2]
      rfl
    rw [entries_applyUnbounded _ hi, hextended, ← length_map (·.item), map_item_newRows]
    exact length_replicate

end ChildTranscript

end NiumaTerm.Session
