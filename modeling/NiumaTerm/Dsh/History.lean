import NiumaTerm.Transcript.Prompts

/-!
# The branch points of a DeepSeek conversation

`forkCheckpoints` pairs each prompt with the number of the prompt ahead of it, as the harness keeps the
log to the end of the turn that an event is in (`keptThrough`).  That is right on exactly the pages whose
turns hold one prompt each (`branches_iff`).
-/

namespace NiumaTerm.Dsh

open Rust Successive Transcript List

inductive ForkAnchor
  | claudeBefore (record : Str)
  | codexThrough (turn : Str)
  /-- An event seq inside the last turn the copy keeps. -/
  | deepSeekThrough (seq : ℕ)
deriving DecidableEq

structure ForkCheckpoint where
  prompt : Str
  timestamp : Option Str
  anchor : ForkAnchor
deriving DecidableEq

/-! ## Reading a page -/

def events (page : Json) : List Json :=
  ((page.get "records").asArray.getD []).map fun entry => entry.get "event"

def seqOf (event : Json) : Option ℕ := (event.get "seq").asU64

/-- The items that start with a user message: the one the person wrote, and no other. -/
def mapUserMessage (data : Json) : List Item :=
  if ((data.get "source").get "kind").isText "user" then
    let text := (data.get "content").asArray.map fun blocks =>
      ((blocks.filter fun block => (block.get "type").isText "text").filterMap
        fun block => (block.get "text").asStr).flatten
    match text.filter fun text => !text.isEmpty with
    | some text => [.userMessage (some text)]
    | none => []
  else []

structure Prompt where
  seq : ℕ
  text : Str
  time : Option ℕ

def promptOf (event : Json) : Option Prompt :=
  if (event.get "type").isText "user/message" then do
    let item ← (mapUserMessage (event.get "data")).getLast?
    let text ← item.prompt
    let seq ← seqOf event
    some ⟨seq, text, (event.get "time").asU64⟩
  else none

variable (rfc3339FromUnixSeconds : ℤ → Option Str)

def timestampOf (prompt : Prompt) : Option Str :=
  prompt.time.bind fun millis => rfc3339FromUnixSeconds (millis / 1000 : ℕ)

/-- The branch point in front of a prompt, anchored at the prompt ahead of it. -/
def checkpoint (pair : Prompt × Prompt) : ForkCheckpoint where
  prompt := pair.2.text
  timestamp := timestampOf rfc3339FromUnixSeconds pair.2
  anchor := .deepSeekThrough pair.1.seq

def forkCheckpoints (page : Json) : List ForkCheckpoint :=
  let prompts := (events page).filterMap promptOf
  ((prompts.zip prompts.tail).map (checkpoint rfc3339FromUnixSeconds)).reverse

/-! ## Turns -/

def isStart (event : Json) : Bool := (event.get "type").isText "turn/start"

def isEnd (event : Json) : Bool := (event.get "type").isText "turn/end"

/-- The events with the number of their segment.  A turn start begins a segment, and a turn end is the
last event of one. -/
def numbered : ℕ → List Json → List (ℕ × Json)
  | _, [] => []
  | n, event :: rest =>
    if isStart event then (n + 1, event) :: numbered (n + 1) rest
    else if isEnd event then (n, event) :: numbered (n + 1) rest
    else (n, event) :: numbered n rest

def placed (page : Json) : List (ℕ × Json) := numbered 0 (events page)

/-- The segment is a turn, not what stands between two.  A page can begin inside a turn. -/
def IsTurn (page : Json) (n : ℕ) : Prop :=
  n = 0 ∨ ∃ entry ∈ placed page, entry.1 = n ∧
    (isStart entry.2 = true ∨ isEnd entry.2 = true ∨ (promptOf entry.2).isSome = true)

/-- The prompts of the page, with their turns. -/
def prompts (page : Json) : List (ℕ × Prompt) :=
  (placed page).filterMap fun entry => (promptOf entry.2).map fun prompt => (entry.1, prompt)

/-- The prompts that open a turn. -/
def openings (page : Json) : List (ℕ × Prompt) := firsts Prod.fst [] (prompts page)

/-- The log up to the end of the turn with the event. -/
def keptThrough (page : Json) (seq : ℕ) : List (ℕ × Json) :=
  match (placed page).find? fun entry => seqOf entry.2 = some seq with
  | some anchor => (placed page).filter fun entry => entry.1 ≤ anchor.1
  | none => []

def Numbered (page : Json) : Prop := ((events page).filterMap seqOf).Nodup

instance (page : Json) : Decidable (Numbered page) := inferInstanceAs (Decidable (List.Nodup _))

/-! ## What a branch point promises -/

/-- The branch point is the one in front of the prompt: its log has every turn before that prompt's, and
the prompt is not in it. -/
structure CutsBefore (page : Json) (checkpoint : ForkCheckpoint) (prompt : ℕ × Prompt) : Prop where
  prompt_eq : checkpoint.prompt = prompt.2.text
  timestamp_eq : checkpoint.timestamp = timestampOf rfc3339FromUnixSeconds prompt.2
  cut : ∃ seq, checkpoint.anchor = .deepSeekThrough seq ∧
    (∀ entry ∈ placed page, IsTurn page entry.1 → entry.1 < prompt.1 →
      entry ∈ keptThrough page seq) ∧
    ∀ entry ∈ keptThrough page seq, promptOf entry.2 ≠ some prompt.2

/-- The transcript shows the prompts of the page in their turns, which may have other numbers. -/
def Shows (page : Json) (items : List Entry) : Prop :=
  ∃ turn : ℕ → ℕ, turn.Injective ∧
    (userMessages items).map (fun e => (e.1.turn, e.1.item.prompt)) =
      (prompts page).map fun prompt => (turn prompt.1, some prompt.2.text)

/-- The branch points of the page are the right ones, newest first, and counting back in the transcript
from a prompt leads to its branch point. -/
structure Branches (page : Json) : Prop where
  cuts : Forall₂ (CutsBefore rfc3339FromUnixSeconds page)
    (forkCheckpoints rfc3339FromUnixSeconds page) (openings page).tail.reverse
  counted : ∀ items, Shows page items → ∀ k index, (turnOpeningPrompts items)[k + 1]? = some index →
    ∃ target checkpoint, promptTarget items index = some target ∧
      (forkCheckpoints rfc3339FromUnixSeconds page).reverse[k]? = some checkpoint ∧
      checkpointAtDepth (forkCheckpoints rfc3339FromUnixSeconds page) target
        ForkCheckpoint.prompt = some checkpoint

/-- From the turn of the first prompt to the turn of the last one, each turn holds one prompt. -/
def OnePromptEach (page : Json) : Prop :=
  ∀ n, IsTurn page n → (∃ prompt ∈ prompts page, prompt.1 ≤ n) → (∃ prompt ∈ prompts page, n ≤ prompt.1) →
    ((prompts page).map Prod.fst).count n = 1

/-! ## Segments -/

section

variable {page : Json}

theorem numbered_snd (n : ℕ) (log : List Json) : (numbered n log).map Prod.snd = log := by
  induction log generalizing n with
  | nil => rfl
  | cons event rest ih =>
    rw [numbered]
    split_ifs <;> rw [map_cons, ih]

theorem le_of_mem_numbered {n : ℕ} {log : List Json} {entry : ℕ × Json}
    (h : entry ∈ numbered n log) : n ≤ entry.1 := by
  induction log generalizing n with
  | nil => cases h
  | cons event rest ih =>
    rw [numbered] at h
    split_ifs at h <;> rcases mem_cons.mp h with rfl | h
    · exact Nat.le_succ n
    · exact Nat.le_of_succ_le (ih h)
    · exact Nat.le_refl n
    · exact Nat.le_of_succ_le (ih h)
    · exact Nat.le_refl n
    · exact ih h

theorem sorted_numbered (n : ℕ) (log : List Json) :
    (numbered n log).Pairwise fun a b => a.1 ≤ b.1 := by
  induction log generalizing n with
  | nil => exact .nil
  | cons event rest ih =>
    rw [numbered]
    split_ifs
    · exact .cons (fun _ h => le_of_mem_numbered h) (ih _)
    · exact .cons (fun _ h => Nat.le_of_succ_le (le_of_mem_numbered h)) (ih _)
    · exact .cons (fun _ h => le_of_mem_numbered h) (ih _)

variable {prompt : ℕ × Prompt}

theorem mem_prompts : prompt ∈ prompts page ↔
    ∃ entry ∈ placed page, entry.1 = prompt.1 ∧ promptOf entry.2 = some prompt.2 := by
  simp only [prompts, mem_filterMap, Option.map_eq_some_iff]
  constructor
  · rintro ⟨entry, hentry, prompt, hprompt, rfl⟩
    exact ⟨entry, hentry, rfl, hprompt⟩
  · rintro ⟨entry, hentry, hnumber, hprompt⟩
    exact ⟨entry, hentry, _, hprompt, Prod.ext hnumber rfl⟩

theorem prompts_snd (page : Json) : (prompts page).map Prod.snd = (events page).filterMap promptOf := by
  rw [← numbered_snd 0 (events page), filterMap_map, prompts, map_filterMap]
  refine filterMap_congr fun entry _ => ?_
  rw [Option.map_map, Function.comp_apply]
  exact Option.map_id'

theorem sorted_prompts (page : Json) : ((prompts page).map Prod.fst).Pairwise (· ≤ ·) := by
  rw [pairwise_map]
  refine (sorted_numbered 0 (events page)).filterMap _ ?_
  intro a b hab p hp q hq
  obtain ⟨_, _, rfl⟩ := Option.map_eq_some_iff.mp hp
  obtain ⟨_, _, rfl⟩ := Option.map_eq_some_iff.mp hq
  exact hab

theorem isTurn_of_prompt (h : prompt ∈ prompts page) : IsTurn page prompt.1 := by
  obtain ⟨entry, hentry, hnumber, hprompt⟩ := mem_prompts.mp h
  exact .inr ⟨entry, hentry, hnumber, .inr (.inr (Option.isSome_of_eq_some hprompt))⟩

theorem seqOf_of_prompt {event : Json} {prompt : Prompt} (h : promptOf event = some prompt) :
    seqOf event = some prompt.seq := by
  rw [promptOf] at h
  split_ifs at h
  obtain ⟨item, -, h⟩ := Option.bind_eq_some_iff.mp h
  obtain ⟨text, -, h⟩ := Option.bind_eq_some_iff.mp h
  obtain ⟨seq, hseq, h⟩ := Option.bind_eq_some_iff.mp h
  cases h
  exact hseq

theorem Numbered.unique (h : Numbered page) {a b : ℕ × Json} {seq : ℕ} (ha : a ∈ placed page)
    (hb : b ∈ placed page) (hseqa : seqOf a.2 = some seq) (hseqb : seqOf b.2 = some seq) : a = b := by
  rw [Numbered, ← numbered_snd 0 (events page), filterMap_map, List.Nodup, pairwise_filterMap] at h
  by_contra hne
  have : Std.Symm fun x y : ℕ × Json =>
      ∀ s, (seqOf ∘ Prod.snd) x = some s → ∀ t, (seqOf ∘ Prod.snd) y = some t → s ≠ t :=
    ⟨fun x y hxy s hs t ht heq => hxy t ht s hs heq.symm⟩
  exact h.forall ha hb hne seq hseqa seq hseqb rfl

theorem mem_keptThrough (h : Numbered page) (hprompt : prompt ∈ prompts page) {entry : ℕ × Json} :
    entry ∈ keptThrough page prompt.2.seq ↔ entry ∈ placed page ∧ entry.1 ≤ prompt.1 := by
  obtain ⟨anchor, hanchor, hnumber, hevent⟩ := mem_prompts.mp hprompt
  have hseq := seqOf_of_prompt hevent
  rw [keptThrough]
  split
  · next found hfound =>
    have hfoundseq : seqOf found.2 = some prompt.2.seq := by simpa using find?_some hfound
    rw [h.unique (mem_of_find?_eq_some hfound) hanchor hfoundseq hseq, hnumber,
      mem_filter, decide_eq_true_eq]
  · next hnone =>
    exact absurd (decide_eq_true hseq) (find?_eq_none.mp hnone anchor hanchor)

/-- A branch point is right when its prompt is in the next turn after the prompt it is anchored at. -/
theorem cutsBefore_iff (h : Numbered page) {p q : ℕ × Prompt} (hp : p ∈ prompts page)
    (hq : q ∈ prompts page) :
    CutsBefore rfc3339FromUnixSeconds page (checkpoint rfc3339FromUnixSeconds (p.2, q.2)) q ↔
      Next (IsTurn page) p.1 q.1 := by
  obtain ⟨event, hevent, hnumber, hprompt⟩ := mem_prompts.mp hq
  constructor
  · rintro ⟨-, -, seq, hseq, hkeeps, hdrops⟩
    cases hseq
    refine ⟨?_, fun n hn hlow hhigh => ?_⟩
    · by_contra hle
      refine hdrops event ((mem_keptThrough h hp).mpr ⟨hevent, ?_⟩) hprompt
      exact hnumber ▸ Nat.le_of_not_lt hle
    · rcases hn with rfl | ⟨entry, hentry, rfl, hkind⟩
      · exact absurd hlow (Nat.not_lt_zero _)
      · have hkept := hkeeps entry hentry (.inr ⟨entry, hentry, rfl, hkind⟩) hhigh
        exact absurd hlow ((mem_keptThrough h hp).mp hkept).2.not_gt
  · rintro ⟨hlt, hnone⟩
    refine ⟨rfl, rfl, _, rfl, fun entry hentry hturn hbefore => ?_, fun entry hentry heq => ?_⟩
    · refine (mem_keptThrough h hp).mpr ⟨hentry, ?_⟩
      by_contra hle
      exact hnone _ hturn (Nat.lt_of_not_le hle) hbefore
    · obtain ⟨hmem, hle⟩ := (mem_keptThrough h hp).mp hentry
      obtain rfl := h.unique hmem hevent (seqOf_of_prompt heq) (seqOf_of_prompt hprompt)
      exact absurd hlt (hnumber ▸ hle).not_gt

theorem forkCheckpoints_eq (page : Json) : forkCheckpoints rfc3339FromUnixSeconds page =
    (((prompts page).zip (prompts page).tail).map
      fun pair => checkpoint rfc3339FromUnixSeconds (pair.1.2, pair.2.2)).reverse := by
  rw [forkCheckpoints, ← prompts_snd, ← map_tail, zip_map, map_map]
  rfl

theorem length_forkCheckpoints (page : Json) :
    (forkCheckpoints rfc3339FromUnixSeconds page).length = (prompts page).length - 1 := by
  rw [forkCheckpoints_eq, length_reverse, length_map, length_zip, length_tail]
  exact Nat.min_eq_right (Nat.sub_le _ _)

theorem onePromptEach_iff (page : Json) :
    OnePromptEach page ↔ (prompts page).IsChain fun p q => Next (IsTurn page) p.1 q.1 := by
  rw [← @List.isChain_map _ _ (Next (IsTurn page)) Prod.fst,
    isChain_successive_iff (sorted_prompts page) (by
      intro n hn
      obtain ⟨prompt, hprompt, rfl⟩ := mem_map.mp hn
      exact isTurn_of_prompt hprompt), OnePromptEach]
  simp only [mem_map, exists_exists_and_eq_and]

/-! ## The branch points of a page -/

theorem openings_eq_prompts (h : ((prompts page).map Prod.fst).Nodup) :
    openings page = prompts page :=
  firsts_eq_self h fun _ _ => not_mem_nil

/-- As many branch points as prompts that open a turn, but for the first: every prompt opens one. -/
theorem openings_eq_of_length (h : (forkCheckpoints rfc3339FromUnixSeconds page).length =
    (openings page).tail.length) : openings page = prompts page := by
  rcases hnil : prompts page with _ | ⟨first, rest⟩
  · rw [openings, hnil, firsts]
  · have hne : openings page ≠ [] := firsts_ne_nil (by simp [hnil])
    rw [← hnil]
    refine firsts_sublist.eq_of_length ?_
    rw [length_forkCheckpoints, length_tail] at h
    have hpos := length_pos_iff.mpr hne
    have hpos' : 0 < (prompts page).length := by simp [hnil]
    rw [openings] at h hpos
    omega

theorem cuts_iff (h : Numbered page) (hopenings : openings page = prompts page) :
    Forall₂ (CutsBefore rfc3339FromUnixSeconds page)
        (forkCheckpoints rfc3339FromUnixSeconds page) (openings page).tail.reverse ↔
      OnePromptEach page := by
  rw [forkCheckpoints_eq, hopenings, forall₂_reverse_iff, forall₂_map_left_iff, onePromptEach_iff]
  exact forall₂_zip_tail_iff fun p hp q hq => cutsBefore_iff _ h hp hq

theorem OnePromptEach.nodup (h : OnePromptEach page) : ((prompts page).map Prod.fst).Nodup := by
  have hchain := isChain_map_of_isChain Prod.fst (fun _ _ hnext => hnext)
    ((onePromptEach_iff page).mp h)
  exact (pairwise_lt_of_next hchain).imp Nat.ne_of_lt

/-- In a transcript of the page every user message opens a turn. -/
theorem turnOpeningPrompts_of_shows {items : List Entry}
    (h : ((prompts page).map Prod.fst).Nodup) (hshows : Shows page items) :
    turnOpeningPrompts items = (userMessages items).map Prod.snd := by
  obtain ⟨turn, hturn, hshown⟩ := hshows
  rw [turnOpeningPrompts, firsts_eq_self ?_ fun _ _ => not_mem_nil]
  have hturns := congrArg (List.map Prod.fst) hshown
  rw [map_map, map_map] at hturns
  have hnodup := h.map hturn
  rw [map_map] at hnodup
  exact hturns ▸ hnodup

theorem counted_of_onePromptEach (h : OnePromptEach page) {items : List Entry}
    (hshows : Shows page items) {k index : ℕ}
    (hindex : (turnOpeningPrompts items)[k + 1]? = some index) :
    ∃ target checkpoint, promptTarget items index = some target ∧
      (forkCheckpoints rfc3339FromUnixSeconds page).reverse[k]? = some checkpoint ∧
      checkpointAtDepth (forkCheckpoints rfc3339FromUnixSeconds page) target
        ForkCheckpoint.prompt = some checkpoint := by
  have hopenings := turnOpeningPrompts_of_shows h.nodup hshows
  obtain ⟨turn, -, hshown⟩ := hshows
  have hlength : (userMessages items).length = (prompts page).length := by
    simpa using congrArg List.length hshown
  have hlength' : (turnOpeningPrompts items).length = (prompts page).length := by
    rw [hopenings, length_map, hlength]
  -- the user message is the prompt of that number
  obtain ⟨⟨entry, index'⟩, hmessage, rfl⟩ : ∃ e, (userMessages items)[k + 1]? = some e ∧ e.2 = index := by
    rw [hopenings, getElem?_map] at hindex
    exact Option.map_eq_some_iff.mp hindex
  have hk : k + 1 < (prompts page).length := hlength ▸ (List.getElem?_eq_some_iff.mp hmessage).1
  have hprompt : entry.item.prompt = some (prompts page)[k + 1].2.text := by
    have hget := congrArg (·[k + 1]?) hshown
    simp only [getElem?_map, hmessage, getElem?_eq_getElem hk, Option.map_some] at hget
    exact (Prod.mk.inj (Option.some.inj hget)).2
  have htarget := promptTarget_of_opening hindex
    (getElem_of_mem_userMessages (mem_of_getElem? hmessage)) hprompt
  rw [hlength'] at htarget
  have hzip : (((prompts page).zip (prompts page).tail).map fun pair =>
      checkpoint rfc3339FromUnixSeconds (pair.1.2, pair.2.2))[k]? =
      some (checkpoint rfc3339FromUnixSeconds
        ((prompts page)[k].2, (prompts page)[k + 1].2)) := by
    have hpair : ((prompts page).zip (prompts page).tail)[k]? =
        some ((prompts page)[k], (prompts page)[k + 1]) :=
      getElem?_zip_eq_some.mpr ⟨getElem?_eq_getElem (Nat.lt_of_succ_lt hk),
        getElem?_tail.trans (getElem?_eq_getElem hk)⟩
    rw [getElem?_map, hpair, Option.map_some]
  have hread : (forkCheckpoints rfc3339FromUnixSeconds page).reverse[k]? =
      some (checkpoint rfc3339FromUnixSeconds
        ((prompts page)[k].2, (prompts page)[k + 1].2)) := by
    rw [forkCheckpoints_eq, reverse_reverse, hzip]
  have hat : (forkCheckpoints rfc3339FromUnixSeconds page)[(prompts page).length - 1 - (k + 1)]? =
      some (checkpoint rfc3339FromUnixSeconds
        ((prompts page)[k].2, (prompts page)[k + 1].2)) := by
    have hlengths := length_forkCheckpoints rfc3339FromUnixSeconds page
    rw [← hread, getElem?_reverse (by omega), hlengths]
    congr 1
    omega
  refine ⟨_, _, htarget, hread, ?_⟩
  rw [checkpointAtDepth, hat]
  exact Option.filter_eq_some_iff.mpr ⟨rfl, decide_eq_true rfl⟩

/-- The branch points of a page are right exactly when each turn, from the one of the first prompt to the
one of the last, holds one prompt. -/
theorem branches_iff {page : Json} (h : Numbered page) :
    Branches rfc3339FromUnixSeconds page ↔ OnePromptEach page := by
  constructor
  · rintro ⟨hcuts, -⟩
    have hlength := hcuts.length_eq
    rw [length_reverse] at hlength
    exact (cuts_iff _ h (openings_eq_of_length _ hlength)).mp hcuts
  · intro heach
    exact ⟨(cuts_iff _ h (openings_eq_prompts heach.nodup)).mpr heach,
      fun items hshows k index hindex ↦ counted_of_onePromptEach _ heach hshows hindex⟩

end

/-! ## Two pages -/

def record (seq : ℕ) (type : String) (data : Json) : Json :=
  .object [("event", .object
    [("type", .text type), ("seq", .number (.integer seq)), ("data", data)])]

def typed (seq : ℕ) (text : String) : Json :=
  record seq "user/message" (.object
    [("source", .object [("kind", .text "user")]),
      ("content", .array [.object [("type", .text "text"), ("text", .text text)]])])

def pageOf (records : List Json) : Json := .object [("records", .array records)]

def twoTurns : Json :=
  pageOf [record 0 "turn/start" .null, typed 1 "first", record 2 "turn/end" .null,
    record 3 "turn/start" .null, typed 4 "second"]

/-- One turn, with a prompt that is steered into it. -/
def steered : Json :=
  pageOf [record 0 "turn/start" .null, typed 1 "first", typed 2 "steered",
    record 3 "turn/end" .null]

theorem twoTurns_branches : Branches (fun _ ↦ none) twoTurns := by
  refine (branches_iff _ (by decide +kernel)).mpr fun n hn hlow hhigh ↦ ?_
  have hprompts : (prompts twoTurns).map Prod.fst = [1, 3] := by decide +kernel
  have hplaced : (placed twoTurns).map Prod.fst = [1, 1, 1, 3, 3] := by decide +kernel
  obtain ⟨p, hp, hpn⟩ := hlow
  obtain ⟨q, hq, hnq⟩ := hhigh
  have hp' : p.1 ∈ [1, 3] := hprompts ▸ mem_map_of_mem hp
  have hq' : q.1 ∈ [1, 3] := hprompts ▸ mem_map_of_mem hq
  have hn' : n = 0 ∨ n ∈ [1, 1, 1, 3, 3] := hn.imp_right fun ⟨entry, hentry, hnumber, _⟩ ↦
    hnumber ▸ hplaced ▸ mem_map_of_mem hentry
  rw [hprompts]
  obtain rfl | rfl : n = 1 ∨ n = 3 := by
    simp only [mem_cons, not_mem_nil, or_false] at hp' hq' hn'
    omega
  · rfl
  · rfl

/-- The steered prompt is offered, with a cut behind it. -/
theorem steered_offered : forkCheckpoints (fun _ ↦ none) steered =
    [⟨"steered".toList, none, .deepSeekThrough 1⟩] ∧ ¬ Branches (fun _ ↦ none) steered := by
  refine ⟨by decide +kernel, fun h ↦ ?_⟩
  have hlength := h.cuts.length_eq
  revert hlength
  decide +kernel

end NiumaTerm.Dsh
