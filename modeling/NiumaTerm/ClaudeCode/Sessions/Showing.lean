import NiumaTerm.ClaudeCode.Sessions.Replay

/-!
# What showing a record does to the turns

A record is shown in the turn that is read (`Reading.Extends`), or it is a prompt that opens the next one
(`Reading.Opens`).  The record alone decides which.
-/

namespace NiumaTerm.ClaudeCode

open Rust Transcript List

/-! ## Showing records -/

namespace Reading

variable {context : ReplayContext} {s s' s'' : Reading} {record : Json}

/-- More is shown in the same turn; the prompts keep their places. -/
structure Extends (s s' : Reading) : Prop where
  turns : s'.turns = s.turns
  turn : s'.turn = s.turn
  length : s.items.length ≤ s'.items.length
  prompts : ∀ (i : ℕ) (entry : ReplayItem) (text : Option Str), s.items[i]? = some entry →
    entry.item = .userMessage text → s'.items[i]? = some entry

theorem Extends.refl (s : Reading) : Extends s s := ⟨rfl, rfl, Nat.le_refl _, fun _ _ _ h _ => h⟩

theorem Extends.trans (h : Extends s s') (h' : Extends s' s'') : Extends s s'' where
  turns := h'.turns.trans h.turns
  turn := h'.turn.trans h.turn
  length := Nat.le_trans h.length h'.length
  prompts i entry text hi hentry := h'.prompts i entry text (h.prompts i entry text hi hentry) hentry

theorem Extends.of_append {more : List ReplayItem} (hturns : s'.turns = s.turns)
    (hturn : s'.turn = s.turn) (hitems : s'.items = s.items ++ more) : Extends s s' where
  turns := hturns
  turn := hturn
  length := by rw [hitems, length_append]; exact Nat.le_add_right _ _
  prompts i entry text hi _ := by
    rw [hitems, getElem?_append_left (List.getElem?_eq_some_iff.mp hi).1, hi]

theorem Extends.of_modify {index : ℕ} {f : ReplayItem → ReplayItem} (hturns : s'.turns = s.turns)
    (hturn : s'.turn = s.turn) (hitems : s'.items = s.items.modify index f)
    (hf : ∀ entry text, s.items[index]? = some entry → entry.item = .userMessage text →
      f entry = entry) : Extends s s' where
  turns := hturns
  turn := hturn
  length := by rw [hitems, length_modify]
  prompts i entry text hi hentry := by
    rw [hitems, getElem?_modify, hi]
    split
    · rename_i hindex
      subst hindex
      exact congrArg some (hf entry text hi hentry)
    · rfl

theorem extends_completeTool (block : Json) : Extends s (s.completeTool block) := by
  rw [completeTool]
  split
  · exact .refl s
  · split
    · exact .refl s
    · split
      · exact .refl s
      · refine .of_modify rfl rfl rfl fun entry text _ hentry => ?_
        obtain ⟨item, time⟩ := entry
        cases hentry
        rfl

theorem length_completeTool (block : Json) :
    (s.completeTool block).items.length = s.items.length := by
  rw [completeTool]
  split
  · rfl
  · split
    · rfl
    · split
      · rfl
      · exact length_modify _ _ _

theorem extends_completeReplayedTools (s : Reading) (record : Json) :
    Extends s (s.completeReplayedTools record) ∧
    (s.completeReplayedTools record).items.length = s.items.length := by
  rw [completeReplayedTools]
  generalize ((record.get "message").get "content").asArray.getD [] = blocks
  induction blocks generalizing s with
  | nil => exact ⟨.refl s, rfl⟩
  | cons block rest ih =>
    obtain ⟨h, hlength⟩ := ih (s.completeTool block)
    exact ⟨(extends_completeTool block).trans h, hlength.trans (length_completeTool block)⟩

theorem compactionAt_some {index : Option ℕ} {at' : ℕ} {id : Str} {detail : Compaction}
    (h : s.compactionAt index = some (at', id, detail)) :
    ∃ entry, s.items[at']? = some entry ∧ entry.item = .compaction id detail := by
  obtain ⟨i, -, h⟩ := Option.bind_eq_some_iff.mp h
  split at h
  · rename_i id' detail' hitem
    cases h
    obtain ⟨entry, hentry, hitem⟩ := Option.map_eq_some_iff.mp hitem
    exact ⟨entry, hentry, hitem⟩
  · cases h

/-- Filling in a compaction row touches no prompt. -/
theorem extends_fill {index : Option ℕ} {at' : ℕ} {id : Str} {detail : Compaction}
    {f : ReplayItem → ReplayItem} (h : s.compactionAt index = some (at', id, detail))
    (hturns : s'.turns = s.turns) (hturn : s'.turn = s.turn)
    (hitems : s'.items = s.items.modify at' f) : Extends s s' := by
  refine .of_modify hturns hturn hitems fun entry text hentry hitem => ?_
  obtain ⟨found, hfound, hcompaction⟩ := compactionAt_some h
  rw [hfound, Option.some.injEq] at hentry
  rw [hentry, hitem] at hcompaction
  cases hcompaction

theorem extends_showSummary (summary : Str) (time : Option ℤ) :
    Extends s (s.showSummary record summary time) := by
  rw [showSummary]
  split
  · rename_i h
    exact extends_fill h rfl rfl rfl
  · exact .of_append rfl rfl rfl

theorem extends_showBoundary (time : Option ℤ) : Extends s (s.showBoundary record time) := by
  rw [showBoundary]
  split
  · rename_i h
    exact extends_fill h rfl rfl rfl
  · exact .of_append rfl rfl rfl

theorem extends_push (item : Item) (time : Option ℤ) : Extends s (s.push item time) :=
  .of_append rfl rfl rfl

theorem extends_showBlock (apiError : Bool) (time : Option ℤ) (block : Json) :
    Extends s (showBlock context apiError time s block) := by
  rw [showBlock]
  split
  · split
    · exact .refl s
    · split
      · exact extends_push _ _
      · exact .of_append rfl rfl rfl
  · split
    · exact .refl s
    · split
      · exact extends_push _ _
      · exact .of_append rfl rfl rfl
  · split
    · exact .refl s
    · exact .of_append rfl rfl rfl
  · exact .refl s

theorem extends_showBlocks (apiError : Bool) (time : Option ℤ) (blocks : List Json) :
    Extends s (blocks.foldl (showBlock context apiError time) s) := by
  induction blocks generalizing s with
  | nil => exact .refl s
  | cons block rest ih => exact (extends_showBlock apiError time block).trans ih

end Reading

def opensTurn (context : ReplayContext) (record : Json) : Bool :=
  !(uuidOf record).any (fun uuid => uuid ∈ context.retracted) &&
    (record.get "type").isText "user" && (compactionSummaryText record).isNone &&
      (promptText context.sidechain record).any (!·.isEmpty)

namespace Reading

variable {context : ReplayContext} {s s' : Reading} {record : Json}

theorem modelNotice_of_user {newUuid : Str} (h : (record.get "type").isText "user" = true) :
    modelNotice newUuid record = none := by
  have hno : (record.get "type").isText "system" = false := by
    by_contra hsystem
    rw [Bool.not_eq_false] at hsystem
    exact absurd (Json.isText_unique h hsystem) (by decide)
  rw [modelNotice, hno]
  rfl

theorem extends_display (h : opensTurn context record = false) :
    Extends s (s.display context record) := by
  rw [display]
  split
  · exact .refl s
  · rename_i hkept
    split
    · exact extends_push _ _
    · split
      · rename_i huser
        have hfirst := (extends_completeReplayedTools s record).1
        rw [showUser]
        split
        · exact hfirst.trans (extends_showSummary _ _)
        · rename_i hsummary
          split
          · rename_i text htext
            simp only [opensTurn, hkept, huser, hsummary, htext] at h
            rw [showPrompt, if_pos (by simpa using h)]
            exact hfirst
          · exact hfirst
      · split
        · exact extends_showBoundary _
        · split
          · split
            · exact .refl s
            · exact extends_showBlocks _ _ _
          · exact .refl s

/-- A prompt is placed behind all there is.  It opens a turn if the last one shows something. -/
structure Opens (context : ReplayContext) (s s' : Reading) (record : Json) : Prop where
  placed : ∃ text time, promptText context.sidechain record = some text ∧
    s'.items[s.items.length]? = some ⟨.userMessage (some text), time⟩
  length : s'.items.length = s.items.length + 1
  prompts : ∀ (i : ℕ) (entry : ReplayItem) (text : Option Str), s.items[i]? = some entry →
    entry.item = .userMessage text → s'.items[i]? = some entry
  turns : s'.turns = if s.turn.start < s.items.length then s.turns ++ [s.turn] else s.turns
  turn : s'.turn = if s.turn.start < s.items.length then { start := s.items.length } else s.turn

theorem showPrompt_spec {text : Str} (hne : text.isEmpty = false) (time : Option ℤ) :
    (s.showPrompt text time).items = s.items ++ [⟨.userMessage (some text), time⟩] ∧
    (s.showPrompt text time).turns =
      (if s.turn.start < s.items.length then s.turns ++ [s.turn] else s.turns) ∧
    (s.showPrompt text time).turn =
      if s.turn.start < s.items.length then { start := s.items.length } else s.turn := by
  rw [showPrompt, hne, if_neg Bool.false_ne_true]
  by_cases h : s.turn.start < s.items.length
  · simp only [if_pos h]
    exact ⟨rfl, rfl, rfl⟩
  · simp only [if_neg h]
    exact ⟨rfl, rfl, rfl⟩

theorem display_of_opens (h : opensTurn context record = true) :
    Opens context s (s.display context record) record := by
  simp only [opensTurn, Bool.and_eq_true, Bool.not_eq_true', Option.isNone_iff_eq_none,
    Option.any_eq_true] at h
  obtain ⟨⟨⟨hkept, huser⟩, hsummary⟩, text, htext, hne⟩ := h
  obtain ⟨hfirst, hlength⟩ := extends_completeReplayedTools s record
  obtain ⟨time, hdisplay⟩ : ∃ time, s.display context record =
      (s.completeReplayedTools record).showPrompt text time := by
    rw [display, hkept, modelNotice_of_user huser]
    simp only [Bool.false_eq_true, if_false, huser, if_true]
    rw [showUser, hsummary]
    simp only [htext]
    exact ⟨_, rfl⟩
  have hne : text.isEmpty = false := by simpa using hne
  obtain ⟨hitems, hturns, hturn⟩ := showPrompt_spec (s := s.completeReplayedTools record) hne time
  rw [hfirst.turn, hfirst.turns, hlength] at hturns
  rw [hfirst.turn, hlength] at hturn
  rw [hdisplay]
  refine ⟨⟨text, time, htext, ?_⟩, ?_, fun i entry text hi hentry => ?_, hturns, hturn⟩
  · rw [hitems, ← hlength]
    exact getElem?_concat_length
  · rw [hitems, length_append, hlength]
    rfl
  · have hkeeps := hfirst.prompts i entry text hi hentry
    rw [hitems, getElem?_append_left (List.getElem?_eq_some_iff.mp hkeeps).1, hkeeps]

end Reading

/-! ## What stands before the first prompt -/

/-- Whether a block of a message shows an item. -/
def showsBlock (context : ReplayContext) (block : Json) : Bool :=
  match assistantBlock block with
  | some (.text text) => !text.isEmpty
  | some (.thinking summary) => !summary.isEmpty
  | some (.toolUse id _) => id ∉ context.retractedTools
  | none => false

/-- Whether a record shows an item of its own where nothing is shown yet. -/
def showsItem (context : ReplayContext) (record : Json) : Bool :=
  let kind := record.get "type"
  !(uuidOf record).any (fun uuid => uuid ∈ context.retracted) &&
    ((modelNotice [] record).isSome ||
      (kind.isText "user" && ((compactionSummaryText record).isSome ||
        (promptText context.sidechain record).any (!·.isEmpty))) ||
      (kind.isText "system" && (record.get "subtype").isText "compact_boundary") ||
      (kind.isText "assistant" && (((record.get "message").get "content").asArray.getD []).any
        (showsBlock context)))

namespace Reading

variable {context : ReplayContext} {s : Reading} {record : Json}

theorem length_pos_showBlock (apiError : Bool) (time : Option ℤ) (block : Json) :
    0 < (showBlock context apiError time s block).items.length ↔
      0 < s.items.length ∨ showsBlock context block = true := by
  rw [showBlock, showsBlock]
  cases assistantBlock block with
  | none => simp
  | some block' =>
    cases block' with
    | text text =>
      simp only
      split_ifs with hempty hapi <;> simp [push, hempty]
    | thinking summary =>
      simp only
      split_ifs with hempty
      · simp [hempty]
      · split <;> simp [push, hempty]
    | toolUse id item =>
      simp only
      split_ifs with hretracted <;> simp [push, hretracted]

theorem length_pos_showBlocks (apiError : Bool) (time : Option ℤ) (blocks : List Json) :
    0 < (blocks.foldl (showBlock context apiError time) s).items.length ↔
      0 < s.items.length ∨ blocks.any (showsBlock context) = true := by
  induction blocks generalizing s with
  | nil => simp
  | cons block rest ih =>
    rw [foldl_cons, ih, length_pos_showBlock, any_cons, Bool.or_eq_true, or_assoc]

theorem compactionAt_nil (h : s.items = []) (index : Option ℕ) : s.compactionAt index = none := by
  rw [compactionAt, h]
  cases index <;> rfl

theorem modelNotice_isSome (newUuid : Str) (record : Json) :
    (modelNotice newUuid record).isSome = (modelNotice [] record).isSome := by
  rw [modelNotice, modelNotice]
  split
  · rfl
  · rw [Option.isSome_map, Option.isSome_map]

theorem length_pos_showUser (h : s.items = []) (time : Option ℤ) :
    0 < (s.showUser context record time).items.length ↔
      ((compactionSummaryText record).isSome ||
        (promptText context.sidechain record).any (!·.isEmpty)) = true := by
  have hlength := (extends_completeReplayedTools s record).2
  rw [h, length_nil] at hlength
  have hnil := length_eq_zero_iff.mp hlength
  rw [showUser]
  cases compactionSummaryText record with
  | some summary =>
    simp only [showSummary, compactionAt_nil hnil]
    simp
  | none =>
    cases promptText context.sidechain record with
    | none => simp [hlength]
    | some text =>
      cases hempty : text.isEmpty with
      | true => simp [showPrompt, hempty, hlength]
      | false =>
        simp only [(showPrompt_spec hempty time).1]
        simp [hempty]

/-- Where nothing is shown, a record shows something just if it has an item of its own. -/
theorem length_pos_display (h : s.items = []) :
    0 < (s.display context record).items.length ↔ showsItem context record = true := by
  have hzero : ¬ 0 < s.items.length := by rw [h]; exact Nat.lt_irrefl 0
  rw [display, showsItem]
  by_cases hretracted : (uuidOf record).any (fun uuid => uuid ∈ context.retracted) = true
  · simp [hretracted, h]
  rw [Bool.not_eq_true] at hretracted
  simp only [hretracted, Bool.false_eq_true, if_false, Bool.not_false, Bool.true_and]
  cases hnotice : modelNotice (context.newUuid s.items.length) record with
  | some item =>
    have hsome := modelNotice_isSome (context.newUuid s.items.length) record
    rw [hnotice, Option.isSome_some] at hsome
    simp [push, ← hsome]
  | none =>
    have hsome := modelNotice_isSome (context.newUuid s.items.length) record
    rw [hnotice, Option.isSome_none] at hsome
    rw [← hsome, Bool.false_or]
    dsimp only
    by_cases huser : (record.get "type").isText "user" = true
    · rw [if_pos huser, huser, Json.isText_ne huser (by decide : "user" ≠ "system"),
        Json.isText_ne huser (by decide : "user" ≠ "assistant")]
      simpa using @length_pos_showUser context s record h _
    · rw [if_neg huser]
      rw [Bool.not_eq_true] at huser
      rw [huser, Bool.false_and, Bool.false_or]
      by_cases hboundary : ((record.get "type").isText "system" &&
          (record.get "subtype").isText "compact_boundary") = true
      · simp [hboundary, showBoundary, compactionAt_nil h]
      · rw [if_neg hboundary]
        rw [Bool.not_eq_true] at hboundary
        rw [hboundary, Bool.false_or]
        split
        · rename_i hassistant
          rw [hassistant, Bool.true_and]
          split
          · rename_i hnone
            simp [hnone, h]
          · rename_i blocks hblocks
            rw [length_pos_showBlocks, hblocks, Option.getD_some, or_iff_right hzero]
        · rename_i hassistant
          simp [hassistant, h]

theorem length_pos_foldlM {lead : List Json} {s' : Reading}
    (hlead : ∀ record ∈ lead, opensTurn context record = false)
    (h : lead.foldlM (Reading.read context) s = some s') :
    0 < s'.items.length ↔ 0 < s.items.length ∨ lead.any (showsItem context) = true := by
  induction lead generalizing s with
  | nil =>
    cases h
    simp
  | cons record rest ih =>
    rw [foldlM_cons, Reading.read] at h
    obtain ⟨s₁, hread, h⟩ := Option.bind_eq_some_iff.mp h
    obtain ⟨turn, -, rfl⟩ := Option.map_eq_some_iff.mp hread
    rw [ih (fun other hother => hlead other (mem_cons_of_mem _ hother)) h, any_cons,
      Bool.or_eq_true, ← or_assoc]
    refine or_congr_left ?_
    by_cases hpos : 0 < s.items.length
    · have hextends := extends_display (s := { s with turn := turn }) (hlead record mem_cons_self)
      exact iff_of_true (Nat.lt_of_lt_of_le hpos hextends.length) (.inl hpos)
    · rw [or_iff_right hpos]
      exact length_pos_display (s := { s with turn := turn })
        (length_eq_zero_iff.mp (Nat.eq_zero_of_not_pos hpos))

end Reading

end NiumaTerm.ClaudeCode
