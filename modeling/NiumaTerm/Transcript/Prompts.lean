import NiumaTerm.Lib.Successive
import NiumaTerm.Transcript.Conversation

/-!
# The prompts of a transcript

A branch is cut in front of a whole turn, so the message that opens a turn names a cut, by its
distance from the newest one (`promptTarget`).  A backend's list of branch points is read at that
distance (`checkpointAtDepth`).
-/

namespace NiumaTerm.Transcript

open Rust Successive List

def Item.isUserMessage : Item → Bool
  | .userMessage _ => true
  | _ => false

def Item.prompt : Item → Option Str
  | .userMessage text => text
  | _ => none

/-- The user messages, and where they are. -/
def userMessages (items : List Entry) : List (Entry × ℕ) :=
  items.zipIdx.filter fun e => e.1.item.isUserMessage

def turnOpeningPrompts (items : List Entry) : List ℕ :=
  (firsts (fun e : Entry × ℕ => e.1.turn) [] (userMessages items)).map Prod.snd

structure PromptTarget where
  prompt : Str
  /-- Distance from the newest turn-opening prompt. -/
  depth : ℕ

def promptTarget (items : List Entry) (index : ℕ) : Option PromptTarget := do
  let entry ← items[index]?
  let prompt ← entry.item.prompt
  let openings := turnOpeningPrompts items
  let position ← openings.idxOf? index
  some ⟨prompt, openings.length - 1 - position⟩

/-- A depth counts only when the text agrees too. -/
def checkpointAtDepth {T : Type} (checkpoints : List T) (target : PromptTarget)
    (promptOf : T → Str) : Option T :=
  checkpoints[target.depth]?.filter fun checkpoint => promptOf checkpoint = target.prompt

variable {items : List Entry}

theorem getElem_of_mem_userMessages {entry : Entry} {index : ℕ}
    (h : (entry, index) ∈ userMessages items) : items[index]? = some entry :=
  mk_mem_zipIdx_iff_getElem?.mp (mem_filter.mp h).1

theorem nodup_turnOpeningPrompts : (turnOpeningPrompts items).Nodup := by
  have hsub : (turnOpeningPrompts items).Sublist (items.zipIdx.map Prod.snd) :=
    (firsts_sublist.trans filter_sublist).map Prod.snd
  refine List.Nodup.sublist hsub ?_
  rw [zipIdx_map_snd]
  exact nodup_range'

theorem promptTarget_of_opening {k index : ℕ} {entry : Entry} {prompt : Str}
    (h : (turnOpeningPrompts items)[k]? = some index) (hentry : items[index]? = some entry)
    (hprompt : entry.item.prompt = some prompt) :
    promptTarget items index = some ⟨prompt, (turnOpeningPrompts items).length - 1 - k⟩ := by
  obtain ⟨hk, hget⟩ := List.getElem?_eq_some_iff.mp h
  have hposition : (turnOpeningPrompts items).idxOf? index = some k := by
    refine idxOf?_eq_some_iff.mpr ⟨hk, by simpa using hget, fun j hj => ?_⟩
    intro heq
    have hjk := nodup_turnOpeningPrompts.getElem_inj_iff.mp (heq.trans hget.symm)
    exact Nat.ne_of_lt hj hjk
  simp only [promptTarget, hentry, hprompt, hposition, Option.bind_eq_bind, Option.bind_some]

end NiumaTerm.Transcript
