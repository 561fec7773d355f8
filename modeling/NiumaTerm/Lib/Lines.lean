import Mathlib.Data.List.Basic

/-!
# Lines of a text that grows

A line ends with an element that `isEnd` holds of.  `complete` are the lines of a text up to the last
end; what follows is the beginning of a line that is not there yet.
-/

namespace Lines

open List

variable {α : Type} (isEnd : α → Bool)

/-- The lines of a text, when `line` stands in front of it. -/
def completeAfter (line : List α) : List α → List (List α)
  | [] => []
  | a :: rest =>
    if isEnd a then (line ++ [a]) :: completeAfter [] rest else completeAfter (line ++ [a]) rest

def complete (text : List α) : List (List α) := completeAfter isEnd [] text

def begunAfter (line : List α) : List α → List α
  | [] => line
  | a :: rest => if isEnd a then begunAfter [] rest else begunAfter (line ++ [a]) rest

def begun (text : List α) : List α := begunAfter isEnd [] text

def IsLine (line : List α) : Prop :=
  ∃ before a, line = before ++ [a] ∧ isEnd a = true ∧ ∀ b ∈ before, isEnd b = false

variable {isEnd} {text more : List α}

theorem flatten_completeAfter (line text : List α) :
    (completeAfter isEnd line text).flatten ++ begunAfter isEnd line text = line ++ text := by
  induction text generalizing line with
  | nil => rw [completeAfter, begunAfter, flatten_nil, nil_append, append_nil]
  | cons a rest ih =>
    rw [completeAfter, begunAfter]
    split_ifs
    · rw [flatten_cons, append_assoc, ih, append_assoc]
      rfl
    · rw [ih, append_assoc]
      rfl

theorem flatten_complete (text : List α) :
    (complete isEnd text).flatten ++ begun isEnd text = text :=
  flatten_completeAfter [] text

theorem completeAfter_append (line text more : List α) :
    completeAfter isEnd line (text ++ more) =
      completeAfter isEnd line text ++ completeAfter isEnd (begunAfter isEnd line text) more := by
  induction text generalizing line with
  | nil => rfl
  | cons a rest ih =>
    rw [cons_append, completeAfter, completeAfter, begunAfter]
    split_ifs
    · rw [ih, cons_append]
    · rw [ih]

theorem complete_append (text more : List α) : complete isEnd (text ++ more) =
    complete isEnd text ++ completeAfter isEnd (begun isEnd text) more :=
  completeAfter_append [] text more

theorem complete_prefix {text' : List α} (h : text <+: text') :
    complete isEnd text <+: complete isEnd text' := by
  obtain ⟨more, rfl⟩ := h
  exact ⟨_, (complete_append text more).symm⟩

theorem completeAfter_line {begun' before : List α} {a : α} (ha : isEnd a = true)
    (hbefore : ∀ b ∈ before, isEnd b = false) (more : List α) :
    completeAfter isEnd begun' (before ++ a :: more) =
      (begun' ++ before ++ [a]) :: complete isEnd more := by
  induction before generalizing begun' with
  | nil => rw [nil_append, completeAfter, if_pos ha, append_nil, complete]
  | cons b rest ih =>
    rw [cons_append, completeAfter, hbefore b mem_cons_self, if_neg Bool.false_ne_true,
      ih fun c hc => hbefore c (mem_cons_of_mem _ hc), append_assoc begun' [b]]
    rfl

theorem complete_line_append {line : List α} (h : IsLine isEnd line) (more : List α) :
    complete isEnd (line ++ more) = line :: complete isEnd more := by
  obtain ⟨before, a, rfl, ha, hbefore⟩ := h
  rw [append_assoc]
  exact completeAfter_line ha hbefore more

/-- After whole lines, reading starts anew. -/
theorem complete_flatten_append {lines : List (List α)} (h : ∀ line ∈ lines, IsLine isEnd line)
    (more : List α) : complete isEnd (lines.flatten ++ more) = lines ++ complete isEnd more := by
  induction lines with
  | nil => rfl
  | cons line rest ih =>
    rw [flatten_cons, append_assoc, complete_line_append (h line mem_cons_self),
      ih fun other hother => h other (mem_cons_of_mem _ hother)]
    rfl

theorem isLine_completeAfter {begun' line : List α} (hbegun : ∀ b ∈ begun', isEnd b = false)
    (hline : line ∈ completeAfter isEnd begun' text) : IsLine isEnd line := by
  induction text generalizing begun' with
  | nil => cases hline
  | cons a rest ih =>
    rw [completeAfter] at hline
    split_ifs at hline with ha
    · rcases mem_cons.mp hline with rfl | hmem
      · exact ⟨begun', a, rfl, ha, hbegun⟩
      · exact ih (fun _ hb => absurd hb not_mem_nil) hmem
    · refine ih (fun b hb => ?_) hline
      rcases mem_append.mp hb with hb | hb
      · exact hbegun b hb
      · rw [mem_singleton.mp hb]
        exact Bool.not_eq_true _ ▸ ha

theorem isLine_of_mem {line : List α} (hline : line ∈ complete isEnd text) : IsLine isEnd line :=
  isLine_completeAfter (fun _ hb => absurd hb not_mem_nil) hline

theorem complete_flatten {lines : List (List α)} (h : ∀ line ∈ lines, IsLine isEnd line) :
    complete isEnd lines.flatten = lines := by
  have happend := complete_flatten_append h []
  rw [append_nil] at happend
  exact happend.trans (append_nil lines)

end Lines
