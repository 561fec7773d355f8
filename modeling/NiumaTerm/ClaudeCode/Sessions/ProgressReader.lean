import Mathlib.Data.List.Chain
import NiumaTerm.ClaudeCode.Sessions.Progress
import NiumaTerm.Lib.Lines

/-!
# Reading a log that grows

`ProgressReader` reads the lines that came since it read last, and starts again when the file is shorter,
or as long with another time.  Both are taken before the lines are read.  A `View` is what a read meets.
-/

namespace NiumaTerm.ClaudeCode
namespace Progress

open Rust List

/-- The file when its size is taken, what there is of it when the read comes to its end, and after
how many lines reading fails, if it does. -/
structure View where
  content : List UInt8
  modified : Option ℕ
  seen : List UInt8
  failure : Option ℕ
  grown : content <+: seen

structure ProgressReader where
  cursor : ℕ := 0
  length : ℕ := 0
  modified : Option ℕ := none
  tracker : ProgressTracker := {}

def newline (byte : UInt8) : Bool := byte = 10

section

variable (parse : List UInt8 → Option Json) (parseText : Str → Option Json)

def ProgressReader.readLine (r : ProgressReader) (line : List UInt8) : ProgressReader :=
  { r with
    cursor := r.cursor + line.length
    tracker := (parse line).elim r.tracker (r.tracker.observe parseText) }

/-- The file was cut, or written anew in the length it had. -/
def ProgressReader.replaced (r : ProgressReader) (view : View) : Bool :=
  view.content.length < r.length || (view.content.length = r.length && view.modified ≠ r.modified)

def ProgressReader.read (r : ProgressReader) (view : View) :
    Option ProgressSnapshot × ProgressReader :=
  let r := if r.replaced view then { r with cursor := 0, tracker := {} } else r
  let r := { r with length := view.content.length, modified := view.modified }
  let lines := Lines.complete newline (view.seen.drop r.cursor)
  match view.failure with
  | none =>
    let r := lines.foldl (readLine parse parseText) r
    (some r.tracker.snapshot, r)
  | some count => (none, (lines.take count).foldl (readLine parse parseText) r)

end

/-! ## What was read -/

section

variable {parse : List UInt8 → Option Json} {parseText : Str → Option Json}
variable {r : ProgressReader} {view : View} {text : List UInt8}

/-- The tracker of the records in some lines. -/
def trackerOf (parse : List UInt8 → Option Json) (parseText : Str → Option Json)
    (lines : List (List UInt8)) : ProgressTracker :=
  (lines.filterMap parse).foldl (ProgressTracker.observe parseText) {}

/-- The reader has read some lines at the front of a text. -/
structure HasRead (parse : List UInt8 → Option Json) (parseText : Str → Option Json)
    (r : ProgressReader) (lines : List (List UInt8)) (text : List UInt8) : Prop where
  whole : ∀ line ∈ lines, Lines.IsLine newline line
  front : lines.flatten <+: text
  cursor : r.cursor = lines.flatten.length
  tracker : r.tracker = trackerOf parse parseText lines

theorem foldl_readLine (r : ProgressReader) (lines : List (List UInt8)) :
    lines.foldl (ProgressReader.readLine parse parseText) r =
      { r with
        cursor := r.cursor + lines.flatten.length
        tracker := (lines.filterMap parse).foldl (ProgressTracker.observe parseText) r.tracker } := by
  induction lines generalizing r with
  | nil => rfl
  | cons line rest ih =>
    rw [foldl_cons, ih, ProgressReader.readLine, flatten_cons, length_append,
      Nat.add_assoc, filterMap_cons]
    cases parse line <;> rfl

theorem taken_foldl_readLine (r : ProgressReader) (lines : List (List UInt8)) :
    (lines.foldl (ProgressReader.readLine parse parseText) r).length = r.length ∧
      (lines.foldl (ProgressReader.readLine parse parseText) r).modified = r.modified := by
  rw [foldl_readLine]
  exact ⟨rfl, rfl⟩

variable {lines : List (List UInt8)}

theorem HasRead.mono {text' : List UInt8}
    (h : HasRead parse parseText r lines text) (htext : text <+: text') :
    HasRead parse parseText r lines text' where
  whole := h.whole
  front := h.front.trans htext
  cursor := h.cursor
  tracker := h.tracker

theorem HasRead.start (hcursor : r.cursor = 0) (htracker : r.tracker = {}) :
    HasRead parse parseText r [] text where
  whole := fun _ hline => absurd hline not_mem_nil
  front := nil_prefix
  cursor := hcursor
  tracker := htracker

/-- The lines behind the cursor are the ones that were not read. -/
theorem HasRead.complete (h : HasRead parse parseText r lines text) :
    Lines.complete newline text = lines ++ Lines.complete newline (text.drop r.cursor) := by
  obtain ⟨rest, rfl⟩ := h.front
  rw [Lines.complete_flatten_append h.whole, h.cursor, drop_left]

theorem HasRead.foldl {lines more : List (List UInt8)} (h : HasRead parse parseText r lines text)
    (hmore : more <+: Lines.complete newline (text.drop r.cursor)) :
    HasRead parse parseText (more.foldl (ProgressReader.readLine parse parseText) r)
      (lines ++ more) text := by
  have hall : lines ++ more <+: Lines.complete newline text := by
    rw [h.complete]
    exact (prefix_append_right_inj lines).mpr hmore
  have hfront : (lines ++ more).flatten <+: text := by
    obtain ⟨rest, hrest⟩ := hall
    have htext := @Lines.flatten_complete _ newline text
    rw [← hrest, flatten_append, append_assoc] at htext
    exact ⟨_, htext⟩
  rw [foldl_readLine]
  refine ⟨fun line hline => Lines.isLine_of_mem (hall.subset hline), hfront, ?_, ?_⟩
  · rw [h.cursor, flatten_append, length_append]
  · rw [h.tracker, trackerOf, trackerOf, filterMap_append, foldl_append]

/-- The reader when it starts to read the lines. -/
def ProgressReader.begin (r : ProgressReader) (view : View) : ProgressReader :=
  { (if r.replaced view then { r with cursor := 0, tracker := {} } else r) with
    length := view.content.length, modified := view.modified }

theorem read_eq (r : ProgressReader) (view : View) : r.read parse parseText view =
    match view.failure with
    | none =>
      let r := (Lines.complete newline (view.seen.drop (r.begin view).cursor)).foldl
        (ProgressReader.readLine parse parseText) (r.begin view)
      (some r.tracker.snapshot, r)
    | some count =>
      (none, ((Lines.complete newline (view.seen.drop (r.begin view).cursor)).take count).foldl
        (ProgressReader.readLine parse parseText) (r.begin view)) :=
  rfl

/-- What a read leaves, when it starts behind lines of what it sees. -/
theorem hasRead_read (h : HasRead parse parseText (r.begin view) lines view.seen) :
    (∃ lines', HasRead parse parseText (r.read parse parseText view).2 lines' view.seen) ∧
      (r.read parse parseText view).2.length = view.content.length ∧
      (r.read parse parseText view).2.modified = view.modified := by
  rw [read_eq]
  cases view.failure with
  | none => exact ⟨⟨_, h.foldl (prefix_refl _)⟩, taken_foldl_readLine _ _⟩
  | some count => exact ⟨⟨_, h.foldl ( take_prefix _ _)⟩, taken_foldl_readLine _ _⟩

theorem read_of_whole
    (h : HasRead parse parseText (r.begin view) lines view.seen) (hread : view.failure = none) :
    (r.read parse parseText view).1 =
        some (trackerOf parse parseText (Lines.complete newline view.seen)).snapshot ∧
      (r.read parse parseText view).2.cursor =
        (Lines.complete newline view.seen).flatten.length := by
  have hall := h.foldl (prefix_refl _)
  rw [read_eq, hread, h.complete]
  exact ⟨congrArg (fun tracker : ProgressTracker => some tracker.snapshot) hall.tracker, hall.cursor⟩

/-! ## Runs -/

def readAll (parse : List UInt8 → Option Json) (parseText : Str → Option Json)
    (views : List View) : ProgressReader :=
  views.foldl (fun r view => (r.read parse parseText view).2) {}

/-- Between two reads the file grew; or it is shorter than when the size was taken for the first
one, or it has that size and another time. -/
def Noticed (view next : View) : Prop :=
  view.seen <+: next.content ∨ next.content.length < view.content.length ∨
    (next.content.length = view.content.length ∧ next.modified ≠ view.modified)

/-- A file that holds what was consumed. -/
def consumedView (text : List UInt8) : View where
  content := text
  modified := none
  seen := text
  failure := none
  grown := prefix_refl text

theorem hasRead_begin_fresh (view : View) :
    HasRead parse parseText (({} : ProgressReader).begin view) [] view.seen := by
  rw [ProgressReader.begin]
  split_ifs <;> exact .start rfl rfl

/-- A reader that read the view before starts behind lines of what it sees now. -/
theorem hasRead_begin_next {next : View}
    (h : HasRead parse parseText r lines view.seen) (hlength : r.length = view.content.length)
    (hmodified : r.modified = view.modified) (hnext : Noticed view next) :
    ∃ lines', HasRead parse parseText (r.begin next) lines' next.seen := by
  rw [ProgressReader.begin]
  by_cases hreplaced : r.replaced next = true
  · rw [if_pos hreplaced]
    exact ⟨[], .start rfl rfl⟩
  · rw [if_neg hreplaced]
    refine ⟨lines, ?_⟩
    have hgrown : view.seen <+: next.content := by
      rcases hnext with hgrown | hcut | ⟨hsame, htime⟩
      · exact hgrown
      · simp [ProgressReader.replaced, hlength, hcut] at hreplaced
      · simp [ProgressReader.replaced, hlength, hsame, hmodified, htime] at hreplaced
    have hmono := h.mono (hgrown.trans next.grown)
    exact ⟨hmono.whole, hmono.front, hmono.cursor, hmono.tracker⟩

theorem hasRead_begin (views : List View) (view : View)
    (h : List.IsChain Noticed (views ++ [view])) :
    ∃ lines, HasRead parse parseText ((readAll parse parseText views).begin view) lines
      view.seen := by
  induction views using reverseRecOn generalizing view with
  | nil => exact ⟨[], hasRead_begin_fresh view⟩
  | append_singleton views last ih =>
    rw [append_assoc] at h
    obtain ⟨hbefore, hlast, -⟩ := isChain_append_cons_cons.mp h
    obtain ⟨lines, hlines⟩ := ih last hbefore
    obtain ⟨⟨lines', hread⟩, hlength, hmodified⟩ := hasRead_read hlines
    rw [readAll, foldl_append]
    exact hasRead_begin_next hread hlength hmodified hlast

/-- A read gives what a fresh reader makes of the lines that were consumed, and these are all lines
that are there.  A file that is written anew must be noticed. -/
theorem read_as_fresh (parse : List UInt8 → Option Json) (parseText : Str → Option Json)
    (views : List View) (view : View) (h : List.IsChain Noticed (views ++ [view]))
    (hread : view.failure = none) :
    let read := (readAll parse parseText views).read parse parseText view
    let consumed := view.seen.take read.2.cursor
    read.1 = (({} : ProgressReader).read parse parseText (consumedView consumed)).1 ∧
      read.1.isSome = true ∧
      (Lines.complete newline view.content).flatten <+: consumed ∧
      consumed = (Lines.complete newline view.seen).flatten := by
  intro read consumed
  obtain ⟨lines, hlines⟩ := @hasRead_begin parse parseText views view h
  obtain ⟨hsnapshot, hcursor⟩ := read_of_whole hlines hread
  have hconsumed : consumed = (Lines.complete newline view.seen).flatten := by
    change view.seen.take ((readAll parse parseText views).read parse parseText view).2.cursor = _
    rw [hcursor]
    nth_rewrite 2 [← @Lines.flatten_complete _ newline view.seen]
    exact take_left
  have hwhole : Lines.complete newline consumed = Lines.complete newline view.seen := by
    rw [hconsumed]
    exact Lines.complete_flatten fun line hline ↦ Lines.isLine_of_mem hline
  have hfresh := read_of_whole
    (@hasRead_begin_fresh parse parseText (consumedView consumed)) rfl
  refine ⟨?_, ?_, ?_, hconsumed⟩
  · exact hsnapshot.trans (hwhole ▸ hfresh.1).symm
  · exact Option.isSome_iff_exists.mpr ⟨_, hsnapshot⟩
  · obtain ⟨more, hmore⟩ := @Lines.complete_prefix _ newline _ _ view.grown
    rw [hconsumed, ← hmore, flatten_append]
    exact prefix_append _ _

end

/-! ## A log that is written anew -/

def ascii (text : String) : List UInt8 := text.toList.map fun c => UInt8.ofNat c.toNat

def goalLine (objective : String) : List UInt8 :=
  ascii ("\x7b\"type\":\"attachment\",\"attachment\":\x7b\"type\":\"goal_status\"," ++
    "\"condition\":\"" ++ objective ++ "\"\x7d\x7d\n")

def goalRecord (objective : String) : Json :=
  .object [("type", .text "attachment"), ("attachment", .object
    [("type", .text "goal_status"), ("condition", .text objective)])]

/-- Parses the lines for the goals `A` and `B`. -/
def parseGoals (line : List UInt8) : Option Json :=
  if line = goalLine "A" then some (goalRecord "A")
  else if line = goalLine "B" then some (goalRecord "B")
  else none

def shownGoal (snapshot : Option ProgressSnapshot) : Option Str :=
  (snapshot.bind ProgressSnapshot.goal).map GoalStatus.objective

/-- The file has some bytes of the line when its size is taken, and then all of it. -/
def halfLine : View where
  content := (goalLine "A").take 10
  modified := some 1
  seen := goalLine "A"
  failure := none
  grown := take_prefix _ _

def lineAndHalf : View where
  content := goalLine "A" ++ (goalLine "B").take 5
  modified := some 2
  seen := goalLine "A" ++ goalLine "B"
  failure := none
  grown := (prefix_append_right_inj _).mpr ( take_prefix _ _)

theorem read_as_fresh_grown :
    ((readAll parseGoals (fun _ ↦ none) [halfLine]).read parseGoals (fun _ ↦ none)
        lineAndHalf).1.isSome = true ∧
      shownGoal ((readAll parseGoals (fun _ ↦ none) [halfLine]).read parseGoals (fun _ ↦ none)
        lineAndHalf).1 = some ['B'] :=
  ⟨(read_as_fresh parseGoals (fun _ ↦ none) [halfLine] lineAndHalf
    (.cons_cons (.inl (prefix_append _ _)) (.singleton _)) rfl).2.1, by decide +kernel⟩

/-- The file is empty when its size is taken. -/
def lateLines (lines : List UInt8) : View where
  content := []
  modified := some 1
  seen := lines
  failure := none
  grown := nil_prefix

/-- After it was cut to another line, or written anew in its length, the old goal is still shown. -/
theorem read_unnoticed :
    let next : View := { consumedView (goalLine "B") with modified := some 2 }
    let long := lateLines (goalLine "A" ++ goalLine "A")
    let same := lateLines (goalLine "A")
    (next.content.length < long.seen.length ∧
      next.content.length = same.seen.length ∧ next.modified ≠ same.modified) ∧
    shownGoal (({} : ProgressReader).read parseGoals (fun _ ↦ none) next).1 = some ['B'] ∧
    shownGoal ((readAll parseGoals (fun _ ↦ none) [long]).read parseGoals (fun _ ↦ none)
      next).1 = some ['A'] ∧
    shownGoal ((readAll parseGoals (fun _ ↦ none) [same]).read parseGoals (fun _ ↦ none)
      next).1 = some ['A'] := by
  decide +kernel

end Progress
end NiumaTerm.ClaudeCode
