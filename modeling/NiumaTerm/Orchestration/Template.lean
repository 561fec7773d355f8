import NiumaTerm.Lib.Str

/-!
# Prompt templates

A template is literal text with `{{input}}` and `{{<node>.output}}` references; `\{{` writes a literal
`{{`.  `Template.parse` is a loop over the unread text; `scan` is that loop with enough fuel, and what it
does with one character, escape and reference is all that is used.
-/

namespace NiumaTerm.Orchestration

open Rust List

/-! ## Templates and their source text -/

def openBraces : Str := ['{', '{']

def closeBraces : Str := ['}', '}']

def escapedOpen : Str := ['\\', '{', '{']

def outputField : Str := ".output".toList

inductive Segment
  | text (literal : Str)
  | input
  | output (node : Str)
  deriving DecidableEq

structure Template where
  segments : List Segment
  deriving DecidableEq

inductive TemplateError
  | unclosed (offset : ℕ)
  | unknownReference (inner : Str)
  deriving DecidableEq

/-- The characters of a node id.  The source tests bytes; every byte of a character outside ASCII
fails the test, so the two tests agree. -/
def isIdChar (c : Char) : Bool := c.isLower || c.isDigit || c == '_' || c == '-'

/-- Node ids are restricted so that a reference is never confused with template syntax or with the
field that follows it. -/
def isNodeId (id : Str) : Bool := !id.isEmpty && id.all isIdChar

/-- The reference written between the braces. -/
def reference (inner : Str) : Except TemplateError Segment :=
  if inner = "input".toList then .ok .input
  else
    match inner.dropSuffix? outputField with
    | some node => if isNodeId node then .ok (.output node) else .error (.unknownReference inner)
    | none => .error (.unknownReference inner)

/-- Close the literal collected so far: an empty one makes no segment. -/
def flush (segments : List Segment) (text : Str) : List Segment :=
  if text.isEmpty then segments else segments ++ [.text text]

/-- `starts_with(['{', '\\'])`. -/
def startsSpecial : Str → Bool
  | '{' :: _ | '\\' :: _ => true
  | _ => false

/-- How many characters the last branch of the loop takes: up to the first special character after
the one `rest` starts with. -/
def plainRun : Str → ℕ
  | [] => 0
  | _ :: rest => 1 + (rest.findIdx fun c => startsSpecial [c])

/-- The loop of `Template::parse`.  `rest` is the unread end of `source`, `text` the literal being
collected and `segments` what was read so far.  Every round takes at least one character, so a
`fuel` of the length of `rest` is enough (`parseLoop_fuel`). -/
def parseLoop (source : Str) : ℕ → Str → Str → List Segment → Except TemplateError (List Segment)
  | _, [], text, segments => .ok (flush segments text)
  | 0, _ :: _, text, segments => .ok (flush segments text)
  | fuel + 1, c :: cs, text, segments =>
    let rest := c :: cs
    match rest.dropPrefix? escapedOpen with
    | some after => parseLoop source fuel after (text ++ openBraces) segments
    | none =>
      match rest.dropPrefix? openBraces with
      | some after =>
        match after.dropInfix? closeBraces with
        | none => .error (.unclosed (utf8Len source - utf8Len rest))
        | some (inner, next) =>
          match reference (trim inner) with
          | .error error => .error error
          | .ok segment => parseLoop source fuel next [] (flush segments text ++ [segment])
      | none =>
        let next := plainRun rest
        parseLoop source fuel (rest.drop next) (text ++ rest.take next) segments

namespace Template

def parse (source : Str) : Except TemplateError Template :=
  (parseLoop source source.length source [] []).map Template.mk

def usesInput (t : Template) : Bool := t.segments.contains .input

/-- The node ids whose outputs the template reads, in template order. -/
def outputs (t : Template) : List Str :=
  t.segments.filterMap fun
    | .output node => some node
    | _ => none

def renameSegment (old new : Str) : Segment → Segment
  | .output node => .output (if node = old then new else node)
  | segment => segment

/-- Point every reference to the output of `old` at that of `new`.  The flag says whether any
reference changed. -/
def renameOutput (t : Template) (old new : Str) : Bool × Template :=
  (t.outputs.contains old, ⟨t.segments.map (renameSegment old new)⟩)

def segmentSource : Segment → Str
  | .text literal => replace literal openBraces escapedOpen
  | .input => "{{input}}".toList
  | .output node => openBraces ++ node ++ outputField ++ closeBraces

/-- The text written for the segments: references in their plain form and every literal `{{`
escaped. -/
def toSource (t : Template) : Str := t.segments.flatMap segmentSource

end Template

/-! ## The loop, one construct at a time -/

/-- The loop of `Template::parse` with all the fuel it can use. -/
def scan (source rest text : Str) (segments : List Segment) : Except TemplateError (List Segment) :=
  parseLoop source rest.length rest text segments

theorem plainRun_pos (c : Char) (cs : Str) : 0 < plainRun (c :: cs) := by
  rw [plainRun]; omega

/-- Fuel beyond the length of the unread text changes nothing. -/
theorem parseLoop_fuel (source : Str) : ∀ (n m : ℕ) (rest text : Str) (segments : List Segment),
    rest.length ≤ n → rest.length ≤ m →
    parseLoop source n rest text segments = parseLoop source m rest text segments
  | n, m, [], text, segments, _, _ => by simp [parseLoop]
  | 0, _, _ :: _, _, _, hn, _ => by simp at hn
  | _, 0, _ :: _, _, _, _, hm => by simp at hm
  | n + 1, m + 1, c :: cs, text, segments, hn, hm => by
    rw [length_cons] at hn hm
    simp only [parseLoop]
    split
    · next after he =>
      have hl := congrArg List.length (dropPrefix?_eq_some.mp he)
      simp only [length_cons, length_append, escapedOpen] at hl
      exact parseLoop_fuel source n m _ _ _ (by simp at hl; omega) (by simp at hl; omega)
    · split
      · next after ho =>
        have hl := congrArg List.length (dropPrefix?_eq_some.mp ho)
        simp only [length_cons, length_append, openBraces] at hl
        split
        · rfl
        · next inner next hc =>
          obtain ⟨⟨close, hsplit, -⟩, -⟩ := dropInfix?_eq_some_iff.mp hc
          have hl' := congrArg List.length hsplit
          simp only [length_append] at hl'
          split
          · rfl
          · exact parseLoop_fuel source n m _ _ _ (by simp at hl; omega) (by simp at hl; omega)
      · have hpos := plainRun_pos c cs
        refine parseLoop_fuel source n m _ _ _ ?_ ?_ <;>
          simp only [length_drop, length_cons] <;> omega

theorem parseLoop_eq_scan (source : Str) {n : ℕ} {rest : Str} (text : Str)
    (segments : List Segment) (h : rest.length ≤ n) :
    parseLoop source n rest text segments = scan source rest text segments :=
  parseLoop_fuel source n rest.length rest text segments h (Nat.le_refl _)

theorem Template.parse_eq_scan (source : Str) :
    Template.parse source = (scan source source [] []).map Template.mk := rfl

@[simp] theorem scan_nil (source text : Str) (segments : List Segment) :
    scan source [] text segments = .ok (flush segments text) := rfl

/-- `\{{` adds a literal `{{`. -/
theorem scan_escaped (source rest text : Str) (segments : List Segment) :
    scan source (escapedOpen ++ rest) text segments
      = scan source rest (text ++ openBraces) segments := by
  have hd : ('\\' :: '{' :: '{' :: rest).dropPrefix? escapedOpen = some rest :=
    dropPrefix?_append escapedOpen rest
  show parseLoop source ('\\' :: '{' :: '{' :: rest).length ('\\' :: '{' :: '{' :: rest) text
    segments = _
  rw [length_cons, parseLoop]
  simp only [hd]
  exact parseLoop_eq_scan source _ _ (by simp; omega)

/-- `{{` reads one reference, or fails. -/
theorem scan_open (source after text : Str) (segments : List Segment) :
    scan source (openBraces ++ after) text segments =
      match after.dropInfix? closeBraces with
      | none => .error (.unclosed (utf8Len source - utf8Len (openBraces ++ after)))
      | some (inner, next) =>
        match reference (trim inner) with
        | .error error => .error error
        | .ok segment => scan source next [] (flush segments text ++ [segment]) := by
  have he : ('{' :: '{' :: after).dropPrefix? escapedOpen = none := by
    rw [dropPrefix?_eq_none]; simp [escapedOpen, cons_prefix_cons]
  have hd : ('{' :: '{' :: after).dropPrefix? openBraces = some after :=
    dropPrefix?_append openBraces after
  show parseLoop source ('{' :: '{' :: after).length ('{' :: '{' :: after) text segments = _
  rw [length_cons, parseLoop]
  simp only [he, hd]
  split
  · rfl
  · next inner next hc =>
    obtain ⟨⟨close, hsplit, -⟩, -⟩ := dropInfix?_eq_some_iff.mp hc
    have hl := congrArg List.length hsplit
    simp only [length_append] at hl
    split
    · rfl
    · exact parseLoop_eq_scan source _ _ (by simp; omega)

/-- Neither an escape nor a reference starts here. -/
def Plain (s : Str) : Prop := ¬ escapedOpen <+: s ∧ ¬ openBraces <+: s

theorem plain_cons {c : Char} {cs : Str} (h : startsSpecial [c] = false) : Plain (c :: cs) := by
  constructor <;> intro hp
  · obtain ⟨rfl, -⟩ := cons_prefix_cons.mp hp
    simp [startsSpecial] at h
  · obtain ⟨rfl, -⟩ := cons_prefix_cons.mp hp
    simp [startsSpecial] at h

theorem scan_run (source : Str) {c : Char} {cs : Str} (text : Str) (segments : List Segment)
    (h : Plain (c :: cs)) :
    scan source (c :: cs) text segments =
      scan source ((c :: cs).drop (plainRun (c :: cs))) (text ++ (c :: cs).take (plainRun (c :: cs)))
        segments := by
  have hpos := plainRun_pos c cs
  show parseLoop source (c :: cs).length (c :: cs) text segments = _
  rw [length_cons, parseLoop]
  simp only [dropPrefix?_eq_none.mpr h.1, dropPrefix?_eq_none.mpr h.2]
  refine parseLoop_eq_scan source _ _ ?_
  simp only [length_drop, length_cons]
  omega

/-- Any other character is literal.  The loop takes a whole run of them; this is the same thing one
character at a time. -/
theorem scan_cons (source : Str) {c : Char} {cs : Str} (text : Str) (segments : List Segment)
    (h : Plain (c :: cs)) :
    scan source (c :: cs) text segments = scan source cs (text ++ [c]) segments := by
  rw [scan_run source text segments h]
  cases cs with
  | nil => simp [plainRun]
  | cons d ds =>
    cases hd : startsSpecial [d] with
    | true => simp [plainRun, findIdx_cons, hd]
    | false =>
      rw [scan_run source (text ++ [c]) segments (plain_cons hd)]
      simp [plainRun, findIdx_cons, hd, Nat.add_comm 1]

/-- The four ways the unread text can start. -/
theorem scan_cases (rest : Str) : rest = [] ∨ (∃ r, rest = escapedOpen ++ r) ∨
    (∃ r, rest = openBraces ++ r) ∨ ∃ c cs, rest = c :: cs ∧ Plain (c :: cs) := by
  cases rest with
  | nil => exact .inl rfl
  | cons c cs =>
    by_cases he : escapedOpen <+: c :: cs
    · obtain ⟨r, hr⟩ := he; exact .inr (.inl ⟨r, hr.symm⟩)
    · by_cases ho : openBraces <+: c :: cs
      · obtain ⟨r, hr⟩ := ho; exact .inr (.inr (.inl ⟨r, hr.symm⟩))
      · exact .inr (.inr (.inr ⟨c, cs, rfl, he, ho⟩))

theorem flush_append (segments more : List Segment) (text : Str) :
    flush (segments ++ more) text = segments ++ flush more text := by
  rw [flush, flush]
  split <;> simp

/-- The segments read so far are only ever added to. -/
theorem scan_segments (source : Str) (n : ℕ) : ∀ (rest text : Str) (segments : List Segment),
    rest.length ≤ n →
    scan source rest text segments = (scan source rest text []).map (segments ++ ·) := by
  induction n with
  | zero =>
    intro rest text segments hn
    obtain rfl := length_eq_zero_iff.mp (Nat.le_zero.mp hn)
    simp only [scan_nil, Except.map, ← flush_append, append_nil]
  | succ n ih =>
    intro rest text segments hn
    rcases scan_cases rest with rfl | ⟨r, rfl⟩ | ⟨r, rfl⟩ | ⟨c, cs, rfl, hp⟩
    · simp only [scan_nil, Except.map, ← flush_append, append_nil]
    · simp only [length_append, escapedOpen] at hn
      rw [scan_escaped, scan_escaped, ih _ _ _ (by simp at hn; omega)]
    · simp only [length_append, openBraces] at hn
      rw [scan_open, scan_open]
      split
      · rfl
      · next inner next hc =>
        obtain ⟨⟨close, hsplit, -⟩, -⟩ := dropInfix?_eq_some_iff.mp hc
        have hl := congrArg List.length hsplit
        simp only [length_append] at hl
        have hle : next.length ≤ n := by simp at hn; omega
        split
        · rfl
        · next segment _ =>
          rw [ih _ _ (flush segments text ++ [segment]) hle,
            ih _ _ (flush [] text ++ [segment]) hle]
          cases scan source next [] [] with
          | error e => rfl
          | ok out =>
            simp only [Except.map, ← append_assoc, ← flush_append, append_nil]
    · rw [scan_cons _ _ _ hp, scan_cons _ _ _ hp, ih _ _ _ (by simpa using hn)]

end NiumaTerm.Orchestration
