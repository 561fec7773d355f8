import NiumaTerm.Orchestration.Template

/-!
# Printing a template and reading it back

`Normal` lists of segments are those a parse returns.  `toSource` escapes the `{{` of a literal from the
left, so a literal with an odd number of braces at its end keeps one that is not escaped, and directly
before a reference that brace is read as part of it.  `looseBrace` finds such a literal: the printed text
is refused with one and read back without.
-/

namespace NiumaTerm.Orchestration

open Rust
open List hiding replace

/-! ## What a parse can return -/

def Segment.isText : Segment → Bool
  | .text _ => true
  | _ => false

/-- How many opening braces a literal ends in. -/
def braceRun (t : Str) : ℕ := (t.reverse.takeWhile (· == '{')).length

@[simp] theorem braceRun_append_brace (t : Str) : braceRun (t ++ ['{']) = braceRun t + 1 := by
  simp [braceRun]

theorem braceRun_append_of_ne {c : Char} (t : Str) (h : c ≠ '{') : braceRun (t ++ [c]) = 0 := by
  simp [braceRun, h]

/-- A literal a reference may follow: it ends neither in a backslash, which would escape the
reference, nor in exactly one brace, which would be read as part of it. -/
def Closed (t : Str) : Prop := t.getLast? ≠ some '\\' ∧ braceRun t ≠ 1

/-- What may stand after the literal `t`. -/
def mayFollow (t : Str) : List Segment → Prop
  | [] => True
  | s :: _ => s.isText = false ∧ Closed t

/-- The lists of segments a parse can return. -/
def Normal : List Segment → Prop
  | [] => True
  | .text t :: rest => t ≠ [] ∧ mayFollow t rest ∧ Normal rest
  | .input :: rest => Normal rest
  | .output node :: rest => isNodeId node = true ∧ Normal rest

theorem reference_isRef {inner : Str} {s : Segment} (h : reference inner = .ok s) :
    s = .input ∨ ∃ node, s = .output node ∧ isNodeId node = true := by
  rw [reference] at h
  split at h
  · cases h; exact .inl rfl
  · split at h
    · next node _ =>
      split at h
      · next hid => cases h; exact .inr ⟨node, rfl, hid⟩
      · cases h
    · cases h

theorem normal_flush_ref {text : Str} {s : Segment} {rest : List Segment}
    (hs : s = .input ∨ ∃ node, s = .output node ∧ isNodeId node = true)
    (ht : Closed text) (hr : Normal rest) : Normal (flush [] text ++ s :: rest) := by
  have hsr : Normal (s :: rest) ∧ s.isText = false := by
    rcases hs with rfl | ⟨node, rfl, hid⟩
    · exact ⟨hr, rfl⟩
    · exact ⟨⟨hid, hr⟩, rfl⟩
  rw [flush]
  split
  · exact hsr.1
  · next hne =>
    refine ⟨by simpa using hne, ⟨hsr.2, ht⟩, hsr.1⟩

/-- **A parse returns normal segments.**  Where a `{{` follows, the literal being collected does
not end in a backslash, or the pair would have been read as an escape, and it does not end in a
single brace, or the `{{` would have been found one character earlier. -/
theorem scan_normal (source : Str) (n : ℕ) : ∀ (rest text : Str) (out : List Segment),
    rest.length ≤ n → (openBraces <+: rest → Closed text) →
    scan source rest text [] = .ok out → Normal out := by
  induction n with
  | zero =>
    intro rest text out hn _ h
    obtain rfl := length_eq_zero_iff.mp (Nat.le_zero.mp hn)
    rw [scan_nil, Except.ok.injEq] at h
    subst h
    rw [flush]
    split
    · trivial
    · next hne => exact ⟨by simpa using hne, trivial, trivial⟩
  | succ n ih =>
    intro rest text out hn ht h
    rcases scan_cases rest with rfl | ⟨r, rfl⟩ | ⟨r, rfl⟩ | ⟨c, cs, rfl, hp⟩
    · exact ih [] text out (Nat.zero_le n) ht h
    · rw [scan_escaped] at h
      refine ih r _ out (by simp [escapedOpen] at hn; omega) ?_ h
      intro _
      rw [show text ++ openBraces = text ++ ['{'] ++ ['{'] by simp [openBraces]]
      exact ⟨by simp, by rw [braceRun_append_brace, braceRun_append_brace]; omega⟩
    · rw [scan_open] at h
      split at h
      · cases h
      · next inner next hc =>
        obtain ⟨⟨close, hsplit, -⟩, -⟩ := dropInfix?_eq_some_iff.mp hc
        have hl := congrArg List.length hsplit
        simp only [length_append] at hl
        split at h
        · cases h
        · next s hs =>
          rw [scan_segments source _ _ _ _ (Nat.le_refl _)] at h
          cases hr : scan source next [] [] with
          | error e => rw [hr] at h; cases h
          | ok out' =>
            rw [hr] at h
            simp only [Except.map, Except.ok.injEq, append_assoc, cons_append, nil_append] at h
            subst h
            refine normal_flush_ref (reference_isRef hs) (ht ⟨r, rfl⟩)
              (ih next [] out' (by simp [openBraces] at hn; omega)
                (fun _ => ⟨by simp, by simp [braceRun]⟩) hr)
    · rw [scan_cons _ _ _ hp] at h
      refine ih cs _ out (by simpa using hn) ?_ h
      rintro ⟨r, rfl⟩
      have hb : c ≠ '{' := by
        rintro rfl
        exact hp.2 ⟨'{' :: r, rfl⟩
      refine ⟨?_, by simp [braceRun_append_of_ne text hb]⟩
      intro hlast
      obtain rfl : c = '\\' := by simpa using hlast
      exact hp.1 ⟨r, rfl⟩

theorem parse_normal {source : Str} {t : Template} (h : Template.parse source = .ok t) :
    Normal t.segments := by
  rw [Template.parse_eq_scan] at h
  cases hs : scan source source [] [] with
  | error e => rw [hs] at h; cases h
  | ok out =>
    rw [hs] at h
    cases h
    exact scan_normal source _ source [] out (Nat.le_refl _)
      (fun _ => ⟨by simp, by simp [braceRun]⟩) hs

/-! ## The escape of a literal -/

/-- `text.replace(OPEN, ESCAPED_OPEN)`. -/
def escape (t : Str) : Str := replace t openBraces escapedOpen

@[simp] theorem escape_nil : escape [] = [] := rfl

theorem escape_pair (r : Str) : escape ('{' :: '{' :: r) = escapedOpen ++ escape r := by
  simp [escape, replace, replaceFrom, openBraces]

theorem escape_cons {c : Char} {r : Str} (h : ¬ openBraces <+: c :: r) :
    escape (c :: r) = c :: escape r := by
  rw [escape, replace, replaceFrom, if_neg (by simpa using h)]
  rfl

/-- Whether escaping from the left leaves the last character, a brace, on its own. -/
def leavesBrace : Str → Bool
  | '{' :: '{' :: r => leavesBrace r
  | ['{'] => true
  | _ :: r => leavesBrace r
  | [] => false

/-- Whether a literal ends in an odd number of opening braces. -/
def oddBraces (t : Str) : Bool := braceRun t % 2 == 1

/-- A template has a loose brace when a literal directly before a reference ends in an odd number
of opening braces. -/
def looseBrace : List Segment → Bool
  | .text t :: s :: rest => (!s.isText && oddBraces t) || looseBrace (s :: rest)
  | _ :: rest => looseBrace rest
  | [] => false

theorem leavesBrace_cons {c : Char} {r : Str} (h : ¬ openBraces <+: c :: r) (hr : r ≠ []) :
    leavesBrace (c :: r) = leavesBrace r := by
  rw [leavesBrace.eq_3]
  · rintro d rfl rfl
    exact h ⟨d, rfl⟩
  · rintro rfl rfl
    exact hr rfl

theorem exists_of_openBraces_prefix {t : Str} (h : openBraces <+: t) :
    ∃ r, t = '{' :: '{' :: r := by
  obtain ⟨r, rfl⟩ := h
  exact ⟨r, rfl⟩

/-- A literal that leaves a brace is one that does not, and the brace. -/
theorem leavesBrace_split (n : ℕ) : ∀ t : Str, t.length ≤ n → leavesBrace t = true →
    ∃ u, t = u ++ ['{'] ∧ leavesBrace u = false ∧ escape t = escape u ++ ['{'] := by
  induction n with
  | zero =>
    intro t hn h
    obtain rfl := length_eq_zero_iff.mp (Nat.le_zero.mp hn)
    cases h
  | succ n ih =>
    intro t hn h
    cases t with
    | nil => cases h
    | cons c r =>
      by_cases ho : openBraces <+: c :: r
      · obtain ⟨r', hr'⟩ := exists_of_openBraces_prefix ho
        rw [hr'] at hn h ⊢
        obtain ⟨u, rfl, hu, he⟩ := ih r' (by simp at hn; omega) h
        exact ⟨'{' :: '{' :: u, rfl, hu, by rw [escape_pair, escape_pair, he, append_assoc]⟩
      · cases r with
        | nil =>
          have hc : c = '{' := by
            by_contra hc
            simp [leavesBrace, hc] at h
          subst hc
          exact ⟨[], rfl, rfl, by rw [escape_cons ho]; rfl⟩
        | cons d ds =>
          rw [leavesBrace_cons ho (by simp)] at h
          obtain ⟨u, hu, hl, he⟩ := ih (d :: ds) (by simpa using hn) h
          rw [escape_cons ho, he, hu]
          rw [hu] at ho
          have hcu : ¬ openBraces <+: c :: u := fun hp =>
            ho (hp.trans (prefix_append (c :: u) ['{']))
          refine ⟨c :: u, rfl, ?_, by rw [escape_cons hcu]; rfl⟩
          cases u with
          | nil =>
            have hc : c ≠ '{' := by
              rintro rfl
              exact ho (by simp [openBraces])
            simp [leavesBrace, hc]
          | cons e es => rw [leavesBrace_cons hcu (by simp), hl]

theorem braceRun_le (t : Str) : braceRun t ≤ t.length :=
  ( takeWhile_prefix _).length_le.trans (length_reverse ..).le

theorem braceRun_cons (c : Char) (r : Str) : braceRun (c :: r) =
    if braceRun r = r.length then r.length + (if c = '{' then 1 else 0) else braceRun r := by
  by_cases h : braceRun r = r.length
  · rw [if_pos h, braceRun, reverse_cons, takeWhile_append, if_pos (by rwa [length_reverse])]
    by_cases hc : c = '{' <;> simp [hc]
  · rw [if_neg h, braceRun, reverse_cons, takeWhile_append, if_neg (by rwa [length_reverse])]
    rfl

theorem braceRun_pair (r : Str) : braceRun ('{' :: '{' :: r) =
    if braceRun r = r.length then r.length + 2 else braceRun r := by
  have hle := braceRun_le r
  rw [braceRun_cons, braceRun_cons, length_cons]
  split
  · simp
  · rw [if_neg (by omega)]

/-- What is left by escaping from the left is the parity of the braces at the end. -/
theorem leavesBrace_eq_oddBraces (n : ℕ) : ∀ t : Str, t.length ≤ n →
    leavesBrace t = oddBraces t := by
  induction n with
  | zero =>
    intro t hn
    obtain rfl := length_eq_zero_iff.mp (Nat.le_zero.mp hn)
    rfl
  | succ n ih =>
    intro t hn
    cases t with
    | nil => rfl
    | cons c r =>
      by_cases ho : openBraces <+: c :: r
      · obtain ⟨r', hr'⟩ := exists_of_openBraces_prefix ho
        rw [hr'] at hn ⊢
        rw [leavesBrace, ih r' (by simp at hn; omega), oddBraces, oddBraces, braceRun_pair]
        split
        · next hall => rw [hall, Nat.add_mod_right]
        · rfl
      · cases r with
        | nil =>
          by_cases hc : c = '{'
          · subst hc; rfl
          · simp [leavesBrace, hc, oddBraces, braceRun]
        | cons d ds =>
          rw [leavesBrace_cons ho (by simp), ih _ (by simpa using hn), oddBraces, oddBraces,
            braceRun_cons c]
          split
          · next hall =>
            have hd : d = '{' := by
              have hle := braceRun_le ds
              rw [braceRun_cons, length_cons] at hall
              split at hall
              · by_contra hd
                rw [if_neg hd] at hall
                omega
              · omega
            have hc : c ≠ '{' := by
              rintro rfl
              exact ho ⟨ds, by rw [hd]; rfl⟩
            rw [hall, if_neg hc, Nat.add_zero]
          · rfl

/-! ## Reading an escaped literal back -/

/-- An escaped literal starts with a single brace only where the literal does. -/
theorem escape_brace_prefix {r tail : Str} (h : ['{'] <+: escape r ++ tail) :
    (r = [] ∧ ['{'] <+: tail) ∨ ∃ r', r = '{' :: r' := by
  cases r with
  | nil => exact .inl ⟨rfl, h⟩
  | cons d ds =>
    by_cases ho : openBraces <+: d :: ds
    · obtain ⟨r', hr'⟩ := exists_of_openBraces_prefix ho
      exact .inr ⟨_, hr'⟩
    · rw [escape_cons ho, cons_append, cons_prefix_cons] at h
      exact .inr ⟨ds, by rw [h.1]⟩

/-- An escaped literal starts with two braces only where it is empty or a single brace and the
following text supplies what is missing. -/
theorem escape_openBraces_prefix {r tail : Str} (h : openBraces <+: escape r ++ tail) :
    (r = [] ∧ openBraces <+: tail) ∨ (r = ['{'] ∧ ['{'] <+: tail) := by
  cases r with
  | nil => exact .inl ⟨rfl, h⟩
  | cons d ds =>
    by_cases ho : openBraces <+: d :: ds
    · obtain ⟨r', hr'⟩ := exists_of_openBraces_prefix ho
      rw [hr', escape_pair] at h
      simp [openBraces, escapedOpen] at h
    · rw [escape_cons ho, cons_append, openBraces, cons_prefix_cons] at h
      obtain ⟨rfl, h⟩ := h
      rcases escape_brace_prefix h with ⟨rfl, ht⟩ | ⟨r', rfl⟩
      · exact .inr ⟨rfl, ht⟩
      · exact absurd ⟨r', rfl⟩ ho

/-- What follows an escaped literal: the end of the text, or a `{{` that the literal leaves
alone. -/
def Separated (t tail : Str) : Prop :=
  tail = [] ∨ (openBraces <+: tail ∧ t.getLast? ≠ some '\\' ∧ leavesBrace t = false)

theorem Separated.tail {c : Char} {r tail : Str} (h : Separated (c :: r) tail)
    (ho : ¬ openBraces <+: c :: r) : Separated r tail := by
  rcases h with h | ⟨ht, hl, hb⟩
  · exact .inl h
  · refine .inr ⟨ht, ?_, ?_⟩ <;> cases r with
    | nil => simp [leavesBrace]
    | cons d ds => first
      | simpa [getLast?_cons_cons] using hl
      | rwa [leavesBrace_cons ho (by simp)] at hb

theorem Separated.of_pair {r tail : Str} (h : Separated ('{' :: '{' :: r) tail) :
    Separated r tail := by
  rcases h with h | ⟨ht, hl, hb⟩
  · exact .inl h
  · refine .inr ⟨ht, ?_, hb⟩
    cases r with
    | nil => simp
    | cons d ds => simpa [getLast?_cons_cons] using hl

/-- A character that starts no pair of braces in the literal starts nothing in the printed text
either. -/
theorem Separated.plain {c : Char} {r tail : Str} (h : Separated (c :: r) tail)
    (ho : ¬ openBraces <+: c :: r) : Plain (c :: (escape r ++ tail)) := by
  constructor <;> intro hp
  · obtain ⟨rfl, hq⟩ := cons_prefix_cons.mp hp
    rcases escape_openBraces_prefix hq with ⟨rfl, ht⟩ | ⟨rfl, ht⟩
    · rcases h with rfl | ⟨-, hl, -⟩
      · simp [openBraces] at ht
      · simp at hl
    · rcases h with rfl | ⟨-, -, hb⟩
      · simp at ht
      · simp [leavesBrace] at hb
  · obtain ⟨rfl, hq⟩ := cons_prefix_cons.mp hp
    rcases escape_brace_prefix hq with ⟨rfl, ht⟩ | ⟨r', rfl⟩
    · rcases h with rfl | ⟨-, -, hb⟩
      · simp at ht
      · simp [leavesBrace] at hb
    · exact ho ⟨r', rfl⟩

/-- **Reading an escaped literal gives the literal**, when what follows leaves it alone. -/
theorem scan_escape (source : Str) (n : ℕ) : ∀ (t tail text : Str) (segments : List Segment),
    t.length ≤ n → Separated t tail →
    scan source (escape t ++ tail) text segments = scan source tail (text ++ t) segments := by
  induction n with
  | zero =>
    intro t tail text segments hn _
    obtain rfl := length_eq_zero_iff.mp (Nat.le_zero.mp hn)
    simp
  | succ n ih =>
    intro t tail text segments hn h
    cases t with
    | nil => simp
    | cons c r =>
      by_cases ho : openBraces <+: c :: r
      · obtain ⟨r', hr'⟩ := exists_of_openBraces_prefix ho
        rw [hr'] at hn h ⊢
        rw [escape_pair, append_assoc, scan_escaped, ih r' _ _ _ (by simp at hn; omega) h.of_pair]
        simp [openBraces]
      · rw [escape_cons ho, cons_append, scan_cons _ _ _ (h.plain ho),
          ih r _ _ _ (by simpa using hn) (h.tail ho)]
        simp

/-! ## Reading a printed reference back -/

/-- The text between the braces of a printed reference. -/
def referenceBody : Segment → Str
  | .output node => node ++ outputField
  | _ => "input".toList

/-- A reference that a template can hold. -/
def ValidRef (s : Segment) : Prop := s = .input ∨ ∃ node, s = .output node ∧ isNodeId node = true

theorem segmentSource_ref {s : Segment} (h : ValidRef s) :
    Template.segmentSource s = openBraces ++ (referenceBody s ++ closeBraces) := by
  rcases h with rfl | ⟨node, rfl, -⟩
  · decide
  · show openBraces ++ node ++ outputField ++ closeBraces
      = openBraces ++ (node ++ outputField ++ closeBraces)
    simp only [append_assoc]

theorem isIdChar_of_mem {node : Str} (h : isNodeId node = true) {c : Char} (hc : c ∈ node) :
    isIdChar c = true := by
  rw [isNodeId, Bool.and_eq_true] at h
  exact all_eq_true.mp h.2 c hc

theorem isIdChar_bounds {c : Char} (h : isIdChar c = true) : 45 ≤ c.toNat ∧ c.toNat ≤ 122 := by
  rw [isIdChar, Bool.or_eq_true, Bool.or_eq_true, Bool.or_eq_true, beq_iff_eq, beq_iff_eq] at h
  rcases h with ((h | h) | rfl) | rfl
  · change (decide ('a'.val ≤ c.val) && decide (c.val ≤ 'z'.val)) = true at h
    rw [Bool.and_eq_true, decide_eq_true_eq, decide_eq_true_eq] at h
    have h1 : 97 ≤ c.toNat := UInt32.le_iff_toNat_le.mp h.1
    have h2 : c.toNat ≤ 122 := UInt32.le_iff_toNat_le.mp h.2
    omega
  · change (decide ('0'.val ≤ c.val) && decide (c.val ≤ '9'.val)) = true at h
    rw [Bool.and_eq_true, decide_eq_true_eq, decide_eq_true_eq] at h
    have h1 : 48 ≤ c.toNat := UInt32.le_iff_toNat_le.mp h.1
    have h2 : c.toNat ≤ 57 := UInt32.le_iff_toNat_le.mp h.2
    omega
  · decide
  · decide

theorem isWhitespace_eq_false {c : Char} (h1 : 45 ≤ c.toNat) (h2 : c.toNat ≤ 122) :
    isWhitespace c = false := by
  simp only [isWhitespace, Bool.or_eq_false_iff, Bool.and_eq_false_iff, decide_eq_false_iff_not,
    beq_eq_false_iff_ne]
  omega

/-- A text whose characters are all between `-` and `z`. -/
def inBounds (s : Str) : Bool := s.all fun c => 45 ≤ c.toNat && c.toNat ≤ 122

theorem inBounds_mem {s : Str} (h : inBounds s = true) {c : Char} (hc : c ∈ s) :
    45 ≤ c.toNat ∧ c.toNat ≤ 122 := by
  simpa using all_eq_true.mp h c hc

theorem referenceBody_bounds {s : Segment} (h : ValidRef s) {c : Char}
    (hc : c ∈ referenceBody s) : 45 ≤ c.toNat ∧ c.toNat ≤ 122 := by
  rcases h with rfl | ⟨node, rfl, hid⟩
  · exact inBounds_mem (by decide : inBounds "input".toList = true) hc
  · rcases mem_append.mp hc with hc | hc
    · exact isIdChar_bounds (isIdChar_of_mem hid hc)
    · exact inBounds_mem (by decide : inBounds outputField = true) hc

/-- A reference is closed by the first `}}` after it. -/
theorem dropInfix?_close {body : Str} (next : Str) (h : '}' ∉ body) :
    (body ++ (closeBraces ++ next)).dropInfix? closeBraces = some (body, next) := by
  rw [dropInfix?_eq_some_iff]
  refine ⟨⟨closeBraces, by simp, by simp⟩, ?_⟩
  intro pre close rest hsplit hclose
  obtain rfl := beq_iff_eq.mp hclose
  by_contra hlt
  have hlt : pre.length < body.length := by omega
  have hget := congrArg (·[pre.length]?) hsplit
  simp only [getElem?_append_left hlt, append_assoc, closeBraces,
    getElem?_append_right (Nat.le_refl pre.length), Nat.sub_self, cons_append,
    getElem?_cons_zero] at hget
  exact h (mem_of_getElem? hget)

theorem not_mem_referenceBody {s : Segment} (h : ValidRef s) : '}' ∉ referenceBody s := by
  intro hc
  have := (referenceBody_bounds h hc).2
  revert this
  decide

theorem reference_referenceBody {s : Segment} (h : ValidRef s) :
    reference (referenceBody s) = .ok s := by
  rcases h with rfl | ⟨node, rfl, hid⟩
  · decide
  · have hne : referenceBody (.output node) ≠ "input".toList := by
      intro he
      have hdot : '.' ∈ node ++ outputField :=
        mem_append_right node (by decide : '.' ∈ outputField)
      rw [referenceBody] at he
      rw [he] at hdot
      exact absurd hdot (by decide)
    have hd : (node ++ outputField).dropSuffix? outputField = some node :=
      dropSuffix?_eq_some_iff.mpr ⟨outputField, rfl, beq_self_eq_true _⟩
    rw [reference, if_neg hne]
    simp [referenceBody, hd, hid]

/-- **Reading a printed reference gives the reference.** -/
theorem scan_segmentSource (source tail text : Str) (segments : List Segment) {s : Segment}
    (h : ValidRef s) :
    scan source (Template.segmentSource s ++ tail) text segments
      = scan source tail [] (flush segments text ++ [s]) := by
  rw [segmentSource_ref h, append_assoc, append_assoc, scan_open,
    dropInfix?_close tail (not_mem_referenceBody h)]
  have ht : trim (referenceBody s) = referenceBody s := trim_eq_self fun c hc =>
    isWhitespace_eq_false (referenceBody_bounds h hc).1 (referenceBody_bounds h hc).2
  simp only [ht, reference_referenceBody h]

/-- A brace left over before a reference is read as part of it. -/
theorem reference_brace {s : Segment} (h : ValidRef s) :
    ∃ e, reference ('{' :: referenceBody s) = .error e := by
  rcases h with rfl | ⟨node, rfl, hid⟩
  · exact ⟨.unknownReference ('{' :: "input".toList), by decide⟩
  · have hne : '{' :: referenceBody (.output node) ≠ "input".toList := by
      intro he
      have hi : "input".toList = 'i' :: "nput".toList := by decide
      rw [hi, List.cons.injEq] at he
      exact absurd he.1 (by decide)
    have hd : ('{' :: (node ++ outputField)).dropSuffix? outputField = some ('{' :: node) :=
      dropSuffix?_eq_some_iff.mpr ⟨outputField, rfl, beq_self_eq_true _⟩
    refine ⟨.unknownReference ('{' :: (node ++ outputField)), ?_⟩
    rw [reference, if_neg hne]
    simp only [referenceBody, hd]
    rw [if_neg]
    simp [isNodeId, isIdChar]

/-! ## Round trips -/

def printed (segments : List Segment) : Str := segments.flatMap Template.segmentSource

theorem printed_text_cons (t : Str) (rest : List Segment) :
    printed (.text t :: rest) = escape t ++ printed rest := rfl

theorem printed_cons (s : Segment) (rest : List Segment) :
    printed (s :: rest) = Template.segmentSource s ++ printed rest := rfl

theorem Normal.tail {s : Segment} {rest : List Segment} (h : Normal (s :: rest)) : Normal rest := by
  cases s with
  | text t => exact h.2.2
  | input => exact h
  | output node => exact h.2

theorem Normal.validRef {s : Segment} {rest : List Segment} (h : Normal (s :: rest))
    (hs : s.isText = false) : ValidRef s := by
  cases s with
  | text t => cases hs
  | input => exact .inl rfl
  | output node => exact .inr ⟨node, rfl, h.1⟩

/-- The text printed after a literal either is empty or starts with the reference that follows. -/
theorem separated_printed {t : Str} {rest : List Segment} (hf : mayFollow t rest)
    (hr : Normal rest) (hb : rest ≠ [] → oddBraces t = false) : Separated t (printed rest) := by
  cases rest with
  | nil => exact .inl rfl
  | cons s more =>
    refine .inr ⟨?_, hf.2.1, ?_⟩
    · rw [printed_cons, segmentSource_ref (hr.validRef hf.1), append_assoc]
      exact prefix_append _ _
    · rw [leavesBrace_eq_oddBraces _ t (Nat.le_refl _)]
      exact hb (by simp)

theorem scan_printed (source : Str) : ∀ (segments before : List Segment),
    Normal segments → looseBrace segments = false →
    scan source (printed segments) [] before = .ok (before ++ segments)
  | [], before, _, _ => by simp [printed, flush]
  | .text t :: [], before, h, _ => by
    have hne : t ≠ [] := h.1
    rw [printed_text_cons, scan_escape source _ t (printed []) _ _ (Nat.le_refl _) (.inl rfl)]
    simp [printed, flush, hne]
  | .text t :: s :: rest, before, h, hb => by
    rw [looseBrace, Bool.or_eq_false_iff] at hb
    have hs : s.isText = false := h.2.1.1
    have ho : oddBraces t = false := by simpa [hs] using hb.1
    have hne : t ≠ [] := h.1
    have hrest : looseBrace rest = false := by
      cases s with
      | text _ => cases hs
      | input | output _ => exact hb.2
    rw [printed_text_cons, scan_escape source _ t _ _ _ (Nat.le_refl _)
      (separated_printed h.2.1 h.tail fun _ => ho), nil_append, printed_cons,
      scan_segmentSource _ _ _ _ (h.tail.validRef hs),
      scan_printed source rest _ h.tail.tail hrest]
    simp [flush, hne]
  | .input :: rest, before, h, hb => by
    rw [printed_cons, scan_segmentSource _ _ _ _ (h.validRef rfl),
      scan_printed source rest _ h.tail hb]
    simp [flush]
  | .output node :: rest, before, h, hb => by
    rw [printed_cons, scan_segmentSource _ _ _ _ (h.validRef rfl),
      scan_printed source rest _ h.tail hb]
    simp [flush]

/-- **Printing and parsing are inverse** on normal segments without a loose brace. -/
theorem parse_toSource {t : Template} (h : Normal t.segments)
    (hb : looseBrace t.segments = false) : Template.parse t.toSource = .ok t := by
  have hs := scan_printed t.toSource t.segments [] h hb
  rw [Template.parse_eq_scan]
  show (scan t.toSource (printed t.segments) [] []).map Template.mk = _
  rw [hs]
  rfl

/-- The literal with the loose brace is read up to its last brace, and the rest fails. -/
theorem scan_printed_brace (source : Str) {t text : Str} {s : Segment} {rest before : List Segment}
    (ht : Closed t) (hs : ValidRef s) (ho : oddBraces t = true) :
    ∃ e, scan source (escape t ++ (Template.segmentSource s ++ printed rest)) text before
      = .error e := by
  have hl : leavesBrace t = true := by
    rwa [leavesBrace_eq_oddBraces _ t (Nat.le_refl _)]
  obtain ⟨u, rfl, hu, he⟩ := leavesBrace_split _ t (Nat.le_refl _) hl
  have hrun : braceRun u ≠ 0 := by
    have := ht.2
    rw [braceRun_append_brace] at this
    omega
  have hlast : u.getLast? ≠ some '\\' := by
    intro hlast
    obtain ⟨v, rfl⟩ := getLast?_eq_some_iff.mp hlast
    exact hrun (braceRun_append_of_ne v (by decide))
  obtain ⟨e, hrefuse⟩ := reference_brace hs
  have hbrace : '}' ∉ '{' :: referenceBody s := by
    simpa using not_mem_referenceBody hs
  have htrim : trim ('{' :: referenceBody s) = '{' :: referenceBody s := by
    refine trim_eq_self fun c hc => ?_
    rcases mem_cons.mp hc with rfl | hc
    · decide
    · exact isWhitespace_eq_false (referenceBody_bounds hs hc).1 (referenceBody_bounds hs hc).2
  have hshape : escape (u ++ ['{']) ++ (Template.segmentSource s ++ printed rest)
      = escape u ++ (openBraces ++ ('{' :: referenceBody s ++ (closeBraces ++ printed rest))) := by
    rw [he, segmentSource_ref hs]
    simp [openBraces]
  refine ⟨e, ?_⟩
  rw [hshape, scan_escape source _ u _ _ _ (Nat.le_refl _)
    (.inr ⟨prefix_append _ _, hlast, hu⟩), scan_open, dropInfix?_close _ hbrace]
  simp only [htrim, hrefuse]

theorem scan_printed_looseBrace (source : Str) : ∀ (segments before : List Segment),
    Normal segments → looseBrace segments = true →
    ∃ e, scan source (printed segments) [] before = .error e
  | [], _, _, hb => by cases hb
  | .text _ :: [], _, _, hb => by cases hb
  | .text t :: s :: rest, before, h, hb => by
    have hs : s.isText = false := h.2.1.1
    rw [printed_text_cons, printed_cons]
    cases ho : oddBraces t with
    | true => exact scan_printed_brace source h.2.1.2 (h.tail.validRef hs) ho
    | false =>
      have hrest : looseBrace rest = true := by
        rw [looseBrace, ho, Bool.and_false, Bool.false_or] at hb
        cases s with
        | text _ => cases hs
        | input | output _ => exact hb
      rw [← printed_cons, scan_escape source _ t _ _ _ (Nat.le_refl _)
        (separated_printed h.2.1 h.tail fun _ => ho), nil_append, printed_cons,
        scan_segmentSource _ _ _ _ (h.tail.validRef hs)]
      exact scan_printed_looseBrace source rest _ h.tail.tail hrest
  | .input :: rest, before, h, hb => by
    rw [printed_cons, scan_segmentSource _ _ _ _ (h.validRef rfl)]
    exact scan_printed_looseBrace source rest _ h.tail hb
  | .output node :: rest, before, h, hb => by
    rw [printed_cons, scan_segmentSource _ _ _ _ (h.validRef rfl)]
    exact scan_printed_looseBrace source rest _ h.tail hb

/-- **A loose brace makes the printed text invalid.** -/
theorem parse_toSource_looseBrace {t : Template} (h : Normal t.segments)
    (hb : looseBrace t.segments = true) : ∃ e, Template.parse t.toSource = .error e := by
  obtain ⟨e, he⟩ := scan_printed_looseBrace t.toSource t.segments [] h hb
  refine ⟨e, ?_⟩
  rw [Template.parse_eq_scan]
  show (scan t.toSource (printed t.segments) [] []).map Template.mk = _
  rw [he]
  rfl

end NiumaTerm.Orchestration
