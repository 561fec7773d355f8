import NiumaTerm.Terminal.PromptSniffer
import Mathlib.Data.List.Infix

/-!
# What the sniffer does to a list of bytes

The sniffer of the source computes with indices; `parseOsc` and `scan` say the same of lists of bytes, with a
piece for each byte (`Piece`) and without segments.
-/

namespace NiumaTerm.Terminal

open Rust Endian List

/-! ## The end of a mark -/

/-- How a mark ends: after some bytes, with a terminator of one or two bytes. -/
inductive Ending
  | ends (after width : ℕ)
  | incomplete
  | malformed

def Ending.later : Ending → Ending
  | .ends after width => .ends (after + 1) width
  | .incomplete => .incomplete
  | .malformed => .malformed

/-- The end of a mark that may go on for so many bytes. -/
def ending : ℕ → Bytes → Ending
  | 0, _ => .malformed
  | _ + 1, [] => .incomplete
  | n + 1, b :: rest =>
    if b = bel then .ends 0 1
    else if b = esc then
      if rest = [] then .incomplete else if rest.head? = some backslash then .ends 0 2 else .malformed
    else (ending n rest).later

section

variable {n k w : ℕ} {l t : Bytes}

theorem later_eq_ends {e : Ending} (h : e.later = .ends k w) : ∃ j, k = j + 1 ∧ e = .ends j w := by
  cases e with
  | ends after width =>
    cases h
    exact ⟨after, rfl, rfl⟩
  | incomplete | malformed => cases h

theorem later_eq_incomplete {e : Ending} (h : e.later = .incomplete) : e = .incomplete := by
  cases e with
  | incomplete => rfl
  | ends | malformed => cases h

/-- More bytes do not change an end. -/
theorem ending_append (h : ending n l ≠ .incomplete) : ending n (l ++ t) = ending n l := by
  induction n generalizing l with
  | zero => rfl
  | succ n ih =>
    cases l with
    | nil => exact absurd rfl h
    | cons b rest =>
      rw [cons_append, ending, ending] at *
      by_cases hbel : b = bel
      · rw [if_pos hbel, if_pos hbel]
      · rw [if_neg hbel] at h
        rw [if_neg hbel, if_neg hbel]
        by_cases hesc : b = esc
        · rw [if_pos hesc] at h
          rw [if_pos hesc, if_pos hesc]
          have hrest : rest ≠ [] := fun hr => h (if_pos hr)
          rw [if_neg hrest, if_neg (append_ne_nil_of_left_ne_nil hrest t), head?_append_of_ne_nil _ hrest]
        · rw [if_neg hesc] at h
          rw [if_neg hesc, if_neg hesc, ih]
          intro hi
          rw [hi] at h
          exact h rfl

/-- An end is within the bytes, and these bytes have it. -/
theorem ending_ends (h : ending n l = .ends k w) :
    0 < w ∧ k + w ≤ l.length ∧ ending n (l.take (k + w)) = .ends k w ∧ esc ∉ l.take k := by
  induction n generalizing l k with
  | zero => cases h
  | succ n ih =>
    cases l with
    | nil => cases h
    | cons b rest =>
      rw [ending] at h
      by_cases hbel : b = bel
      · rw [if_pos hbel] at h
        cases h
        exact ⟨Nat.one_pos, Nat.succ_le_succ (Nat.zero_le _), by rw [take_succ_cons, ending, if_pos hbel],
          not_mem_nil⟩
      · rw [if_neg hbel] at h
        by_cases hesc : b = esc
        · rw [if_pos hesc] at h
          by_cases hrest : rest = []
          · rw [if_pos hrest] at h
            cases h
          · rw [if_neg hrest] at h
            by_cases hnext : rest.head? = some backslash
            · rw [if_pos hnext] at h
              cases h
              obtain ⟨more, rfl⟩ := head?_eq_some_iff.mp hnext
              refine ⟨Nat.two_pos, by simp, ?_, not_mem_nil⟩
              rw [take_succ_cons, ending, if_neg hbel, if_pos hesc]
              rfl
            · rw [if_neg hnext] at h
              cases h
        · rw [if_neg hesc] at h
          obtain ⟨j, rfl, hj⟩ := later_eq_ends h
          obtain ⟨hw, hlen, htake, hnot⟩ := ih hj
          refine ⟨hw, by rw [length_cons]; omega, ?_, ?_⟩
          · rw [Nat.add_right_comm, take_succ_cons, ending, if_neg hbel, if_neg hesc, htake]
            rfl
          · rw [take_succ_cons, mem_cons, not_or]
            exact ⟨fun he => hesc he.symm, hnot⟩

/-- Of a mark that is not over, only the last byte can be an ESC. -/
theorem ending_incomplete (h : ending n l = .incomplete) : l.length ≤ n ∧ esc ∉ l.dropLast ∧
    (l.length = n → l ≠ [] ∧ l.getLast? = some esc) := by
  induction n generalizing l with
  | zero => cases h
  | succ n ih =>
    cases l with
    | nil => exact ⟨Nat.zero_le _, not_mem_nil, fun h => absurd h (Nat.succ_ne_zero n).symm⟩
    | cons b rest =>
      rw [ending] at h
      by_cases hbel : b = bel
      · rw [if_pos hbel] at h
        cases h
      · rw [if_neg hbel] at h
        by_cases hesc : b = esc
        · rw [if_pos hesc] at h
          cases rest with
          | nil => exact ⟨Nat.succ_le_succ (Nat.zero_le n), not_mem_nil, fun _ => ⟨cons_ne_nil _ _, by rw [hesc]; rfl⟩⟩
          | cons next rest =>
            rw [if_neg (cons_ne_nil next rest)] at h
            split at h <;> cases h
        · rw [if_neg hesc] at h
          obtain ⟨hlen, hnot, hfull⟩ := ih (later_eq_incomplete h)
          cases rest with
          | nil =>
            refine ⟨Nat.succ_le_succ hlen, not_mem_nil, fun hn => ?_⟩
            exact absurd rfl (hfull (Nat.succ.inj hn)).1
          | cons next rest =>
            refine ⟨Nat.succ_le_succ hlen, ?_, fun hn => ⟨cons_ne_nil _ _, ?_⟩⟩
            · rw [dropLast_cons_cons, mem_cons, not_or]
              exact ⟨fun he => hesc he.symm, hnot⟩
            · rw [getLast?_cons_cons]
              exact (hfull (Nat.succ.inj hn)).2

end

/-! ## Parsing -/

section

variable (base64 : Bytes → Option Bytes)

def limitOf (sub : UInt8) : ℕ := if sub = 'C'.toUInt8 then osc133Max else shortMarkMax

/-- The mark whose arguments are those bytes. -/
def markOf (sub : UInt8) (len : ℕ) (args : Bytes) : SniffedOsc :=
  .mark len sub (exitOf sub args) (regionFor sub) (cmdlineOf base64 sub args)

/-- The mark that has those bytes after its introducer. -/
def parseArgs (sub : UInt8) (rest : Bytes) : SniffedOsc :=
  match ending (limitOf sub - osc133Prefix.length) rest with
  | .ends after width =>
    markOf base64 sub (osc133Prefix.length + after + width)
      (if sub = 'C'.toUInt8 ∨ sub = 'D'.toUInt8 then (rest.take after).tail else [])
  | .incomplete => .incomplete
  | .malformed => .malformed

def parseOsc (s : Bytes) : SniffedOsc :=
  if osc133Prefix <+: s then
    match (s.drop osc133Prefix.length).head? with
    | none => .incomplete
    | some sub => parseArgs base64 sub (s.drop osc133Prefix.length)
  else if s <+: osc133Prefix then .incomplete
  else .notMark

variable {base64} {s t : Bytes} {sub : UInt8}

theorem slice_eq {first last : ℕ} (hle : first ≤ last) (hlast : last ≤ s.length) :
    slice s first last = some ((s.take last).drop first) := if_pos ⟨hle, hlast⟩

theorem slice_front {n : ℕ} (h : n ≤ s.length) : slice s 0 n = some (s.take n) := slice_eq (Nat.zero_le n) h

theorem slice_suffix {n : ℕ} (h : n ≤ s.length) : slice s n s.length = some (s.drop n) := by
  rw [slice_eq h (Nat.le_refl _), take_length]

/-- Only the letters that take arguments look at them, and these are no terminator. -/
theorem sniffedMark_eq {len term : ℕ} (hsub : s[osc133Prefix.length]? = some sub) (hterm : osc133Prefix.length ≤ term)
    (hlen : term < s.length) {b : UInt8} (hb : s[term]? = some b) (hend : b = bel ∨ b = esc) :
    sniffedMark base64 s sub len term = some (markOf base64 sub len
      (if sub = 'C'.toUInt8 ∨ sub = 'D'.toUInt8 then (s.take term).drop (osc133Prefix.length + 1) else [])) := by
  unfold sniffedMark
  by_cases hargs : sub = 'C'.toUInt8 ∨ sub = 'D'.toUInt8
  · have hne : osc133Prefix.length ≠ term := by
      rintro rfl
      rw [hsub, Option.some.injEq] at hb
      subst hb
      rcases hargs with rfl | rfl
      · exact absurd hend (by decide)
      · exact absurd hend (by decide)
    rw [if_pos hargs, if_pos hargs, slice_eq (Nat.lt_of_le_of_ne hterm hne) (Nat.le_of_lt hlen)]
    rfl
  · rw [if_neg hargs, if_neg hargs]
    rfl

variable (base64) in
theorem findTerminator_eq {limit n i : ℕ} (hsub : s[osc133Prefix.length]? = some sub) (hi : osc133Prefix.length ≤ i)
    (hn : n = min s.length limit - i) (hle : i ≤ min s.length limit) :
    findTerminator base64 s sub limit n i = some (match ending (limit - i) (s.drop i) with
      | .ends after width => markOf base64 sub (i + after + width)
          (if sub = 'C'.toUInt8 ∨ sub = 'D'.toUInt8 then (s.take (i + after)).drop (osc133Prefix.length + 1) else [])
      | .incomplete => .incomplete
      | .malformed => .malformed) := by
  induction n generalizing i with
  | zero =>
    rw [findTerminator]
    by_cases hshort : s.length < limit
    · have hend : s.drop i = [] := drop_eq_nil_of_le (by omega)
      obtain ⟨m, hm⟩ : ∃ m, limit - i = m + 1 := ⟨limit - i - 1, by omega⟩
      rw [if_pos hshort, hend, hm, ending]
    · have hend : limit - i = 0 := by omega
      rw [if_neg hshort, hend, ending]
  | succ n ih =>
    have hlt : i < s.length := by omega
    have hb : s[i]? = some s[i] := getElem?_eq_getElem hlt
    obtain ⟨m, hm⟩ : ∃ m, limit - i = m + 1 := ⟨limit - i - 1, by omega⟩
    rw [findTerminator, hb, drop_eq_getElem_cons hlt, hm, ending]
    dsimp only [Option.bind_eq_bind, Option.bind_some]
    generalize s[i] = b at hb ⊢
    by_cases hbel : b = bel
    · rw [if_pos hbel, if_pos hbel, sniffedMark_eq hsub hi hlt hb (.inl hbel)]
      rfl
    · rw [if_neg hbel, if_neg hbel]
      by_cases hesc : b = esc
      · rw [if_pos hesc, if_pos hesc]
        by_cases hmore : i + 1 < s.length
        · have hrest : s.drop (i + 1) ≠ [] := fun h => by
            rw [drop_eq_nil_iff] at h
            omega
          have hnext : s[i + 1]? = some s[i + 1] := getElem?_eq_getElem hmore
          have hhead : (s.drop (i + 1)).head? = some s[i + 1] := by rw [head?_drop, hnext]
          rw [if_pos hmore, if_neg hrest, hhead, hnext]
          dsimp only [Option.bind_some]
          by_cases hst : s[i + 1] = backslash
          · rw [if_pos hst, if_pos (by rw [hst]), sniffedMark_eq hsub hi hlt hb (.inr hesc)]
            rfl
          · rw [if_neg hst, if_neg (by rwa [Option.some.injEq])]
        · rw [if_neg hmore, if_pos (drop_eq_nil_of_le (by omega))]
      · rw [if_neg hesc, if_neg hesc, ih (by omega) (by omega) (by omega), Nat.sub_add_eq, hm, Nat.add_sub_cancel]
        cases ending m (s.drop (i + 1)) with
        | ends after width => simp only [Ending.later, Nat.add_assoc, Nat.add_comm 1]
        | incomplete | malformed => rfl

/-- Parsing never panics. -/
theorem parseSniffedOsc_eq (s : Bytes) : parseSniffedOsc base64 s = some (parseOsc base64 s) := by
  unfold parseSniffedOsc
  dsimp only
  rw [slice_front (Nat.min_le_left ..), slice_front (Nat.min_le_right ..)]
  dsimp only [Option.bind_eq_bind, Option.bind_some]
  by_cases hp : osc133Prefix <+: s
  · obtain ⟨rest, rfl⟩ := hp
    have hmin : min (osc133Prefix ++ rest).length osc133Prefix.length = osc133Prefix.length := by simp
    have hdrop : (osc133Prefix ++ rest).drop osc133Prefix.length = rest := drop_left
    rw [hmin, take_left, take_length, if_neg (not_not.mpr rfl), parseOsc, if_pos (prefix_append ..), hdrop]
    cases rest with
    | nil => rfl
    | cons sub rest =>
      have hsub : (osc133Prefix ++ sub :: rest)[osc133Prefix.length]? = some sub := by
        rw [getElem?_append_right (Nat.le_refl _), Nat.sub_self]
        rfl
      rw [if_neg (by simp), hsub]
      dsimp only [Option.bind_some, head?_cons]
      have hlimit : osc133Prefix.length ≤ limitOf sub := by
        unfold limitOf
        split <;> decide
      have hlen : osc133Prefix.length ≤ (osc133Prefix ++ sub :: rest).length := by simp
      have hfind := findTerminator_eq base64 hsub (Nat.le_refl _) rfl (Nat.le_min.mpr ⟨hlen, hlimit⟩)
      rw [hdrop] at hfind
      refine hfind.trans (congrArg some ?_)
      unfold parseArgs
      cases ending (limitOf sub - osc133Prefix.length) (sub :: rest) with
      | ends after width =>
        dsimp only
        rw [take_length_add_append, drop_length_add_append, drop_one]
      | incomplete | malformed => rfl
  · rw [parseOsc, if_neg hp]
    by_cases hs : s <+: osc133Prefix
    · have hle := hs.length_le
      rw [Nat.min_eq_left hle, take_length, if_neg (not_not.mpr (prefix_iff_eq_take.mp hs)), if_pos hle,
        if_pos hs]
    · have hne : s.take (min s.length osc133Prefix.length) ≠ osc133Prefix.take (min s.length osc133Prefix.length) := by
        intro h
        rcases Nat.le_total s.length osc133Prefix.length with hle | hle
        · rw [Nat.min_eq_left hle, take_length] at h
          exact hs (prefix_iff_eq_take.mpr h)
        · rw [Nat.min_eq_right hle, take_length] at h
          exact hp (prefix_iff_eq_take.mpr h.symm)
      rw [if_pos hne, if_neg hs]

theorem parseArgs_append {rest : Bytes} (h : parseArgs base64 sub rest ≠ .incomplete) :
    parseArgs base64 sub (rest ++ t) = parseArgs base64 sub rest := by
  unfold parseArgs at h ⊢
  have hne : ending (limitOf sub - osc133Prefix.length) rest ≠ .incomplete := by
    intro hi
    rw [hi] at h
    exact h rfl
  rw [ending_append hne]
  cases he : ending (limitOf sub - osc133Prefix.length) rest with
  | ends after width =>
    obtain ⟨-, hlen, -⟩ := ending_ends he
    dsimp only
    rw [take_append_of_le_length (Nat.le_trans (Nat.le_add_right ..) hlen)]
  | incomplete | malformed => rfl

theorem parseOsc_prefix {rest : Bytes} : parseOsc base64 (osc133Prefix ++ sub :: rest) = parseArgs base64 sub (sub :: rest) := by
  rw [parseOsc, if_pos (prefix_append ..), drop_left]
  rfl

variable (base64) in
theorem parseOsc_cases (s : Bytes) :
    (∃ sub rest, s = osc133Prefix ++ sub :: rest ∧ parseOsc base64 s = parseArgs base64 sub (sub :: rest)) ∨
      s <+: osc133Prefix ∧ parseOsc base64 s = .incomplete ∨
      ¬ osc133Prefix <+: s ∧ ¬ s <+: osc133Prefix ∧ parseOsc base64 s = .notMark := by
  by_cases hp : osc133Prefix <+: s
  · obtain ⟨rest, rfl⟩ := hp
    cases rest with
    | nil =>
      rw [append_nil]
      exact .inr (.inl ⟨prefix_refl _, rfl⟩)
    | cons sub rest => exact .inl ⟨sub, rest, rfl, parseOsc_prefix⟩
  · by_cases hs : s <+: osc133Prefix
    · exact .inr (.inl ⟨hs, by rw [parseOsc, if_neg hp, if_pos hs]⟩)
    · exact .inr (.inr ⟨hp, hs, by rw [parseOsc, if_neg hp, if_neg hs]⟩)

variable (base64) in
/-- **More bytes do not change what is decided.** -/
theorem parseOsc_append (h : parseOsc base64 s ≠ .incomplete) : parseOsc base64 (s ++ t) = parseOsc base64 s := by
  rcases parseOsc_cases base64 s with ⟨sub, rest, rfl, hs⟩ | ⟨-, hs⟩ | ⟨hp, hpre, hs⟩
  · rw [hs] at h ⊢
    rw [append_assoc, cons_append, parseOsc_prefix, ← cons_append, parseArgs_append h]
  · exact absurd hs h
  · rw [hs, parseOsc, if_neg, if_neg]
    · exact fun hle => hpre ((prefix_append s t).trans hle)
    · intro hle
      exact ( prefix_or_prefix_of_prefix hle (prefix_append s t)).elim hp hpre

section

variable {len : ℕ} {letter : UInt8} {exit : Option ℤ} {next : Option PromptRegion} {cmdline : Option Str}

theorem parseArgs_mark {rest : Bytes} (h : parseArgs base64 sub rest = .mark len letter exit next cmdline) :
    ∃ n, len = osc133Prefix.length + n ∧ 0 < n ∧ n ≤ rest.length ∧
      parseArgs base64 sub (rest.take n) = .mark len letter exit next cmdline := by
  unfold parseArgs at h ⊢
  cases he : ending (limitOf sub - osc133Prefix.length) rest with
  | ends after width =>
    obtain ⟨hw, hlen, htake, -⟩ := ending_ends he
    rw [he] at h
    have hargs : (rest.take (after + width)).take after = rest.take after := by
      rw [take_take, Nat.min_eq_left (Nat.le_add_right ..)]
    refine ⟨after + width, ?_, Nat.add_pos_right after hw, hlen, ?_⟩
    · have hl := h
      simp only [markOf, SniffedOsc.mark.injEq] at hl
      rw [← hl.1, Nat.add_assoc]
    · rw [htake]
      dsimp only
      rw [hargs]
      exact h
  | incomplete | malformed =>
    rw [he] at h
    cases h

/-- A mark is among the bytes, and its own bytes are the mark. -/
theorem parseOsc_mark (h : parseOsc base64 s = .mark len letter exit next cmdline) :
    osc133Prefix.length < len ∧ len ≤ s.length ∧
      parseOsc base64 (s.take len) = .mark len letter exit next cmdline := by
  rcases parseOsc_cases base64 s with ⟨sub, rest, rfl, hs⟩ | ⟨-, hs⟩ | ⟨-, -, hs⟩
  · rw [hs] at h
    obtain ⟨n, rfl, hpos, hlen, htake⟩ := parseArgs_mark h
    refine ⟨Nat.lt_add_of_pos_right hpos, ?_, ?_⟩
    · rw [length_append]
      exact Nat.add_le_add_left hlen _
    · obtain ⟨m, rfl⟩ := Nat.exists_eq_succ_of_ne_zero (Nat.ne_of_gt hpos)
      rw [take_length_add_append, take_succ_cons, parseOsc_prefix]
      exact htake
  · rw [hs] at h
    cases h
  · rw [hs] at h
    cases h

end

theorem limitOf_le (sub : UInt8) : limitOf sub ≤ osc133Max := by
  unfold limitOf
  split <;> decide

/-- What waits for more bytes: an ESC, then bytes without an ESC, then perhaps the ESC of a terminator. -/
theorem parseOsc_incomplete (h : parseOsc base64 s = .incomplete) (hne : s ≠ []) :
    s.length ≤ osc133Max ∧ (s.length = osc133Max → s.getLast? = some esc) ∧
      ∃ mid last, s = esc :: mid ++ last ∧ esc ∉ mid ∧ (last = [] ∨ last = [esc]) := by
  rcases parseOsc_cases base64 s with ⟨sub, rest, rfl, hs⟩ | ⟨hpre, -⟩ | ⟨-, -, hs⟩
  · rw [hs] at h
    have he : ending (limitOf sub - osc133Prefix.length) (sub :: rest) = .incomplete := by
      unfold parseArgs at h
      cases he : ending (limitOf sub - osc133Prefix.length) (sub :: rest) with
      | incomplete => rfl
      | ends | malformed =>
        rw [he] at h
        cases h
    obtain ⟨hlen, hnot, hfull⟩ := ending_incomplete he
    have hlimit := limitOf_le sub
    have hmin : osc133Prefix.length ≤ limitOf sub := by
      unfold limitOf
      split <;> decide
    rw [length_append]
    have hfront : esc ∉ osc133Prefix.tail := by decide
    have hsplit : (sub :: rest).dropLast ++ [(sub :: rest).getLast (cons_ne_nil _ _)] = sub :: rest :=
      dropLast_append_getLast _
    refine ⟨by omega, fun hmax => ?_, ?_⟩
    · rw [getLast?_append_of_ne_nil _ (cons_ne_nil _ _)]
      exact (hfull (by omega)).2
    · by_cases hlast : (sub :: rest).getLast (cons_ne_nil _ _) = esc
      · refine ⟨osc133Prefix.tail ++ (sub :: rest).dropLast, [esc], ?_, ?_, .inr rfl⟩
        · rw [hlast] at hsplit
          conv_lhs => rw [← hsplit]
          rw [← append_assoc]
          rfl
        · rw [mem_append, not_or]
          exact ⟨hfront, hnot⟩
      · refine ⟨osc133Prefix.tail ++ (sub :: rest), [], ?_, ?_, .inl rfl⟩
        · rw [append_nil]
          rfl
        · rw [mem_append, not_or, ← hsplit, mem_append, not_or, mem_singleton]
          exact ⟨hfront, hnot, fun he => hlast he.symm⟩
  · have hle := hpre.length_le
    have hshort : osc133Prefix.length < osc133Max := by decide
    obtain ⟨more, hmore⟩ := hpre
    cases s with
    | nil => exact absurd rfl hne
    | cons b s =>
      rw [cons_append, osc133Prefix, List.cons.injEq] at hmore
      obtain ⟨rfl, hs⟩ := hmore
      refine ⟨Nat.le_of_lt (Nat.lt_of_le_of_lt hle hshort), fun hmax => ?_, s, [], by rw [append_nil]; rfl, ?_, .inl rfl⟩
      · omega
      · intro hmem
        have : esc ∈ s ++ more := mem_append_left _ hmem
        rw [hs] at this
        revert this
        decide
  · rw [hs] at h
    cases h

end

/-! ## The main scan -/

/-- What becomes of each byte. -/
inductive Piece
  | byte (region : PromptRegion) (trusted : Bool) (b : UInt8)
  | mark (mark : SnifferMark)
  | reset
  deriving DecidableEq

def SnifferEvent.pieces : SnifferEvent → List Piece
  | .forward region trusted bytes => bytes.map (.byte region trusted)
  | .mark m => [.mark m]
  | .reset => [.reset]

def flat (r : PromptSniffer × List SnifferEvent) : PromptSniffer × List Piece := (r.1, r.2.flatMap SnifferEvent.pieces)

namespace PromptSniffer

variable (base64 : Bytes → Option Bytes)

/-- Bytes that are no mark. -/
def put (s : PromptSniffer) (bytes : Bytes) : PromptSniffer × List Piece :=
  (s.preForward bytes, bytes.map (.byte s.region s.boundaryTrusted))

/-- One thing after another. -/
def andThen (r : PromptSniffer × List Piece) (f : PromptSniffer → PromptSniffer × List Piece) :
    PromptSniffer × List Piece :=
  ((f r.1).1, r.2 ++ (f r.1).2)

def scan (s : PromptSniffer) (input : Bytes) : PromptSniffer × List Piece :=
  match input with
  | [] => (s, [])
  | b :: rest =>
    if b = esc then
      match parseOsc base64 (b :: rest) with
      | .mark len sub exit next cmdline =>
        andThen (flat (s.onMark sub exit next cmdline ((b :: rest).take len))) fun s => scan s (rest.drop (len - 1))
      | .incomplete => ({ s with carry := b :: rest }, [])
      | .notMark => andThen (s.put [b]) fun s => scan s rest
      | .malformed => andThen (s.resetBoundaryState, [.reset]) fun s => andThen (s.put [b]) fun s => scan s rest
    else andThen (s.put [b]) fun s => scan s rest
termination_by input.length
decreasing_by
  all_goals simp only [length_cons, length_drop]
  all_goals omega

section

variable {s : PromptSniffer} {a b : Bytes} {base64 : Bytes → Option Bytes}

@[simp] theorem preForward_region : (s.preForward a).region = s.region := by
  unfold preForward
  split <;> rfl

@[simp] theorem preForward_boundaryTrusted : (s.preForward a).boundaryTrusted = s.boundaryTrusted := by
  unfold preForward
  split <;> rfl

@[simp] theorem preForward_carry : (s.preForward a).carry = s.carry := by
  unfold preForward
  split <;> rfl

theorem preForward_append : (s.preForward a).preForward b = s.preForward (a ++ b) := by
  by_cases h : s.region = .command
  · simp [preForward, h]
  · simp [preForward, h]

@[simp] theorem preForward_nil : s.preForward [] = s := by
  unfold preForward
  split
  · rw [append_nil]
  · rfl

@[simp] theorem put_nil : s.put [] = (s, []) := by
  rw [put, preForward_nil, map_nil]

theorem andThen_assoc (r : PromptSniffer × List Piece) (f g : PromptSniffer → PromptSniffer × List Piece) :
    andThen (andThen r f) g = andThen r fun s => andThen (f s) g := by
  simp only [andThen, append_assoc]

@[simp] theorem nil_andThen (f : PromptSniffer → PromptSniffer × List Piece) : andThen (s, []) f = f s := rfl

@[simp] theorem andThen_done (r : PromptSniffer × List Piece) : (andThen r fun s => (s, [])) = r := by
  simp [andThen]

theorem put_append : s.put (a ++ b) = andThen (s.put a) fun s => s.put b := by
  simp only [put, andThen, preForward_append, preForward_region, preForward_boundaryTrusted, map_append]

theorem scan_nil : scan base64 s [] = (s, []) := by
  rw [scan]

variable (base64) in
/-- Bytes up to the next ESC. -/
theorem scan_plain (h : esc ∉ a) : scan base64 s (a ++ b) = andThen (s.put a) fun s => scan base64 s b := by
  induction a generalizing s with
  | nil => rw [nil_append, put_nil, nil_andThen]
  | cons x a ih =>
    rw [mem_cons, not_or] at h
    have hx : ¬ x = esc := fun he => h.1 he.symm
    rw [cons_append, scan, if_neg hx]
    simp only [ih h.2]
    rw [← andThen_assoc, ← put_append]
    rfl

theorem scan_esc_mark {len : ℕ} {sub : UInt8} {exit : Option ℤ} {next : Option PromptRegion} {cmdline : Option Str}
    (h : parseOsc base64 (esc :: b) = .mark len sub exit next cmdline) :
    scan base64 s (esc :: b) = andThen (flat (s.onMark sub exit next cmdline ((esc :: b).take len)))
      fun s => scan base64 s ((esc :: b).drop len) := by
  have hpos : 0 < len := Nat.lt_of_le_of_lt (Nat.zero_le _) (parseOsc_mark h).1
  obtain ⟨n, rfl⟩ := Nat.exists_eq_succ_of_ne_zero (Nat.ne_of_gt hpos)
  rw [scan, if_pos rfl, h]
  rfl

theorem scan_esc_incomplete (h : parseOsc base64 (esc :: b) = .incomplete) :
    scan base64 s (esc :: b) = ({ s with carry := esc :: b }, []) := by
  rw [scan, if_pos rfl, h]

theorem scan_esc_notMark (h : parseOsc base64 (esc :: b) = .notMark) :
    scan base64 s (esc :: b) = andThen (s.put [esc]) fun s => scan base64 s b := by
  rw [scan, if_pos rfl, h]

theorem scan_esc_malformed (h : parseOsc base64 (esc :: b) = .malformed) :
    scan base64 s (esc :: b) =
      andThen (s.resetBoundaryState, [.reset]) fun s => andThen (s.put [esc]) fun s => scan base64 s b := by
  rw [scan, if_pos rfl, h]

theorem flat_forwardSeg (s : PromptSniffer) (seg : Bytes) : flat (s.forwardSeg seg) = s.put seg := by
  simp [flat, forwardSeg, put, SnifferEvent.pieces]

theorem forwardRun_eq {input : Bytes} {segStart last : ℕ} (hle : segStart ≤ last) (hlast : last ≤ input.length) :
    ∃ r, s.forwardRun input segStart last = some r ∧ flat r = s.put ((input.take last).drop segStart) := by
  unfold forwardRun
  by_cases h : segStart < last
  · rw [if_pos h, slice_eq hle hlast]
    exact ⟨_, rfl, flat_forwardSeg ..⟩
  · have hempty : (input.take last).drop segStart = [] :=
      drop_eq_nil_of_le (Nat.le_trans (length_take_le ..) (Nat.not_lt.mp h))
    rw [if_neg h, hempty, put_nil]
    exact ⟨_, rfl, rfl⟩

/-- `memchr`. -/
theorem idxOf?_esc {rest : Bytes} {off : ℕ} (h : rest.idxOf? esc = some off) :
    ∃ b, rest = rest.take off ++ esc :: b ∧ esc ∉ rest.take off ∧ off < rest.length := by
  induction rest generalizing off with
  | nil => cases h
  | cons x rest ih =>
    rw [idxOf?_cons] at h
    by_cases hx : x = esc
    · rw [if_pos (beq_iff_eq.mpr hx), Option.some.injEq] at h
      subst h
      exact ⟨rest, by rw [hx]; rfl, not_mem_nil, Nat.succ_pos _⟩
    · rw [if_neg (fun he => hx (beq_iff_eq.mp he))] at h
      obtain ⟨j, hj, rfl⟩ := Option.map_eq_some_iff.mp h
      obtain ⟨b, hb, hnot, hlen⟩ := ih hj
      refine ⟨b, ?_, ?_, Nat.succ_lt_succ hlen⟩
      · rw [take_succ_cons, cons_append, ← hb]
      · rw [take_succ_cons, mem_cons, not_or]
        exact ⟨fun he => hx he.symm, hnot⟩

@[simp] theorem setBoundaryTrust_carry {trusted : Bool} : (s.setBoundaryTrust trusted).carry = s.carry := by
  rw [setBoundaryTrust]
  split_ifs <;> rfl

@[simp] theorem resetBoundaryState_carry : s.resetBoundaryState.carry = s.carry := setBoundaryTrust_carry

theorem advance_carry {s' : PromptSniffer} {r : PromptRegion} (h : s.advance r = some s') : s'.carry = s.carry := by
  unfold advance advanceLifecycle at h
  split at h
  · split at h <;> cases h <;> first | rfl | exact setBoundaryTrust_carry
  · cases h

theorem apply_carry (s : PromptSniffer) (sub : UInt8) (next : Option PromptRegion) (exit : Option ℤ)
    (cmdline : Option Str) : (s.apply sub next exit cmdline).carry = s.carry := by
  have hstart : ∀ (a : PromptSniffer) t c, (a.startOutput t c).carry = a.carry := fun _ _ _ => rfl
  have hfinish : ∀ (a : PromptSniffer) t e, (a.finishOutput t e).carry = a.carry := by
    intro a t e
    unfold finishOutput
    dsimp only
    split
    · split <;> rfl
    · rfl
  unfold apply
  split
  · split <;> rfl
  · rename_i r
    split
    · exact resetBoundaryState_carry
    · rename_i a ha
      rw [← advance_carry ha]
      dsimp only
      split_ifs <;> simp only [hstart, hfinish]

theorem onMark_carry (s : PromptSniffer) (sub : UInt8) (exit : Option ℤ) (next : Option PromptRegion)
    (cmdline : Option Str) (bytes : Bytes) : (s.onMark sub exit next cmdline bytes).1.carry = s.carry :=
  apply_carry ..

/-- A slice that goes on. -/
theorem slice_append {input : Bytes} {segStart pos : ℕ} (off : ℕ) (hseg : segStart ≤ pos) (hpos : pos ≤ input.length) :
    (input.take pos).drop segStart ++ (input.drop pos).take off = (input.take (pos + off)).drop segStart := by
  have hoff : (input.take (pos + off)).drop pos = (input.drop pos).take off := by
    rw [drop_take, Nat.add_sub_cancel_left]
  rw [← take_append_drop pos (input.take (pos + off)), take_take, Nat.min_eq_left (Nat.le_add_right ..), hoff,
    drop_append_of_le_length (by rw [length_take]; omega)]

theorem flat_eq {r : PromptSniffer × List SnifferEvent} {q : PromptSniffer × List Piece} (h : flat r = q) :
    r.1 = q.1 ∧ r.2.flatMap SnifferEvent.pieces = q.2 := Prod.mk.inj h

variable (base64) in
/-- The main scan does not panic and needs no more steps than bytes, and it is `scan`. -/
theorem mainScan_eq {input : Bytes} {n pos segStart : ℕ} (hcarry : s.carry = []) (hn : input.length - pos < n)
    (hpos : pos ≤ input.length) (hseg : segStart ≤ pos) :
    ∃ r, s.mainScan base64 input n pos segStart = some r ∧
      flat r = andThen (s.put ((input.take pos).drop segStart)) fun s => scan base64 s (input.drop pos) := by
  induction n generalizing s pos segStart with
  | zero => omega
  | succ n ih =>
    rw [mainScan]
    by_cases hlt : pos < input.length
    · rw [if_pos hlt, slice_suffix hpos]
      dsimp only [Option.bind_eq_bind, Option.bind_some]
      cases hoff : (input.drop pos).idxOf? esc with
      | none =>
        have hplain : esc ∉ input.drop pos := idxOf?_eq_none_iff.mp hoff
        obtain ⟨r, hr, hflat⟩ := forwardRun_eq (s := s) (Nat.le_trans hseg hpos) (Nat.le_refl input.length)
        refine ⟨r, hr, hflat.trans ?_⟩
        have hscan : ∀ s : PromptSniffer, scan base64 s (input.drop pos) = s.put (input.drop pos) := by
          intro s
          have h := scan_plain base64 (s := s) (b := []) hplain
          rw [append_nil] at h
          simpa only [scan_nil, andThen_done] using h
        have hwhole := slice_append (input.length - pos) hseg hpos
        have hrest : (input.drop pos).take (input.length - pos) = input.drop pos :=
          take_of_length_le (by rw [length_drop])
        rw [hrest, Nat.add_sub_cancel' hpos] at hwhole
        simp only [hscan, ← put_append, hwhole]
      | some off =>
        obtain ⟨b, hb, hplain, hlen⟩ := idxOf?_esc hoff
        rw [length_drop] at hlen
        have hat : pos + off ≤ input.length := by omega
        have htail : input.drop (pos + off) = esc :: b := by
          have h := congrArg (List.drop off) hb
          rwa [drop_drop, drop_left' (by rw [length_take, length_drop]; omega)] at h
        have hnext : input.drop (pos + off + 1) = b := by
          rw [← drop_drop, htail]
          rfl
        have hlong : pos + off + 1 ≤ input.length := by omega
        have hone : ∀ j, j ≤ pos + off → (input.take (pos + off + 1)).drop j = (input.take (pos + off)).drop j ++ [esc] := by
          intro j hj
          rw [← slice_append 1 hj hat, htail]
          rfl
        have hrhs : andThen (s.put ((input.take pos).drop segStart)) (fun s => scan base64 s (input.drop pos)) =
            andThen (s.put ((input.take (pos + off)).drop segStart)) fun s => scan base64 s (esc :: b) := by
          rw [hb, ← slice_append _ hseg hpos, put_append, andThen_assoc]
          simp only [scan_plain base64 hplain]
        obtain ⟨⟨s₁, before⟩, hrun, hflat⟩ := forwardRun_eq (s := s) (Nat.le_trans hseg (Nat.le_add_right ..)) hat
        obtain ⟨rfl, hbefore⟩ := flat_eq hflat
        dsimp only
        rw [hrhs, slice_suffix hat, htail]
        dsimp only [Option.bind_some]
        rw [parseSniffedOsc_eq, hrun]
        dsimp only [Option.bind_some]
        cases hparse : parseOsc base64 (esc :: b) with
        | mark len sub exit next cmdline =>
          obtain ⟨hpos', hlen', -⟩ := parseOsc_mark hparse
          rw [← htail, length_drop] at hlen'
          have hend : pos + off + len ≤ input.length := by omega
          have hbytes : slice input (pos + off) (pos + off + len) = some ((esc :: b).take len) := by
            rw [slice_eq (Nat.le_add_right ..) hend, drop_take, Nat.add_sub_cancel_left, htail]
          obtain ⟨r, hr, hflat'⟩ := ih (s := ((s.put ((input.take (pos + off)).drop segStart)).1.onMark sub exit next cmdline
            ((esc :: b).take len)).1) (onMark_carry .. |>.trans (preForward_carry.trans hcarry)) (by omega) hend
            (Nat.le_refl _)
          have hempty : (input.take (pos + off + len)).drop (pos + off + len) = [] :=
            drop_eq_nil_of_le (length_take_le ..)
          have hmore : input.drop (pos + off + len) = (esc :: b).drop len := by rw [← drop_drop, htail]
          rw [hempty, put_nil, nil_andThen, hmore] at hflat'
          obtain ⟨hfst, hsnd⟩ := flat_eq hflat'
          dsimp only
          rw [hbytes]
          dsimp only [Option.bind_some]
          rw [hr]
          refine ⟨_, rfl, ?_⟩
          simp only [scan_esc_mark hparse, flat, andThen, flatMap_append, hbefore, hfst, hsnd]
        | incomplete =>
          have hshort := (parseOsc_incomplete hparse (cons_ne_nil _ _)).1
          dsimp only
          rw [slice_front (Nat.min_le_left ..), Nat.min_eq_left hshort, take_length]
          refine ⟨_, rfl, ?_⟩
          simp only [scan_esc_incomplete hparse, flat, hbefore, andThen, append_nil, put, preForward_carry, hcarry,
            nil_append]
        | notMark =>
          obtain ⟨r, hr, hflat'⟩ := ih hcarry (by omega) hlong (Nat.le_trans hseg (Nat.le_trans (Nat.le_add_right ..) (Nat.le_succ _)))
          refine ⟨r, hr, hflat'.trans ?_⟩
          rw [hone segStart (Nat.le_trans hseg (Nat.le_add_right ..)), put_append, andThen_assoc, hnext]
          simp only [scan_esc_notMark hparse]
        | malformed =>
          obtain ⟨r, hr, hflat'⟩ := ih (s := (s.put ((input.take (pos + off)).drop segStart)).1.resetBoundaryState)
            (resetBoundaryState_carry.trans (preForward_carry.trans hcarry)) (by omega) hlong (Nat.le_succ (pos + off))
          have hempty : (input.take (pos + off)).drop (pos + off) = [] := drop_eq_nil_of_le (length_take_le ..)
          rw [hone _ (Nat.le_refl _), hempty, nil_append, hnext] at hflat'
          obtain ⟨hfst, hsnd⟩ := flat_eq hflat'
          dsimp only
          rw [hr]
          refine ⟨_, rfl, ?_⟩
          simp only [scan_esc_malformed hparse, flat, andThen, flatMap_append, flatMap_cons, hbefore, hfst, hsnd]
          rfl
    · have hend : pos = input.length := Nat.le_antisymm hpos (Nat.not_lt.mp hlt)
      rw [if_neg hlt]
      obtain ⟨r, hr, hflat⟩ := forwardRun_eq (s := s) (hend ▸ hseg) (Nat.le_refl input.length)
      refine ⟨r, hr, ?_⟩
      rw [hflat, hend, drop_length]
      simp [scan_nil]

end

end PromptSniffer

end NiumaTerm.Terminal
