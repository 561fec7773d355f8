import NiumaTerm.Terminal.SnifferFeed

/-!
# Reads that are cut elsewhere

What a scan holds should be scanned again with what comes (`scan_append`).  `feed` keeps to that unless held
bytes that turn out not to be a mark are handed on whole, or a mark ends past `osc133Max`; other reads are
`Clean`.
-/

namespace NiumaTerm.Terminal
namespace PromptSniffer

open Rust Endian List

variable (base64 : Bytes → Option Bytes)

/-- The read does not cut a mark where the sniffer loses it.  In words of the bytes held and the bytes read: if they are
too many for a mark that is not over, then they are no mark; and if they are no mark, then none begins at an ESC at the
end of the bytes held. -/
structure Clean (carry input : Bytes) : Prop where
  fits : carry ≠ [] → parseOsc base64 ((carry ++ input).take osc133Max) = .incomplete →
    osc133Max ≤ (carry ++ input).length → parseOsc base64 (carry ++ input) = .malformed
  lastEsc : parseOsc base64 (carry ++ input) = .malformed → carry.getLast? = some esc →
    parseOsc base64 (esc :: input) = .notMark ∨ parseOsc base64 (esc :: input) = .malformed

/-- Reads that are all clean, from a state on. -/
def Cleanly (s : PromptSniffer) : List Bytes → Prop
  | [] => True
  | input :: rest => Clean base64 s.carry input ∧ ∀ r, s.feedHooked base64 input = some r → Cleanly r.1 rest

/-- What the hooks hear. -/
def heard (pieces : List Piece) : List Piece := pieces.filter (· ≠ .reset)

/-- The same state, and the hooks heard the same. -/
def Alike (r q : PromptSniffer × List Piece) : Prop := r.1 = q.1 ∧ heard r.2 = heard q.2

section

variable {s : PromptSniffer} {a b : Bytes} {base64 : Bytes → Option Bytes} {r q t : PromptSniffer × List Piece}

theorem Alike.refl (r : PromptSniffer × List Piece) : Alike r r := ⟨rfl, rfl⟩

theorem heard_append (l m : List Piece) : heard (l ++ m) = heard l ++ heard m := filter_append ..

theorem Alike.andThen {f g : PromptSniffer → PromptSniffer × List Piece} (h : Alike r q) (hf : Alike (f r.1) (g r.1)) :
    Alike (PromptSniffer.andThen r f) (PromptSniffer.andThen q g) := by
  refine ⟨?_, ?_⟩
  · rw [andThen_fst, andThen_fst, ← h.1, hf.1]
  · rw [andThen_snd, andThen_snd, heard_append, heard_append, h.2, ← h.1, hf.2]

@[simp] theorem hold_hold {x y : Bytes} : (s.hold x).hold y = s.hold y := rfl

@[simp] theorem hold_carry {x : Bytes} : (s.hold x).carry = x := rfl

theorem hold_of_carry (h : s.carry = a) : s.hold a = s := h ▸ rfl

/-- **A scan that is cut.**  What the first scan holds is scanned with the rest. -/
theorem scan_append (h : s.carry = []) (x y : Bytes) :
    scan base64 s (x ++ y) = andThen (scan base64 s x) fun c => scan base64 (c.hold []) (c.carry ++ y) := by
  induction hn : x.length using Nat.strongRecOn generalizing s x with
  | ind n ih =>
    cases x with
    | nil =>
      rw [scan_nil, nil_andThen, h]
      exact congrArg (fun c => scan base64 c ([] ++ y)) (hold_of_carry h).symm
    | cons d rest =>
      subst hn
      have hrest : ∀ s : PromptSniffer, s.carry = [] → _ := fun s hs => ih rest.length (Nat.lt_succ_self _) hs rest rfl
      by_cases hd : d = esc
      · subst hd
        cases hparse : parseOsc base64 (esc :: rest) with
        | mark len sub exit next cmdline =>
          obtain ⟨hpos, hlen, -⟩ := parseOsc_mark hparse
          have hall := parseOsc_append base64 (s := esc :: rest) (t := y)
            (by rw [hparse]; exact SniffedOsc.noConfusion)
          have hlater := ih ((esc :: rest).drop len).length (by rw [length_drop]; omega)
            (s := (s.onMark sub exit next cmdline ((esc :: rest).take len)).1) ((onMark_carry ..).trans h) _ rfl
          rw [cons_append] at hall ⊢
          rw [scan_esc_mark hparse, scan_esc_mark (hall.trans hparse), ← cons_append,
            take_append_of_le_length hlen, drop_append_of_le_length hlen, andThen_assoc]
          exact congrArg (fun c => (c.1, _ ++ c.2)) hlater
        | incomplete =>
          rw [scan_esc_incomplete hparse, nil_andThen]
          exact congrArg (fun c => scan base64 c (esc :: rest ++ y)) (hold_of_carry h).symm
        | notMark =>
          have hall := parseOsc_append base64 (s := esc :: rest) (t := y)
            (by rw [hparse]; exact SniffedOsc.noConfusion)
          rw [cons_append] at hall ⊢
          rw [scan_esc_notMark hparse, scan_esc_notMark (hall.trans hparse), andThen_assoc]
          exact congrArg (fun c => (c.1, _ ++ c.2)) (hrest _ (put_carry.trans h))
        | malformed =>
          have hall := parseOsc_append base64 (s := esc :: rest) (t := y)
            (by rw [hparse]; exact SniffedOsc.noConfusion)
          rw [cons_append] at hall ⊢
          rw [scan_esc_malformed hparse, scan_esc_malformed (hall.trans hparse), andThen_assoc]
          simp only [andThen_assoc]
          exact congrArg (fun c => (c.1, _ ++ (_ ++ c.2))) (hrest _ (put_carry.trans (resetBoundaryState_carry.trans h)))
      · rw [cons_append, scan, if_neg hd, scan, if_neg hd, andThen_assoc]
        exact congrArg (fun c => (c.1, _ ++ c.2)) (hrest _ (put_carry.trans h))

theorem parseArgs_ne_notMark {sub : UInt8} {rest : Bytes} : parseArgs base64 sub rest ≠ .notMark := by
  unfold parseArgs
  split <;> exact SniffedOsc.noConfusion

/-- Only a part of the introducer can turn out to be something else. -/
theorem Held.notMark (h : Held base64 a) (hnot : parseOsc base64 (a ++ b) = .notMark) : esc ∉ a.tail := by
  rcases parseOsc_cases base64 a with ⟨sub, rest, rfl, -⟩ | ⟨⟨more, hmore⟩, -⟩ | ⟨-, -, ha⟩
  · rw [append_assoc, cons_append, parseOsc_prefix] at hnot
    exact absurd hnot parseArgs_ne_notMark
  · intro hmem
    have hfront : esc ∉ osc133Prefix.tail := by decide
    cases a with
    | nil => cases hmem
    | cons d rest =>
      rw [← hmore] at hfront
      exact hfront (mem_append_left _ hmem)
  · rw [Held, ha] at h
    cases h

theorem resetBoundaryState_idem : s.resetBoundaryState.resetBoundaryState = s.resetBoundaryState := by
  have htrust : s.resetBoundaryState.boundaryTrust = .untrusted := by
    unfold resetBoundaryState setBoundaryTrust
    by_cases h : s.boundaryTrust = .untrusted
    · simp [h]
    · simp [h]
  have hsame : s.resetBoundaryState.setBoundaryTrust false = s.resetBoundaryState := if_neg (not_not.mpr htrust)
  conv_lhs => rw [resetBoundaryState, hsame]
  rfl

theorem reset_put : (s.resetBoundaryState.put a).1 = s.resetBoundaryState :=
  resetBoundaryState_preForward (a := a)

theorem scan_malformed {mid last input : Bytes} (hmid : esc ∉ mid)
    (hwhole : parseOsc base64 (esc :: mid ++ last ++ input) = .malformed) :
    scan base64 s (esc :: mid ++ last ++ input) = andThen (s.resetBoundaryState, [.reset]) fun c =>
      andThen (c.put (esc :: mid)) fun c => scan base64 c (last ++ input) := by
  rw [cons_append, cons_append, append_assoc] at hwhole ⊢
  rw [scan_esc_malformed hwhole]
  simp only [scan_plain base64 hmid, ← andThen_assoc, ← put_append]
  rfl

/-- Bytes that are handed on and bytes that are scanned again. -/
theorem giveUp_alike {mid last input : Bytes} (hlast : last = [] ∨ last = [esc]) (hmid : esc ∉ mid)
    (hwhole : parseOsc base64 (esc :: mid ++ last ++ input) = .malformed)
    (hesc : last = [esc] → parseOsc base64 (esc :: input) = .notMark ∨ parseOsc base64 (esc :: input) = .malformed) :
    Alike (giveUp base64 s (esc :: mid ++ last) input) (scan base64 s (esc :: mid ++ last ++ input)) := by
  rw [scan_malformed hmid hwhole, giveUp]
  rcases hlast with rfl | rfl
  · rw [append_nil]
    exact Alike.refl _
  · simp only [put_append, andThen_assoc]
    refine (Alike.refl _).andThen ((Alike.refl _).andThen ?_)
    dsimp only
    rw [reset_put]
    rcases hesc rfl with h | h
    · rw [cons_append, nil_append, scan_esc_notMark h]
      exact Alike.refl _
    · rw [cons_append, nil_append, scan_esc_malformed h, resetBoundaryState_idem]
      exact ⟨rfl, rfl⟩

/-- **A clean read** does what a scan of the bytes held and read does. -/
theorem feed_scan {input : Bytes} (h : Held base64 s.carry) (hclean : Clean base64 s.carry input) :
    Alike (s.feed base64 input) (scan base64 (s.hold []) (s.carry ++ input)) := by
  unfold feed
  by_cases hc : s.carry = []
  · rw [if_pos hc, hold_of_carry hc, hc, nil_append]
    exact Alike.refl _
  · rw [if_neg hc]
    obtain ⟨-, -, mid, last, hcarry, hmid, hlast⟩ := parseOsc_incomplete h hc
    have hbytes : s.carry ++ input = esc :: (mid ++ last ++ input) := by rw [hcarry, cons_append, cons_append]
    have hmalformed (hwhole : parseOsc base64 (s.carry ++ input) = .malformed) :
        Alike (giveUp base64 (s.hold []) s.carry input) (scan base64 (s.hold []) (s.carry ++ input)) := by
      have hesc : last = [esc] →
          parseOsc base64 (esc :: input) = .notMark ∨ parseOsc base64 (esc :: input) = .malformed := by
        intro hl
        refine hclean.lastEsc hwhole ?_
        rw [hcarry, hl, getLast?_append_of_ne_nil _ (cons_ne_nil _ _)]
        rfl
      rw [hcarry] at hwhole ⊢
      exact giveUp_alike hlast hmid hwhole hesc
    cases hparse : parseOsc base64 ((s.carry ++ input).take osc133Max) with
    | mark len sub exit next cmdline =>
      have hall := parseOsc_of_take hparse SniffedOsc.noConfusion
      rw [hbytes] at hall
      rw [hbytes, scan_esc_mark hall]
      exact Alike.refl _
    | incomplete =>
      dsimp only
      by_cases hshort : (s.carry ++ input).length < osc133Max
      · rw [take_of_length_le (Nat.le_of_lt hshort), hbytes] at hparse
        rw [if_pos hshort, hbytes, scan_esc_incomplete hparse]
        exact Alike.refl _
      · rw [if_neg hshort]
        exact hmalformed (hclean.fits hc hparse (Nat.not_lt.mp hshort))
    | notMark =>
      have hall := parseOsc_of_take hparse SniffedOsc.noConfusion
      have hplain : esc ∉ mid ++ last := by
        have htail := h.notMark hall
        rwa [hcarry] at htail
      rw [hbytes] at hall
      rw [hbytes, scan_esc_notMark hall]
      simp only [scan_plain base64 hplain]
      rw [← andThen_assoc, ← put_append, hcarry]
      exact Alike.refl _
    | malformed =>
      exact hmalformed (parseOsc_of_take hparse SniffedOsc.noConfusion)

theorem Alike.andThen_cancel {f g : PromptSniffer → PromptSniffer × List Piece}
    (h : Alike (PromptSniffer.andThen r f) (PromptSniffer.andThen q g)) (hfirst : Alike r q) :
    Alike (f r.1) (g r.1) := by
  obtain ⟨hstate, hheard⟩ := h
  rw [andThen_fst, andThen_fst, ← hfirst.1] at hstate
  rw [andThen_snd, andThen_snd, heard_append, heard_append, hfirst.2, ← hfirst.1] at hheard
  exact ⟨hstate, append_cancel_left hheard⟩

theorem heard_onMark (s : PromptSniffer) (sub : UInt8) (exit : Option ℤ) (next : Option PromptRegion)
    (cmdline : Option Str) (bytes : Bytes) :
    ∃ m, heard (flat (s.onMark sub exit next cmdline bytes)).2 = [.mark m] := by
  refine ⟨((s.apply sub next exit cmdline).drainMark bytes).2, ?_⟩
  by_cases h : s.rejects next = true
  · simp [flat, onMark, h, SnifferEvent.pieces, heard]
  · simp [flat, onMark, h, SnifferEvent.pieces, heard]

/-- An ESC that is handed on as a byte is not alike one at which a mark begins. -/
theorem no_mark_of_heard {c : PromptSniffer} {rest : Bytes} {f : PromptSniffer → PromptSniffer × List Piece}
    (hheard : heard (andThen (s.put (esc :: a)) f).2 = heard (scan base64 c (esc :: rest)).2) :
    parseOsc base64 (esc :: rest) = .notMark ∨ parseOsc base64 (esc :: rest) = .malformed := by
  cases hparse : parseOsc base64 (esc :: rest) with
  | mark len sub exit next cmdline =>
    obtain ⟨m, hm⟩ := heard_onMark c sub exit next cmdline ((esc :: rest).take len)
    rw [scan_esc_mark hparse, andThen_snd, andThen_snd, heard_append, heard_append, hm] at hheard
    exact absurd (List.cons.inj hheard).1 Piece.noConfusion
  | incomplete =>
    rw [scan_esc_incomplete hparse, andThen_snd, heard_append] at hheard
    exact absurd hheard (cons_ne_nil _ _)
  | notMark => exact .inl rfl
  | malformed => exact .inr rfl

theorem heard_giveUp {carry input : Bytes} : heard (giveUp base64 s carry input).2 =
    heard (andThen (s.resetBoundaryState.put carry) fun c => scan base64 c input).2 := rfl

theorem feed_of_malformed {input : Bytes} (hc : s.carry ≠ []) (hwhole : parseOsc base64 (s.carry ++ input) = .malformed) :
    s.feed base64 input = giveUp base64 (s.hold []) s.carry input := by
  rw [feed, if_neg hc]
  cases hparse : parseOsc base64 ((s.carry ++ input).take osc133Max) with
  | mark | notMark =>
    have hall := parseOsc_of_take hparse SniffedOsc.noConfusion
    rw [hwhole] at hall
    cases hall
  | incomplete =>
    dsimp only
    refine if_neg fun hshort => ?_
    rw [take_of_length_le (Nat.le_of_lt hshort), hwhole] at hparse
    cases hparse
  | malformed => rfl

/-- **Only a clean read** does what a scan of the bytes held and read does. -/
theorem clean_of_alike {input : Bytes} (h : Held base64 s.carry)
    (halike : Alike (s.feed base64 input) (scan base64 (s.hold []) (s.carry ++ input))) :
    Clean base64 s.carry input := by
  have hgiveUp (hc : s.carry ≠ []) (hgive : s.feed base64 input = giveUp base64 (s.hold []) s.carry input) :
      parseOsc base64 (s.carry ++ input) = .notMark ∨ parseOsc base64 (s.carry ++ input) = .malformed := by
    obtain ⟨-, -, mid, last, hcarry, -, -⟩ := parseOsc_incomplete h hc
    have hheard := halike.2
    rw [hgive, hcarry, heard_giveUp] at hheard
    rw [hcarry]
    exact no_mark_of_heard hheard
  refine ⟨fun hc hparse hlong => ?_, fun hwhole hesc => ?_⟩
  · have hgive : s.feed base64 input = giveUp base64 (s.hold []) s.carry input := by
      rw [feed, if_neg hc, hparse]
      exact if_neg (Nat.not_lt.mpr hlong)
    refine (hgiveUp hc hgive).resolve_left fun hnot => ?_
    -- the introducer is whole, so this is no other escape sequence
    rw [← take_append_drop osc133Max (s.carry ++ input)] at hnot
    have hplain := Held.notMark hparse hnot
    have hlen : ((s.carry ++ input).take osc133Max).length = osc133Max := by
      rw [length_take, Nat.min_eq_left hlong]
    generalize (s.carry ++ input).take osc133Max = cut at hparse hplain hlen
    have hlast : cut.getLast? = some esc := (parseOsc_incomplete hparse (by rintro rfl; cases hlen)).2.1 hlen
    cases cut with
    | nil => cases hlast
    | cons d rest =>
      cases rest with
      | nil => cases hlen
      | cons d' rest =>
        rw [getLast?_cons_cons] at hlast
        exact hplain (mem_of_getLast? hlast)
  · have hc : s.carry ≠ [] := by
      intro hc
      rw [hc] at hesc
      cases hesc
    rw [feed_of_malformed hc hwhole] at halike
    obtain ⟨-, -, mid, last, hcarry, hmid, hlast⟩ := parseOsc_incomplete h hc
    rw [hcarry] at hwhole hesc halike
    rcases hlast with rfl | rfl
    · cases mid with
      | nil => exact .inr hwhole
      | cons d mid =>
        rw [append_nil, getLast?_cons_cons] at hesc
        exact absurd (mem_of_getLast? hesc) hmid
    · rw [scan_malformed hmid hwhole, giveUp] at halike
      simp only [put_append, andThen_assoc] at halike
      have hrest := (halike.andThen_cancel (Alike.refl _)).andThen_cancel (Alike.refl _)
      exact no_mark_of_heard hrest.2

/-! ## Runs -/

/-- One read after another, on lists. -/
def feedReads (base64 : Bytes → Option Bytes) (s : PromptSniffer) : List Bytes → PromptSniffer × List Piece
  | [] => (s, [])
  | input :: rest => andThen (s.feed base64 input) fun c => c.feedReads base64 rest

theorem feedAll_eq (h : Held base64 s.carry) (reads : List Bytes) :
    ∃ r, s.feedAll base64 reads = some r ∧ flat r = s.feedReads base64 reads := by
  induction reads generalizing s with
  | nil => exact ⟨_, rfl, rfl⟩
  | cons input rest ih =>
    obtain ⟨r, hr, hflat⟩ := feedHooked_eq h input
    obtain ⟨hfst, hsnd⟩ := flat_eq hflat
    obtain ⟨q, hq, hmore⟩ := ih (s := r.1) (hfst ▸ (feed_total base64 input).2)
    refine ⟨(q.1, r.2 ++ q.2), ?_, ?_⟩
    · rw [feedAll, hr]
      dsimp only [Option.bind_eq_bind, Option.bind_some]
      rw [hq]
      rfl
    · rw [feedReads, ← hflat, andThen, ← show r.1 = (flat r).1 from rfl, ← hmore]
      simp [flat]

/-- The run lemma: what is held, and all that is read. -/
theorem feedReads_scan (h : Held base64 s.carry) {reads : List Bytes} (hclean : Cleanly base64 s reads) :
    Alike (s.feedReads base64 reads) (scan base64 (s.hold []) (s.carry ++ reads.flatten)) := by
  induction reads generalizing s with
  | nil =>
    rw [flatten_nil, append_nil, feedReads]
    by_cases hc : s.carry = []
    · rw [hc, scan_nil, hold_of_carry hc]
      exact Alike.refl _
    · obtain ⟨-, -, mid, last, hcarry, -, -⟩ := parseOsc_incomplete h hc
      have hheld := h
      rw [hcarry, Held, cons_append] at hheld
      rw [hcarry, cons_append, scan_esc_incomplete hheld, ← cons_append, ← hcarry]
      exact Alike.refl _
  | cons input rest ih =>
    obtain ⟨r, hr, hflat⟩ := feedHooked_eq h input
    have hfst : r.1 = (s.feed base64 input).1 := (flat_eq hflat).1
    have hstep := feed_scan h hclean.1
    have hlater := ih (s := (s.feed base64 input).1) (feed_total base64 input).2 (hfst ▸ hclean.2 r hr)
    rw [flatten_cons, ← append_assoc, scan_append rfl, feedReads]
    exact hstep.andThen hlater

theorem feedReads_append (l m : List Bytes) :
    s.feedReads base64 (l ++ m) = andThen (s.feedReads base64 l) fun c => c.feedReads base64 m := by
  induction l generalizing s with
  | nil => rfl
  | cons input l ih =>
    rw [cons_append, feedReads, feedReads, andThen_assoc]
    simp only [ih]

theorem feedReads_held (h : Held base64 s.carry) (reads : List Bytes) :
    Held base64 (s.feedReads base64 reads).1.carry := by
  induction reads generalizing s with
  | nil => exact h
  | cons input rest ih => exact ih (feed_total base64 input).2

theorem cleanly_cons (h : Held base64 s.carry) {input : Bytes} {rest : List Bytes} :
    Cleanly base64 s (input :: rest) ↔ Clean base64 s.carry input ∧ Cleanly base64 (s.feed base64 input).1 rest := by
  obtain ⟨r, hr, hflat⟩ := feedHooked_eq h input
  have hfst : r.1 = (s.feed base64 input).1 := (flat_eq hflat).1
  rw [Cleanly]
  refine and_congr_right fun _ => ⟨fun hrest => hfst ▸ hrest r hr, fun hrest q hq => ?_⟩
  rw [hr, Option.some.injEq] at hq
  rw [← hq, hfst]
  exact hrest

theorem cleanly_concat (h : Held base64 s.carry) (reads : List Bytes) (input : Bytes) :
    Cleanly base64 s (reads ++ [input]) ↔
      Cleanly base64 s reads ∧ Clean base64 (s.feedReads base64 reads).1.carry input := by
  induction reads generalizing s with
  | nil =>
    rw [nil_append, cleanly_cons h]
    exact ⟨fun hand => ⟨trivial, hand.1⟩, fun hand => ⟨hand.2, trivial⟩⟩
  | cons first rest ih =>
    rw [cons_append, cleanly_cons h, cleanly_cons h, ih (feed_total base64 first).2, and_assoc]
    rfl

/-- The reads do what one read of all the bytes does: they leave the sniffer in the same state, and the hooks hear the
same marks and the same bytes with the same region and trust. -/
def SameAsWhole (base64 : Bytes → Option Bytes) (reads : List Bytes) : Prop :=
  ∃ s events whole, ({} : PromptSniffer).feedAll base64 reads = some (s, events) ∧
    ({} : PromptSniffer).feedHooked base64 reads.flatten = some (s, whole) ∧
    heard (events.flatMap SnifferEvent.pieces) = heard (whole.flatMap SnifferEvent.pieces)

theorem sameAsWhole_iff {reads : List Bytes} :
    SameAsWhole base64 reads ↔ Alike (({} : PromptSniffer).feedReads base64 reads) (scan base64 {} reads.flatten) := by
  have hheld : Held base64 ({} : PromptSniffer).carry := rfl
  obtain ⟨⟨s, events⟩, hr, hflat⟩ := feedAll_eq hheld reads
  obtain ⟨⟨c, whole⟩, hq, hone⟩ := feedHooked_eq hheld reads.flatten
  have hfeed : ({} : PromptSniffer).feed base64 reads.flatten = scan base64 {} reads.flatten := if_pos rfl
  rw [← hflat, ← hfeed, ← hone, SameAsWhole, hr, hq]
  constructor
  · rintro ⟨t, _, _, ht, hc, hheard⟩
    cases ht
    cases hc
    exact ⟨rfl, hheard⟩
  · rintro ⟨hstate, hheard⟩
    dsimp only [flat] at hstate
    subst hstate
    exact ⟨s, events, whole, rfl, rfl, hheard⟩

/-- **Reads can be cut elsewhere if and only if they are clean.**  At every point of the run the reads so far have done
what one read of their bytes does, exactly when every read was clean. -/
theorem split_invariant (base64 : Bytes → Option Bytes) (reads : List Bytes) :
    (∀ before, before <+: reads → SameAsWhole base64 before) ↔ Cleanly base64 {} reads := by
  have hheld : Held base64 ({} : PromptSniffer).carry := rfl
  simp only [sameAsWhole_iff]
  constructor
  · intro hall
    induction reads using reverseRecOn with
    | nil => exact trivial
    | append_singleton reads input ih =>
      have hbefore := hall reads (prefix_append ..)
      have hwhole := hall (reads ++ [input]) (prefix_refl _)
      rw [flatten_append, flatten_singleton, scan_append rfl, feedReads_append] at hwhole
      have hstep := hwhole.andThen_cancel hbefore
      rw [feedReads, show (fun c : PromptSniffer ↦ c.feedReads base64 []) = fun c ↦ (c, []) from rfl, andThen_done] at hstep
      exact (cleanly_concat hheld reads input).mpr
        ⟨ih fun before hfront ↦ hall before (hfront.trans (prefix_append ..)),
          clean_of_alike (feedReads_held hheld reads) hstep⟩
  · intro hclean before hfront
    induction reads using reverseRecOn with
    | nil =>
      rw [prefix_nil.mp hfront, flatten_nil, scan_nil]
      exact Alike.refl _
    | append_singleton reads input ih =>
      obtain ⟨hreads, -⟩ := (cleanly_concat hheld reads input).mp hclean
      rcases prefix_concat_iff.mp hfront with rfl | hfront
      · exact feedReads_scan hheld hclean
      · exact ih hreads hfront

/-- `ESC ] 1 3 3 ; A ESC` and `] 1 3 3 ; A BEL`: the first mark breaks off, the second is whole. -/
def brokenMark : List Bytes :=
  [[0x1b, 0x5d, 0x31, 0x33, 0x33, 0x3b, 0x41, 0x1b], [0x5d, 0x31, 0x33, 0x33, 0x3b, 0x41, 0x07]]

/-- **A mark that a cut loses.**  In one read the mark begins a prompt.  Cut after its ESC it is handed on as text. -/
theorem cut_mark_lost :
    (({} : PromptSniffer).feedAll (fun _ ↦ none) brokenMark).map (fun r ↦ (r.1.region, r.1.lifecycle)) =
        some (.none, .awaitPrompt) ∧
      (({} : PromptSniffer).feedHooked (fun _ ↦ none) brokenMark.flatten).map (fun r ↦ (r.1.region, r.1.lifecycle)) =
        some (.prompt, .inPrompt) := by
  decide +kernel

end

end PromptSniffer
end NiumaTerm.Terminal
