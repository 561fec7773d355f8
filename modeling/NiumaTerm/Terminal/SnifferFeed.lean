import NiumaTerm.Terminal.SnifferScan

/-!
# The reads of a sniffer

`feed` is `feedHooked` on lists of bytes (`feedHooked_eq`).  Between two reads the sniffer holds the start of a mark,
`Held`: nothing, or bytes of which `parseOsc` cannot tell more.

* `feed_transparent`: what is handed on and what is held are what was read.
* `split_invariant`: reads that are `Clean` do what one read of all the bytes does.
-/

namespace NiumaTerm.Terminal

open Rust Endian List

/-- The bytes that a hook is handed. -/
def SnifferEvent.bytes : SnifferEvent → Bytes
  | .forward _ _ bytes => bytes
  | .mark m => m.bytes
  | .reset => []

def Piece.bytes : Piece → Bytes
  | .byte _ _ b => [b]
  | .mark m => m.bytes
  | .reset => []

namespace PromptSniffer

variable (base64 : Bytes → Option Bytes)

/-- What may be held between two reads. -/
def Held (carry : Bytes) : Prop := parseOsc base64 carry = .incomplete

def hold (s : PromptSniffer) (carry : Bytes) : PromptSniffer := { s with carry }

/-- Bytes that were held and are no mark after all. -/
def giveUp (s : PromptSniffer) (carry input : Bytes) : PromptSniffer × List Piece :=
  andThen (s.resetBoundaryState, [.reset]) fun s => andThen (s.put carry) fun s => scan base64 s input

def feed (s : PromptSniffer) (input : Bytes) : PromptSniffer × List Piece :=
  if s.carry = [] then scan base64 s input
  else
    match parseOsc base64 ((s.carry ++ input).take osc133Max) with
    | .mark len sub exit next cmdline =>
      andThen (flat ((s.hold []).onMark sub exit next cmdline ((s.carry ++ input).take len)))
        fun a => scan base64 a ((s.carry ++ input).drop len)
    | .incomplete =>
      if (s.carry ++ input).length < osc133Max then (s.hold (s.carry ++ input), [])
      else giveUp base64 (s.hold []) s.carry input
    | .notMark => andThen ((s.hold []).put s.carry) fun a => scan base64 a input
    | .malformed => giveUp base64 (s.hold []) s.carry input

section

variable {s : PromptSniffer} {a b : Bytes} {base64 : Bytes → Option Bytes}

theorem parseOsc_of_take {n : ℕ} {osc : SniffedOsc} (h : parseOsc base64 (a.take n) = osc) (ho : osc ≠ .incomplete) :
    parseOsc base64 a = osc := by
  subst h
  rw [← parseOsc_append base64 ho (t := a.drop n), take_append_drop]

theorem Held.length_le (h : Held base64 a) : a.length ≤ osc133Max := by
  by_cases hne : a = []
  · rw [hne]
    exact Nat.zero_le _
  · exact (parseOsc_incomplete h hne).1

/-- A mark that ends in a read is longer than what was held. -/
theorem Held.lt_mark {len : ℕ} {sub : UInt8} {exit : Option ℤ} {next : Option PromptRegion} {cmdline : Option Str}
    (h : Held base64 a) (hmark : parseOsc base64 (a ++ b) = .mark len sub exit next cmdline) : a.length < len := by
  by_contra hle
  obtain ⟨-, -, htake⟩ := parseOsc_mark hmark
  rw [take_append_of_le_length (Nat.not_lt.mp hle)] at htake
  rw [Held, parseOsc_of_take htake SniffedOsc.noConfusion] at h
  cases h

theorem resetBoundaryState_preForward : s.resetBoundaryState.preForward a = s.resetBoundaryState :=
  if_neg PromptRegion.noConfusion

variable (base64) in
theorem mainScan_from (input : Bytes) {pos : ℕ} (hcarry : s.carry = []) (hpos : pos ≤ input.length) :
    ∃ r, s.mainScan base64 input (input.length + 1) pos pos = some r ∧ flat r = scan base64 s (input.drop pos) := by
  obtain ⟨r, hr, hflat⟩ := mainScan_eq base64 hcarry (n := input.length + 1) (by omega) hpos (Nat.le_refl pos)
  have hempty : (input.take pos).drop pos = [] := drop_eq_nil_of_le (length_take_le ..)
  rw [hempty, put_nil, nil_andThen] at hflat
  exact ⟨r, hr, hflat⟩

theorem resolveCarry_eq (h : Held base64 s.carry) (input : Bytes) :
    s.resolveCarry base64 input = match parseOsc base64 ((s.carry ++ input).take osc133Max) with
      | .mark len sub exit next cmdline =>
        some (((s.hold []).onMark sub exit next cmdline ((s.carry ++ input).take len)).1,
          ((s.hold []).onMark sub exit next cmdline ((s.carry ++ input).take len)).2, some (len - s.carry.length))
      | .notMark => some (((s.hold []).forwardSeg s.carry).1, ((s.hold []).forwardSeg s.carry).2, some 0)
      | .incomplete =>
        if (s.carry ++ input).length < osc133Max then some (s.hold (s.carry ++ input), [], none)
        else some ((s.hold []).resetBoundaryState, .reset :: ((s.hold []).resetBoundaryState.forwardSeg s.carry).2, some 0)
      | .malformed =>
        some ((s.hold []).resetBoundaryState, .reset :: ((s.hold []).resetBoundaryState.forwardSeg s.carry).2, some 0) := by
  have hlen := h.length_le
  have hbuf : s.carry ++ input.take (min (osc133Max - s.carry.length) input.length) =
      (s.carry ++ input).take osc133Max := by
    rw [take_append, take_of_length_le hlen, ← take_eq_take_min]
  have hwhole : (s.carry ++ input).length = s.carry.length + input.length := length_append
  have hcut : ((s.carry ++ input).take osc133Max).length = min osc133Max (s.carry ++ input).length := length_take
  have hheld : slice ((s.carry ++ input).take osc133Max) 0 s.carry.length = some s.carry := by
    rw [slice_front (by omega), take_take, Nat.min_eq_left hlen, take_left]
  have hsub : checkedSub osc133Max s.carry.length = some (osc133Max - s.carry.length) := if_pos hlen
  unfold resolveCarry
  dsimp only
  rw [hsub]
  dsimp only [Option.bind_eq_bind, Option.bind_some]
  rw [slice_front (Nat.min_le_right ..)]
  dsimp only [Option.bind_some]
  rw [hbuf, parseSniffedOsc_eq, hheld]
  dsimp only [Option.bind_some]
  cases hparse : parseOsc base64 ((s.carry ++ input).take osc133Max) with
  | mark len sub exit next cmdline =>
    obtain ⟨-, hin, -⟩ := parseOsc_mark hparse
    have hlt := h.lt_mark (parseOsc_of_take hparse SniffedOsc.noConfusion)
    have hrest : checkedSub len s.carry.length = some (len - s.carry.length) := if_pos (Nat.le_of_lt hlt)
    dsimp only
    rw [slice_front hin, take_take, Nat.min_eq_left (by omega), hrest]
    rfl
  | incomplete =>
    dsimp only
    by_cases hshort : (s.carry ++ input).length < osc133Max
    · rw [if_pos hshort, if_pos ⟨rfl, by omega⟩, take_of_length_le (Nat.le_of_lt hshort)]
      rfl
    · rw [if_neg hshort, if_neg fun hand => absurd hand.2 (by omega)]
      rfl
  | notMark | malformed => rfl

variable (base64) in
theorem giveUp_eq (input carry : Bytes) (hcarry : s.carry = []) :
    ∃ r, s.resetBoundaryState.mainScan base64 input (input.length + 1) 0 0 = some r ∧
      flat (r.1, .reset :: (s.resetBoundaryState.forwardSeg carry).2 ++ r.2) = giveUp base64 s carry input := by
  obtain ⟨r, hr, hflat⟩ := mainScan_from base64 input (s := s.resetBoundaryState)
    (resetBoundaryState_carry.trans hcarry) (Nat.zero_le _)
  obtain ⟨hfst, hsnd⟩ := flat_eq hflat
  have hput : (s.resetBoundaryState.put carry).1 = s.resetBoundaryState :=
    resetBoundaryState_preForward (a := carry)
  refine ⟨r, hr, ?_⟩
  simp only [giveUp, andThen, hput, flat, flatMap_append, flatMap_cons, hfst, hsnd]
  rw [← flat_forwardSeg]
  rfl

/-- **A read on lists.**  It does not panic. -/
theorem feedHooked_eq (h : Held base64 s.carry) (input : Bytes) :
    ∃ r, s.feedHooked base64 input = some r ∧ flat r = s.feed base64 input := by
  unfold feedHooked feed
  by_cases hc : s.carry = []
  · rw [if_pos hc, if_pos hc]
    exact mainScan_from base64 _ hc (Nat.zero_le _)
  · rw [if_neg hc, if_neg hc, resolveCarry_eq h]
    cases hparse : parseOsc base64 ((s.carry ++ input).take osc133Max) with
    | mark len sub exit next cmdline =>
      have hall := parseOsc_of_take hparse SniffedOsc.noConfusion
      obtain ⟨-, hin, -⟩ := parseOsc_mark hall
      have hlt := h.lt_mark hall
      rw [length_append] at hin
      have hpos : len - s.carry.length ≤ input.length := by omega
      obtain ⟨r, hr, hflat⟩ := mainScan_from base64 _
        (s := ((s.hold []).onMark sub exit next cmdline ((s.carry ++ input).take len)).1) (onMark_carry ..) hpos
      have hdrop : (s.carry ++ input).drop len = input.drop (len - s.carry.length) := by
        rw [drop_append, drop_eq_nil_of_le (Nat.le_of_lt hlt), nil_append]
      obtain ⟨hfst, hsnd⟩ := flat_eq hflat
      dsimp only [Option.bind_eq_bind, Option.bind_some]
      rw [hr]
      refine ⟨_, rfl, ?_⟩
      simp only [flat, andThen, flatMap_append, hdrop, hfst, hsnd]
    | incomplete =>
      by_cases hshort : (s.carry ++ input).length < osc133Max
      · dsimp only
        rw [if_pos hshort, if_pos hshort]
        exact ⟨_, rfl, rfl⟩
      · obtain ⟨r, hr, hflat⟩ := giveUp_eq base64 input s.carry (s := s.hold []) rfl
        dsimp only
        rw [if_neg hshort, if_neg hshort]
        dsimp only [Option.bind_eq_bind, Option.bind_some]
        rw [hr]
        exact ⟨_, rfl, hflat⟩
    | notMark =>
      obtain ⟨r, hr, hflat⟩ := mainScan_from base64 input (s := ((s.hold []).forwardSeg s.carry).1)
        preForward_carry (Nat.zero_le _)
      obtain ⟨hfst, hsnd⟩ := flat_eq hflat
      dsimp only [Option.bind_eq_bind, Option.bind_some]
      rw [hr]
      refine ⟨_, rfl, ?_⟩
      rw [← flat_forwardSeg]
      simp only [flat, andThen, flatMap_append, hfst, hsnd]
      rfl
    | malformed =>
      obtain ⟨r, hr, hflat⟩ := giveUp_eq base64 input s.carry (s := s.hold []) rfl
      dsimp only [Option.bind_eq_bind, Option.bind_some]
      rw [hr]
      exact ⟨_, rfl, hflat⟩

/-! ## Bytes -/

@[simp] theorem andThen_fst (r : PromptSniffer × List Piece) (f : PromptSniffer → PromptSniffer × List Piece) :
    (andThen r f).1 = (f r.1).1 := rfl

@[simp] theorem andThen_snd (r : PromptSniffer × List Piece) (f : PromptSniffer → PromptSniffer × List Piece) :
    (andThen r f).2 = r.2 ++ (f r.1).2 := rfl

@[simp] theorem put_bytes : (s.put a).2.flatMap Piece.bytes = a := by
  simp only [put, flatMap_map, Piece.bytes]
  exact flatMap_singleton' a

@[simp] theorem put_carry : (s.put a).1.carry = s.carry := preForward_carry

theorem onMark_bytes (s : PromptSniffer) (sub : UInt8) (exit : Option ℤ) (next : Option PromptRegion)
    (cmdline : Option Str) (bytes : Bytes) :
    (flat (s.onMark sub exit next cmdline bytes)).2.flatMap Piece.bytes = bytes := by
  have hmark : ((s.apply sub next exit cmdline).drainMark bytes).2.bytes = bytes := rfl
  by_cases h : s.rejects next = true
  · simp [flat, onMark, h, SnifferEvent.pieces, Piece.bytes, hmark]
  · simp [flat, onMark, h, SnifferEvent.pieces, Piece.bytes, hmark]

def total (r : PromptSniffer × List Piece) : Bytes := r.2.flatMap Piece.bytes ++ r.1.carry

theorem total_andThen (r : PromptSniffer × List Piece) (f : PromptSniffer → PromptSniffer × List Piece) :
    total (andThen r f) = r.2.flatMap Piece.bytes ++ total (f r.1) := by
  simp [total]

variable (base64) in
theorem scan_total (h : s.carry = []) (input : Bytes) :
    total (scan base64 s input) = input ∧ Held base64 (scan base64 s input).1.carry := by
  induction hn : input.length using Nat.strongRecOn generalizing s input with
  | ind n ih =>
    cases input with
    | nil =>
      rw [scan_nil]
      exact ⟨h, h ▸ rfl⟩
    | cons b rest =>
      subst hn
      have hrest : ∀ s : PromptSniffer, s.carry = [] → _ := fun s hs => ih rest.length (Nat.lt_succ_self _) hs rest rfl
      by_cases hb : b = esc
      · subst hb
        cases hparse : parseOsc base64 (esc :: rest) with
        | mark len sub exit next cmdline =>
          obtain ⟨hpos, hlen, -⟩ := parseOsc_mark hparse
          rw [scan_esc_mark hparse, total_andThen, onMark_bytes]
          have hlater := ih ((esc :: rest).drop len).length (by rw [length_drop]; omega)
            (s := (s.onMark sub exit next cmdline ((esc :: rest).take len)).1) ((onMark_carry ..).trans h) _ rfl
          refine ⟨?_, hlater.2⟩
          show _ ++ total (scan base64 (s.onMark sub exit next cmdline ((esc :: rest).take len)).1 _) = _
          rw [hlater.1, take_append_drop]
        | incomplete =>
          rw [scan_esc_incomplete hparse]
          exact ⟨rfl, hparse⟩
        | notMark =>
          have hlater := hrest (s.put [esc]).1 (put_carry.trans h)
          rw [scan_esc_notMark hparse, total_andThen, put_bytes, hlater.1]
          exact ⟨rfl, hlater.2⟩
        | malformed =>
          have hlater := hrest (s.resetBoundaryState.put [esc]).1 (put_carry.trans (resetBoundaryState_carry.trans h))
          rw [scan_esc_malformed hparse, total_andThen, total_andThen, put_bytes, hlater.1]
          exact ⟨rfl, hlater.2⟩
      · have hlater := hrest (s.put [b]).1 (put_carry.trans h)
        rw [scan, if_neg hb, total_andThen, put_bytes, hlater.1]
        exact ⟨rfl, hlater.2⟩

theorem giveUp_total {carry input : Bytes} (h : s.carry = []) :
    total (giveUp base64 s carry input) = carry ++ input ∧ Held base64 (giveUp base64 s carry input).1.carry := by
  have hlater := scan_total base64 (s := (s.resetBoundaryState.put carry).1)
    (put_carry.trans (resetBoundaryState_carry.trans h)) input
  refine ⟨?_, hlater.2⟩
  rw [giveUp, total_andThen, total_andThen, put_bytes, hlater.1]
  rfl

variable (base64) in
/-- One read hands on, or holds, what was held and what was read. -/
theorem feed_total (input : Bytes) :
    total (s.feed base64 input) = s.carry ++ input ∧ Held base64 (s.feed base64 input).1.carry := by
  unfold feed
  by_cases hc : s.carry = []
  · rw [if_pos hc, hc, nil_append]
    exact scan_total base64 hc input
  · rw [if_neg hc]
    cases hparse : parseOsc base64 ((s.carry ++ input).take osc133Max) with
    | mark len sub exit next cmdline =>
      have hlater := scan_total base64
        (s := ((s.hold []).onMark sub exit next cmdline ((s.carry ++ input).take len)).1) (onMark_carry ..)
        ((s.carry ++ input).drop len)
      refine ⟨?_, hlater.2⟩
      dsimp only
      rw [total_andThen, onMark_bytes]
      show _ ++ total (scan base64 ((s.hold []).onMark sub exit next cmdline ((s.carry ++ input).take len)).1 _) = _
      rw [hlater.1, take_append_drop]
    | incomplete =>
      dsimp only
      by_cases hshort : (s.carry ++ input).length < osc133Max
      · rw [if_pos hshort]
        rw [take_of_length_le (Nat.le_of_lt hshort)] at hparse
        exact ⟨rfl, hparse⟩
      · rw [if_neg hshort]
        exact giveUp_total rfl
    | notMark =>
      have hlater := scan_total base64 (s := ((s.hold []).put s.carry).1) put_carry input
      refine ⟨?_, hlater.2⟩
      dsimp only
      rw [total_andThen, put_bytes, hlater.1]
    | malformed => exact giveUp_total rfl

end

end PromptSniffer

end NiumaTerm.Terminal
