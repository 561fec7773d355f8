import Mathlib.Algebra.BigOperators.Group.List.Basic
import NiumaTerm.ClaudeCode.Sessions.Showing
import NiumaTerm.ClaudeCode.TurnUsage

/-!
# What a restored turn took

The tokens that `parseTranscript` adds up are a sum over the records, the total of the live turn a sum
over the responses, so a response of several records is counted several times (`restored_twice`).  A
duration goes to the turn before if it hangs off the prompt itself.  `restored_accounts_iff` says when
every turn is restored with its own.
-/

namespace NiumaTerm.ClaudeCode

open Rust List

/-! ## Accounts -/

section

variable {durations : List (Str × ℕ)} {turn : TurnBuilder} {records : List Json}

theorem outputTokens_lt {record : Json} {tokens : ℕ} (h : outputTokens record = some tokens) :
    tokens < 2 ^ 64 := by
  rw [outputTokens] at h
  split_ifs at h
  rw [Json.asU64.eq_def] at h
  split at h
  · split_ifs at h with hlt
    cases h
    exact hlt
  · cases h

/-- The seconds that the last of the records with a duration gives. -/
def lastSeconds (durations : List (Str × ℕ)) (records : List Json) : Option ℕ :=
  ((records.filterMap (durationOf durations)).getLast?).map (· / 1000)

/-- The sum of counts, if there is any. -/
def sumOf (counts : List ℕ) : Option ℕ := if counts = [] then none else some counts.sum

theorem lastSeconds_cons (record : Json) : lastSeconds durations (record :: records) =
    (lastSeconds durations records).or ((durationOf durations record).map (· / 1000)) := by
  rw [lastSeconds, lastSeconds, filterMap_cons]
  cases durationOf durations record with
  | none => rw [Option.map_none, Option.or_none]
  | some duration =>
    rw [getLast?_cons]
    cases (records.filterMap (durationOf durations)).getLast? <;> rfl

theorem addTokens_none {tokens : Option ℕ} : addTokens none tokens = some tokens := by
  cases tokens <;> rfl

/-- What a turn took after some more records. -/
theorem foldlM_account (hroom : turn.outputTokens.getD 0 < 2 ^ 64) :
    records.foldlM (TurnBuilder.account durations) turn =
      if turn.outputTokens.getD 0 + (records.filterMap outputTokens).sum < 2 ^ 64 then
        some { turn with
          seconds := (lastSeconds durations records).or turn.seconds
          interrupted := turn.interrupted || records.any isInterruption
          outputTokens :=
            sumOf (turn.outputTokens.toList ++ records.filterMap outputTokens) }
      else none := by
  induction records generalizing turn with
  | nil =>
    rw [foldlM_nil, filterMap_nil, sum_nil, Nat.add_zero, if_pos hroom]
    obtain ⟨start, seconds, total, interrupted⟩ := turn
    cases total <;> simp [sumOf, lastSeconds]
  | cons record rest ih =>
    rw [lastSeconds_cons, any_cons]
    let charged (total : Option ℕ) : TurnBuilder :=
      { turn with
        seconds := ((durationOf durations record).map (· / 1000)).or turn.seconds
        interrupted := turn.interrupted || isInterruption record
        outputTokens := total }
    have hrest (total : Option ℕ) (hlt : total.getD 0 < 2 ^ 64) :
        rest.foldlM (TurnBuilder.account durations) (charged total) =
          if total.getD 0 + (rest.filterMap outputTokens).sum < 2 ^ 64 then
            some { turn with
              seconds := ((lastSeconds durations rest).or
                ((durationOf durations record).map (· / 1000))).or turn.seconds
              interrupted := turn.interrupted || (isInterruption record || rest.any isInterruption)
              outputTokens := sumOf (total.toList ++ rest.filterMap outputTokens) }
          else none := by
      rw [@ih (charged total) hlt, Option.or_assoc, ← Bool.or_assoc]
    have hstep : (record :: rest).foldlM (TurnBuilder.account durations) turn =
        (addTokens turn.outputTokens (outputTokens record)).bind fun total =>
          rest.foldlM (TurnBuilder.account durations) (charged total) := by
      rw [foldlM_cons, TurnBuilder.account]
      exact Option.bind_map ..
    rw [hstep]
    cases htokens : outputTokens record with
    | none =>
      have hadd : addTokens turn.outputTokens none = some turn.outputTokens := by
        cases turn.outputTokens <;> rfl
      rw [filterMap_cons_none htokens, hadd, Option.bind_some, hrest _ hroom]
    | some tokens =>
      have hlt := outputTokens_lt htokens
      rw [filterMap_cons_some htokens, sum_cons]
      cases htotal : turn.outputTokens with
      | none =>
        rw [addTokens_none, Option.bind_some, hrest (some tokens) hlt, Option.getD_some,
          Option.getD_none, Nat.zero_add]
        rfl
      | some total =>
        rw [addTokens, Option.getD_some, ← Nat.add_assoc]
        by_cases hsum : total + tokens < 2 ^ 64
        · rw [if_pos hsum, Option.bind_some, hrest (some (total + tokens)) hsum, Option.getD_some]
          simp only [sumOf, Option.toList_some, singleton_append, sum_cons,
            reduceCtorEq, if_false, Nat.add_assoc]
        · rw [if_neg hsum, Option.bind_none, if_neg (by omega)]

/-- What a turn without tokens took after some records. -/
theorem account_spec {turn' : TurnBuilder} (hnone : turn.outputTokens = none)
    (h : records.foldlM (TurnBuilder.account durations) turn = some turn') :
    (records.filterMap outputTokens).sum < 2 ^ 64 ∧ turn'.start = turn.start ∧
      turn'.seconds = (lastSeconds durations records).or turn.seconds ∧
      turn'.outputTokens = sumOf (records.filterMap outputTokens) := by
  rw [foldlM_account (by rw [hnone]; decide), hnone, Option.getD_none, Nat.zero_add] at h
  split_ifs at h with hlt
  cases h
  exact ⟨hlt, rfl, rfl, rfl⟩

theorem account_overflows (hnone : turn.outputTokens = none)
    (h : records.foldlM (TurnBuilder.account durations) turn = none) :
    2 ^ 64 ≤ (records.filterMap outputTokens).sum := by
  rw [foldlM_account (by rw [hnone]; decide), hnone, Option.getD_none, Nat.zero_add] at h
  split_ifs at h with hlt
  exact Nat.le_of_not_lt hlt

end

/-! ## Turns -/

def messageId (record : Json) : Option Str := ((record.get "message").get "id").asStr

/-- A response by the id of its message. -/
structure Response where
  id : Str
  streamed : StreamedResponse

def Response.tokens (r : Response) : ℕ := r.streamed.tokens

/-- A turn as it is stored, and as its messages came while it was live. -/
structure StoredTurn where
  prompt : Json
  body : List Json
  /-- The messages that were withdrawn before the turn. -/
  retracted : List Str
  live : List LiveMessage
  responses : List Response
  ids_nodup : (responses.map Response.id).Nodup
  reported : reportsOf retracted live = responses.flatMap fun r => r.streamed.reports
  stored : ∀ record ∈ body, ∀ tokens, outputTokens record = some tokens →
    ∃ r ∈ responses, messageId record = some r.id ∧ r.tokens = tokens
  found : ∀ r ∈ responses, ∃ record ∈ body,
    messageId record = some r.id ∧ outputTokens record = some r.tokens

namespace StoredTurn

variable (t : StoredTurn)

def records : List Json := t.prompt :: t.body

/-- The counts of its records. -/
def counts : List ℕ := t.body.filterMap outputTokens

/-- How many records a response has that report its tokens. -/
def recordsOf (r : Response) : ℕ :=
  t.body.countP fun record => (outputTokens record).isSome && messageId record = some r.id

/-- The last total that was published while the turn was live. -/
def liveTotal : Option ℕ := (totals {} (reportsOf t.retracted t.live)).getLast?

/-- Its duration, by the record that hangs off one of its messages. -/
def seconds (durations : List (Str × ℕ)) : Option ℕ :=
  (t.records.filterMap (durationOf durations)).head?.map (· / 1000)

end StoredTurn

section

variable {context : ReplayContext} {s : Reading}

theorem outputTokens_of_opens {record : Json} (h : opensTurn context record = true) :
    outputTokens record = none := by
  simp only [opensTurn, Bool.and_eq_true] at h
  have hno : (record.get "type").isText "assistant" = false := by
    by_contra hassistant
    rw [Bool.not_eq_false] at hassistant
    exact absurd (Json.isText_unique h.1.1.2 hassistant) (by decide)
  rw [outputTokens, hno]
  rfl

/-- Records that open no turn are taken by the turn there is. -/
theorem foldlM_read {body : List Json} (hbody : ∀ record ∈ body, opensTurn context record = false)
    (s : Reading) :
    (body.foldlM (Reading.read context) s = none ∧
      body.foldlM (TurnBuilder.account context.durations) s.turn = none) ∨
    ∃ s' turn, body.foldlM (Reading.read context) s = some s' ∧
      body.foldlM (TurnBuilder.account context.durations) s.turn = some turn ∧
      Reading.Extends { s with turn := turn } s' := by
  induction body generalizing s with
  | nil => exact .inr ⟨s, s.turn, rfl, rfl, .refl s⟩
  | cons record rest ih =>
    rw [foldlM_cons, foldlM_cons, Reading.read]
    cases haccount : s.turn.account context.durations record with
    | none => exact .inl ⟨rfl, rfl⟩
    | some turn =>
      have hshown := Reading.extends_display (s := { s with turn := turn })
        (hbody record mem_cons_self)
      have hrest := ih (fun other hother => hbody other (mem_cons_of_mem _ hother))
        (Reading.display context { s with turn := turn } record)
      rw [hshown.turn] at hrest
      refine hrest.imp id ?_
      rintro ⟨s', turn', hread, hturn, hextends⟩
      refine ⟨s', turn', hread, hturn, ?_, hextends.turn, ?_, ?_⟩
      · exact hextends.turns.trans hshown.turns
      · exact Nat.le_trans hshown.length hextends.length
      · exact fun i entry text hi hentry =>
          hextends.prompts i entry text (hshown.prompts i entry text hi hentry) hentry

/-- The prompt of a turn is in its place. -/
def Placed (context : ReplayContext) (items : List ReplayItem) (t : StoredTurn) (start : ℕ) :
    Prop :=
  ∃ text time, promptText context.sidechain t.prompt = some text ∧
    items[start]? = some ⟨.userMessage (some text), time⟩

/-- The builders of some turns.  What hangs off a prompt went to the turn before it; the first turn
here holds `carried`. -/
inductive Built (context : ReplayContext) (items : List ReplayItem) :
    Option ℕ → ℕ → List StoredTurn → List TurnBuilder → Prop
  | nil {carried : Option ℕ} {low : ℕ} : Built context items carried low [] []
  | cons {carried : Option ℕ} {low : ℕ} {t : StoredTurn} {rest : List StoredTurn} {b : TurnBuilder}
      {bs : List TurnBuilder} (hlow : low ≤ b.start) (hplaced : Placed context items t b.start)
      (htokens : b.outputTokens = sumOf t.counts)
      (hseconds : b.seconds = (lastSeconds context.durations
        (t.body ++ (rest.head?.map StoredTurn.prompt).toList)).or carried)
      (hrest : Built context items none (b.start + 1) rest bs) :
      Built context items carried low (t :: rest) (b :: bs)

theorem Built.mono {items : List ReplayItem} {carried : Option ℕ} {low low' : ℕ}
    {ts : List StoredTurn} {bs : List TurnBuilder} (h : Built context items carried low ts bs)
    (hle : low' ≤ low) : Built context items carried low' ts bs := by
  cases h with
  | nil => exact .nil
  | cons hlow hplaced htokens hseconds hrest =>
    exact .cons (Nat.le_trans hle hlow) hplaced htokens hseconds hrest

/-- The turns are read from the prompt of the first one on. -/
theorem foldlM_turns (t : StoredTurn) (rest : List StoredTurn) (s : Reading)
    (hstart : s.turn.start < s.items.length) (hplaced : Placed context s.items t s.turn.start)
    (hnone : s.turn.outputTokens = none)
    (hopens : ∀ t' ∈ rest, opensTurn context t'.prompt = true)
    (hbody : ∀ t' ∈ t :: rest, ∀ record ∈ t'.body, opensTurn context record = false) :
    ((t.body ++ rest.flatMap StoredTurn.records).foldlM (Reading.read context) s = none ∧
      ∃ t' ∈ t :: rest, 2 ^ 64 ≤ t'.counts.sum) ∨
    (∀ t' ∈ t :: rest, t'.counts.sum < 2 ^ 64) ∧ ∃ s' bs,
      (t.body ++ rest.flatMap StoredTurn.records).foldlM (Reading.read context) s = some s' ∧
      s'.turns ++ [s'.turn] = s.turns ++ bs ∧
      Built context s'.items s.turn.seconds s.turn.start (t :: rest) bs ∧
      ∀ (i : ℕ) (entry : ReplayItem) (text : Option Str), s.items[i]? = some entry →
        entry.item = .userMessage text → s'.items[i]? = some entry := by
  induction rest generalizing t s with
  | nil =>
    rw [flatMap_nil, append_nil]
    rcases foldlM_read (hbody t mem_cons_self) s with ⟨hread, hturn⟩ | ⟨s', turn, hread, hturn, h⟩
    · exact .inl ⟨hread, t, mem_cons_self, account_overflows hnone hturn⟩
    · obtain ⟨hsum, hstart', hseconds, htokens⟩ := account_spec hnone hturn
      refine .inr ⟨forall_mem_singleton.mpr hsum, s', [turn], hread, ?_,
        .cons ?_ ?_ htokens ?_ .nil, h.prompts⟩
      · rw [h.turns, h.turn]
      · exact Nat.le_of_eq hstart'.symm
      · obtain ⟨text, time, htext, hentry⟩ := hplaced
        exact ⟨text, time, htext, by rw [hstart']; exact h.prompts _ _ _ hentry rfl⟩
      · rw [hseconds, head?_nil, Option.map_none, Option.toList_none, append_nil]
  | cons t₂ rest ih =>
    have hopen := hopens t₂ mem_cons_self
    have hcounts : (t.body ++ [t₂.prompt]).filterMap outputTokens = t.counts := by
      rw [filterMap_append, filterMap_cons_none (outputTokens_of_opens hopen),
        filterMap_nil, append_nil, StoredTurn.counts]
    have hsplit : t.body ++ (t₂ :: rest).flatMap StoredTurn.records =
        t.body ++ t₂.prompt :: (t₂.body ++ rest.flatMap StoredTurn.records) := by
      rw [flatMap_cons, StoredTurn.records, cons_append]
    rw [hsplit, foldlM_append]
    rcases foldlM_read (hbody t mem_cons_self) s with ⟨hread, hturn⟩ | ⟨s₁, turn, hread, hturn, h⟩
    · exact .inl ⟨by rw [hread]; rfl, t, mem_cons_self, account_overflows hnone hturn⟩
    -- the prompt of the next turn is taken by this one, and opens the next
    rw [hread, Option.bind_eq_bind, Option.bind_some, foldlM_cons, Reading.read, h.turn]
    have hboth : (t.body ++ [t₂.prompt]).foldlM (TurnBuilder.account context.durations) s.turn =
        turn.account context.durations t₂.prompt := by
      rw [foldlM_append, hturn, Option.bind_eq_bind, Option.bind_some, foldlM_cons]
      cases turn.account context.durations t₂.prompt <;> rfl
    cases hclosed : turn.account context.durations t₂.prompt with
    | none =>
      have hover := account_overflows hnone (hboth.trans hclosed)
      rw [hcounts] at hover
      exact .inl ⟨rfl, t, mem_cons_self, hover⟩
    | some closed =>
      obtain ⟨hsum, hclosedStart, hseconds, htokens⟩ := account_spec hnone (hboth.trans hclosed)
      rw [hcounts] at hsum htokens
      have hdisplay := Reading.display_of_opens (s := { s₁ with turn := closed }) hopen
      have hstart₁ : closed.start < s₁.items.length := by
        rw [hclosedStart]
        exact Nat.lt_of_lt_of_le hstart h.length
      have hturns := hdisplay.turns
      have hturn₂ := hdisplay.turn
      rw [if_pos hstart₁] at hturns hturn₂
      rw [Option.map_some, Option.bind_eq_bind, Option.bind_some]
      generalize Reading.display context { s₁ with turn := closed } t₂.prompt = s₂
        at hdisplay hturns hturn₂ ⊢
      have hkeeps : ∀ (i : ℕ) (entry : ReplayItem) (text : Option Str), s.items[i]? = some entry →
          entry.item = .userMessage text → s₂.items[i]? = some entry := fun i entry text hi hentry =>
        hdisplay.prompts i entry text (h.prompts i entry text hi hentry) hentry
      have hplaced₂ : Placed context s₂.items t₂ s₂.turn.start := by
        rw [hturn₂]
        exact hdisplay.placed
      have hstart₂ : s₂.turn.start < s₂.items.length := by
        rw [hturn₂, hdisplay.length]
        exact Nat.lt_succ_self _
      rcases ih t₂ s₂ hstart₂ hplaced₂ (by rw [hturn₂])
          (fun t' ht' => hopens t' (mem_cons_of_mem _ ht'))
          (fun t' ht' => hbody t' (mem_cons_of_mem _ ht')) with
        ⟨hread', t', ht', hover⟩ | ⟨hsums, s', bs, hread', hturns', hbuilt, hkeeps'⟩
      · exact .inl ⟨hread', t', mem_cons_of_mem _ ht', hover⟩
      · refine .inr ⟨forall_mem_cons.mpr ⟨hsum, hsums⟩, s', closed :: bs, hread', ?_, ?_, ?_⟩
        · rw [hturns', hturns, append_assoc]
          exact congrArg (· ++ closed :: bs) h.turns
        · refine .cons (Nat.le_of_eq hclosedStart.symm) ?_ htokens ?_ ?_
          · obtain ⟨text, time, htext, hentry⟩ := hplaced
            rw [hclosedStart]
            exact ⟨text, time, htext, hkeeps' _ _ _ (hkeeps _ _ _ hentry rfl) rfl⟩
          · rw [hseconds]
            rfl
          · rw [hturn₂] at hbuilt
            exact hbuilt.mono hstart₁
        · exact fun i entry text hi hentry =>
            hkeeps' i entry text (hkeeps i entry text hi hentry) hentry

/-- The turns that the builders are cut into. -/
theorem sliceTurns_built {items : List ReplayItem} {carried : Option ℕ} {low : ℕ}
    {ts : List StoredTurn} {bs : List TurnBuilder} (h : Built context items carried low ts bs) :
    Forall₂ (fun b r => r.items.head? = items[b.start]? ∧ r.outputTokens = b.outputTokens ∧
      r.seconds = b.seconds) bs (sliceTurns items bs) := by
  induction h with
  | nil => exact .nil
  | @cons carried low t rest b bs hlow hplaced htokens hseconds hrest ih =>
    obtain ⟨text, time, -, hentry⟩ := hplaced
    have hlt := (List.getElem?_eq_some_iff.mp hentry).1
    have hstop : b.start < turnEnd items bs := by
      rw [turnEnd]
      cases hrest with
      | nil => exact hlt
      | cons hlow' => exact Nat.lt_min.mpr ⟨hlow', hlt⟩
    have hhead : ((items.take (turnEnd items bs)).drop b.start).head? = items[b.start]? := by
      rw [head?_drop, getElem?_take_of_lt hstop]
    have hne : ((items.take (turnEnd items bs)).drop b.start).isEmpty = false := by
      rw [← Bool.not_eq_true, List.isEmpty_iff]
      intro hnil
      rw [hnil, hentry] at hhead
      cases hhead
    simp only [sliceTurns, hne, Bool.false_eq_true, if_false]
    exact .cons ⟨hhead, rfl, rfl⟩ ih

end

/-! ## What the counts come to -/

/-- A sum does not shrink by factors, and is not changed by them just if each of them is one or has
nothing to count. -/
theorem sum_map_mul {α : Type*} {l : List α} {n f : α → ℕ} (hn : ∀ a ∈ l, 1 ≤ n a) :
    (l.map f).sum ≤ (l.map fun a => n a * f a).sum ∧
      ((l.map fun a => n a * f a).sum = (l.map f).sum ↔ ∀ a ∈ l, n a = 1 ∨ f a = 0) := by
  induction l with
  | nil => simp
  | cons a rest ih =>
    obtain ⟨hle, hiff⟩ := ih fun b hb => hn b (mem_cons_of_mem _ hb)
    have hone : f a ≤ n a * f a := Nat.le_mul_of_pos_left _ (hn a mem_cons_self)
    have hfirst : n a * f a = f a ↔ n a = 1 ∨ f a = 0 := by
      by_cases hzero : f a = 0
      · simp [hzero]
      · rw [Nat.mul_eq_right hzero]
        simp [hzero]
    rw [forall_mem_cons, ← hiff, ← hfirst, map_cons, map_cons, sum_cons, sum_cons]
    omega

/-- The tokens of one of some things with keys of their own. -/
theorem sum_map_ite {α κ : Type*} [DecidableEq κ] {l : List α} {key : α → κ} {f : α → ℕ} {a : α}
    (hnodup : (l.map key).Nodup) (ha : a ∈ l) :
    (l.map fun b => if key a = key b then f b else 0).sum = f a := by
  induction l with
  | nil => cases ha
  | cons b rest ih =>
    rw [map_cons, nodup_cons] at hnodup
    rw [map_cons, sum_cons]
    rcases mem_cons.mp ha with rfl | ha
    · have hzero : (rest.map fun b => if key a = key b then f b else 0).sum = 0 := by
        rw [List.sum_eq_zero_iff_forall_eq_nat]
        intro x hx
        obtain ⟨b, hb, rfl⟩ := mem_map.mp hx
        exact if_neg fun he => hnodup.1 (mem_map.mpr ⟨b, hb, he.symm⟩)
      rw [hzero, if_pos rfl, Nat.add_zero]
    · rw [if_neg fun he => hnodup.1 (mem_map.mpr ⟨a, ha, he⟩), Nat.zero_add, ih hnodup.2 ha]

/-- What a response adds to the sum: its tokens for each of its records. -/
theorem sum_outputTokens {responses : List Response} {body : List Json}
    (hnodup : (responses.map Response.id).Nodup)
    (hstored : ∀ record ∈ body, ∀ tokens, outputTokens record = some tokens →
      ∃ r ∈ responses, messageId record = some r.id ∧ r.tokens = tokens) :
    (body.filterMap outputTokens).sum = (responses.map fun r =>
      body.countP (fun record => (outputTokens record).isSome && messageId record = some r.id) *
        r.tokens).sum := by
  induction body with
  | nil => simp
  | cons record rest ih =>
    have ih := ih fun other hother => hstored other (mem_cons_of_mem _ hother)
    cases htokens : outputTokens record with
    | none =>
      rw [filterMap_cons_none htokens, ih]
      simp only [countP_cons, htokens, Option.isSome_none, Bool.false_and,
        Bool.false_eq_true, if_false, Nat.add_zero]
    | some tokens =>
      obtain ⟨r, hr, hid, rfl⟩ := hstored record mem_cons_self tokens htokens
      have hone := sum_map_ite (f := Response.tokens) hnodup hr
      rw [filterMap_cons_some htokens, sum_cons, ih, ← hone, ← sum_map_add]
      refine congrArg List.sum (map_congr_left fun r' _ => ?_)
      rw [countP_cons, htokens, hid]
      simp only [Option.isSome_some, Bool.true_and, decide_eq_true_eq, Option.some.injEq]
      split
      · rw [Nat.add_mul, Nat.one_mul, Nat.add_comm]
      · rw [Nat.zero_add, Nat.add_zero]

namespace StoredTurn

variable (t : StoredTurn)

theorem counts_sum : t.counts.sum = (t.responses.map fun r => t.recordsOf r * r.tokens).sum :=
  sum_outputTokens t.ids_nodup t.stored

theorem recordsOf_pos {r : Response} (hr : r ∈ t.responses) : 1 ≤ t.recordsOf r := by
  obtain ⟨record, hrecord, hid, htokens⟩ := t.found r hr
  exact countP_pos_iff.mpr ⟨record, hrecord, by simp [hid, htokens]⟩

theorem counts_eq_nil_iff : t.counts = [] ↔ t.responses = [] := by
  rw [counts, filterMap_eq_nil_iff, eq_nil_iff_forall_not_mem]
  constructor
  · intro hnone r hr
    obtain ⟨record, hrecord, -, htokens⟩ := t.found r hr
    cases (hnone record hrecord).symm.trans htokens
  · intro hnone record hrecord
    by_contra hsome
    obtain ⟨tokens, htokens⟩ := Option.ne_none_iff_exists'.mp hsome
    obtain ⟨r, hr, -⟩ := t.stored record hrecord tokens htokens
    exact hnone r hr

theorem liveTotal_eq : t.liveTotal = if t.responses = [] then none
    else some (min (t.responses.map Response.tokens).sum (2 ^ 64 - 1)) := by
  have hreports : reportsOf t.retracted t.live =
      (t.responses.map Response.streamed).flatMap StreamedResponse.reports := by
    rw [t.reported, flatMap_map]
  rw [liveTotal, hreports, getLast?_totals_responses]
  simp only [map_map, map_eq_nil_iff]
  rfl

/-- **One turn.**  The sum of its records is the last live total just if every response that took
tokens has one record. -/
theorem sumOf_eq_liveTotal_iff (hfits : t.counts.sum < 2 ^ 64) :
    sumOf t.counts = t.liveTotal ↔ ∀ r ∈ t.responses, t.recordsOf r = 1 ∨ r.tokens = 0 := by
  obtain ⟨hle, hiff⟩ := sum_map_mul (n := t.recordsOf) (f := Response.tokens)
    fun r hr => t.recordsOf_pos hr
  rw [t.counts_sum] at hfits
  rw [← hiff, sumOf, liveTotal_eq, t.counts_sum]
  simp only [t.counts_eq_nil_iff]
  by_cases hnil : t.responses = []
  · simp [hnil]
  · rw [if_neg hnil, if_neg hnil, Option.some.injEq]
    omega

end StoredTurn

/-! ## Where the durations go -/

section

variable {durations : List (Str × ℕ)}

theorem lastSeconds_eq_none {records : List Json}
    (h : records.filterMap (durationOf durations) = []) : lastSeconds durations records = none := by
  rw [lastSeconds, h]
  rfl

/-- The duration of a turn hangs off its prompt, or off its body. -/
theorem StoredTurn.seconds_cases (t : StoredTurn)
    (hone : (t.records.filterMap (durationOf durations)).length ≤ 1) :
    (t.body.filterMap (durationOf durations) = [] ∧
      t.seconds durations = (durationOf durations t.prompt).map (· / 1000)) ∨
    (durationOf durations t.prompt = none ∧ t.seconds durations = lastSeconds durations t.body) := by
  rw [StoredTurn.seconds]
  rw [StoredTurn.records] at hone ⊢
  cases hprompt : durationOf durations t.prompt with
  | none =>
    rw [filterMap_cons_none hprompt] at hone ⊢
    refine .inr ⟨rfl, ?_⟩
    rw [lastSeconds]
    match t.body.filterMap (durationOf durations), hone with
    | [], _ => rfl
    | [duration], _ => rfl
  | some duration =>
    rw [filterMap_cons_some hprompt] at hone ⊢
    exact .inl ⟨length_eq_zero_iff.mp (Nat.le_zero.mp (Nat.le_of_succ_le_succ hone)), rfl⟩

theorem StoredTurn.seconds_iff (t : StoredTurn)
    (hone : (t.records.filterMap (durationOf durations)).length ≤ 1) :
    lastSeconds durations t.body = t.seconds durations ↔ durationOf durations t.prompt = none := by
  rcases t.seconds_cases hone with ⟨hbody, hseconds⟩ | ⟨hprompt, hseconds⟩
  · rw [lastSeconds_eq_none hbody, hseconds]
    cases durationOf durations t.prompt <;> simp
  · exact iff_of_true hseconds.symm hprompt

/-- A turn that took what hangs off its own prompt has its duration. -/
theorem StoredTurn.seconds_carried (t : StoredTurn)
    (hone : (t.records.filterMap (durationOf durations)).length ≤ 1) :
    (lastSeconds durations t.body).or ((durationOf durations t.prompt).map (· / 1000)) =
      t.seconds durations := by
  rcases t.seconds_cases hone with ⟨hbody, hseconds⟩ | ⟨hprompt, hseconds⟩
  · rw [lastSeconds_eq_none hbody, hseconds, Option.none_or]
  · rw [hprompt, hseconds, Option.map_none, Option.or_none]

/-- Prompts without a duration add none to the turns before them. -/
theorem lastSeconds_next {body : List Json} {rest : List StoredTurn}
    (h : ∀ t ∈ rest, durationOf durations t.prompt = none) :
    lastSeconds durations (body ++ (rest.head?.map StoredTurn.prompt).toList) =
      lastSeconds durations body := by
  cases rest with
  | nil => rw [head?_nil, Option.map_none, Option.toList_none, append_nil]
  | cons t rest =>
    rw [lastSeconds, lastSeconds, filterMap_append, head?_cons, Option.map_some,
      Option.toList_some, filterMap_cons_none (h t mem_cons_self), filterMap_nil,
      append_nil]

end

section

variable {context : ReplayContext} {items : List ReplayItem} {low : ℕ} {ts : List StoredTurn}
  {bs : List TurnBuilder}

/-- The turns have their durations just if none of these hangs off a prompt. -/
theorem Built.seconds_iff {carried : Option ℕ} (h : Built context items carried low ts bs)
    (hone : ∀ t ∈ ts, (t.records.filterMap (durationOf context.durations)).length ≤ 1)
    (hcarried : carried = none) :
    Forall₂ (fun t b => b.seconds = t.seconds context.durations) ts bs ↔
      ∀ t ∈ ts, durationOf context.durations t.prompt = none := by
  induction h with
  | nil => simp
  | @cons carried low t rest b bs _ _ _ hseconds _ ih =>
    subst hcarried
    rw [forall₂_cons, forall_mem_cons,
      ih (fun t' ht' => hone t' (mem_cons_of_mem _ ht')) rfl, hseconds, Option.or_none]
    refine and_congr_left fun hrest => ?_
    rw [lastSeconds_next hrest]
    exact t.seconds_iff (hone t mem_cons_self)

/-- The first turn may have taken what hangs off its own prompt. -/
theorem Built.seconds_iff_of_carried {t : StoredTurn}
    (h : Built context items ((durationOf context.durations t.prompt).map (· / 1000)) low
      (t :: ts) bs)
    (hone : ∀ t' ∈ t :: ts, (t'.records.filterMap (durationOf context.durations)).length ≤ 1) :
    Forall₂ (fun t b => b.seconds = t.seconds context.durations) (t :: ts) bs ↔
      ∀ t' ∈ ts, durationOf context.durations t'.prompt = none := by
  cases h with
  | @cons _ _ _ _ b bs _ _ _ hseconds hrest =>
    rw [forall₂_cons, hrest.seconds_iff (fun t' ht' => hone t' (mem_cons_of_mem _ ht')) rfl,
      hseconds, and_iff_right_iff_imp]
    intro hnone
    rw [lastSeconds_next hnone]
    exact t.seconds_carried (hone t mem_cons_self)

end

/-! ## The whole transcript -/

/-- A transcript of turns: what is read before the first prompt took nothing, and a turn has one
duration at most. -/
structure Stored (context : ReplayContext) (lead : List Json) (ts : List StoredTurn) : Prop where
  lead : ∀ record ∈ lead, opensTurn context record = false ∧ outputTokens record = none ∧
    durationOf context.durations record = none
  opens : ∀ t ∈ ts, opensTurn context t.prompt = true
  bodies : ∀ t ∈ ts, ∀ record ∈ t.body, opensTurn context record = false
  durations : ∀ t ∈ ts, (t.records.filterMap (durationOf context.durations)).length ≤ 1

/-- The turn is restored from its own prompt on, with its tokens and its duration. -/
structure Restores (context : ReplayContext) (t : StoredTurn) (r : ReplayTurn) : Prop where
  prompt : ∃ text time, promptText context.sidechain t.prompt = some text ∧
    r.items.head? = some ⟨.userMessage (some text), time⟩
  outputTokens : r.outputTokens = t.liveTotal
  seconds : r.seconds = t.seconds context.durations

/-- The turns whose own durations would go to the turn before, if they hung off their prompts. -/
def laterTurns (context : ReplayContext) (lead : List Json) (ts : List StoredTurn) :
    List StoredTurn :=
  if lead.any (showsItem context) then ts else ts.tail

section

variable {context : ReplayContext} {lead : List Json} {ts : List StoredTurn} {items : List ReplayItem}

theorem Built.placed_sliceTurns {carried : Option ℕ} {low : ℕ} {bs : List TurnBuilder}
    (h : Built context items carried low ts bs) :
    Forall₂ (fun t b => Placed context items t b.start ∧ b.outputTokens = sumOf t.counts) ts
      bs := by
  induction h with
  | nil => exact .nil
  | cons _ hplaced htokens _ _ ih => exact .cons ⟨hplaced, htokens⟩ ih

/-- The turns cut from their builders are the stored ones just if their tokens and durations are. -/
theorem Built.restores_iff {carried : Option ℕ} {low : ℕ} {bs : List TurnBuilder}
    (h : Built context items carried low ts bs) :
    Forall₂ (Restores context) ts (sliceTurns items bs) ↔
      (∀ t ∈ ts, sumOf t.counts = t.liveTotal) ∧
        Forall₂ (fun t b => b.seconds = t.seconds context.durations) ts bs := by
  have hplaced := h.placed_sliceTurns
  have hsliced := sliceTurns_built h
  generalize sliceTurns items bs = shown at hsliced
  clear h
  induction hplaced generalizing shown with
  | nil =>
    cases hsliced
    simp
  | @cons t b ts bs hone _ ih =>
    obtain ⟨⟨text, time, htext, hentry⟩, htokens⟩ := hone
    cases hsliced with
    | cons hshown hrest =>
      have hfirst : ∀ r : ReplayTurn, r.items.head? = items[b.start]? ∧
          r.outputTokens = b.outputTokens ∧ r.seconds = b.seconds →
          (Restores context t r ↔ sumOf t.counts = t.liveTotal ∧
            b.seconds = t.seconds context.durations) := by
        rintro r ⟨hhead, houtput, hseconds⟩
        constructor
        · intro hr
          exact ⟨by rw [← htokens, ← houtput, hr.outputTokens], by rw [← hseconds, hr.seconds]⟩
        · rintro ⟨ht, hs⟩
          exact ⟨⟨text, time, htext, hhead.trans hentry⟩, by rw [houtput, htokens, ht],
            by rw [hseconds, hs]⟩
      rw [forall₂_cons, forall_mem_cons, forall₂_cons]
      exact (and_congr (hfirst _ hshown) (ih _ hrest)).trans and_and_and_comm

/-- A turn in front of the others is cut off them, or has nothing. -/
theorem exists_sliceTurns (items : List ReplayItem) {front : List TurnBuilder}
    (hfront : front.length ≤ 1) (bs : List TurnBuilder) :
    ∃ shown, shown.length ≤ 1 ∧ sliceTurns items (front ++ bs) = shown ++ sliceTurns items bs := by
  match front, hfront with
  | [], _ => exact ⟨[], Nat.zero_le _, rfl⟩
  | [b], _ =>
    rw [singleton_append]
    simp only [sliceTurns]
    split
    · exact ⟨[], Nat.zero_le _, rfl⟩
    · exact ⟨[_], Nat.le_refl _, rfl⟩

/-- Reading the records before the first prompt. -/
theorem Stored.foldlM_lead (h : Stored context lead ts) :
    ∃ s, lead.foldlM (Reading.read context) {} = some s ∧ s.turns = [] ∧ s.turn.start = 0 ∧
      s.turn.seconds = none ∧ s.turn.outputTokens = none ∧
      (0 < s.items.length ↔ lead.any (showsItem context) = true) := by
  have hnone : lead.filterMap outputTokens = [] :=
    filterMap_eq_nil_iff.mpr fun record hrecord => (h.lead record hrecord).2.1
  have hseconds : lead.filterMap (durationOf context.durations) = [] :=
    filterMap_eq_nil_iff.mpr fun record hrecord => (h.lead record hrecord).2.2
  have hopen : ∀ record ∈ lead, opensTurn context record = false := fun record hrecord =>
    (h.lead record hrecord).1
  rcases foldlM_read hopen {} with ⟨-, hturn⟩ | ⟨s, turn, hread, hturn, hextends⟩
  · have hover := account_overflows rfl hturn
    rw [hnone] at hover
    exact absurd hover (by decide)
  · obtain ⟨-, hstart, hsec, htokens⟩ := account_spec rfl hturn
    refine ⟨s, hread, hextends.turns, ?_, ?_, ?_, ?_⟩
    · rw [hextends.turn, hstart]
    · rw [hextends.turn, hsec, lastSeconds_eq_none hseconds]
      rfl
    · rw [hextends.turn, htokens, hnone]
      rfl
    · rw [Reading.length_pos_foldlM hopen hread]
      simp

/-- All the turns, with the builder of what stands before the first one, if that shows anything. -/
theorem Stored.foldlM_records (h : Stored context lead ts) :
    ((lead ++ ts.flatMap StoredTurn.records).foldlM (Reading.read context) {} = none ∧
      ∃ t ∈ ts, 2 ^ 64 ≤ t.counts.sum) ∨
    (∀ t ∈ ts, t.counts.sum < 2 ^ 64) ∧ ∃ s front bs carried,
      (lead ++ ts.flatMap StoredTurn.records).foldlM (Reading.read context) {} = some s ∧
      s.turns ++ [s.turn] = front ++ bs ∧ front.length ≤ 1 ∧
      Built context s.items carried 0 ts bs ∧
      (Forall₂ (fun t b => b.seconds = t.seconds context.durations) ts bs ↔
        ∀ t ∈ laterTurns context lead ts, durationOf context.durations t.prompt = none) := by
  obtain ⟨s₀, hread₀, hturns₀, hstart₀, hseconds₀, htokens₀, hpos⟩ := h.foldlM_lead
  rw [foldlM_append, hread₀, Option.bind_eq_bind, Option.bind_some]
  cases ts with
  | nil =>
    refine .inr ⟨by simp, s₀, [s₀.turn], [], none, rfl, by rw [hturns₀]; rfl, Nat.le_refl _,
      .nil, ?_⟩
    simp [laterTurns]
  | cons t rest =>
    have hopen := h.opens t mem_cons_self
    have hprompt := outputTokens_of_opens hopen
    have hsplit : (t :: rest).flatMap StoredTurn.records =
        t.prompt :: (t.body ++ rest.flatMap StoredTurn.records) := by
      rw [flatMap_cons, StoredTurn.records, cons_append]
    -- the prompt is accounted to the builder that stands before it
    let closed : TurnBuilder :=
      { s₀.turn with
        seconds := (durationOf context.durations t.prompt).map (· / 1000)
        interrupted := s₀.turn.interrupted || isInterruption t.prompt }
    have haccount : s₀.turn.account context.durations t.prompt = some closed := by
      rw [TurnBuilder.account, hprompt, htokens₀, addTokens_none, hseconds₀, Option.or_none,
        Option.map_some, ← htokens₀]
    rw [hsplit, foldlM_cons, Reading.read, haccount, Option.map_some, Option.bind_eq_bind,
      Option.bind_some]
    have hdisplay := Reading.display_of_opens (s := { s₀ with turn := closed }) hopen
    generalize Reading.display context { s₀ with turn := closed } t.prompt = s at hdisplay ⊢
    have hturns := hdisplay.turns
    have hturn := hdisplay.turn
    have hlength : s.items.length = s₀.items.length + 1 := hdisplay.length
    have hplacedAt : Placed context s.items t s₀.items.length := hdisplay.placed
    have hclosed : closed.start = 0 := hstart₀
    simp only [hclosed] at hturns hturn
    have hopens : ∀ t' ∈ rest, opensTurn context t'.prompt = true := fun t' ht' =>
      h.opens t' (mem_cons_of_mem _ ht')
    by_cases hshown : 0 < s₀.items.length
    · rw [if_pos hshown] at hturns hturn
      have hstart : s.turn.start < s.items.length := by
        rw [hturn, hlength]
        exact Nat.lt_succ_self _
      have hplaced : Placed context s.items t s.turn.start := by
        rw [hturn]
        exact hplacedAt
      refine (foldlM_turns t rest s hstart hplaced (by rw [hturn]) hopens h.bodies).imp id ?_
      rintro ⟨hsums, s', bs, hread, hturns', hbuilt, -⟩
      rw [hturn] at hbuilt
      refine ⟨hsums, s', [closed], bs, none, hread, ?_, Nat.le_refl _, hbuilt.mono (Nat.zero_le _),
        ?_⟩
      · rw [hturns', hturns, hturns₀]
        rfl
      · rw [hbuilt.seconds_iff h.durations rfl, laterTurns, if_pos (hpos.mp hshown)]
    · rw [if_neg hshown] at hturns hturn
      have hzero : s₀.items.length = 0 := Nat.eq_zero_of_not_pos hshown
      have hstart : s.turn.start < s.items.length := by
        rw [hturn, hlength, hclosed]
        exact Nat.succ_pos _
      have hplaced : Placed context s.items t s.turn.start := by
        rw [hturn, hclosed, ← hzero]
        exact hplacedAt
      have hnone : s.turn.outputTokens = none := by rw [hturn, ← htokens₀]
      refine (foldlM_turns t rest s hstart hplaced hnone hopens h.bodies).imp id ?_
      rintro ⟨hsums, s', bs, hread, hturns', hbuilt, -⟩
      rw [hturn] at hbuilt
      refine ⟨hsums, s', [], bs, _, hread, ?_, Nat.zero_le _, hbuilt.mono (Nat.zero_le _), ?_⟩
      · rw [hturns', hturns, hturns₀]
      · rw [hbuilt.seconds_iff_of_carried h.durations, laterTurns,
          if_neg fun hany => hshown (hpos.mpr hany)]
        rfl

/-- **Restored accounts.**  A transcript is replayed as one turn for each prompt, with the last live
total and its own duration, just if the counts of no turn leave 64 bits, every response that took
tokens is stored as one record, and no duration hangs off a prompt that another turn stands before.
-/
theorem restored_accounts_iff (transcript : TranscriptIndex) (sidechain : Bool)
    (unixSeconds : Str → Option ℤ) (newUuid : ℕ → Str)
    (h : Stored (replayContext transcript sidechain unixSeconds newUuid) lead ts)
    (hrecords : replayRecords transcript sidechain = lead ++ ts.flatMap StoredTurn.records) :
    (∃ front shown, parseTranscript transcript sidechain unixSeconds newUuid =
        some (front ++ shown) ∧ front.length ≤ 1 ∧
        Forall₂ (Restores (replayContext transcript sidechain unixSeconds newUuid)) ts shown) ↔
      (∀ t ∈ ts, t.counts.sum < 2 ^ 64 ∧ ∀ r ∈ t.responses, t.recordsOf r = 1 ∨ r.tokens = 0) ∧
        ∀ t ∈ laterTurns (replayContext transcript sidechain unixSeconds newUuid) lead ts,
          durationOf (turnDurations transcript.records) t.prompt = none := by
  have hdurations : (replayContext transcript sidechain unixSeconds newUuid).durations =
      turnDurations transcript.records := rfl
  rw [parseTranscript, hrecords]
  rw [← hdurations]
  rcases h.foldlM_records with ⟨hread, t, ht, hover⟩ | ⟨hsums, s, front, bs, carried, hread, hturns,
    hfront, hbuilt, hseconds⟩
  · rw [hread]
    refine iff_of_false ?_ fun hall ↦ absurd (hall.1 t ht).1 (Nat.not_lt.mpr hover)
    rintro ⟨front, shown, hnone, -⟩
    cases hnone
  · obtain ⟨front', hfront', hslice⟩ := exists_sliceTurns s.items hfront bs
    have hlength : (sliceTurns s.items bs).length = ts.length := by
      rw [← (sliceTurns_built hbuilt).length_eq, hbuilt.placed_sliceTurns.length_eq]
    have hout : (∃ front shown, Option.map Reading.slice (some s) = some (front ++ shown) ∧
        front.length ≤ 1 ∧ Forall₂ (Restores
          (replayContext transcript sidechain unixSeconds newUuid)) ts shown) ↔
        Forall₂ (Restores (replayContext transcript sidechain unixSeconds newUuid)) ts
          (sliceTurns s.items bs) := by
      rw [Option.map_some, Reading.slice, hturns, hslice]
      constructor
      · rintro ⟨front, shown, heq, -, hall⟩
        have hshown := append_inj_right' (Option.some.inj heq)
          (hlength.trans hall.length_eq)
        rwa [hshown]
      · exact fun hall ↦ ⟨front', _, rfl, hfront', hall⟩
    rw [hread, hout, hbuilt.restores_iff, hseconds]
    refine and_congr_left fun _ ↦ forall₂_congr fun t ht ↦ ?_
    rw [t.sumOf_eq_liveTotal_iff (hsums t ht), and_iff_right (hsums t ht)]

/-! ## Three transcripts -/

/-- A prompt, and assistant records of one block. -/
def storedPrompt (uuid parent text : String) : Json :=
  .object [("type", .text "user"), ("uuid", .text uuid), ("parentUuid", .text parent),
    ("message", .object [("content", .text text)])]

def storedReply (uuid parent message : String) (tokens : ℕ) : Json :=
  .object [("type", .text "assistant"), ("uuid", .text uuid), ("parentUuid", .text parent),
    ("message", .object [("id", .text message),
      ("usage", .object [("output_tokens", .number (.integer tokens))]),
      ("content", .array [.object [("type", .text "text"), ("text", .text uuid)]])])]

def storedDuration (parent : String) (milliseconds : ℕ) : Json :=
  .object [("type", .text "system"), ("subtype", .text "turn_duration"), ("uuid", .text "d"),
    ("parentUuid", .text parent), ("durationMs", .number (.integer milliseconds))]

def messageStart (tokens : ℕ) : LiveMessage :=
  .streamEvent (.object [("event", .object [("type", .text "message_start"),
    ("message", .object [("usage", .object [("output_tokens", .number (.integer tokens))])])])])

/-- A transcript whose chain is all its records but the durations. -/
def storedIndex (records : List Json) (chain : List ℕ) : TranscriptIndex :=
  ⟨records, chain, [], false, none⟩

theorem stored_of_all {body : List Json} {responses : List Response}
    (h : (body.all fun record => (outputTokens record).all fun tokens =>
      responses.any fun r => messageId record = some r.id && r.tokens = tokens) = true) :
    ∀ record ∈ body, ∀ tokens, outputTokens record = some tokens →
      ∃ r ∈ responses, messageId record = some r.id ∧ r.tokens = tokens := by
  intro record hrecord tokens htokens
  have hall := all_eq_true.mp h record hrecord
  rw [htokens, Option.all_some] at hall
  simpa using hall

theorem found_of_all {body : List Json} {responses : List Response}
    (h : (responses.all fun r => body.any fun record =>
      messageId record = some r.id && outputTokens record = some r.tokens) = true) :
    ∀ r ∈ responses, ∃ record ∈ body,
      messageId record = some r.id ∧ outputTokens record = some r.tokens := by
  simpa using h

/-- A response that is stored as one record. -/
def oneBlock : StoredTurn where
  prompt := storedPrompt "u" "" "ask"
  body := [storedReply "a" "u" "m" 5]
  retracted := []
  live := [messageStart 1, .assistant (storedReply "a" "u" "m" 5)]
  responses := [⟨"m".toList, 1, [5]⟩]
  ids_nodup := nodup_singleton _
  reported := by decide +kernel
  stored := stored_of_all (by decide +kernel)
  found := found_of_all (by decide +kernel)

/-- The same response in two blocks. -/
def twoBlocks : StoredTurn where
  prompt := storedPrompt "u" "" "ask"
  body := [storedReply "a" "u" "m" 5, storedReply "b" "a" "m" 5]
  retracted := []
  live := [messageStart 1, .assistant (storedReply "a" "u" "m" 5),
    .assistant (storedReply "b" "a" "m" 5)]
  responses := [⟨"m".toList, 1, [5, 5]⟩]
  ids_nodup := nodup_singleton _
  reported := by decide +kernel
  stored := stored_of_all (by decide +kernel)
  found := found_of_all (by decide +kernel)

/-- A transcript of the turn, and the duration of the turn. -/
def oneBlockIndex : TranscriptIndex :=
  storedIndex (oneBlock.records ++ [storedDuration "a" 7000]) [0, 1]

theorem restored_accounts_oneBlock :
    ∃ front shown, parseTranscript oneBlockIndex false (fun _ ↦ none) (fun _ ↦ []) =
        some (front ++ shown) ∧ front.length ≤ 1 ∧
      Forall₂ (Restores (replayContext oneBlockIndex false (fun _ ↦ none) fun _ ↦ []))
        [oneBlock] shown := by
  refine (@restored_accounts_iff [] [oneBlock] oneBlockIndex false (fun _ ↦ none) (fun _ ↦ [])
    ⟨by simp, ?_, ?_, ?_⟩ ?_).mpr ⟨?_, ?_⟩
  · simpa using (by decide +kernel : opensTurn (replayContext oneBlockIndex false (fun _ ↦ none)
      fun _ ↦ []) oneBlock.prompt = true)
  · simpa using (by decide +kernel : (oneBlock.body.all fun record ↦ !opensTurn (replayContext
      oneBlockIndex false (fun _ ↦ none) fun _ ↦ []) record) = true)
  · simpa using (by decide +kernel : (oneBlock.records.filterMap (durationOf (replayContext
      oneBlockIndex false (fun _ ↦ none) fun _ ↦ []).durations)).length ≤ 1)
  · rfl
  · simpa using (by decide +kernel : oneBlock.counts.sum < 2 ^ 64 ∧ ∀ r ∈ oneBlock.responses,
      oneBlock.recordsOf r = 1 ∨ r.tokens = 0)
  · intro t ht
    cases ht

/-- A response in two blocks is counted twice, and a duration that hangs off a prompt goes to the
turn before. -/
theorem restored_twice :
    (twoBlocks.liveTotal = some 5 ∧
      replayRecords (storedIndex twoBlocks.records [0, 1, 2]) false = twoBlocks.records ∧
      (parseTranscript (storedIndex twoBlocks.records [0, 1, 2]) false (fun _ ↦ none)
        fun _ ↦ []).map (List.map ReplayTurn.outputTokens) = some [some 10]) ∧
    (parseTranscript (storedIndex (oneBlock.records ++ [storedPrompt "v" "a" "stop",
      storedDuration "v" 7000]) [0, 1, 2]) false (fun _ ↦ none) fun _ ↦ []).map
        (List.map ReplayTurn.seconds) = some [some 7, none] :=
  ⟨⟨by decide +kernel, rfl, by decide +kernel⟩, by decide +kernel⟩

end

end NiumaTerm.ClaudeCode
