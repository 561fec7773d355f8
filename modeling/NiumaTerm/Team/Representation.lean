import NiumaTerm.Team.Runs

/-!
# What a context leaves out

A message may be left out of a context if summaries represent its whole text.  Its fragments can be spread
over several summaries and over those that these rest on; `Room.Ranges` collects them, and the message is
represented when they leave no gap.
-/

namespace NiumaTerm.Team

open Rust Checks List

/-- The summary represents a byte of a message: the message is one of its sources, and either none
of its fragments is of that message or one of those has the byte. -/
structure Summary.Represents (s : Summary) (message : PublicMessage) (byte : ℕ) : Prop where
  source : message.id ∈ s.sources
  part : (∀ part ∈ s.fragments, part.source ≠ message.id) ∨
    ∃ part ∈ s.fragments, part.source = message.id ∧ part.start ≤ byte ∧ byte < part.stop

namespace Room

variable {r : Room}

/-- The second summary is one of the prior summaries of the first. -/
def Prior (r : Room) (s prior : Summary) : Prop :=
  ∃ id ∈ s.priorSummaries, r.summaries.find? (·.id = id) = some prior

/-- The second summary is the first, or the first rests on it. -/
def RestsOn (r : Room) : Summary → Summary → Prop := Relation.ReflTransGen r.Prior

/-! ## Ranges -/

/-- The range was collected for the source. -/
def Ranges.Has (ranges : Ranges) (source : MessageId) (part : ℕ × ℕ) : Prop :=
  ∃ parts, (source, parts) ∈ ranges ∧ part ∈ parts

variable {ranges ranges' : Ranges} {parts : List (ℕ × ℕ)} {part : ℕ × ℕ} {s : Summary}
  {source : MessageId} {visited : List SummaryId}

theorem Ranges.has_extend {source other : MessageId}
    (h : (ranges.extend source parts).Has other part) :
    ranges.Has other part ∨ other = source ∧ part ∈ parts := by
  obtain ⟨all, hall, hpart⟩ := h
  induction ranges with
  | nil =>
    rw [extend, mem_singleton] at hall
    obtain ⟨rfl, rfl⟩ := Prod.mk.inj hall
    exact .inr ⟨rfl, hpart⟩
  | cons entry rest ih =>
    obtain ⟨key, known⟩ := entry
    rw [extend] at hall
    split at hall
    · next hkey =>
      rcases mem_cons.mp hall with he | hrest
      · obtain ⟨rfl, rfl⟩ := Prod.mk.inj he
        rcases mem_append.mp hpart with hknown | hnew
        · exact .inl ⟨known, mem_cons_self, hknown⟩
        · exact .inr ⟨hkey, hnew⟩
      · exact .inl ⟨all, mem_cons_of_mem _ hrest, hpart⟩
    · rcases mem_cons.mp hall with he | hrest
      · exact .inl ⟨all, he ▸ mem_cons_self, hpart⟩
      · rcases ih hrest with ⟨parts', hmem, hpart'⟩ | hnew
        · exact .inl ⟨parts', mem_cons_of_mem _ hmem, hpart'⟩
        · exact .inr hnew

/-- Ranges in order of their starts that cover a text up to some byte have every byte before it. -/
theorem mem_of_coveredTo {covered byte : ℕ} (hle : covered ≤ byte)
    (hlt : byte < coveredTo covered parts) : ∃ part ∈ parts, part.1 ≤ byte ∧ byte < part.2 := by
  induction parts generalizing covered with
  | nil => exact absurd hlt (Nat.not_lt.mpr hle)
  | cons part rest ih =>
    obtain ⟨start, stop⟩ := part
    rw [coveredTo] at hlt
    split at hlt
    · exact absurd hlt (Nat.not_lt.mpr hle)
    next hstart =>
    by_cases hhere : byte < stop
    · exact ⟨(start, stop), mem_cons_self, (Nat.not_lt.mp hstart).trans hle, hhere⟩
    · obtain ⟨part, hmem, hpart⟩ := ih (max_le hle (Nat.not_lt.mp hhere)) hlt
      exact ⟨part, mem_cons_of_mem _ hmem, hpart⟩

/-- **A complete message** has no byte outside the ranges that were collected for it. -/
theorem mem_completeSources {complete : Finset MessageId} {id : MessageId}
    (h : r.completeSources ranges = .ok complete) (hid : id ∈ complete) :
    ∃ message, r.message id = .ok message ∧ ∀ byte < utf8Len message.text,
      ∃ part, ranges.Has id part ∧ part.1 ≤ byte ∧ byte < part.2 := by
  refine foldlM_ok (I := fun complete : Finset MessageId => ∀ id ∈ complete, ∃ message,
      r.message id = .ok message ∧ ∀ byte < utf8Len message.text,
        ∃ part, ranges.Has id part ∧ part.1 ≤ byte ∧ byte < part.2) h (by simp)
    (fun complete entry hentry complete' hcomplete hstep => ?_) id hid
  obtain ⟨key, parts⟩ := entry
  obtain ⟨message, hmessage, hstep⟩ := bind_ok.mp hstep
  cases hstep
  intro other hother
  split at hother
  · next hcovered =>
    rcases Finset.mem_insert.mp hother with rfl | hother
    · refine ⟨message, hmessage, fun byte hbyte => ?_⟩
      rw [← hcovered] at hbyte
      obtain ⟨part, hpart, hin⟩ := mem_of_coveredTo (Nat.zero_le byte) hbyte
      exact ⟨part, ⟨parts, hentry, mem_mergeSort.mp hpart⟩, hin⟩
    · exact hcomplete other hother
  · exact hcomplete other hother

/-! ## Collecting -/

/-- A range of a source that a summary has. -/
theorem represents_of_sourceRanges
    {message : PublicMessage} {byte : ℕ} (hsource : source ∈ s.sources)
    (h : r.sourceRanges s source = .ok parts) (hmessage : r.message source = .ok message)
    (hpart : part ∈ parts) (hle : part.1 ≤ byte) (hlt : byte < part.2) :
    s.Represents message byte := by
  obtain ⟨-, rfl⟩ := message_ok hmessage
  rw [sourceRanges] at h
  obtain ⟨found, hfound, h⟩ := bind_ok.mp h
  obtain rfl := Except.ok.inj (hmessage.symm.trans hfound)
  dsimp only at h
  split at h
  · next hnone =>
    refine ⟨hsource, .inl fun other hother he => ?_⟩
    have hmem : other ∈ s.fragments.filter fun part => part.source = message.id :=
      mem_filter.mpr ⟨hother, by simpa using he⟩
    rw [List.isEmpty_iff.mp hnone] at hmem
    exact absurd hmem not_mem_nil
  · obtain ⟨fragment, hfragment, hok⟩ := mapM_ok h part hpart
    obtain ⟨_, -, hok⟩ := bind_ok.mp hok
    cases hok
    obtain ⟨hmem, hsame⟩ := mem_filter.mp hfragment
    exact ⟨hsource, .inr ⟨fragment, hmem, by simpa using hsame, hle, hlt⟩⟩

/-- The range is one of a summary for one of its sources. -/
def Collects (r : Room) (s : Summary) (source : MessageId) (part : ℕ × ℕ) : Prop :=
  source ∈ s.sources ∧ ∃ parts, r.sourceRanges s source = .ok parts ∧ part ∈ parts

def collectOne (r : Room) (s : Summary) (ranges : Ranges) : Except ContextError Ranges :=
  s.sources.foldlM (fun ranges source => (r.sourceRanges s source).map (ranges.extend source)) ranges

def priorsOf (r : Room) (s : Summary) : Option (List { s // s ∈ r.summaries }) :=
  s.priorSummaries.mapM fun id => r.summaries.attach.find? (·.1.id = id)

theorem collectOne_has
    (h : r.collectOne s ranges = .ok ranges') (hhas : ranges'.Has source part) : ranges.Has source part ∨ r.Collects s source part := by
  refine foldlM_ok (I := fun now : Ranges => ∀ source part, now.Has source part →
      ranges.Has source part ∨ r.Collects s source part) h (fun _ _ h => .inl h)
    (fun now source hsource next hnow hstep => ?_) source part hhas
  obtain ⟨parts, hparts, rfl⟩ := map_ok.mp hstep
  intro other part hother
  rcases Ranges.has_extend hother with hold | ⟨rfl, hnew⟩
  · exact hnow other part hold
  · exact .inr ⟨hsource, parts, hparts, hnew⟩

theorem prior_of_priorsOf {priors : List { s // s ∈ r.summaries }}
    (h : r.priorsOf s = some priors) : ∀ prior ∈ priors, r.Prior s prior.1 := by
  intro prior hprior
  obtain ⟨id, hid, hfind⟩ := mapM_some h prior hprior
  refine ⟨id, hid, ?_⟩
  have hmap := find?_map (f := Subtype.val) (p := fun s : Summary => decide (s.id = id))
    (l := r.summaries.attach)
  rw [attach_map_subtype_val] at hmap
  rw [hmap]
  exact congrArg (Option.map Subtype.val) hfind

/-- A round of the walk over the sources that visits a summary. -/
theorem summarySourcesFrom_visit {id : SummaryId} {rest visited : List SummaryId}
    {sources : Finset MessageId} (hv : id ∉ visited)
    (hs : r.summaries.find? (·.id = id) = some s) :
    r.summarySourcesFrom (id :: rest) visited sources =
      r.summarySourcesFrom (s.priorSummaries.reverse ++ rest) (id :: visited)
        (sources ∪ s.sources.toFinset) := by
  rw [summarySourcesFrom, if_neg hv]
  split
  · next hnone => cases hnone.symm.trans hs
  · next found hfound =>
    obtain rfl := Option.some.inj (hfound.symm.trans hs)
    rfl

/-- A round of the walk that visits a summary. -/
theorem includeSummaryFrom_visit {s : { s // s ∈ r.summaries }}
    {rest : List { s // s ∈ r.summaries }} (hv : s.1.id ∉ visited) : r.includeSummaryFrom (s :: rest) visited ranges = (do
      let next ← r.collectOne s.1 ranges
      let priors ← okOr (r.priorsOf s.1) .missingSource
      r.includeSummaryFrom (priors.reverse ++ rest) (s.1.id :: visited) next) := by
  rw [includeSummaryFrom, dif_neg hv, ← collectOne]
  cases r.collectOne s.1 ranges with
  | error e => rfl
  | ok next =>
    dsimp only
    rw [← priorsOf]
    cases r.priorsOf s.1 with
    | none | some priors => rfl

theorem includeSummaryFrom_has {pending : List { s // s ∈ r.summaries }}
    (h : r.includeSummaryFrom pending visited ranges = .ok ranges')
    (hhas : ranges'.Has source part) :
    ranges.Has source part ∨
      ∃ s ∈ pending, ∃ prior, r.RestsOn s.1 prior ∧ r.Collects prior source part := by
  induction pending, visited, ranges using includeSummaryFrom.induct r with
  | case1 visited ranges =>
    rw [includeSummaryFrom] at h
    cases h
    exact .inl hhas
  | case2 visited ranges s rest hv ih =>
    rw [includeSummaryFrom, dif_pos hv] at h
    rcases ih h with hold | ⟨t, ht, hprior⟩
    · exact .inl hold
    · exact .inr ⟨t, mem_cons_of_mem _ ht, hprior⟩
  | case3 visited ranges s rest hv e he =>
    rw [includeSummaryFrom_visit hv] at h
    obtain ⟨next, hnext, -⟩ := bind_ok.mp h
    rw [foldlM_subtype fun _ _ _ => rfl, unattach_attach] at he
    cases he.symm.trans hnext
  | case4 visited ranges s rest hv next hnext hnone =>
    rw [includeSummaryFrom_visit hv] at h
    obtain ⟨_, -, h⟩ := bind_ok.mp h
    obtain ⟨priors, hpriors, -⟩ := bind_ok.mp h
    rw [mapM_subtype fun _ _ => rfl, unattach_attach] at hnone
    cases hnone.symm.trans (okOr_ok.mp hpriors)
  | case5 visited ranges s rest hv next hnext priors hpriors ih =>
    rw [includeSummaryFrom_visit hv] at h
    obtain ⟨next', hnext', h⟩ := bind_ok.mp h
    obtain ⟨priors', hpriors', h⟩ := bind_ok.mp h
    rw [okOr_ok] at hpriors'
    rw [foldlM_subtype fun _ _ _ => rfl, unattach_attach] at hnext
    rw [mapM_subtype fun _ _ => rfl, unattach_attach] at hpriors
    obtain rfl := Except.ok.inj (hnext.symm.trans hnext')
    obtain rfl := Option.some.inj (hpriors.symm.trans hpriors')
    rcases ih h with hold | ⟨t, ht, last, hrests, hcollects⟩
    · rcases collectOne_has hnext' hold with hold | hcollects
      · exact .inl hold
      · exact .inr ⟨s, mem_cons_self, s.1, .refl, hcollects⟩
    · rcases mem_append.mp ht with ht | ht
      · have hprior := prior_of_priorsOf hpriors' t (mem_reverse.mp ht)
        exact .inr ⟨s, mem_cons_self, last, hrests.head hprior, hcollects⟩
      · exact .inr ⟨t, mem_cons_of_mem _ ht, last, hrests, hcollects⟩

/-- **A collected range** is one of a summary that the included one rests on. -/
theorem includeSummary_has {s : { s // s ∈ r.summaries }}
    (h : r.includeSummary s ranges = .ok ranges') (hhas : ranges'.Has source part) : ranges.Has source part ∨
      ∃ prior, r.RestsOn s.1 prior ∧ r.Collects prior source part := by
  rcases includeSummaryFrom_has h hhas with hold | ⟨t, ht, hprior⟩
  · exact .inl hold
  · rw [mem_singleton.mp ht] at hprior
    exact .inr hprior

/-! ## Selecting -/

section

variable {coverage : AcceptedCoverage} {selection : Selection}

/-- The summary is in the text, or the member was given it. -/
def Known (r : Room) (coverage : AcceptedCoverage) (summaries : List Summary) (s : Summary) :
    Prop :=
  s ∈ r.summaries ∧ (s ∈ summaries ∨ s.id ∈ coverage.summaries)

/-- Every byte of the message is represented by a summary that the member knows, or by one that
such a summary rests on. -/
def Represented (r : Room) (coverage : AcceptedCoverage) (summaries : List Summary)
    (message : PublicMessage) : Prop :=
  ∀ byte < utf8Len message.text, ∃ s, r.Known coverage summaries s ∧
    ∃ prior, r.RestsOn s prior ∧ prior.Represents message byte

/-- What the selection of summaries keeps. -/
structure Selection.Sound (r : Room) (coverage : AcceptedCoverage) (selection : Selection) :
    Prop where
  /-- what is collected is collected from summaries that the member knows -/
  ranges : ∀ source part, selection.ranges.Has source part →
    ∃ s, r.Known coverage selection.summaries s ∧
      ∃ prior, r.RestsOn s prior ∧ r.Collects prior source part
  represented : ∀ id ∈ selection.represented, ∃ message, r.message id = .ok message ∧
    ∀ byte < utf8Len message.text, ∃ part, selection.ranges.Has id part ∧ part.1 ≤ byte ∧
      byte < part.2

theorem Selection.sound_empty : Selection.Sound r coverage {} where
  ranges source part h := by
    obtain ⟨parts, hparts, -⟩ := h
    cases hparts
  represented id hid := absurd hid (Finset.notMem_empty id)

theorem Known.mono {summaries more : List Summary} {s : Summary} (h : r.Known coverage summaries s)
    (hsub : summaries ⊆ more) : r.Known coverage more s :=
  ⟨h.1, h.2.imp_left fun hmem => hsub hmem⟩

theorem Selection.Sound.select {eligible : Finset MessageId} {id : SummaryId}
    {selection' : Selection} (h : selection.Sound r coverage)
    (hselect : r.selectSummary coverage eligible selection id = .ok selection') :
    selection'.Sound r coverage := by
  rw [selectSummary] at hselect
  split at hselect
  · cases hselect
  next s hfind =>
  have hmem : s ∈ r.summaries := mem_of_find?_eq_some hfind
  obtain rfl : s.id = id := by simpa using find?_some hfind
  split at hselect
  · cases hselect
    exact h
  obtain ⟨sources, -, hselect⟩ := bind_ok.mp hselect
  split at hselect
  · cases hselect
    exact h
  obtain ⟨ranges, hranges, hselect⟩ := bind_ok.mp hselect
  obtain ⟨represented, hrepresented, hselect⟩ := bind_ok.mp hselect
  cases hselect
  refine ⟨fun source part hhas => ?_, fun id hid => mem_completeSources hrepresented hid⟩
  dsimp only at hhas ⊢
  rcases includeSummary_has hranges hhas with hold | hnew
  · obtain ⟨t, ht, hprior⟩ := h.ranges source part hold
    refine ⟨t, ht.mono fun u hu => ?_, hprior⟩
    split
    · exact hu
    · exact mem_append_left _ hu
  · refine ⟨s, ⟨hmem, ?_⟩, hnew⟩
    split
    · next hgiven => exact .inr hgiven
    · exact .inl (mem_append_right _ (mem_singleton_self s))

theorem Selection.Sound.representation (h : selection.Sound r coverage) {id : MessageId}
    (hid : id ∈ selection.represented) : ∃ message, r.message id = .ok message ∧
      r.Represented coverage selection.summaries message := by
  obtain ⟨message, hmessage, hbytes⟩ := h.represented id hid
  refine ⟨message, hmessage, fun byte hbyte => ?_⟩
  obtain ⟨part, hhas, hle, hlt⟩ := hbytes byte hbyte
  obtain ⟨s, hs, prior, hrests, hsource, parts, hparts, hpart⟩ := h.ranges id part hhas
  exact ⟨s, hs, prior, hrests, represents_of_sourceRanges hsource hparts hmessage hpart hle hlt⟩

theorem mem_eligibleMessages {boundary : PublicSnapshot} {eligible : List PublicMessage}
    (h : r.eligibleMessages boundary = .ok eligible) {id : MessageId}
    (hid : id ∈ boundary.messages) : ∃ message ∈ eligible, message.id = id := by
  obtain ⟨message, hmem, hmessage⟩ := exists_of_mapM h id hid
  exact ⟨message, hmem, (message_ok hmessage).2⟩

/-- What is neither covered nor represented is shown. -/
theorem mem_selectMessages {eligible : List PublicMessage} {represented : Finset MessageId}
    {recentMessages : ℕ} {message : PublicMessage} (h : message ∈ eligible)
    (hcovered : message.id ∉ coverage.messages) (hrepresented : message.id ∉ represented) :
    message ∈ selectMessages coverage eligible represented recentMessages := by
  obtain ⟨index, hlt, rfl⟩ := getElem_of_mem h
  refine mem_map.mpr ⟨(eligible[index], index), mem_filter.mpr ⟨?_, ?_⟩, rfl⟩
  · exact mem_zipIdx_iff_getElem?.mpr (getElem?_eq_getElem hlt)
  · simp only [hcovered, hrepresented, not_false_eq_true, decide_true, Bool.or_true, Bool.and_true]

end

/-! ## The context -/

/-- **A context is complete.**  Its text shows messages and summaries of the boundary only and is no
longer than the limit, its coverage names exactly these, and every message of the boundary was
covered before, is shown, or is represented byte for byte by summaries that are shown or were
given. -/
theorem context_complete [TeamText] {memberId : MemberId} {boundary : PublicSnapshot}
    {input : UserInput} {limits : ContextLimits} {prepared : PreparedContext}
    (h : r.prepareContext memberId boundary input limits = .ok prepared) :
    ∃ messages summaries, Shows r boundary input messages summaries prepared.text ∧
      prepared.coverage.messages = (messages.map PublicMessage.id).toFinset ∧
      prepared.coverage.summaries = (summaries.map Summary.id).toFinset ∧
      utf8Len prepared.text ≤ limits.maxBytes ∧
      ∀ id ∈ boundary.messages, id ∈ (r.coverage memberId).messages ∨
        (∃ message ∈ messages, message.id = id) ∨
        ∃ message, r.message id = .ok message ∧
          r.Represented (r.coverage memberId) summaries message := by
  simp only [prepareContext, bind_ok, failIf_ok, okOr_ok] at h
  obtain ⟨-, -, eligible, he, -, -, selection, hselect, sources, hsources, -, -, request, hrequest,
    -, -, -, hlength, h⟩ := h
  obtain rfl := Except.ok.inj h
  refine ⟨_, selection.summaries, shows_selection he hselect hsources hrequest, rfl, rfl,
    Nat.not_lt.mp (by simpa using hlength), fun id hid ↦ ?_⟩
  have hsound : selection.Sound r (r.coverage memberId) :=
    foldlM_ok (I := fun selection ↦ selection.Sound r (r.coverage memberId)) hselect
      Selection.sound_empty fun selection id _ selection' hs hstep ↦ hs.select hstep
  obtain ⟨message, hmem, rfl⟩ := mem_eligibleMessages he hid
  by_cases hcovered : message.id ∈ (r.coverage memberId).messages
  · exact .inl hcovered
  by_cases hrepresented : message.id ∈ selection.represented
  · exact .inr (.inr (hsound.representation hrepresented))
  · exact .inr (.inl ⟨message, mem_selectMessages hmem hcovered hrepresented, rfl⟩)

end Room

/-! ## A message in two halves -/

section

attribute [local instance] plainText

/-- A message of two sentences. -/
def sentence : PublicMessage where
  id := ⟨⟨1, 0⟩⟩
  author := .user
  publication := .userInput
  text := "First half. Second half.".toList
  repliesTo := []

/-- A summary of each of the two sentences, the second one first. -/
def halves : Summary where
  id := ⟨⟨2, 0⟩⟩
  version := 1
  owner := aliceId
  sources := [sentence.id]
  fragments := [⟨sentence.id, 12, 24⟩, ⟨sentence.id, 0, 12⟩]
  priorSummaries := []
  goals := []
  constraints := []
  agreements := []
  disagreements := []

def summarized : Room := { aliceRoom with messages := [sentence], summaries := [halves] }

/-- What is selected of the summaries. -/
def halvesSelection : Room.Selection where
  summaries := [halves]
  represented := {sentence.id}
  ranges := [(sentence.id, [(12, 24), (0, 12)])]

theorem summarySources_halves : summarized.summarySources halves.id = .ok {sentence.id} := by
  rw [Room.summarySources, Room.summarySourcesFrom_visit (s := halves) (by decide) rfl]
  change summarized.summarySourcesFrom [] [halves.id] _ = _
  rw [Room.summarySourcesFrom]
  rfl

theorem includeSummary_halves : summarized.includeSummary ⟨halves, mem_singleton_self _⟩ [] =
    .ok halvesSelection.ranges := by
  have hcollect : summarized.collectOne halves [] = .ok halvesSelection.ranges := by decide +kernel
  rw [Room.includeSummary, Room.includeSummaryFrom_visit not_mem_nil, hcollect]
  change summarized.includeSummaryFrom [] [halves.id] _ = _
  rw [Room.includeSummaryFrom]

theorem selectSummary_halves :
    summarized.selectSummary {} {sentence.id} {} halves.id = .ok halvesSelection := by
  have hcomplete : summarized.completeSources halvesSelection.ranges = .ok {sentence.id} := by
    have hsort : [(12, 24), (0, 12)].mergeSort (fun left right : ℕ × ℕ => left.1 ≤ right.1) =
        [(0, 12), (12, 24)] := by
      simp [List.mergeSort, List.MergeSort.Internal.splitInTwo]
    have hmessage : summarized.message sentence.id = .ok sentence := rfl
    rw [Room.completeSources, halvesSelection, foldlM_cons]
    simp only [hmessage, hsort]
    decide +kernel
  rw [Room.selectSummary]
  split
  · next hnone => cases hnone
  · next s hs =>
    obtain rfl : halves = s := Option.some.inj hs
    rw [if_neg (by decide)]
    refine bind_ok.mpr ⟨_, summarySources_halves, ?_⟩
    rw [if_neg (by decide)]
    exact bind_ok.mpr ⟨_, includeSummary_halves, bind_ok.mpr ⟨_, hcomplete, rfl⟩⟩

theorem prepareContext_halves : ∃ prepared,
    summarized.prepareContext aliceId summarized.publicSnapshot {} ⟨2000, 0⟩ = .ok prepared := by
  have hselect : summarized.publicSnapshot.summaries.reverse.foldlM
      (summarized.selectSummary (summarized.coverage aliceId) {sentence.id}) {} =
        .ok halvesSelection := by
    change ([halves.id]).foldlM _ _ = _
    rw [foldlM_cons]
    change (summarized.selectSummary {} {sentence.id} {} halves.id >>= _) = _
    rw [selectSummary_halves]
    rfl
  have heligible : summarized.eligibleMessages summarized.publicSnapshot = .ok [sentence] := by
    decide +kernel
  simp only [Room.prepareContext, bind_ok, heligible]
  exact ⟨_, (), by decide, [sentence], rfl, (), by decide, halvesSelection, hselect, _, rfl, (),
    by decide, _, rfl, (), by decide, (), by decide +kernel, rfl⟩

theorem context_complete_halves : ∃ prepared,
    summarized.prepareContext aliceId summarized.publicSnapshot {} ⟨2000, 0⟩ = .ok prepared ∧
      ∃ messages summaries,
        Room.Shows summarized summarized.publicSnapshot {} messages summaries prepared.text ∧
        prepared.coverage.messages = (messages.map PublicMessage.id).toFinset ∧
        prepared.coverage.summaries = (summaries.map Summary.id).toFinset ∧
        utf8Len prepared.text ≤ 2000 ∧
        ∀ id ∈ summarized.publicSnapshot.messages, id ∈ (summarized.coverage aliceId).messages ∨
          (∃ message ∈ messages, message.id = id) ∨
          ∃ message, summarized.message id = .ok message ∧
            summarized.Represented (summarized.coverage aliceId) summaries message := by
  obtain ⟨prepared, h⟩ := prepareContext_halves
  exact ⟨prepared, h, Room.context_complete h⟩

end

end NiumaTerm.Team
