import NiumaTerm.Lib.ByteSlice
import NiumaTerm.Lib.Tiling

/-!
# Links under the pointer

`resolveLink` finds the link at a column of a row: an OSC 8 hyperlink, or a URL in the text of the logical
line.  Slices count bytes, so each gives an `Option`: an outer `none` says that the program panics.
-/

namespace NiumaTerm.Terminal
namespace Links

open Rust Tiling List

/-! ## The scheme gate -/

def urlSchemes : List Str := ["https://".toList, "http://".toList, "file://".toList, "mailto:".toList]

/-- `url[..scheme.len()].eq_ignore_ascii_case(scheme)`, for a longer `url`. -/
def schemeAllows (url scheme : Str) : Option Bool :=
  if utf8Len scheme < utf8Len url then
    (sliceTo url (utf8Len scheme)).map fun start => start.map Char.toLower == scheme.map Char.toLower
  else some false

def openAllowed (url : Str) : Option Bool := urlSchemes.anyM (schemeAllows url)

/-! ## URLs in a text -/

def isUrlChar (c : Char) : Bool := c.isAlphanum || "-._~:/?#[]@!$&'()*+,;=%".toList.contains c

def urlCharAt (chars : Str) (i : ℕ) : Bool := chars[i]?.any isUrlChar

def runStart (chars : Str) (col : ℕ) : ℕ :=
  ((List.range col).reverse.takeWhile (urlCharAt chars)).getLast?.getD col

def runEnd (chars : Str) (col : ℕ) : ℕ :=
  ((List.range' col (chars.length - col)).takeWhile (urlCharAt chars)).getLast?.elim col (· + 1)

/-- The loop over trailing closers; it makes no more rounds than there are characters. -/
def trimClosers (opener closer : Char) : ℕ → Str → Option Str
  | 0, url => some url
  | rounds + 1, url =>
    if url.getLast? = some closer ∧ url.count opener < url.count closer then do
      trimClosers opener closer rounds (← sliceTo url (utf8Len url - 1))
    else some url

structure CharRange where
  start : ℕ
  stop : ℕ

def trimUrl (url : Str) : Option Str := do
  let url := url.rdropWhile fun c => ".,;:!?'".toList.contains c
  let url ← trimClosers '(' ')' url.length url
  trimClosers '[' ']' url.length url

def urlAtCol (text : Str) (col : ℕ) : Option (Option (Str × CharRange)) :=
  if !urlCharAt text col then some none
  else
    let start := runStart text col
    let token := (text.take (runEnd text col)).drop start
    let lower := token.map Char.toLower
    match (urlSchemes.filterMap (find lower)).min? with
    | none => some none
    | some schemeAt => do
      let url ← trimUrl (← sliceFrom token schemeAt)
      let range : CharRange := ⟨start + schemeAt, start + schemeAt + utf8Len url⟩
      if range.start ≤ col ∧ col < range.stop then
        return if ← openAllowed url then some (url, range) else none
      else return none

/-! ## Resolving -/

/-- `hyperlinks` are the first and last column and the URI of each. -/
structure RowText where
  text : Str
  wrapped : Bool
  hyperlinks : List (ℕ × ℕ × Str)

def RowText.hyperlinkAt (row : RowText) (col : ℕ) : Option (ℕ × ℕ × Str) :=
  row.hyperlinks.find? fun (start, stop, _) => start ≤ col && col ≤ stop

structure RowSegment where
  delta : ℤ
  col : ℕ
  cols : ℕ
deriving DecidableEq

structure ResolvedLink where
  url : Str
  segments : List RowSegment
deriving DecidableEq

def joinCap : ℕ := 8

section

variable (rowAt : ℤ → Option RowText)

/-- The rows from `delta` on that the one before wraps to, at most `n` of them. -/
def joinDown : ℕ → ℤ → Bool → Str → Str
  | 0, _, _, text => text
  | n + 1, delta, wrappedDown, text =>
    if !wrappedDown then text
    else
      match rowAt delta with
      | none => text
      | some next => joinDown n (delta + 1) next.wrapped (text ++ next.text)

structure Joined where
  text : Str
  col : ℕ
  back : ℕ

/-- The rows that wrap to the ones before them, from `back + 1` rows up on. -/
def joinUp : ℕ → Joined → Joined
  | 0, joined => joined
  | n + 1, joined =>
    match (rowAt (-(joined.back + 1 : ℕ))).filter (·.wrapped) with
    | none => joined
    | some prev =>
      joinUp n ⟨prev.text ++ joined.text, joined.col + prev.text.length, joined.back + 1⟩

/-- The part of `range` in the row `seg` of the joined ones. -/
def segment (range : CharRange) (width back seg : ℕ) : RowSegment :=
  let start := max range.start (seg * width)
  let stop := min range.stop ((seg + 1) * width)
  ⟨(seg : ℤ) - back, start - seg * width, stop - start⟩

def segments (range : CharRange) (width back : ℕ) : List RowSegment :=
  if width = 0 then []
  else
    let first := range.start / width
    let last := (range.stop - 1) / width
    (List.range' first (last + 1 - first)).map (segment range width back)

def join (pointed : RowText) (col : ℕ) : Joined :=
  joinUp rowAt joinCap ⟨joinDown rowAt joinCap 1 pointed.wrapped pointed.text, col, 0⟩

def resolveLink (col : ℕ) : Option (Option ResolvedLink) :=
  match rowAt 0 with
  | none => some none
  | some pointed =>
    match pointed.hyperlinkAt col with
    | some (start, stop, uri) => do
      return if ← openAllowed uri then some ⟨uri, [⟨0, start, stop - start + 1⟩]⟩ else none
    | none => do
      let joined := join rowAt pointed col
      return (← urlAtCol joined.text joined.col).map fun (url, range) =>
        ⟨url, segments range pointed.text.length joined.back⟩

end

/-! ## What the gate lets through -/

/-- `url` starts with one of the schemes, in whatever case, and goes on after it. -/
def Allowed (url : Str) : Prop :=
  ∃ scheme ∈ urlSchemes, scheme.length < url.length ∧
    (url.take scheme.length).map Char.toLower = scheme

/-- No scheme's length falls inside a character of a longer `url`. -/
def Testable (url : Str) : Prop :=
  ∀ scheme ∈ urlSchemes, utf8Len scheme < utf8Len url → isCharBoundary url (utf8Len scheme)

instance (url : Str) : Decidable (Testable url) := inferInstanceAs (Decidable (∀ _ ∈ _, _))

section

variable {url scheme : Str}

theorem lower_of_mem (h : scheme ∈ urlSchemes) : scheme.map Char.toLower = scheme := by
  revert scheme
  decide

theorem schemeAllows_eq_none :
    schemeAllows url scheme = none ↔
      utf8Len scheme < utf8Len url ∧ ¬ isCharBoundary url (utf8Len scheme) := by
  rw [schemeAllows]
  split_ifs with hlen
  · rw [Option.map_eq_none_iff, ← sliceTo_isSome, Option.not_isSome_iff_eq_none]
    simp [hlen]
  · simp [hlen]

theorem schemeAllows_eq_true (h : schemeAllows url scheme = some true) :
    ∃ start rest, url = start ++ rest ∧ rest ≠ [] ∧
      start.map Char.toLower = scheme.map Char.toLower := by
  rw [schemeAllows] at h
  split_ifs at h with hlen
  swap
  · cases h
  rw [Option.map_eq_some_iff] at h
  obtain ⟨start, hslice, hstart⟩ := h
  obtain ⟨⟨rest, rfl⟩, hbytes⟩ := sliceTo_eq_some.mp hslice
  refine ⟨start, rest, rfl, ?_, by simpa using hstart⟩
  rintro rfl
  rw [append_nil, hbytes] at hlen
  exact Nat.lt_irrefl _ hlen

theorem openAllowed_eq_true (h : openAllowed url = some true) :
    ∃ scheme ∈ urlSchemes, schemeAllows url scheme = some true := by
  have hany : ∀ schemes : List Str, schemes.anyM (schemeAllows url) = some true →
      ∃ scheme ∈ schemes, schemeAllows url scheme = some true := by
    intro schemes h
    induction schemes with
    | nil => cases h
    | cons scheme schemes ih =>
      rw [List.anyM] at h
      cases hscheme : schemeAllows url scheme with
      | none => simp [hscheme] at h
      | some allows =>
        cases allows with
        | true => exact ⟨scheme, .head _, hscheme⟩
        | false =>
          obtain ⟨other, hmem, hother⟩ := ih (by simpa [hscheme] using h)
          exact ⟨other, .tail _ hmem, hother⟩
  exact hany urlSchemes h

theorem allowed_of_openAllowed (h : openAllowed url = some true) : Allowed url := by
  obtain ⟨scheme, hmem, hscheme⟩ := openAllowed_eq_true h
  obtain ⟨start, rest, rfl, hrest, hlower⟩ := schemeAllows_eq_true hscheme
  rw [lower_of_mem hmem] at hlower
  have hlength : start.length = scheme.length := by rw [← hlower, length_map]
  refine ⟨scheme, hmem, ?_, ?_⟩
  · rw [length_append, hlength]
    exact Nat.lt_add_of_pos_right (length_pos_iff.mpr hrest)
  · rw [← hlength, take_left', hlower]
    rfl

/-- A scheme that matches is ASCII, so that the shorter ones end between two characters too. -/
theorem testable_of_https (h : schemeAllows url "https://".toList = some true) : Testable url := by
  obtain ⟨start, rest, rfl, -, hlower⟩ := schemeAllows_eq_true h
  have hascii : IsAscii start := by
    rw [← isAscii_map_toLower, hlower, isAscii_map_toLower]
    have hall : "https://".toList.all (fun c => c.utf8Size = 1) = true := by decide
    exact fun c hc => of_decide_eq_true (all_eq_true.mp hall c hc)
  have hlength : start.length = 8 := by
    rw [← length_map Char.toLower, hlower]
    rfl
  intro scheme hmem _
  have hle : utf8Len scheme ≤ start.length := by
    rw [hlength]
    exact (by decide : ∀ scheme ∈ urlSchemes, utf8Len scheme ≤ 8) scheme hmem
  have hprefix : start.take (utf8Len scheme) <+: start ++ rest :=
    List.IsPrefix.trans ( take_prefix _ _) (prefix_append ..)
  have hbytes : utf8Len (start.take (utf8Len scheme)) = utf8Len scheme := by
    rw [(hascii.take _).utf8Len_eq, length_take_of_le hle]
  rw [← hbytes]
  exact isCharBoundary_of_prefix hprefix

theorem openAllowed_isSome : (openAllowed url).isSome ↔ Testable url := by
  constructor
  · intro h
    cases hhttps : schemeAllows url "https://".toList with
    | none =>
      rw [openAllowed, urlSchemes, List.anyM, hhttps] at h
      cases h
    | some allows =>
      cases allows with
      | true => exact testable_of_https hhttps
      | false =>
        cases hhttp : schemeAllows url "http://".toList with
        | none =>
          rw [openAllowed, urlSchemes, List.anyM, hhttps, List.anyM, hhttp] at h
          cases h
        | some _ =>
          have h8 : schemeAllows url "https://".toList ≠ none :=
            Option.ne_none_iff_exists'.mpr ⟨_, hhttps⟩
          have h7 : schemeAllows url "http://".toList ≠ none :=
            Option.ne_none_iff_exists'.mpr ⟨_, hhttp⟩
          rw [Ne, schemeAllows_eq_none, not_and, not_not,
            show utf8Len "https://".toList = 8 by decide] at h8
          rw [Ne, schemeAllows_eq_none, not_and, not_not,
            show utf8Len "http://".toList = 7 by decide] at h7
          intro scheme hmem
          have hlen : utf8Len scheme = 8 ∨ utf8Len scheme = 7 :=
            (by decide : ∀ scheme ∈ urlSchemes, utf8Len scheme = 8 ∨ utf8Len scheme = 7) scheme hmem
          rcases hlen with hlen | hlen
          · rwa [hlen]
          · rwa [hlen]
  · intro h
    have hsome : ∀ schemes : List Str, schemes ⊆ urlSchemes →
        (schemes.anyM (schemeAllows url)).isSome := by
      intro schemes hsub
      induction schemes with
      | nil => rfl
      | cons scheme schemes ih =>
        rw [List.anyM]
        cases hscheme : schemeAllows url scheme with
        | none =>
          obtain ⟨hlen, hboundary⟩ := schemeAllows_eq_none.mp hscheme
          exact absurd (h scheme (hsub (.head _)) hlen) hboundary
        | some allows =>
          cases allows with
          | true => rfl
          | false => exact ih (subset_of_cons_subset hsub)
    exact hsome urlSchemes (List.Subset.refl _)

theorem testable_of_ascii (h : IsAscii url) : Testable url := by
  intro scheme _ hlen
  rw [← sliceTo_isSome, h.sliceTo_eq (by rw [← h.utf8Len_eq]; exact Nat.le_of_lt hlen)]
  rfl

end

/-! ## The URL at a column -/

theorem utf8Size_of_isUrlChar {c : Char} (h : isUrlChar c) : c.utf8Size = 1 := by
  rw [isUrlChar, Bool.or_eq_true] at h
  rcases h with h | h
  · rw [Char.utf8Size_eq_one_iff]
    have hbound : c.val ≤ 122 := by
      delta Char.isAlphanum Char.isAlpha Char.isUpper Char.isLower Char.isDigit at h
      simp only [Bool.or_eq_true, Bool.and_eq_true, decide_eq_true_eq] at h
      simp only [UInt32.le_iff_toNat_le, ge_iff_le] at h ⊢
      simp at h ⊢
      omega
    exact UInt32.le_trans hbound (by decide)
  · have hall : "-._~:/?#[]@!$&'()*+,;=%".toList.all (fun c => c.utf8Size = 1) = true := by decide
    exact of_decide_eq_true (all_eq_true.mp hall c (contains_iff_mem.mp h))

section

variable {text : Str} {col i : ℕ}

theorem runStart_succ :
    runStart text (col + 1) = if urlCharAt text col then runStart text col else col + 1 := by
  rw [runStart, range_succ, reverse_append, reverse_singleton, singleton_append, takeWhile_cons]
  split_ifs
  · rw [getLast?_cons, Option.getD_some, runStart]
  · rfl

theorem urlCharAt_of_runStart (hstart : runStart text col ≤ i) (hi : i < col) :
    urlCharAt text i := by
  induction col with
  | zero => cases hi
  | succ col ih =>
    rw [runStart_succ] at hstart
    split_ifs at hstart with hcol
    · rcases Nat.lt_succ_iff_lt_or_eq.mp hi with hi | rfl
      · exact ih hstart hi
      · exact hcol
    · omega

theorem urlCharAt_of_runEnd (hcol : col ≤ i) (hi : i < runEnd text col) : urlCharAt text i := by
  rw [runEnd] at hi
  generalize text.length - col = n at hi
  induction n generalizing col with
  | zero =>
    simp at hi
    omega
  | succ n ih =>
    rw [range'_succ, takeWhile_cons] at hi
    split_ifs at hi with hc
    · rcases Nat.eq_or_lt_of_le hcol with rfl | hcol
      · exact hc
      · refine ih hcol ?_
        rw [getLast?_cons] at hi
        cases hlast : ((List.range' (col + 1) n).takeWhile (urlCharAt text)).getLast? with
        | none | some last => simpa [hlast] using hi
    · simp at hi
      omega

/-- The token around a column. -/
theorem token_ascii : IsAscii ((text.take (runEnd text col)).drop (runStart text col)) := by
  intro c hc
  obtain ⟨k, hk⟩ := mem_iff_getElem?.mp hc
  rw [getElem?_drop, getElem?_take] at hk
  split_ifs at hk with hend
  have hurl : urlCharAt text (runStart text col + k) := by
    rcases Nat.lt_or_ge (runStart text col + k) col with hlt | hge
    · exact urlCharAt_of_runStart (Nat.le_add_right ..) hlt
    · exact urlCharAt_of_runEnd hge hend
  rw [urlCharAt, hk] at hurl
  exact utf8Size_of_isUrlChar hurl

/-! ### Trimming -/

variable {url url' : Str} {opener closer : Char} {rounds : ℕ}

theorem trimClosers_prefix (opener closer : Char) (rounds : ℕ) (h : IsAscii url) :
    ∃ url', trimClosers opener closer rounds url = some url' ∧ url' <+: url := by
  induction rounds generalizing url with
  | zero => exact ⟨url, rfl, prefix_rfl⟩
  | succ rounds ih =>
    rw [trimClosers]
    split_ifs
    · have hle : utf8Len url - 1 ≤ url.length := by
        rw [h.utf8Len_eq]
        exact Nat.sub_le ..
      obtain ⟨url', htrim, hprefix⟩ := ih (h.take (utf8Len url - 1))
      rw [h.sliceTo_eq hle]
      exact ⟨url', htrim, hprefix.trans ( take_prefix ..)⟩
    · exact ⟨url, rfl, prefix_rfl⟩

theorem trimUrl_prefix (h : IsAscii url) : ∃ url', trimUrl url = some url' ∧ url' <+: url := by
  rw [trimUrl]
  generalize hpunctuation : url.rdropWhile (fun c => ".,;:!?'".toList.contains c) = plain
  have hplain : plain <+: url := hpunctuation ▸ rdropWhile_prefix _ url
  obtain ⟨round, hround, hround'⟩ := trimClosers_prefix '(' ')' plain.length (h.mono hplain)
  obtain ⟨square, hsquare, hsquare'⟩ := trimClosers_prefix '[' ']' round.length
    (h.mono (hround'.trans hplain))
  refine ⟨square, ?_, hsquare'.trans (hround'.trans hplain)⟩
  simp [hround, hsquare]

/-! ### The URL -/

theorem eq_slice_of_prefix {start stop : ℕ} (h : url <+: (text.take stop).drop start) :
    url = slice text start (start + url.length) ∧
      (url ≠ [] → start + url.length ≤ text.length) := by
  have hprefix : url <+: text.drop start := by
    rw [drop_take] at h
    exact h.trans ( take_prefix ..)
  constructor
  · rw [slice, drop_take, Nat.add_sub_cancel_left]
    exact prefix_iff_eq_take.mp hprefix
  · intro hne
    have hpos := length_pos_iff.mpr hne
    have hle := hprefix.length_le
    rw [length_drop] at hle
    omega

/-- A URL that is found is the text of its range, around the column, and passes the gate. -/
theorem urlAtCol_found : ∃ found, urlAtCol text col = some found ∧ ∀ url range,
    found = some (url, range) → url = slice text range.start range.stop ∧
      range.start ≤ col ∧ col < range.stop ∧ range.stop ≤ text.length ∧
      openAllowed url = some true := by
  rw [urlAtCol]
  split_ifs
  · exact ⟨none, rfl, nofun⟩
  have hascii : IsAscii _ := @token_ascii text col
  dsimp only
  generalize runStart text col = start at hascii ⊢
  generalize htoken : (text.take (runEnd text col)).drop start = token at hascii ⊢
  split
  · exact ⟨none, rfl, nofun⟩
  next schemeAt hscheme =>
    obtain ⟨scheme, -, hfind⟩ := mem_filterMap.mp (min?_mem hscheme)
    have hschemeAt : schemeAt ≤ token.length := by
      have := find_le_length (isAscii_map_toLower.mpr hascii) hfind
      rwa [length_map] at this
    obtain ⟨url, htrim, hprefix⟩ := trimUrl_prefix (hascii.drop schemeAt)
    have hurl : IsAscii url := (hascii.drop schemeAt).mono hprefix
    rw [hascii.sliceFrom_eq hschemeAt]
    simp only [Option.bind_eq_bind, Option.bind_some, htrim]
    split_ifs with hcol
    · obtain ⟨allowed, hallowed⟩ :=
        Option.isSome_iff_exists.mp (openAllowed_isSome.mpr (testable_of_ascii hurl))
      cases allowed with
      | false => exact ⟨none, by simp [hallowed], nofun⟩
      | true =>
        refine ⟨some (url, ⟨start + schemeAt, start + schemeAt + utf8Len url⟩), by simp [hallowed], ?_⟩
        rintro url' range ⟨⟩
        rw [hurl.utf8Len_eq] at hcol ⊢
        rw [← htoken, drop_drop] at hprefix
        obtain ⟨hslice, hstop⟩ := eq_slice_of_prefix hprefix
        exact ⟨hslice, hcol.1, hcol.2, hstop (by rintro rfl; simp at hcol; omega), hallowed⟩
    · exact ⟨none, rfl, nofun⟩

end

/-- **The link gate.**  Whatever the row's text and the column, the program does not panic and opens
only what starts with an allowed scheme, when the hyperlink at the column, if there is one, has a
URI that the gate can test. -/
theorem resolveLink_safe_iff (rowAt : ℤ → Option RowText) (col : ℕ) :
    ((resolveLink rowAt col).isSome ∧
      ∀ link, resolveLink rowAt col = some (some link) → Allowed link.url) ↔
    ∀ row start stop uri, rowAt 0 = some row → row.hyperlinkAt col = some (start, stop, uri) →
      Testable uri := by
  rw [resolveLink]
  split
  · next hrow => simp [hrow]
  next pointed hrow =>
  split
  · next start stop uri hlink =>
    constructor
    · rintro ⟨hsome, -⟩ row start' stop' uri' hrow' hlink'
      cases hrow.symm.trans hrow'
      cases hlink.symm.trans hlink'
      rw [← openAllowed_isSome]
      cases hallowed : openAllowed uri with
      | none => simp [hallowed] at hsome
      | some _ => rfl
    · intro h
      obtain ⟨allowed, hallowed⟩ :=
        Option.isSome_iff_exists.mp (openAllowed_isSome.mpr (h _ _ _ _ hrow hlink))
      refine ⟨by simp [hallowed], fun link hlink ↦ ?_⟩
      cases allowed with
      | false => simp [hallowed] at hlink
      | true =>
        simp only [hallowed, Option.bind_eq_bind, Option.bind_some, if_true, Option.pure_def,
          Option.some.injEq] at hlink
        rw [← hlink]
        exact allowed_of_openAllowed hallowed
  · next hlink =>
    obtain ⟨found, hfound, hurl⟩ :=
      @urlAtCol_found (join rowAt pointed col).text (join rowAt pointed col).col
    refine iff_of_true ⟨by simp [hfound], fun link hlink ↦ ?_⟩ ?_
    · simp only [hfound, Option.bind_eq_bind, Option.bind_some, Option.pure_def, Option.some.injEq,
        Option.map_eq_some_iff] at hlink
      obtain ⟨⟨url, range⟩, rfl, rfl⟩ := hlink
      obtain ⟨-, -, -, -, hallowed⟩ := hurl url range rfl
      exact allowed_of_openAllowed hallowed
    · intro row start stop uri hrow' hlink'
      cases hrow.symm.trans hrow'
      cases hlink.symm.trans hlink'

/-- The eighth byte of this hyperlink's URI is inside a character. -/
theorem resolveLink_panics :
    resolveLink (fun _ ↦ some ⟨['a'], false, [(0, 0, "https:/é".toList)]⟩) 0 = none := by
  decide +kernel

/-! ## The rows under a URL -/

/-- `rows` are the texts of the rows from `back` above the pointed one on. -/
def Reads (rowAt : ℤ → Option RowText) (back : ℕ) (rows : List Str) : Prop :=
  ∀ (k : ℕ) row, rows[k]? = some row → ∃ r, rowAt ((k : ℤ) - back) = some r ∧ r.text = row

section

variable {rowAt : ℤ → Option RowText} {rows : List Str}

theorem joinDown_reads (n : ℕ) (wrapped : Bool) (h : Reads rowAt 0 rows) :
    ∃ rows', joinDown rowAt n rows.length wrapped rows.flatten = rows'.flatten ∧
      Reads rowAt 0 rows' := by
  induction n generalizing rows wrapped with
  | zero => exact ⟨rows, rfl, h⟩
  | succ n ih =>
    rw [joinDown]
    split_ifs
    · exact ⟨rows, rfl, h⟩
    · split
      · exact ⟨rows, rfl, h⟩
      · next next hnext =>
        have hrows : Reads rowAt 0 (rows ++ [next.text]) := by
          intro k row hk
          rcases Nat.lt_or_ge k rows.length with hlt | hge
          · exact h k row (by rwa [getElem?_append_left hlt] at hk)
          · obtain ⟨rfl, rfl⟩ : k = rows.length ∧ next.text = row := by
              rw [getElem?_append_right hge, getElem?_singleton] at hk
              split_ifs at hk with hzero
              · exact ⟨by omega, Option.some.inj hk⟩
            exact ⟨next, by simpa using hnext, rfl⟩
        have hih := ih next.wrapped hrows
        rwa [flatten_append, flatten_singleton, length_append, length_singleton,
          Int.natCast_add, Int.natCast_one] at hih

/-- What the joined text is made of, with rows of one width. -/
structure Joined.Reads (joined : Joined) (rowAt : ℤ → Option RowText) (width col : ℕ)
    (rows : List Str) : Prop where
  text : joined.text = rows.flatten
  rows : Links.Reads rowAt joined.back rows
  col : joined.col = joined.back * width + col

theorem joinUp_reads {width col : ℕ}
    (hwidth : ∀ delta row, rowAt delta = some row → row.text.length = width) (n : ℕ)
    {joined : Joined} (h : joined.Reads rowAt width col rows) :
    ∃ rows', (joinUp rowAt n joined).Reads rowAt width col rows' := by
  induction n generalizing joined rows with
  | zero => exact ⟨rows, h⟩
  | succ n ih =>
    rw [joinUp]
    split
    · exact ⟨rows, h⟩
    · next prev hprev =>
      obtain ⟨hrow, -⟩ := Option.filter_eq_some_iff.mp hprev
      refine @ih (prev.text :: rows) _ ⟨?_, ?_, ?_⟩
      · rw [h.text, flatten_cons]
      · rintro (_ | k) row hk
        · cases hk
          exact ⟨prev, by simpa using hrow, rfl⟩
        · obtain ⟨r, hr, htext⟩ := h.rows k row hk
          refine ⟨r, ?_, htext⟩
          rw [← hr]
          congr 1
          push_cast
          omega
      · show joined.col + prev.text.length = (joined.back + 1) * width + col
        rw [h.col, hwidth _ _ hrow, Nat.add_mul, Nat.one_mul]
        omega

theorem join_reads {width : ℕ} (col : ℕ)
    (hwidth : ∀ delta row, rowAt delta = some row → row.text.length = width) {pointed : RowText}
    (hpointed : rowAt 0 = some pointed) :
    ∃ rows, (join rowAt pointed col).Reads rowAt width col rows := by
  have hstart : Reads rowAt 0 [pointed.text] := by
    rintro (_ | k) row hk
    · cases hk
      exact ⟨pointed, hpointed, rfl⟩
    · cases hk
  obtain ⟨rows, htext, hrows⟩ := joinDown_reads joinCap pointed.wrapped hstart
  rw [flatten_singleton] at htext
  exact joinUp_reads hwidth joinCap ⟨htext, hrows, by rw [Nat.zero_mul, Nat.zero_add]⟩

def under (rowAt : ℤ → Option RowText) (seg : RowSegment) : Str :=
  (rowAt seg.delta).elim [] fun row => (row.text.drop seg.col).take seg.cols

/-! ## The segments -/

section

variable {width back seg : ℕ} {range : CharRange}

theorem mem_segments {segment' : RowSegment} (hwidth : 0 < width) :
    segment' ∈ segments range width back ↔ ∃ seg, range.start / width ≤ seg ∧
      seg ≤ (range.stop - 1) / width ∧ segment range width back seg = segment' := by
  rw [segments, if_neg (Nat.ne_of_gt hwidth)]
  simp only [mem_map, mem_range'_1]
  constructor
  · rintro ⟨seg, hseg, h⟩
    exact ⟨seg, hseg.1, by omega, h⟩
  · rintro ⟨seg, hfirst, hlast, h⟩
    exact ⟨seg, by omega, h⟩

/-- A row from the first to the last of a range has a part of it. -/
theorem segment_bounds (hwidth : 0 < width) (hrange : range.start < range.stop)
    (hfirst : range.start / width ≤ seg) (hlast : seg ≤ (range.stop - 1) / width) :
    seg * width ≤ max range.start (seg * width) ∧
      max range.start (seg * width) < min range.stop ((seg + 1) * width) := by
  have hstart : range.start < (seg + 1) * width :=
    (Nat.div_lt_iff_lt_mul hwidth).mp (Nat.lt_succ_of_le hfirst)
  have hstop : seg * width ≤ range.stop - 1 := (Nat.le_div_iff_mul_le hwidth).mp hlast
  have hnext : (seg + 1) * width = seg * width + width := Nat.succ_mul seg width
  omega

/-- A segment is under the part of the joined text that its row has. -/
theorem under_segment {rowAt : ℤ → Option RowText} {rows : List Str} (hrows : Reads rowAt back rows)
    (hlength : ∀ row ∈ rows, row.length = width) (hwidth : 0 < width)
    (hrange : range.start < range.stop) (hend : range.stop ≤ rows.flatten.length)
    (hfirst : range.start / width ≤ seg) (hlast : seg ≤ (range.stop - 1) / width) :
    under rowAt (segment range width back seg) =
      slice rows.flatten (max range.start (seg * width)) (min range.stop ((seg + 1) * width)) := by
  obtain ⟨hlow, hlt⟩ := segment_bounds hwidth hrange hfirst hlast
  have htotal : rows.flatten.length = rows.length * width := length_flatten_of_length hlength
  have hseg : seg < rows.length := by
    have hstop : seg * width < rows.length * width := by omega
    exact Nat.lt_of_mul_lt_mul_right hstop
  obtain ⟨row, hrow, htext⟩ := hrows seg _ (getElem?_eq_getElem hseg)
  have hnext : (seg + 1) * width = seg * width + width := Nat.succ_mul seg width
  have hslice := slice_flatten (a := max range.start (seg * width) - seg * width)
    (b := min range.stop ((seg + 1) * width) - seg * width) hlength
    (getElem?_eq_getElem hseg) (by omega)
  rw [Nat.add_sub_of_le hlow, Nat.add_sub_of_le (Nat.le_trans hlow (Nat.le_of_lt hlt))] at hslice
  rw [hslice, under, segment, hrow, Option.elim_some, htext, slice, drop_take,
    Nat.sub_sub_sub_cancel_right hlow]

end

/-- **The segments of a URL found in the text tile it**: with rows of one width, the characters
under them are the URL, they follow one another down the rows, and one of them has the pointed
cell. -/
theorem segments_tile {width col : ℕ}
    (hwidth : ∀ delta row, rowAt delta = some row → row.text.length = width) {pointed : RowText}
    (hpointed : rowAt 0 = some pointed) (hplain : pointed.hyperlinkAt col = none)
    {link : ResolvedLink} (hlink : resolveLink rowAt col = some (some link)) :
    link.segments.flatMap (under rowAt) = link.url ∧
    link.segments.Pairwise (·.delta < ·.delta) ∧
    (∀ seg ∈ link.segments, 0 < seg.cols ∧ seg.col + seg.cols ≤ width) ∧
    ∃ seg ∈ link.segments, seg.delta * width + seg.col ≤ col ∧
      (col : ℤ) < seg.delta * width + seg.col + seg.cols ∧ (col < width → seg.delta = 0) := by
  obtain ⟨rows, htext, hrows, hcol⟩ := join_reads col hwidth hpointed
  obtain ⟨found, hfound, hurl⟩ :=
    @urlAtCol_found (join rowAt pointed col).text (join rowAt pointed col).col
  simp only [resolveLink, hpointed, hplain, hfound, Option.bind_eq_bind, Option.bind_some,
    Option.pure_def, Option.some.injEq, Option.map_eq_some_iff, hwidth 0 pointed hpointed] at hlink
  obtain ⟨⟨url, range⟩, rfl, rfl⟩ := hlink
  obtain ⟨hslice, hstart, hstop, hend, -⟩ := hurl url range rfl
  generalize join rowAt pointed col = joined at *
  have hlength : ∀ row ∈ rows, row.length = width := by
    intro row hrow
    obtain ⟨k, hk⟩ := mem_iff_getElem?.mp hrow
    obtain ⟨r, hr, rfl⟩ := hrows k row hk
    exact hwidth _ r hr
  have hrange : range.start < range.stop := by omega
  rw [htext] at hslice hend
  have hpos : 0 < width := by
    by_contra hzero
    have htotal := length_flatten_of_length hlength
    rw [Nat.eq_zero_of_not_pos hzero, Nat.mul_zero] at htotal
    omega
  refine ⟨?_, ?_, ?_, ?_⟩
  · rw [hslice, ← flatMap_slice hpos hrange, segments, if_neg (Nat.ne_of_gt hpos),
      flatMap_map]
    refine flatMap_congr fun seg hseg ↦ ?_
    rw [mem_range'_1] at hseg
    exact under_segment hrows hlength hpos hrange hend hseg.1 (by omega)
  · rw [segments, if_neg (Nat.ne_of_gt hpos), pairwise_map]
    refine (pairwise_lt_range' 1).imp fun hlt ↦ ?_
    simp only [segment]
    omega
  · intro segment' hsegment
    obtain ⟨seg, hfirst, hlast, rfl⟩ := (mem_segments hpos).mp hsegment
    obtain ⟨hlow, hlt⟩ := segment_bounds hpos hrange hfirst hlast
    have hnext : (seg + 1) * width = seg * width + width := Nat.succ_mul seg width
    simp only [segment]
    omega
  · have hfirst : range.start / width ≤ joined.col / width := Nat.div_le_div_right hstart
    have hlast : joined.col / width ≤ (range.stop - 1) / width := Nat.div_le_div_right (by omega)
    refine ⟨_, (mem_segments hpos).mpr ⟨joined.col / width, hfirst, hlast, rfl⟩, ?_⟩
    obtain ⟨hlow, hlt⟩ := segment_bounds hpos hrange hfirst hlast
    have hle : joined.col / width * width ≤ joined.col := Nat.div_mul_le_self ..
    have hgt : joined.col < joined.col / width * width + width := Nat.lt_div_mul_add hpos
    have hnext : (joined.col / width + 1) * width = joined.col / width * width + width :=
      Nat.succ_mul ..
    have hdelta : ((joined.col / width : ℕ) - joined.back : ℤ) * width =
        (joined.col / width * width : ℕ) - (joined.back * width : ℕ) := by
      rw [Int.sub_mul, Int.natCast_mul, Int.natCast_mul]
    refine ⟨?_, ?_, ?_⟩
    · simp only [segment, hdelta]
      omega
    · simp only [segment, hdelta]
      omega
    · intro hcell
      have hback : joined.col / width = joined.back := by
        rw [hcol, Nat.add_comm, Nat.add_mul_div_right _ _ hpos, Nat.div_eq_of_lt hcell,
          Nat.zero_add]
      simp only [segment, hback]
      omega

end

/-- A URL that begins in the row above the pointed one. -/
def twoRows (delta : ℤ) : Option RowText :=
  if delta = -1 then some ⟨"https://exam".toList, true, []⟩
  else if delta = 0 then some ⟨"ple.com/abc ".toList, false, []⟩
  else none

theorem twoRows_tile :
    [⟨-1, 0, 12⟩, ⟨0, 0, 11⟩].flatMap (under twoRows) = "https://example.com/abc".toList := by
  have hwidth : ∀ delta row, twoRows delta = some row → row.text.length = 12 := by
    intro delta row h
    rw [twoRows] at h
    split_ifs at h <;> cases h <;> rfl
  have hlink : resolveLink twoRows 4 =
      some (some ⟨"https://example.com/abc".toList, [⟨-1, 0, 12⟩, ⟨0, 0, 11⟩]⟩) := by
    decide +kernel
  exact (@segments_tile twoRows 12 4 hwidth ⟨"ple.com/abc ".toList, false, []⟩ rfl rfl _ hlink).1

end Links
end NiumaTerm.Terminal
