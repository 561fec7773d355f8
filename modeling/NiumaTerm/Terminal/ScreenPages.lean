import Mathlib.Algebra.Group.Nat.Defs
import NiumaTerm.Lib.Lru
import NiumaTerm.Lib.Transition
import NiumaTerm.Terminal.BlockStore

/-!
# Pages of screen rows

A page of 64 rows is asked for at the revision of a snapshot, and answered only while that is current.
Meanwhile `readScreenForDisplay` shows the last complete page, as long as the width, the theme and the
history epoch are the same and there are no fewer rows of history (`stillDescribes`).  Rows are numbered
from the top of the scrollback, lines from the first one on: row 0 shows line `top`.  A shown page is wrong
exactly when it passes the test although the line at the top is another one (`Moved`).
-/

namespace NiumaTerm.Terminal
namespace Pages

open Transition List

/-! ## The screen -/

structure Screen where
  cols : ℕ
  /-- Rows below the history. -/
  height : ℕ
  theme : ℕ
  top : ℕ
  history : ℕ

/-- A line is known by the width it was wrapped at and its number. -/
abbrev Line := ℕ × ℕ

/-- What happens to the screen. -/
inductive Change
  /-- Lines scroll into the history, and the scrollback limit drops the oldest ones. -/
  | output (added dropped : ℕ)
  /-- The engine wraps the rows again. -/
  | resize (cols height top history : ℕ) (live : List (BlockHandle × ℕ))
  | recolor
  /-- The history is removed; the block store is told of a user's clear, and never hears of an erase
  by a program. -/
  | clear (told : Bool) (added : ℕ)
  /-- A finished command is frozen into a block, with the rows above. -/
  | freeze (seq : ℕ) (handle : BlockHandle) (rows : ℕ) (segment : SegmentMeta)
    (live : List (BlockHandle × ℕ)) (added : ℕ)

namespace Screen

variable (screen : Screen)

/-- The line that a row shows. -/
def line (row : ℕ) : Line := (screen.cols, screen.top + row)

def change : Change → Screen
  | .output added dropped =>
    let dropped := min dropped (screen.history + added)
    { screen with top := screen.top + dropped, history := screen.history + added - dropped }
  | .resize cols height top history _ => { screen with cols, height, top, history }
  | .recolor => { screen with theme := screen.theme + 1 }
  | .clear _ added | .freeze _ _ _ _ _ added =>
    { screen with top := screen.top + screen.history, history := added }

end Screen

/-- What the block store is told of a change. -/
def Change.events : Change → List BlockEvent
  | .output _ _ | .recolor | .clear false _ => []
  | .resize _ _ _ _ live => [.engineBlocksSync live]
  | .clear true _ => [.historyCleared]
  | .freeze seq handle rows segment live _ =>
    [.engineBlock seq handle rows segment, .engineBlocksSync live]

/-! ## Pages -/

def pageRows : ℕ := 64

def cachedPages : ℕ := 128

def retainedScreenPages : ℕ := 8

inductive PageSource
  | screen (revision : ℕ)
  | block (id generation theme : ℕ)
  deriving DecidableEq

structure RowPage where
  source : PageSource
  start : ℕ
  cols : ℕ
  rows : List Line

inductive Entry
  | pending (request : ℕ)
  | ready (page : Option RowPage)

/-- Everything besides the row text that a screen page's content depends on. -/
structure ScreenState where
  revision : ℕ
  cols : ℕ
  historyRows : ℕ
  theme : ℕ
  historyEpoch : ℕ

structure RetainedPage where
  page : RowPage
  state : ScreenState

def RetainedPage.stillDescribes (retained : RetainedPage) (current : ScreenState) : Bool :=
  retained.state.cols = current.cols && retained.state.theme = current.theme &&
    retained.state.historyEpoch = current.historyEpoch &&
    retained.state.historyRows ≤ current.historyRows

def pageStart (row : ℕ) : ℕ := row / pageRows * pageRows

structure PageCache where
  clock : ℕ
  pages : Lru (PageSource × ℕ) Entry
  retained : Lru ℕ RetainedPage

namespace PageCache

def empty : PageCache where
  clock := 0
  pages := []
  retained := []

variable (c : PageCache) (tryRecv : ℕ → Option (Option RowPage)) (request : Option ℕ)

/-- The page of a row of a source.  `request` is the reply channel of the query that a page without
an entry sends, when there is an owner to receive it. -/
def read (source : PageSource) (row : ℕ) : Option RowPage × PageCache :=
  let key := (source, pageStart row)
  let clock := c.clock + 1
  match c.pages.get? key with
  | some (.ready page) => (page, { c with clock, pages := c.pages.set clock key (.ready page) })
  | some (.pending id) =>
    match tryRecv id with
    | some page => (page, { c with clock, pages := c.pages.set clock key (.ready page) })
    | none => (none, { c with clock, pages := c.pages.set clock key (.pending id) })
  | none =>
    let pages := c.pages.makeRoom cachedPages
    (none, { c with clock, pages := request.elim pages fun id => pages.set clock key (.pending id) })

/-- The page at the revision of `state`, or while that read is pending, the last complete page for
the same rows. -/
def readScreenForDisplay (state : ScreenState) (row : ℕ) : Option RowPage × PageCache :=
  let start := pageStart row
  match c.read tryRecv request (.screen state.revision) row with
  | (some page, c) =>
    let retained :=
      if (c.retained.get? start).isNone then c.retained.makeRoom retainedScreenPages else c.retained
    (some page, { c with retained := retained.set c.clock start { page, state } })
  | (none, c) =>
    match c.retained.get? start with
    | none => (none, c)
    | some retained =>
      if retained.stillDescribes state then
        (some retained.page, { c with retained := c.retained.set c.clock start retained })
      else (none, { c with retained := c.retained.erase start })

end PageCache

/-! ## The terminal and its view -/

/-- The rows of a page, as the engine reads them. -/
def Screen.rowsFrom (screen : Screen) (start : ℕ) : List Line :=
  (List.range' start (min pageRows (min (screen.history + screen.height) (2 ^ 32) - start))).map
    screen.line

structure State where
  /-- The screen at each revision; the last one is the engine's. -/
  screens : List Screen
  published : List ℕ
  /-- Block events that the next announced frame brings to the store. -/
  staged : List BlockEvent
  store : BlockStore
  cache : PageCache
  /-- Every query that was sent; a query is known by its position. -/
  requests : List (PageSource × ℕ)
  replies : List (ℕ × Option RowPage)

inductive Label
  /-- A batch of output, a resize, or a theme makes a new revision. -/
  | revise (changes : List Change)
  | publish
  | flushStagedBlocks
  /-- A reply, which fails, or carries what a block has in its rows. -/
  | answer (request : ℕ) (fails : Bool) (blockCols : ℕ) (blockRows : List Line)
  /-- The receiver or the owner is gone before there is a reply. -/
  | cancel (request : ℕ)
  | display (version row : ℕ) (sent : Bool)
  | read (source : PageSource) (row : ℕ) (sent : Bool)

namespace State

variable (s : State)

def initial (screen : Screen) : State where
  screens := [screen]
  published := [0]
  staged := []
  store := .default
  cache := .empty
  requests := []
  replies := []

/-- The revision of the engine. -/
def version : ℕ := s.screens.length - 1

def tryRecv (request : ℕ) : Option (Option RowPage) := s.replies.lookup request

/-- What the owner replies to a query for rows. -/
def answer (source : PageSource) (start blockCols : ℕ) (blockRows : List Line) : Option RowPage := do
  let screen ← s.screens[s.version]?
  match source with
  | .screen revision =>
    if revision = s.version then
      some { source, start, cols := screen.cols, rows := screen.rowsFrom start }
    else none
  | .block _ _ theme =>
    if theme = screen.theme then some { source, start, cols := blockCols, rows := blockRows }
    else none

/-- A page without an entry is asked for. -/
def asks (source : PageSource) (row : ℕ) : Bool :=
  (s.cache.pages.get? (source, pageStart row)).isNone

/-- The reply channel of a new query, when there is an owner. -/
def request (sent : Bool) : Option ℕ := if sent then some s.requests.length else none

def afterRead (source : PageSource) (row : ℕ) (sent : Bool) (cache : PageCache) : State :=
  { s with
    cache
    requests :=
      if sent && s.asks source row then s.requests ++ [(source, pageStart row)] else s.requests }

/-- The summary of a snapshot, with the epoch that the store has by now. -/
def screenState (version : ℕ) (screen : Screen) : ScreenState where
  revision := version
  cols := screen.cols
  historyRows := screen.history
  theme := screen.theme
  historyEpoch := s.store.historyEpoch

def displayed (version : ℕ) (screen : Screen) (row : ℕ) (sent : Bool) :
    Option RowPage × PageCache :=
  s.cache.readScreenForDisplay s.tryRecv (s.request sent) (s.screenState version screen) row

/-- `screenPageForDisplay` of a published snapshot. -/
def display (version row : ℕ) (sent : Bool) : Option (Option RowPage × State) := do
  let screen ← s.screens[version]?
  if version ∈ s.published then
    let (page, cache) := s.displayed version screen row sent
    some (page, s.afterRead (.screen version) row sent cache)
  else none

/-- There is at most one reply to a query. -/
def reply (request : ℕ) (page : Option RowPage) : Option State :=
  if (s.tryRecv request).isNone then some { s with replies := s.replies ++ [(request, page)] }
  else none

def perform : Label → Option State
  | .revise changes => do
    let screen ← s.screens[s.version]?
    return { s with
      screens := s.screens ++ [changes.foldl Screen.change screen]
      staged := s.staged ++ changes.flatMap Change.events }
  | .publish => some { s with published := s.published ++ [s.version] }
  | .flushStagedBlocks => some { s with store := s.store.apply s.staged, staged := [] }
  | .answer request fails blockCols blockRows => do
    let (source, start) ← s.requests[request]?
    let page := if fails then none else s.answer source start blockCols blockRows
    s.reply request page
  | .cancel request => s.reply request none
  | .display version row sent => (s.display version row sent).map Prod.snd
  | .read source row sent =>
    some (s.afterRead source row sent (s.cache.read s.tryRecv (s.request sent) source row).2)

end State

/-- All runs of a terminal with a view. -/
def terminals : System State Label where
  init s := ∃ screen, s = .initial screen
  step s label s' := s.perform label = some s'

/-! ## What a page shows -/

/-- The rows of the page that are history on a screen show the lines that they show there. -/
def Addresses (screen : Screen) (page : RowPage) : Prop :=
  ∀ i line, page.rows[i]? = some line → page.start + i < screen.history →
    screen.line (page.start + i) = line

def ReadAt (screens : List Screen) (version : ℕ) (page : RowPage) : Prop :=
  page.source = .screen version ∧
    ∃ screen, screens[version]? = some screen ∧ page.rows = screen.rowsFrom page.start

/-- The page for a row of a snapshot was read at its revision, or still shows the same lines. -/
def Right (s : State) (version row : ℕ) (page : RowPage) : Prop :=
  page.start = pageStart row ∧
    (ReadAt s.screens version page ∨
      ∃ screen, s.screens[version]? = some screen ∧ Addresses screen page)

/-- The reply at the revision of the snapshot, when it is there. -/
def State.freshPage (s : State) (version row : ℕ) : Option RowPage :=
  match s.cache.pages.get? (.screen version, pageStart row) with
  | some (.ready page) => page
  | some (.pending request) => (s.tryRecv request).getD none
  | none => none

/-- The snapshot has no page of its own, and the retained one passes the test although the line at
the top of the scrollback is another one. -/
def Moved (s : State) (version row : ℕ) : Prop :=
  s.freshPage version row = none ∧
    ∃ retained old new, s.cache.retained.get? (pageStart row) = some retained ∧
      s.screens[retained.state.revision]? = some old ∧ s.screens[version]? = some new ∧
      retained.stillDescribes (s.screenState version new) = true ∧ old.top ≠ new.top ∧
      retained.page.rows ≠ [] ∧ pageStart row < new.history

/-! ## The cache -/

section

variable {c : PageCache} {tryRecv : ℕ → Option (Option RowPage)} {request : Option ℕ}
  {source : PageSource} {row : ℕ}

/-- What a read returns. -/
theorem PageCache.read_fst :
    (c.read tryRecv request source row).1 =
      match c.pages.get? (source, pageStart row) with
      | some (.ready page) => page
      | some (.pending id) => (tryRecv id).getD none
      | none => none := by
  rw [read]
  cases c.pages.get? (source, pageStart row) with
  | none => rfl
  | some entry =>
    cases entry with
    | ready page => rfl
    | pending id => cases h : tryRecv id <;> simp [h]

theorem PageCache.read_retained : (c.read tryRecv request source row).2.retained = c.retained := by
  rw [read]
  cases c.pages.get? (source, pageStart row) with
  | none => rfl
  | some entry =>
    cases entry with
    | ready page => rfl
    | pending id => cases h : tryRecv id <;> simp [h]

variable {P : PageSource × ℕ → Entry → Prop}

/-- A read keeps what holds of the entries, of received pages, and of new requests. -/
theorem PageCache.read_pages (h : Lru.All P c.pages)
    (hrecv : ∀ key id page, P key (.pending id) → tryRecv id = some page → P key (.ready page))
    (hnew : ∀ id, request = some id → c.pages.get? (source, pageStart row) = none →
      P (source, pageStart row) (.pending id)) :
    Lru.All P (c.read tryRecv request source row).2.pages := by
  rw [read]
  cases hget : c.pages.get? (source, pageStart row) with
  | none =>
    cases request with
    | none => exact h.makeRoom
    | some id => exact h.makeRoom.set (hnew id rfl hget)
  | some entry =>
    have hentry := h.get? hget
    cases entry with
    | ready page => exact h.set hentry
    | pending id =>
      cases hr : tryRecv id with
      | none =>
        simp only [hr]
        exact h.set hentry
      | some page =>
        simp only [hr]
        exact h.set (hrecv _ _ _ hentry hr)

theorem PageCache.read_some (h : Lru.All P c.pages)
    (hrecv : ∀ key id page, P key (.pending id) → tryRecv id = some page → P key (.ready page))
    {page : RowPage} (hread : (c.read tryRecv request source row).1 = some page) :
    P (source, pageStart row) (.ready (some page)) := by
  rw [read_fst] at hread
  cases hget : c.pages.get? (source, pageStart row) with
  | none =>
    rw [hget] at hread
    cases hread
  | some entry =>
    have hentry := h.get? hget
    rw [hget] at hread
    cases entry with
    | ready ready =>
      obtain rfl : ready = some page := hread
      exact hentry
    | pending id =>
      rcases Option.getD_eq_iff.mp hread with hr | ⟨-, hnone⟩
      · exact hrecv _ _ _ hentry hr
      · cases hnone

/-- What a display read returns, and what it retains. -/
theorem PageCache.readScreenForDisplay_cases (state : ScreenState) :
    (∃ page, (c.read tryRecv request (.screen state.revision) row).1 = some page ∧
      (c.readScreenForDisplay tryRecv request state row).1 = some page) ∨
    ((c.read tryRecv request (.screen state.revision) row).1 = none ∧
      (c.readScreenForDisplay tryRecv request state row).1 =
        ((c.read tryRecv request (.screen state.revision) row).2.retained.get?
          (pageStart row)).bind fun retained =>
            if retained.stillDescribes state then some retained.page else none) := by
  rw [readScreenForDisplay]
  obtain ⟨page, c'⟩ := c.read tryRecv request (.screen state.revision) row
  cases page with
  | some page => exact .inl ⟨page, rfl, rfl⟩
  | none =>
    refine .inr ⟨rfl, ?_⟩
    cases hget : c'.retained.get? (pageStart row) with
    | none => simp only [hget, Option.bind_none]
    | some retained =>
      simp only [hget, Option.bind_some]
      split <;> rfl

theorem PageCache.readScreenForDisplay_kept
    {Q : ℕ → RetainedPage → Prop} (state : ScreenState) (h : Lru.All P c.pages)
    (hq : Lru.All Q c.retained)
    (hrecv : ∀ key id page, P key (.pending id) → tryRecv id = some page → P key (.ready page))
    (hnew : ∀ id, request = some id →
      c.pages.get? (.screen state.revision, pageStart row) = none →
      P (.screen state.revision, pageStart row) (.pending id))
    (hpage : ∀ page, P (.screen state.revision, pageStart row) (.ready (some page)) →
      Q (pageStart row) { page, state }) :
    Lru.All P (c.readScreenForDisplay tryRecv request state row).2.pages ∧
      Lru.All Q (c.readScreenForDisplay tryRecv request state row).2.retained := by
  have hpages := read_pages h hrecv hnew
  have hretained : (c.read tryRecv request (.screen state.revision) row).2.retained = c.retained :=
    read_retained
  have hsome (page : RowPage)
      (hread : (c.read tryRecv request (.screen state.revision) row).1 = some page) :
      P (.screen state.revision, pageStart row) (.ready (some page)) := read_some h hrecv hread
  rw [readScreenForDisplay]
  generalize c.read tryRecv request (.screen state.revision) row = result at *
  obtain ⟨page, c'⟩ := result
  rw [← hretained] at hq
  cases page with
  | some page =>
    refine ⟨hpages, ?_⟩
    have hroom : Lru.All Q (if (c'.retained.get? (pageStart row)).isNone
        then c'.retained.makeRoom retainedScreenPages else c'.retained) := by
      split
      · exact hq.makeRoom
      · exact hq
    exact hroom.set (hpage page (hsome page rfl))
  | none =>
    cases hget : c'.retained.get? (pageStart row) with
    | none =>
      simp only [hget]
      exact ⟨hpages, hq⟩
    | some retained =>
      simp only [hget]
      split
      · exact ⟨hpages, hq.set (hq.get? hget)⟩
      · exact ⟨hpages, hq.erase _⟩

end

/-! ## Runs -/

/-- A page is what was read for a key: a screen page has the rows of its revision. -/
def Exact (screens : List Screen) (key : PageSource × ℕ) (page : RowPage) : Prop :=
  page.source = key.1 ∧ page.start = key.2 ∧
    ∀ version, key.1 = .screen version → ReadAt screens version page

/-- What an entry of the cache stands for. -/
def Cached (s : State) (key : PageSource × ℕ) : Entry → Prop
  | .pending id => s.requests[id]? = some key
  | .ready page => ∀ p, page = some p → Exact s.screens key p

/-- A retained page is one of its revision, and its state is the summary of that revision. -/
def Kept (screens : List Screen) (start : ℕ) (retained : RetainedPage) : Prop :=
  retained.page.start = start ∧ ReadAt screens retained.state.revision retained.page ∧
    ∃ screen, screens[retained.state.revision]? = some screen ∧ retained.state.cols = screen.cols

structure Inv (s : State) : Prop where
  pages : Lru.All (Cached s) s.cache.pages
  retained : Lru.All (Kept s.screens) s.cache.retained
  replies : ∀ id page, s.tryRecv id = some (some page) →
    ∃ key, s.requests[id]? = some key ∧ Exact s.screens key page

theorem getElem?_append_of_some {α : Type} {xs ys : List α} {i : ℕ} {x : α} (h : xs[i]? = some x) :
    (xs ++ ys)[i]? = some x := by
  rw [getElem?_append_left (List.getElem?_eq_some_iff.mp h).1, h]

variable {screens more : List Screen} {page : RowPage} {key : PageSource × ℕ} {cache : PageCache}
  {sent : Bool}

theorem ReadAt.append {version : ℕ}
    (h : ReadAt screens version page) : ReadAt (screens ++ more) version page := by
  obtain ⟨hsource, screen, hscreen, hrows⟩ := h
  exact ⟨hsource, screen, getElem?_append_of_some hscreen, hrows⟩

theorem Exact.append (h : Exact screens key page) : Exact (screens ++ more) key page :=
  ⟨h.1, h.2.1, fun version hv => (h.2.2 version hv).append⟩

theorem Kept.append {start : ℕ} {retained : RetainedPage}
    (h : Kept screens start retained) : Kept (screens ++ more) start retained := by
  obtain ⟨hstart, hread, screen, hscreen, hcols⟩ := h
  exact ⟨hstart, hread.append, screen, getElem?_append_of_some hscreen, hcols⟩

/-- Requests and revisions only grow. -/
theorem Cached.mono {s s' : State} (hscreens : s.screens <+: s'.screens)
    (hrequests : s.requests <+: s'.requests) {entry : Entry}
    (h : Cached s key entry) : Cached s' key entry := by
  obtain ⟨more, hmore⟩ := hscreens
  obtain ⟨asked, hasked⟩ := hrequests
  cases entry with
  | pending id =>
    rw [Cached, ← hasked]
    exact getElem?_append_of_some h
  | ready page =>
    intro p hp
    rw [← hmore]
    exact (h p hp).append

/-- A reply is what was read for its request. -/
theorem Inv.recv {s : State} (h : Inv s) (key : PageSource × ℕ) (id : ℕ) (page : Option RowPage)
    (hcached : Cached s key (.pending id)) (hr : s.tryRecv id = some page) :
    Cached s key (.ready page) := by
  rintro p rfl
  obtain ⟨key', hkey', hexact⟩ := h.replies id p hr
  rw [Cached, hkey'] at hcached
  exact Option.some.inj hcached ▸ hexact

theorem Inv.initial (screen : Screen) : Inv (.initial screen) :=
  ⟨Lru.All.nil, Lru.All.nil, fun _ _ h => by cases h⟩

/-- What grows the revisions, the queries or the replies keeps the invariant. -/
theorem Inv.grow {s s' : State} (h : Inv s) (hscreens : s.screens <+: s'.screens)
    (hrequests : s.requests <+: s'.requests) (hcache : s'.cache = s.cache)
    (hreplies : ∀ id page, s'.tryRecv id = some (some page) → s.tryRecv id = some (some page) ∨
      ∃ key, s'.requests[id]? = some key ∧ Exact s'.screens key page) : Inv s' := by
  refine ⟨?_, ?_, fun id page hr => ?_⟩
  · rw [hcache]
    exact h.pages.imp fun _ _ => Cached.mono hscreens hrequests
  · rw [hcache]
    obtain ⟨more, hmore⟩ := hscreens
    rw [← hmore]
    exact h.retained.imp fun _ _ => Kept.append
  · rcases hreplies id page hr with hold | hnew
    · obtain ⟨key, hkey, hexact⟩ := h.replies id page hold
      obtain ⟨more, hmore⟩ := hscreens
      obtain ⟨asked, hasked⟩ := hrequests
      rw [← hmore, ← hasked]
      exact ⟨key, getElem?_append_of_some hkey, hexact.append⟩
    · exact hnew

/-- The owner reads the rows of the revision that was asked for. -/
theorem State.answer_exact {s : State} {source : PageSource} {start blockCols : ℕ}
    {blockRows : List Line}
    (h : s.answer source start blockCols blockRows = some page) :
    Exact s.screens (source, start) page := by
  obtain ⟨screen, hscreen, h⟩ := Option.bind_eq_some_iff.mp h
  cases source with
  | screen revision =>
    dsimp only at h
    by_cases hv : revision = s.version
    · rw [if_pos hv] at h
      obtain rfl := Option.some.inj h
      refine ⟨rfl, rfl, fun version hversion => ?_⟩
      cases hversion
      exact ⟨rfl, screen, hv ▸ hscreen, rfl⟩
    · rw [if_neg hv] at h
      cases h
  | block id generation theme =>
    dsimp only at h
    by_cases ht : theme = screen.theme
    · rw [if_pos ht] at h
      obtain rfl := Option.some.inj h
      exact ⟨rfl, rfl, fun version hversion => by cases hversion⟩
    · rw [if_neg ht] at h
      cases h

theorem State.reply_eq {s s' : State} {request : ℕ} {page : Option RowPage}
    (h : s.reply request page = some s') :
    s' = { s with replies := s.replies ++ [(request, page)] } := by
  rw [State.reply] at h
  split at h
  · exact (Option.some.inj h).symm
  · cases h

/-- A reply is added for a query that had none. -/
theorem Inv.reply {s s' : State} (h : Inv s) {request : ℕ} {page : Option RowPage}
    (hs : s.reply request page = some s')
    (hpage : ∀ p, page = some p → ∃ key, s.requests[request]? = some key ∧ Exact s.screens key p) :
    Inv s' := by
  obtain rfl := State.reply_eq hs
  refine h.grow (prefix_refl _) (prefix_refl _) rfl fun id p hr => ?_
  have hlookup : (s.tryRecv id).or ([(request, page)].lookup id) = some (some p) := by
    rw [State.tryRecv, ← lookup_append]
    exact hr
  rcases Option.or_eq_some_iff.mp hlookup with hold | ⟨-, hnew⟩
  · exact .inl hold
  · right
    rw [lookup_cons] at hnew
    by_cases hid : id = request
    · subst hid
      rw [beq_self_eq_true] at hnew
      exact hpage p (Option.some.inj hnew)
    · rw [beq_eq_false_iff_ne.mpr hid] at hnew
      cases hnew

/-- A read keeps the invariant, with the queries that it sent. -/
theorem Inv.afterRead {s : State} (h : Inv s) (source : PageSource) (row : ℕ) (sent : Bool)
    (hcache : Lru.All (Cached (s.afterRead source row sent cache)) cache.pages ∧
      Lru.All (Kept s.screens) cache.retained) : Inv (s.afterRead source row sent cache) := by
  refine ⟨hcache.1, hcache.2, fun id page hr => ?_⟩
  obtain ⟨key, hkey, hexact⟩ := h.replies id page hr
  refine ⟨key, ?_, hexact⟩
  rw [State.afterRead]
  dsimp only
  split
  · exact getElem?_append_of_some hkey
  · exact hkey

/-- The query of a read has the next number. -/
theorem State.cached_request {s : State} {source : PageSource} {row : ℕ}
    {id : ℕ} (hid : s.request sent = some id)
    (hnone : s.cache.pages.get? (source, pageStart row) = none) :
    Cached (s.afterRead source row sent cache) (source, pageStart row) (.pending id) := by
  rw [request] at hid
  split at hid
  · next hsent =>
    obtain rfl := Option.some.inj hid
    rw [Cached, afterRead, asks, hnone, hsent]
    exact getElem?_concat_length
  · cases hid

theorem State.cached_afterRead {s : State} {source : PageSource} {row : ℕ}
    {entry : Entry} (h : Cached s key entry) :
    Cached (s.afterRead source row sent cache) key entry := by
  have hscreens : s.screens <+: (s.afterRead source row sent cache).screens := prefix_refl _
  refine h.mono hscreens ?_
  rw [afterRead]
  dsimp only
  split
  · exact prefix_append _ _
  · exact prefix_refl _

theorem Inv.recv_afterRead {s : State} (h : Inv s) {source : PageSource} {row : ℕ}
    (key : PageSource × ℕ) (id : ℕ) (page : Option RowPage)
    (hcached : Cached (s.afterRead source row sent cache) key (.pending id))
    (hr : s.tryRecv id = some page) :
    Cached (s.afterRead source row sent cache) key (.ready page) := by
  rintro p rfl
  obtain ⟨key', hkey', hexact⟩ := h.replies id p hr
  have hkey : Cached (s.afterRead source row sent cache) key' (.pending id) :=
    State.cached_afterRead hkey'
  rw [Cached] at hcached hkey
  rw [hkey] at hcached
  exact Option.some.inj hcached ▸ hexact

theorem Inv.read {s : State} (h : Inv s) (source : PageSource) (row : ℕ) (sent : Bool) :
    Inv (s.afterRead source row sent
      (s.cache.read s.tryRecv (s.request sent) source row).2) := by
  refine h.afterRead source row sent ?_
  refine ⟨PageCache.read_pages (h.pages.imp fun _ _ => State.cached_afterRead) h.recv_afterRead
    fun _ => State.cached_request, ?_⟩
  rw [PageCache.read_retained]
  exact h.retained

theorem Inv.displayed {s : State} (h : Inv s) {version : ℕ} {screen : Screen}
    (hscreen : s.screens[version]? = some screen) (row : ℕ) (sent : Bool) :
    Inv (s.afterRead (.screen version) row sent (s.displayed version screen row sent).2) := by
  refine h.afterRead _ row sent ?_
  refine PageCache.readScreenForDisplay_kept (s.screenState version screen)
    (h.pages.imp fun _ _ => State.cached_afterRead) h.retained h.recv_afterRead
    (fun _ => State.cached_request) fun page hpage => ?_
  obtain ⟨-, hstart, hread⟩ := hpage page rfl
  exact ⟨hstart, hread version rfl, screen, hscreen, rfl⟩

theorem Inv.perform {s s' : State} {label : Label} (h : Inv s) (hs : s.perform label = some s') :
    Inv s' := by
  cases label with
  | revise changes =>
    obtain ⟨screen, -, hs⟩ := Option.bind_eq_some_iff.mp hs
    obtain rfl := Option.some.inj hs
    exact h.grow (prefix_append _ _) (prefix_refl _) rfl fun _ _ => .inl
  | publish | flushStagedBlocks =>
    obtain rfl := Option.some.inj hs
    exact h.grow (prefix_refl _) (prefix_refl _) rfl fun _ _ => .inl
  | answer request fails blockCols blockRows =>
    obtain ⟨⟨source, start⟩, hrequest, hs⟩ := Option.bind_eq_some_iff.mp hs
    refine h.reply hs fun p hp => ⟨(source, start), hrequest, ?_⟩
    cases fails with
    | true => cases hp
    | false => exact State.answer_exact hp
  | cancel request => exact h.reply hs fun p hp => by cases hp
  | display version row sent =>
    obtain ⟨⟨page, next⟩, hd, rfl⟩ := Option.map_eq_some_iff.mp hs
    obtain ⟨screen, hscreen, hd⟩ := Option.bind_eq_some_iff.mp hd
    split at hd
    · obtain ⟨-, rfl⟩ := Prod.mk.inj (Option.some.inj hd)
      exact h.displayed hscreen row sent
    · cases hd
  | read source row sent =>
    obtain rfl := Option.some.inj hs
    exact h.read source row sent

theorem inv_of_run {labels : List Label} {s : State} (h : Run terminals labels s) : Inv s := by
  refine h.invariant ?_ fun _ _ _ => Inv.perform
  rintro s ⟨screen, rfl⟩
  exact .initial screen

theorem published_of_run {labels : List Label} {s : State} (h : Run terminals labels s) :
    s.screens ≠ [] ∧ ∀ version ∈ s.published, version < s.screens.length := by
  refine h.invariant
    (I := fun s => s.screens ≠ [] ∧ ∀ version ∈ s.published, version < s.screens.length) ?_ ?_
  · rintro s ⟨screen, rfl⟩
    exact ⟨cons_ne_nil _ _, forall_mem_singleton.mpr Nat.zero_lt_one⟩
  · rintro s label s' ⟨hne, hpublished⟩ hs
    cases label with
    | revise changes =>
      obtain ⟨screen, -, hs⟩ := Option.bind_eq_some_iff.mp hs
      obtain rfl := Option.some.inj hs
      refine ⟨by simp, fun version hv => ?_⟩
      rw [length_append]
      exact Nat.lt_add_right _ (hpublished version hv)
    | publish =>
      obtain rfl := Option.some.inj hs
      refine ⟨hne, forall_mem_append.mpr ⟨hpublished, forall_mem_singleton.mpr ?_⟩⟩
      exact Nat.sub_lt (length_pos_of_ne_nil hne) Nat.zero_lt_one
    | flushStagedBlocks | read source row sent =>
      obtain rfl := Option.some.inj hs
      exact ⟨hne, hpublished⟩
    | answer request fails blockCols blockRows =>
      obtain ⟨_, -, hs⟩ := Option.bind_eq_some_iff.mp hs
      obtain rfl := State.reply_eq hs
      exact ⟨hne, hpublished⟩
    | cancel request =>
      obtain rfl := State.reply_eq hs
      exact ⟨hne, hpublished⟩
    | display version row sent =>
      obtain ⟨_, hd, rfl⟩ := Option.map_eq_some_iff.mp hs
      obtain ⟨screen, -, hd⟩ := Option.bind_eq_some_iff.mp hd
      split at hd
      · obtain rfl := Option.some.inj hd
        exact ⟨hne, hpublished⟩
      · cases hd

/-! ## Shown pages -/

theorem mem_rowsFrom {screen : Screen} {start i : ℕ} {line : Line}
    (h : (screen.rowsFrom start)[i]? = some line) : line = screen.line (start + i) := by
  rw [Screen.rowsFrom, getElem?_map, Option.map_eq_some_iff] at h
  obtain ⟨row, hrow, rfl⟩ := h
  have hlt := (List.getElem?_eq_some_iff.mp hrow).1
  rw [length_range'] at hlt
  rw [getElem?_range' hlt, Option.some.injEq, Nat.one_mul] at hrow
  rw [hrow]

/-- A page of one screen shows the lines of another of the same width exactly when the line at the
top is the same, or no row of it is history there. -/
theorem addresses_iff {old new : Screen} (hrows : page.rows = old.rowsFrom page.start)
    (hcols : old.cols = new.cols) :
    Addresses new page ↔ ¬ (old.top ≠ new.top ∧ page.rows ≠ [] ∧ page.start < new.history) := by
  constructor
  · rintro haddresses ⟨htop, hne, hstart⟩
    obtain ⟨line, rest, hcons⟩ := exists_cons_of_ne_nil hne
    have hget : page.rows[0]? = some line := by rw [hcons]; rfl
    have hnew := haddresses 0 line hget hstart
    rw [hrows] at hget
    rw [mem_rowsFrom hget] at hnew
    have hnumber := congrArg Prod.snd hnew
    simp only [Screen.line] at hnumber
    omega
  · intro hsame i line hget hhistory
    rw [hrows] at hget
    rw [mem_rowsFrom hget, Screen.line, Screen.line, hcols]
    have hne : page.rows ≠ [] := by
      rw [hrows]
      rintro hnil
      rw [hnil] at hget
      cases hget
    have htop : old.top = new.top := by
      by_contra htop
      exact hsame ⟨htop, hne, by omega⟩
    rw [htop]

section

variable {s : State} {version row : ℕ} {screen : Screen} {retained : RetainedPage}

/-- A retained page that passes the test is right, unless the line at the top is another one. -/
theorem right_retained (hkept : Kept s.screens (pageStart row) retained)
    (hget : s.cache.retained.get? (pageStart row) = some retained)
    (hscreen : s.screens[version]? = some screen) (hfresh : s.freshPage version row = none)
    (htest : retained.stillDescribes (s.screenState version screen) = true) :
    Right s version row retained.page ↔ ¬ Moved s version row := by
  obtain ⟨hstart, ⟨hsource, old, hold, hrows⟩, old', hold', hcols⟩ := hkept
  obtain rfl : old = old' := Option.some.inj (hold.symm.trans hold')
  have hwidth : old.cols = screen.cols := by
    simp only [RetainedPage.stillDescribes, Bool.and_eq_true, decide_eq_true_eq] at htest
    exact hcols.symm.trans htest.1.1.1
  have haddresses := addresses_iff hrows hwidth
  constructor
  · rintro ⟨-, hright⟩ ⟨-, retained', old', new, hget', hold', hnew, -, htop, hne, hhistory⟩
    obtain rfl := Option.some.inj (hget.symm.trans hget')
    obtain rfl := Option.some.inj (hold.symm.trans hold')
    obtain rfl := Option.some.inj (hscreen.symm.trans hnew)
    rcases hright with ⟨hsource', -⟩ | ⟨new, hnew', hnewAddresses⟩
    · rw [hsource] at hsource'
      cases hsource'
      obtain rfl := Option.some.inj (hold.symm.trans hscreen)
      exact htop rfl
    · obtain rfl := Option.some.inj (hscreen.symm.trans hnew')
      exact haddresses.mp hnewAddresses ⟨htop, hne, hstart ▸ hhistory⟩
  · intro hmoved
    refine ⟨hstart, .inr ⟨screen, hscreen, haddresses.mpr ?_⟩⟩
    rintro ⟨htop, hne, hhistory⟩
    exact hmoved ⟨hfresh, retained, old, screen, hget, hold, hscreen, htest, htop, hne,
      hstart ▸ hhistory⟩

end

/-- **A shown page.**  A display read returns a page of the snapshot's revision or one that still
shows the same lines of history, and never one of another start row, exactly when no retained page
passes the test although the line at the top of the scrollback is another one. -/
theorem display_right_iff {labels : List Label} {s : State} (h : Run terminals labels s)
    {version : ℕ} (hv : version ∈ s.published) (row : ℕ) (sent : Bool) :
    ∃ shown s', s.display version row sent = some (shown, s') ∧
      ((∀ page, shown = some page → Right s version row page) ↔ ¬ Moved s version row) := by
  have hinv := inv_of_run h
  obtain ⟨screen, hscreen⟩ : ∃ screen, s.screens[version]? = some screen :=
    ⟨_, getElem?_eq_getElem ((published_of_run h).2 version hv)⟩
  have hdisplay : s.display version row sent = some ((s.displayed version screen row sent).1,
      s.afterRead (.screen version) row sent (s.displayed version screen row sent).2) := by
    rw [State.display, hscreen]
    exact if_pos hv
  refine ⟨_, _, hdisplay, ?_⟩
  have hfresh : (s.cache.read s.tryRecv (s.request sent) (.screen version) row).1 =
      s.freshPage version row := PageCache.read_fst
  have hretained : (s.cache.read s.tryRecv (s.request sent) (.screen version) row).2.retained =
      s.cache.retained := PageCache.read_retained
  rcases PageCache.readScreenForDisplay_cases (s.screenState version screen) with
    ⟨page, hread, hshown⟩ | ⟨hread, hshown⟩
  · -- the reply at the snapshot's revision is there
    obtain ⟨-, hstart, hreadAt⟩ := PageCache.read_some hinv.pages hinv.recv hread page rfl
    refine iff_of_true (fun p hp ↦ ?_) ?_
    · obtain rfl : page = p := Option.some.inj (hshown.symm.trans hp)
      exact ⟨hstart, .inl (hreadAt version rfl)⟩
    · rintro ⟨hnone, -⟩
      cases hread.symm.trans (hfresh.trans hnone)
  · have hshown : (s.displayed version screen row sent).1 =
        (s.cache.retained.get? (pageStart row)).bind fun retained ↦
          if retained.stillDescribes (s.screenState version screen) then some retained.page
          else none := by
      rw [State.displayed, hshown]
      exact congrArg (fun retained ↦ (Lru.get? retained (pageStart row)).bind _) hretained
    rw [hshown]
    cases hget : s.cache.retained.get? (pageStart row) with
    | none =>
      refine iff_of_true (fun p hp ↦ by cases hp) ?_
      rintro ⟨-, retained, _, _, hsome, -⟩
      cases hget.symm.trans hsome
    | some retained =>
      rw [Option.bind_some]
      cases htest : retained.stillDescribes (s.screenState version screen) with
      | false =>
        refine iff_of_true (fun p hp ↦ by cases hp) ?_
        rintro ⟨-, retained', _, new, hsome, -, hnew, htrue, -⟩
        obtain rfl := Option.some.inj (hget.symm.trans hsome)
        obtain rfl := Option.some.inj (hscreen.symm.trans hnew)
        cases htest.symm.trans htrue
      | true =>
        rw [← right_retained (hinv.retained.get? hget) hget hscreen (hfresh.symm.trans hread) htest]
        exact ⟨fun hall ↦ hall _ rfl, fun hright p hp ↦ Option.some.inj hp ▸ hright⟩

/-- Five rows of 80 columns, the first page of which is read and shown, and then a change. -/
def shownThen (change : Change) : Option State :=
  [.display 0 0 true, .answer 0 false 0 [], .display 0 0 true, .revise [change],
    .publish].foldlM State.perform
    (.initial { cols := 80, height := 2, theme := 0, top := 0, history := 3 })

theorem run_shownThen {change : Change} {s : State} (h : shownThen change = some s) :
    ∃ labels, Run terminals labels s :=
  ⟨_, Run.foldlM (fun _ _ _ hs => hs) (.init ⟨_, rfl⟩) h⟩

/-- While the scrollback only grows, the page stays right until the next one is there. -/
theorem display_right_scrolled : ∃ s page s', shownThen (.output 1 0) = some s ∧
    s.display 1 0 true = some (some page, s') ∧ Right s 1 0 page := by
  obtain ⟨s, hs, hv, hd, hretained, hold, hnew⟩ : ∃ s, shownThen (.output 1 0) = some s ∧
      1 ∈ s.published ∧ (s.display 1 0 true).map (Option.isSome ∘ Prod.fst) = some true ∧
      (s.cache.retained.get? 0).map (·.state.revision) = some 0 ∧
      s.screens[0]?.map (·.top) = some 0 ∧ s.screens[1]?.map (·.top) = some 0 :=
    ⟨_, rfl, by decide, rfl, rfl, rfl, rfl⟩
  obtain ⟨labels, hrun⟩ := run_shownThen hs
  obtain ⟨shown, s', hdisplay, hiff⟩ := display_right_iff hrun hv 0 true
  have hnot : ¬ Moved s 1 0 := by
    rintro ⟨-, retained, old, new, hget, hold', hnew', -, htop, -⟩
    rw [show pageStart 0 = 0 from rfl] at hget
    rw [hget, Option.map_some, Option.some.injEq] at hretained
    rw [hretained] at hold'
    rw [hold', Option.map_some, Option.some.injEq] at hold
    rw [hnew', Option.map_some, Option.some.injEq] at hnew
    exact htop (hold.trans hnew.symm)
  rw [hdisplay, Option.map_some, Option.some.injEq] at hd
  obtain ⟨page, rfl⟩ := Option.isSome_iff_exists.mp hd
  exact ⟨s, page, s', hs, hdisplay, hiff.mpr hnot page rfl⟩

theorem not_right_of_shownThen {change : Change} {s : State} (hs : shownThen change = some s)
    (hv : 1 ∈ s.published) {page : RowPage}
    (hd : (s.display 1 0 true).map Prod.fst = some (some page))
    (hsource : page.source = .screen 0) (hrow : page.start = 0 ∧ page.rows[0]? = some (80, 0))
    (hnew : ∃ screen, s.screens[1]? = some screen ∧ screen.line 0 ≠ (80, 0) ∧ 0 < screen.history) :
    ∃ labels page s', Run terminals labels s ∧ 1 ∈ s.published ∧
      s.display 1 0 true = some (some page, s') ∧ ¬ Right s 1 0 page := by
  obtain ⟨labels, hrun⟩ := run_shownThen hs
  obtain ⟨⟨_, s'⟩, hd, rfl⟩ := Option.map_eq_some_iff.mp hd
  refine ⟨labels, page, s', hrun, hv, hd, ?_⟩
  rintro ⟨-, ⟨hsource', -⟩ | ⟨screen, hscreen, haddresses⟩⟩
  · cases hsource.symm.trans hsource'
  · obtain ⟨screen', hscreen', hline, hhistory⟩ := hnew
    obtain rfl := Option.some.inj (hscreen.symm.trans hscreen')
    have := haddresses 0 _ hrow.2 (by rw [hrow.1]; exact hhistory)
    rw [hrow.1] at this
    exact hline this

/-- The page is wrong when a full scrollback drops its first line, and when the history is cleared
and refilled: by a program, or while the store has not heard of it yet. -/
theorem moved_shown :
    (∃ s, shownThen (.output 1 1) = some s ∧ ∃ labels page s', Run terminals labels s ∧
      1 ∈ s.published ∧ s.display 1 0 true = some (some page, s') ∧ ¬ Right s 1 0 page) ∧
    (∃ s, shownThen (.clear false 3) = some s ∧ ∃ labels page s', Run terminals labels s ∧
      1 ∈ s.published ∧ s.display 1 0 true = some (some page, s') ∧ ¬ Right s 1 0 page) ∧
    ∃ s, shownThen (.clear true 3) = some s ∧ ∃ labels page s', Run terminals labels s ∧
      1 ∈ s.published ∧ s.display 1 0 true = some (some page, s') ∧ ¬ Right s 1 0 page :=
  ⟨⟨_, rfl, not_right_of_shownThen rfl (by decide) rfl rfl ⟨rfl, rfl⟩
      ⟨_, rfl, by decide, by decide⟩⟩,
    ⟨_, rfl, not_right_of_shownThen rfl (by decide) rfl rfl ⟨rfl, rfl⟩
      ⟨_, rfl, by decide, by decide⟩⟩,
    ⟨_, rfl, not_right_of_shownThen rfl (by decide) rfl rfl ⟨rfl, rfl⟩
      ⟨_, rfl, by decide, by decide⟩⟩⟩

end Pages
end NiumaTerm.Terminal
