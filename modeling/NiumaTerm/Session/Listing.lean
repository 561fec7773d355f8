import NiumaTerm.Codex.Control
import NiumaTerm.Lib.Str
import NiumaTerm.Lib.Transition

/-!
# Listing the conversations of a host

The rows are read from files in the background (`FileHost`) or come page by page from the app server
(`PagedHost`).  The reads of files have no ids: `listing_shows_last` is what holds as long as no read ends
after its scope has been left.
-/

namespace NiumaTerm.Listing

open Rust Transition Codex List

inductive SessionScope
  | currentDirectory
  | allDirectories
deriving DecidableEq

variable {Row : Type}

/-! ## The controller -/

/-- What the session controller keeps of a listing. -/
structure SessionController (Row : Type) where
  listedHistory : List Row
  historyLoading : Bool

inductive Event (Row : Type)
  | history (sessions : List Row)
  | error

namespace SessionController

def new : SessionController Row where
  listedHistory := []
  historyLoading := false

def clearListedHistory (c : SessionController Row) : SessionController Row :=
  { c with listedHistory := [], historyLoading := true }

def listHistory (c : SessionController Row) (sessions : List Row) : SessionController Row :=
  { c with listedHistory := sessions, historyLoading := false }

def applyEvent (c : SessionController Row) : Event Row → SessionController Row
  | .history sessions => { c with historyLoading := false, listedHistory := c.listedHistory ++ sessions }
  | .error => { c with historyLoading := false }

end SessionController

/-! ## Reading files -/

/-- A host that reads its conversations from files, with the reads that have not ended. -/
structure FileHost (Row : Type) where
  controller : SessionController Row
  reads : List SessionScope
  /-- The scope that was asked for last. -/
  asked : Option SessionScope
  /-- What the reads that have ended had to say. -/
  answers : List (SessionScope × List Row)

namespace FileHost

/-- The reads are called by their place in the list. -/
inductive Call (Row : Type)
  | list (scope : SessionScope)
  | finish (read : ℕ) (rows : List Row)

def new : FileHost Row where
  controller := .new
  reads := []
  asked := none
  answers := []

/-- The file branch of `take_history_step`. -/
def list (h : FileHost Row) (scope : SessionScope) : FileHost Row :=
  { h with
    controller := h.controller.clearListedHistory
    reads := h.reads ++ [scope]
    asked := some scope }

/-- A read has ended. -/
def finish (h : FileHost Row) (read : ℕ) (rows : List Row) : FileHost Row :=
  match h.reads[read]? with
  | none => h
  | some scope =>
    { h with
      controller := h.controller.listHistory rows
      reads := h.reads.eraseIdx read
      answers := h.answers ++ [(scope, rows)] }

def perform (h : FileHost Row) : Call Row → FileHost Row
  | .list scope => h.list scope
  | .finish read rows => h.finish read rows

/-- The list shows nothing, or what a read of the last scope has answered; when no read is left, the latter. -/
structure Shows (h : FileHost Row) : Prop where
  only : h.controller.listedHistory = [] ∨
    ∃ scope, h.asked = some scope ∧ (scope, h.controller.listedHistory) ∈ h.answers
  settled : h.reads = [] → ∀ scope, h.asked = some scope → (scope, h.controller.listedHistory) ∈ h.answers

/-- A read does not end after another scope has been asked for. -/
def Keeps (h : FileHost Row) : Call Row → Prop
  | .list _ => True
  | .finish read _ => ∀ scope, h.reads[read]? = some scope → h.asked = some scope

end FileHost

def fileHosts (Row : Type) : System (FileHost Row) (FileHost.Call Row) where
  init h := h = .new
  step h call h' := h' = h.perform call

def keepingFiles (Row : Type) : System (FileHost Row) (FileHost.Call Row) :=
  (fileHosts Row).restrict FileHost.Keeps

/-! ## Paging -/

structure PageRequest where
  id : ℕ
  scope : SessionScope
  cursor : Option Str

inductive Reply (Row : Type)
  | error
  | result (rows : List Row) (nextCursor : Option Str)

/-- What `CodexSession` keeps of its listings. -/
structure CodexSession where
  control : ControlState
  historyScope : SessionScope
  historyCursor : Option Str

namespace CodexSession

def new : CodexSession where
  control := .new
  historyScope := .currentDirectory
  historyCursor := none

def sendHistoryQuery (s : CodexSession) (cursor : Option Str) : CodexSession × PageRequest :=
  let (id, control) := s.control.allocId
  ({ s with control := ControlState.trackQuery control id .history }, { id, scope := s.historyScope, cursor })

def requestHistory (s : CodexSession) (scope : SessionScope) : CodexSession × PageRequest :=
  sendHistoryQuery { s with historyScope := scope, historyCursor := none } none

def requestMoreHistory (s : CodexSession) : Option (CodexSession × PageRequest) :=
  s.historyCursor.map fun cursor => sendHistoryQuery { s with historyCursor := none } (some cursor)

/-- Of `on_response`, the replies to a listing and to the start of the session, which lists once more. -/
def onResponse (s : CodexSession) (id : ℕ) (reply : Reply Row) : CodexSession × List PageRequest × List (Event Row) :=
  let (operation, control) := s.control.finish id
  let s := { s with control }
  match operation, reply with
  | some (.query .history), .error => (s, [], [.error])
  | some (.query .history), .result rows nextCursor => ({ s with historyCursor := nextCursor }, [], [.history rows])
  | some (.query .start), .result _ _ =>
    let (s, request) := s.requestHistory s.historyScope
    (s, [request], [])
  | _, _ => (s, [], [])

end CodexSession

/-- A host whose app server pages its conversations, with the requests that it has not answered. -/
structure PagedHost (Row : Type) where
  controller : SessionController Row
  codex : CodexSession
  requests : List PageRequest
  /-- The scope that was asked for last. -/
  asked : SessionScope
  /-- The id of the first request of the last listing. -/
  listing : ℕ
  /-- The pages that the app server has answered. -/
  answers : List (PageRequest × List Row)

namespace PagedHost

inductive Call (Row : Type)
  | list (scope : SessionScope)
  | more
  | reply (id : ℕ) (reply : Reply Row)
  /-- Any other request of the session. -/
  | send (operation : ControlOperation)
  | resetThread

def new : PagedHost Row where
  controller := .new
  codex := .new
  requests := []
  asked := .currentDirectory
  listing := 0
  answers := []

/-- The paging branch of `take_history_step`. -/
def list (h : PagedHost Row) (scope : SessionScope) : PagedHost Row :=
  let (codex, request) := h.codex.requestHistory scope
  { h with
    controller := h.controller.clearListedHistory
    codex
    requests := h.requests ++ [request]
    asked := scope
    listing := request.id }

def more (h : PagedHost Row) : PagedHost Row :=
  match h.codex.requestMoreHistory with
  | none => h
  | some (codex, request) => { h with codex, requests := h.requests ++ [request] }

def answered (h : PagedHost Row) (id : ℕ) : Reply Row → List (PageRequest × List Row)
  | .error => []
  | .result rows _ => (h.requests.filter (·.id = id)).map (·, rows)

def reply (h : PagedHost Row) (id : ℕ) (reply : Reply Row) : PagedHost Row :=
  let (codex, requests, events) := h.codex.onResponse id reply
  { h with
    controller := events.foldl SessionController.applyEvent h.controller
    codex
    requests := h.requests.filter (·.id ≠ id) ++ requests
    listing := (requests.map (·.id)).getLast?.getD h.listing
    answers := h.answers ++ h.answered id reply }

def send (h : PagedHost Row) (operation : ControlOperation) : PagedHost Row :=
  let (id, control) := h.codex.control.allocId
  { h with codex := { h.codex with control :=
      match operation with
      | .query kind => ControlState.trackQuery control id kind
      | operation => control.track id operation } }

def perform (h : PagedHost Row) : Call Row → PagedHost Row
  | .list scope => h.list scope
  | .more => h.more
  | .reply id reply => h.reply id reply
  | .send operation => h.send operation
  | .resetThread => { h with codex := { h.codex with control := h.codex.control.resetThread } }

def pages (h : PagedHost Row) : List (PageRequest × List Row) := h.answers.filter (h.listing ≤ ·.1.id)

/-- The list shows the pages of the last listing, which are of the scope asked for last, and no row twice. -/
structure Shows (key : Row → Str) (h : PagedHost Row) : Prop where
  rows : h.controller.listedHistory = h.pages.flatMap Prod.snd
  scope : ∀ page ∈ h.pages, page.1.scope = h.asked
  nodup : (h.controller.listedHistory.map key).Nodup

/-- The other requests of the session are not listings. -/
def Enabled : Call Row → Prop
  | .send operation => operation ≠ .query .history
  | _ => True

/-- A page repeats no row of the list, and the session's start is not answered when rows are listed. -/
def Keeps (key : Row → Str) (h : PagedHost Row) : Call Row → Prop
  | .reply id (.result rows _) =>
    ((h.codex.control.finish id).1 = some (.query .history) →
      ((h.controller.listedHistory ++ rows).map key).Nodup) ∧
    ((h.codex.control.finish id).1 = some (.query .start) → h.controller.listedHistory = [])
  | _ => True

end PagedHost

def pagedHosts (Row : Type) : System (PagedHost Row) (PagedHost.Call Row) where
  init h := h = .new
  step h call h' := PagedHost.Enabled call ∧ h' = h.perform call

def keepingPages (key : Row → Str) : System (PagedHost Row) (PagedHost.Call Row) :=
  (pagedHosts Row).restrict (PagedHost.Keeps key)

/-! ## Files -/

/-- The last scope has been answered, or a read of it has not ended. -/
structure FileHost.Sound (h : FileHost Row) : Prop where
  only : h.controller.listedHistory = [] ∨
    ∃ scope, h.asked = some scope ∧ (scope, h.controller.listedHistory) ∈ h.answers
  reading : ∀ scope, h.asked = some scope → (scope, h.controller.listedHistory) ∈ h.answers ∨ scope ∈ h.reads

theorem FileHost.Sound.perform {h : FileHost Row} (hs : h.Sound) {call : FileHost.Call Row} (hk : h.Keeps call) :
    (h.perform call).Sound := by
  cases call with
  | list scope =>
    refine ⟨.inl rfl, fun asked ha => .inr ?_⟩
    cases ha
    exact mem_append_right _ (.head _)
  | finish read rows =>
    rw [FileHost.perform, FileHost.finish]
    split
    · exact hs
    · rename_i scope hread
      have hasked := hk scope hread
      have hanswer : (scope, rows) ∈ h.answers ++ [(scope, rows)] := mem_append_right _ (.head _)
      refine ⟨.inr ⟨scope, hasked, hanswer⟩, fun asked ha => .inl ?_⟩
      cases hasked.symm.trans ha
      exact hanswer

theorem fileHost_sound {calls : List (FileHost.Call Row)} {h : FileHost Row} (hr : Run (keepingFiles Row) calls h) :
    h.Sound := by
  refine hr.invariant (fun h hh => ?_) fun h call h' hs hstep => ?_
  · subst hh
    exact ⟨.inl rfl, fun scope ha => by cases ha⟩
  · obtain ⟨hk, rfl⟩ := hstep
    exact hs.perform hk

theorem FileHost.Sound.shows {h : FileHost Row} (hs : h.Sound) : h.Shows := by
  refine ⟨hs.only, fun hnone scope ha => (hs.reading scope ha).resolve_right ?_⟩
  rw [hnone]
  exact not_mem_nil

/-! ## The query that is waited for -/

def Waits (c : ControlState) (id : ℕ) : Prop := (id, .query .history) ∈ c.operations

structure InUse (c : ControlState) : Prop where
  sound : c.Sound
  isOpen : c.closed = false

section

variable {c : ControlState} {id i : ℕ}

theorem waits_finish : Waits (c.finish id).2 i ↔ Waits c i ∧ i ≠ id := PendingRequests.mem_operations_finish

theorem InUse.waits_iff (h : InUse c) : Waits c id ↔ (c.finish id).1 = some (.query .history) :=
  ⟨h.sound.finish_eq_some, PendingRequests.mem_of_finish⟩

theorem InUse.waits_lt (h : InUse c) (hw : Waits c id) : id < c.nextId := h.sound.lt _ hw

theorem InUse.finish (h : InUse c) : InUse (c.finish id).2 := ⟨h.sound.finish, h.isOpen⟩

theorem InUse.alloc (h : InUse c) : InUse c.allocId.2 :=
  ⟨h.sound.of_sublist (List.Sublist.refl _) (Nat.le_succ _), h.isOpen⟩

theorem InUse.track (h : InUse c) (hid : id < c.nextId) (operation : ControlOperation) : InUse (c.track id operation) := by
  refine ⟨h.sound.track hid, ?_⟩
  rw [PendingRequests.track]
  split
  · exact h.isOpen
  · exact h.isOpen

theorem InUse.dropReplaced (h : InUse c) (kind : QueryKind) : InUse (ControlState.dropReplaced c kind) :=
  ⟨h.sound.of_sublist filter_sublist (Nat.le_refl _), h.isOpen⟩

theorem InUse.trackQuery (h : InUse c) (hid : id < c.nextId) (kind : QueryKind) :
    InUse (ControlState.trackQuery c id kind) := (h.dropReplaced kind).track hid _

theorem InUse.resetThread (h : InUse c) : InUse (ControlState.resetThread c) :=
  ⟨h.sound.of_sublist filter_sublist (Nat.le_refl _), h.isOpen⟩

@[simp] theorem nextId_track (operation : ControlOperation) : (c.track id operation).nextId = c.nextId := by
  rw [PendingRequests.track]
  split
  · rfl
  · rfl

@[simp] theorem nextId_trackQuery (kind : QueryKind) : (ControlState.trackQuery c id kind).nextId = c.nextId :=
  nextId_track _

theorem waits_resetThread : Waits (ControlState.resetThread c) i ↔ Waits c i := by
  rw [Waits, ControlState.resetThread, mem_filter]
  exact and_iff_left rfl

/-- What is sent besides listings leaves them alone. -/
theorem InUse.waits_track (h : InUse c) (hid : ¬ Waits c id) {operation : ControlOperation}
    (ho : operation ≠ .query .history) : Waits (c.track id operation) i ↔ Waits c i := by
  rw [Waits, PendingRequests.mem_operations_track h.isOpen]
  constructor
  · rintro (⟨hw, -⟩ | he)
    · exact hw
    · cases he
      exact absurd rfl ho
  · intro hw
    refine .inl ⟨hw, ?_⟩
    rintro rfl
    exact hid hw

theorem waits_dropReplaced {kind : QueryKind} (ho : kind ≠ .history) :
    Waits (ControlState.dropReplaced c kind) i ↔ Waits c i := by
  have hkept : kind.replaces .history = false := by
    simp [QueryKind.replaces, QueryKind.startsThread, ho]
  rw [Waits, ControlState.dropReplaced, mem_filter]
  simp [Waits, hkept]

/-- The newest listing is the only one that is waited for. -/
theorem InUse.waits_trackHistory (h : InUse c) : Waits (ControlState.trackQuery c id .history) i ↔ i = id := by
  rw [Waits, ControlState.trackQuery, PendingRequests.mem_operations_track (h.dropReplaced _).isOpen]
  constructor
  · rintro (⟨hw, -⟩ | he)
    · have hkept := (mem_filter.mp hw).2
      simp [QueryKind.replaces] at hkept
    · cases he
      rfl
  · rintro rfl
    exact .inr rfl

end

/-! ## Pages -/

structure PagedHost.Sound (key : Row → Str) (h : PagedHost Row) : Prop extends PagedHost.Shows key h where
  inUse : InUse h.codex.control
  historyScope : h.codex.historyScope = h.asked
  ids : (h.requests.map PageRequest.id).Nodup
  requests_lt : ∀ request ∈ h.requests, request.id < h.codex.control.nextId
  answers_lt : ∀ page ∈ h.answers, page.1.id < h.codex.control.nextId
  listing_lt : h.listing < h.codex.control.nextId
  /-- What the last listing has requested is waited for. -/
  waiting : ∀ request ∈ h.requests, h.listing ≤ request.id →
    Waits h.codex.control request.id ∧ request.scope = h.asked
  waits : ∀ id, Waits h.codex.control id → h.listing ≤ id ∧ ∃ request ∈ h.requests, request.id = id
  /-- One page is requested at a time. -/
  one : ∀ i j, Waits h.codex.control i → Waits h.codex.control j → i = j
  cursor : h.codex.historyCursor.isSome = true → ∀ id, ¬ Waits h.codex.control id

namespace PagedHost

variable {key : Row → Str} {h : PagedHost Row}

theorem Sound.new (key : Row → Str) : (PagedHost.new : PagedHost Row).Sound key where
  rows := rfl
  scope _ hm := by cases hm
  nodup := nodup_nil
  inUse := ⟨PendingRequests.sound_new _, rfl⟩
  historyScope := rfl
  ids := nodup_nil
  requests_lt _ hm := by cases hm
  answers_lt _ hm := by cases hm
  listing_lt := show 0 < firstTurnRpcId by decide
  waiting _ hm := by cases hm
  waits _ hw := by cases hw
  one _ _ hw := by cases hw
  cursor hc := by cases hc

/-- A new listing: nothing is shown, and only its own page is waited for. -/
theorem Sound.listing {h' : PagedHost Row} {control : ControlState} (hc : InUse control)
    (hlt : ∀ request ∈ h'.requests, request = ⟨control.nextId, h'.asked, none⟩ ∨ request.id < control.nextId)
    (hids : (h'.requests.map PageRequest.id).Nodup) (hmem : ⟨control.nextId, h'.asked, none⟩ ∈ h'.requests)
    (hanswers : ∀ page ∈ h'.answers, page.1.id < control.nextId) (hnone : h'.controller.listedHistory = [])
    (hlisting : h'.listing = control.nextId)
    (hcodex : h'.codex = ⟨ControlState.trackQuery control.allocId.2 control.nextId .history, h'.asked, none⟩) :
    h'.Sound key := by
  have hwaits {id : ℕ} : Waits h'.codex.control id ↔ id = h'.listing := by
    rw [hcodex, hlisting]
    exact hc.alloc.waits_trackHistory
  have hnext : h'.codex.control.nextId = h'.listing + 1 := by
    rw [hcodex, hlisting]
    exact nextId_trackQuery _
  have hpages : h'.pages = [] := by
    rw [PagedHost.pages, filter_eq_nil_iff]
    intro page hp
    have := hanswers page hp
    simp only [decide_eq_true_eq]
    omega
  refine ⟨⟨?_, ?_, ?_⟩, ?_, ?_, hids, fun request hr => ?_, fun page hp => ?_, by omega, fun request hr hle => ?_,
    fun id hw => ?_, fun i j hi hj => (hwaits.mp hi).trans (hwaits.mp hj).symm, fun hs => ?_⟩
  · rw [hnone, hpages]
    rfl
  · rw [hpages]
    exact fun _ hm => by cases hm
  · rw [hnone]
    exact nodup_nil
  · rw [hcodex]
    exact hc.alloc.trackQuery (Nat.lt_succ_self _) _
  · rw [hcodex]
  · obtain rfl | hr := hlt request hr
    · rw [hnext, hlisting]
      exact Nat.lt_succ_self _
    · omega
  · have := hanswers page hp
    omega
  · obtain rfl | hr := hlt request hr
    · exact ⟨hwaits.mpr hlisting.symm, rfl⟩
    · omega
  · rw [hwaits.mp hw]
    exact ⟨le_rfl, _, hmem, hlisting.symm⟩
  · rw [hcodex] at hs
    cases hs

theorem Sound.list (hs : h.Sound key) (scope : SessionScope) : (h.list scope).Sound key := by
  have hnew : (h.requests.map PageRequest.id ++ [h.codex.control.nextId]).Nodup := by
    rw [nodup_append]
    refine ⟨hs.ids, nodup_singleton _, ?_⟩
    rintro a ha b hb rfl
    obtain ⟨request, hr, rfl⟩ := mem_map.mp ha
    have := hs.requests_lt request hr
    rw [mem_singleton.mp hb] at this
    omega
  refine .listing hs.inUse (fun request hr => ?_) ?_ (mem_append_right _ (.head _)) hs.answers_lt rfl rfl rfl
  · rcases mem_append.mp hr with hr | hr
    · exact .inr (hs.requests_lt request hr)
    · exact .inl (mem_singleton.mp hr)
  · rw [PagedHost.list]
    simpa [CodexSession.requestHistory, CodexSession.sendHistoryQuery, PendingRequests.allocId] using hnew

theorem nodup_concat_id {requests : List PageRequest} {request : PageRequest}
    (hids : (requests.map PageRequest.id).Nodup) (hlt : ∀ r ∈ requests, r.id < request.id) :
    ((requests ++ [request]).map PageRequest.id).Nodup := by
  rw [map_append, nodup_append]
  refine ⟨hids, nodup_singleton _, ?_⟩
  rintro a ha b hb rfl
  obtain ⟨r, hr, rfl⟩ := mem_map.mp ha
  have := hlt r hr
  rw [mem_singleton.mp hb] at this
  omega

theorem Sound.more (hs : h.Sound key) : h.more.Sound key := by
  rw [PagedHost.more, CodexSession.requestMoreHistory]
  cases hcursor : h.codex.historyCursor with
  | none => exact hs
  | some cursor =>
    -- The page before has arrived, so that nothing else is waited for.
    have hidle := hs.cursor (by rw [hcursor]; rfl)
    have hwaits {id : ℕ} : Waits (ControlState.trackQuery h.codex.control.allocId.2 h.codex.control.nextId .history) id ↔
        id = h.codex.control.nextId := hs.inUse.alloc.waits_trackHistory
    have hnext : (ControlState.trackQuery h.codex.control.allocId.2 h.codex.control.nextId .history).nextId =
        h.codex.control.nextId + 1 := nextId_trackQuery _
    have hlt := hs.listing_lt
    refine ⟨⟨hs.rows, hs.scope, hs.nodup⟩, hs.inUse.alloc.trackQuery (Nat.lt_succ_self _) _, hs.historyScope,
      nodup_concat_id hs.ids hs.requests_lt, fun request hr => ?_, fun page hp => ?_, ?_, fun request hr hle => ?_,
      fun id hw => ?_, fun i j hi hj => (hwaits.mp hi).trans (hwaits.mp hj).symm, fun hc => by cases hc⟩
    · refine Nat.lt_of_lt_of_eq ?_ hnext.symm
      rcases mem_append.mp hr with hr | hr
      · exact Nat.lt_succ_of_lt (hs.requests_lt request hr)
      · rw [mem_singleton.mp hr]
        exact Nat.lt_succ_self _
    · exact Nat.lt_of_lt_of_eq (Nat.lt_succ_of_lt (hs.answers_lt page hp)) hnext.symm
    · exact Nat.lt_of_lt_of_eq (Nat.lt_succ_of_lt hlt) hnext.symm
    · rcases mem_append.mp hr with hr | hr
      · exact absurd (hs.waiting request hr hle).1 (hidle _)
      · rw [mem_singleton.mp hr]
        exact ⟨hwaits.mpr rfl, hs.historyScope⟩
    · rw [hwaits.mp hw]
      exact ⟨hlt.le, _, mem_append_right _ (.head _), rfl⟩

/-- What touches only the other requests keeps the listing. -/
theorem Sound.control (hs : h.Sound key) {control : ControlState} (hc : InUse control)
    (hle : h.codex.control.nextId ≤ control.nextId) (hwaits : ∀ id, Waits control id ↔ Waits h.codex.control id) :
    ({ h with codex := { h.codex with control } } : PagedHost Row).Sound key where
  toShows := ⟨hs.rows, hs.scope, hs.nodup⟩
  inUse := hc
  historyScope := hs.historyScope
  ids := hs.ids
  requests_lt request hr := (hs.requests_lt request hr).trans_le hle
  answers_lt page hp := (hs.answers_lt page hp).trans_le hle
  listing_lt := hs.listing_lt.trans_le hle
  waiting request hr hlt := (hs.waiting request hr hlt).imp_left (hwaits _).mpr
  waits id hw := hs.waits id ((hwaits id).mp hw)
  one i j hi hj := hs.one i j ((hwaits i).mp hi) ((hwaits j).mp hj)
  cursor hsome id hw := hs.cursor hsome id ((hwaits id).mp hw)

theorem Sound.send (hs : h.Sound key) {operation : ControlOperation} (ho : operation ≠ .query .history) :
    (h.send operation).Sound key := by
  have hid : h.codex.control.nextId < h.codex.control.allocId.2.nextId := Nat.lt_succ_self _
  have hfree : ¬ Waits h.codex.control.allocId.2 h.codex.control.nextId := fun hw =>
    absurd (hs.inUse.waits_lt hw) (lt_irrefl _)
  have hc := hs.inUse.alloc
  rw [PagedHost.send]
  cases operation with
  | query kind =>
    have hkind : kind ≠ .history := by
      rintro rfl
      exact ho rfl
    refine hs.control (hc.trackQuery hid kind) ?_ fun id => ?_
    · rw [nextId_trackQuery]
      exact Nat.le_succ _
    · refine ((hc.dropReplaced kind).waits_track ?_ ho).trans (waits_dropReplaced hkind)
      exact fun hw => hfree ((waits_dropReplaced hkind).mp hw)
  | _ =>
    refine hs.control (hc.track hid _) ?_ fun id => hc.waits_track hfree ho
    rw [nextId_track]
    exact Nat.le_succ _

theorem filter_id_eq {requests : List PageRequest} (hids : (requests.map PageRequest.id).Nodup) {request : PageRequest}
    (hr : request ∈ requests) : requests.filter (·.id = request.id) = [request] := by
  obtain ⟨before, after, rfl⟩ := append_of_mem hr
  rw [map_append, map_cons, nodup_append, nodup_cons] at hids
  obtain ⟨-, ⟨hafter, -⟩, hbefore⟩ := hids
  have hnone : before.filter (·.id = request.id) = [] := filter_eq_nil_iff.mpr fun r hm => by
    simpa using hbefore r.id (mem_map_of_mem hm) request.id (.head _)
  have hnone' : after.filter (·.id = request.id) = [] := filter_eq_nil_iff.mpr fun r hm he => by
    exact hafter (of_decide_eq_true he ▸ mem_map_of_mem hm)
  rw [filter_append, hnone, filter_cons_of_pos (by simp), hnone']
  rfl

theorem mem_answered {id : ℕ} {r : Reply Row} {page : PageRequest × List Row} (hm : page ∈ h.answered id r) :
    page.1 ∈ h.requests ∧ page.1.id = id := by
  cases r with
  | error => cases hm
  | result rows _ =>
    obtain ⟨request, hr, rfl⟩ := mem_map.mp hm
    exact ⟨mem_of_mem_filter hr, of_decide_eq_true (mem_filter.mp hr).2⟩

/-- A reply that is not waited for as a listing changes nothing that is shown. -/
theorem Sound.dropped (hs : h.Sound key) {id : ℕ} (hid : ¬ Waits h.codex.control id) (r : Reply Row) :
    ({ h with
      codex := { h.codex with control := (h.codex.control.finish id).2 }
      requests := h.requests.filter (·.id ≠ id)
      answers := h.answers ++ h.answered id r } : PagedHost Row).Sound key := by
  have hwaits (i : ℕ) : Waits (h.codex.control.finish id).2 i ↔ Waits h.codex.control i := by
    rw [waits_finish]
    exact and_iff_left_of_imp fun hw he => hid (he ▸ hw)
  have hold (page : PageRequest × List Row) (hp : page ∈ h.answered id r) : ¬ h.listing ≤ page.1.id := by
    intro hle
    obtain ⟨hr, rfl⟩ := mem_answered hp
    exact hid (hs.waiting _ hr hle).1
  have hpages : (h.answers ++ h.answered id r).filter (h.listing ≤ ·.1.id) = h.pages := by
    have hnil : (h.answered id r).filter (h.listing ≤ ·.1.id) = [] :=
      filter_eq_nil_iff.mpr fun page hp => by simpa using hold page hp
    rw [filter_append, hnil, append_nil]
    rfl
  refine ⟨⟨?_, ?_, hs.nodup⟩, hs.inUse.finish, hs.historyScope, hs.ids.sublist (filter_sublist.map _),
    fun request hr => hs.requests_lt request (mem_of_mem_filter hr), fun page hp => ?_, hs.listing_lt,
    fun request hr hle => ?_, fun i hw => ?_, fun i j hi hj => hs.one i j ((hwaits i).mp hi) ((hwaits j).mp hj),
    fun hsome i hw => hs.cursor hsome i ((hwaits i).mp hw)⟩
  · rw [PagedHost.pages, hpages]
    exact hs.rows
  · rw [PagedHost.pages, hpages]
    exact hs.scope
  · rcases mem_append.mp hp with hp | hp
    · exact hs.answers_lt page hp
    · exact hs.requests_lt _ (mem_answered hp).1
  · exact (hs.waiting request (mem_of_mem_filter hr) hle).imp_left (hwaits _).mpr
  · obtain ⟨hle, request, hr, rfl⟩ := hs.waits i ((hwaits i).mp hw)
    refine ⟨hle, request, mem_filter.mpr ⟨hr, decide_eq_true ?_⟩, rfl⟩
    intro he
    exact hid (he ▸ (hwaits _).mp hw)

theorem Sound.page (hs : h.Sound key) {id : ℕ} (hid : Waits h.codex.control id) {rows : List Row}
    {nextCursor : Option Str} (hrows : ((h.controller.listedHistory ++ rows).map key).Nodup) :
    ({ h with
      controller := h.controller.applyEvent (.history rows)
      codex := { h.codex with control := (h.codex.control.finish id).2, historyCursor := nextCursor }
      requests := h.requests.filter (·.id ≠ id)
      answers := h.answers ++ h.answered id (.result rows nextCursor) } : PagedHost Row).Sound key := by
  obtain ⟨hle, request, hr, rfl⟩ := hs.waits id hid
  have hanswered : h.answered request.id (.result rows nextCursor) = [(request, rows)] := by
    rw [PagedHost.answered, filter_id_eq hs.ids hr]
    rfl
  have hpages : (h.answers ++ h.answered request.id (.result rows nextCursor)).filter (h.listing ≤ ·.1.id) =
      h.pages ++ [(request, rows)] := by
    rw [hanswered, filter_append]
    simp [PagedHost.pages, hle]
  have hidle (i : ℕ) : ¬ Waits (h.codex.control.finish request.id).2 i := by
    intro hw
    obtain ⟨hw, hne⟩ := waits_finish.mp hw
    exact hne (hs.one i _ hw hid)
  refine ⟨⟨?_, ?_, hrows⟩, hs.inUse.finish, hs.historyScope, hs.ids.sublist (filter_sublist.map _),
    fun request hr => hs.requests_lt request (mem_of_mem_filter hr), fun page hp => ?_, hs.listing_lt,
    fun other ho hlt => ?_, fun i hw => absurd hw (hidle i), fun i j hi => absurd hi (hidle i), fun _ => hidle⟩
  · rw [PagedHost.pages, hpages, flatMap_append, ← hs.rows]
    simp [SessionController.applyEvent]
  · rw [PagedHost.pages, hpages]
    intro page hp
    rcases mem_append.mp hp with hp | hp
    · exact hs.scope page hp
    · rw [mem_singleton.mp hp]
      exact (hs.waiting request hr hle).2
  · rcases mem_append.mp hp with hp | hp
    · exact hs.answers_lt page hp
    · exact hs.requests_lt _ (mem_answered hp).1
  · obtain ⟨ho, hne⟩ := mem_filter.mp ho
    have hw := (hs.waiting other ho hlt).1
    exact absurd (hs.one _ _ hw hid) (of_decide_eq_true hne)

theorem Sound.error (hs : h.Sound key) :
    ({ h with controller := h.controller.applyEvent .error } : PagedHost Row).Sound key :=
  ⟨⟨hs.rows, hs.scope, hs.nodup⟩, hs.inUse, hs.historyScope, hs.ids, hs.requests_lt, hs.answers_lt, hs.listing_lt,
    hs.waiting, hs.waits, hs.one, hs.cursor⟩

/-- The page that is waited for cannot be had. -/
theorem Sound.failed (hs : h.Sound key) {id : ℕ} (hid : Waits h.codex.control id) :
    ({ h with
      codex := { h.codex with control := (h.codex.control.finish id).2 }
      requests := h.requests.filter (·.id ≠ id) } : PagedHost Row).Sound key := by
  have hidle (i : ℕ) : ¬ Waits (h.codex.control.finish id).2 i := by
    intro hw
    obtain ⟨hw, hne⟩ := waits_finish.mp hw
    exact hne (hs.one i _ hw hid)
  refine ⟨⟨hs.rows, hs.scope, hs.nodup⟩, hs.inUse.finish, hs.historyScope, hs.ids.sublist (filter_sublist.map _),
    fun request hr => hs.requests_lt request (mem_of_mem_filter hr), hs.answers_lt, hs.listing_lt,
    fun other ho hlt => ?_, fun i hw => absurd hw (hidle i), fun i j hi => absurd hi (hidle i), fun _ => hidle⟩
  obtain ⟨ho, hne⟩ := mem_filter.mp ho
  have hw := (hs.waiting other ho hlt).1
  exact absurd (hs.one _ _ hw hid) (of_decide_eq_true hne)

/-- The session has started, and lists its conversations. -/
theorem Sound.started (hs : h.Sound key) (id : ℕ) (r : Reply Row) (hnone : h.controller.listedHistory = []) :
    ({ h with
      codex := (CodexSession.requestHistory { h.codex with control := (h.codex.control.finish id).2 }
        h.codex.historyScope).1
      requests := h.requests.filter (·.id ≠ id) ++ [⟨h.codex.control.nextId, h.codex.historyScope, none⟩]
      listing := h.codex.control.nextId
      answers := h.answers ++ h.answered id r } : PagedHost Row).Sound key := by
  have hlt : ∀ request ∈ h.requests.filter (·.id ≠ id), request.id < h.codex.control.nextId := fun request hr =>
    hs.requests_lt request (mem_of_mem_filter hr)
  have hc : InUse (h.codex.control.finish id).2 := hs.inUse.finish
  refine .listing hc (fun request hr => ?_)
    (nodup_concat_id (hs.ids.sublist (filter_sublist.map _)) hlt) ?_ (fun page hp => ?_) hnone rfl ?_
  · rcases mem_append.mp hr with hr | hr
    · exact .inr (hlt request hr)
    · refine .inl ((mem_singleton.mp hr).trans ?_)
      rw [hs.historyScope]
      rfl
  · refine mem_append_right _ (mem_singleton.mpr ?_)
    rw [hs.historyScope]
    rfl
  · rcases mem_append.mp hp with hp | hp
    · exact hs.answers_lt page hp
    · exact hs.requests_lt _ (mem_answered hp).1
  · rw [hs.historyScope]
    rfl

theorem Sound.reply (hs : h.Sound key) {id : ℕ} {r : Reply Row} (hk : h.Keeps key (.reply id r)) :
    (h.reply id r).Sound key := by
  by_cases hid : Waits h.codex.control id
  · have hop := (hs.inUse.waits_iff).mp hid
    cases r with
    | error =>
      rw [PagedHost.reply, CodexSession.onResponse]
      simp only [hop, PagedHost.answered, append_nil]
      exact (hs.failed hid).error
    | result rows nextCursor =>
      rw [PagedHost.reply, CodexSession.onResponse]
      simp only [hop, append_nil]
      exact hs.page hid (hk.1 hop)
  · have hop : (h.codex.control.finish id).1 ≠ some (.query .history) := fun he => hid (hs.inUse.waits_iff.mpr he)
    have hdropped := hs.dropped hid r
    rw [PagedHost.reply, CodexSession.onResponse]
    dsimp only
    split
    · contradiction
    · contradiction
    · rename_i hstart
      exact hs.started id _ (hk.2 hstart)
    · simpa using hdropped

theorem Sound.perform (hs : h.Sound key) {call : Call Row} (he : Enabled call) (hk : h.Keeps key call) :
    (h.perform call).Sound key := by
  cases call with
  | list scope => exact hs.list scope
  | more => exact hs.more
  | reply id r => exact hs.reply hk
  | send operation => exact hs.send he
  | resetThread => exact hs.control hs.inUse.resetThread (Nat.le_refl _) fun _ => waits_resetThread

end PagedHost

theorem pagedHost_sound {key : Row → Str} {calls : List (PagedHost.Call Row)} {h : PagedHost Row}
    (hr : Run (keepingPages key) calls h) : h.Sound key := by
  refine hr.invariant (fun h hh => ?_) fun h call h' hs hstep => ?_
  · subst hh
    exact .new key
  · obtain ⟨hk, he, rfl⟩ := hstep
    exact hs.perform he hk

/-! ## What is listed -/

/-- **A listing shows what was last asked for**, read from files or paged. -/
theorem listing_shows_last (key : Row → Str) :
    (∀ calls (h : FileHost Row), Run (keepingFiles Row) calls h → h.Shows) ∧
    ∀ calls (h : PagedHost Row), Run (keepingPages key) calls h → h.Shows key :=
  ⟨fun _ _ hr ↦ (fileHost_sound hr).shows, fun _ _ hr ↦ (pagedHost_sound hr).toShows⟩

/-! ## Two listings -/

/-- All directories are listed before the read of the current one has ended. -/
def slowRead : List (FileHost.Call ℕ) :=
  [.list .currentDirectory, .list .allDirectories, .finish 1 [1, 2], .finish 0 [1]]

def oneByOne : List (FileHost.Call ℕ) :=
  [.list .currentDirectory, .finish 0 [1], .list .allDirectories, .finish 0 [1, 2]]

/-- A listing that is replaced before its reply, and the second page of the next one. -/
def replaced : List (PagedHost.Call ℕ) :=
  [.list .currentDirectory, .list .allDirectories, .reply 100 (.result [7] none), .reply 101 (.result [1] (some [])),
    .more, .reply 102 (.result [2] none)]

/-- Rows that are numbered. -/
def keyOf (row : ℕ) : Str := replicate row 'x'

theorem listing_shows_last_replaced :
    (oneByOne.foldl FileHost.perform .new).Shows ∧ (replaced.foldl PagedHost.perform .new).Shows keyOf ∧
      (replaced.foldl PagedHost.perform .new).controller.listedHistory = [1, 2] := by
  obtain ⟨hfiles, hpages⟩ := listing_shows_last keyOf
  have hone : Performs (keepingFiles ℕ) FileHost.perform .new oneByOne := by
    refine ⟨⟨trivial, rfl⟩, ⟨?_, rfl⟩, ⟨trivial, rfl⟩, ⟨?_, rfl⟩, trivial⟩
    · intro scope hs
      cases hs
      rfl
    · intro scope hs
      cases hs
      rfl
  have htwo : Performs (keepingPages keyOf) PagedHost.perform .new replaced := by
    refine ⟨⟨trivial, trivial, rfl⟩, ⟨trivial, trivial, rfl⟩, ⟨⟨?_, ?_⟩, trivial, rfl⟩, ⟨⟨?_, ?_⟩, trivial, rfl⟩,
      ⟨trivial, trivial, rfl⟩, ⟨⟨?_, ?_⟩, trivial, rfl⟩, trivial⟩
    all_goals
      intro h
      first
        | decide +kernel
        | exact absurd h (by decide +kernel)
  exact ⟨hfiles _ _ ((Run.init rfl).performs hone), hpages _ _ ((Run.init rfl).performs htwo), by decide +kernel⟩

/-- A read that ends late shows the rows of a scope that has been left. -/
theorem late_read_shown : ¬ ∀ (calls : List (FileHost.Call ℕ)) (h : FileHost ℕ), Run (fileHosts ℕ) calls h → h.Shows := by
  intro hshows
  have hruns : Performs (fileHosts ℕ) FileHost.perform .new slowRead := ⟨rfl, rfl, rfl, rfl, trivial⟩
  have h := (hshows _ _ ((Run.init rfl).performs hruns)).settled rfl .allDirectories rfl
  exact absurd h (by decide +kernel)

end NiumaTerm.Listing
