import Mathlib.Data.List.Nodup
import NiumaTerm.Lib.Precedence
import NiumaTerm.Lib.Str

/-!
# Descendant threads

`CodexTasks` keeps the threads proven to descend from the selected root; after a resume they are listed
page by page.  `discovery_exact` says for which listings a pass finds what `Descends`.  Rows, held
updates and launch messages are left out.
-/

namespace NiumaTerm.Codex

open Rust Precedence List

/-- What discovery reads of a listed thread. -/
structure ThreadRow where
  id : Option Str
  parentThreadId : Option Str

structure DescendantPage where
  data : List ThreadRow
  nextCursor : Option Str

inductive PageReply
  | error (message : Str)
  | result (page : DescendantPage)

/-- `parents` is a map with its newest entries first. -/
structure CodexTasks where
  root : Option Str
  confirmed : List Str
  parents : List (Str × Str)
  queries : List ℕ
  seenCursors : List Str

def CodexTasks.default : CodexTasks where
  root := none
  confirmed := []
  parents := []
  queries := []
  seenCursors := []

structure DescendantRequest where
  id : ℕ
  ancestorThreadId : Str
  sourceKinds : List Str
  modelProviders : List Str
  useStateDbOnly : Bool
  limit : ℕ
  cursor : Option Str

def descendantPageLimit : ℕ := 50

/-! ## The source's operations -/

theorem countP_lt_of_mem {keys seen : List Str} {key : Str} (hk : key ∈ keys) (hs : key ∉ seen) :
    keys.countP (fun k => k ∉ key :: seen) < keys.countP (fun k => k ∉ seen) := by
  obtain ⟨before, after, rfl⟩ := append_of_mem hk
  have hmono : ∀ ks : List Str, ks.countP (fun k => k ∉ key :: seen) ≤ ks.countP (fun k => k ∉ seen) := by
    intro ks
    refine countP_mono_left fun k _ h => ?_
    simp only [decide_eq_true_eq, mem_cons, not_or] at h ⊢
    exact h.2
  have h₁ := hmono before
  have h₂ := hmono after
  rw [countP_append, countP_append, countP_cons_of_neg (by simp),
    countP_cons_of_pos (by simpa using hs)]
  omega

namespace CodexTasks

/-- The loop of `chain_reaches_root`: a missing link or a repeated id ends the walk. -/
def walk (t : CodexTasks) (root : Str) (seen : List Str) (current : Str) : Bool :=
  if current = root then true
  else if _hs : current ∈ seen then false
  else
    match _hp : t.parents.lookup current with
    | some parent => t.walk root (current :: seen) parent
    | none => current ∈ t.confirmed
termination_by (t.parents.map Prod.fst).countP fun key => key ∉ seen
decreasing_by
  refine countP_lt_of_mem ?_ _hs
  by_contra hk
  rw [lookup_eq_none_iff.mpr] at _hp
  · cases _hp
  · intro entry he
    simp only [bne_iff_ne, ne_eq]
    rintro rfl
    exact hk (mem_map_of_mem he)

def chainReachesRoot (t : CodexTasks) (start root : Str) : Bool := t.walk root [] start

def setRoot (t : CodexTasks) (threadId : Str) : Bool × CodexTasks :=
  if t.root = some threadId then (false, t) else (true, { default with root := some threadId })

def confirm (t : CodexTasks) (threadId : Str) (parentThreadId : Option Str) : Bool × CodexTasks :=
  match t.root with
  | none => (false, t)
  | some root =>
    if threadId = root then (false, t)
    else
      match parentThreadId with
      | none => (true, { t with confirmed := t.confirmed.insert threadId })
      | some parent =>
        if parent ≠ root ∧ parent ∉ t.confirmed then (false, t)
        else if !t.chainReachesRoot parent root then (false, t)
        else
          (true, { t with parents := (threadId, parent) :: t.parents,
                          confirmed := t.confirmed.insert threadId })

def queryInFlight (t : CodexTasks) : Bool := !t.queries.isEmpty

def descendantRequest (t : CodexTasks) (rpcId : ℕ) (cursor : Option Str) :
    Option DescendantRequest × CodexTasks :=
  match t.root with
  | none => (none, t)
  | some root =>
    -- A first page starts a new pass, which follows the cursors again.
    let t := if cursor.isNone then { t with seenCursors := [] } else t
    (some { id := rpcId
            ancestorThreadId := root
            sourceKinds := ["subAgentThreadSpawn".toList]
            modelProviders := []
            useStateDbOnly := true
            limit := descendantPageLimit
            cursor },
      { t with queries := rpcId :: t.queries })

/-- An empty parent id counts as missing. -/
def descendantParentId (thread : ThreadRow) : Option Str :=
  thread.parentThreadId.filter (· ≠ [])

/-- What one listed thread does. -/
def applyRow (root : Str) (t : CodexTasks) (thread : ThreadRow) : CodexTasks :=
  match thread.id.filter (· ≠ root) with
  | none => t
  | some id => (t.confirm id ((descendantParentId thread).or (some root))).2

/-- The cursor of the page to follow, if any. -/
def applyDescendants (t : CodexTasks) (rpcId : ℕ) (page : DescendantPage) : Option Str × CodexTasks :=
  if rpcId ∉ t.queries then (none, t)
  else
    let t := { t with queries := t.queries.erase rpcId }
    match t.root with
    | none => (none, t)
    | some root =>
      let t := page.data.foldl (applyRow root) t
      match page.nextCursor with
      | none => (none, t)
      | some cursor =>
        if cursor ∈ t.seenCursors then (none, t)
        else (some cursor, { t with seenCursors := cursor :: t.seenCursors })

def failQuery (t : CodexTasks) (rpcId : ℕ) : CodexTasks := { t with queries := t.queries.erase rpcId }

end CodexTasks

/-- What discovery uses of a session. -/
structure Session where
  background : CodexTasks
  threadId : Option Str
  nextRpcId : ℕ

namespace Session

/-- `alloc_rpc_id` and `descendant_request`. -/
def request (s : Session) (cursor : Option Str) : Option DescendantRequest × Session :=
  ((s.background.descendantRequest s.nextRpcId cursor).1,
    { s with background := (s.background.descendantRequest s.nextRpcId cursor).2
             nextRpcId := s.nextRpcId + 1 })

def startDescendantDiscovery (s : Session) : Option DescendantRequest × Session :=
  match s.threadId with
  | none => (none, s)
  | some threadId =>
    let s := { s with background := (s.background.setRoot threadId).2 }
    if s.background.queryInFlight then (none, s) else s.request none

def onDescendantPage (s : Session) (rpcId : ℕ) : PageReply → Option DescendantRequest × Session
  | .error _ => (none, { s with background := s.background.failQuery rpcId })
  | .result page =>
    let next := s.background.applyDescendants rpcId page
    let s := { s with background := next.2 }
    match next.1 with
    | none => (none, s)
    | some cursor => s.request (some cursor)

end Session

/-! ## A discovery pass -/

/-- The pages of a pass from a request on, with the cursors it follows and the threads it lists. -/
inductive Pass (server : Option Str → DescendantPage) :
    Session → DescendantRequest → List Str → List ThreadRow → Session → Prop
  | last {s s' : Session} {request : DescendantRequest}
    (h : s.onDescendantPage request.id (.result (server request.cursor)) = (none, s')) :
    Pass server s request [] (server request.cursor).data s'
  | next {s s₁ s' : Session} {request next : DescendantRequest} {cursors : List Str}
    {rows : List ThreadRow}
    (h : s.onDescendantPage request.id (.result (server request.cursor)) = (some next, s₁))
    (hr : Pass server s₁ next cursors rows s') :
    Pass server s request (next.cursor.toList ++ cursors) ((server request.cursor).data ++ rows) s'

/-- The listed threads other than the root, each with its parent; a missing parent is the root. -/
def listed (root : Str) (rows : List ThreadRow) : List (Str × Str) :=
  rows.filterMap fun row =>
    (row.id.filter (· ≠ root)).map fun id => (id, (CodexTasks.descendantParentId row).getD root)

/-- The parent chain of a listed thread leads to the root. -/
inductive Descends (links : List (Str × Str)) (root : Str) : Str → Prop
  | child {id : Str} (h : (id, root) ∈ links) : Descends links root id
  | deeper {id parent : Str} (h : (id, parent) ∈ links) (hp : Descends links root parent) :
    Descends links root id

/-- A listed descendant's parent, as long as it is not the root itself. -/
def ParentOf (links : List (Str × Str)) (root parent id : Str) : Prop :=
  (id, parent) ∈ links ∧ parent ≠ root ∧ Descends links root id

/-! ## Sweeping a list of links once

`sweep` goes through links in their order and takes those whose parent is the root or was taken. -/

def sweep (root : Str) (links : List (Str × Str)) : List Str :=
  links.foldl (fun found link => if link.2 = root ∨ link.2 ∈ found then link.1 :: found else found) []

section

variable {root id parent : Str} {links : List (Str × Str)}

theorem sweep_concat (root : Str) (links : List (Str × Str)) (link : Str × Str) :
    sweep root (links ++ [link]) = if link.2 = root ∨ link.2 ∈ sweep root links
      then link.1 :: sweep root links else sweep root links := by
  rw [sweep, foldl_append]
  rfl

theorem mem_sweep_concat : id ∈ sweep root (links ++ [(id, parent)]) ↔
    parent = root ∨ parent ∈ sweep root links ∨ id ∈ sweep root links := by
  rw [sweep_concat]
  split_ifs with h
  · simp [h, ← or_assoc]
  · rw [not_or] at h
    simp [h.1, h.2]

theorem mem_sweep_concat_of_ne {link : Str × Str} (h : id ≠ link.1) :
    id ∈ sweep root (links ++ [link]) ↔ id ∈ sweep root links := by
  rw [sweep_concat]
  split_ifs
  · simp [h]
  · rfl

theorem mem_keys_of_mem_sweep (h : id ∈ sweep root links) : id ∈ links.map Prod.fst := by
  induction links using reverseRecOn with
  | nil => cases h
  | append_singleton links link ih =>
    rw [map_append, mem_append]
    by_cases he : id = link.1
    · exact .inr (by simp [he])
    · exact .inl (ih ((mem_sweep_concat_of_ne he).mp h))

/-- Links listed before an id's own do not take it, and those after it neither. -/
theorem mem_sweep_append_of_not_mem {after : List (Str × Str)} (h : id ∉ after.map Prod.fst) :
    id ∈ sweep root (links ++ after) ↔ id ∈ sweep root links := by
  induction after using reverseRecOn with
  | nil => rw [append_nil]
  | append_singleton after link ih =>
    rw [map_append, mem_append, not_or] at h
    rw [← append_assoc, mem_sweep_concat_of_ne (by simpa using h.2), ih h.1]

theorem Descends.mono {more : List (Str × Str)} (h : Descends links root id) :
    Descends (links ++ more) root id := by
  induction h with
  | child h => exact .child (mem_append_left _ h)
  | deeper h _ ih => exact .deeper (mem_append_left _ h) ih

/-- Only descendants are taken. -/
theorem descends_of_mem_sweep (h : id ∈ sweep root links) : Descends links root id := by
  induction links using reverseRecOn generalizing id with
  | nil => cases h
  | append_singleton links link ih =>
    obtain ⟨key, parent⟩ := link
    by_cases he : id = key
    · subst he
      have hl : (id, parent) ∈ links ++ [(id, parent)] := by simp
      rcases mem_sweep_concat.mp h with rfl | hp | hi
      · exact .child hl
      · exact .deeper hl (ih hp).mono
      · exact (ih hi).mono
    · exact (ih ((mem_sweep_concat_of_ne he).mp h)).mono

theorem Descends.of_link (h : Descends links root id) (hn : (links.map Prod.fst).Nodup)
    (hl : (id, parent) ∈ links) : parent = root ∨ Descends links root parent := by
  cases h with
  | child h' => exact .inl (congrArg Prod.snd (inj_on_of_nodup_map hn hl h' rfl))
  | deeper h' hp =>
    right
    cases inj_on_of_nodup_map hn hl h' rfl
    exact hp

/-- With every parent listed before its children all descendants are taken. -/
theorem mem_sweep_of_descends (hn : (links.map Prod.fst).Nodup)
    (ho : Ordered (ParentOf links root) (links.map Prod.fst)) :
    ∀ before after, links = before ++ after → ∀ id ∈ before.map Prod.fst, Descends links root id →
      id ∈ sweep root before := by
  intro before
  induction before using reverseRecOn with
  | nil => rintro after - id ⟨⟩
  | append_singleton before link ih =>
    intro after he id hi hd
    obtain ⟨key, parent⟩ := link
    have he' : links = before ++ (key, parent) :: after := by rw [he, append_assoc]; rfl
    by_cases hk : id = key
    · subst hk
      have hl : (id, parent) ∈ links := by rw [he']; simp
      rw [mem_sweep_concat]
      by_cases hroot : parent = root
      · exact .inl hroot
      · refine .inr (.inl (ih _ he' parent ?_ ((hd.of_link hn hl).resolve_left hroot)))
        refine ho (before.map Prod.fst) id (after.map Prod.fst) ?_ parent ⟨hl, hroot, hd⟩
        rw [he', map_append, map_cons]
    · rw [mem_sweep_concat_of_ne hk]
      rw [map_append, mem_append] at hi
      exact ih _ he' id (hi.resolve_right (by simpa using hk)) hd

/-- One sweep takes exactly the descendants just if every parent is listed before its children. -/
theorem sweep_iff_ordered (hn : (links.map Prod.fst).Nodup) :
    (∀ id, id ∈ sweep root links ↔ Descends links root id) ↔
      Ordered (ParentOf links root) (links.map Prod.fst) := by
  constructor
  · rintro h before id after he parent ⟨hl, hroot, hd⟩
    obtain ⟨first, rest, rfl, rfl, hr⟩ := map_eq_append_iff.mp he
    obtain ⟨⟨key, other⟩, last, rfl, hk, rfl⟩ := map_eq_cons_iff.mp hr
    obtain rfl : key = id := hk
    rw [map_append, nodup_append, map_cons, nodup_cons] at hn
    obtain ⟨-, ⟨hlast, -⟩, hfirst⟩ := hn
    have hid : key ∉ first.map Prod.fst := fun hm => hfirst _ hm _ mem_cons_self rfl
    -- The only link of this id is its own.
    obtain rfl : other = parent := by
      rcases mem_append.mp hl with hm | hm
      · exact absurd (mem_map_of_mem hm) hid
      · rcases mem_cons.mp hm with hm | hm
        · exact (congrArg Prod.snd hm).symm
        · exact absurd (mem_map_of_mem hm) hlast
    have hs := (h key).mpr hd
    rw [append_cons, mem_sweep_append_of_not_mem hlast] at hs
    rcases mem_sweep_concat.mp hs with hp | hp | hp
    · exact absurd hp hroot
    · exact mem_keys_of_mem_sweep hp
    · exact absurd (mem_keys_of_mem_sweep hp) hid
  · intro ho id
    refine ⟨descends_of_mem_sweep, fun hd => mem_sweep_of_descends hn ho links [] (by simp) id ?_ hd⟩
    cases hd with
    | child h | deeper h _ => exact mem_map_of_mem h

end

theorem listed_cons (root : Str) (row : ThreadRow) (rows : List ThreadRow) :
    listed root (row :: rows) = listed root [row] ++ listed root rows := by
  rw [listed, ← singleton_append, filterMap_append]
  rfl

theorem listed_append (root : Str) (rows more : List ThreadRow) :
    listed root (rows ++ more) = listed root rows ++ listed root more := filterMap_append

/-! ## The code sweeps -/

/-- The recorded parents of a thread lead to the root through confirmed threads. -/
inductive CodexTasks.Chain (t : CodexTasks) (root : Str) : ℕ → Str → Prop
  | here : Chain t root 0 root
  | up {n : ℕ} {id parent : Str} (hr : id ≠ root) (hc : id ∈ t.confirmed)
    (hl : t.parents.lookup id = some parent) (hp : Chain t root n parent) : Chain t root (n + 1) id

/-- What a pass has confirmed is what a sweep over the links listed so far takes. -/
structure CodexTasks.Found (t : CodexTasks) (root : Str) (links : List (Str × Str)) : Prop where
  rooted : t.root = some root
  mem_iff : ∀ id, id ∈ t.confirmed ↔ id ∈ sweep root links
  chain : ∀ id ∈ t.confirmed, ∃ n, t.Chain root n id

namespace CodexTasks

variable {t : CodexTasks} {root id parent : Str} {links : List (Str × Str)} {n m : ℕ}

theorem Chain.unique (h : t.Chain root n id) (h' : t.Chain root m id) : n = m := by
  induction h generalizing m with
  | here =>
    cases h' with
    | here => rfl
    | up hr => exact absurd rfl hr
  | up hr hc hl hp ih =>
    cases h' with
    | here => exact absurd rfl hr
    | up _ _ hl' hp' =>
      cases hl.symm.trans hl'
      rw [ih hp']

/-- The walk up a chain does not meet an id again: each id has one distance from the root. -/
theorem Chain.walk (h : t.Chain root n id) {seen : List Str}
    (hs : ∀ other ∈ seen, ∃ m, n < m ∧ t.Chain root m other) : t.walk root seen id = true := by
  induction h generalizing seen with
  | here => rw [CodexTasks.walk, if_pos rfl]
  | @up n id parent hr hc hl hp ih =>
    have hfresh : id ∉ seen := by
      intro hm
      obtain ⟨m, hlt, hm⟩ := hs id hm
      have := hm.unique (.up hr hc hl hp)
      omega
    rw [CodexTasks.walk, if_neg hr, dif_neg hfresh]
    split
    · rename_i next hn
      cases hl.symm.trans hn
      refine ih fun other ho => ?_
      rcases mem_cons.mp ho with rfl | ho
      · exact ⟨n + 1, by omega, .up hr hc hl hp⟩
      · obtain ⟨m, hlt, hm⟩ := hs other ho
        exact ⟨m, by omega, hm⟩
    · rename_i hn
      cases hl.symm.trans hn

theorem Chain.insert (h : t.Chain root n id) {t' : CodexTasks} {key : Str} (hk : key ∉ t.confirmed)
    (hp : t'.parents = (key, parent) :: t.parents) (hc : t'.confirmed = t.confirmed.insert key) :
    t'.Chain root n id := by
  induction h with
  | here => exact .here
  | @up n id next hr hm hl _ ih =>
    have hne : id ≠ key := by
      rintro rfl
      exact hk hm
    refine .up hr (by rw [hc]; exact mem_insert_of_mem hm) ?_ ih
    have hb : (id == key) = false := by simpa using hne
    rw [hp, lookup_cons, hb]
    exact hl

/-- A thread that is listed for the first time is confirmed just if a sweep takes it. -/
theorem Found.confirm (h : t.Found root links) (hr : id ≠ root) (hi : id ∉ links.map Prod.fst) :
    (t.confirm id (some parent)).2.Found root (links ++ [(id, parent)]) := by
  have hfresh : id ∉ sweep root links := fun hm => hi (mem_keys_of_mem_sweep hm)
  have hnew : id ∉ t.confirmed := fun hm => hfresh ((h.mem_iff id).mp hm)
  unfold CodexTasks.confirm
  simp only [h.rooted, if_neg hr]
  by_cases hp : parent = root ∨ parent ∈ t.confirmed
  · have hchain : ∃ n, t.Chain root n parent := by
      rcases hp with rfl | hp
      · exact ⟨0, .here⟩
      · exact h.chain parent hp
    obtain ⟨n, hn⟩ := hchain
    have hwalk : t.chainReachesRoot parent root = true := hn.walk (by simp)
    rw [if_neg (by rintro ⟨h₁, h₂⟩; exact hp.elim h₁ h₂), if_neg (by simp [hwalk])]
    constructor
    · rfl
    · intro other
      rw [mem_insert_iff]
      by_cases ho : other = id
      · subst ho
        rw [mem_sweep_concat, ← h.mem_iff]
        exact iff_of_true (.inl rfl) (hp.imp_right .inl)
      · rw [mem_sweep_concat_of_ne ho, or_iff_right ho]
        exact h.mem_iff other
    · intro other ho
      rcases mem_insert_iff.mp ho with rfl | ho
      · refine ⟨n + 1, .up hr (mem_insert_self) ?_ (hn.insert hnew rfl rfl)⟩
        exact lookup_cons_self
      · obtain ⟨m, hm⟩ := h.chain other ho
        exact ⟨m, hm.insert hnew rfl rfl⟩
  · have hp' := not_or.mp hp
    rw [if_pos hp']
    refine ⟨h.rooted, ?_, h.chain⟩
    intro other
    rw [h.mem_iff, sweep_concat, if_neg]
    rintro (hpr | hpm)
    · exact hp'.1 hpr
    · exact hp'.2 ((h.mem_iff parent).mpr hpm)

theorem Found.applyRow (h : t.Found root links) (row : ThreadRow)
    (hn : ((links ++ listed root [row]).map Prod.fst).Nodup) :
    (t.applyRow root row).Found root (links ++ listed root [row]) := by
  unfold CodexTasks.applyRow
  cases hid : row.id.filter (· ≠ root) with
  | none =>
    have : listed root [row] = [] := by
      simp only [listed, filterMap_cons, filterMap_nil, hid, Option.map_none]
    rwa [this, append_nil]
  | some id =>
    have hl : listed root [row] = [(id, (descendantParentId row).getD root)] := by
      simp only [listed, filterMap_cons, filterMap_nil, hid, Option.map_some]
    have hr : id ≠ root := by simpa using (Option.filter_eq_some_iff.mp hid).2
    rw [hl, map_append, nodup_append] at hn
    have hi : id ∉ links.map Prod.fst := fun hm => hn.2.2 id hm id (by simp) rfl
    have hparent : (descendantParentId row).or (some root) =
        some ((descendantParentId row).getD root) := by
      cases descendantParentId row <;> rfl
    dsimp only
    rw [hl, hparent]
    exact h.confirm hr hi

theorem Found.foldl (h : t.Found root links) (rows : List ThreadRow)
    (hn : ((links ++ listed root rows).map Prod.fst).Nodup) :
    (rows.foldl (CodexTasks.applyRow root) t).Found root (links ++ listed root rows) := by
  induction rows generalizing t links with
  | nil =>
    rw [listed, filterMap_nil, append_nil]
    exact h
  | cons row rows ih =>
    rw [listed_cons, ← append_assoc] at hn ⊢
    refine ih (h.applyRow row ?_) hn
    rw [map_append, nodup_append] at hn
    exact hn.1

end CodexTasks

/-! ## Pages -/

/-- Confirming threads leaves the queries and the followed cursors alone. -/
theorem CodexTasks.foldl_applyRow_seenCursors (root : Str) (rows : List ThreadRow) (t : CodexTasks) :
    (rows.foldl (CodexTasks.applyRow root) t).seenCursors = t.seenCursors := by
  induction rows generalizing t with
  | nil => rfl
  | cons row rows ih =>
    rw [foldl_cons, ih]
    unfold CodexTasks.applyRow CodexTasks.confirm
    split
    · rfl
    · split
      · rfl
      · split_ifs
        · rfl
        · split
          · rfl
          · split_ifs <;> rfl

section

variable {s s' : Session} {rpcId : ℕ} {page : DescendantPage} {next : DescendantRequest} {root : Str}
  {links : List (Str × Str)}

/-- A page is followed under its next cursor, once that was not followed before. -/
theorem Session.onDescendantPage_next
    (h : s.onDescendantPage rpcId (.result page) = (some next, s')) :
    ∃ cursor, next.cursor = some cursor ∧ page.nextCursor = some cursor ∧
      cursor ∉ s.background.seenCursors ∧
      s'.background.seenCursors = cursor :: s.background.seenCursors ∧
      next.id ∈ s'.background.queries := by
  unfold onDescendantPage CodexTasks.applyDescendants at h
  by_cases hq : rpcId ∉ s.background.queries
  · simp only [if_pos hq, Prod.mk.injEq, reduceCtorEq, false_and] at h
  simp only [if_neg hq] at h
  cases hroot : s.background.root with
  | none => simp only [hroot, Prod.mk.injEq, reduceCtorEq, false_and] at h
  | some root =>
    simp only [hroot] at h
    cases hc : page.nextCursor with
    | none => simp only [hc, Prod.mk.injEq, reduceCtorEq, false_and] at h
    | some cursor =>
      simp only [hc, CodexTasks.foldl_applyRow_seenCursors] at h
      by_cases hs : cursor ∈ s.background.seenCursors
      · simp only [if_pos hs, Prod.mk.injEq, reduceCtorEq, false_and] at h
      simp only [if_neg hs, request, CodexTasks.descendantRequest] at h
      split at h
      · rw [Prod.mk.injEq] at h
        cases h.1
      · rw [Prod.mk.injEq, Option.some.injEq] at h
        obtain ⟨rfl, rfl⟩ := h
        exact ⟨cursor, rfl, rfl, hs, rfl, mem_cons_self⟩

theorem CodexTasks.Found.of_eq {t t' : CodexTasks} (h : t.Found root links) (hr : t'.root = t.root)
    (hc : t'.confirmed = t.confirmed) (hp : t'.parents = t.parents) : t'.Found root links := by
  refine ⟨hr.trans h.rooted, fun id => by rw [hc, h.mem_iff], fun id hi => ?_⟩
  obtain ⟨n, hn⟩ := h.chain id (hc ▸ hi)
  refine ⟨n, ?_⟩
  clear hi
  induction hn with
  | here => exact .here
  | up hr hm hl _ ih => exact .up hr (hc ▸ hm) (hp ▸ hl) ih

/-- A page of threads that were not listed before is swept. -/
theorem Session.onDescendantPage_found (h : s.background.Found root links)
    (hq : rpcId ∈ s.background.queries)
    (hn : ((links ++ listed root page.data).map Prod.fst).Nodup) :
    (s.onDescendantPage rpcId (.result page)).2.background.Found root
      (links ++ listed root page.data) := by
  have hf : CodexTasks.Found { s.background with root := some root
                                                 queries := s.background.queries.erase rpcId } root links :=
    h.of_eq h.rooted.symm rfl rfl
  have hf := hf.foldl page.data hn
  unfold onDescendantPage CodexTasks.applyDescendants
  simp only [if_neg (not_not.mpr hq), h.rooted]
  generalize page.data.foldl (CodexTasks.applyRow root) _ = t at hf ⊢
  cases page.nextCursor with
  | none => exact hf
  | some cursor =>
    by_cases hs : cursor ∈ t.seenCursors
    · simp only [if_pos hs]
      exact hf
    · simp only [if_neg hs]
      unfold request CodexTasks.descendantRequest
      dsimp only
      rw [hf.rooted]
      exact hf.of_eq hf.rooted.symm rfl rfl

end

/-! ## Passes -/

section

variable {server : Option Str → DescendantPage} {s s' : Session} {request : DescendantRequest}
  {cursors : List Str} {rows : List ThreadRow} {root : Str} {links : List (Str × Str)}

theorem Pass.nodup (h : Pass server s request cursors rows s') :
    cursors.Nodup ∧ ∀ cursor ∈ cursors, cursor ∉ s.background.seenCursors := by
  induction h with
  | last => exact ⟨nodup_nil, by simp⟩
  | next h _ ih =>
    obtain ⟨cursor, hc, -, hs, hseen, -⟩ := Session.onDescendantPage_next h
    obtain ⟨hn, hfresh⟩ := ih
    rw [hseen] at hfresh
    rw [hc, Option.toList_some, singleton_append]
    constructor
    · exact nodup_cons.mpr ⟨fun hm => hfresh cursor hm mem_cons_self, hn⟩
    · intro other ho
      rcases mem_cons.mp ho with rfl | ho
      · exact hs
      · exact fun hm => hfresh other ho (mem_cons_of_mem _ hm)

/-- A server with finitely many cursors is read to an end. -/
theorem exists_pass {known : List Str}
    (hk : ∀ cursor next, (server cursor).nextCursor = some next → next ∈ known) (s : Session)
    (request : DescendantRequest) : ∃ cursors rows s', Pass server s request cursors rows s' := by
  induction hn : known.countP (fun cursor => cursor ∉ s.background.seenCursors) using
    Nat.strong_induction_on generalizing s request with
  | _ n ih =>
    rcases hp : s.onDescendantPage request.id (.result (server request.cursor)) with ⟨next, s₁⟩
    cases next with
    | none => exact ⟨_, _, _, .last hp⟩
    | some next =>
      obtain ⟨cursor, -, hc, hs, hseen, -⟩ := Session.onDescendantPage_next hp
      have hlt := countP_lt_of_mem (hk _ _ hc) hs
      rw [← hseen, hn] at hlt
      obtain ⟨cursors, rows, s', h⟩ := ih _ hlt s₁ next rfl
      exact ⟨_, _, _, .next hp h⟩

theorem Pass.found (h : Pass server s request cursors rows s') (hf : s.background.Found root links)
    (hq : request.id ∈ s.background.queries)
    (hn : ((links ++ listed root rows).map Prod.fst).Nodup) :
    s'.background.Found root (links ++ listed root rows) := by
  induction h generalizing links with
  | last h =>
    have := Session.onDescendantPage_found hf hq hn
    rwa [h] at this
  | next h _ ih =>
    obtain ⟨cursor, -, -, -, -, hq'⟩ := Session.onDescendantPage_next h
    rw [listed_append, ← append_assoc] at hn ⊢
    have hn' := hn
    rw [map_append, nodup_append] at hn'
    have := Session.onDescendantPage_found hf hq hn'.1
    rw [h] at this
    exact ih this hq' hn

theorem Session.startDescendantDiscovery_some (hs : s.threadId = some root)
    (h : s.startDescendantDiscovery = (some request, s')) :
    s'.background.root = some root ∧ s'.background.seenCursors = [] ∧
      request.id ∈ s'.background.queries := by
  unfold startDescendantDiscovery at h
  rw [hs] at h
  dsimp only at h
  have hroot : (s.background.setRoot root).2.root = some root := by
    unfold CodexTasks.setRoot
    split_ifs with hr
    · exact hr
    · rfl
  split_ifs at h with hf
  · cases h
  unfold Session.request CodexTasks.descendantRequest at h
  simp only [hroot, Option.isNone_none, if_true, Prod.mk.injEq, Option.some.injEq] at h
  obtain ⟨rfl, rfl⟩ := h
  exact ⟨rfl, rfl, mem_cons_self⟩

/-- A pass that starts with no confirmed threads ends and follows each cursor at most once; it confirms
exactly the listed threads whose parent chain leads to the root just if every one of them is listed
after its parent. -/
theorem discovery_exact {s s₁ : Session} (server : Option Str → DescendantPage)
    (hroot : s.threadId = some root) (hstart : s.startDescendantDiscovery = (some request, s₁))
    (hempty : s₁.background.confirmed = []) :
    (∀ known : List Str, (∀ cursor next, (server cursor).nextCursor = some next → next ∈ known) →
      ∃ cursors rows s', Pass server s₁ request cursors rows s') ∧
    ∀ cursors rows s', Pass server s₁ request cursors rows s' → cursors.Nodup ∧
      (((listed root rows).map Prod.fst).Nodup →
        ((∀ id, id ∈ s'.background.confirmed ↔ Descends (listed root rows) root id) ↔
          Ordered (ParentOf (listed root rows) root) ((listed root rows).map Prod.fst))) := by
  obtain ⟨hr, -, hq⟩ := Session.startDescendantDiscovery_some hroot hstart
  refine ⟨fun known hk ↦ exists_pass hk s₁ request, fun cursors rows s' h ↦ ⟨h.nodup.1, fun hn ↦ ?_⟩⟩
  have hf : s₁.background.Found root [] := ⟨hr, by simp [hempty, sweep], by simp [hempty]⟩
  have hf' := h.found hf hq hn
  rw [nil_append] at hf'
  rw [← sweep_iff_ordered hn]
  simp only [hf'.mem_iff]

end

def childRow : ThreadRow where
  id := some "child".toList
  parentThreadId := none

def grandchildRow : ThreadRow where
  id := some "grandchild".toList
  parentThreadId := some "child".toList

def onePage (first second : ThreadRow) (_ : Option Str) : DescendantPage where
  data := [first, second]
  nextCursor := none

def resumed : Session where
  background := .default
  threadId := some "root".toList
  nextRpcId := 7

theorem onePage_pass (first second : ThreadRow) : Pass (onePage first second)
    resumed.startDescendantDiscovery.2 ((resumed.startDescendantDiscovery.1).get rfl) []
    [first, second] (resumed.startDescendantDiscovery.2.onDescendantPage 7
      (.result (onePage first second none))).2 := .last rfl

theorem discovery_exact_nested : ∃ s' : Session,
    ∀ id, id ∈ s'.background.confirmed ↔
      Descends (listed "root".toList [childRow, grandchildRow]) "root".toList id := by
  have h := (discovery_exact (onePage childRow grandchildRow) (s := resumed) rfl rfl rfl).2 _ _ _
    (onePage_pass childRow grandchildRow)
  refine ⟨_, (h.2 (by decide)).mpr ?_⟩
  have hl : listed "root".toList [childRow, grandchildRow] =
      [("child".toList, "root".toList), ("grandchild".toList, "child".toList)] := by decide
  rw [hl]
  refine (ordered_nil.concat (a := "child".toList) ?_).concat (a := "grandchild".toList) ?_
  · rintro parent ⟨hp, hne, -⟩
    simp_all
  · rintro parent ⟨hp, -, -⟩
    simp_all

/-- A child listed after its own child: the grandchild is left out. -/
theorem discovery_misses_grandchild : ∃ (s' : Session) (id : Str),
    Pass (onePage grandchildRow childRow) resumed.startDescendantDiscovery.2
      ((resumed.startDescendantDiscovery.1).get rfl) [] [grandchildRow, childRow] s' ∧
    Descends (listed "root".toList [grandchildRow, childRow]) "root".toList id ∧
    id ∉ s'.background.confirmed := by
  refine ⟨_, "grandchild".toList, onePage_pass grandchildRow childRow, ?_, ?_⟩
  · have hc : ("child".toList, "root".toList) ∈
      listed "root".toList [grandchildRow, childRow] := by decide
    have hg : ("grandchild".toList, "child".toList) ∈
      listed "root".toList [grandchildRow, childRow] := by decide
    exact .deeper hg (.child hc)
  · have hf : resumed.startDescendantDiscovery.2.background.Found "root".toList [] :=
      ⟨rfl, fun _ ↦ Iff.rfl, by rintro id ⟨⟩⟩
    rw [((onePage_pass grandchildRow childRow).found hf (by decide) (by decide)).mem_iff]
    decide

end NiumaTerm.Codex
