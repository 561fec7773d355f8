import NiumaTerm.Codex.BackgroundTasks
import NiumaTerm.Lib.Json
import NiumaTerm.Lib.ParentLinks
import NiumaTerm.Lib.Transition

/-!
# Links of child threads

`CodexTasks` records the parent of each confirmed thread.  Following the links ends at the root as long
as no link closes a loop (`Tree`, `Grows`); `confirm` does not look whether a thread is its own ancestor,
and `child_of_itself` is what becomes of it.
-/

namespace NiumaTerm.Codex

open Rust Transition ParentLinks List

namespace CodexTasks

variable (t : CodexTasks)

/-! ## Collaboration items -/

/-- The names of the children that states are reported of. -/
def stateIds : Json → List Str
  | .object members => members.map fun member => member.1.toList
  | _ => []

/-- A tool call can report a state for a child it does not list as a receiver. -/
def receivers (item : Json) : List Str :=
  (stateIds (item.get "agentsStates")).foldl
    (fun receivers id => if id ∈ receivers then receivers else receivers ++ [id])
    (((item.get "receiverThreadIds").asArray.getD []).filterMap Json.asStr)

/-- The thread that issued the call. -/
def sender (item : Json) : Option Str := (item.get "senderThreadId").asStr.or t.root

def observeCollabToolCall (item : Json) : CodexTasks :=
  (receivers item).foldl (fun tasks id => (tasks.confirm id (t.sender item)).2) t

def observeSubagentActivity (item : Json) : CodexTasks :=
  match (item.get "agentThreadId").asStr.filter (· ≠ []) with
  | none => t
  | some id => (t.confirm id t.root).2

def observeParentItem (item : Json) : CodexTasks :=
  if (item.get "type").isText "collabAgentToolCall" then t.observeCollabToolCall item
  else if (item.get "type").isText "subAgentActivity" then t.observeSubagentActivity item
  else t

end CodexTasks

/-- What a session hands to its tasks. -/
inductive Observation
  | setRoot (threadId : Str)
  | parentItem (item : Json)
  | request (rpcId : ℕ) (cursor : Option Str)
  | descendants (rpcId : ℕ) (page : DescendantPage)
  | queryFailed (rpcId : ℕ)
  | notification (threadId method : Str) (params : Json)

namespace CodexTasks

variable (t : CodexTasks)

def observe : Observation → CodexTasks
  | .setRoot threadId => (t.setRoot threadId).2
  | .parentItem item => t.observeParentItem item
  | .request rpcId cursor => (t.descendantRequest rpcId cursor).2
  | .descendants rpcId page => (t.applyDescendants rpcId page).2
  | .queryFailed rpcId => t.failQuery rpcId
  | .notification _ _ _ => t

/-! ## The links that are named -/

/-- A thread with the parent that it is confirmed under. -/
abbrev Link := Str × Option Str

def confirmAll (links : List Link) : CodexTasks :=
  links.foldl (fun tasks link => (tasks.confirm link.1 link.2).2) t

def rowLink (root : Str) (thread : ThreadRow) : Option Link :=
  (thread.id.filter (· ≠ root)).map fun id => (id, (descendantParentId thread).or (some root))

def itemLinks (item : Json) : List Link :=
  if (item.get "type").isText "collabAgentToolCall" then
    (receivers item).map fun id => (id, t.sender item)
  else if (item.get "type").isText "subAgentActivity" then
    ((item.get "agentThreadId").asStr.filter (· ≠ [])).toList.map fun id => (id, t.root)
  else []

/-- The links that an observation names, in the order in which they are confirmed. -/
def links : Observation → List Link
  | .parentItem item => t.itemLinks item
  | .descendants rpcId page =>
    if rpcId ∈ t.queries then t.root.elim [] fun root => page.data.filterMap (rowLink root) else []
  | _ => []

/-- The recorded parent of a thread. -/
def parent (id : Str) : Option Str := t.parents.lookup id

/-- A link closes no loop: a thread is not put below itself, or below a thread that the recorded
links lead from to it. -/
def Grows (link : Link) : Prop :=
  ∀ root ∈ t.root, ∀ parent ∈ link.2, link.1 ≠ root → parent = root ∨ parent ∈ t.confirmed →
    ∀ path, Lineage t.parent parent path → link.1 ∉ path

/-- Links that close no loop, each after the ones before it. -/
def AllGrow (t : CodexTasks) : List Link → Prop
  | [] => True
  | link :: rest => t.Grows link ∧ AllGrow (t.confirm link.1 link.2).2 rest

/-- The links that an observation names close no loop.  The query of a page is taken out first. -/
def Extends (observation : Observation) : Prop :=
  match observation with
  | .descendants rpcId _ =>
    CodexTasks.AllGrow { t with queries := t.queries.erase rpcId } (t.links observation)
  | _ => t.AllGrow (t.links observation)

/-- **A tree.**  The links from a confirmed thread visit no thread twice and end at the root, or at
a confirmed thread without a link, and a row below a confirmed thread is taken. -/
structure Tree : Prop where
  lineage : ∀ id ∈ t.confirmed, ∃ path, Lineage t.parent id path ∧ path.Nodup ∧
    ∃ last, path.getLast? = some last ∧ t.parent last = none ∧
      (t.root = some last ∨ last ∈ t.confirmed)
  accepted : ∀ root, t.root = some root → ∀ id parent, id ≠ root →
    parent = root ∨ parent ∈ t.confirmed → (t.confirm id (some parent)).1 = true

end CodexTasks

def observations : System CodexTasks Observation where
  init t := t = .default
  step t observation t' := t' = t.observe observation

namespace CodexTasks

variable {t : CodexTasks} {root id parent : Str}

/-! ## The source's loops confirm the named links -/

theorem observeCollabToolCall_eq (t : CodexTasks) (item : Json) :
    t.observeCollabToolCall item =
      t.confirmAll ((receivers item).map fun id => (id, t.sender item)) := by
  rw [observeCollabToolCall, confirmAll, foldl_map]

theorem observeParentItem_eq (t : CodexTasks) (item : Json) :
    t.observeParentItem item = t.confirmAll (t.itemLinks item) := by
  rw [observeParentItem, itemLinks]
  split
  · exact observeCollabToolCall_eq t item
  · split
    · rw [observeSubagentActivity]
      cases (item.get "agentThreadId").asStr.filter (· ≠ []) <;> rfl
    · rfl

theorem foldl_applyRow_eq (root : Str) (rows : List ThreadRow) (t : CodexTasks) :
    rows.foldl (applyRow root) t = t.confirmAll (rows.filterMap (rowLink root)) := by
  rw [confirmAll, foldl_filterMap]
  refine foldl_ext _ _ _ fun tasks row _ => ?_
  rw [applyRow, rowLink]
  cases row.id.filter (· ≠ root) <;> rfl

/-! ## One link -/

inductive Confirmed (t : CodexTasks) (link : Link) : CodexTasks → Prop
  | refused : Confirmed t link t
  | unlinked (root : Str) (hroot : t.root = some root) (h : link.2 = none) :
    Confirmed t link { t with confirmed := t.confirmed.insert link.1 }
  | linked (root parent : Str) (hroot : t.root = some root) (hparent : link.2 = some parent)
    (hne : link.1 ≠ root) (hknown : parent = root ∨ parent ∈ t.confirmed) :
    Confirmed t link
      { t with
        parents := (link.1, parent) :: t.parents
        confirmed := t.confirmed.insert link.1 }

theorem confirmed_confirm (t : CodexTasks) (link : Link) :
    t.Confirmed link (t.confirm link.1 link.2).2 := by
  rw [confirm]
  split
  · exact .refused
  · next root hroot =>
    split
    · exact .refused
    next hne =>
    split
    · next hparent => exact .unlinked root hroot hparent
    · next parent hparent =>
      split
      · exact .refused
      next hknown =>
      split
      · exact .refused
      · refine .linked root parent hroot hparent hne ?_
        rw [not_and_or, not_not, not_not] at hknown
        exact hknown

theorem parent_link (t : CodexTasks) (id parent : Str) (confirmed : List Str) :
    CodexTasks.parent { t with parents := (id, parent) :: t.parents, confirmed } =
      Function.update t.parent id (some parent) := by
  funext other
  rw [CodexTasks.parent, Function.update_apply, lookup_cons]
  by_cases h : other = id
  · rw [if_pos h, beq_iff_eq.mpr h]
  · rw [if_neg h, beq_false_of_ne h]
    rfl

/-- The recorded links end, the root has none, and they name the root or confirmed threads; without
a root no thread is confirmed. -/
structure Linked (t : CodexTasks) : Prop where
  ends : Ends t.parent
  root : ∀ root ∈ t.root, t.parent root = none
  parents : ∀ id parent, t.parent id = some parent → t.root = some parent ∨ parent ∈ t.confirmed
  rootless : t.root = none → t.confirmed = []

theorem linked_of_empty (hparents : t.parents = []) (hconfirmed : t.confirmed = []) : t.Linked := by
  have hnone (id : Str) : t.parent id = none := by
    rw [CodexTasks.parent, hparents]
    rfl
  refine ⟨fun id => ⟨[id], .last (hnone id)⟩, fun _ _ => hnone _, fun id parent h => ?_,
    fun _ => hconfirmed⟩
  cases (hnone id).symm.trans h

theorem Linked.of_eq {t' : CodexTasks} (h : t.Linked) (hr : t'.root = t.root)
    (hp : t'.parents = t.parents) (hc : ∀ id ∈ t.confirmed, id ∈ t'.confirmed)
    (hrootless : t'.root = none → t'.confirmed = []) : t'.Linked := by
  have hparent : t'.parent = t.parent := by
    funext id
    rw [CodexTasks.parent, CodexTasks.parent, hp]
  refine ⟨hparent ▸ h.ends, fun root hroot => ?_, fun id parent hl => ?_, hrootless⟩
  · rw [hparent]
    exact h.root root (hr ▸ hroot)
  · rw [hparent] at hl
    rw [hr]
    exact (h.parents id parent hl).imp_right (hc parent)

theorem Linked.paged (h : t.Linked) (queries : List ℕ) (seenCursors : List Str) :
    Linked { t with queries, seenCursors } := h.of_eq rfl rfl (fun _ => id) h.rootless

theorem Linked.confirm (h : t.Linked) {link : Link} (hgrows : t.Grows link) :
    (t.confirm link.1 link.2).2.Linked := by
  have hconfirmed := confirmed_confirm t link
  generalize (t.confirm link.1 link.2).2 = t' at hconfirmed ⊢
  cases hconfirmed with
  | refused => exact h
  | unlinked root hroot =>
    exact h.of_eq rfl rfl (fun _ => mem_insert_of_mem) fun hr => (by cases hroot.symm.trans hr)
  | linked root parent hroot hparent hne hknown =>
    obtain ⟨path, hpath⟩ := h.ends parent
    have hmem := hgrows root hroot parent hparent hne hknown path hpath
    have hupdate := parent_link t link.1 parent (t.confirmed.insert link.1)
    refine ⟨?_, fun root' hroot' => ?_, fun id parent' hl => ?_, fun hr => ?_⟩
    · rw [hupdate]
      exact (ends_update_iff h.ends hpath).mpr hmem
    · obtain rfl : root = root' := Option.some.inj (hroot.symm.trans hroot')
      rw [hupdate, Function.update_of_ne (Ne.symm hne)]
      exact h.root root hroot
    · rw [hupdate, Function.update_apply] at hl
      split at hl
      · obtain rfl := Option.some.inj hl
        rcases hknown with rfl | hknown
        · exact .inl hroot
        · exact .inr (mem_insert_of_mem hknown)
      · exact (h.parents id parent' hl).imp_right mem_insert_of_mem
    · cases hroot.symm.trans hr

theorem Linked.confirmAll (h : t.Linked) {links : List Link} (hgrow : t.AllGrow links) :
    (t.confirmAll links).Linked := by
  induction links generalizing t with
  | nil => exact h
  | cons link rest ih => exact ih (h.confirm hgrow.1) hgrow.2

/-! ## The walk -/

/-- The walk up the links does not meet a thread again. -/
theorem walk_of_lineage {seen path : List Str} (h : Lineage t.parent id path)
    (hseen : ∀ other ∈ seen, other ∉ path)
    (hpath : ∀ other ∈ path, other = root ∨ other ∈ t.confirmed) :
    t.walk root seen id = true := by
  induction h generalizing seen with
  | @last id hnone =>
    have hmem : id ∈ [id] := mem_singleton_self id
    rw [walk]
    split
    · rfl
    next hne =>
    rw [dif_neg fun hs => hseen id hs hmem]
    split
    · next parent hp => cases hnone.symm.trans hp
    · exact decide_eq_true ((hpath id hmem).resolve_left hne)
  | @up id parent path hp hpath' ih =>
    rw [walk]
    split
    · rfl
    rw [dif_neg fun hs => hseen id hs mem_cons_self]
    split
    · next parent' hp' =>
      obtain rfl := Option.some.inj (hp.symm.trans hp')
      refine ih (fun other hs => ?_) fun other ho => hpath other (mem_cons_of_mem _ ho)
      rcases mem_cons.mp hs with rfl | hs
      · exact hpath'.not_mem hp
      · exact fun ho => hseen other hs (mem_cons_of_mem _ ho)
    · next hp' => cases hp.symm.trans hp'

/-- The root and the confirmed threads lead to each other. -/
theorem Linked.lineage (h : t.Linked) (hroot : t.root = some root)
    (hid : id = root ∨ id ∈ t.confirmed) :
    ∃ path, Lineage t.parent id path ∧ ∀ other ∈ path, other = root ∨ other ∈ t.confirmed := by
  obtain ⟨path, hpath⟩ := h.ends id
  refine ⟨path, hpath, hpath.forall_mem (fun a b _ hab => ?_) hid⟩
  rcases h.parents a b hab with hb | hb
  · exact .inl (Option.some.inj (hb.symm.trans hroot))
  · exact .inr hb

/-- A row below the root or a confirmed thread is taken. -/
theorem Linked.confirm_eq (h : t.Linked) (hroot : t.root = some root) (hne : id ≠ root)
    (hparent : parent = root ∨ parent ∈ t.confirmed) : t.confirm id (some parent) =
      (true, { t with
               parents := (id, parent) :: t.parents
               confirmed := t.confirmed.insert id }) := by
  obtain ⟨path, hpath, hmem⟩ := h.lineage hroot hparent
  have hwalk : t.chainReachesRoot parent root = true :=
    walk_of_lineage hpath (fun _ hs => (by cases hs)) hmem
  rw [CodexTasks.confirm, hroot]
  dsimp only
  rw [if_neg hne, if_neg (by rintro ⟨h₁, h₂⟩; exact hparent.elim h₁ h₂), if_neg (by simp [hwalk])]

theorem Linked.tree (h : t.Linked) : t.Tree := by
  refine ⟨fun id hid => ?_, fun root hroot id parent hne hparent => ?_⟩
  · cases hroot : t.root with
    | none =>
      rw [h.rootless hroot] at hid
      cases hid
    | some root =>
      obtain ⟨path, hpath, hmem⟩ := h.lineage hroot (.inr hid)
      obtain ⟨last, hlast, hl, hnone⟩ := hpath.exists_last
      exact ⟨path, hpath, hpath.nodup, last, hlast, hnone,
        (hmem last hl).imp_left fun he => congrArg some he.symm⟩
  · rw [h.confirm_eq hroot hne hparent]

/-- The walk from a thread that is its own parent does not reach the root. -/
theorem chainReachesRoot_self (hp : t.parent id = some id) (hne : id ≠ root) :
    t.chainReachesRoot id root = false := by
  have hstep (seen : List Str) (hs : id ∉ seen) :
      t.walk root seen id = t.walk root (id :: seen) id := by
    rw [walk, if_neg hne, dif_neg hs]
    split
    · next next' hp' => rw [Option.some.inj (hp'.symm.trans hp)]
    · next hp' => cases hp'.symm.trans hp
  rw [chainReachesRoot, hstep [] (by simp), walk, if_neg hne, dif_pos (mem_singleton_self _)]

/-! ## Runs -/

theorem Linked.setRoot (h : t.Linked) (threadId : Str) : (t.setRoot threadId).2.Linked := by
  rw [CodexTasks.setRoot]
  split
  · exact h
  · exact linked_of_empty rfl rfl

theorem Linked.descendantRequest (h : t.Linked) (rpcId : ℕ) (cursor : Option Str) :
    (t.descendantRequest rpcId cursor).2.Linked := by
  rw [CodexTasks.descendantRequest]
  split
  · exact h
  · dsimp only
    split <;> exact h.paged _ _

theorem Linked.applyDescendants (h : t.Linked) {rpcId : ℕ} {page : DescendantPage}
    (hextends : t.Extends (.descendants rpcId page)) :
    (t.applyDescendants rpcId page).2.Linked := by
  rw [CodexTasks.applyDescendants]
  split
  · exact h
  next hq =>
  have hquery : rpcId ∈ t.queries := not_not.mp hq
  have herased : Linked { t with queries := t.queries.erase rpcId } := h.paged _ _
  dsimp only
  split
  · exact herased
  next root hroot =>
  have hlinked : (CodexTasks.confirmAll { t with queries := t.queries.erase rpcId }
      (page.data.filterMap (rowLink root))).Linked := by
    refine herased.confirmAll ?_
    simpa [CodexTasks.Extends, CodexTasks.links, hquery, hroot] using hextends
  rw [foldl_applyRow_eq]
  split
  · exact hlinked
  · split
    · exact hlinked
    · exact hlinked.paged _ _

theorem Linked.observe (h : t.Linked) {observation : Observation}
    (hextends : t.Extends observation) : (t.observe observation).Linked := by
  cases observation with
  | setRoot threadId => exact h.setRoot threadId
  | parentItem item =>
    change (t.observeParentItem item).Linked
    rw [observeParentItem_eq]
    exact h.confirmAll hextends
  | request rpcId cursor => exact h.descendantRequest rpcId cursor
  | descendants rpcId page => exact h.applyDescendants hextends
  | queryFailed rpcId => exact h.paged _ _
  | notification => exact h

end CodexTasks

/-- **The links of the child threads are a tree**, in every run in which no link closes a loop. -/
theorem child_links_tree {labels : List Observation} {t : CodexTasks}
    (h : Run (observations.restrict CodexTasks.Extends) labels t) : t.Tree := by
  refine (h.invariant (I := CodexTasks.Linked) ?_ ?_).tree
  · rintro t rfl
    exact CodexTasks.linked_of_empty rfl rfl
  · rintro t observation _ hlinked ⟨hextends, rfl⟩
    exact hlinked.observe hextends

/-! ## Spawned threads -/

/-- A thread spawns another one. -/
def spawnItem (sender receiver : String) : Json :=
  .object [("type", .text "collabAgentToolCall"), ("tool", .text "spawnAgent"),
    ("senderThreadId", .text sender), ("receiverThreadIds", .array [.text receiver]),
    ("agentsStates", .object [(receiver, .object [("status", .text "running")])])]

namespace CodexTasks

theorem itemLinks_spawnItem (t : CodexTasks) (sender receiver : String) :
    t.itemLinks (spawnItem sender receiver) = [(receiver.toList, some sender.toList)] := by
  simp [itemLinks, spawnItem, Json.isText, receivers, stateIds, Json.asArray, Json.text, Json.asStr,
    CodexTasks.sender]

theorem observe_spawnItem (t : CodexTasks) (sender receiver : String) :
    t.observe (.parentItem (spawnItem sender receiver)) =
      (t.confirm receiver.toList (some sender.toList)).2 := by
  rw [observe, observeParentItem_eq, itemLinks_spawnItem]
  rfl

theorem extends_spawnItem {t : CodexTasks} {sender receiver : String} {path : List Str}
    (hpath : Lineage t.parent sender.toList path) (hmem : receiver.toList ∉ path) :
    t.Extends (.parentItem (spawnItem sender receiver)) := by
  change t.AllGrow (t.itemLinks _)
  rw [itemLinks_spawnItem]
  refine ⟨?_, trivial⟩
  rintro root - parent hparent - - path' hpath'
  obtain rfl := Option.some.inj hparent
  rwa [← hpath.unique hpath']

/-- A session whose root has no children. -/
def rooted : CodexTasks := { CodexTasks.default with root := some "root".toList }

/-- A session whose root has spawned a child. -/
def spawned : CodexTasks :=
  { rooted with
    confirmed := ["child".toList]
    parents := [("child".toList, "root".toList)] }

theorem rooted_linked : rooted.Linked := linked_of_empty rfl rfl

theorem rooted_observe : rooted.observe (.parentItem (spawnItem "root" "child")) = spawned := by
  rw [observe_spawnItem, rooted_linked.confirm_eq rfl (by decide) (.inl rfl)]
  rfl

theorem rooted_extends : rooted.Extends (.parentItem (spawnItem "root" "child")) :=
  extends_spawnItem (.last rfl) (by decide)

theorem spawned_linked : spawned.Linked := rooted_observe ▸ rooted_linked.observe rooted_extends

/-- The child has named itself as a receiver. -/
def looped : CodexTasks :=
  { spawned with parents := ("child".toList, "child".toList) :: spawned.parents }

theorem spawned_observe : spawned.observe (.parentItem (spawnItem "child" "child")) = looped := by
  have hknown : "child".toList ∈ spawned.confirmed := mem_singleton_self _
  rw [observe_spawnItem, spawned_linked.confirm_eq rfl (by decide) (.inr hknown)]
  rfl

theorem spawned_run : Run (observations.restrict Extends)
    [.setRoot "root".toList, .parentItem (spawnItem "root" "child")] spawned := by
  have hinit : Run (observations.restrict Extends) [] .default := .init rfl
  have hrooted : Run (observations.restrict Extends) [.setRoot "root".toList] rooted :=
    hinit.step ⟨trivial, rfl⟩
  exact hrooted.step ⟨rooted_extends, rooted_observe.symm⟩

end CodexTasks

/-- The child spawns a thread of its own. -/
theorem child_links_tree_grandchild :
    (CodexTasks.spawned.observe (.parentItem (spawnItem "child" "grandchild"))).Tree := by
  have hlineage : Lineage CodexTasks.spawned.parent "child".toList
      ["child".toList, "root".toList] := .up rfl (.last rfl)
  exact child_links_tree (CodexTasks.spawned_run.step
    ⟨CodexTasks.extends_spawnItem hlineage (by decide), rfl⟩)

/-- The child names itself as a receiver.  Its links then lead nowhere, and the next thread that it
spawns is refused. -/
theorem child_of_itself : ∃ labels t, Run observations labels t ∧ "child".toList ∈ t.confirmed ∧
    (∀ path, ¬ Lineage t.parent "child".toList path) ∧
    (t.confirm "grandchild".toList (some "child".toList)).1 = false := by
  have hself : CodexTasks.looped.parent "child".toList = some "child".toList := rfl
  refine ⟨_, CodexTasks.looped, CodexTasks.spawned_run.of_restrict.step
    CodexTasks.spawned_observe.symm, mem_singleton_self _, fun path hpath ↦ ?_, ?_⟩
  · exact hpath.not_mem hself hpath.head_mem
  · have hwalk : CodexTasks.looped.chainReachesRoot "child".toList "root".toList = false :=
      CodexTasks.chainReachesRoot_self hself (by decide)
    have hroot : CodexTasks.looped.root = some "root".toList := rfl
    have hknown : "child".toList ∈ CodexTasks.looped.confirmed := mem_singleton_self _
    rw [CodexTasks.confirm, hroot]
    dsimp only
    rw [if_neg (by decide), if_neg fun h ↦ h.2 hknown, if_pos (by rw [hwalk]; rfl)]

end NiumaTerm.Codex
