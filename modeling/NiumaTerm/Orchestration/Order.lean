import Mathlib.Data.List.GetD
import Mathlib.Data.List.Range
import Mathlib.Data.Finset.Card
import NiumaTerm.Lib.Precedence

/-!
# The order of the nodes

`topologicalOrder` is Kahn's algorithm over node indices.  When some nodes can never be taken, it follows
dependencies among them until it comes back to one of them, and returns that cycle.  `Kahn.Inv` is what
the loop preserves.
-/

namespace NiumaTerm.Orchestration

open Precedence List

/-- The dependencies of `node`. -/
def needsOf (needs : List (List ℕ)) (node : ℕ) : List ℕ := needs.getD node []

/-- `dependency` is one of the dependencies of `node`. -/
def DependsOn (needs : List (List ℕ)) (dependency node : ℕ) : Prop :=
  dependency ∈ needsOf needs node

/-- Dependency lists name nodes, each at most once. -/
structure ValidNeeds (needs : List (List ℕ)) : Prop where
  lt : ∀ {node dependency}, DependsOn needs dependency node → dependency < needs.length
  nodup : ∀ node, (needsOf needs node).Nodup

theorem DependsOn.node_lt {needs : List (List ℕ)} {dependency node : ℕ}
    (h : DependsOn needs dependency node) : node < needs.length := by
  by_contra hn
  rw [DependsOn, needsOf, getD_eq_default _ _ (by omega)] at h
  simp at h

/-! ## The loop -/

/-- What the loop of `topological_order` holds: how many dependencies of each node are still to be
taken, which nodes were taken, and in which order. -/
structure Kahn where
  waiting : List ℕ
  done : List Bool
  order : List ℕ

namespace Kahn

def start (needs : List (List ℕ)) : Kahn where
  waiting := needs.map List.length
  done := replicate needs.length false
  order := []

def isDone (k : Kahn) (node : ℕ) : Bool := k.done.getD node false

/-- The earliest node that is not done and waits for nothing. -/
def next (k : Kahn) : Option ℕ :=
  (List.range k.done.length).find? fun node => !k.isDone node && k.waiting.getD node 0 == 0

/-- One round of the loop. -/
def take (needs : List (List ℕ)) (k : Kahn) (next : ℕ) : Kahn where
  waiting := List.zipWith
    (fun dependencies waiting => if next ∈ dependencies then waiting - 1 else waiting)
    needs k.waiting
  done := k.done.set next true
  order := k.order ++ [next]

/-- The rounds of the loop.  There is at most one for each node (`run_next`). -/
def run (needs : List (List ℕ)) : ℕ → Kahn → Kahn
  | 0, k => k
  | fuel + 1, k =>
    match k.next with
    | some node => run needs fuel (k.take needs node)
    | none => k

end Kahn

/-- Follow, from the last node of `path`, the first dependency that is not done, until the path
meets itself.  The path never holds a node twice, so a `fuel` of the number of nodes is enough. -/
def followCycle (needs : List (List ℕ)) (k : Kahn) (start : ℕ) : ℕ → List ℕ → List ℕ
  | 0, path => path
  | fuel + 1, path =>
    let current := path.getLast?.getD start
    let next := ((needsOf needs current).find? fun dependency => !k.isDone dependency).getD start
    match path.idxOf? next with
    | some position => path.drop position
    | none => followCycle needs k start fuel (path ++ [next])

/-- Kahn's algorithm, always taking the earliest ready node.  On a cycle, the cycle. -/
def topologicalOrder (needs : List (List ℕ)) : Except (List ℕ) (List ℕ) :=
  let k := Kahn.run needs needs.length (Kahn.start needs)
  if k.order.length = needs.length then .ok k.order
  else
    let start := ((List.range needs.length).find? fun node => !k.isDone node).getD 0
    .error (followCycle needs k start needs.length [start])

/-! ## What the loop preserves -/

section Kahn

variable {needs : List (List ℕ)} {k : Kahn} {node : ℕ}

/-- The dependencies of `node` that are not done. -/
def Kahn.missing (needs : List (List ℕ)) (k : Kahn) (node : ℕ) : List ℕ :=
  (needsOf needs node).filter fun dependency => dependency ∉ k.order

/-- The invariant of the loop. -/
structure Kahn.Inv (needs : List (List ℕ)) (k : Kahn) : Prop where
  waiting_length : k.waiting.length = needs.length
  done_length : k.done.length = needs.length
  isDone_iff : ∀ node, k.isDone node = true ↔ node ∈ k.order
  lt : ∀ node ∈ k.order, node < needs.length
  nodup : k.order.Nodup
  waiting : ∀ node < needs.length, k.waiting.getD node 0 = (k.missing needs node).length
  ordered : Ordered (DependsOn needs) k.order

theorem Kahn.inv_start (needs : List (List ℕ)) : (Kahn.start needs).Inv needs where
  waiting_length := by simp [start]
  done_length := by simp [start]
  isDone_iff node := by
    simp only [isDone, start, getD_eq_getElem?_getD, getElem?_replicate]
    split <;> simp
  lt := by simp [start]
  nodup := nodup_nil
  waiting node hn := by
    simp [start, missing, needsOf, getD_eq_getElem?_getD, hn]
  ordered := ordered_nil

theorem Kahn.next_eq_some (h : k.Inv needs) (hn : k.next = some node) :
    node < needs.length ∧ node ∉ k.order ∧ k.missing needs node = [] := by
  have hlt : node < needs.length := by
    have := mem_of_find?_eq_some hn
    rwa [mem_range, h.done_length] at this
  have hp := find?_some hn
  rw [Bool.and_eq_true, Bool.not_eq_true', beq_iff_eq, h.waiting node hlt] at hp
  refine ⟨hlt, fun hm => ?_, length_eq_zero_iff.mp hp.2⟩
  rw [(h.isDone_iff node).mpr hm] at hp
  simp at hp

theorem Kahn.next_eq_none (h : k.Inv needs) (hn : k.next = none) (hlt : node < needs.length)
    (hm : node ∉ k.order) : k.missing needs node ≠ [] := by
  rw [next, find?_eq_none] at hn
  have hp := hn node (by rwa [mem_range, h.done_length])
  rw [Bool.and_eq_true, Bool.not_eq_true', beq_iff_eq, h.waiting node hlt] at hp
  have hd : k.isDone node = false := by
    rw [← Bool.not_eq_true, h.isDone_iff]
    exact hm
  intro he
  exact hp ⟨hd, by rw [he]; rfl⟩

/-- Taking a node lowers the count of exactly the nodes that depend on it. -/
theorem Kahn.missing_take (hv : ValidNeeds needs) (hm : node ∉ k.order) (other : ℕ) :
    ((k.take needs node).missing needs other).length
      = if node ∈ needsOf needs other then (k.missing needs other).length - 1
        else (k.missing needs other).length := by
  have hfilter : (k.take needs node).missing needs other = (k.missing needs other).erase node := by
    have hnd : (k.missing needs other).Nodup := (hv.nodup other).filter _
    rw [hnd.erase_eq_filter, missing, missing, filter_filter]
    refine filter_congr fun dependency _ => ?_
    by_cases hd : dependency = node <;> simp [take, hd]
  rw [hfilter, length_erase]
  have hmem : node ∈ k.missing needs other ↔ node ∈ needsOf needs other := by
    simp [missing, hm]
  simp only [hmem]

/-- **One round keeps the invariant.** -/
theorem Kahn.Inv.take (h : k.Inv needs) (hv : ValidNeeds needs) (hn : k.next = some node) :
    (k.take needs node).Inv needs := by
  obtain ⟨hlt, hm, hmissing⟩ := Kahn.next_eq_some h hn
  have hneeds : ∀ dependency, DependsOn needs dependency node → dependency ∈ k.order := by
    intro dependency hd
    by_contra hdone
    have : dependency ∈ k.missing needs node := mem_filter.mpr ⟨hd, by simpa using hdone⟩
    rw [hmissing] at this
    simp at this
  constructor
  · simp [Kahn.take, h.waiting_length]
  · simp [Kahn.take, h.done_length]
  · intro other
    rw [Kahn.isDone, Kahn.take, getD_eq_getElem?_getD, getElem?_set]
    by_cases he : node = other
    · subst he
      simp [h.done_length, hlt]
    · rw [if_neg he, ← getD_eq_getElem?_getD]
      have := h.isDone_iff other
      rw [Kahn.isDone] at this
      rw [this]
      simp [Ne.symm he]
  · intro other ho
    rcases mem_append.mp ho with ho | ho
    · exact h.lt other ho
    · rw [mem_singleton.mp ho]
      exact hlt
  · exact nodup_append.mpr ⟨h.nodup, nodup_singleton node, by
      rintro a ha b hb rfl
      exact hm (by rwa [mem_singleton.mp hb] at ha)⟩
  · intro other ho
    have hw := h.waiting other ho
    rw [Kahn.missing_take hv hm, Kahn.take, getD_eq_getElem?_getD, getElem?_zipWith, ← hw]
    have h1 : needs[other]? = some (needsOf needs other) := by
      rw [getElem?_eq_getElem ho, needsOf, getD_eq_getElem _ _ ho]
    have h2 : k.waiting[other]? = some (k.waiting.getD other 0) := by
      rw [getElem?_eq_getElem (by rw [h.waiting_length]; exact ho),
        getD_eq_getElem _ _ (by rw [h.waiting_length]; exact ho)]
    simp only [h1, h2, Option.getD_some]
  · exact h.ordered.concat hneeds

theorem Kahn.Inv.run (h : k.Inv needs) (hv : ValidNeeds needs) (fuel : ℕ) :
    (Kahn.run needs fuel k).Inv needs := by
  induction fuel generalizing k with
  | zero => exact h
  | succ fuel ih =>
    rw [Kahn.run]
    split
    · next node hn => exact ih (h.take hv hn)
    · exact h

theorem Kahn.Inv.length_le (h : k.Inv needs) : k.order.length ≤ needs.length := by
  have hsub : k.order ⊆ List.range needs.length := fun node hn => mem_range.mpr (h.lt node hn)
  simpa using (subperm_of_subset h.nodup hsub).length_le

theorem Kahn.Inv.mem_of_length (h : k.Inv needs) (hl : needs.length ≤ k.order.length)
    (hlt : node < needs.length) : node ∈ k.order := by
  have hsub : k.order ⊆ List.range needs.length := fun node hn => mem_range.mpr (h.lt node hn)
  have hperm := (subperm_of_subset h.nodup hsub).perm_of_length_le (by simpa using hl)
  exact hperm.mem_iff.mpr (mem_range.mpr hlt)

/-- With a round left for every node not yet taken, the loop runs until it finds none. -/
theorem Kahn.run_next (hv : ValidNeeds needs) (fuel : ℕ) (h : k.Inv needs)
    (hf : needs.length ≤ k.order.length + fuel) : (Kahn.run needs fuel k).next = none := by
  induction fuel generalizing k with
  | zero =>
    rw [Kahn.run]
    cases hn : k.next with
    | none => rfl
    | some node =>
      obtain ⟨hlt, hm, -⟩ := Kahn.next_eq_some h hn
      exact absurd (h.mem_of_length hf hlt) hm
  | succ fuel ih =>
    rw [Kahn.run]
    split
    · next node hn =>
      refine ih (h.take hv hn) ?_
      simp only [Kahn.take, length_append, length_singleton]
      omega
    · assumption

/-! ## The cycle -/

/-- A node that is not done has a dependency that is not done either. -/
theorem Kahn.exists_missing (h : k.Inv needs) (hn : k.next = none) (hlt : node < needs.length)
    (hm : node ∉ k.order) : ∃ dependency,
      (needsOf needs node).find? (fun dependency => !k.isDone dependency) = some dependency ∧
      DependsOn needs dependency node ∧ dependency ∉ k.order := by
  obtain ⟨d, hd⟩ := exists_mem_of_ne_nil _ (Kahn.next_eq_none h hn hlt hm)
  obtain ⟨hd, hdo⟩ := mem_filter.mp hd
  have hdone : ∀ other, k.isDone other = false ↔ other ∉ k.order := fun other => by
    rw [← Bool.not_eq_true, h.isDone_iff]
  have hsome : ((needsOf needs node).find? fun dependency => !k.isDone dependency).isSome := by
    rw [find?_isSome]
    exact ⟨d, hd, by simpa [hdone] using hdo⟩
  obtain ⟨dependency, hf⟩ := Option.isSome_iff_exists.mp hsome
  refine ⟨dependency, hf, mem_of_find?_eq_some hf, ?_⟩
  have := find?_some hf
  rwa [Bool.not_eq_true', hdone] at this

/-- The path of `followCycle`: nodes that are not done, none twice, each followed by one of its
dependencies. -/
structure CyclePath (needs : List (List ℕ)) (k : Kahn) (path : List ℕ) : Prop where
  ne_nil : path ≠ []
  lt : ∀ node ∈ path, node < needs.length
  not_done : ∀ node ∈ path, node ∉ k.order
  nodup : path.Nodup
  chain : path.IsChain fun x y => DependsOn needs y x

theorem CyclePath.length_le {path : List ℕ} (h : CyclePath needs k path) :
    path.length ≤ needs.length := by
  have hsub : path ⊆ List.range needs.length := fun node hn => mem_range.mpr (h.lt node hn)
  simpa using (subperm_of_subset h.nodup hsub).length_le

/-- A dependency of the last node continues the path. -/
theorem CyclePath.concat {path : List ℕ} {next : ℕ} (hv : ValidNeeds needs)
    (hp : CyclePath needs k path) (hdep : DependsOn needs next (path.getLast hp.ne_nil))
    (hnext : next ∉ k.order) (hnew : next ∉ path) : CyclePath needs k (path ++ [next]) := by
  refine ⟨by simp, ?_, ?_, ?_, ?_⟩
  · intro node hm
    rcases mem_append.mp hm with hm | hm
    · exact hp.lt node hm
    · rw [mem_singleton.mp hm]
      exact hv.lt hdep
  · intro node hm
    rcases mem_append.mp hm with hm | hm
    · exact hp.not_done node hm
    · rw [mem_singleton.mp hm]
      exact hnext
  · exact nodup_append.mpr ⟨hp.nodup, nodup_singleton next, by
      rintro a ha b hb rfl
      exact hnew (by rwa [mem_singleton.mp hb] at ha)⟩
  · refine isChain_append.mpr ⟨hp.chain, isChain_singleton next, ?_⟩
    intro x hx y hy
    rw [getLast?_eq_some_getLast hp.ne_nil, Option.mem_def, Option.some.injEq] at hx
    rw [head?_cons, Option.mem_def, Option.some.injEq] at hy
    subst hx hy
    exact hdep

/-- What the walk does at the end of a path: it meets the path, or continues it. -/
theorem CyclePath.next (hv : ValidNeeds needs) (h : k.Inv needs) (hn : k.next = none)
    {path : List ℕ} (hp : CyclePath needs k path) (start : ℕ) :
    ∃ next, DependsOn needs next (path.getLast hp.ne_nil) ∧
      ((needsOf needs (path.getLast?.getD start)).find?
        fun dependency => !k.isDone dependency).getD start = next ∧
      (path.idxOf? next = none → CyclePath needs k (path ++ [next])) := by
  have hlast := getLast_mem hp.ne_nil
  obtain ⟨next, hfind, hdep, hnext⟩ :=
    Kahn.exists_missing h hn (hp.lt _ hlast) (hp.not_done _ hlast)
  refine ⟨next, hdep, ?_, fun hpos => hp.concat hv hdep hnext fun hm => ?_⟩
  · rw [getLast?_eq_some_getLast hp.ne_nil, Option.getD_some, hfind, Option.getD_some]
  · simp [idxOf?_eq_none_iff] at hpos
    exact hpos hm

/-- **Following dependencies finds a cycle.** -/
theorem followCycle_isCycle (hv : ValidNeeds needs) (h : k.Inv needs) (hn : k.next = none)
    (start fuel : ℕ) (path : List ℕ) (hp : CyclePath needs k path)
    (hf : needs.length < path.length + fuel) :
    IsCycle (DependsOn needs) (followCycle needs k start fuel path) := by
  induction fuel generalizing path with
  | zero => exact absurd hp.length_le (by omega)
  | succ fuel ih =>
    obtain ⟨next, hdep, hfind, hconcat⟩ := hp.next hv h hn start
    rw [followCycle]
    simp only [hfind]
    split
    · next position hpos =>
      obtain ⟨hi, hnone⟩ := idxOf?_eq_some_iff.mp hpos
      have hdrop : path.drop position = next :: path.drop (position + 1) := by
        rw [drop_eq_getElem_cons hi]
        simp [hnone.1]
      refine ⟨next, path.drop (position + 1), hdrop, ?_, ?_⟩
      · rw [← hdrop]
        exact hp.chain.suffix (drop_suffix position path)
      · have hl : (next :: path.drop (position + 1)).getLast (by simp) = path.getLast hp.ne_nil := by
          simp only [← hdrop]
          rw [getLast_drop]
        rw [hl]
        exact hdep
    · next hpos => exact ih (path ++ [next]) (hconcat hpos) (by simp; omega)

/-! ## The answer -/

/-- An order of all nodes that follows their dependencies. -/
structure IsOrder (needs : List (List ℕ)) (order : List ℕ) : Prop where
  mem_iff : ∀ node, node ∈ order ↔ node < needs.length
  nodup : order.Nodup
  ordered : Ordered (DependsOn needs) order

/-- When the loop left a node, the walk starts at one. -/
theorem Kahn.exists_start (h : k.Inv needs) (hl : k.order.length ≠ needs.length) :
    CyclePath needs k [((List.range needs.length).find? fun node => !k.isDone node).getD 0] := by
  cases hf : (List.range needs.length).find? fun node => !k.isDone node with
  | some start =>
    have hlt := mem_range.mp (mem_of_find?_eq_some hf)
    have hm : start ∉ k.order := by
      rw [← h.isDone_iff]
      simpa using find?_some hf
    exact ⟨by simp, by simpa using hlt, by simpa using hm, nodup_singleton start,
      isChain_singleton start⟩
  | none =>
    rw [find?_eq_none] at hf
    have hsub : List.range needs.length ⊆ k.order := fun node hr => by
      rw [← h.isDone_iff]
      simpa using hf node hr
    have := (subperm_of_subset nodup_range hsub).length_le
    rw [length_range] at this
    exact absurd (Nat.le_antisymm h.length_le this) hl

/-- **The answer of `topologicalOrder`**: an order of all nodes, or a cycle. -/
theorem topologicalOrder_spec (hv : ValidNeeds needs) :
    match topologicalOrder needs with
    | .ok order => IsOrder needs order
    | .error cycle => IsCycle (DependsOn needs) cycle := by
  have h := (Kahn.inv_start needs).run hv needs.length
  have hn := Kahn.run_next hv needs.length (Kahn.inv_start needs) (by simp [Kahn.start])
  rw [topologicalOrder]
  split
  · next order ho =>
    simp only at ho
    split at ho
    · next hl =>
      cases ho
      exact ⟨fun node => ⟨h.lt node, h.mem_of_length hl.ge⟩, h.nodup, h.ordered⟩
    · cases ho
  · next cycle hc =>
    simp only at hc
    split at hc
    · cases hc
    · next hl =>
      cases hc
      exact followCycle_isCycle hv h hn _ _ _ (Kahn.exists_start h hl) (by simp)

end Kahn

/-- An order exists exactly when no node depends on itself. -/
theorem topologicalOrder_ok {needs : List (List ℕ)} (hv : ValidNeeds needs)
    (ha : ∀ node, ¬ Relation.TransGen (DependsOn needs) node node) :
    ∃ order, topologicalOrder needs = .ok order ∧ IsOrder needs order := by
  have h := topologicalOrder_spec hv
  cases ht : topologicalOrder needs with
  | ok order =>
    rw [ht] at h
    exact ⟨order, rfl, h⟩
  | error cycle =>
    rw [ht] at h
    obtain ⟨node, -, hn⟩ := h.transGen
    exact absurd hn (ha node)

theorem IsOrder.wellFounded {needs : List (List ℕ)} {order : List ℕ} (h : IsOrder needs order) :
    WellFounded (DependsOn needs) := by
  refine ⟨fun node => ?_⟩
  by_cases hn : node < needs.length
  · exact h.ordered.acc node ((h.mem_iff node).mpr hn)
  · exact Acc.intro _ fun dependency hd => absurd hd.node_lt hn

end NiumaTerm.Orchestration
