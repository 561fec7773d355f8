import NiumaTerm.Orchestration.Order

/-!
# The two loops of the topological order, checked

`topologicalOrderWithin` is `topologicalOrder` with no answer where a loop takes more than `rounds`
rounds or a counter is lowered at zero.  Neither happens, and the answer is `Ok` exactly for acyclic
dependencies (`topologicalOrder_exact`).
-/

namespace NiumaTerm.Orchestration

open Precedence Relation List

variable {needs : List (List ℕ)} {k : Kahn} {node : ℕ}

/-- `waiting[node] -= 1` for a node that depends on `next`. -/
def lower (next : ℕ) (dependencies : List ℕ) (waiting : ℕ) : Option ℕ :=
  if next ∈ dependencies then if waiting = 0 then none else some (waiting - 1) else some waiting

/-- `lower` for every node. -/
def lowerAll (next : ℕ) : List (List ℕ) → List ℕ → Option (List ℕ)
  | dependencies :: needs, waiting :: rest => do
    return (← lower next dependencies waiting) :: (← lowerAll next needs rest)
  | _, _ => some []

/-- One round of the first loop. -/
def Kahn.takeChecked (needs : List (List ℕ)) (k : Kahn) (next : ℕ) : Option Kahn :=
  (lowerAll next needs k.waiting).map fun waiting =>
    { waiting, done := k.done.set next true, order := k.order ++ [next] }

/-- The first loop. -/
def Kahn.loopWithin (needs : List (List ℕ)) : ℕ → Kahn → Option Kahn
  | 0, k => if k.next.isNone then some k else none
  | rounds + 1, k =>
    match k.next with
    | none => some k
    | some node => (k.takeChecked needs node).bind (loopWithin needs rounds)

/-- The walk along dependencies that are not done. -/
def followWithin (needs : List (List ℕ)) (k : Kahn) (start : ℕ) : ℕ → List ℕ → Option (List ℕ)
  | 0, _ => none
  | rounds + 1, path =>
    let current := path.getLast?.getD start
    let next := ((needsOf needs current).find? fun dependency => !k.isDone dependency).getD start
    match path.idxOf? next with
    | some position => some (path.drop position)
    | none => followWithin needs k start rounds (path ++ [next])

/-- `topological_order`, where each loop has at most so many rounds. -/
def topologicalOrderWithin (rounds : ℕ) (needs : List (List ℕ)) :
    Option (Except (List ℕ) (List ℕ)) := do
  let k ← Kahn.loopWithin needs rounds (Kahn.start needs)
  if k.order.length = needs.length then return .ok k.order
  else
    let start := ((List.range needs.length).find? fun node => !k.isDone node).getD 0
    return .error (← followWithin needs k start rounds [start])

/-! ## The counters -/

/-- The counter of a node that depends on one that is not done is not zero. -/
theorem Kahn.Inv.waiting_pos (h : k.Inv needs) {other : ℕ} (hdep : DependsOn needs node other)
    (hm : node ∉ k.order) : k.waiting.getD other 0 ≠ 0 := by
  rw [h.waiting other hdep.node_lt]
  have hmem : node ∈ k.missing needs other := mem_filter.mpr ⟨hdep, by simpa using hm⟩
  exact (length_pos_of_mem hmem).ne'

theorem lowerAll_eq {next : ℕ} {needs : List (List ℕ)} {waiting : List ℕ}
    (hpos : ∀ other, next ∈ needsOf needs other → waiting.getD other 0 ≠ 0) :
    lowerAll next needs waiting = some (List.zipWith
      (fun dependencies waiting => if next ∈ dependencies then waiting - 1 else waiting)
      needs waiting) := by
  induction needs generalizing waiting with
  | nil => rfl
  | cons dependencies needs ih =>
    cases waiting with
    | nil => rfl
    | cons count rest =>
      have hhead : lower next dependencies count =
          some (if next ∈ dependencies then count - 1 else count) := by
        rw [lower]
        split
        · next hmem => exact if_neg (hpos 0 hmem)
        · rfl
      rw [lowerAll, hhead, ih fun other hother => hpos (other + 1) hother]
      rfl

/-- **No counter underflows** in a round. -/
theorem Kahn.Inv.takeChecked (h : k.Inv needs) (hn : k.next = some node) :
    k.takeChecked needs node = some (k.take needs node) := by
  obtain ⟨-, hm, -⟩ := Kahn.next_eq_some h hn
  rw [Kahn.takeChecked, lowerAll_eq fun other hdep => h.waiting_pos hdep hm]
  rfl

/-! ## The rounds -/

/-- **The first loop ends,** after at most one round for each node that is not done yet. -/
theorem Kahn.loopWithin_eq (hv : ValidNeeds needs) (rounds fuel : ℕ) (h : k.Inv needs)
    (hr : needs.length ≤ k.order.length + rounds) (hf : needs.length ≤ k.order.length + fuel) :
    k.loopWithin needs rounds = some (Kahn.run needs fuel k) := by
  induction rounds generalizing k fuel with
  | zero =>
    have hnone : k.next = none := Kahn.run_next hv 0 h hr
    rw [loopWithin, hnone, Option.isNone_none, if_pos rfl]
    cases fuel with
    | zero => rfl
    | succ fuel => rw [run, hnone]
  | succ rounds ih =>
    rw [loopWithin]
    cases hn : k.next with
    | none =>
      cases fuel with
      | zero => rfl
      | succ fuel => rw [run, hn]
    | some node =>
      cases fuel with
      | zero =>
        obtain ⟨hlt, hm, -⟩ := Kahn.next_eq_some h hn
        exact absurd (h.mem_of_length hf hlt) hm
      | succ fuel =>
        rw [run, hn]
        dsimp only
        rw [h.takeChecked hn, Option.bind_some]
        refine ih fuel (h.take hv hn) ?_ ?_ <;>
          simp only [Kahn.take, length_append, length_singleton] <;> omega

/-- **The walk ends,** since its path never holds a node twice, and what it returns is a part of
such a path. -/
theorem followWithin_eq (hv : ValidNeeds needs) (h : k.Inv needs) (hn : k.next = none)
    (start rounds fuel : ℕ) (path : List ℕ) (hp : CyclePath needs k path)
    (hr : needs.length < path.length + rounds) (hf : needs.length < path.length + fuel) :
    followWithin needs k start rounds path = some (followCycle needs k start fuel path) ∧
      (followCycle needs k start fuel path).Nodup := by
  induction rounds generalizing path fuel with
  | zero => exact absurd hp.length_le (by omega)
  | succ rounds ih =>
    cases fuel with
    | zero => exact absurd hp.length_le (by omega)
    | succ fuel =>
      obtain ⟨next, -, hfind, hconcat⟩ := hp.next hv h hn start
      rw [followWithin, followCycle]
      simp only [hfind]
      cases hpos : path.idxOf? next with
      | some position => exact ⟨rfl, (drop_sublist position path).nodup hp.nodup⟩
      | none =>
        exact ih fuel (path ++ [next]) (hconcat hpos) (by simp; omega) (by simp; omega)

theorem walk_eq (hv : ValidNeeds needs) (h : k.Inv needs) (hn : k.next = none)
    (hl : k.order.length ≠ needs.length) {rounds : ℕ} (hr : needs.length ≤ rounds) :
    let start := ((List.range needs.length).find? fun node => !k.isDone node).getD 0
    followWithin needs k start rounds [start] =
        some (followCycle needs k start needs.length [start]) ∧
      (followCycle needs k start needs.length [start]).Nodup := by
  refine followWithin_eq hv h hn _ rounds needs.length _ (Kahn.exists_start h hl) ?_ ?_
  · rw [length_singleton]
    omega
  · rw [length_singleton]
    omega

/-! ## The answer -/

/-- **The cycle finder.**  Both loops end within the number of nodes and no counter underflows; the
answer is `Ok` exactly if no node depends on itself, and else a cycle that holds no node twice. -/
theorem topologicalOrder_exact (hv : ValidNeeds needs) : ∃ answer,
    (∀ rounds ≥ needs.length, topologicalOrderWithin rounds needs = some answer) ∧
    ((∃ order, answer = .ok order) ↔ ∀ node, ¬ TransGen (DependsOn needs) node node) ∧
    ∀ cycle, answer = .error cycle → cycle.Nodup ∧ IsCycle (DependsOn needs) cycle := by
  have h := (Kahn.inv_start needs).run hv needs.length
  have hn := Kahn.run_next hv needs.length (Kahn.inv_start needs) (by simp [Kahn.start])
  have hspec := topologicalOrder_spec hv
  refine ⟨topologicalOrder needs, fun rounds hr ↦ ?_, ⟨?_, fun ha ↦ ?_⟩, fun cycle hc ↦ ?_⟩
  · rw [topologicalOrderWithin, Kahn.loopWithin_eq hv rounds needs.length (Kahn.inv_start needs)
      (by simpa [Kahn.start] using hr) (by simp [Kahn.start]), topologicalOrder]
    simp only [Option.bind_eq_bind, Option.bind_some]
    split
    · rfl
    · next hl =>
      rw [(walk_eq hv h hn hl hr).1]
      rfl
  · rintro ⟨order, ho⟩ node
    rw [ho] at hspec
    exact not_transGen_self hspec.wellFounded node
  · obtain ⟨order, ho, -⟩ := topologicalOrder_ok hv ha
    exact ⟨order, ho⟩
  · rw [hc] at hspec
    refine ⟨?_, hspec⟩
    rw [topologicalOrder] at hc
    simp only at hc
    split at hc
    · cases hc
    · next hl =>
      cases hc
      exact (walk_eq hv h hn hl le_rfl).2

theorem validNeeds_pair : ValidNeeds [[1], [0]] where
  lt {node dependency} h := by
    have hnode := h.node_lt
    rcases node with _ | _ | node
    · exact (mem_singleton.mp h).trans_lt (by decide)
    · exact (mem_singleton.mp h).trans_lt (by decide)
    · exact absurd hnode (Nat.not_lt.mpr (Nat.le_add_left 2 node))
  nodup node := by
    rcases node with _ | _ | node
    · decide
    · decide
    · exact nodup_nil

/-- Two nodes that need each other. -/
theorem topologicalOrder_exact_pair : ∃ cycle,
    topologicalOrderWithin 2 [[1], [0]] = some (.error cycle) ∧ cycle.Nodup ∧
      IsCycle (DependsOn [[1], [0]]) cycle := by
  obtain ⟨answer, hrun, -, hcycle⟩ := topologicalOrder_exact validNeeds_pair
  have hanswer : answer = .error [0, 1] := by
    refine Option.some.inj ((hrun 2 le_rfl).symm.trans ?_)
    rfl
  exact ⟨[0, 1], hanswer ▸ hrun 2 le_rfl, hcycle [0, 1] hanswer⟩

end NiumaTerm.Orchestration
