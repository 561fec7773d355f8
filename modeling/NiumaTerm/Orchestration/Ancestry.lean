import NiumaTerm.Orchestration.Validation

/-!
# Order, ancestors and depths of a graph

What `Graph::new` precomputes, in terms of the definition alone.

* `topologicalOrder_greedy` — the rounds of the loop take the earliest ready node.
* `Graph.relations_exact` — the order is the one got so, `isAncestor` is reachability along
  `needs`, and the depth of a node is the length of the longest chain of needs below it.
-/

namespace NiumaTerm.Orchestration

open Precedence Relation List

/-! ## The greedy order -/

/-- `node` can be taken next: it was not, and all that it depends on was. -/
def Ready (needs : List (List ℕ)) (taken : List ℕ) (node : ℕ) : Prop :=
  node < needs.length ∧ node ∉ taken ∧ ∀ dependency, DependsOn needs dependency node →
    dependency ∈ taken

/-- Each node of the list is the earliest that was ready when it was taken. -/
def Greedy (needs : List (List ℕ)) (order : List ℕ) : Prop :=
  ∀ before node after, order = before ++ node :: after →
    IsLeast {other | Ready needs before other} node

section

variable {needs : List (List ℕ)} {k : Kahn} {node : ℕ}

theorem Kahn.missing_eq_nil : k.missing needs node = [] ↔
    ∀ dependency, DependsOn needs dependency node → dependency ∈ k.order := by
  rw [missing, filter_eq_nil_iff]
  simp only [decide_not, Bool.not_eq_true', decide_eq_false_iff_not, not_not]
  rfl

/-- A round takes the earliest node that is ready. -/
theorem Kahn.Inv.isLeast_next (h : k.Inv needs) (hn : k.next = some node) :
    IsLeast {other | Ready needs k.order other} node := by
  obtain ⟨hlt, hm, hmissing⟩ := Kahn.next_eq_some h hn
  refine ⟨⟨hlt, hm, Kahn.missing_eq_nil.mp hmissing⟩, ?_⟩
  rintro other ⟨ho, hnot, hdeps⟩
  by_contra hless
  have hearlier := (find?_range_eq_some.mp hn).2.2 other (Nat.lt_of_not_le hless)
  have hdone : k.isDone other = false := by
    rw [← Bool.not_eq_true, h.isDone_iff]
    exact hnot
  rw [hdone, h.waiting other ho, Kahn.missing_eq_nil.mpr hdeps] at hearlier
  simp at hearlier

theorem Greedy.concat {order : List ℕ} (h : Greedy needs order)
    (hleast : IsLeast {other | Ready needs order other} node) : Greedy needs (order ++ [node]) := by
  intro before other after he
  rcases concat_eq_append_cons he with ⟨rfl, rfl⟩ | ⟨rest, rfl⟩
  · exact hleast
  · exact h before other rest rfl

theorem Kahn.greedy_run (hv : ValidNeeds needs) (fuel : ℕ) (h : k.Inv needs)
    (hg : Greedy needs k.order) : Greedy needs (Kahn.run needs fuel k).order := by
  induction fuel generalizing k with
  | zero => exact hg
  | succ fuel ih =>
    rw [Kahn.run]
    split
    · next node hn => exact ih (h.take hv hn) (hg.concat (h.isLeast_next hn))
    · exact hg

/-- **Kahn's algorithm is greedy.** -/
theorem topologicalOrder_greedy (hv : ValidNeeds needs) {order : List ℕ}
    (ho : topologicalOrder needs = .ok order) : Greedy needs order := by
  have hg : Greedy needs (Kahn.run needs needs.length (Kahn.start needs)).order := by
    refine Kahn.greedy_run hv _ (Kahn.inv_start needs) fun before node after he => ?_
    simp [Kahn.start] at he
  rw [topologicalOrder] at ho
  simp only at ho
  split at ho
  · cases ho
    exact hg
  · cases ho

end

/-! ## Depths -/

section

variable {needs : List (List ℕ)} {order : List ℕ}

/-- The depth of a node is the length of the longest chain of dependencies. -/
theorem Relations.isGreatest_depthAt (hv : ValidNeeds needs) (hfits : needs.length ≤ maxNodes)
    (h : IsOrder needs order) (node : ℕ) :
    IsGreatest (chainLengths (DependsOn needs) node) ((Relations.of needs order).depthAt node) := by
  have hneeds : ∀ a b, b ∈ needsOf needs a ↔ DependsOn needs b a := fun _ _ => Iff.rfl
  refine isGreatest_chain h.wellFounded hneeds (fun other => ?_) node
  by_cases ho : other < needs.length
  · exact Relations.depthAt_of hv hfits h ho
  · have hnot : other ∉ order := fun hm => ho ((h.mem_iff other).mp hm)
    rw [((Relations.closed_of hv hfits h).untouched other hnot).1, needsOf,
      getD_eq_default _ _ (Nat.le_of_not_lt ho)]
    rfl

end

/-! ## In terms of the definition -/

section

variable {d : Definition} {g : Graph}

/-- The node at an index is not taken, and the nodes that it needs are. -/
def Definition.Ready (d : Definition) (taken : List ℕ) (index : ℕ) : Prop :=
  index < d.nodes.length ∧ index ∉ taken ∧
    ∀ other < d.nodes.length, d.Needs (d.idAt other) (d.idAt index) → other ∈ taken

theorem dependsOn_iff_needs (h : d.Resolvable) {i j : ℕ} (hi : i < d.nodes.length)
    (hj : j < d.nodes.length) : DependsOn d.needs i j ↔ d.Needs (d.idAt i) (d.idAt j) := by
  refine ⟨DependsOn.needs h, fun hn => ?_⟩
  have := hn.dependsOn h
  rwa [d.idxOf_idAt h.ids_nodup hi, d.idxOf_idAt h.ids_nodup hj] at this

theorem ready_iff (h : d.Resolvable) {taken : List ℕ} {index : ℕ} :
    Orchestration.Ready d.needs taken index ↔ d.Ready taken index := by
  rw [Orchestration.Ready, Definition.Ready, d.needs_length]
  refine and_congr_right fun hi => and_congr_right fun _ => ?_
  refine ⟨fun hd other ho hn => ?_, fun hn other hd => ?_⟩
  · exact hd other ((dependsOn_iff_needs h ho hi).mpr hn)
  · have ho : other < d.nodes.length := by
      rw [← d.needs_length]
      exact h.validNeeds.lt hd
    exact hn other ho ((dependsOn_iff_needs h ho hi).mp hd)

/-- Chains of indices are chains of ids. -/
theorem chainLengths_needs (h : d.Resolvable) {index : ℕ} (hi : index < d.nodes.length) :
    chainLengths (DependsOn d.needs) index = chainLengths d.Needs (d.idAt index) := by
  refine Set.ext fun n => ⟨?_, ?_⟩
  · rintro ⟨chain, rfl, hchain⟩
    refine ⟨chain.map d.idAt, length_map _, ?_⟩
    rw [← map_cons, isChain_map]
    exact hchain.imp fun _ _ hd => DependsOn.needs h hd
  · rintro ⟨chain, rfl, hchain⟩
    refine ⟨chain.map fun id => d.ids.idxOf id, length_map _, ?_⟩
    have hindex : index :: chain.map (fun id => d.ids.idxOf id) =
        (d.idAt index :: chain).map fun id => d.ids.idxOf id := by
      rw [map_cons, d.idxOf_idAt h.ids_nodup hi]
    rw [hindex, isChain_map]
    exact hchain.imp fun _ _ hn => hn.dependsOn h

/-- The order, the ancestors and the depths of a graph are those of its definition. -/
structure Graph.Exact (g : Graph) (d : Definition) : Prop where
  perm : g.order.Perm (List.range d.nodes.length)
  greedy : ∀ before node after, g.order = before ++ node :: after →
    IsLeast {other | d.Ready before other} node
  isAncestor_iff : ∀ a < d.nodes.length, ∀ b < d.nodes.length,
    g.isAncestor a b = true ↔ TransGen d.Needs (d.idAt a) (d.idAt b)
  depth : ∀ node < d.nodes.length, IsGreatest (chainLengths d.Needs (d.idAt node)) (g.depthAt node)

/-- **The relations of a graph are exact.** -/
theorem Graph.relations_exact (h : Graph.new d = .ok g) : g.Exact d := by
  obtain ⟨hwell, order, ht, ho, rfl⟩ := Graph.new_ok h
  have hr := hwell.toResolvable
  have hfits : d.needs.length ≤ maxNodes := by
    rw [d.needs_length]
    simpa [maxNodes] using hr.nodes_le
  refine ⟨?_, fun before node after he ↦ ?_, fun a ha b hb ↦ ?_, fun node hn ↦ ?_⟩
  · refine (perm_ext_iff_of_nodup ho.nodup nodup_range).mpr fun node ↦ ?_
    rw [mem_range, ← d.needs_length]
    exact ho.mem_iff node
  · have hleast := topologicalOrder_greedy hr.validNeeds ht before node after he
    simpa only [ready_iff hr] using hleast
  · exact hasAncestor_needs hr ho ha hb
  · rw [← chainLengths_needs hr hn]
    exact Relations.isGreatest_depthAt hr.validNeeds hfits ho node

/-- `review` comes after `plan`, which it needs. -/
theorem Graph.relations_exact_planReview : (planReview.graph [0, 1]).Exact planReview :=
  Graph.relations_exact planReview_new

end

end NiumaTerm.Orchestration
