import NiumaTerm.Orchestration.Order

/-!
# Ancestors and depths

`Graph::new` fills a bitmask of ancestors and a depth for every node along the dependency order: the
transitive closure and the longest chain of dependencies.
-/

namespace NiumaTerm.Orchestration

open Precedence List

/-! ## The two vectors -/

/-- `MAX_NODES`: ancestor sets are `u32` bitmasks indexed by node position. -/
def maxNodes : ℕ := 32

/-- The two vectors filled along the order: for every node the bitmask of its ancestors and the
length of the longest chain of dependencies ending at it. -/
structure Relations where
  ancestors : List (BitVec 32)
  depth : List ℕ

namespace Relations

def hasAncestor (r : Relations) (ancestor node : ℕ) : Bool :=
  r.ancestors.getD node 0 &&& 1#32 <<< ancestor != 0

def depthAt (r : Relations) (node : ℕ) : ℕ := r.depth.getD node 0

def addDependency (node : ℕ) (r : Relations) (dependency : ℕ) : Relations where
  ancestors := r.ancestors.set node (r.ancestors.getD node 0 |||
    (r.ancestors.getD dependency 0 ||| 1#32 <<< dependency))
  depth := r.depth.set node (max (r.depthAt node) (r.depthAt dependency + 1))

def addNode (needs : List (List ℕ)) (r : Relations) (node : ℕ) : Relations :=
  (needsOf needs node).foldl (addDependency node) r

/-- The loop over the order. -/
def of (needs : List (List ℕ)) (order : List ℕ) : Relations :=
  order.foldl (addNode needs)
    { ancestors := replicate needs.length 0, depth := replicate needs.length 0 }

end Relations

/-! ## One dependency, one node -/

namespace Relations

section

variable {needs : List (List ℕ)} {r : Relations} {node dependency : ℕ}

theorem hasAncestor_iff_getLsbD (r : Relations) (ancestor node : ℕ) :
    r.hasAncestor ancestor node = (r.ancestors.getD node 0).getLsbD ancestor := by
  rw [hasAncestor, ← BitVec.twoPow_eq, BitVec.and_twoPow]
  split
  · next h =>
    have hlt : ancestor < 32 := BitVec.lt_of_getLsbD h
    rw [h, bne_iff_ne]
    intro he
    have := congrArg (·.getLsbD ancestor) he
    simp [hlt] at this
  · next h => simpa using h

theorem hasAncestor_addDependency_of_ne {other : ℕ} (hn : other ≠ node) (ancestor : ℕ) :
    (r.addDependency node dependency).hasAncestor ancestor other = r.hasAncestor ancestor other := by
  simp only [hasAncestor, addDependency, getD_eq_getElem?_getD, getElem?_set_ne hn.symm]

theorem hasAncestor_addDependency (hn : node < r.ancestors.length) (hd : dependency < maxNodes)
    (ancestor : ℕ) : (r.addDependency node dependency).hasAncestor ancestor node = true ↔
      r.hasAncestor ancestor node = true ∨ r.hasAncestor ancestor dependency = true ∨
        ancestor = dependency := by
  have hlt : dependency < 32 := hd
  rw [hasAncestor_iff_getLsbD, addDependency]
  simp only [getD_eq_getElem?_getD, getElem?_set_self hn, Option.getD_some,
    BitVec.getLsbD_or, Bool.or_eq_true, ← BitVec.twoPow_eq, BitVec.getLsbD_twoPow]
  rw [hasAncestor_iff_getLsbD, hasAncestor_iff_getLsbD, getD_eq_getElem?_getD,
    getD_eq_getElem?_getD]
  simp [hlt, @eq_comm ℕ ancestor]

theorem depthAt_addDependency_of_ne {other : ℕ} (hn : other ≠ node) :
    (r.addDependency node dependency).depthAt other = r.depthAt other := by
  simp only [depthAt, addDependency, getD_eq_getElem?_getD, getElem?_set_ne hn.symm]

theorem depthAt_addDependency (hn : node < r.depth.length) :
    (r.addDependency node dependency).depthAt node
      = max (r.depthAt node) (r.depthAt dependency + 1) := by
  rw [depthAt, addDependency, getD_eq_getElem?_getD, getElem?_set_self hn]
  rfl

/-- What adding dependencies to `node` changes: only the entries of `node`, by what the entries of
the dependencies are. -/
theorem foldl_addDependency (node : ℕ) (dependencies : List ℕ) (r : Relations)
    (ha : node < r.ancestors.length) (hd : node < r.depth.length)
    (hlt : ∀ dependency ∈ dependencies, dependency < maxNodes) (hne : node ∉ dependencies) :
    let r' := dependencies.foldl (addDependency node) r
    (r'.ancestors.length = r.ancestors.length ∧ r'.depth.length = r.depth.length) ∧
    (∀ other, other ≠ node → r'.depthAt other = r.depthAt other ∧
      ∀ ancestor, r'.hasAncestor ancestor other = r.hasAncestor ancestor other) ∧
    (∀ ancestor, r'.hasAncestor ancestor node = true ↔ r.hasAncestor ancestor node = true ∨
      ∃ dependency ∈ dependencies, r.hasAncestor ancestor dependency = true ∨
        ancestor = dependency) ∧
    r'.depthAt node = dependencies.foldl (fun depth d => max depth (r.depthAt d + 1))
      (r.depthAt node) := by
  induction dependencies generalizing r with
  | nil => simp
  | cons first rest ih =>
    rw [mem_cons, not_or] at hne
    have hfirst := hlt first (by simp)
    obtain ⟨hl, hother, hanc, hdep⟩ := ih (r.addDependency node first)
      (by simpa [addDependency] using ha) (by simpa [addDependency] using hd)
      (fun d hm => hlt d (by simp [hm])) hne.2
    have hsame : ∀ d ∈ rest, d ≠ node := fun d hm he => hne.2 (he ▸ hm)
    refine ⟨by simpa [addDependency] using hl, fun other ho => ⟨?_, fun ancestor => ?_⟩,
      fun ancestor => ?_, ?_⟩
    · rw [foldl_cons, (hother other ho).1, depthAt_addDependency_of_ne ho]
    · rw [foldl_cons, (hother other ho).2, hasAncestor_addDependency_of_ne ho]
    · rw [foldl_cons, hanc, hasAncestor_addDependency ha hfirst]
      have hrest : (∃ d ∈ rest, (r.addDependency node first).hasAncestor ancestor d = true ∨
          ancestor = d) ↔ ∃ d ∈ rest, r.hasAncestor ancestor d = true ∨ ancestor = d := by
        refine exists_congr fun d => and_congr_right fun hm => ?_
        rw [hasAncestor_addDependency_of_ne (hsame d hm)]
      rw [hrest]
      simp only [mem_cons, exists_eq_or_imp, or_assoc]
    · rw [foldl_cons, hdep, depthAt_addDependency hd, foldl_cons]
      refine foldl_ext _ _ _ fun depth d hm => ?_
      rw [depthAt_addDependency_of_ne (hsame d hm)]

end

/-! ## The whole order -/

/-- What holds after the rounds of `done`: the entries of its nodes satisfy the recursion, and no
other entry was touched. -/
structure Closed (needs : List (List ℕ)) (done : List ℕ) (r : Relations) : Prop where
  ancestors_length : r.ancestors.length = needs.length
  depth_length : r.depth.length = needs.length
  ancestor : ∀ node ∈ done, ∀ ancestor, r.hasAncestor ancestor node = true ↔
    ∃ dependency, DependsOn needs dependency node ∧
      (r.hasAncestor ancestor dependency = true ∨ ancestor = dependency)
  depth : ∀ node ∈ done, r.depthAt node =
    (needsOf needs node).foldl (fun depth d => max depth (r.depthAt d + 1)) 0
  untouched : ∀ node ∉ done, r.depthAt node = 0 ∧ ∀ ancestor, r.hasAncestor ancestor node = false

/-- **One round keeps what earlier rounds have finished**, as it reads only finished entries and
writes one that is not. -/
theorem Closed.addNode {needs : List (List ℕ)} {done : List ℕ} {r : Relations} {node : ℕ}
    (h : Closed needs done r) (hv : ValidNeeds needs) (hfits : needs.length ≤ maxNodes)
    (hlt : node < needs.length) (hnew : node ∉ done)
    (ho : Ordered (DependsOn needs) (done ++ [node])) :
    Closed needs (done ++ [node]) (r.addNode needs node) := by
  have hdeps : ∀ d ∈ needsOf needs node, d ∈ done := fun d hd => ho.mem_of_concat hd
  have hself : node ∉ needsOf needs node := fun hm => hnew (hdeps node hm)
  obtain ⟨⟨hla, hld⟩, hother, hanc, hdep⟩ := foldl_addDependency node
    (needsOf needs node) r (by rw [h.ancestors_length]; exact hlt)
    (by rw [h.depth_length]; exact hlt) (fun d hd => (hv.lt hd).trans_le hfits) hself
  have hold : ∀ m ∈ done, m ≠ node := fun m hm he => hnew (he ▸ hm)
  have hclosed : ∀ m ∈ done, ∀ d, DependsOn needs d m → d ∈ done := by
    intro m hm d hd
    obtain ⟨before, after, hsplit⟩ := append_of_mem hm
    have := ho before m (after ++ [node]) (by rw [hsplit]; simp) d hd
    rw [hsplit]
    exact mem_append_left _ this
  refine ⟨hla.trans h.ancestors_length, hld.trans h.depth_length, ?_, ?_, ?_⟩
  · intro m hm ancestor
    rcases mem_append.mp hm with hm | hm
    · refine ((Bool.eq_iff_iff.mp ((hother m (hold m hm)).2 ancestor)).trans
        (h.ancestor m hm ancestor)).trans ?_
      refine exists_congr fun d => and_congr_right fun hd => ?_
      rw [Relations.addNode, (hother d (hold d (hclosed m hm d hd))).2]
    · obtain rfl := mem_singleton.mp hm
      refine (hanc ancestor).trans ?_
      rw [(h.untouched m hnew).2]
      simp only [Bool.false_eq_true, false_or]
      refine exists_congr fun d => and_congr_right fun hd => ?_
      rw [Relations.addNode, (hother d (hold d (hdeps d hd))).2]
  · intro m hm
    rcases mem_append.mp hm with hm | hm
    · rw [Relations.addNode, (hother m (hold m hm)).1, h.depth m hm]
      refine foldl_ext _ _ _ fun depth d hd => ?_
      rw [(hother d (hold d (hclosed m hm d hd))).1]
    · obtain rfl := mem_singleton.mp hm
      rw [Relations.addNode, hdep, (h.untouched m hnew).1]
      refine foldl_ext _ _ _ fun depth d hd => ?_
      rw [(hother d (hold d (hdeps d hd))).1]
  · intro m hm
    rw [mem_append, mem_singleton, not_or] at hm
    refine ⟨(hother m hm.2).1.trans (h.untouched m hm.1).1, fun ancestor => ?_⟩
    exact ((hother m hm.2).2 ancestor).trans ((h.untouched m hm.1).2 ancestor)

theorem closed_start (needs : List (List ℕ)) : Closed needs []
    { ancestors := replicate needs.length 0, depth := replicate needs.length 0 } where
  ancestors_length := by simp
  depth_length := by simp
  ancestor := by simp
  depth := by simp
  untouched node _ := by
    constructor
    · simp only [depthAt, getD_eq_getElem?_getD, getElem?_replicate]
      split <;> rfl
    · intro ancestor
      rw [hasAncestor_iff_getLsbD, getD_eq_getElem?_getD, getElem?_replicate]
      split <;> simp

variable {needs : List (List ℕ)} {order : List ℕ}

theorem closed_of (hv : ValidNeeds needs) (hfits : needs.length ≤ maxNodes)
    (h : IsOrder needs order) : Closed needs order (of needs order) := by
  have hrun : ∀ done : List ℕ, (∀ node ∈ done, node < needs.length) → done.Nodup →
      Ordered (DependsOn needs) done → Closed needs done (of needs done) := by
    intro done
    induction done using reverseRecOn with
    | nil => exact fun _ _ _ => closed_start needs
    | append_singleton done node ih =>
      intro hlt hnd ho
      have hnew : node ∉ done := fun hm => by
        simpa using (nodup_append.mp hnd).2.2 node hm node (by simp)
      rw [of, foldl_append]
      exact (ih (fun m hm => hlt m (by simp [hm])) (nodup_append.mp hnd).1 ho.of_append).addNode
        hv hfits (hlt node (by simp)) hnew ho
  exact hrun order (fun node hm => (h.mem_iff node).mp hm) h.nodup h.ordered

/-- **The bitmasks are the transitive closure** of the dependencies. -/
theorem hasAncestor_iff (hv : ValidNeeds needs) (hfits : needs.length ≤ maxNodes)
    (h : IsOrder needs order) (ancestor node : ℕ) :
    (of needs order).hasAncestor ancestor node = true ↔
      Relation.TransGen (DependsOn needs) ancestor node := by
  have hc := closed_of hv hfits h
  refine transGen_of_rec h.wellFounded
    (P := fun a b => (of needs order).hasAncestor a b = true) (fun a b => ?_) ancestor node
  by_cases hb : b ∈ order
  · exact hc.ancestor b hb a
  · rw [(hc.untouched b hb).2]
    refine ⟨by simp, fun ⟨d, hd, _⟩ => ?_⟩
    exact absurd ((h.mem_iff b).mpr hd.node_lt) hb

/-- **The depth of a node** is one more than the largest depth of its dependencies. -/
theorem depthAt_of (hv : ValidNeeds needs) (hfits : needs.length ≤ maxNodes)
    (h : IsOrder needs order) {node : ℕ} (hn : node < needs.length) :
    (of needs order).depthAt node = (needsOf needs node).foldl
      (fun depth d => max depth ((of needs order).depthAt d + 1)) 0 :=
  (closed_of hv hfits h).depth node ((h.mem_iff node).mpr hn)

end Relations

end NiumaTerm.Orchestration
