import NiumaTerm.Orchestration.Rename

/-!
# What a prompt can show

A template reads outputs of ancestors only, and the outputs that are appended without a template are
those of dependencies.  `compose_noninterference`: a text shows no other, and shows the run input only in
a graph that uses it.
-/

namespace NiumaTerm.Orchestration

open Rust Relation List

/-- There is a value for every ancestor of the node. -/
def HasAncestorOutputs (g : Graph) (node : ℕ) (outputs : List (Option Str)) : Prop :=
  ∀ ancestor, g.isAncestor ancestor node = true → (outputAt outputs ancestor).isSome

/-- The two have the same values for the ancestors of the node. -/
def AgreeOnAncestors (g : Graph) (node : ℕ) (outputs outputs' : List (Option Str)) : Prop :=
  ∀ ancestor, g.isAncestor ancestor node = true →
    outputAt outputs ancestor = outputAt outputs' ancestor

theorem isSome_mapM {α β : Type*} {f : α → Option β} {l : List α} (h : ∀ a ∈ l, (f a).isSome) :
    (l.mapM f).isSome := by
  induction l with
  | nil => rfl
  | cons a l ih =>
    obtain ⟨b, hb⟩ := Option.isSome_iff_exists.mp (h a mem_cons_self)
    obtain ⟨bs, hbs⟩ := Option.isSome_iff_exists.mp (ih fun c hc => h c (mem_cons_of_mem _ hc))
    rw [mapM_cons, hb, hbs]
    rfl

section

variable {d : Definition} {g : Graph} {node : ℕ}

theorem Graph.Sound.isAncestor_of_mem (h : g.Sound) {dependency : ℕ}
    (hd : dependency ∈ g.needsAt node) : g.isAncestor dependency node = true :=
  (h.isAncestor_iff dependency node).mpr (.single hd)

theorem nodeIndex_graph {order : List ℕ} {id : Str} (h : id ∈ d.ids) :
    (d.graph order).nodeIndex id = some (d.ids.idxOf id) := by
  refine findIdx?_eq_some_iff_findIdx_eq.mpr ⟨d.idxOf_lt h, ?_⟩
  rw [Definition.ids, List.idxOf, findIdx_map]
  exact congrArg (List.findIdx · d.nodes) (funext fun node => Bool.eq_iff_iff.mpr (by simp))

/-- **A template reads outputs of ancestors only.** -/
theorem reads_ancestor (h : Graph.new d = .ok g) (hn : node < g.nodeCount) {template : Template}
    (ht : g.templateAt node = some template) {id : Str} (hid : .output id ∈ template.segments) :
    ∃ index, g.nodeIndex id = some index ∧ g.isAncestor index node = true := by
  obtain ⟨hw, order, -, ho, rfl⟩ := Graph.new_ok h
  have hr := hw.toResolvable
  obtain ⟨declared, hnode⟩ : ∃ declared, d.nodes[node]? = some declared :=
    ⟨_, getElem?_eq_getElem hn⟩
  have htemplate : declared.template = some template := by
    simpa [Graph.templateAt, Definition.graph, getD_eq_getElem?_getD, hnode] using ht
  have hanc := hw.outputs_ancestors _ (mem_of_getElem? hnode) template htemplate id
    (mem_filterMap.mpr ⟨_, hid, rfl⟩)
  have hmem := (transGen_mem_ids hr hanc).1
  refine ⟨d.ids.idxOf id, nodeIndex_graph hmem, ?_⟩
  refine (hasAncestor_needs hr ho (d.idxOf_lt hmem) hn).mpr ?_
  rwa [d.idAt_idxOf hmem, d.idAt_of_getElem? hnode]

/-- The body of a text has a value if the ancestors have outputs. -/
theorem isSome_body (h : Graph.new d = .ok g) (hn : node < g.nodeCount) (input : Str)
    {outputs : List (Option Str)} (hout : HasAncestorOutputs g node outputs) :
    (body g.definition.idAt g node input outputs).isSome := by
  rw [body]
  cases ht : g.templateAt node with
  | some template =>
    rw [Option.isSome_map]
    refine isSome_mapM fun segment hsegment => ?_
    cases segment with
    | text literal | input => rfl
    | output id =>
      obtain ⟨index, hindex, hanc⟩ := reads_ancestor h hn ht hsegment
      rw [segmentText, hindex]
      exact hout index hanc
  | none =>
    dsimp only
    split
    · rfl
    · rw [Option.isSome_map]
      refine isSome_mapM fun dependency hdependency => ?_
      have hanc := (Graph.new_sound h).isAncestor_of_mem hdependency
      obtain ⟨output, houtput⟩ := Option.isSome_iff_exists.mp (hout dependency hanc)
      rw [dependencyText, houtput]
      rfl

/-- It shows no output but those of the ancestors. -/
theorem body_agree (h : Graph.new d = .ok g) (hn : node < g.nodeCount) (input : Str)
    {outputs outputs' : List (Option Str)} (hagree : AgreeOnAncestors g node outputs outputs') :
    body g.definition.idAt g node input outputs = body g.definition.idAt g node input outputs' := by
  rw [body, body]
  cases ht : g.templateAt node with
  | some template =>
    dsimp only
    congr 1
    refine mapM_congr_of_mem fun segment hsegment => ?_
    cases segment with
    | text literal | input => rfl
    | output id =>
      obtain ⟨index, hindex, hanc⟩ := reads_ancestor h hn ht hsegment
      rw [segmentText, segmentText, hindex]
      exact hagree index hanc
  | none =>
    dsimp only
    split
    · rfl
    · congr 1
      refine mapM_congr_of_mem fun dependency hdependency => ?_
      have hanc := (Graph.new_sound h).isAncestor_of_mem hdependency
      rw [dependencyText, dependencyText, hagree dependency hanc]

/-- It shows the run input only where the graph uses it. -/
theorem body_input (hn : node < g.nodeCount) (huses : g.usesInput = false) (input input' : Str)
    (outputs : List (Option Str)) :
    body g.definition.idAt g node input outputs = body g.definition.idAt g node input' outputs := by
  have hnode := any_eq_false.mp huses node (mem_range.mpr hn)
  rw [body, body]
  cases ht : g.templateAt node with
  | some template =>
    rw [ht] at hnode
    dsimp only
    congr 1
    refine mapM_congr_of_mem fun segment hsegment => ?_
    cases segment with
    | text literal => rfl
    | input => exact absurd (contains_iff_mem.mpr hsegment) hnode
    | output id => rfl
  | none =>
    rw [ht] at hnode
    dsimp only
    rw [if_neg hnode, if_neg hnode]

/-- **Composing a prompt.**  It succeeds once every ancestor has an output, depends on no other
output, and on the run input only if the graph uses it. -/
theorem compose_noninterference (h : Graph.new d = .ok g) (hn : node < g.nodeCount)
    (role : Option Str) :
    (∀ input outputs, HasAncestorOutputs g node outputs →
      (compose g node input role outputs).isSome) ∧
    (∀ input outputs outputs', AgreeOnAncestors g node outputs outputs' →
      compose g node input role outputs = compose g node input role outputs') ∧
    (g.usesInput = false → ∀ input input' outputs,
      compose g node input role outputs = compose g node input' role outputs) := by
  refine ⟨fun input outputs hout ↦ ?_, fun input outputs outputs' hagree ↦ ?_,
    fun huses input input' outputs ↦ ?_⟩
  · obtain ⟨text, htext⟩ := Option.isSome_iff_exists.mp (isSome_body h hn input hout)
    rw [compose, composeWith, htext]
    cases role.filter fun role ↦ !role.isEmpty <;> rfl
  · rw [compose, compose, composeWith, composeWith, body_agree h hn input hagree]
  · rw [compose, compose, composeWith, composeWith, body_input hn huses input input' outputs]

end

/-- `review` shows the output of `plan`, its only ancestor. -/
theorem compose_noninterference_planReview :
    (compose (planReview.graph [0, 1]) 1 "build it".toList none [some "a plan".toList]).isSome := by
  refine (compose_noninterference planReview_new (by decide) none).1 _ _ fun ancestor hanc ↦ ?_
  have hsound := Graph.new_sound planReview_new
  obtain ⟨node, hdep, -⟩ := TransGen.head'_iff.mp ((hsound.isAncestor_iff ancestor 1).mp hanc)
  have hlt : ancestor < 2 := hsound.validNeeds.lt hdep
  have hne : ancestor ≠ 1 := by
    rintro rfl
    exact absurd hanc (by decide +kernel)
  obtain rfl : ancestor = 0 := by omega
  rfl

end NiumaTerm.Orchestration
