import NiumaTerm.Orchestration.Graph

/-!
# What validation accepts

`Definition.WellFormed` says in terms of names and ids what a definition that is safe to run looks like,
and `Graph.new` accepts exactly those (`Graph.new_accepts_iff`).  `Graph.Sound` is what the scheduler and
the composer may assume.
-/

namespace NiumaTerm.Orchestration

open Rust Precedence Relation List

/-! ## Well-formed definitions -/

/-- Node `b` lists node `a` among its dependencies. -/
def Definition.Needs (d : Definition) (a b : Str) : Prop :=
  ∃ node ∈ d.nodes, node.id = b ∧ a ∈ node.needs

/-- The template of a node whose prompt parses. -/
def Node.template (node : Node) : Option Template :=
  node.prompt.bind fun prompt => (Template.parse prompt).toOption

/-- The conditions on a definition that need no order of its nodes. -/
structure Definition.Resolvable (d : Definition) : Prop where
  version : d.version = definitionVersion
  maxParallel : ∀ value, d.maxParallel = some value → 1 ≤ value ∧ value ≤ 8
  nodes_pos : 1 ≤ d.nodes.length
  nodes_le : d.nodes.length ≤ 32
  ids_valid : ∀ node ∈ d.nodes, isNodeId node.id = true
  ids_nodup : d.ids.Nodup
  slots_nonempty : ∀ slot ∈ d.slots, slot.name ≠ []
  slots_nodup : d.slotNames.Nodup
  slot_known : ∀ node ∈ d.nodes, node.slot ∈ d.slotNames
  needs_known : ∀ node ∈ d.nodes, ∀ dependency ∈ node.needs, dependency ∈ d.ids
  needs_nodup : ∀ node ∈ d.nodes, node.needs.Nodup
  prompt_nonblank : ∀ node ∈ d.nodes, ∀ prompt, node.prompt = some prompt →
    ∃ c ∈ prompt, isWhitespace c = false
  prompt_parses : ∀ node ∈ d.nodes, ∀ prompt, node.prompt = some prompt →
    ∃ template, Template.parse prompt = .ok template

/-- Outputs are read from ancestors only. -/
def Definition.OutputsAncestors (d : Definition) : Prop :=
  ∀ node ∈ d.nodes, ∀ template, node.template = some template →
    ∀ reference ∈ template.outputs, TransGen d.Needs reference node.id

/-- Nodes on one slot are comparable. -/
def Definition.SlotsOrdered (d : Definition) : Prop :=
  ∀ first ∈ d.nodes, ∀ second ∈ d.nodes, first ≠ second → first.slot = second.slot →
    TransGen d.Needs first.id second.id ∨ TransGen d.Needs second.id first.id

/-- **Well-formed definitions.** -/
structure Definition.WellFormed (d : Definition) : Prop extends d.Resolvable where
  acyclic : ∀ id, ¬ TransGen d.Needs id id
  outputs_ancestors : d.OutputsAncestors
  slots_ordered : d.SlotsOrdered

/-! ## The two indices -/

section

variable (check : Str → List DefinitionError) (duplicate : Str → DefinitionError)

theorem indexNames_errors (index : ℕ) (names : List Str) (m : Index) :
    (indexNames check duplicate index names m).2 = [] ↔
      (∀ name ∈ names, check name = []) ∧ names.Nodup ∧ ∀ name ∈ names, name ∉ m := by
  induction names generalizing index m with
  | nil => simp [indexNames]
  | cons name rest ih =>
    simp only [indexNames, append_eq_nil_iff, ih, forall_mem_cons, nodup_cons,
      Std.TreeMap.mem_insert, Std.compare_eq_iff_eq]
    constructor
    · rintro ⟨⟨hc, hm⟩, hcs, hnd, hnew⟩
      refine ⟨⟨hc, hcs⟩, ⟨fun hmem => hnew name hmem (.inl rfl), hnd⟩, ?_,
        fun other ho hmem => hnew other ho (.inr hmem)⟩
      intro hmem
      rw [if_pos (Std.TreeMap.contains_iff_mem.mpr hmem)] at hm
      cases hm
    · rintro ⟨⟨hc, hcs⟩, ⟨hne, hnd⟩, hm, hms⟩
      refine ⟨⟨hc, if_neg (by rwa [Std.TreeMap.contains_iff_mem])⟩, hcs, hnd, ?_⟩
      rintro other ho (rfl | hmem)
      · exact hne ho
      · exact hms other ho hmem

/-- Names that are all different are indexed by their positions. -/
theorem indexNames_index (index : ℕ) {names : List Str} {m : Index} (hnd : names.Nodup)
    (hm : ∀ name ∈ names, name ∉ m) :
    (∀ name, (indexNames check duplicate index names m).1[name]?
      = if name ∈ names then some (index + names.idxOf name) else m[name]?) ∧
    (indexNames check duplicate index names m).1.size = m.size + names.length := by
  induction names generalizing index m with
  | nil => simp [indexNames]
  | cons first rest ih =>
    rw [nodup_cons] at hnd
    rw [forall_mem_cons] at hm
    have hnew : ∀ name ∈ rest, name ∉ m.insert first index := by
      intro name hn hmem
      rw [Std.TreeMap.mem_insert, Std.compare_eq_iff_eq] at hmem
      rcases hmem with rfl | hmem
      · exact hnd.1 hn
      · exact hm.2 name hn hmem
    obtain ⟨hget, hsize⟩ := ih (index + 1) hnd.2 hnew
    refine ⟨fun name => ?_, ?_⟩
    · show (indexNames check duplicate (index + 1) rest (m.insert first index)).1[name]? = _
      rw [hget name]
      by_cases hn : name ∈ rest
      · have hne : first ≠ name := fun he => hnd.1 (he ▸ hn)
        rw [if_pos hn, if_pos (mem_cons_of_mem _ hn), idxOf_cons_ne _ hne]
        congr 1
        omega
      · rw [if_neg hn, Std.TreeMap.getElem?_insert]
        by_cases he : name = first
        · subst he
          simp
        · rw [if_neg (by simpa using Ne.symm he), if_neg (by simp [he, hn])]
    · show (indexNames check duplicate (index + 1) rest (m.insert first index)).1.size = _
      rw [hsize, Std.TreeMap.size_insert, length_cons,
        if_neg (by rw [Std.TreeMap.contains_iff_mem]; exact hm.1)]
      omega

end

theorem indexSlots_errors (d : Definition) : (indexSlots d).2 = [] ↔
    (∀ slot ∈ d.slots, slot.name ≠ []) ∧ d.slotNames.Nodup := by
  rw [indexSlots, indexNames_errors]
  simp [Definition.slotNames]

theorem indexSlots_index {d : Definition} (hnd : d.slotNames.Nodup) (name : Str) :
    (indexSlots d).1[name]? =
      if name ∈ d.slotNames then some (d.slotNames.idxOf name) else none := by
  rw [indexSlots, (indexNames_index _ _ 0 hnd (by simp)).1 name]
  simp [Definition.slotNames]

theorem indexNodes_errors (d : Definition) : (indexNodes d).2 = [] ↔
    (1 ≤ d.nodes.length ∧ d.nodes.length ≤ 32) ∧
      (∀ node ∈ d.nodes, isNodeId node.id = true) ∧ d.ids.Nodup := by
  simp only [indexNodes, append_eq_nil_iff, indexNames_errors]
  have hpos : (if d.nodes.isEmpty then [DefinitionError.noNodes] else []) = [] ↔
      1 ≤ d.nodes.length := by
    cases d.nodes <;> simp
  have hle : (if d.nodes.length > maxNodes then
      [DefinitionError.tooManyNodes d.nodes.length] else []) = [] ↔ d.nodes.length ≤ 32 := by
    simp [maxNodes]
  rw [hpos, hle]
  simp [Definition.ids]

theorem indexNodes_index {d : Definition} (hnd : d.ids.Nodup) :
    (∀ id, (indexNodes d).1[id]? = if id ∈ d.ids then some (d.ids.idxOf id) else none) ∧
      (indexNodes d).1.size = d.nodes.length := by
  obtain ⟨hget, hsize⟩ := indexNames_index (fun id => if !isNodeId id then [.invalidNodeId id] else [])
    .duplicateNode 0 (m := ∅) hnd (by simp)
  refine ⟨fun id => ?_, ?_⟩
  · simpa [indexNodes] using hget id
  · simpa [indexNodes, Definition.ids] using hsize

/-! ## One node -/

section

variable {ids : List Str} {nodes : Index}

theorem resolveDependency_known (hn : ∀ id, nodes[id]? = if id ∈ ids then some (ids.idxOf id) else none)
    (id : Str) {before : List Str} (r : Resolution) (hr : r.indices = before.map ids.idxOf)
    {dependency : Str} (hd : dependency ∈ ids) (hb : dependency ∉ before) :
    resolveDependency nodes id r dependency
      = { r with indices := (before ++ [dependency]).map ids.idxOf } := by
  have hnew : ids.idxOf dependency ∉ r.indices := by
    rw [hr, mem_map]
    rintro ⟨other, ho, he⟩
    rw [idxOf_inj (idxOf_lt_length_iff.mp (he ▸ idxOf_lt_length_iff.mpr hd))] at he
    exact hb (he ▸ ho)
  simp only [resolveDependency, hn dependency, if_pos hd, if_neg hnew]
  rw [hr, map_append, map_singleton]

/-- Dependencies that are all known and different are resolved without an error. -/
theorem foldl_resolveDependency
    (hn : ∀ id, nodes[id]? = if id ∈ ids then some (ids.idxOf id) else none) (id : Str)
    (needs before : List Str) (r : Resolution) (hr : r.indices = before.map ids.idxOf)
    (hk : ∀ dependency ∈ needs, dependency ∈ ids) (hnd : needs.Nodup)
    (hb : ∀ dependency ∈ needs, dependency ∉ before) :
    needs.foldl (resolveDependency nodes id) r
      = { r with indices := (before ++ needs).map ids.idxOf } := by
  induction needs generalizing before r with
  | nil => rw [foldl_nil, append_nil, ← hr]
  | cons dependency rest ih =>
    rw [forall_mem_cons] at hk hb
    rw [nodup_cons] at hnd
    rw [foldl_cons, resolveDependency_known hn id r hr hk.1 hb.1,
      ih (before ++ [dependency]) _ rfl hk.2 hnd.2]
    · simp
    · intro other ho hm
      rcases mem_append.mp hm with hm | hm
      · exact hb.2 other ho hm
      · exact hnd.1 (mem_singleton.mp hm ▸ ho)

/-- Errors are only ever added. -/
theorem errors_foldl_resolveDependency (id : Str) (needs : List Str) (r : Resolution)
    (h : (needs.foldl (resolveDependency nodes id) r).errors = []) : r.errors = [] := by
  induction needs generalizing r with
  | nil => exact h
  | cons dependency rest ih =>
    have := ih _ h
    rw [resolveDependency] at this
    split at this
    · split at this
      · simp at this
      · exact this
    · simp at this

theorem foldl_resolveDependency_errors
    (hn : ∀ id, nodes[id]? = if id ∈ ids then some (ids.idxOf id) else none) (id : Str)
    (needs before : List Str) (r : Resolution) (hr : r.indices = before.map ids.idxOf)
    (h : (needs.foldl (resolveDependency nodes id) r).errors = []) :
    (∀ dependency ∈ needs, dependency ∈ ids) ∧ needs.Nodup ∧
      ∀ dependency ∈ needs, dependency ∉ before := by
  induction needs generalizing before r with
  | nil => simp
  | cons dependency rest ih =>
    have hstep := errors_foldl_resolveDependency id rest _ h
    by_cases hk : dependency ∈ ids
    · by_cases hb : dependency ∈ before
      · have hi : ids.idxOf dependency ∈ r.indices := by
          rw [hr]
          exact mem_map_of_mem hb
        simp [resolveDependency, hn dependency, hk, hi] at hstep
      · rw [foldl_cons, resolveDependency_known hn id r hr hk hb] at h
        obtain ⟨hks, hnd, hbs⟩ := ih (before ++ [dependency]) _ rfl h
        refine ⟨forall_mem_cons.mpr ⟨hk, hks⟩, nodup_cons.mpr ⟨?_, hnd⟩,
          forall_mem_cons.mpr ⟨hb, fun other ho hm => hbs other ho (by simp [hm])⟩⟩
        exact fun hm => hbs dependency hm (by simp)
    · simp [resolveDependency, hn dependency, hk] at hstep

theorem resolvePrompt_errors (node : Node) : (resolvePrompt node).2 = [] ↔
    ∀ prompt, node.prompt = some prompt →
      (∃ c ∈ prompt, isWhitespace c = false) ∧ ∃ template, Template.parse prompt = .ok template := by
  cases hp : node.prompt with
  | none => simp [resolvePrompt, hp]
  | some prompt =>
    have hblank : (trim prompt).isEmpty = false ↔ ∃ c ∈ prompt, isWhitespace c = false := by
      rw [isEmpty_eq_false_iff, ne_eq, trim_eq_nil_iff]
      simp
    cases hb : (trim prompt).isEmpty with
    | true =>
      have hno : ¬ ∃ c ∈ prompt, isWhitespace c = false := by
        rw [← hblank, hb]
        simp
      simp [resolvePrompt, hp, hb, hno]
    | false =>
      have hyes := hblank.mp hb
      cases ht : Template.parse prompt <;> simp [resolvePrompt, hp, hb, ht, hyes]

theorem resolvePrompt_template {node : Node} (h : (resolvePrompt node).2 = []) :
    (resolvePrompt node).1 = node.template := by
  rw [resolvePrompt] at h ⊢
  rw [Node.template]
  split
  · next hp => rw [hp]; rfl
  · next prompt hp =>
    rw [hp] at h ⊢
    simp only [Option.bind_some] at h ⊢
    split
    · next hb => simp [hb] at h
    · next hb =>
      rw [if_neg hb] at h
      split at h
      · next template ht => simp [ht, Except.toOption]
      · cases h

end

/-! ## The checks that need no order -/

/-- The dependencies of every node as indices. -/
def Definition.needs (d : Definition) : List (List ℕ) :=
  d.nodes.map fun node => node.needs.map d.ids.idxOf

/-- What `resolveNode` gives for a node without errors. -/
def Definition.resolvedNode (d : Definition) (node : Node) : ResolvedNode where
  slot := some (d.slotNames.idxOf node.slot)
  needs := node.needs.map d.ids.idxOf
  template := node.template
  errors := []
  resolved := true

section

variable {d : Definition}

theorem resolveNode_errors (hs : d.slotNames.Nodup) (hi : d.ids.Nodup) (node : Node) :
    (resolveNode (indexSlots d).1 (indexNodes d).1 node).errors = [] ↔
      node.slot ∈ d.slotNames ∧ (∀ dependency ∈ node.needs, dependency ∈ d.ids) ∧
      node.needs.Nodup ∧ ∀ prompt, node.prompt = some prompt →
        (∃ c ∈ prompt, isWhitespace c = false) ∧
          ∃ template, Template.parse prompt = .ok template := by
  have hn := (indexNodes_index hi).1
  have hslot : (if ((indexSlots d).1[node.slot]?).isNone then
      [DefinitionError.unknownSlot node.id node.slot] else []) = [] ↔
      node.slot ∈ d.slotNames := by
    rw [indexSlots_index hs]
    split <;> simp_all
  have hneeds : (resolveNeeds (indexNodes d).1 node).errors = [] ↔
      (∀ dependency ∈ node.needs, dependency ∈ d.ids) ∧ node.needs.Nodup := by
    constructor
    · intro h
      have := foldl_resolveDependency_errors hn node.id node.needs [] {} rfl h
      exact ⟨this.1, this.2.1⟩
    · rintro ⟨hk, hnd⟩
      rw [resolveNeeds, foldl_resolveDependency hn node.id node.needs [] {} rfl hk hnd (by simp)]
  simp only [resolveNode, append_eq_nil_iff, hslot, hneeds, resolvePrompt_errors, and_assoc]

theorem resolveNode_eq (hs : d.slotNames.Nodup) (hi : d.ids.Nodup) {node : Node}
    (h : (resolveNode (indexSlots d).1 (indexNodes d).1 node).errors = []) :
    resolveNode (indexSlots d).1 (indexNodes d).1 node = d.resolvedNode node := by
  obtain ⟨hslot, hk, hnd, hp⟩ := (resolveNode_errors hs hi node).mp h
  have hneeds : resolveNeeds (indexNodes d).1 node =
      { indices := node.needs.map d.ids.idxOf } := by
    rw [resolveNeeds, foldl_resolveDependency (indexNodes_index hi).1 node.id node.needs [] {} rfl
      hk hnd (by simp)]
    rfl
  have hprompt := (resolvePrompt_errors node).mpr hp
  simp only [resolveNode, Definition.resolvedNode, hneeds, indexSlots_index hs, if_pos hslot,
    resolvePrompt_template hprompt, hprompt]
  simp

theorem versionErrors_eq_nil : versionErrors d = [] ↔ d.version = definitionVersion := by
  simp [versionErrors]

theorem maxParallelErrors_eq_nil : maxParallelErrors d = [] ↔
    ∀ value, d.maxParallel = some value → 1 ≤ value ∧ value ≤ 8 := by
  rw [maxParallelErrors]
  split
  · next value hv => simp [hv, maxParallelRange]
  · next hv => simp [hv]

/-- **The first group of checks** finds nothing exactly in resolvable definitions. -/
theorem resolved_errors : (Resolved.of d).errors = [] ↔ d.Resolvable := by
  simp only [Resolved.of, append_eq_nil_iff, versionErrors_eq_nil, maxParallelErrors_eq_nil,
    indexSlots_errors, indexNodes_errors, flatMap_eq_nil_iff, mem_map,
    forall_exists_index, and_imp, forall_apply_eq_imp_iff₂]
  constructor
  · rintro ⟨⟨⟨⟨hv, hm⟩, hse, hsn⟩, ⟨hp, hl⟩, hid, hin⟩, hnode⟩
    have hres := fun node hn => (resolveNode_errors hsn hin node).mp (hnode node hn)
    exact ⟨hv, hm, hp, hl, hid, hin, hse, hsn, fun node hn => (hres node hn).1,
      fun node hn => (hres node hn).2.1, fun node hn => (hres node hn).2.2.1,
      fun node hn prompt h => ((hres node hn).2.2.2 prompt h).1,
      fun node hn prompt h => ((hres node hn).2.2.2 prompt h).2⟩
  · intro h
    refine ⟨⟨⟨⟨h.version, h.maxParallel⟩, h.slots_nonempty, h.slots_nodup⟩,
      ⟨h.nodes_pos, h.nodes_le⟩, h.ids_valid, h.ids_nodup⟩, fun node hn => ?_⟩
    exact (resolveNode_errors h.slots_nodup h.ids_nodup node).mpr ⟨h.slot_known node hn,
      h.needs_known node hn, h.needs_nodup node hn,
      fun prompt hp => ⟨h.prompt_nonblank node hn prompt hp, h.prompt_parses node hn prompt hp⟩⟩

theorem Definition.Resolvable.resolved (h : d.Resolvable) :
    (Resolved.of d).resolved = d.nodes.map d.resolvedNode := by
  refine map_congr_left fun node hn => resolveNode_eq h.slots_nodup h.ids_nodup ?_
  exact (resolveNode_errors h.slots_nodup h.ids_nodup node).mpr ⟨h.slot_known node hn,
    h.needs_known node hn, h.needs_nodup node hn,
    fun prompt hp => ⟨h.prompt_nonblank node hn prompt hp, h.prompt_parses node hn prompt hp⟩⟩

end

/-! ## Ids and indices -/

section

variable {d : Definition}

theorem Definition.ids_length (d : Definition) : d.ids.length = d.nodes.length := by
  simp [ids]

variable {node : Node} {index i j : ℕ} {a b : Str}

theorem Definition.idAt_of_getElem? (h : d.nodes[index]? = some node) : d.idAt index = node.id := by
  rw [idAt, ids, getD_eq_getElem?_getD, getElem?_map, h]
  rfl

theorem Definition.exists_index (h : node ∈ d.nodes) :
    ∃ index < d.nodes.length, d.nodes[index]? = some node := by
  obtain ⟨index, hi⟩ := mem_iff_getElem?.mp h
  exact ⟨index, (List.getElem?_eq_some_iff.mp hi).1, hi⟩

theorem Definition.idAt_idxOf {id : Str} (h : id ∈ d.ids) : d.idAt (d.ids.idxOf id) = id := by
  rw [idAt, getD_eq_getElem _ _ (idxOf_lt_length_iff.mpr h), getElem_idxOf]

theorem Definition.idxOf_lt {id : Str} (h : id ∈ d.ids) : d.ids.idxOf id < d.nodes.length := by
  rw [← d.ids_length]
  exact idxOf_lt_length_iff.mpr h

theorem Definition.idxOf_idAt (hnd : d.ids.Nodup) (h : index < d.nodes.length) :
    d.ids.idxOf (d.idAt index) = index := by
  rw [← d.ids_length] at h
  rw [idAt, getD_eq_getElem _ _ h, hnd.idxOf_getElem index h]

theorem Definition.idxOf_id (hnd : d.ids.Nodup) (h : d.nodes[index]? = some node) : d.ids.idxOf node.id = index := by
  rw [← d.idAt_of_getElem? h, d.idxOf_idAt hnd (List.getElem?_eq_some_iff.mp h).1]

theorem Definition.needs_length (d : Definition) : d.needs.length = d.nodes.length := by
  simp [needs]

theorem dependsOn_needs : DependsOn d.needs i j ↔
    ∃ node, d.nodes[j]? = some node ∧ ∃ dependency ∈ node.needs, d.ids.idxOf dependency = i := by
  rw [DependsOn, needsOf, Definition.needs, getD_eq_getElem?_getD, getElem?_map]
  cases d.nodes[j]? <;> simp

theorem Definition.Resolvable.validNeeds (h : d.Resolvable) : ValidNeeds d.needs where
  lt hd := by
    obtain ⟨node, hn, dependency, hm, rfl⟩ := dependsOn_needs.mp hd
    rw [d.needs_length]
    exact d.idxOf_lt (h.needs_known node (mem_of_getElem? hn) dependency hm)
  nodup index := by
    rw [needsOf, Definition.needs, getD_eq_getElem?_getD, getElem?_map]
    cases hn : d.nodes[index]? with
    | none => exact nodup_nil
    | some node =>
      have hnode := mem_of_getElem? hn
      refine (h.needs_nodup node hnode).map_on fun a ha b _ he => ?_
      exact (idxOf_inj (h.needs_known node hnode a ha)).mp he

theorem Definition.Needs.mem_ids (h : d.Resolvable) (hn : d.Needs a b) : a ∈ d.ids ∧ b ∈ d.ids := by
  obtain ⟨node, hm, rfl, ha⟩ := hn
  exact ⟨h.needs_known node hm a ha, mem_map_of_mem hm⟩

theorem transGen_mem_ids (h : d.Resolvable) (hn : TransGen d.Needs a b) :
    a ∈ d.ids ∧ b ∈ d.ids := by
  induction hn with
  | single hab => exact hab.mem_ids h
  | tail _ hbc ih => exact ⟨ih.1, (hbc.mem_ids h).2⟩

theorem Definition.Needs.dependsOn (h : d.Resolvable) (hn : d.Needs a b) :
    DependsOn d.needs (d.ids.idxOf a) (d.ids.idxOf b) := by
  obtain ⟨node, hm, rfl, ha⟩ := hn
  obtain ⟨index, -, hi⟩ := d.exists_index hm
  rw [d.idxOf_id h.ids_nodup hi]
  exact dependsOn_needs.mpr ⟨node, hi, a, ha, rfl⟩

theorem DependsOn.needs (h : d.Resolvable) (hd : DependsOn d.needs i j) :
    d.Needs (d.idAt i) (d.idAt j) := by
  obtain ⟨node, hn, dependency, hm, rfl⟩ := dependsOn_needs.mp hd
  have hnode := mem_of_getElem? hn
  rw [d.idAt_idxOf (h.needs_known node hnode dependency hm), d.idAt_of_getElem? hn]
  exact ⟨node, hnode, rfl, hm⟩

theorem transGen_idAt (h : d.Resolvable) (ht : TransGen (DependsOn d.needs) i j) :
    TransGen d.Needs (d.idAt i) (d.idAt j) :=
  TransGen.lift d.idAt (fun _ _ hd => DependsOn.needs h hd) i j ht

theorem transGen_idxOf (h : d.Resolvable) (ht : TransGen d.Needs a b) :
    TransGen (DependsOn d.needs) (d.ids.idxOf a) (d.ids.idxOf b) :=
  TransGen.lift (fun id => d.ids.idxOf id) (fun _ _ hn => Definition.Needs.dependsOn h hn) a b ht

/-- **The index relation is the relation between ids.** -/
theorem transGen_needs (h : d.Resolvable) (hi : i < d.nodes.length) (hj : j < d.nodes.length) :
    TransGen (DependsOn d.needs) i j ↔ TransGen d.Needs (d.idAt i) (d.idAt j) := by
  refine ⟨transGen_idAt h, fun ht => ?_⟩
  have := transGen_idxOf h ht
  rwa [d.idxOf_idAt h.ids_nodup hi, d.idxOf_idAt h.ids_nodup hj] at this

theorem acyclic_iff (h : d.Resolvable) :
    (∀ id, ¬ TransGen d.Needs id id) ↔ ∀ index, ¬ TransGen (DependsOn d.needs) index index := by
  exact ⟨fun ha _ ht => ha _ (transGen_idAt h ht), fun ha _ ht => ha _ (transGen_idxOf h ht)⟩

end

/-! ## The checks on ancestors -/

section

variable {d : Definition} {order : List ℕ}

theorem hasAncestor_needs (h : d.Resolvable) (ho : IsOrder d.needs order) {i j : ℕ}
    (hi : i < d.nodes.length) (hj : j < d.nodes.length) :
    (Relations.of d.needs order).hasAncestor i j = true ↔
      TransGen d.Needs (d.idAt i) (d.idAt j) := by
  rw [Relations.hasAncestor_iff h.validNeeds (by rw [d.needs_length]; exact h.nodes_le) ho,
    transGen_needs h hi hj]

theorem ancestryErrors_eq_nil (h : d.Resolvable) (ho : IsOrder d.needs order) {index : ℕ}
    {node : Node} (hn : d.nodes[index]? = some node) :
    ancestryErrors d (indexNodes d).1 (Relations.of d.needs order) index node.template = [] ↔
      ∀ template, node.template = some template →
        ∀ reference ∈ template.outputs, TransGen d.Needs reference node.id := by
  have hlt : index < d.nodes.length := (List.getElem?_eq_some_iff.mp hn).1
  have hread : ∀ reference, (((indexNodes d).1[reference]?).any fun other =>
      (Relations.of d.needs order).hasAncestor other index) = true ↔
      TransGen d.Needs reference node.id := by
    intro reference
    rw [(indexNodes_index h.ids_nodup).1 reference]
    by_cases hr : reference ∈ d.ids
    · rw [if_pos hr, Option.any_some, hasAncestor_needs h ho (d.idxOf_lt hr) hlt,
        d.idAt_idxOf hr, d.idAt_of_getElem? hn]
    · rw [if_neg hr, Option.any_none]
      exact ⟨by simp, fun ht => absurd (transGen_mem_ids h ht).1 hr⟩
  cases node.template with
  | none => simp [ancestryErrors]
  | some template =>
    simp only [ancestryErrors, flatMap_eq_nil_iff, Option.some.injEq, forall_eq']
    refine forall₂_congr fun reference _ => ?_
    rw [← hread reference]
    split <;> simp_all

theorem slotOrderErrors_eq_nil (h : d.Resolvable) (ho : IsOrder d.needs order)
    {first second : ℕ} {a b : Node} (ha : d.nodes[first]? = some a)
    (hb : d.nodes[second]? = some b) :
    slotOrderErrors d (d.nodes.map fun node => some (d.slotNames.idxOf node.slot))
        (Relations.of d.needs order) first second = [] ↔
      (a.slot = b.slot → TransGen d.Needs a.id b.id ∨ TransGen d.Needs b.id a.id) := by
  have hla := (List.getElem?_eq_some_iff.mp ha).1
  have hlb := (List.getElem?_eq_some_iff.mp hb).1
  have h1 := hasAncestor_needs h ho hla hlb
  have h2 := hasAncestor_needs h ho hlb hla
  rw [d.idAt_of_getElem? ha, d.idAt_of_getElem? hb] at h1 h2
  have hslot : d.slotNames.idxOf a.slot = d.slotNames.idxOf b.slot ↔ a.slot = b.slot :=
    idxOf_inj (h.slot_known a (mem_of_getElem? ha))
  simp only [slotOrderErrors, getD_eq_getElem?_getD, getElem?_map, ha, hb,
    Option.map_some, Option.getD_some, Option.some.injEq, hslot, ← h1, ← h2]
  cases (Relations.of d.needs order).hasAncestor first second <;>
    cases (Relations.of d.needs order).hasAncestor second first <;> simp

/-- **The second group of checks** finds nothing exactly when outputs are read from ancestors and
slots are ordered. -/
theorem orderErrors_eq_nil (h : d.Resolvable) (ho : IsOrder d.needs order) :
    orderErrors d (Resolved.of d) (Relations.of d.needs order) = [] ↔
      d.OutputsAncestors ∧ d.SlotsOrdered := by
  have htemplates : (Resolved.of d).resolved.map ResolvedNode.template =
      d.nodes.map Node.template := by
    rw [h.resolved, List.map_map]
    rfl
  have hslots : (Resolved.of d).resolved.map ResolvedNode.slot =
      d.nodes.map fun node => some (d.slotNames.idxOf node.slot) := by
    rw [h.resolved, List.map_map]
    rfl
  rw [orderErrors, htemplates, hslots, append_eq_nil_iff, flatMap_eq_nil_iff]
  refine and_congr ⟨fun hall node hm => ?_, fun hall p hp => ?_⟩ ?_
  · obtain ⟨index, -, hn⟩ := d.exists_index hm
    refine (ancestryErrors_eq_nil h ho hn).mp (hall (node.template, index) ?_)
    rw [mem_zipIdx_iff_getElem?, getElem?_map, hn]
    rfl
  · obtain ⟨template, index⟩ := p
    rw [mem_zipIdx_iff_getElem?, getElem?_map, Option.map_eq_some_iff] at hp
    obtain ⟨node, hn, rfl⟩ := hp
    exact (ancestryErrors_eq_nil h ho hn).mpr (hall node (mem_of_getElem? hn))
  · simp only [flatMap_eq_nil_iff, mem_range, mem_range'_1]
    constructor
    · intro hall a ha b hb hne hslot
      obtain ⟨i, hli, hi⟩ := d.exists_index ha
      obtain ⟨j, hlj, hj⟩ := d.exists_index hb
      have hij : i ≠ j := by
        rintro rfl
        exact hne (Option.some.inj (hi.symm.trans hj))
      rcases Nat.lt_or_gt_of_ne hij with hlt | hlt
      · exact (slotOrderErrors_eq_nil h ho hi hj).mp (hall i hli j (by omega)) hslot
      · exact ((slotOrderErrors_eq_nil h ho hj hi).mp (hall j hlj i (by omega)) hslot.symm).symm
    · intro hall i hi j hj
      have hlj : j < d.nodes.length := by omega
      refine (slotOrderErrors_eq_nil h ho (getElem?_eq_getElem hi) (getElem?_eq_getElem hlj)).mpr ?_
      refine hall _ (getElem_mem hi) _ (getElem_mem hlj) fun he => ?_
      have := d.idxOf_id h.ids_nodup (getElem?_eq_getElem hi)
      rw [he, d.idxOf_id h.ids_nodup (getElem?_eq_getElem hlj)] at this
      omega

end

/-! ## What is accepted -/

/-- The graph of a definition, once its order is known. -/
def Definition.graph (d : Definition) (order : List ℕ) : Graph where
  definition := d
  slotOf := d.nodes.map fun node => some (d.slotNames.idxOf node.slot)
  needs := d.needs
  relations := Relations.of d.needs order
  templates := d.nodes.map Node.template
  order

section

variable {d : Definition} {g : Graph}

theorem Graph.new_errors_nil (h : Graph.new d = .ok g) : (Resolved.of d).errors = [] := by
  simp only [Graph.new] at h
  split at h
  · cases h
  · split at h
    · cases h
    · split at h
      · cases h
      · next he =>
        simp only [Bool.not_eq_true, Bool.not_eq_false', List.isEmpty_iff, append_eq_nil_iff] at he
        exact he.1

/-- `Graph.new` in terms of the definition. -/
theorem Graph.new_eq (h : d.Resolvable) : Graph.new d =
    match topologicalOrder d.needs with
    | .error cycle => .error [.cycle (cycle.map d.idAt)]
    | .ok order =>
      let errors := orderErrors d (Resolved.of d) (Relations.of d.needs order)
      if !errors.isEmpty then .error errors else .ok (d.graph order) := by
  have hneeds : (Resolved.of d).resolved.map ResolvedNode.needs = d.needs := by
    rw [h.resolved, List.map_map]
    rfl
  have hslots : (Resolved.of d).resolved.map ResolvedNode.slot =
      d.nodes.map fun node => some (d.slotNames.idxOf node.slot) := by
    rw [h.resolved, List.map_map]
    rfl
  have htemplates : (Resolved.of d).resolved.map ResolvedNode.template =
      d.nodes.map Node.template := by
    rw [h.resolved, List.map_map]
    rfl
  have hall : (Resolved.of d).resolved.all ResolvedNode.resolved = true := by
    rw [h.resolved, all_map]
    exact all_eq_true.mpr fun _ _ => rfl
  have hsize : (Resolved.of d).nodes.size = d.nodes.length := (indexNodes_index h.ids_nodup).2
  simp only [Graph.new, hneeds, hslots, htemplates, hall, hsize, resolved_errors.mpr h,
    nil_append, true_and]
  rw [if_neg (by simpa [maxNodes] using h.nodes_le)]
  rfl

/-- What an accepted definition satisfies, and what its graph is. -/
theorem Graph.new_ok (h : Graph.new d = .ok g) : d.WellFormed ∧
    ∃ order, topologicalOrder d.needs = .ok order ∧ IsOrder d.needs order ∧ g = d.graph order := by
  have hr := resolved_errors.mp (Graph.new_errors_nil h)
  have hspec := topologicalOrder_spec hr.validNeeds
  rw [Graph.new_eq hr] at h
  split at h
  · cases h
  · next order ht =>
    rw [ht] at hspec
    have ho : IsOrder d.needs order := hspec
    simp only at h
    split at h
    · cases h
    · next he =>
      simp only [Bool.not_eq_true, Bool.not_eq_false', List.isEmpty_iff] at he
      obtain ⟨hout, hslots⟩ := (orderErrors_eq_nil hr ho).mp he
      exact ⟨⟨hr, (acyclic_iff hr).mpr (not_transGen_self ho.wellFounded), hout, hslots⟩,
        order, ht, ho, (Except.ok.inj h).symm⟩

theorem Definition.WellFormed.new_ok (h : d.WellFormed) : ∃ order,
    topologicalOrder d.needs = .ok order ∧ Graph.new d = .ok (d.graph order) := by
  have hr := h.toResolvable
  obtain ⟨order, ht, ho⟩ := topologicalOrder_ok hr.validNeeds ((acyclic_iff hr).mp h.acyclic)
  refine ⟨order, ht, ?_⟩
  rw [Graph.new_eq hr, ht]
  simp only [(orderErrors_eq_nil hr ho).mpr ⟨h.outputs_ancestors, h.slots_ordered⟩]
  rfl

/-- **Validation accepts exactly the well-formed definitions.** -/
theorem Graph.new_accepts_iff (d : Definition) : (∃ g, Graph.new d = .ok g) ↔ d.WellFormed := by
  constructor
  · rintro ⟨g, h⟩
    exact (Graph.new_ok h).1
  · intro h
    obtain ⟨order, -, hn⟩ := h.new_ok
    exact ⟨d.graph order, hn⟩

/-! ## What a graph guarantees -/

/-- What the scheduler and the composer may assume of a graph. -/
structure Graph.Sound (g : Graph) : Prop where
  nodes_pos : 1 ≤ g.nodeCount
  maxParallel_pos : 1 ≤ g.maxParallel
  needs_length : g.needs.length = g.nodeCount
  validNeeds : ValidNeeds g.needs
  isOrder : IsOrder g.needs g.order
  slot_lt : ∀ node < g.nodeCount, g.slotAt node < g.slotCount
  isAncestor_iff : ∀ ancestor node, g.isAncestor ancestor node = true ↔
    TransGen (DependsOn g.needs) ancestor node
  slots_ordered : ∀ first < g.nodeCount, ∀ second < g.nodeCount, first ≠ second →
    g.slotAt first = g.slotAt second →
    g.isAncestor first second = true ∨ g.isAncestor second first = true

theorem Definition.slotAt_graph {order : List ℕ} {index : ℕ} {node : Node}
    (h : d.nodes[index]? = some node) :
    (d.graph order).slotAt index = d.slotNames.idxOf node.slot := by
  simp [Graph.slotAt, Definition.graph, getD_eq_getElem?_getD, h]

/-- **Every graph is sound.** -/
theorem Graph.new_sound (h : Graph.new d = .ok g) : g.Sound := by
  obtain ⟨hw, order, -, ho, rfl⟩ := Graph.new_ok h
  have hr := hw.toResolvable
  have hanc : ∀ ancestor node, (d.graph order).isAncestor ancestor node = true ↔
      TransGen (DependsOn d.needs) ancestor node :=
    Relations.hasAncestor_iff hr.validNeeds (by rw [d.needs_length]; exact hr.nodes_le) ho
  refine ⟨hr.nodes_pos, ?_, d.needs_length, hr.validNeeds, ho, fun index hi => ?_, hanc,
    fun first hf second hs hne hslot => ?_⟩
  · show 1 ≤ d.maxParallel.elim defaultMaxParallel UInt32.toNat
    cases hm : d.maxParallel with
    | none => decide
    | some value => exact UInt32.le_iff_toNat_le.mp (hr.maxParallel value hm).1
  · have hn := getElem?_eq_getElem (show index < d.nodes.length from hi)
    have := idxOf_lt_length_iff.mpr (hr.slot_known _ (mem_of_getElem? hn))
    rw [Definition.slotAt_graph hn]
    simpa [Graph.slotCount, Definition.slotNames, Definition.graph] using this
  · have h1 := getElem?_eq_getElem (show first < d.nodes.length from hf)
    have h2 := getElem?_eq_getElem (show second < d.nodes.length from hs)
    rw [Definition.slotAt_graph h1, Definition.slotAt_graph h2,
      idxOf_inj (hr.slot_known _ (mem_of_getElem? h1))] at hslot
    rw [hanc, hanc, transGen_needs hr hf hs, transGen_needs hr hs hf, d.idAt_of_getElem? h1,
      d.idAt_of_getElem? h2]
    refine hw.slots_ordered _ (mem_of_getElem? h1) _ (mem_of_getElem? h2) (fun he => ?_) hslot
    have := d.idxOf_id hr.ids_nodup h1
    rw [he, d.idxOf_id hr.ids_nodup h2] at this
    exact hne this.symm

end

/-! ## A small graph -/

/-- `plan` on one slot, and `review` on another, reading the output of `plan`. -/
def planReview : Definition where
  version := 1
  maxParallel := none
  slots := [⟨"dev".toList, ⟨⟨.claude, "Default".toList⟩, [], {}⟩⟩,
    ⟨"critic".toList, ⟨⟨.codex, "Review".toList⟩, [], {}⟩⟩]
  nodes := [{ id := "plan".toList, slot := "dev".toList },
    { id := "review".toList, slot := "critic".toList, needs := ["plan".toList]
      prompt := some "Check {{plan.output}}".toList }]
  layout := ∅

theorem planReview_order : topologicalOrder planReview.needs = .ok [0, 1] := by decide +kernel

theorem planReview_new : Graph.new planReview = .ok (planReview.graph [0, 1]) := by
  have haccepted : (Graph.new planReview).toOption.isSome = true := by decide +kernel
  cases h : Graph.new planReview with
  | error e =>
    rw [h] at haccepted
    cases haccepted
  | ok g =>
    obtain ⟨-, order, ho, -, rfl⟩ := Graph.new_ok h
    rw [planReview_order] at ho
    cases ho
    rfl

end NiumaTerm.Orchestration
