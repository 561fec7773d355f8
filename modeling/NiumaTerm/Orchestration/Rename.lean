import NiumaTerm.Orchestration.Compose
import NiumaTerm.Orchestration.Edit
import NiumaTerm.Orchestration.Print
import NiumaTerm.Orchestration.Validation

/-!
# Renaming a node

Renaming prints every prompt that reads the renamed node again.  Indices do not see the names, so the
order, the ancestors and the depths are the old ones.  `renameNode_preserves_iff`: the graph stays the
same exactly when no template that reads the renamed node has a loose brace.
-/

namespace NiumaTerm.Orchestration

open Rust Relation List

/-! ## Changing the element with a key -/

variable {α β : Type*} {l : List α}

theorem changeFirst_cons (p : α → Bool) (f : α → α) (a : α) (l : List α) :
    changeFirst p f (a :: l) = if p a then some (f a :: l) else (changeFirst p f l).map (a :: ·) := by
  rw [changeFirst, findIdx?_cons]
  cases p a with
  | true => rfl
  | false => simp [changeFirst, Option.map_map, Function.comp_def]

/-- Where keys are different, changing the first element with a key is a map. -/
theorem changeFirst_eq_map [DecidableEq β] {key : α → β} {k : β} {f : α → α}
    (hnd : (l.map key).Nodup) (hk : k ∈ l.map key) :
    changeFirst (fun a => key a = k) f l = some (l.map fun a => if key a = k then f a else a) := by
  induction l with
  | nil => simp at hk
  | cons a l ih =>
    rw [map_cons, nodup_cons] at hnd
    rw [changeFirst_cons, map_cons]
    by_cases ha : key a = k
    · have hrest : l.map (fun b => if key b = k then f b else b) = l := by
        refine (map_congr_left fun b hb => if_neg fun he => ?_).trans (map_id l)
        exact hnd.1 (ha ▸ he ▸ mem_map_of_mem hb)
      simp [ha, hrest]
    · have hk' : k ∈ l.map key := by
        rw [map_cons, mem_cons] at hk
        exact hk.resolve_left fun he => ha he.symm
      simp [ha, ih hnd.2 hk']

/-- A map that is injective on a list keeps the positions of its elements. -/
theorem idxOf_map_of_injOn [BEq α] [LawfulBEq α] [BEq β] [LawfulBEq β] {f : α → β}
    {a : α} (h : ∀ b ∈ l, f b = f a → b = a) : (l.map f).idxOf (f a) = l.idxOf a := by
  induction l with
  | nil => rfl
  | cons b l ih =>
    rw [map_cons]
    by_cases hb : b = a
    · subst hb
      simp
    · have hf : f b ≠ f a := fun he => hb (h b (by simp) he)
      rw [idxOf_cons_ne _ hf, idxOf_cons_ne _ hb, ih fun c hc => h c (by simp [hc])]

theorem findIdx?_map_of_eq {f : α → α} {p q : α → Bool}
    (h : ∀ a ∈ l, q (f a) = p a) : (l.map f).findIdx? q = l.findIdx? p := by
  induction l with
  | nil => rfl
  | cons a l ih =>
    rw [map_cons, findIdx?_cons, findIdx?_cons, h a (by simp), ih fun b hb => h b (by simp [hb])]

theorem mapM_congr_of_mem {f f' : α → Option β}
    (h : ∀ a ∈ l, f a = f' a) : l.mapM f = l.mapM f' := by
  induction l with
  | nil => rfl
  | cons a l ih =>
    rw [mapM_cons, mapM_cons, h a (by simp), ih fun b hb => h b (by simp [hb])]

/-! ## Renaming in a template -/

section

variable {old new : Str}

theorem isText_renameSegment (s : Segment) :
    (Template.renameSegment old new s).isText = s.isText := by
  cases s <;> rfl

theorem normal_rename (hv : isNodeId new = true) {segments : List Segment} (h : Normal segments) :
    Normal (segments.map (Template.renameSegment old new)) := by
  induction segments with
  | nil => trivial
  | cons s rest ih =>
    have hrest := ih h.tail
    cases s with
    | text t =>
      refine ⟨h.1, ?_, hrest⟩
      have hf := h.2.1
      cases rest with
      | nil => trivial
      | cons s more => exact ⟨(isText_renameSegment s).trans hf.1, hf.2⟩
    | input => exact hrest
    | output node =>
      refine ⟨?_, hrest⟩
      split
      · exact hv
      · exact h.1

theorem looseBrace_rename (segments : List Segment) :
    looseBrace (segments.map (Template.renameSegment old new)) = looseBrace segments := by
  induction segments with
  | nil => rfl
  | cons s rest ih =>
    cases s with
    | text t =>
      cases rest with
      | nil => rfl
      | cons s more =>
        rw [map_cons] at ih
        rw [map_cons, map_cons, Template.renameSegment, looseBrace, looseBrace,
          isText_renameSegment, ih]
        rintro _ ⟨⟩
    | input | output node => exact ih

variable {t : Template} {prompt : Str}

/-- A template that does not read the renamed node is not changed. -/
theorem renameOutput_of_not_mem (h : old ∉ t.outputs) : (t.renameOutput old new).2 = t := by
  obtain ⟨segments⟩ := t
  simp only [Template.renameOutput, Template.mk.injEq]
  refine (map_congr_left fun s hs => ?_).trans (map_id segments)
  cases s with
  | text | input => rfl
  | output node =>
    have hne : node ≠ old := by
      rintro rfl
      exact h (mem_filterMap.mpr ⟨_, hs, rfl⟩)
    simp [Template.renameSegment, hne]

theorem outputs_renameOutput (t : Template) :
    (t.renameOutput old new).2.outputs = t.outputs.map (renameId old new) := by
  simp only [Template.outputs, Template.renameOutput, filterMap_map, map_filterMap]
  refine filterMap_congr fun s _ => ?_
  cases s <;> rfl

theorem renamePrompt_eq (h : Template.parse prompt = .ok t) :
    renamePrompt old new prompt =
      if old ∈ t.outputs then (t.renameOutput old new).2.toSource else prompt := by
  simp [renamePrompt, h, Template.renameOutput]

/-- **A prompt without a loose brace is renamed like its template.** -/
theorem parse_renamePrompt (hv : isNodeId new = true) (h : Template.parse prompt = .ok t) (hl : old ∈ t.outputs → looseBrace t.segments = false) :
    Template.parse (renamePrompt old new prompt) = .ok (t.renameOutput old new).2 := by
  rw [renamePrompt_eq h]
  split
  · next hm =>
    exact parse_toSource (normal_rename hv (parse_normal h)) ((looseBrace_rename _).trans (hl hm))
  · next hm => rw [renameOutput_of_not_mem hm, h]

/-- A prompt with a loose brace that reads the renamed node is refused afterwards. -/
theorem parse_renamePrompt_looseBrace (hv : isNodeId new = true) (h : Template.parse prompt = .ok t) (hm : old ∈ t.outputs)
    (hl : looseBrace t.segments = true) : ∃ e, Template.parse (renamePrompt old new prompt) = .error e := by
  rw [renamePrompt_eq h, if_pos hm]
  exact parse_toSource_looseBrace (normal_rename hv (parse_normal h))
    ((looseBrace_rename _).trans hl)

/-- **When a template is read back.**  What a source text is read as is printed and read again as
it was, also after any of its references were renamed, exactly when no literal directly before a
reference ends in an odd number of opening braces. -/
theorem parse_toSource_iff {source : Str} {t : Template} (h : Template.parse source = .ok t) :
    (Template.parse t.toSource = .ok t ∧
      ∀ old new, isNodeId old = true → isNodeId new = true →
        Template.parse (t.renameOutput old new).2.toSource = .ok (t.renameOutput old new).2) ↔
      looseBrace t.segments = false := by
  have hnormal := parse_normal h
  constructor
  · rintro ⟨hread, -⟩
    rw [← Bool.not_eq_true]
    intro hloose
    obtain ⟨e, he⟩ := parse_toSource_looseBrace hnormal hloose
    rw [hread] at he
    cases he
  · intro hl
    exact ⟨parse_toSource hnormal hl, fun old new _ hv ↦
      parse_toSource (normal_rename hv hnormal) ((looseBrace_rename _).trans hl)⟩

/-- A literal that ends in two braces is read back. -/
theorem parse_toSource_evenBraces :
    let t : Template := ⟨[.text "\x7b\x7b".toList, .output "plan".toList]⟩
    Template.parse t.toSource = .ok t ∧
      ∀ old new, isNodeId old = true → isNodeId new = true →
        Template.parse (t.renameOutput old new).2.toSource = .ok (t.renameOutput old new).2 := by
  have hread : Template.parse "\\\x7b\x7b\x7b\x7bplan.output\x7d\x7d".toList =
      .ok ⟨[.text "\x7b\x7b".toList, .output "plan".toList]⟩ := by decide +kernel
  exact (parse_toSource_iff hread).mpr (by decide)

/-- Three braces are printed as an escaped pair and a brace that is read as part of the
reference. -/
theorem three_braces_unread :
    Template.parse "\x7b\\\x7b\x7b\x7b\x7bplan.output\x7d\x7d".toList =
        .ok ⟨[.text "\x7b\x7b\x7b".toList, .output "plan".toList]⟩ ∧
      Template.parse (Template.toSource ⟨[.text "\x7b\x7b\x7b".toList, .output "plan".toList]⟩) =
        .error (.unknownReference "\x7bplan.output".toList) := by
  decide +kernel

/-- A prompt that is printed again holds a reference, so it is not blank. -/
theorem renamePrompt_nonblank (h : Template.parse prompt = .ok t)
    (hb : ∃ c ∈ prompt, isWhitespace c = false) :
    ∃ c ∈ renamePrompt old new prompt, isWhitespace c = false := by
  rw [renamePrompt_eq h]
  split
  · next hm =>
    obtain ⟨s, hs, he⟩ := mem_filterMap.mp hm
    refine ⟨'{', mem_flatMap.mpr ⟨_, mem_map_of_mem hs, ?_⟩, by decide⟩
    cases s with
    | text | input => cases he
    | output node =>
      show '{' ∈ openBraces ++ renameId old new node ++ outputField ++ closeBraces
      simp [openBraces]
  · exact hb

end

/-! ## The renamed definition -/

def renamedNode (old new : Str) (node : Node) : Node :=
  renameInNode old new { node with id := renameId old new node.id }

/-- The definition after a rename that applies. -/
def Definition.renamed (d : Definition) (old new : Str) : Definition :=
  { d with
    nodes := d.nodes.map (renamedNode old new)
    layout := renameLayout old new d.layout }

section

variable {d : Definition} {old new : Str}

theorem renameId_inj {a b : Str} (ha : a ≠ new) (hb : b ≠ new)
    (h : renameId old new a = renameId old new b) : a = b := by
  rw [renameId, renameId] at h
  split at h <;> split at h
  · next h1 h2 => rw [h1, h2]
  · exact absurd h.symm hb
  · exact absurd h ha
  · exact h

theorem ids_renamed : (d.renamed old new).ids = d.ids.map (renameId old new) := by
  simp [Definition.ids, Definition.renamed, renamedNode, renameInNode, Function.comp_def]

/-- **A rename from a node's id to an unused one applies**, and is a map over the nodes. -/
theorem renameNode_eq (hnd : d.ids.Nodup) (hold : old ∈ d.ids) (hnew : new ∉ d.ids) :
    Edit.applyTo d (.renameNode old new) = (true, d.renamed old new) := by
  have hne : old ≠ new := fun he => hnew (he ▸ hold)
  have hused : ¬ (d.nodes.any fun node => node.id = new) = true := by
    rw [any_eq_true]
    rintro ⟨node, hm, he⟩
    exact hnew (mem_map.mpr ⟨node, hm, by simpa using he⟩)
  have hchange : changeFirst (fun node => node.id = old) (fun node => { node with id := new }) d.nodes
      = some (d.nodes.map fun node => if node.id = old then { node with id := new } else node) :=
    changeFirst_eq_map hnd hold
  rw [Edit.applyTo, renameNode, if_neg (not_or.mpr ⟨hne, hused⟩), hchange]
  simp only [Prod.mk.injEq, true_and, Definition.renamed, List.map_map]
  congr 1
  refine map_congr_left fun node _ => ?_
  by_cases he : node.id = old <;> simp [renamedNode, renameInNode, renameId, he]

variable (hnew : new ∉ d.ids)

include hnew

theorem renameId_injOn {a : Str} (ha : a ∈ d.ids) :
    ∀ b ∈ d.ids, renameId old new b = renameId old new a → b = a := by
  intro b hb he
  refine renameId_inj ?_ ?_ he
  · rintro rfl
    exact hnew hb
  · rintro rfl
    exact hnew ha

theorem idxOf_renamed {id : Str} (h : id ∈ d.ids) :
    (d.renamed old new).ids.idxOf (renameId old new id) = d.ids.idxOf id := by
  rw [ids_renamed]
  exact idxOf_map_of_injOn (renameId_injOn hnew h)

/-- **Indices do not see the names.** -/
theorem needs_renamed (h : d.Resolvable) : (d.renamed old new).needs = d.needs := by
  simp only [Definition.needs, Definition.renamed, List.map_map]
  refine map_congr_left fun node hn => ?_
  simp only [Function.comp_apply, renamedNode, renameInNode, List.map_map]
  exact map_congr_left fun dependency hd => idxOf_renamed hnew (h.needs_known node hn _ hd)

end

/-! ## Validation of the renamed definition -/

/-- No template that reads `old` has a loose brace. -/
def Definition.NoLooseReference (d : Definition) (old : Str) : Prop :=
  ∀ node ∈ d.nodes, ∀ template, node.template = some template → old ∈ template.outputs →
    looseBrace template.segments = false

section

variable {d : Definition} {old new : Str}

theorem Node.template_eq_some {node : Node} {t : Template} : node.template = some t ↔
    ∃ prompt, node.prompt = some prompt ∧ Template.parse prompt = .ok t := by
  rw [Node.template, Option.bind_eq_some_iff]
  refine exists_congr fun prompt => and_congr_right fun _ => ?_
  cases Template.parse prompt <;> simp [Except.toOption]

theorem template_renamedNode (h : d.Resolvable) (hv : isNodeId new = true)
    (hl : d.NoLooseReference old) {node : Node} (hn : node ∈ d.nodes) :
    (renamedNode old new node).template =
      node.template.map fun t => (t.renameOutput old new).2 := by
  cases hp : node.prompt with
  | none => simp [Node.template, renamedNode, renameInNode, hp]
  | some prompt =>
    obtain ⟨t, ht⟩ := h.prompt_parses node hn prompt hp
    have htemplate : node.template = some t := Node.template_eq_some.mpr ⟨prompt, hp, ht⟩
    rw [htemplate, Option.map_some, Node.template_eq_some]
    exact ⟨_, by simp [renamedNode, renameInNode, hp], parse_renamePrompt hv ht (hl node hn t htemplate)⟩

theorem Definition.Needs.renamed {a b : Str} (h : d.Needs a b) :
    (d.renamed old new).Needs (renameId old new a) (renameId old new b) := by
  obtain ⟨node, hn, rfl, ha⟩ := h
  exact ⟨renamedNode old new node, mem_map_of_mem hn, rfl, mem_map_of_mem ha⟩

theorem transGen_renamed {a b : Str} (h : TransGen d.Needs a b) :
    TransGen (d.renamed old new).Needs (renameId old new a) (renameId old new b) :=
  TransGen.lift (renameId old new) (fun _ _ hn => Definition.Needs.renamed hn) a b h

theorem resolvable_renamed (h : d.Resolvable) (hv : isNodeId new = true) (hnew : new ∉ d.ids)
    (hl : d.NoLooseReference old) : (d.renamed old new).Resolvable := by
  have hprompt : ∀ node ∈ d.nodes, ∀ prompt, (renamedNode old new node).prompt = some prompt →
      ∃ before t, node.prompt = some before ∧ Template.parse before = .ok t ∧
        prompt = renamePrompt old new before ∧ node.template = some t := by
    intro node hn prompt hp
    simp only [renamedNode, renameInNode, Option.map_eq_some_iff] at hp
    obtain ⟨before, hb, rfl⟩ := hp
    obtain ⟨t, ht⟩ := h.prompt_parses node hn before hb
    exact ⟨before, t, hb, ht, rfl, Node.template_eq_some.mpr ⟨before, hb, ht⟩⟩
  have hnodes : ∀ P : Node → Prop, (∀ node ∈ d.nodes, P (renamedNode old new node)) →
      ∀ node ∈ (d.renamed old new).nodes, P node := by
    intro P hP node hn
    obtain ⟨before, hb, rfl⟩ := mem_map.mp hn
    exact hP before hb
  refine ⟨h.version, h.maxParallel, ?_, ?_, ?_, ?_, h.slots_nonempty, h.slots_nodup, ?_, ?_, ?_, ?_, ?_⟩
  · simpa [Definition.renamed] using h.nodes_pos
  · simpa [Definition.renamed] using h.nodes_le
  · refine hnodes _ fun node hn => ?_
    show isNodeId (renameId old new node.id) = true
    rw [renameId]
    split
    · exact hv
    · exact h.ids_valid node hn
  · rw [ids_renamed]
    exact h.ids_nodup.map_on fun a ha b hb he => renameId_injOn hnew hb a ha he
  · exact hnodes _ h.slot_known
  · refine hnodes _ fun node hn dependency hd => ?_
    obtain ⟨before, hb, rfl⟩ := mem_map.mp hd
    rw [ids_renamed]
    exact mem_map_of_mem (h.needs_known node hn before hb)
  · refine hnodes _ fun node hn => (h.needs_nodup node hn).map_on fun a ha b hb he => ?_
    exact renameId_injOn hnew (h.needs_known node hn b hb) a (h.needs_known node hn a ha) he
  · refine hnodes _ fun node hn prompt hp => ?_
    obtain ⟨before, t, hb, ht, rfl, -⟩ := hprompt node hn prompt hp
    exact renamePrompt_nonblank ht (h.prompt_nonblank node hn before hb)
  · refine hnodes _ fun node hn prompt hp => ?_
    obtain ⟨before, t, -, ht, rfl, htemplate⟩ := hprompt node hn prompt hp
    exact ⟨_, parse_renamePrompt hv ht (hl node hn t htemplate)⟩

/-- **A rename without a loose brace keeps the definition well formed.** -/
theorem wellFormed_renamed (h : d.WellFormed) (hv : isNodeId new = true) (hnew : new ∉ d.ids)
    (hl : d.NoLooseReference old) : (d.renamed old new).WellFormed := by
  have hr := resolvable_renamed h.toResolvable hv hnew hl
  refine ⟨hr, ?_, ?_, ?_⟩
  · rw [acyclic_iff hr, needs_renamed hnew h.toResolvable, ← acyclic_iff h.toResolvable]
    exact h.acyclic
  · intro node hn template ht reference hm
    obtain ⟨before, hb, rfl⟩ := mem_map.mp hn
    rw [template_renamedNode h.toResolvable hv hl hb, Option.map_eq_some_iff] at ht
    obtain ⟨t, ht, rfl⟩ := ht
    rw [outputs_renameOutput] at hm
    obtain ⟨r, hr', rfl⟩ := mem_map.mp hm
    exact transGen_renamed (h.outputs_ancestors before hb t ht r hr')
  · intro first hf second hs hne hslot
    obtain ⟨a, ha, rfl⟩ := mem_map.mp hf
    obtain ⟨b, hb, rfl⟩ := mem_map.mp hs
    have hab : a ≠ b := by
      rintro rfl
      exact hne rfl
    exact (h.slots_ordered a ha b hb hab hslot).imp transGen_renamed transGen_renamed

/-- A definition with a loose brace in a prompt that reads the renamed node is refused afterwards. -/
theorem noLooseReference_of_resolvable (hv : isNodeId new = true)
    (hr : (d.renamed old new).Resolvable) : d.NoLooseReference old := by
  intro node hn t ht hm
  rw [← Bool.not_eq_true]
  intro hl
  obtain ⟨prompt, hp, hparse⟩ := Node.template_eq_some.mp ht
  obtain ⟨e, he⟩ := parse_renamePrompt_looseBrace hv hparse hm hl
  obtain ⟨t', ht'⟩ := hr.prompt_parses (renamedNode old new node) (mem_map_of_mem hn)
    (renamePrompt old new prompt) (by simp [renamedNode, renameInNode, hp])
  rw [he] at ht'
  cases ht'

end

/-! ## What renaming preserves -/

/-- The graph `g'` is `g` with a node renamed: nothing that goes by indices changes, the templates
read the new name, the layout entry moves along, and only headings that name the node differ in the
texts sent. -/
structure SameGraph (old new : Str) (g g' : Graph) : Prop where
  slotOf : g'.slotOf = g.slotOf
  needs : g'.needs = g.needs
  isAncestor : ∀ ancestor node, g'.isAncestor ancestor node = g.isAncestor ancestor node
  order : g'.order = g.order
  depth : ∀ node, g'.depthAt node = g.depthAt node
  templates : g'.templates = g.templates.map (Option.map fun t => (t.renameOutput old new).2)
  layout_moved : ∀ position, g.definition.layout[old]? = some position →
    g'.definition.layout[new]? = some position ∧ g'.definition.layout[old]? = none
  layout_none : g.definition.layout[old]? = none → g'.definition.layout = g.definition.layout
  layout_others : ∀ id, id ≠ old → id ≠ new →
    g'.definition.layout[id]? = g.definition.layout[id]?
  compose : ∀ node input role outputs, compose g' node input role outputs
    = composeWith (fun index => renameId old new (g.definition.idAt index)) g node input role outputs

theorem getElem?_renameLayout {old new : Str} (hne : old ≠ new) (layout : Layout) :
    (∀ position, layout[old]? = some position →
      (renameLayout old new layout)[new]? = some position ∧
        (renameLayout old new layout)[old]? = none) ∧
    (layout[old]? = none → renameLayout old new layout = layout) ∧
    ∀ id, id ≠ old → id ≠ new → (renameLayout old new layout)[id]? = layout[id]? := by
  rw [renameLayout]
  cases h : layout[old]? with
  | none => simp
  | some position =>
    refine ⟨?_, by simp, fun id ho hn => ?_⟩
    · rintro _ ⟨⟩
      refine ⟨by simp, ?_⟩
      simp [hne.symm]
    · simp [Std.TreeMap.getElem?_insert, Std.TreeMap.getElem?_erase, Ne.symm ho, Ne.symm hn]

section

variable {d : Definition} {old new : Str}

/-- A reference and its renamed form name the same node. -/
theorem nodeIndex_renamed (hnew : new ∉ d.ids) {order : List ℕ} {id : Str} (h : id ∈ d.ids) :
    ((d.renamed old new).graph order).nodeIndex (renameId old new id)
      = (d.graph order).nodeIndex id := by
  refine findIdx?_map_of_eq fun node hn => ?_
  have hid : node.id ∈ d.ids := mem_map_of_mem hn
  refine Bool.eq_iff_iff.mpr ?_
  rw [decide_eq_true_eq, decide_eq_true_eq]
  refine ⟨fun he => renameId_injOn hnew h node.id hid he, ?_⟩
  rintro rfl
  rfl

theorem templateAt_renamed (h : d.Resolvable) (hv : isNodeId new = true)
    (hl : d.NoLooseReference old) (order : List ℕ) (node : ℕ) :
    ((d.renamed old new).graph order).templateAt node
      = ((d.graph order).templateAt node).map fun t => (t.renameOutput old new).2 := by
  simp only [Graph.templateAt, Definition.graph, Definition.renamed, getD_eq_getElem?_getD,
    getElem?_map]
  cases hn : d.nodes[node]? with
  | none => rfl
  | some n =>
    simp only [Option.map_some, Option.getD_some]
    exact template_renamedNode h hv hl (mem_of_getElem? hn)

/-- The texts of the segments do not depend on the names. -/
theorem mapM_segmentText_renamed (h : d.WellFormed) (hnew : new ∉ d.ids) {order : List ℕ}
    {index : ℕ} {t : Template} (ht : (d.graph order).templateAt index = some t) (input : Str)
    (outputs : List (Option Str)) :
    (t.renameOutput old new).2.segments.mapM
        (segmentText ((d.renamed old new).graph order) input outputs)
      = t.segments.mapM (segmentText (d.graph order) input outputs) := by
  have hout : ∀ r ∈ t.outputs, r ∈ d.ids := by
    intro r hr
    simp only [Graph.templateAt, Definition.graph, getD_eq_getElem?_getD, getElem?_map] at ht
    cases hn : d.nodes[index]? with
    | none => rw [hn] at ht; cases ht
    | some n =>
      rw [hn] at ht
      exact (transGen_mem_ids h.toResolvable
        (h.outputs_ancestors n (mem_of_getElem? hn) t ht r hr)).1
  show (t.segments.map _).mapM _ = _
  rw [mapM_map]
  refine mapM_congr_of_mem fun s hs => ?_
  cases s with
  | text | input => rfl
  | output node =>
    have hnode : node ∈ d.ids := hout node (mem_filterMap.mpr ⟨_, hs, rfl⟩)
    show (do outputAt outputs (← ((d.renamed old new).graph order).nodeIndex
      (renameId old new node))) = _
    rw [nodeIndex_renamed hnew hnode]
    rfl

/-- **Texts differ only in the headings that name the renamed node.** -/
theorem compose_renamed (h : d.WellFormed) (hv : isNodeId new = true) (hnew : new ∉ d.ids)
    (hl : d.NoLooseReference old) (order : List ℕ) (node : ℕ) (input : Str) (role : Option Str)
    (outputs : List (Option Str)) :
    compose ((d.renamed old new).graph order) node input role outputs
      = composeWith (fun index => renameId old new (d.idAt index)) (d.graph order) node input role
        outputs := by
  have hr := h.toResolvable
  have hneeds : ((d.renamed old new).graph order).needsAt node = (d.graph order).needsAt node := by
    show needsOf (d.renamed old new).needs node = needsOf d.needs node
    rw [needs_renamed hnew hr]
  have hheading : ∀ dependency ∈ (d.graph order).needsAt node,
      (d.renamed old new).idAt dependency = renameId old new (d.idAt dependency) := by
    intro dependency hd
    have hlt : dependency < d.ids.length := by
      rw [d.ids_length, ← d.needs_length]
      exact hr.validNeeds.lt (show DependsOn d.needs dependency node from hd)
    rw [Definition.idAt, Definition.idAt, ids_renamed, getD_eq_getElem _ _ (by simpa using hlt),
      getD_eq_getElem _ _ hlt, getElem_map]
  have hbody : body (d.renamed old new).idAt ((d.renamed old new).graph order) node input outputs
      = body (fun index => renameId old new (d.idAt index)) (d.graph order) node input outputs := by
    rw [body, body, templateAt_renamed hr hv hl]
    cases ht : (d.graph order).templateAt node with
    | some t => simp only [Option.map_some, mapM_segmentText_renamed h hnew ht]
    | none =>
      simp only [Option.map_none, hneeds]
      split
      · rfl
      · congr 1
        refine mapM_congr_of_mem fun dependency hd => ?_
        rw [dependencyText, dependencyText, hheading dependency hd]
  show composeWith (d.renamed old new).idAt _ node input role outputs = _
  rw [composeWith, composeWith, hbody]

theorem sameGraph_renamed (h : d.WellFormed) (hv : isNodeId new = true) (hold : old ∈ d.ids)
    (hnew : new ∉ d.ids) (hl : d.NoLooseReference old) (order : List ℕ) :
    SameGraph old new (d.graph order) ((d.renamed old new).graph order) := by
  have hr := h.toResolvable
  have hne : old ≠ new := by
    rintro rfl
    exact hnew hold
  have hneeds : (d.renamed old new).needs = d.needs := needs_renamed hnew hr
  have hlayout := getElem?_renameLayout hne d.layout
  refine ⟨?_, hneeds, ?_, rfl, ?_, ?_, hlayout.1, hlayout.2.1, hlayout.2.2,
    compose_renamed h hv hnew hl order⟩
  · simp only [Definition.graph, Definition.renamed, List.map_map]
    rfl
  · intro ancestor node
    simp only [Graph.isAncestor, Definition.graph, hneeds]
  · intro node
    simp only [Graph.depthAt, Definition.graph, hneeds]
  · simp only [Definition.graph, Definition.renamed, List.map_map]
    exact map_congr_left fun node hn => template_renamedNode hr hv hl hn

end

section

variable {d : Definition} {g : Graph} {old new : Str}

/-- **When renaming a node preserves the graph.**  A rename of a node to an unused valid id applies,
is accepted and preserves the graph exactly when no template that reads the renamed node has, directly
before a reference, a literal ending in an odd number of opening braces. -/
theorem renameNode_preserves_iff (hg : Graph.new d = .ok g) (hold : old ∈ d.ids)
    (hv : isNodeId new = true) (hnew : new ∉ d.ids) :
    (∃ d' g', Edit.applyTo d (.renameNode old new) = (true, d') ∧ Graph.new d' = .ok g' ∧
      SameGraph old new g g') ↔ d.NoLooseReference old := by
  obtain ⟨hw, order, ht, -, rfl⟩ := Graph.new_ok hg
  have happlied := renameNode_eq hw.ids_nodup hold hnew
  constructor
  · rintro ⟨d', g', ha, hg', -⟩
    obtain rfl : d.renamed old new = d' := by
      rw [happlied] at ha
      exact (Prod.mk.inj ha).2
    exact noLooseReference_of_resolvable hv (Graph.new_ok hg').1.toResolvable
  · intro hl
    obtain ⟨order', ht', hnew'⟩ := (wellFormed_renamed hw hv hnew hl).new_ok
    rw [needs_renamed hnew hw.toResolvable, ht] at ht'
    obtain rfl : order = order' := Except.ok.inj ht'
    exact ⟨_, _, happlied, hnew', sameGraph_renamed hw hv hold hnew hl order⟩

/-- `plan` of the small graph can be renamed. -/
theorem renameNode_preserves_planReview : ∃ d' g',
    Edit.applyTo planReview (.renameNode "plan".toList "outline".toList) = (true, d') ∧
    Graph.new d' = .ok g' ∧
    SameGraph "plan".toList "outline".toList (planReview.graph [0, 1]) g' := by
  refine (renameNode_preserves_iff planReview_new (by decide) (by decide) (by decide)).mpr ?_
  intro node hn template ht _
  obtain ⟨prompt, hp, hparse⟩ := Node.template_eq_some.mp ht
  simp only [planReview, mem_cons, not_mem_nil, or_false] at hn
  rcases hn with rfl | rfl
  · cases hp
  · cases hp
    have hread : Template.parse "Check {{plan.output}}".toList
        = .ok ⟨[.text "Check ".toList, .output "plan".toList]⟩ := by decide +kernel
    rw [hread] at hparse
    cases hparse
    decide

/-- A review whose prompt writes three braces and then the output of `plan`. -/
def braceReview : Definition :=
  { planReview with
    nodes := [{ id := "plan".toList, slot := "dev".toList },
      { id := "review".toList, slot := "critic".toList, needs := ["plan".toList]
        prompt := some "\x7b\\\x7b\x7b\x7b\x7bplan.output\x7d\x7d".toList }] }

/-- Renaming `plan` makes it invalid: the third brace is printed without an escape, and read as part
of the reference. -/
theorem renameNode_breaks_braceReview : (Graph.new braceReview).toOption.isSome = true ∧
    "plan".toList ∈ braceReview.ids ∧ isNodeId "outline".toList = true ∧
    "outline".toList ∉ braceReview.ids ∧
    (Graph.new (Edit.applyTo braceReview
      (.renameNode "plan".toList "outline".toList)).2).toOption.isSome = false := by
  decide +kernel

end

end NiumaTerm.Orchestration
