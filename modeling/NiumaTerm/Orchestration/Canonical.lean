import NiumaTerm.Lib.Binary32
import NiumaTerm.Lib.Serde
import NiumaTerm.Orchestration.Definition

/-!
# The canonical format of a definition

`Definition.toCanonical` is the JSON value that the canvas writes, `Definition.ofJson` the derived reader.
JSON texts are taken to be written and read faithfully.  `Definition.layout_saturates` is a whole
coordinate that does not come back.
-/

namespace NiumaTerm

open Rust Serde List

/-! ## The parts of a slot -/

def AgentKind.id : AgentKind → String
  | codex => "codex"
  | claude => "claude"
  | deepSeek => "deep_seek"

def AgentKind.ofJson (value : Json) : Option AgentKind :=
  (unitVariant value).bind fun id =>
    [AgentKind.codex, .claude, .deepSeek].find? fun kind => kind.id.toList = id

namespace ProfileReference

def fields (profile : ProfileReference) : List (String × Option Json) :=
  [("kind", some (.text profile.kind.id)), ("name", some (.string profile.name))]

def toJson (profile : ProfileReference) : Json := .object (present profile.fields)

def ofJson (value : Json) : Option ProfileReference := do
  let fields ← structFields ["kind", "name"] false value
  return { kind := ← fields.required "kind" AgentKind.ofJson
           name := ← fields.required "name" Json.asStr }

end ProfileReference

namespace ThreadSettings

/-- Only the settings that are set. -/
def fields (settings : ThreadSettings) : List (String × Option Json) :=
  [("model", settings.model.map .string), ("approval", settings.approval.map .string),
    ("approvals_reviewer", settings.approvalsReviewer.map .string),
    ("sandbox", settings.sandbox.map .string), ("effort", settings.effort.map .string),
    ("tier", settings.tier.map .string), ("agent_preset", settings.agentPreset.map .string)]

def toCanonical (settings : ThreadSettings) : Json := .object (present settings.fields)

def ofJson (value : Json) : Option ThreadSettings := do
  let fields ← structFields ["model", "approval", "approvals_reviewer", "sandbox", "effort", "tier",
    "agent_preset"] false value
  return { model := ← fields.optional "model" Json.asStr
           approval := ← fields.optional "approval" Json.asStr
           approvalsReviewer := ← fields.optional "approvals_reviewer" Json.asStr
           sandbox := ← fields.optional "sandbox" Json.asStr
           effort := ← fields.optional "effort" Json.asStr
           tier := ← fields.optional "tier" Json.asStr
           agentPreset := ← fields.optional "agent_preset" Json.asStr }

end ThreadSettings

namespace Orchestration

namespace SlotBody

def fields (body : SlotBody) : List (String × Option Json) :=
  [("profile", some body.profile.toJson),
    ("role", if body.role.isEmpty then none else some (.string body.role)),
    ("settings", if body.settings = {} then none else some body.settings.toCanonical)]

def toCanonical (body : SlotBody) : Json := .object (present body.fields)

def ofJson (value : Json) : Option SlotBody := do
  let fields ← structFields ["profile", "role", "settings"] true value
  return { profile := ← fields.required "profile" ProfileReference.ofJson
           role := ← fields.defaulted "role" [] Json.asStr
           settings := ← fields.defaulted "settings" {} ThreadSettings.ofJson }

end SlotBody

/-! ## Nodes and positions -/

namespace Node

def fields (node : Node) : List (String × Option Json) :=
  [("id", some (.string node.id)), ("slot", some (.string node.slot)),
    ("needs", if node.needs.isEmpty then none else some (.array (node.needs.map .string))),
    ("prompt", node.prompt.map .string)]

def toJson (node : Node) : Json := .object (present node.fields)

def ofJson (value : Json) : Option Node := do
  let fields ← structFields ["id", "slot", "needs", "prompt"] true value
  return { id := ← fields.required "id" Json.asStr
           slot := ← fields.required "slot" Json.asStr
           needs := ← fields.defaulted "needs" [] (readList Json.asStr)
           prompt := ← fields.defaulted "prompt" none (nullable Json.asStr) }

end Node

/-- What the JSON library makes of a number that is not a 64-bit integer, as an `f32`. -/
abbrev OtherNumber := Number → Option Float32

def readF32 (other : OtherNumber) : Json → Option Float32
  | .number (.integer n) =>
    if -2 ^ 63 ≤ n ∧ n < 2 ^ 64 then some (Binary32.ofInt n) else other (.integer n)
  | .number number => other number
  | _ => none

namespace Position

/-- `WholePosition` -/
def fields (position : Position) : List (String × Option Json) :=
  [("x", some (.number (.integer (Binary32.roundI64 position.x)))),
    ("y", some (.number (.integer (Binary32.roundI64 position.y))))]

def toCanonical (position : Position) : Json := .object (present position.fields)

def ofJson (other : OtherNumber) (value : Json) : Option Position := do
  let fields ← structFields ["x", "y"] true value
  return { x := ← fields.required "x" (readF32 other)
           y := ← fields.required "y" (readF32 other) }

end Position

/-! ## Definitions -/

namespace Definition

/-- The positions of the nodes that have one, in node order. -/
def laidOut (d : Definition) : List (Str × Position) :=
  d.nodes.filterMap fun node => d.layout[node.id]?.map (node.id, ·)

def fields (d : Definition) : List (String × Option Json) :=
  [("version", some (ofNat d.version.toNat)),
    ("max_parallel", d.maxParallel.map fun value => ofNat value.toNat),
    ("slots", some (.object (d.slots.map fun slot =>
      (String.ofList slot.name, slot.body.toCanonical)))),
    ("nodes", some (.array (d.nodes.map Node.toJson))),
    ("layout", if d.laidOut.isEmpty then none else
      some (.object (d.laidOut.map fun entry => (String.ofList entry.1, entry.2.toCanonical))))]

def toCanonical (d : Definition) : Json := .object (present d.fields)

/-- `BTreeMap`: the last of two entries of a name counts. -/
def readLayout (other : OtherNumber) (value : Json) : Option Layout :=
  (readMembers (Position.ofJson other) value).map fun entries =>
    entries.foldl (fun layout entry => layout.insert entry.1 entry.2) ∅

def ofJson (other : OtherNumber) (value : Json) : Option Definition := do
  let fields ← structFields ["version", "max_parallel", "slots", "nodes", "layout"] true value
  return {
    version := ← fields.required "version" readU32
    maxParallel := ← fields.defaulted "max_parallel" none (nullable readU32)
    slots := ← fields.required "slots" fun slots =>
      (readMembers SlotBody.ofJson slots).map (·.map fun slot => ⟨slot.1, slot.2⟩)
    nodes := ← fields.required "nodes" (readList Node.ofJson)
    layout := ← fields.defaulted "layout" ∅ (readLayout other) }

end Definition

/-! ## Reading what was written -/

theorem asStr_string (s : Str) : (Json.string s).asStr = some s := rfl

end Orchestration

@[simp] theorem AgentKind.ofJson_id (kind : AgentKind) :
    AgentKind.ofJson (.text kind.id) = some kind := by
  cases kind <;> decide +kernel

@[simp] theorem ProfileReference.ofJson_toJson (profile : ProfileReference) :
    ofJson profile.toJson = some profile := by
  have hnames : ["kind", "name"].Nodup := by decide
  have hfields := structFields_present profile.fields hnames (List.Sublist.refl _) false
  rw [ofJson, toJson, hfields]
  simp [Fields.required, fields, present, lookup_cons]

/-- Each setting is read as it was written. -/
@[simp] theorem ThreadSettings.ofJson_toCanonical (settings : ThreadSettings) :
    ofJson settings.toCanonical = some settings := by
  have hnames : ["model", "approval", "approvals_reviewer", "sandbox", "effort", "tier",
    "agent_preset"].Nodup := by decide
  have hfields := structFields_present settings.fields hnames (List.Sublist.refl _) false
  have hlookup (name : String) :
      (present settings.fields).lookup name = (settings.fields.lookup name).join :=
    lookup_present hnames
  have hread (name : String) {value : Option Str}
      (h : (settings.fields.lookup name).join = value.map Json.string) :
      Fields.optional ⟨present settings.fields, false⟩ name Json.asStr = some value :=
    Fields.optional_write Orchestration.asStr_string (fun _ => rfl) rfl ((hlookup name).trans h)
  rw [ofJson, toCanonical, hfields]
  simp only [Option.bind_eq_bind, Option.bind_some, hread "model" rfl, hread "approval" rfl,
    hread "approvals_reviewer" rfl, hread "sandbox" rfl, hread "effort" rfl, hread "tier" rfl,
    hread "agent_preset" rfl]
  rfl

namespace Orchestration

@[simp] theorem SlotBody.ofJson_toCanonical (body : SlotBody) :
    ofJson body.toCanonical = some body := by
  have hnames : ["profile", "role", "settings"].Nodup := by decide
  have hfields := structFields_present body.fields hnames (List.Sublist.refl _) true
  have hlookup (name : String) :
      (present body.fields).lookup name = (body.fields.lookup name).join :=
    lookup_present hnames
  set f : Fields := ⟨present body.fields, false⟩
  have hprofile : f.required "profile" ProfileReference.ofJson = some body.profile := by
    rw [Fields.required_of_lookup _ (f := f) (hlookup "profile")]
    exact ProfileReference.ofJson_toJson body.profile
  have hrole : f.defaulted "role" [] Json.asStr = some body.role :=
    Fields.defaulted_unless (asStr_string body.role) List.isEmpty_iff.mp (hlookup "role")
  have hsettings : f.defaulted "settings" {} ThreadSettings.ofJson = some body.settings :=
    Fields.defaulted_unless body.settings.ofJson_toCanonical id (hlookup "settings")
  rw [ofJson, toCanonical, hfields]
  simp only [Option.bind_eq_bind, Option.bind_some, hprofile, hrole, hsettings]
  rfl

@[simp] theorem Node.ofJson_toJson (node : Node) : ofJson node.toJson = some node := by
  have hnames : ["id", "slot", "needs", "prompt"].Nodup := by decide
  have hfields := structFields_present node.fields hnames (List.Sublist.refl _) true
  have hlookup (name : String) :
      (present node.fields).lookup name = (node.fields.lookup name).join :=
    lookup_present hnames
  set f : Fields := ⟨present node.fields, false⟩
  have hid : f.required "id" Json.asStr = some node.id :=
    Fields.required_of_lookup Json.asStr (f := f) (hlookup "id")
  have hslot : f.required "slot" Json.asStr = some node.slot :=
    Fields.required_of_lookup Json.asStr (f := f) (hlookup "slot")
  have hneeds : f.defaulted "needs" [] (readList Json.asStr) = some node.needs :=
    Fields.defaulted_unless ((readList_map asStr_string node.needs).trans (by rw [map_id']))
      List.isEmpty_iff.mp (hlookup "needs")
  have hprompt : f.defaulted "prompt" none (nullable Json.asStr) = some node.prompt :=
    Fields.defaulted_nullable asStr_string (fun _ => rfl) (hlookup "prompt")
  rw [ofJson, toJson, hfields]
  simp only [Option.bind_eq_bind, Option.bind_some, hid, hslot, hneeds, hprompt]
  rfl

/-! ## Positions -/

namespace Position

/-- The position that is read back. -/
def whole (position : Position) : Position :=
  ⟨Binary32.ofInt (Binary32.roundI64 position.x), Binary32.ofInt (Binary32.roundI64 position.y)⟩

@[simp] theorem readF32_roundI64 (other : OtherNumber) (x : Float32) :
    readF32 other (.number (.integer (Binary32.roundI64 x))) =
      some (Binary32.ofInt (Binary32.roundI64 x)) := by
  obtain ⟨hlow, hhigh⟩ := Binary32.roundI64_bounds x
  rw [readF32, if_pos ⟨hlow, by omega⟩]

theorem ofJson_toCanonical (other : OtherNumber) (position : Position) :
    ofJson other position.toCanonical = some position.whole := by
  have hnames : ["x", "y"].Nodup := by decide
  have hfields := structFields_present position.fields hnames (List.Sublist.refl _) true
  rw [ofJson, toCanonical, hfields]
  simp [Fields.required, fields, present, lookup_cons, whole]

/-- Both coordinates are whole numbers. -/
structure Whole (position : Position) : Prop where
  x : ∃ n, Binary32.IsWhole position.x n
  y : ∃ n, Binary32.IsWhole position.y n

/-- Both coordinates are whole numbers from `-2 ^ 63` to `2 ^ 63`. -/
structure WithinI64 (position : Position) : Prop where
  x : ∃ n, Binary32.IsWhole position.x n ∧ -2 ^ 63 ≤ n ∧ n ≤ 2 ^ 63
  y : ∃ n, Binary32.IsWhole position.y n ∧ -2 ^ 63 ≤ n ∧ n ≤ 2 ^ 63

theorem toCanonical_whole {position : Position} (h : position.Whole) :
    position.whole.toCanonical = position.toCanonical := by
  obtain ⟨⟨n, hx⟩, ⟨k, hy⟩⟩ := h
  simp only [toCanonical, fields, whole, Binary32.roundI64_ofInt hx, Binary32.roundI64_ofInt hy]

theorem whole_beq {position : Position} (h : position.WithinI64) :
    (position.whole == position) = true := by
  obtain ⟨⟨n, hx, hxlow, hxhigh⟩, ⟨k, hy, hylow, hyhigh⟩⟩ := h
  change (Binary32.ofInt _ == position.x && Binary32.ofInt _ == position.y) = true
  rw [Binary32.ofInt_roundI64 hx hxlow hxhigh, Binary32.ofInt_roundI64 hy hylow hyhigh]
  rfl

end Position

/-! ## The whole definition -/

namespace Definition

theorem laidOut_get {d : Definition} {entry : Str × Position} (h : entry ∈ d.laidOut) :
    entry.1 ∈ d.ids ∧ d.layout[entry.1]? = some entry.2 := by
  obtain ⟨node, hn, he⟩ := mem_filterMap.mp h
  obtain ⟨position, hp, rfl⟩ := Option.map_eq_some_iff.mp he
  exact ⟨mem_map_of_mem hn, hp⟩

theorem mem_laidOut {d : Definition} {id : Str} {position : Position} (hid : id ∈ d.ids)
    (hp : d.layout[id]? = some position) : (id, position) ∈ d.laidOut := by
  obtain ⟨node, hn, rfl⟩ := mem_map.mp hid
  exact mem_filterMap.mpr ⟨node, hn, by rw [hp]; rfl⟩

/-- The definition that is read back. -/
def rewritten (d : Definition) : Definition :=
  { d with layout := d.laidOut.foldl (fun layout entry => layout.insert entry.1 entry.2.whole) ∅ }

theorem ofJson_toCanonical (other : OtherNumber) (d : Definition) :
    ofJson other d.toCanonical = some d.rewritten := by
  have hnames : ["version", "max_parallel", "slots", "nodes", "layout"].Nodup := by decide
  have hfields := structFields_present d.fields hnames (List.Sublist.refl _) true
  have hlookup (name : String) : (present d.fields).lookup name = (d.fields.lookup name).join :=
    lookup_present hnames
  set f : Fields := ⟨present d.fields, false⟩
  have hversion : f.required "version" readU32 = some d.version :=
    (Fields.required_of_lookup readU32 (f := f) (hlookup "version")).trans (readU32_ofNat d.version)
  have hmax : f.defaulted "max_parallel" none (nullable readU32) = some d.maxParallel :=
    Fields.defaulted_nullable readU32_ofNat (fun _ => rfl) (hlookup "max_parallel")
  have hslots : (f.required "slots" fun slots => (readMembers SlotBody.ofJson slots).map
      (·.map fun slot => (⟨slot.1, slot.2⟩ : Slot))) = some d.slots := by
    rw [Fields.required_of_lookup _ (f := f) (hlookup "slots"),
      readMembers_map (g := Slot.body) fun slot => slot.body.ofJson_toCanonical, Option.map_some,
      map_map]
    exact congrArg some (map_id' d.slots)
  have hnodes : f.required "nodes" (readList Node.ofJson) = some d.nodes := by
    rw [Fields.required_of_lookup _ (f := f) (hlookup "nodes"), readList_map Node.ofJson_toJson,
      map_id']
  have hlayout : f.defaulted "layout" ∅ (readLayout other) = some d.rewritten.layout := by
    refine Fields.defaulted_unless ?_ (fun he => ?_) (hlookup "layout")
    · rw [readLayout, readMembers_map (g := fun entry => entry.2.whole) fun entry =>
        entry.2.ofJson_toCanonical other, Option.map_some, foldl_map]
      rfl
    · rw [rewritten, List.isEmpty_iff.mp he]
      rfl
  rw [ofJson, toCanonical, hfields]
  simp only [Option.bind_eq_bind, Option.bind_some, hversion, hmax, hslots, hnodes, hlayout]
  rfl

theorem getElem?_foldl_insert {l : List (Str × Position)} {layout : Layout} {id : Str}
    {position : Option Position} (h : ∀ entry ∈ l, entry.1 = id → position = some entry.2) :
    (l.foldl (fun layout entry => layout.insert entry.1 entry.2.whole) layout)[id]? =
      if id ∈ l.map Prod.fst then position.map Position.whole else layout[id]? := by
  induction l generalizing layout with
  | nil => simp
  | cons entry rest ih =>
    rw [foldl_cons, ih fun entry' hm => h entry' (mem_cons_of_mem _ hm),
      Std.TreeMap.getElem?_insert]
    by_cases he : entry.1 = id
    · simp [he, h entry mem_cons_self he]
    · have hid : id ≠ entry.1 := fun hid => he hid.symm
      simp only [map_cons, mem_cons, hid, false_or, Std.compare_eq_iff_eq, he, if_false]

/-- The nodes keep their positions, as whole numbers; the other entries are gone. -/
theorem getElem?_rewritten (d : Definition) (id : Str) : d.rewritten.layout[id]? =
    if id ∈ d.ids then d.layout[id]?.map Position.whole else none := by
  have hposition : ∀ entry ∈ d.laidOut, entry.1 = id → d.layout[id]? = some entry.2 := by
    rintro entry hm rfl
    exact (laidOut_get hm).2
  rw [rewritten, getElem?_foldl_insert hposition]
  by_cases hid : id ∈ d.ids
  · rw [if_pos hid]
    cases hp : d.layout[id]? with
    | none => simp
    | some position =>
      rw [if_pos (mem_map.mpr ⟨_, mem_laidOut hid hp, rfl⟩)]
  · rw [if_neg hid, if_neg fun hm => ?_]
    · simp
    · obtain ⟨entry, he, rfl⟩ := mem_map.mp hm
      exact hid (laidOut_get he).1

theorem laidOut_rewritten (d : Definition) :
    d.rewritten.laidOut = d.laidOut.map fun entry => (entry.1, entry.2.whole) := by
  rw [laidOut, laidOut, map_filterMap]
  refine filterMap_congr fun node hn => ?_
  have hid : node.id ∈ d.ids := mem_map_of_mem hn
  rw [getElem?_rewritten, if_pos hid, Option.map_map, Option.map_map]
  rfl

/-- **What is read back**: everything but the coordinates as it was, positions of nodes only, those
of at most `2 ^ 63` equal, and writing it again gives the same text. -/
theorem canonical_round_trip (other : OtherNumber) (d : Definition)
    (hwhole : ∀ id ∈ d.ids, ∀ position, d.layout[id]? = some position → position.Whole) :
    ∃ decoded, ofJson other d.toCanonical = some decoded ∧
      decoded.version = d.version ∧ decoded.maxParallel = d.maxParallel ∧
      decoded.slots = d.slots ∧ decoded.nodes = d.nodes ∧
      (∀ id, id ∉ d.ids → decoded.layout[id]? = none) ∧
      (∀ id ∈ d.ids, (∀ position, d.layout[id]? = some position → position.WithinI64) →
        (decoded.layout[id]? == d.layout[id]?) = true) ∧
      decoded.toCanonical = d.toCanonical := by
  refine ⟨d.rewritten, ofJson_toCanonical other d, rfl, rfl, rfl, rfl, fun id hid ↦ ?_,
    fun id hid hwithin ↦ ?_, ?_⟩
  · rw [getElem?_rewritten, if_neg hid]
  · rw [getElem?_rewritten, if_pos hid]
    cases hp : d.layout[id]? with
    | none => rfl
    | some position => exact Position.whole_beq (hwithin position hp)
  · have hlayout : d.rewritten.laidOut.map
        (fun entry ↦ (String.ofList entry.1, entry.2.toCanonical)) =
        d.laidOut.map fun entry ↦ (String.ofList entry.1, entry.2.toCanonical) := by
      rw [laidOut_rewritten, map_map]
      refine map_congr_left fun entry hm ↦ ?_
      obtain ⟨hid, hp⟩ := laidOut_get hm
      exact congrArg _ (Position.toCanonical_whole (hwhole _ hid _ hp))
    have hempty : d.rewritten.laidOut.isEmpty = d.laidOut.isEmpty := by
      rw [laidOut_rewritten, isEmpty_map]
    rw [toCanonical, toCanonical, fields, fields, hlayout, hempty]
    rfl

/-- One slot with a setting and two nodes; the layout has a position of the second, and one of a
node that is gone. -/
def twoNodes (x y : Float32) : Definition where
  version := 1
  maxParallel := some 2
  slots := [⟨"dev".toList, ⟨⟨.deepSeek, "Default".toList⟩, [], { effort := some "high".toList }⟩⟩]
  nodes := [{ id := "plan".toList, slot := "dev".toList },
    { id := "build".toList, slot := "dev".toList, needs := ["plan".toList],
      prompt := some "Go".toList }]
  layout := (∅ : Layout).insert "draft".toList ⟨x, y⟩ |>.insert "build".toList ⟨x, y⟩

theorem layout_twoNodes {x y : Float32} {id : Str} {position : Position}
    (h : (twoNodes x y).layout[id]? = some position) : position = ⟨x, y⟩ := by
  rw [twoNodes, Std.TreeMap.getElem?_insert] at h
  split at h
  · exact (Option.some.inj h).symm
  · rw [Std.TreeMap.getElem?_insert] at h
    split at h
    · exact (Option.some.inj h).symm
    · simp at h

theorem canonical_round_trip_twoNodes : ∃ decoded,
    ofJson (fun _ ↦ none) (twoNodes (Binary32.ofInt 301) (Binary32.ofInt (-40))).toCanonical =
      some decoded ∧
    (decoded.layout["build".toList]? ==
      (twoNodes (Binary32.ofInt 301) (Binary32.ofInt (-40))).layout["build".toList]?) = true := by
  have hx : Binary32.IsWhole (Binary32.ofInt 301) 301 := ⟨301, by decide +kernel, rfl⟩
  have hy : Binary32.IsWhole (Binary32.ofInt (-40)) (-40) := ⟨40, by decide +kernel, rfl⟩
  obtain ⟨decoded, hread, -, -, -, -, -, hlayout, -⟩ :=
    canonical_round_trip (fun _ ↦ none) (twoNodes (Binary32.ofInt 301) (Binary32.ofInt (-40)))
      fun id _ position hp ↦ layout_twoNodes hp ▸ ⟨⟨_, hx⟩, ⟨_, hy⟩⟩
  refine ⟨decoded, hread, hlayout _ (by decide) fun position hp ↦ layout_twoNodes hp ▸ ?_⟩
  exact ⟨⟨_, hx, by decide, by decide⟩, ⟨_, hy, by decide, by decide⟩⟩

/-- A whole coordinate beyond the 64-bit integers is written as the largest of them. -/
theorem layout_saturates : ¬ ∀ d : Definition, d.ids.Nodup → d.slotNames.Nodup →
    (∀ id ∈ d.ids, ∀ position, d.layout[id]? = some position → position.Whole) →
    ∃ decoded, ofJson (fun _ ↦ none) d.toCanonical = some decoded ∧
      ∀ id ∈ d.ids, (decoded.layout[id]? == d.layout[id]?) = true := by
  intro h
  have hx : Binary32.IsWhole (Binary32.ofInt (2 ^ 64)) (2 ^ 64) := ⟨2 ^ 64, by decide +kernel, rfl⟩
  obtain ⟨decoded, hread, hlayout⟩ :=
    h (twoNodes (Binary32.ofInt (2 ^ 64)) (Binary32.ofInt (2 ^ 64))) (by decide) (by decide)
      fun id _ position hp ↦ layout_twoNodes hp ▸ ⟨⟨_, hx⟩, ⟨_, hx⟩⟩
  have hdecoded := (ofJson_toCanonical (fun _ ↦ none) _).symm.trans hread
  have hbuild := hlayout "build".toList (by decide)
  rw [← Option.some.inj hdecoded] at hbuild
  revert hbuild
  decide +kernel

end Definition

end Orchestration
end NiumaTerm
