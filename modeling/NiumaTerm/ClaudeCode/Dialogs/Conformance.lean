import NiumaTerm.ClaudeCode.Dialogs.Elicitation

/-!
# Values and the schema of a field

`Conforms` says which values satisfy a schema.  The field made from it validates these and no others
(`validate_iff`), with numbers as doubles, and each is the value of some answer (`FieldOf.exists_answer`).
-/

namespace NiumaTerm.ClaudeCode
namespace Elicitations

open Rust Checks List

/-! ## What a schema says of a value -/

/-- A number with its own value. -/
def exactly (lib : Libraries) : Number → ℚ
  | .integer n => n
  | .decimal text => lib.decimal text

def asDouble (lib : Libraries) : Number → ℚ
  | .integer n => Double.nearest n
  | .decimal text => lib.decimal text

/-- The values a schema lists, with or without titles. -/
def enumValues (schema : Json) (titledKey : String) : List Str :=
  ((schema.get "enum").asArray.getD []).filterMap Json.asStr ++
    ((schema.get titledKey).asArray.getD []).filterMap fun choice => (choice.get "const").asStr

def InSize (schema : Json) (minimum maximum : String) (size : ℕ) : Prop :=
  (∀ low ∈ (schema.get minimum).asU64, low ≤ size) ∧
    ∀ high ∈ (schema.get maximum).asU64, size ≤ high

/-- The value satisfies the schema of a field, when its numbers are compared as `number` says. -/
def Conforms (lib : Libraries) (number : Number → ℚ) (schema value : Json) : Prop :=
  match value with
  | .string text =>
    (schema.get "type").isText "string" = true ∧
      if enumValues schema "oneOf" = [] then
        InSize schema "minLength" "maxLength" text.length ∧
          ∀ name ∈ (schema.get "format").asStr, ∀ format, StringFormat.parse name = .ok format →
            format.valid lib text = true
      else text ∈ enumValues schema "oneOf"
  | .number n =>
    ((schema.get "type").isText "number" = true ∨
        (schema.get "type").isText "integer" = true ∧ (number n).den = 1) ∧
      (∀ bound, schema.get "minimum" = .number bound → number bound ≤ number n) ∧
      ∀ bound, schema.get "maximum" = .number bound → number n ≤ number bound
  | .bool _ => (schema.get "type").isText "boolean" = true
  | .array values =>
    (schema.get "type").isText "array" = true ∧
      InSize schema "minItems" "maxItems" values.length ∧
      ∃ texts : List Str, values = texts.map .string ∧ texts.Nodup ∧
        ∀ text ∈ texts, text ∈ enumValues (schema.get "items") "anyOf"
  | _ => False

/-! ## What a field takes from its schema -/

section

variable {lib : Libraries} {schema : Members} {name titledKey : String}

theorem get_object (members : Members) (name : String) :
    (Json.object members).get name = (member members name).getD .null := rfl

theorem text_ok {value : Str} (h : text schema name = .ok value) :
    ((Json.object schema).get name).asStr = some value := by
  obtain ⟨json, hjson, hvalue⟩ := Option.bind_eq_some_iff.mp (okOr_ok.mp h)
  rw [get_object, hjson]
  exact hvalue

theorem isText_of_text {value : Str} {literal : String} (h : text schema name = .ok value)
    (hvalue : value = literal.toList) : ((Json.object schema).get name).isText literal = true := by
  rw [Json.isText, text_ok h, hvalue]
  exact decide_eq_true rfl

theorem optionalText_ok {value : Option Str} (h : optionalText schema name = .ok value) :
    ((Json.object schema).get name).asStr = value := by
  rw [optionalText] at h
  split at h
  · next hnone =>
    cases h
    rw [get_object, hnone]
    rfl
  · obtain ⟨text', htext, rfl⟩ := map_ok.mp h
    exact text_ok htext

theorem optionalSize_ok {value : Option ℕ} (h : optionalSize schema name = .ok value) :
    value = ((Json.object schema).get name).asU64 := by
  rw [optionalSize] at h
  rw [get_object]
  split at h
  · next hnone =>
    cases h
    rw [hnone]
    rfl
  · next json hsome =>
    obtain ⟨size, hsize, rfl⟩ := map_ok.mp h
    rw [hsome]
    exact (okOr_ok.mp hsize).symm

theorem optionalNumber_ok {value : Option ℚ} (h : optionalNumber lib schema name = .ok value) :
    value = asF64 lib ((Json.object schema).get name) := by
  rw [optionalNumber] at h
  rw [get_object]
  split at h
  · next hnone =>
    cases h
    rw [hnone]
    rfl
  · next json hsome =>
    obtain ⟨number, hnumber, rfl⟩ := map_ok.mp h
    rw [hsome]
    exact (okOr_ok.mp hnumber).symm

theorem sizeBounds_ok {minimum maximum : String} {bounds : Option ℕ × Option ℕ}
    (h : sizeBounds schema minimum maximum = .ok bounds) :
    bounds = (((Json.object schema).get minimum).asU64, ((Json.object schema).get maximum).asU64) := by
  obtain ⟨low, hlow, h⟩ := bind_ok.mp h
  obtain ⟨high, hhigh, h⟩ := bind_ok.mp h
  obtain ⟨-, -, h⟩ := bind_ok.mp h
  cases h
  rw [optionalSize_ok hlow, optionalSize_ok hhigh]

variable {value : Json} {texts values : List Str} {choice : FieldChoice}
  {choices picked : List FieldChoice} {allowed : List String} {kind : FieldKind}
  {minimum maximum : Option ℕ} {required : Bool} {field : FormField}

theorem asF64_eq_some {q : ℚ} :
    asF64 lib value = some q ↔ ∃ n, value = .number n ∧ asDouble lib n = q := by
  cases value with
  | number n => cases n <;> simp [asF64, asDouble]
  | _ => simp [asF64]

theorem asStr_eq_some {text : Str} : value.asStr = some text ↔ value = .string text := by
  cases value <;> simp [Json.asStr]

theorem asArray_eq_some {values : List Json} :
    value.asArray = some values ↔ value = .array values := by
  cases value <;> simp [Json.asArray]

theorem filterMap_asStr (texts : List Str) : (texts.map Json.string).filterMap Json.asStr = texts := by
  rw [filterMap_map]
  exact filterMap_some

theorem strings_ok (h : strings value name = .ok texts) : value = .array (texts.map .string) := by
  obtain ⟨values, hvalues, h⟩ := bind_ok.mp h
  have hmap : texts.map Json.string = values.map id :=
    map_of_mapM h fun value text htext => (asStr_eq_some.mp (okOr_ok.mp htext)).symm
  rw [asArray_eq_some.mp (okOr_ok.mp hvalues), hmap, map_id]

theorem optionalStrings_ok {texts : Option (List Str)}
    (h : optionalStrings schema name = .ok texts) :
    texts = ((Json.object schema).get name).asArray.map (List.filterMap Json.asStr) := by
  rw [optionalStrings] at h
  rw [get_object]
  split at h
  · next hnone =>
    cases h
    rw [hnone]
    rfl
  · next json hsome =>
    obtain ⟨texts', htexts, rfl⟩ := map_ok.mp h
    rw [hsome, Option.getD_some, strings_ok htexts, Json.asArray, Option.map_some, filterMap_asStr]

theorem titledChoice_ok (h : titledChoice value = .ok choice) :
    ∃ text, choice.value = some (.string text) ∧ (value.get "const").asStr = some text := by
  obtain ⟨members, hmembers, h⟩ := bind_ok.mp h
  obtain ⟨-, -, h⟩ := bind_ok.mp h
  obtain ⟨label, -, h⟩ := bind_ok.mp h
  obtain ⟨text, htext, h⟩ := bind_ok.mp h
  cases h
  cases value with
  | object members' =>
    cases hmembers
    exact ⟨text, rfl, text_ok htext⟩
  | _ => cases hmembers

theorem listedChoices_ok (h : listedChoices schema titledKey = .ok choices) :
    choiceValues choices = enumValues (.object schema) titledKey ∧
      ∀ choice ∈ choices, ∃ value, choice.value = some (.string value) := by
  rw [listedChoices] at h
  rw [enumValues, get_object, get_object]
  split at h
  · next json henum htitled =>
    obtain ⟨values, hvalues, h⟩ := bind_ok.mp h
    obtain ⟨titles, -, h⟩ := bind_ok.mp h
    obtain ⟨_, hlength, h⟩ := bind_ok.mp h
    cases h
    have hlabels : values.length ≤ (titles.getD (values.map enumLabel)).length := by
      cases titles with
      | none => exact (length_map _).ge
      | some titles => exact (by simpa using hlength : titles.length = values.length).ge
    have hchoices : choiceValues ((values.zip (titles.getD (values.map enumLabel))).map
        fun entry => ⟨entry.2, some (.string entry.1)⟩) = values := by
      rw [choiceValues, filterMap_map]
      refine Eq.trans ?_ (map_fst_zip hlabels)
      change List.filterMap (some ∘ Prod.fst) _ = _
      exact congrFun filterMap_eq_map _
    rw [henum, htitled, Option.getD_some, strings_ok hvalues, Json.asArray, Option.getD_some,
      filterMap_asStr]
    refine ⟨hchoices.trans (append_nil _).symm, ?_⟩
    intro choice hchoice
    obtain ⟨entry, -, rfl⟩ := mem_map.mp hchoice
    exact ⟨entry.1, rfl⟩
  · next json henum htitled =>
    split at h
    · cases h
    · obtain ⟨values, hvalues, h⟩ := bind_ok.mp h
      have hmap : choices.map (fun choice => choice.value.bind Json.asStr) =
          values.map fun choice => (choice.get "const").asStr := by
        refine map_of_mapM h fun value choice hchoice => ?_
        obtain ⟨text, hvalue, hconst⟩ := titledChoice_ok hchoice
        rw [hvalue, hconst]
        rfl
      rw [henum, htitled, Option.getD_some, okOr_ok.mp hvalues]
      refine ⟨?_, fun choice hchoice => ?_⟩
      · have hfilter := congrArg (List.filterMap id) hmap
        rw [filterMap_map, filterMap_map] at hfilter
        exact hfilter
      · obtain ⟨value, -, hvalue⟩ := mapM_ok h choice hchoice
        obtain ⟨text, htext, -⟩ := titledChoice_ok hvalue
        exact ⟨text, htext⟩
  · cases h

/-- What a field says is what its schema says. -/
def Describes (lib : Libraries) (schema : Members) : FieldKind → Prop
  | .string minimum maximum format =>
    ((Json.object schema).get "type").isText "string" = true ∧
      enumValues (.object schema) "oneOf" = [] ∧
      minimum = ((Json.object schema).get "minLength").asU64 ∧
      maximum = ((Json.object schema).get "maxLength").asU64 ∧
      (((Json.object schema).get "format").asStr.mapM StringFormat.parse) = .ok format
  | .number integer minimum maximum =>
    ((Json.object schema).get "type").isText (if integer then "integer" else "number") = true ∧
      minimum = asF64 lib ((Json.object schema).get "minimum") ∧
      maximum = asF64 lib ((Json.object schema).get "maximum")
  | .boolean => ((Json.object schema).get "type").isText "boolean" = true
  | .enum values =>
    ((Json.object schema).get "type").isText "string" = true ∧
      values = enumValues (.object schema) "oneOf" ∧ values ≠ []
  | .array values minimum maximum =>
    ((Json.object schema).get "type").isText "array" = true ∧
      values = enumValues ((Json.object schema).get "items") "anyOf" ∧
      minimum = ((Json.object schema).get "minItems").asU64 ∧
      maximum = ((Json.object schema).get "maxItems").asU64

theorem enumChoices_ok (h : enumChoices schema titledKey = .ok choices) :
    choiceValues choices = enumValues (.object schema) titledKey ∧
      (∀ choice ∈ choices, ∃ value, choice.value = some (.string value)) ∧ choices ≠ [] := by
  obtain ⟨choices', hlisted, h⟩ := bind_ok.mp h
  obtain ⟨_, hnonempty, h⟩ := bind_ok.mp h
  cases h
  obtain ⟨hvalues, hstrings⟩ := listedChoices_ok hlisted
  exact ⟨hvalues, hstrings, fun hnil => failIf_ok.mp hnonempty (.inl hnil)⟩

theorem mem_choiceValues {value : Str} :
    value ∈ choiceValues choices ↔ ∃ choice ∈ choices, choice.value = some (.string value) := by
  simp [choiceValues, mem_filterMap, Option.bind_eq_some_iff, asStr_eq_some]

def Offers (choices : List FieldChoice) : FieldKind → Prop
  | .string minimum _ format => minimum.getD 0 = 0 → format = none →
    ∃ choice ∈ choices, choice.value = some (.string [])
  | .number _ _ _ => True
  | .boolean => ∀ value, ∃ choice ∈ choices, choice.value = some (.bool value)
  | .enum values => ∀ value ∈ values, ∃ choice ∈ choices, choice.value = some (.string value)
  | .array values minimum _ =>
    (∀ value ∈ values, ∃ choice ∈ choices, choice.value = some (.string value)) ∧
      (minimum.getD 0 = 0 → ∃ choice ∈ choices, choice.value = some (.array []))

theorem parseEnum_ok (htype : ((Json.object schema).get "type").isText "string" = true)
    (h : parseEnum schema = .ok (allowed, kind, choices)) :
    Describes lib schema kind ∧ Offers choices kind := by
  obtain ⟨choices', hchoices, h⟩ := bind_ok.mp h
  cases h
  obtain ⟨hvalues, hstrings, hne⟩ := enumChoices_ok hchoices
  refine ⟨⟨htype, hvalues, fun hnil => ?_⟩, fun value hvalue => mem_choiceValues.mp hvalue⟩
  obtain ⟨choice, hchoice⟩ := exists_mem_of_ne_nil _ hne
  obtain ⟨value, hvalue⟩ := hstrings choice hchoice
  exact ne_nil_of_mem (mem_choiceValues.mpr ⟨choice, hchoice, hvalue⟩) hnil

theorem parseString_ok (htype : ((Json.object schema).get "type").isText "string" = true)
    (henum : member schema "enum" = none) (htitled : member schema "oneOf" = none)
    (h : parseString schema = .ok (allowed, kind, choices)) :
    Describes lib schema kind ∧ Offers choices kind := by
  obtain ⟨bounds, hbounds, h⟩ := bind_ok.mp h
  obtain ⟨name, hname, h⟩ := bind_ok.mp h
  obtain ⟨format, hformat, h⟩ := bind_ok.mp h
  cases sizeBounds_ok hbounds
  cases h
  refine ⟨⟨htype, ?_, rfl, rfl, ?_⟩, fun hminimum hnone => ?_⟩
  · rw [enumValues, get_object, get_object, henum, htitled]
    rfl
  · rw [optionalText_ok hname]
    exact hformat
  · rw [hnone, hminimum]
    exact ⟨_, mem_singleton_self _, rfl⟩

theorem parseNumber_ok {integer : Bool} (htype : ((Json.object schema).get "type").isText
      (if integer then "integer" else "number") = true)
    (h : parseNumber lib schema integer = .ok (allowed, kind, choices)) :
    Describes lib schema kind ∧ Offers choices kind := by
  obtain ⟨minimum, hminimum, h⟩ := bind_ok.mp h
  obtain ⟨maximum, hmaximum, h⟩ := bind_ok.mp h
  obtain ⟨-, -, h⟩ := bind_ok.mp h
  cases h
  exact ⟨⟨htype, optionalNumber_ok hminimum, optionalNumber_ok hmaximum⟩, trivial⟩

theorem parseArray_ok (htype : ((Json.object schema).get "type").isText "array" = true)
    (h : parseArray schema = .ok (allowed, kind, choices)) :
    Describes lib schema kind ∧ Offers choices kind := by
  obtain ⟨json, hjson, h⟩ := bind_ok.mp h
  obtain ⟨items, hitems, h⟩ := bind_ok.mp h
  obtain ⟨_, _, h⟩ := bind_ok.mp h
  obtain ⟨type, _, h⟩ := bind_ok.mp h
  obtain ⟨_, _, h⟩ := bind_ok.mp h
  obtain ⟨_, _, h⟩ := bind_ok.mp h
  obtain ⟨listed, hlisted, h⟩ := bind_ok.mp h
  obtain ⟨bounds, hbounds, h⟩ := bind_ok.mp h
  cases sizeBounds_ok hbounds
  obtain ⟨-, -, h⟩ := bind_ok.mp h
  cases h
  obtain ⟨hvalues, -, -⟩ := enumChoices_ok hlisted
  have hget : (Json.object schema).get "items" = .object items := by
    rw [get_object, okOr_ok.mp hjson, Option.getD_some]
    cases json with
    | object members => cases hitems; rfl
    | _ => cases hitems
  refine ⟨⟨htype, hget ▸ hvalues, rfl, rfl⟩, fun value hvalue => ?_, fun hminimum => ?_⟩
  · obtain ⟨choice, hchoice, hsome⟩ := mem_choiceValues.mp hvalue
    exact ⟨choice, mem_append_left _ hchoice, hsome⟩
  · rw [if_pos hminimum]
    exact ⟨_, mem_append_right _ (mem_singleton_self _), rfl⟩

theorem fieldKind_ok (h : FieldKind.parse lib schema = .ok (kind, choices)) :
    Describes lib schema kind ∧ Offers choices kind := by
  obtain ⟨type, htype, h⟩ := bind_ok.mp h
  obtain ⟨⟨allowed, kind', choices'⟩, hparsed, h⟩ := bind_ok.mp h
  obtain ⟨_, _, h⟩ := bind_ok.mp h
  cases h
  rw [parseOf] at hparsed
  split_ifs at hparsed with hstring hlisted hnumber hboolean harray
  · exact parseEnum_ok (isText_of_text htype hstring) hparsed
  · rw [Bool.or_eq_true, not_or, Option.not_isSome_iff_eq_none, Option.not_isSome_iff_eq_none]
      at hlisted
    exact parseString_ok (isText_of_text htype hstring) hlisted.1 hlisted.2 hparsed
  · refine parseNumber_ok ?_ hparsed
    rw [Bool.or_eq_true, decide_eq_true_eq, decide_eq_true_eq] at hnumber
    by_cases hinteger : type = "integer".toList
    · rw [decide_eq_true hinteger]
      exact isText_of_text htype hinteger
    · rw [decide_eq_false hinteger]
      exact isText_of_text htype (hnumber.resolve_right hinteger)
  · cases hparsed
    refine ⟨isText_of_text htype hboolean, fun value => ?_⟩
    cases value
    · exact ⟨_, mem_cons_of_mem _ (mem_singleton_self _), rfl⟩
    · exact ⟨_, mem_cons_self, rfl⟩
  · exact parseArray_ok (isText_of_text htype harray) hparsed

/-! ## Validation -/

theorem validateSize_ok {size : ℕ} {unit : String} :
    validateSize size minimum maximum unit = .ok () ↔
      (∀ low ∈ minimum, low ≤ size) ∧ ∀ high ∈ maximum, size ≤ high := by
  rw [validateSize]
  split
  · next low hlow =>
    obtain ⟨hmem, hlt⟩ := Option.filter_eq_some_iff.mp hlow
    refine iff_of_false (by rintro ⟨⟩) fun h => ?_
    exact absurd (h.1 low hmem) (Nat.not_le.mpr (of_decide_eq_true hlt))
  · next hlow =>
    have hminimum : ∀ low ∈ minimum, low ≤ size := fun low hmem =>
      Nat.not_lt.mp fun hlt => Option.filter_eq_none_iff.mp hlow low hmem (decide_eq_true hlt)
    rw [and_iff_right hminimum]
    split
    · next high hhigh =>
      obtain ⟨hmem, hlt⟩ := Option.filter_eq_some_iff.mp hhigh
      refine iff_of_false (by rintro ⟨⟩) fun h => ?_
      exact absurd (h high hmem) (Nat.not_le.mpr (of_decide_eq_true hlt))
    · next hhigh =>
      refine iff_of_true rfl fun high hmem => Nat.not_lt.mp fun hlt => ?_
      exact Option.filter_eq_none_iff.mp hhigh high hmem (decide_eq_true hlt)

theorem checkEach_texts {seen selected : List Json} :
    checkEach (fun seen value => do
      let text ← okOr value.asStr "Array choices must be strings".toList
      failIf (text ∉ values ∨ text ∈ seen.filterMap Json.asStr)
        "Array contains an unknown or duplicate choice".toList) seen selected = .ok () ↔
      ∃ texts : List Str, selected = texts.map .string ∧ texts.Nodup ∧
        (∀ text ∈ texts, text ∈ values) ∧ ∀ text ∈ texts, text ∉ seen.filterMap Json.asStr := by
  induction selected generalizing seen with
  | nil =>
    refine iff_of_true rfl ⟨[], rfl, nodup_nil, ?_, ?_⟩ <;> simp
  | cons value rest ih =>
    rw [checkEach, bind_ok]
    constructor
    · rintro ⟨_, hvalue, hrest⟩
      obtain ⟨text, htext, hnew⟩ := bind_ok.mp hvalue
      obtain rfl := asStr_eq_some.mp (okOr_ok.mp htext)
      rw [failIf_ok, not_or, not_not] at hnew
      obtain ⟨texts, rfl, hnodup, hlisted, hunseen⟩ := ih.mp hrest
      rw [filterMap_append] at hunseen
      refine ⟨text :: texts, rfl, nodup_cons.mpr ⟨fun hmem => ?_, hnodup⟩, ?_, ?_⟩
      · exact hunseen text hmem (mem_append_right _ (mem_singleton_self text))
      · exact forall_mem_cons.mpr ⟨hnew.1, hlisted⟩
      · exact forall_mem_cons.mpr ⟨hnew.2, fun other hother hseen =>
          hunseen other hother (mem_append_left _ hseen)⟩
    · rintro ⟨texts, htexts, hnodup, hlisted, hunseen⟩
      cases texts with
      | nil => cases htexts
      | cons text texts =>
        cases htexts
        obtain ⟨hnot, hnodup⟩ := nodup_cons.mp hnodup
        refine ⟨(), bind_ok.mpr ⟨text, rfl, failIf_ok.mpr ?_⟩, ih.mpr ⟨texts, rfl, hnodup, ?_, ?_⟩⟩
        · rintro (hvalues | hseen)
          · exact hvalues (hlisted text mem_cons_self)
          · exact hunseen text mem_cons_self hseen
        · exact fun other hother => hlisted other (mem_cons_of_mem _ hother)
        · intro other hother hseen
          rw [filterMap_append, mem_append] at hseen
          rcases hseen with hseen | hsame
          · exact hunseen other (mem_cons_of_mem _ hother) hseen
          · obtain rfl := mem_singleton.mp hsame
            exact hnot hother

theorem isText_elim {json : Json} {literal literal' : String} (h : json.isText literal = true)
    (h' : json.isText literal' = true) (hne : literal ≠ literal') : False :=
  hne (Json.isText_unique h h')

theorem validate_string {format : Option StringFormat}
    (h : Describes lib schema (.string minimum maximum format)) :
    (FieldKind.string minimum maximum format).validate lib value = .ok () ↔
      Conforms lib (asDouble lib) (.object schema) value := by
  obtain ⟨htype, henum, rfl, rfl, hformat⟩ := h
  cases value with
  | string text =>
    have hvalid : (¬ (format.any fun format => !format.valid lib text) = true) ↔
        ∀ name ∈ ((Json.object schema).get "format").asStr, ∀ format,
          StringFormat.parse name = .ok format → format.valid lib text = true := by
      cases hname : ((Json.object schema).get "format").asStr with
      | none =>
        rw [hname] at hformat
        cases hformat
        simp
      | some name =>
        rw [hname] at hformat
        obtain ⟨format', hparsed, heq⟩ := map_ok.mp hformat
        subst heq
        simp [hparsed]
    rw [Conforms, if_pos henum, and_iff_right htype, InSize, ← hvalid, ← validateSize_ok]
    rw [FieldKind.validate, bind_ok]
    constructor
    · rintro ⟨text', htext, h⟩
      cases htext
      obtain ⟨_, hsize, h⟩ := bind_ok.mp h
      exact ⟨hsize, failIf_ok.mp h⟩
    · rintro ⟨hsize, h⟩
      exact ⟨text, rfl, bind_ok.mpr ⟨(), hsize, failIf_ok.mpr h⟩⟩
  | number n =>
    refine iff_of_false (by rintro ⟨⟩) fun hconforms => ?_
    rcases hconforms.1 with hnumber | ⟨hinteger, -⟩
    · exact isText_elim htype hnumber (by decide)
    · exact isText_elim htype hinteger (by decide)
  | bool b => exact iff_of_false (by rintro ⟨⟩) fun h => isText_elim htype h (by decide)
  | array values => exact iff_of_false (by rintro ⟨⟩) fun h => isText_elim htype h.1 (by decide)
  | null | object members => exact iff_of_false (by rintro ⟨⟩) id

theorem validate_number {integer : Bool} {minimum maximum : Option ℚ}
    (h : Describes lib schema (.number integer minimum maximum)) :
    (FieldKind.number integer minimum maximum).validate lib value = .ok () ↔
      Conforms lib (asDouble lib) (.object schema) value := by
  obtain ⟨htype, rfl, rfl⟩ := h
  have hother {literal : String} (hvalue : asF64 lib value = none)
      (hliteral : ((Json.object schema).get "type").isText literal = true)
      (hnumber : literal ≠ "number") (hinteger : literal ≠ "integer") : False := by
    cases integer with
    | true => exact isText_elim hliteral htype hinteger
    | false => exact isText_elim hliteral htype hnumber
  have hinvalid (hvalue : asF64 lib value = none) : ¬ (FieldKind.number integer
      (asF64 lib ((Json.object schema).get "minimum"))
      (asF64 lib ((Json.object schema).get "maximum"))).validate lib value = .ok () := by
    rw [FieldKind.validate, hvalue]
    rintro ⟨⟩
  cases value with
  | number n =>
    have hnumber : asF64 lib (.number n) = some (asDouble lib n) := by cases n <;> rfl
    have hbound (name : String) (P : ℚ → Prop) :
        (∀ q ∈ asF64 lib ((Json.object schema).get name), P q) ↔
          ∀ bound, (Json.object schema).get name = .number bound → P (asDouble lib bound) := by
      constructor
      · exact fun hall bound hget => hall _ (asF64_eq_some.mpr ⟨bound, hget, rfl⟩)
      · intro hall q hq
        obtain ⟨bound, hget, rfl⟩ := asF64_eq_some.mp hq
        exact hall bound hget
    have hkind : (((Json.object schema).get "type").isText "number" = true ∨
        ((Json.object schema).get "type").isText "integer" = true ∧ (asDouble lib n).den = 1) ↔
          ¬ (integer = true ∧ (asDouble lib n).den ≠ 1) := by
      cases integer with
      | true =>
        refine ⟨?_, fun hden => .inr ⟨htype, by simpa using hden⟩⟩
        rintro (hnumber | ⟨-, hden⟩)
        · exact (isText_elim hnumber htype (by decide)).elim
        · simp [hden]
      | false => exact iff_of_true (.inl htype) (by simp)
    rw [Conforms, hkind, ← hbound "minimum" fun q => q ≤ asDouble lib n,
      ← hbound "maximum" fun q => asDouble lib n ≤ q]
    rw [FieldKind.validate, hnumber]
    simp [okOr, bind_ok, failIf_ok, Option.any_eq_true]
  | string text => exact iff_of_false (hinvalid rfl) fun h => hother rfl h.1 (by decide) (by decide)
  | bool b => exact iff_of_false (hinvalid rfl) fun h => hother rfl h (by decide) (by decide)
  | array values =>
    exact iff_of_false (hinvalid rfl) fun h => hother rfl h.1 (by decide) (by decide)
  | null | object members => exact iff_of_false (hinvalid rfl) id

theorem validate_boolean (h : Describes lib schema .boolean) :
    FieldKind.boolean.validate lib value = .ok () ↔
      Conforms lib (asDouble lib) (.object schema) value := by
  rw [FieldKind.validate, failIf_ok]
  cases value with
  | bool b => exact iff_of_true (by simp [Json.asBool]) h
  | number n =>
    refine iff_of_false (by simp [Json.asBool]) fun hconforms => ?_
    rcases hconforms.1 with hnumber | ⟨hinteger, -⟩
    · exact isText_elim h hnumber (by decide)
    · exact isText_elim h hinteger (by decide)
  | string text | array values =>
    exact iff_of_false (by simp [Json.asBool]) fun h' => isText_elim h h'.1 (by decide)
  | null | object members => exact iff_of_false (by simp [Json.asBool]) id

theorem validate_enum (h : Describes lib schema (.enum values)) :
    (FieldKind.enum values).validate lib value = .ok () ↔
      Conforms lib (asDouble lib) (.object schema) value := by
  obtain ⟨htype, rfl, hne⟩ := h
  rw [FieldKind.validate, validateText, failIf_ok, not_not]
  cases value with
  | string text =>
    rw [Conforms, and_iff_right htype, if_neg hne]
    simp [Json.asStr]
  | number n =>
    refine iff_of_false (by simp [Json.asStr]) fun hconforms => ?_
    rcases hconforms.1 with hnumber | ⟨hinteger, -⟩
    · exact isText_elim htype hnumber (by decide)
    · exact isText_elim htype hinteger (by decide)
  | bool b =>
    exact iff_of_false (by simp [Json.asStr]) fun h' => isText_elim htype h' (by decide)
  | array values =>
    exact iff_of_false (by simp [Json.asStr]) fun h' => isText_elim htype h'.1 (by decide)
  | null | object members => exact iff_of_false (by simp [Json.asStr]) id

theorem validate_array (h : Describes lib schema (.array values minimum maximum)) :
    (FieldKind.array values minimum maximum).validate lib value = .ok () ↔
      Conforms lib (asDouble lib) (.object schema) value := by
  obtain ⟨htype, rfl, rfl, rfl⟩ := h
  cases value with
  | array selected =>
    rw [Conforms, and_iff_right htype, InSize, ← validateSize_ok, FieldKind.validate, bind_ok]
    have htexts := @checkEach_texts
      (enumValues ((Json.object schema).get "items") "anyOf") [] selected
    simp only [filterMap_nil, not_mem_nil, not_false_eq_true, implies_true, and_true]
      at htexts
    rw [← htexts]
    constructor
    · rintro ⟨selected', hselected, h⟩
      cases hselected
      obtain ⟨_, hsize, h⟩ := bind_ok.mp h
      exact ⟨hsize, h⟩
    · rintro ⟨hsize, h⟩
      exact ⟨selected, rfl, bind_ok.mpr ⟨(), hsize, h⟩⟩
  | number n =>
    refine iff_of_false (by rintro ⟨⟩) fun hconforms => ?_
    rcases hconforms.1 with hnumber | ⟨hinteger, -⟩
    · exact isText_elim htype hnumber (by decide)
    · exact isText_elim htype hinteger (by decide)
  | bool b => exact iff_of_false (by rintro ⟨⟩) fun h => isText_elim htype h (by decide)
  | string text => exact iff_of_false (by rintro ⟨⟩) fun h => isText_elim htype h.1 (by decide)
  | null | object members => exact iff_of_false (by rintro ⟨⟩) id

/-- A field accepts what its schema accepts, with numbers as doubles. -/
theorem validate_iff (h : Describes lib schema kind) :
    kind.validate lib value = .ok () ↔ Conforms lib (asDouble lib) (.object schema) value := by
  cases kind with
  | string minimum maximum format => exact validate_string h
  | number integer minimum maximum => exact validate_number h
  | boolean => exact validate_boolean h
  | enum values => exact validate_enum h
  | array values minimum maximum => exact validate_array h

/-- Rounding the numbers keeps the order of a number and its bounds. -/
theorem Conforms.rounded {json : Json} (h : Conforms lib (exactly lib) json value) :
    Conforms lib (asDouble lib) json value := by
  have hmono {a b : Number} (hab : exactly lib a ≤ exactly lib b) :
      asDouble lib a ≤ asDouble lib b := by
    cases a with
    | integer a =>
      cases b with
      | integer b => exact Int.cast_le.mpr (Double.nearest_mono (Int.cast_le.mp hab))
      | decimal b => exact Double.nearest_le (lib.decimal_isDouble b) hab
    | decimal a =>
      cases b with
      | integer b => exact Double.le_nearest (lib.decimal_isDouble a) hab
      | decimal b => exact hab
  cases value with
  | number n =>
    refine ⟨h.1.imp_right fun ⟨hinteger, hden⟩ => ⟨hinteger, ?_⟩,
      fun bound hbound => hmono (h.2.1 bound hbound), fun bound hbound => hmono (h.2.2 bound hbound)⟩
    cases n with
    | integer n => exact Rat.den_intCast _
    | decimal text => exact hden
  | _ => exact h

/-! ## One field -/

/-- The field of a property. -/
structure FieldOf (lib : Libraries) (name : String) (schema : Members) (required : Bool)
    (field : FormField) : Prop where
  name : field.name = name
  required : field.required = required
  describes : Describes lib schema field.kind
  offers : Offers field.choices field.kind
  labels : (field.choices.map FieldChoice.label).Nodup

theorem Offers.mono {choices choices' : List FieldChoice}
    (h : Offers choices kind) (hsub : choices ⊆ choices') : Offers choices' kind := by
  have hmono {P : FieldChoice → Prop} : (∃ choice ∈ choices, P choice) →
      ∃ choice ∈ choices', P choice := fun ⟨choice, hchoice, hp⟩ => ⟨choice, hsub hchoice, hp⟩
  cases kind with
  | string minimum maximum format => exact fun hminimum hformat => hmono (h hminimum hformat)
  | number integer minimum maximum => trivial
  | boolean => exact fun value => hmono (h value)
  | enum values => exact fun value hvalue => hmono (h value hvalue)
  | array values minimum maximum =>
    exact ⟨fun value hvalue => hmono (h.1 value hvalue), fun hminimum => hmono (h.2 hminimum)⟩

theorem formField_ok {question : Question}
    (h : FormField.parse lib name schema required = .ok (field, question)) :
    FieldOf lib name schema required field := by
  obtain ⟨_, _, h⟩ := bind_ok.mp h
  obtain ⟨_, _, h⟩ := bind_ok.mp h
  obtain ⟨_, _, h⟩ := bind_ok.mp h
  obtain ⟨⟨kind, choices⟩, hkind, h⟩ := bind_ok.mp h
  obtain ⟨default, _, h⟩ := bind_ok.mp h
  obtain ⟨_, hlabels, h⟩ := bind_ok.mp h
  cases h
  obtain ⟨hdescribes, hoffers⟩ := fieldKind_ok hkind
  rw [failIf_ok, not_or, not_not] at hlabels
  refine ⟨rfl, rfl, hdescribes, hoffers.mono ?_, hlabels.2⟩
  exact subset_append_of_subset_left _ (subset_append_left _ _)

theorem answer_ok {given : QuestionAnswer} {value : Option Json} :
    field.answer lib given = .ok value ↔
      field.answerValue lib given = .ok value ∧ field.check lib value = .ok () := by
  rw [FormField.answer, bind_ok]
  constructor
  · rintro ⟨value', hvalue, h⟩
    obtain ⟨_, hcheck, h⟩ := bind_ok.mp h
    cases h
    exact ⟨hvalue, hcheck⟩
  · exact fun ⟨hvalue, hcheck⟩ => ⟨value, hvalue, bind_ok.mpr ⟨(), hcheck, rfl⟩⟩

theorem FieldOf.check_ok {value : Option Json}
    (hfield : FieldOf lib name schema required field) : field.check lib value = .ok () ↔
      (∀ json ∈ value, Conforms lib (asDouble lib) (.object schema) json) ∧
        (value = none → required = false) := by
  cases value with
  | some value =>
    rw [FormField.check, validate_iff hfield.describes]
    simp
  | none =>
    rw [FormField.check, failIf_ok, hfield.required]
    simp

/-! ## The choices of some values -/

theorem find_label (hlabels : (choices.map FieldChoice.label).Nodup) (hchoice : choice ∈ choices) :
    choices.find? (fun other => other.label = choice.label) = some choice := by
  cases hfind : choices.find? fun other => other.label = choice.label with
  | none => exact absurd (find?_eq_none.mp hfind choice hchoice) (by simp)
  | some other =>
    have hlabel : other.label = choice.label := by simpa using find?_some hfind
    rw [inj_on_of_nodup_map hlabels (mem_of_find?_eq_some hfind) hchoice hlabel]

theorem chosen_labels {seen : List Str}
    (hlabels : (choices.map FieldChoice.label).Nodup) (hpicked : picked ⊆ choices)
    (hdistinct : (picked.map FieldChoice.label).Nodup)
    (hseen : ∀ choice ∈ picked, choice.label ∉ seen) :
    chosen choices seen (picked.map FieldChoice.label) = .ok picked := by
  induction picked generalizing seen with
  | nil => rfl
  | cons choice rest ih =>
    obtain ⟨hnot, hdistinct⟩ := nodup_cons.mp hdistinct
    obtain ⟨hchoice, hrest⟩ := cons_subset.mp hpicked
    have hmore := @ih (seen ++ [choice.label]) hrest hdistinct fun other hother hmem => by
      rcases mem_append.mp hmem with hmem | hmem
      · exact hseen other (mem_cons_of_mem _ hother) hmem
      · exact hnot (mem_singleton.mp hmem ▸ mem_map_of_mem hother)
    rw [map_cons, chosen, bind_ok]
    refine ⟨(), failIf_ok.mpr (hseen choice mem_cons_self), bind_ok.mpr ⟨choice, ?_, ?_⟩⟩
    · exact okOr_ok.mpr (find_label hlabels hchoice)
    · exact bind_ok.mpr ⟨rest, hmore, rfl⟩

theorem exists_picked (hlabels : (choices.map FieldChoice.label).Nodup) (hnodup : texts.Nodup)
    (h : ∀ text ∈ texts, ∃ choice ∈ choices, choice.value = some (.string text)) :
    ∃ picked ⊆ choices, (picked.map FieldChoice.label).Nodup ∧
      picked.map FieldChoice.value = texts.map fun text => some (.string text) := by
  induction texts with
  | nil => exact ⟨[], nil_subset _, nodup_nil, rfl⟩
  | cons text rest ih =>
    obtain ⟨hnot, hrest⟩ := nodup_cons.mp hnodup
    obtain ⟨picked, hpicked, hdistinct, hvalues⟩ :=
      ih hrest fun other hother => h other (mem_cons_of_mem _ hother)
    obtain ⟨choice, hchoice, hvalue⟩ := h text mem_cons_self
    refine ⟨choice :: picked, cons_subset.mpr ⟨hchoice, hpicked⟩, ?_, ?_⟩
    · refine nodup_cons.mpr ⟨fun hmem => hnot ?_, hdistinct⟩
      obtain ⟨other, hother, hlabel⟩ := mem_map.mp hmem
      obtain rfl := inj_on_of_nodup_map hlabels (hpicked hother) hchoice hlabel
      have hmem' : some (Json.string text) ∈ picked.map FieldChoice.value :=
        hvalue ▸ mem_map_of_mem hother
      rw [hvalues] at hmem'
      obtain ⟨text', htext', heq⟩ := mem_map.mp hmem'
      cases heq
      exact htext'
    · rw [map_cons, map_cons, hvalue, hvalues]

/-! ## An answer for each value -/

/-- A number can be written as a text. -/
def Written (lib : Libraries) (value : Json) : Prop :=
  ∀ n, value = .number n → ∃ text, text ≠ [] ∧ lib.fromStr (trim text) = some (.number n)

theorem answerValue_picked
    (hlabels : (field.choices.map FieldChoice.label).Nodup) (hpicked : picked ⊆ field.choices)
    (hdistinct : (picked.map FieldChoice.label).Nodup) :
    field.answerValue lib ⟨picked.map FieldChoice.label, none⟩ = field.kind.selected picked := by
  have hchosen := chosen_labels hlabels hpicked hdistinct fun choice _ => not_mem_nil
  rw [FormField.answerValue]
  exact congrArg (· >>= field.kind.selected) hchosen

theorem answerValue_single
    (hlabels : (field.choices.map FieldChoice.label).Nodup) (hchoice : choice ∈ field.choices) :
    field.answerValue lib ⟨[choice.label], none⟩ = field.kind.selected [choice] :=
  answerValue_picked hlabels (cons_subset.mpr ⟨hchoice, nil_subset _⟩)
    (nodup_singleton choice.label)

/-- No format accepts the empty text. -/
theorem valid_nil (format : StringFormat) : format.valid lib [] = false := by
  cases format with
  | email => rfl
  | uri => simp [StringFormat.valid, lib.parseUrl_nil]
  | date | dateTime => rfl

theorem mapM_texts {error : Str}
    (h : picked.map FieldChoice.value = texts.map fun text => some (.string text)) :
    picked.mapM (fun choice => okOr ((choice.value.bind Json.asStr).map Json.string) error) =
      .ok (texts.map .string) := by
  induction picked generalizing texts with
  | nil =>
    cases texts with
    | nil => rfl
    | cons text rest => cases h
  | cons choice picked ih =>
    cases texts with
    | nil => cases h
    | cons text rest =>
      obtain ⟨hvalue, hrest⟩ := List.cons.inj h
      rw [mapM_cons, hvalue]
      exact bind_ok.mpr ⟨.string text, rfl, bind_ok.mpr ⟨_, ih hrest, rfl⟩⟩

theorem selected_array (hne : texts ≠ [])
    (h : picked.map FieldChoice.value = texts.map fun text => some (.string text)) :
    (FieldKind.array values minimum maximum).selected picked =
      .ok (some (.array (texts.map .string))) := by
  match picked, texts with
  | [], text :: rest => cases h
  | _, [] => exact absurd rfl hne
  | [⟨label, value⟩], text :: rest =>
    obtain ⟨hvalue, hrest⟩ := List.cons.inj h
    obtain rfl : rest = [] := map_eq_nil_iff.mp hrest.symm
    dsimp only at hvalue
    rw [hvalue]
    rfl
  | choice :: other :: more, text :: rest => exact map_ok.mpr ⟨_, mapM_texts h, rfl⟩

theorem FieldOf.exists_answer {value : Option Json}
    (hfield : FieldOf lib name schema required field) (hcheck : field.check lib value = .ok ())
    (hwritten : ∀ json ∈ value, Written lib json) :
    ∃ given : QuestionAnswer, given.custom ≠ some [] ∧ field.answer lib given = .ok value := by
  suffices hvalue : ∃ given : QuestionAnswer, given.custom ≠ some [] ∧
      field.answerValue lib given = .ok value by
    obtain ⟨given, hcustom, hvalue⟩ := hvalue
    exact ⟨given, hcustom, answer_ok.mpr ⟨hvalue, hcheck⟩⟩
  cases value with
  | none => exact ⟨⟨[], none⟩, (nomatch ·), rfl⟩
  | some json =>
    have hoffers := hfield.offers
    have hwritten := hwritten json rfl
    rw [FormField.check] at hcheck
    have hsingle {choice : FieldChoice} (hchoice : choice ∈ field.choices)
        (hselected : field.kind.selected [choice] = .ok (some json)) :
        ∃ given : QuestionAnswer, given.custom ≠ some [] ∧
          field.answerValue lib given = .ok (some json) :=
      ⟨⟨[choice.label], none⟩, (nomatch ·),
        (answerValue_single hfield.labels hchoice).trans hselected⟩
    cases hkind : field.kind with
    | string minimum maximum format =>
      rw [hkind] at hcheck hoffers hsingle
      obtain ⟨text, htext, hvalid⟩ := bind_ok.mp hcheck
      obtain ⟨_, hsize, hvalid⟩ := bind_ok.mp hvalid
      obtain rfl := asStr_eq_some.mp (okOr_ok.mp htext)
      by_cases hempty : text = []
      · subst hempty
        have hminimum : minimum.getD 0 = 0 := by
          cases minimum with
          | none => rfl
          | some low => exact Nat.le_zero.mp ((validateSize_ok.mp hsize).1 low rfl)
        have hformat : format = none := by
          cases format with
          | none => rfl
          | some format => exact absurd (failIf_ok.mp hvalid) (by simp [valid_nil])
        obtain ⟨⟨label, value⟩, hchoice, hvalue⟩ := hoffers hminimum hformat
        dsimp only at hvalue
        subst hvalue
        exact hsingle hchoice rfl
      · refine ⟨⟨[], some text⟩, fun h => hempty (Option.some.inj h), ?_⟩
        rw [FormField.answerValue, hkind]
        rfl
    | number integer minimum maximum =>
      rw [hkind] at hcheck
      obtain ⟨q, hq, -⟩ := bind_ok.mp hcheck
      obtain ⟨n, rfl, -⟩ := asF64_eq_some.mp (okOr_ok.mp hq)
      obtain ⟨text, htext, hread⟩ := hwritten n rfl
      refine ⟨⟨[], some text⟩, fun h => htext (Option.some.inj h), ?_⟩
      have htyped : (FieldKind.number integer minimum maximum).typed lib text = .ok (.number n) :=
        okOr_ok.mpr hread
      rw [FormField.answerValue, hkind]
      exact bind_ok.mpr ⟨(), failIf_ok.mpr (not_not_intro rfl), map_ok.mpr ⟨_, htyped, rfl⟩⟩
    | boolean =>
      rw [hkind] at hcheck hoffers hsingle
      cases json with
      | bool b =>
        obtain ⟨⟨label, value⟩, hchoice, hvalue⟩ := hoffers b
        dsimp only at hvalue
        subst hvalue
        exact hsingle hchoice rfl
      | _ => exact absurd (failIf_ok.mp hcheck) (by simp [Json.asBool])
    | enum values =>
      rw [hkind] at hcheck hoffers hsingle
      have hmem := failIf_ok.mp hcheck
      rw [not_not, Option.any_eq_true] at hmem
      obtain ⟨text, htext, hmem⟩ := hmem
      obtain rfl := asStr_eq_some.mp htext
      obtain ⟨⟨label, value⟩, hchoice, hvalue⟩ := hoffers text (of_decide_eq_true hmem)
      dsimp only at hvalue
      subst hvalue
      exact hsingle hchoice rfl
    | array values minimum maximum =>
      rw [hkind] at hcheck hoffers hsingle
      obtain ⟨selected, hselected, hvalid⟩ := bind_ok.mp hcheck
      obtain ⟨_, hsize, hvalid⟩ := bind_ok.mp hvalid
      obtain rfl := asArray_eq_some.mp (okOr_ok.mp hselected)
      obtain ⟨texts, rfl, hnodup, hlisted, -⟩ := checkEach_texts.mp hvalid
      by_cases hempty : texts = []
      · subst hempty
        have hminimum : minimum.getD 0 = 0 := by
          cases minimum with
          | none => rfl
          | some low => exact Nat.le_zero.mp ((validateSize_ok.mp hsize).1 low rfl)
        obtain ⟨⟨label, value⟩, hchoice, hvalue⟩ := hoffers.2 hminimum
        dsimp only at hvalue
        subst hvalue
        exact hsingle hchoice rfl
      · obtain ⟨picked, hpicked, hdistinct, hvalues⟩ := exists_picked hfield.labels hnodup
          fun text htext => hoffers.1 text (hlisted text htext)
        refine ⟨⟨picked.map FieldChoice.label, none⟩, (nomatch ·), ?_⟩
        rw [answerValue_picked hfield.labels hpicked hdistinct, hkind]
        exact selected_array hempty hvalues

end

end Elicitations
end NiumaTerm.ClaudeCode
