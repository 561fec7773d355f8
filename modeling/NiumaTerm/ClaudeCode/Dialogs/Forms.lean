import NiumaTerm.ClaudeCode.Dialogs.Conformance
import NiumaTerm.Lib.IndexMap

/-!
# The content of a form and the schema of a request

What `Elicitation.respond` sends satisfies the schema that is requested, and every content that
satisfies it can be answered (`answers_conform`).
-/

namespace NiumaTerm.ClaudeCode
namespace Elicitations

open Rust Checks List

/-! ## The content of a form -/

section

variable {lib : Libraries}

abbrev Entry := FormField × QuestionAnswer

def memberOf (entry : Entry) (value : Option Json) : Members :=
  (value.map fun value => (entry.1.name, value)).toList

def contentOf (entries : List Entry) (values : List (Option Json)) : Members :=
  (entries.zip values).flatMap fun pair => memberOf pair.1 pair.2

theorem setMember_of_not_mem {members : Members} {name : String} {value : Json}
    (h : name ∉ members.map Prod.fst) :
    Json.setMember name value members = members ++ [(name, value)] := by
  induction members with
  | nil => rfl
  | cons member rest ih =>
    rw [map_cons, mem_cons, not_or] at h
    rw [Json.setMember, if_neg (Ne.symm h.1), ih h.2]
    rfl

theorem insertAnswer_ok {entry : Entry} {content content' : Members}
    (hname : entry.1.name ∉ content.map Prod.fst) :
    Elicitation.insertAnswer lib content entry = .ok content' ↔
      ∃ value, entry.1.answer lib entry.2 = .ok value ∧ content' = content ++ memberOf entry value := by
  have helim (value : Option Json) :
      (value.elim content fun value => Json.setMember entry.1.name value content) =
        content ++ memberOf entry value := by
    cases value with
    | none => exact (append_nil content).symm
    | some value => exact setMember_of_not_mem hname
  rw [Elicitation.insertAnswer, bind_ok]
  refine exists_congr fun value => ?_
  rw [mapError_ok, helim]
  refine and_congr_right fun _ => ?_
  exact ⟨fun h => (Except.ok.inj h).symm, fun h => congrArg Except.ok h.symm⟩

theorem foldlM_insertAnswer {entries : List Entry} {content content' : Members}
    (hnames : (content.map Prod.fst ++ entries.map fun entry => entry.1.name).Nodup) :
    entries.foldlM (Elicitation.insertAnswer lib) content = .ok content' ↔
      ∃ values, Forall₂ (fun entry value => entry.1.answer lib entry.2 = .ok value)
        entries values ∧ content' = content ++ contentOf entries values := by
  induction entries generalizing content with
  | nil =>
    constructor
    · intro h
      cases h
      exact ⟨[], .nil, (append_nil _).symm⟩
    · rintro ⟨values, hvalues, rfl⟩
      cases hvalues
      exact congrArg Except.ok (append_nil content).symm
  | cons entry rest ih =>
    have hname : entry.1.name ∉ content.map Prod.fst := fun hmem =>
      (disjoint_of_nodup_append hnames) hmem mem_cons_self
    have hrest (value : Option Json) : ((content ++ memberOf entry value).map Prod.fst ++
        rest.map fun entry => entry.1.name).Nodup := by
      rw [map_append, append_assoc]
      refine hnames.sublist (.append_left ?_ _)
      cases value with
      | none => exact sublist_cons_self _ _
      | some value => exact List.Sublist.refl _
    rw [foldlM_cons, bind_ok]
    constructor
    · rintro ⟨content₁, hentry, hmore⟩
      obtain ⟨value, hvalue, rfl⟩ := (insertAnswer_ok hname).mp hentry
      obtain ⟨values, hvalues, rfl⟩ := (ih (hrest value)).mp hmore
      exact ⟨value :: values, .cons hvalue hvalues, append_assoc _ _ _⟩
    · rintro ⟨values, hvalues, rfl⟩
      cases hvalues with
      | cons hvalue hvalues =>
        refine ⟨_, (insertAnswer_ok hname).mpr ⟨_, hvalue, rfl⟩, ?_⟩
        exact (ih (hrest _)).mpr ⟨_, hvalues, (append_assoc _ _ _).symm⟩

/-! ## Forms -/

def isForm (request : Json) : Prop := (request.get "mode").asStr.getD "form".toList = "form".toList

def propertiesOf (request : Json) : Members :=
  match (request.get "requested_schema").get "properties" with
  | .object members => members
  | _ => []

def requiredOf (request : Json) : List String :=
  ((((request.get "requested_schema").get "required").asArray.getD []).filterMap Json.asStr).map
    String.ofList

/-- The content satisfies the schema that is requested. -/
structure Satisfies (lib : Libraries) (number : Number → ℚ) (request : Json) (content : Members) :
    Prop where
  names : (content.map Prod.fst).Nodup
  conforms : ∀ entry ∈ content, ∃ schema, member (propertiesOf request) entry.1 = some schema ∧
    Conforms lib number schema entry.2
  required : ∀ name ∈ requiredOf request, name ∈ content.map Prod.fst

/-- The fields of a form are its properties, in some order. -/
structure FieldsOf (lib : Libraries) (request : Json) (fields : List FormField) : Prop where
  names : (fields.map FormField.name).Nodup
  all : ∀ name, (member (propertiesOf request) name).isSome = true →
    name ∈ fields.map FormField.name
  required : ∀ name ∈ requiredOf request, (member (propertiesOf request) name).isSome = true
  field : ∀ field ∈ fields, ∃ schema,
    member (propertiesOf request) field.name = some (.object schema) ∧
      FieldOf lib field.name schema (field.name ∈ requiredOf request) field

theorem object_ok {value : Json} {what : String} {members : Members}
    (h : object value what = .ok members) : value = .object members := by
  cases value with
  | object members' => cases h; rfl
  | _ => cases h

theorem member_isSome_iff {members : Members} {name : String} :
    (member members name).isSome = true ↔ name ∈ names members := by
  rw [names, mem_dedup]
  exact IndexMap.mem_keys_iff.symm

theorem distinctNames_ok {properties : Members} {listed : List Str} {error : String}
    {distinct : List String} (h : distinctNames properties listed error = .ok distinct) :
    distinct = listed.map String.ofList ∧
      (∀ name ∈ distinct, (member properties name).isSome = true) ∧ distinct.Nodup := by
  obtain ⟨_, hbad, h⟩ := bind_ok.mp h
  cases h
  rw [failIf_ok, not_or, not_not, not_not] at hbad
  exact ⟨rfl, hbad⟩

theorem parseField_ok {properties : Members} {required : List String} {name : String}
    {field : FormField} {question : Question}
    (h : Elicitation.parseField lib properties required name = .ok (field, question)) :
    ∃ schema, member properties name = some (.object schema) ∧
      FieldOf lib name schema (name ∈ required) field := by
  obtain ⟨schema, hschema, h⟩ := bind_ok.mp h
  refine ⟨schema, ?_, formField_ok (mapError_ok.mp h)⟩
  have hobject := object_ok hschema
  cases hmember : member properties name with
  | none =>
    rw [hmember] at hobject
    cases hobject
  | some value =>
    rw [hmember] at hobject
    exact congrArg some hobject

theorem length_introduce (introduction : Str) (questions : List Question) :
    (Elicitation.introduce introduction questions).length = max 1 questions.length := by
  cases questions with
  | nil => rfl
  | cons first rest => exact (Nat.max_eq_right (Nat.succ_pos _)).symm

theorem parseForm_ok {members : Members} {introduction : Str} {e : Elicitation}
    (h : Elicitation.parseForm lib members introduction = .ok e) :
    ∃ fields, e.fields = some fields ∧ FieldsOf lib (.object members) fields ∧
      e.questions.length = max 1 fields.length := by
  obtain ⟨schemaJson, hschemaJson, h⟩ := bind_ok.mp h
  obtain ⟨schema, hschema, h⟩ := bind_ok.mp h
  obtain ⟨_, _, h⟩ := bind_ok.mp h
  obtain ⟨type, _, h⟩ := bind_ok.mp h
  obtain ⟨_, _, h⟩ := bind_ok.mp h
  obtain ⟨_, _, h⟩ := bind_ok.mp h
  obtain ⟨propertiesJson, hpropertiesJson, h⟩ := bind_ok.mp h
  obtain ⟨properties, hproperties, h⟩ := bind_ok.mp h
  obtain ⟨listed, hlisted, h⟩ := bind_ok.mp h
  obtain ⟨required, hrequired, h⟩ := bind_ok.mp h
  obtain ⟨ordered, _, h⟩ := bind_ok.mp h
  obtain ⟨order, horder, h⟩ := bind_ok.mp h
  obtain ⟨parsed, hparsed, h⟩ := bind_ok.mp h
  cases h
  have hget : (Json.object members).get "requested_schema" = .object schema := by
    rw [get_object, okOr_ok.mp hschemaJson]
    exact object_ok hschema
  have hpropertiesOf : propertiesOf (.object members) = properties := by
    rw [propertiesOf, hget, get_object, okOr_ok.mp hpropertiesJson, Option.getD_some,
      object_ok hproperties]
  have hrequiredOf : requiredOf (.object members) = required := by
    rw [requiredOf, hget, (distinctNames_ok hrequired).1, optionalStrings_ok hlisted]
    cases ((Json.object schema).get "required").asArray <;> rfl
  obtain ⟨-, hordered, hnodup⟩ := distinctNames_ok horder
  have hnames : (parsed.map Prod.fst).map FormField.name =
      order ++ (names properties).filter (· ∉ order) := by
    rw [map_map, ← map_id (order ++ (names properties).filter (· ∉ order))]
    refine map_of_mapM hparsed fun name entry hentry => ?_
    obtain ⟨_, -, hfield⟩ := parseField_ok hentry
    exact hfield.name
  refine ⟨parsed.map Prod.fst, rfl, ⟨?_, ?_, ?_, ?_⟩, ?_⟩
  · rw [hnames]
    refine hnodup.append ((nodup_dedup _).filter _) fun name hname hother => ?_
    exact of_decide_eq_true (mem_filter.mp hother).2 hname
  · intro name hname
    rw [hpropertiesOf, member_isSome_iff] at hname
    rw [hnames, mem_append, mem_filter]
    by_cases hmem : name ∈ order
    · exact .inl hmem
    · exact .inr ⟨hname, decide_eq_true hmem⟩
  · rw [hpropertiesOf, hrequiredOf]
    exact (distinctNames_ok hrequired).2.1
  · intro field hfield
    obtain ⟨entry, hentry, rfl⟩ := mem_map.mp hfield
    obtain ⟨name, -, hparse⟩ := mapM_ok hparsed entry hentry
    obtain ⟨schema', hmember, hfieldOf⟩ := parseField_ok hparse
    rw [hpropertiesOf, hrequiredOf, hfieldOf.name]
    exact ⟨schema', hmember, hfieldOf⟩
  · rw [length_introduce, length_map, length_map]

/-! ## Responses -/

def accepted (content : Members) : Json :=
  .object [("action", .text "accept"), ("content", .object content)]

theorem map_name_zip {fields : List FormField} {answers : List QuestionAnswer}
    (hlength : fields.length ≤ answers.length) :
    (fields.zip answers).map (fun entry => entry.1.name) = fields.map FormField.name := by
  have hfields := congrArg (List.map FormField.name) (map_fst_zip hlength)
  rwa [map_map] at hfields

theorem respond_ok {fields : List FormField} {e : Elicitation} {answers : List QuestionAnswer}
    {response : Json} (hfields : e.fields = some fields)
    (hquestions : e.questions.length = max 1 fields.length)
    (hnames : (fields.map FormField.name).Nodup) :
    e.respond lib (some answers) = .ok response ↔
      answers.length = max 1 fields.length ∧
      Elicitation.confirmEmpty fields answers = .ok () ∧
      ∃ values, Forall₂ (fun entry value => entry.1.answer lib entry.2 = .ok value)
        (fields.zip answers) values ∧ response = accepted (contentOf (fields.zip answers) values) := by
  rw [Elicitation.respond, bind_ok, hfields]
  dsimp only
  constructor
  · rintro ⟨_, hlength, h⟩
    rw [failIf_ok, not_not, hquestions] at hlength
    obtain ⟨_, hconfirm, h⟩ := bind_ok.mp h
    obtain ⟨content, hcontent, h⟩ := bind_ok.mp h
    cases h
    have hnames' : (([] : Members).map Prod.fst ++
        (fields.zip answers).map fun entry => entry.1.name).Nodup := by
      rw [map_name_zip (hlength ▸ Nat.le_max_right _ _)]
      exact hnames
    obtain ⟨values, hvalues, rfl⟩ := (foldlM_insertAnswer hnames').mp hcontent
    exact ⟨hlength, hconfirm, values, hvalues, rfl⟩
  · rintro ⟨hlength, hconfirm, values, hvalues, rfl⟩
    have hnames' : (([] : Members).map Prod.fst ++
        (fields.zip answers).map fun entry => entry.1.name).Nodup := by
      rw [map_name_zip (hlength ▸ Nat.le_max_right _ _)]
      exact hnames
    refine ⟨(), failIf_ok.mpr ?_, bind_ok.mpr ⟨(), hconfirm, bind_ok.mpr ⟨_,
      (foldlM_insertAnswer hnames').mpr ⟨values, hvalues, rfl⟩, rfl⟩⟩⟩
    rw [not_not, hquestions, hlength]

theorem mem_contentOf {entries : List Entry} {values : List (Option Json)} {pair : String × Json} :
    pair ∈ contentOf entries values ↔
      ∃ entry, (entry, some pair.2) ∈ entries.zip values ∧ entry.1.name = pair.1 := by
  simp only [contentOf, mem_flatMap, memberOf, Option.mem_toList, Option.map_eq_some_iff]
  constructor
  · rintro ⟨⟨entry, value⟩, hmem, json, rfl, rfl⟩
    exact ⟨entry, hmem, rfl⟩
  · rintro ⟨entry, hmem, hname⟩
    exact ⟨_, hmem, pair.2, rfl, Prod.ext hname rfl⟩

theorem keys_contentOf (entries : List Entry) (values : List (Option Json)) :
    ((contentOf entries values).map Prod.fst).Sublist (entries.map fun entry => entry.1.name) := by
  induction entries generalizing values with
  | nil => exact List.Sublist.refl _
  | cons entry rest ih =>
    cases values with
    | nil => exact nil_sublist _
    | cons value values =>
      rw [contentOf, zip_cons_cons, flatMap_cons, map_append]
      cases value with
      | none => exact (ih values).cons _
      | some value => exact (ih values).cons_cons _

/-- What is answered satisfies the schema, with numbers as doubles. -/
theorem satisfies_contentOf {request : Json} {fields : List FormField}
    {answers : List QuestionAnswer} {values : List (Option Json)} (h : FieldsOf lib request fields)
    (hlength : fields.length ≤ answers.length)
    (hvalues : Forall₂ (fun entry value => entry.1.answer lib entry.2 = .ok value)
      (fields.zip answers) values) :
    Satisfies lib (asDouble lib) request (contentOf (fields.zip answers) values) where
  names := (map_name_zip hlength ▸ h.names).sublist (keys_contentOf _ _)
  conforms pair hpair := by
    obtain ⟨entry, hmem, hname⟩ := mem_contentOf.mp hpair
    obtain ⟨schema, hschema, hfield⟩ :=
      h.field entry.1 (of_mem_zip (of_mem_zip hmem).1).1
    have hcheck := hfield.check_ok.mp (answer_ok.mp (forall₂_zip hvalues hmem)).2
    exact ⟨_, hname ▸ hschema, hcheck.1 _ rfl⟩
  required name hname := by
    have hmem := h.all name (h.required name hname)
    rw [← map_name_zip hlength] at hmem
    obtain ⟨entry, hentry, rfl⟩ := mem_map.mp hmem
    obtain ⟨schema, -, hfield⟩ := h.field entry.1 (of_mem_zip hentry).1
    obtain ⟨⟨entry', value⟩, hpair, rfl⟩ : ∃ pair ∈ (fields.zip answers).zip values,
        pair.1 = entry := by
      rw [← map_fst_zip hvalues.length_eq.le] at hentry
      exact mem_map.mp hentry
    have hcheck := hfield.check_ok.mp (answer_ok.mp (forall₂_zip hvalues hpair)).2
    cases value with
    | none => exact absurd hname (of_decide_eq_false (hcheck.2 rfl))
    | some json =>
      exact mem_map.mpr ⟨(entry'.1.name, json), mem_contentOf.mpr ⟨entry', hpair, rfl⟩, rfl⟩

/-! ## Answers for a content -/

theorem mem_iff_lookup {content : Members} (h : (content.map Prod.fst).Nodup) {name : String}
    {value : Json} : (name, value) ∈ content ↔ content.lookup name = some value := by
  induction content with
  | nil => exact ⟨nofun, nofun⟩
  | cons member rest ih =>
    obtain ⟨name', value'⟩ := member
    obtain ⟨hnot, hrest⟩ := nodup_cons.mp h
    rw [mem_cons, lookup_cons, ih hrest]
    by_cases hname : name = name'
    · subst hname
      have hnone : (name, value) ∉ rest := fun hmem => hnot (mem_map.mpr ⟨_, hmem, rfl⟩)
      rw [ih hrest] at hnone
      simp [hnone, eq_comm]
    · simp [hname, beq_false_of_ne hname]

/-- Each field can be answered with what the content has of it. -/
theorem exists_answer_of {request : Json} {fields : List FormField} {content : Members}
    (h : FieldsOf lib request fields) (hcontent : Satisfies lib (exactly lib) request content)
    (hwritten : ∀ member ∈ content, Written lib member.2) {field : FormField}
    (hfield : field ∈ fields) :
    ∃ given : QuestionAnswer, given.custom ≠ some [] ∧
      field.answer lib given = .ok (content.lookup field.name) := by
  obtain ⟨schema, hschema, hof⟩ := h.field field hfield
  have hmem {json : Json} (hjson : json ∈ content.lookup field.name) : (field.name, json) ∈ content :=
    (mem_iff_lookup hcontent.names).mpr hjson
  refine hof.exists_answer (hof.check_ok.mpr ⟨fun json hjson => ?_, fun hnone => ?_⟩)
    fun json hjson => hwritten _ (hmem hjson)
  · obtain ⟨schema', hschema', hconforms⟩ := hcontent.conforms _ (hmem hjson)
    obtain rfl := Option.some.inj (hschema.symm.trans hschema')
    exact hconforms.rounded
  · refine decide_eq_false fun hrequired => ?_
    obtain ⟨member, hmember, hname⟩ := mem_map.mp (hcontent.required _ hrequired)
    have hsome := (mem_iff_lookup hcontent.names).mp hmember
    rw [hname, hnone] at hsome
    cases hsome

/-- What the fields have of a content is the content. -/
theorem contentOf_perm {request : Json} {fields : List FormField} {content : Members}
    (h : FieldsOf lib request fields) (hcontent : Satisfies lib (exactly lib) request content)
    (given : FormField → QuestionAnswer) :
    (contentOf (fields.map fun field => (field, given field))
      (fields.map fun field => content.lookup field.name)).Perm content := by
  have hnames : ((contentOf (fields.map fun field => (field, given field))
      (fields.map fun field => content.lookup field.name)).map Prod.fst).Nodup := by
    refine List.Nodup.sublist (keys_contentOf _ _) ?_
    rw [map_map]
    exact h.names
  refine (perm_ext_iff_of_nodup hnames.of_map hcontent.names.of_map).mpr fun ⟨name, value⟩ => ?_
  rw [mem_contentOf, mem_iff_lookup hcontent.names, zip_map']
  constructor
  · rintro ⟨entry, hentry, hname⟩
    obtain ⟨field, -, hfield⟩ := mem_map.mp hentry
    obtain ⟨rfl, hvalue⟩ := Prod.mk.inj hfield
    obtain rfl : field.name = name := hname
    exact hvalue
  · intro hvalue
    obtain ⟨schema, hschema, -⟩ := hcontent.conforms _ ((mem_iff_lookup hcontent.names).mpr hvalue)
    obtain ⟨field, hfield, hname⟩ :=
      mem_map.mp (h.all name (Option.isSome_of_eq_some hschema))
    refine ⟨(field, given field), mem_map.mpr ⟨field, hfield, ?_⟩, hname⟩
    rw [hname, hvalue]

theorem exists_answers {request : Json} {fields : List FormField} {e : Elicitation}
    {content : Members} (h : FieldsOf lib request fields) (hfields : e.fields = some fields)
    (hquestions : e.questions.length = max 1 fields.length)
    (hcontent : Satisfies lib (exactly lib) request content)
    (hwritten : ∀ member ∈ content, Written lib member.2) :
    ∃ answers content', e.respond lib (some answers) = .ok (accepted content') ∧
      content'.Perm content ∧ ∀ answer ∈ answers, answer.custom ≠ some [] := by
  have hgiven (field : FormField) : ∃ given : QuestionAnswer, field ∈ fields →
      given.custom ≠ some [] ∧ field.answer lib given = .ok (content.lookup field.name) := by
    by_cases hfield : field ∈ fields
    · obtain ⟨given, hanswer⟩ := exists_answer_of h hcontent hwritten hfield
      exact ⟨given, fun _ => hanswer⟩
    · exact ⟨⟨[], none⟩, fun hmem => absurd hmem hfield⟩
  choose given hanswer using hgiven
  have hvalues : Forall₂ (fun entry value => entry.1.answer lib entry.2 = .ok value)
      (fields.map fun field => (field, given field))
      (fields.map fun field => content.lookup field.name) := by
    rw [forall₂_map_left_iff, forall₂_map_right_iff, forall₂_same]
    exact fun field hfield => (hanswer field hfield).2
  have hperm := contentOf_perm h hcontent given
  have hresponds := @respond_ok lib fields e
  cases fields with
  | nil =>
    -- a form without fields is answered by its confirmation
    refine ⟨[⟨[EMPTY_FORM_CONSENT], none⟩], _, (hresponds hfields hquestions h.names).mpr
      ⟨rfl, rfl, _, hvalues, rfl⟩, hperm, ?_⟩
    intro answer hanswer
    rw [mem_singleton.mp hanswer]
    nofun
  | cons field rest =>
    have hzip : (field :: rest).zip ((field :: rest).map given) =
        (field :: rest).map fun field => (field, given field) := by
      have hmap := @List.zip_map' _ _ _ id given (field :: rest)
      rwa [map_id] at hmap
    refine ⟨(field :: rest).map given, _, (hresponds hfields hquestions h.names).mpr
      ⟨?_, rfl, _, hzip.symm ▸ hvalues, rfl⟩, hzip.symm ▸ hperm, ?_⟩
    · rw [length_map]
      exact (Nat.max_eq_right (Nat.succ_pos _)).symm
    · intro answer hmem
      obtain ⟨field', hfield', rfl⟩ := mem_map.mp hmem
      exact (hanswer field' hfield').1

/-! ## Requests -/

/-- What a request is parsed into. -/
theorem parse_ok {request : Json} {e : Elicitation} (h : Elicitation.parse lib request = .ok e) :
    (isForm request ∧ ∃ fields, e.fields = some fields ∧ FieldsOf lib request fields ∧
      e.questions.length = max 1 fields.length) ∨ (¬ isForm request ∧ e.fields = none) := by
  obtain ⟨members, hmembers, hparse⟩ := bind_ok.mp h
  obtain rfl := object_ok hmembers
  obtain ⟨introduction, -, h⟩ := bind_ok.mp hparse
  obtain ⟨mode, hmode, h⟩ := bind_ok.mp h
  have hform : isForm (.object members) ↔ mode.getD "form".toList = "form".toList := by
    rw [isForm, optionalText_ok hmode]
  split at h
  · next hmode =>
    exact .inl ⟨hform.mpr hmode, parseForm_ok h⟩
  · next hmode =>
    refine .inr ⟨hform.not.mpr hmode, ?_⟩
    split at h
    · obtain ⟨urlText, -, h⟩ := bind_ok.mp h
      obtain ⟨url, -, h⟩ := bind_ok.mp h
      obtain ⟨-, -, h⟩ := bind_ok.mp h
      obtain ⟨id, -, h⟩ := bind_ok.mp h
      obtain ⟨-, -, h⟩ := bind_ok.mp h
      cases h
      rfl
    · cases h

theorem respond_link {e : Elicitation} {answers : List QuestionAnswer} {response : Json}
    (hfields : e.fields = none) (h : e.respond lib (some answers) = .ok response) :
    response = .object [("action", .text "accept")] := by
  obtain ⟨-, -, h⟩ := bind_ok.mp h
  rw [hfields] at h
  obtain ⟨-, -, h⟩ := bind_ok.mp h
  cases h
  rfl

/-- Whatever is answered to a form, the content that is accepted satisfies its schema with the numbers
compared as doubles; and any content that satisfies the schema is the content of some answers. -/
theorem answers_conform {request : Json} {e : Elicitation}
    (h : Elicitation.parse lib request = .ok e) :
    (∀ answers response, e.respond lib (some answers) = .ok response →
      (isForm request ∧ ∃ content, response = accepted content ∧
        Satisfies lib (asDouble lib) request content) ∨
      (¬ isForm request ∧ response = .object [("action", .text "accept")])) ∧
    ∀ content, isForm request → Satisfies lib (exactly lib) request content →
      (∀ member ∈ content, Written lib member.2) →
      ∃ answers content', e.respond lib (some answers) = .ok (accepted content') ∧
        content'.Perm content ∧ ∀ answer ∈ answers, answer.custom ≠ some [] := by
  rcases parse_ok h with ⟨hform, fields, hfields, hof, hquestions⟩ | ⟨hform, hfields⟩
  · refine ⟨fun answers response hresponse ↦ .inl ⟨hform, ?_⟩, fun content _ hcontent hwritten ↦
      exists_answers hof hfields hquestions hcontent hwritten⟩
    obtain ⟨hlength, -, values, hvalues, rfl⟩ :=
      (respond_ok hfields hquestions hof.names).mp hresponse
    exact ⟨_, rfl, satisfies_contentOf hof (hlength ▸ Nat.le_max_right _ _) hvalues⟩
  · exact ⟨fun answers response hresponse ↦ .inr ⟨hform, respond_link hfields hresponse⟩,
      fun content h ↦ absurd h hform⟩

end

def integersOnly : Libraries where
  parseUrl _ := none
  parseUrl_nil := rfl
  isDate _ := false
  isDateTime _ := false
  fromStr text :=
    if text ≠ [] ∧ text.all Char.isDigit then
      some (.number (.integer (text.foldl (fun n c => 10 * n + (c.toNat - '0'.toNat)) 0 : ℕ)))
    else none
  decimal _ := 0
  decimal_isDouble _ := ⟨0, 0, by decide, by norm_num⟩
  print _ := []
  printDouble q := (Nat.repr q.num.toNat).toList

/-- A form that asks for a count of at most 2⁵³. -/
def countForm : Json :=
  .object [("mcp_server_name", .text "files"), ("message", .text "How many?"),
    ("requested_schema", .object [("type", .text "object"),
      ("properties", .object [("count", .object [("type", .text "integer"),
        ("maximum", .number (.integer 9007199254740992))])]),
      ("required", .array [.text "count"])])]

/-- What is answered to `countForm` satisfies its schema. -/
theorem countForm_conforms : Satisfies integersOnly (asDouble integersOnly) countForm
    [("count", .number (.integer 7))] := by
  rcases (@answers_conform integersOnly countForm _ rfl).1 [⟨[], some "7".toList⟩] _ rfl with
    ⟨-, content, hcontent, hsatisfies⟩ | ⟨-, h⟩
  · cases hcontent
    exact hsatisfies
  · cases h

/-- 2⁵³ + 1 is accepted, since it is rounded to the maximum. -/
theorem countForm_accepts_above : ¬ ∀ lib request e answers content,
    Elicitation.parse lib request = .ok e →
    e.respond lib (some answers) = .ok (accepted content) →
    Satisfies lib (exactly lib) request content := by
  intro h
  have hsatisfies := h integersOnly countForm _ [⟨[], some "9007199254740993".toList⟩]
    [("count", .number (.integer 9007199254740993))] rfl rfl
  obtain ⟨schema, hschema, -, -, hmaximum⟩ := hsatisfies.conforms _ mem_cons_self
  obtain rfl := Option.some.inj hschema
  have hle : (9007199254740993 : ℚ) ≤ 9007199254740992 := hmaximum (.integer 9007199254740992) rfl
  norm_num at hle

end Elicitations
end NiumaTerm.ClaudeCode
