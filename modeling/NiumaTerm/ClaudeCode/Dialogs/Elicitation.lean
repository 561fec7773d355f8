import NiumaTerm.ClaudeCode.Control
import NiumaTerm.Lib.Checks
import NiumaTerm.Lib.Double

/-!
# Forms that an MCP server asks for

`Elicitation.parse` reads a request into questions and fields, and `Elicitation.respond` turns the
answers into the content of a response.  `Libraries` is what the code takes from others: URLs, dates,
JSON, and the printing of values and doubles.
-/

namespace NiumaTerm.ClaudeCode
namespace Elicitations

open Rust Checks

structure Url where
  scheme : Str
  host : Option Str
  text : Str

structure Libraries where
  parseUrl : Str → Option Url
  parseUrl_nil : parseUrl [] = none
  /-- `NaiveDate::parse_from_str` with `%Y-%m-%d` -/
  isDate : Str → Bool
  /-- `DateTime::parse_from_rfc3339` -/
  isDateTime : Str → Bool
  /-- `serde_json::from_str` -/
  fromStr : Str → Option Json
  /-- The double that a decimal is read as. -/
  decimal : Str → ℚ
  decimal_isDouble : ∀ text, Double.IsDouble (decimal text)
  /-- `Value::to_string` -/
  print : Json → Str
  printDouble : ℚ → Str

abbrev Members := List (String × Json)

inductive StringFormat
  | email
  | uri
  | date
  | dateTime

inductive FieldKind
  | string (minimum maximum : Option ℕ) (format : Option StringFormat)
  | number (integer : Bool) (minimum maximum : Option ℚ)
  | boolean
  | enum (values : List Str)
  | array (values : List Str) (minimum maximum : Option ℕ)

structure FieldChoice where
  label : Str
  value : Option Json

structure FormField where
  name : String
  required : Bool
  kind : FieldKind
  choices : List FieldChoice

structure Elicitation where
  questions : List Question
  fields : Option (List FormField)

def URL_CONSENT : Str := "Allow this request".toList
def EMPTY_FORM_CONSENT : Str := "Submit empty form".toList
def LEAVE_BLANK : Str := "Leave blank".toList

/-! ## Members of an object -/

def object (value : Json) (name : String) : Except Str Members :=
  match value with
  | .object members => .ok members
  | _ => .error (name ++ " must be an object").toList

def member (members : Members) (name : String) : Option Json := members.lookup name

/-- The names of a map, each one once. -/
def names (members : Members) : List String := (members.map Prod.fst).dedup

def text (members : Members) (name : String) : Except Str Str :=
  okOr ((member members name).bind Json.asStr) (name ++ " must be a string").toList

def optionalText (members : Members) (name : String) : Except Str (Option Str) :=
  match member members name with
  | none => .ok none
  | some _ => (text members name).map some

def strings (value : Json) (name : String) : Except Str (List Str) := do
  let values ← okOr value.asArray (name ++ " must be an array").toList
  values.mapM fun value => okOr value.asStr (name ++ " must contain strings").toList

def optionalStrings (members : Members) (name : String) : Except Str (Option (List Str)) :=
  match member members name with
  | none => .ok none
  | some value => (strings value name).map some

def checkKeys (members : Members) (allowed : List String) : Except Str Unit :=
  match (members.map Prod.fst).find? fun key => key ∉ allowed with
  | some key => .error ("Unsupported schema property: " ++ key).toList
  | none => .ok ()

def optionalSize (members : Members) (name : String) : Except Str (Option ℕ) :=
  match member members name with
  | none => .ok none
  | some value => (okOr value.asU64 (name ++ " must be a nonnegative integer").toList).map some

/-- Whether two bounds that are both there are in the wrong order. -/
def crossed {α : Type} [LT α] [DecidableLT α] (minimum maximum : Option α) : Bool :=
  match minimum, maximum with
  | some minimum, some maximum => maximum < minimum
  | _, _ => false

def sizeBounds (members : Members) (minimum maximum : String) :
    Except Str (Option ℕ × Option ℕ) := do
  let low ← optionalSize members minimum
  let high ← optionalSize members maximum
  failIf (crossed low high = true) "Minimum cannot exceed maximum".toList
  pure (low, high)

/-- `Value::as_f64` -/
def asF64 (lib : Libraries) : Json → Option ℚ
  | .number (.integer n) => some (Double.nearest n)
  | .number (.decimal text) => some (lib.decimal text)
  | _ => none

def optionalNumber (lib : Libraries) (members : Members) (name : String) : Except Str (Option ℚ) :=
  match member members name with
  | none => .ok none
  | some value =>
    (okOr (asF64 lib value) (name ++ " must be a finite number").toList).map some

/-! ## Texts -/

def markdownText (text : Str) : Str :=
  text.flatMap fun c => if c ∈ "\\`*_\x7b\x7d[]<>()#!|".toList then ['\\', c] else [c]

mutual

def displayValue (lib : Libraries) : Json → Str
  | .string value => if value.isEmpty then "(empty text)".toList else value
  | .array [] => "(no values)".toList
  | .array values => List.intercalate ", ".toList (displayValues lib values)
  | .bool value => if value then "Yes".toList else "No".toList
  | value => lib.print value

def displayValues (lib : Libraries) : List Json → List Str
  | [] => []
  | value :: rest => displayValue lib value :: displayValues lib rest

end

def boundsDescription (minimum maximum : Option ℕ) (unit : String) : Str :=
  let bound (name : String) (bound : Option ℕ) : Str :=
    bound.elim [] fun bound =>
      " ".toList ++ name.toList ++ ": ".toList ++ (Nat.repr bound).toList ++ " ".toList ++
        unit.toList ++ ".".toList
  bound "Minimum" minimum ++ bound "Maximum" maximum

def FieldKind.instructions (lib : Libraries) : FieldKind → Str
  | string minimum maximum format =>
    (match format with
      | some .email => "Enter an email address."
      | some .uri => "Enter an absolute URI."
      | some .date => "Enter a date as YYYY-MM-DD."
      | some .dateTime => "Enter a date-time with a UTC offset, such as 2026-01-01T12:00:00Z."
      | none => "Enter text.").toList ++ boundsDescription minimum maximum "characters"
  | number integer minimum maximum =>
    (if integer then "Enter an integer." else "Enter a number.").toList ++
      minimum.elim [] (fun minimum =>
        " Minimum: ".toList ++ lib.printDouble minimum ++ ".".toList) ++
      maximum.elim [] (fun maximum =>
        " Maximum: ".toList ++ lib.printDouble maximum ++ ".".toList)
  | boolean => "Choose Yes or No.".toList
  | enum _ => "Choose one value.".toList
  | array _ minimum maximum =>
    "Choose values. Blank, empty, and default options must be selected alone.".toList ++
      boundsDescription minimum maximum "values"

/-! ## Formats -/

def validEmail (value : Str) : Bool :=
  match value.dropInfix? ['@'] with
  | none => false
  | some («local», domain) =>
    let labels := domain.splitOnP (· = '.')
    !«local».isEmpty && «local».head? ≠ some '.' && «local».getLast? ≠ some '.' &&
      («local».dropInfix? "..".toList).isNone &&
      («local».all fun c => c.isAlphanum || c ∈ "!#$%&'*+-/=?^_`\x7b|\x7d~.".toList) &&
      2 ≤ labels.length &&
      labels.all fun label => !label.isEmpty && label.head? ≠ some '-' &&
        label.getLast? ≠ some '-' && label.all fun c => c.isAlphanum || c = '-'

/-- The character that begins at a byte. -/
def charAt : ℕ → Str → Option Char
  | _, [] => none
  | 0, c :: _ => some c
  | offset, c :: rest => if c.utf8Size ≤ offset then charAt (offset - c.utf8Size) rest else none

def StringFormat.valid (lib : Libraries) (value : Str) : StringFormat → Bool
  | email => validEmail value
  | uri => !value.any isWhitespace && !value.any isControl && (lib.parseUrl value).isSome
  | date =>
    value.length = 10 &&
      (value.zipIdx.all fun (c, index) => if index = 4 || index = 7 then c = '-' else c.isDigit) &&
      lib.isDate value
  | dateTime => (charAt 10 value).any (fun c => c = 'T' || c = 't') && lib.isDateTime value

def StringFormat.parse (format : Str) : Except Str StringFormat :=
  if format = "email".toList then .ok email
  else if format = "uri".toList then .ok uri
  else if format = "date".toList then .ok date
  else if format = "date-time".toList then .ok dateTime
  else .error "Unsupported string format".toList

/-! ## Values -/

def validateSize (size : ℕ) (minimum maximum : Option ℕ) (unit : String) : Except Str Unit :=
  match minimum.filter fun minimum => size < minimum with
  | some minimum =>
    .error ("Provide at least ".toList ++ (Nat.repr minimum).toList ++ " ".toList ++ unit.toList)
  | none =>
    match maximum.filter fun maximum => maximum < size with
    | some maximum =>
      .error ("Provide at most ".toList ++ (Nat.repr maximum).toList ++ " ".toList ++ unit.toList)
    | none => .ok ()

def validateText (value : Json) (values : List Str) (error : String) : Except Str Unit :=
  failIf (¬ value.asStr.any (· ∈ values)) error.toList

def FieldKind.validate (lib : Libraries) (value : Json) : FieldKind → Except Str Unit
  | string minimum maximum format => do
    let value ← okOr value.asStr "Expected text".toList
    validateSize value.length minimum maximum "characters"
    failIf (format.any fun format => !format.valid lib value)
      "Value does not match the requested text format".toList
  | number integer minimum maximum => do
    let number ← okOr (asF64 lib value) "Expected a number".toList
    failIf (integer = true ∧ number.den ≠ 1) "Expected a finite integer".toList
    failIf (minimum.any fun minimum => number < minimum)
      ("Value must be at least ".toList ++ lib.printDouble (minimum.getD 0))
    failIf (maximum.any fun maximum => maximum < number)
      ("Value must be at most ".toList ++ lib.printDouble (maximum.getD 0))
  | boolean => failIf value.asBool.isNone "Expected a boolean".toList
  | enum values => validateText value values "Value is not one of the available choices"
  | array values minimum maximum => do
    let selected ← okOr value.asArray "Expected a list of choices".toList
    validateSize selected.length minimum maximum "selected values"
    checkEach (fun seen value => do
      let text ← okOr value.asStr "Array choices must be strings".toList
      failIf (text ∉ values ∨ text ∈ seen.filterMap Json.asStr)
        "Array contains an unknown or duplicate choice".toList) [] selected

/-! ## Fields -/

def titledChoice (value : Json) : Except Str FieldChoice := do
  let members ← object value "titled enum choice"
  checkKeys members ["const", "title"]
  let label ← text members "title"
  let const ← text members "const"
  pure ⟨label, some (.string const)⟩

def enumLabel (value : Str) : Str := if value.isEmpty then "Empty value".toList else value

def listedChoices (schema : Members) (titledKey : String) : Except Str (List FieldChoice) :=
  match member schema "enum", member schema titledKey with
  | some values, none => do
    let values ← strings values "enum"
    let titles ← optionalStrings schema "enumNames"
    failIf (titles.any fun titles => titles.length ≠ values.length)
      "Enum names must match the enum value count".toList
    pure ((values.zip (titles.getD (values.map enumLabel))).map fun (value, label) =>
      ⟨label, some (.string value)⟩)
  | none, some values =>
    if (member schema "enumNames").isSome then
      .error "Enum must define exactly one supported set of choices".toList
    else do
      let values ← okOr values.asArray "Titled enum must be an array".toList
      values.mapM titledChoice
  | _, _ => .error "Enum must define exactly one supported set of choices".toList

def choiceValues (choices : List FieldChoice) : List Str :=
  choices.filterMap fun choice => choice.value.bind Json.asStr

def enumChoices (schema : Members) (titledKey : String) : Except Str (List FieldChoice) := do
  let choices ← listedChoices schema titledKey
  failIf (choices = [] ∨ ¬ (choices.map fun choice => choice.value.bind Json.asStr).Nodup)
    "Enum values must be nonempty and distinct".toList
  pure choices

def commonKeys : List String := ["type", "title", "description", "default"]

/-- The keys that a schema may have, and what it says of the field. -/
abbrev Parsed := List String × FieldKind × List FieldChoice

def parseEnum (schema : Members) : Except Str Parsed := do
  let choices ← enumChoices schema "oneOf"
  pure (["enum", "enumNames", "oneOf"], .enum (choiceValues choices), choices)

def parseString (schema : Members) : Except Str Parsed := do
  let (minimum, maximum) ← sizeBounds schema "minLength" "maxLength"
  let name ← optionalText schema "format"
  let format ← name.mapM StringFormat.parse
  let choices :=
    if minimum.getD 0 = 0 && format.isNone then
      [⟨"Use empty text".toList, some (.string [])⟩]
    else []
  pure (["minLength", "maxLength", "format"], .string minimum maximum format, choices)

def parseNumber (lib : Libraries) (schema : Members) (integer : Bool) : Except Str Parsed := do
  let minimum ← optionalNumber lib schema "minimum"
  let maximum ← optionalNumber lib schema "maximum"
  failIf (crossed minimum maximum = true) "Minimum cannot exceed maximum".toList
  pure (["minimum", "maximum"], .number integer minimum maximum, [])

def parseArray (schema : Members) : Except Str Parsed := do
  let items ← okOr (member schema "items") "Missing array items".toList
  let items ← object items "items"
  checkKeys items ["type", "enum", "anyOf"]
  let kind ← optionalText items "type"
  failIf (kind.any (· ≠ "string".toList)) "Array items must be strings".toList
  failIf ((member items "enum").isSome ∧ (member items "type").isNone)
    "Enum array items require type string".toList
  let choices ← enumChoices items "anyOf"
  let values := choiceValues choices
  let (minimum, maximum) ← sizeBounds schema "minItems" "maxItems"
  failIf (minimum.any (values.length < ·))
    "Array minimum exceeds the number of available values".toList
  let empty : List FieldChoice :=
    if minimum.getD 0 = 0 then [⟨"Select no values".toList, some (.array [])⟩] else []
  pure (["items", "minItems", "maxItems"], .array values minimum maximum, choices ++ empty)

def parseBoolean : Parsed :=
  ([], .boolean, [⟨"Yes".toList, some (.bool true)⟩, ⟨"No".toList, some (.bool false)⟩])

def parseOf (lib : Libraries) (schema : Members) (type : Str) : Except Str Parsed :=
  if type = "string".toList then
    if (member schema "enum").isSome || (member schema "oneOf").isSome then parseEnum schema
    else parseString schema
  else if type = "number".toList || type = "integer".toList then
    parseNumber lib schema (type = "integer".toList)
  else if type = "boolean".toList then .ok parseBoolean
  else if type = "array".toList then parseArray schema
  else .error "Unsupported elicitation field type".toList

def FieldKind.parse (lib : Libraries) (schema : Members) :
    Except Str (FieldKind × List FieldChoice) := do
  let type ← text schema "type"
  let parsed ← parseOf lib schema type
  checkKeys schema (commonKeys ++ parsed.1)
  pure parsed.2

def FieldKind.isArray : FieldKind → Bool
  | array _ _ _ => true
  | _ => false

def FieldKind.takesText : FieldKind → Bool
  | string _ _ _ | number _ _ _ => true
  | _ => false

/-- The choice of the default, once it is known to be a value of the field. -/
def defaultChoice (lib : Libraries) (kind : FieldKind) (schema : Members) :
    Except Str (List FieldChoice) :=
  match member schema "default" with
  | none => .ok []
  | some value => do
    kind.validate lib value
    pure [⟨"Use default: ".toList ++ displayValue lib value, some value⟩]

def FormField.parse (lib : Libraries) (name : String) (schema : Members) (required : Bool) :
    Except Str (FormField × Question) := do
  failIf (name.isEmpty = true) "Form property name cannot be empty".toList
  let title ← optionalText schema "title"
  let title := title.getD name.toList
  let description ← optionalText schema "description"
  let (kind, choices) ← FieldKind.parse lib schema
  let default ← defaultChoice lib kind schema
  let choices := choices ++ default ++ if required then [] else [⟨LEAVE_BLANK, none⟩]
  failIf ((choices.any fun choice => (trim choice.label).isEmpty) ∨
      ¬ (choices.map FieldChoice.label).Nodup)
    "Form choices have empty or duplicate labels".toList
  let prompt := markdownText title ++ " (".toList ++
    (if required then "required" else "optional").toList ++ ")\n\n".toList ++
    kind.instructions lib ++
    description.elim [] fun description => "\n\n".toList ++ markdownText description
  pure (⟨name, required, kind, choices⟩,
    { header := some title
      question := prompt
      multiSelect := kind.isArray
      options := choices.map fun choice =>
        ⟨choice.label, if choice.value.isNone then some "Omit this field".toList else none⟩
      input := if kind.takesText then .text else .selectionOnly })

/-- The value of a text in a field. -/
def FieldKind.typed (lib : Libraries) (custom : Str) : FieldKind → Except Str Json
  | string _ _ _ => .ok (.string custom)
  | number _ _ _ => okOr (lib.fromStr (trim custom)) "Enter a valid JSON number".toList
  | _ => .error "Choose one of the available options".toList

/-- The value of one choice, or of several. -/
def FieldKind.selected (kind : FieldKind) : List FieldChoice → Except Str (Option Json)
  | [] => .ok none
  | [choice] =>
    match kind, choice.value with
    | array _ _ _, some (.string value) => .ok (some (.array [.string value]))
    | _, value => .ok value
  | choices =>
    if kind.isArray then
      (choices.mapM fun choice =>
        okOr ((choice.value.bind Json.asStr).map Json.string)
          "Blank, empty, and default choices must be selected alone".toList).map
        fun values => some (.array values)
    else .error "Select only one option for this field".toList

/-- The choices of some labels, each one once. -/
def chosen (choices : List FieldChoice) : List Str → List Str → Except Str (List FieldChoice)
  | _, [] => .ok []
  | seen, label :: rest => do
    failIf (label ∈ seen) "An option cannot be selected more than once".toList
    let choice ← okOr (choices.find? fun choice => choice.label = label)
      "Unknown form option".toList
    let more ← chosen choices (seen ++ [label]) rest
    pure (choice :: more)

namespace FormField

variable (lib : Libraries) (field : FormField) (given : QuestionAnswer)

def answerValue : Except Str (Option Json) :=
  match given.custom with
  | some custom => do
    failIf (given.selected ≠ [])
      "Choose an option or enter text, without combining both".toList
    (field.kind.typed lib custom).map some
  | none => do
    let selected ← chosen field.choices [] given.selected
    field.kind.selected selected

def check : Option Json → Except Str Unit
  | some value => field.kind.validate lib value
  | none => failIf (field.required = true) "This field is required".toList

def answer : Except Str (Option Json) := do
  let value ← field.answerValue lib given
  field.check lib value
  pure value

end FormField

/-! ## Forms -/

def confirmationQuestion (question label : Str) : Question where
  header := some "MCP request".toList
  question := question
  multiSelect := false
  options := [⟨label, none⟩]
  input := .selectionOnly

def validateConfirmation (answer : QuestionAnswer) (label : Str) : Except Str Unit :=
  failIf (answer.custom.isSome ∨ answer.selected ≠ [label])
    "Select the confirmation option before submitting".toList

def distinctNames (properties : Members) (listed : List Str) (error : String) :
    Except Str (List String) := do
  let listed := listed.map String.ofList
  failIf (¬ (∀ name ∈ listed, (member properties name).isSome) ∨ ¬ listed.Nodup) error.toList
  pure listed

namespace Elicitation

variable (lib : Libraries)

def parseField (properties : Members) (required : List String) (name : String) :
    Except Str (FormField × Question) := do
  let schema ← object ((member properties name).getD .null) "field schema"
  (FormField.parse lib name schema (name ∈ required)).mapError
    fun error => name.toList ++ ": ".toList ++ error

/-- The introduction stands in front of the first question. -/
def introduce (introduction : Str) : List Question → List Question
  | [] =>
    [confirmationQuestion (introduction ++
      "\n\nThe server requested a form with no fields.".toList) EMPTY_FORM_CONSENT]
  | first :: rest =>
    { first with question := introduction ++ "\n\n".toList ++ first.question } :: rest

def parseForm (request : Members) (introduction : Str) : Except Str Elicitation := do
  let schema ← okOr (member request "requested_schema")
    "Form elicitation requires requested_schema".toList
  let schema ← object schema "requested_schema"
  checkKeys schema ["type", "properties", "required", "title", "description", "$schema"]
  let type ← text schema "type"
  failIf (type ≠ "object".toList) "Elicitation form schema must have type object".toList
  let _ ← ["title", "description", "$schema"].mapM (optionalText schema)
  let properties ← okOr (member schema "properties") "Missing form properties".toList
  let properties ← object properties "form properties"
  let required ← optionalStrings schema "required"
  let required ← distinctNames properties (required.getD [])
    "Required fields must name distinct form properties"
  let order ← optionalStrings request "property_order"
  let order ← distinctNames properties (order.getD [])
    "Property order must name distinct form properties"
  let order := order ++ (names properties).filter (· ∉ order)
  let parsed ← order.mapM (parseField lib properties required)
  pure
    { questions := introduce introduction (parsed.map Prod.snd)
      fields := some (parsed.map Prod.fst) }

def parseLink (request : Members) (introduction : Str) : Except Str Elicitation := do
  let urlText ← text request "url"
  let url ← okOr (lib.parseUrl urlText) "Invalid elicitation URL".toList
  failIf ((url.scheme ≠ "http".toList ∧ url.scheme ≠ "https".toList) ∨ url.host.isNone ∨
      urlText.any isWhitespace ∨ urlText.any isControl)
    "Elicitation URL must be an HTTP or HTTPS address".toList
  let id ← text request "elicitation_id"
  failIf ((trim id).isEmpty = true) "URL elicitation requires an elicitation ID".toList
  let prompt := introduction ++ "\n\nHost: ".toList ++ markdownText (url.host.getD []) ++
    "\n\nURL: [".toList ++ markdownText urlText ++ "](<".toList ++
    url.text.flatMap (fun c => if c = '\\' then "%5C".toList else [c]) ++
    (">)\n\nAllow this MCP server to request interaction at this website. " ++
      "Consent does not confirm that the website interaction is complete.").toList
  pure { questions := [confirmationQuestion prompt URL_CONSENT], fields := none }

def introductionOf (request : Members) : Except Str Str := do
  let server ← text request "mcp_server_name"
  failIf ((trim server).isEmpty = true) "Elicitation requires an MCP server name".toList
  let message ← text request "message"
  let details ← ["display_name", "title", "description"].mapM (optionalText request)
  pure ("MCP server: ".toList ++ markdownText server ++
    (details.filterMap id).flatMap (fun value => "\n\n".toList ++ markdownText value) ++
    "\n\n".toList ++ markdownText message)

def parse (request : Json) : Except Str Elicitation := do
  let request ← object request "elicitation request"
  let introduction ← introductionOf request
  let mode ← optionalText request "mode"
  if mode.getD "form".toList = "form".toList then parseForm lib request introduction
  else if mode.getD "form".toList = "url".toList then parseLink lib request introduction
  else .error "Unsupported elicitation mode".toList

def insertAnswer (content : Members) (entry : FormField × QuestionAnswer) : Except Str Members := do
  let value ← (entry.1.answer lib entry.2).mapError
    fun error => entry.1.name.toList ++ ": ".toList ++ error
  pure (value.elim content fun value => Json.setMember entry.1.name value content)

def confirmEmpty (fields : List FormField) (answers : List QuestionAnswer) : Except Str Unit :=
  if fields.isEmpty then validateConfirmation (answers.headD ⟨[], none⟩) EMPTY_FORM_CONSENT
  else .ok ()

def respond (e : Elicitation) : Option (List QuestionAnswer) → Except Str Json
  | none => .ok (.object [("action", .text "cancel")])
  | some answers => do
    failIf (answers.length ≠ e.questions.length)
      "Answer count does not match the elicitation form".toList
    match e.fields with
    | none =>
      validateConfirmation (answers.headD ⟨[], none⟩) URL_CONSENT
      pure (.object [("action", .text "accept")])
    | some fields =>
      confirmEmpty fields answers
      let content ← (fields.zip answers).foldlM (insertAnswer lib) ([] : Members)
      pure (.object [("action", .text "accept"), ("content", .object content)])

def decline : Json := .object [("action", .text "decline")]

end Elicitation

/-- The forms of a session's dialogs. -/
@[reducible] def forms (lib : Libraries) : ClaudeCode.Elicitation Elicitation where
  parse := Elicitation.parse lib
  questions := Elicitation.questions
  respond := Elicitation.respond lib
  respond_none _ := rfl

end Elicitations
end NiumaTerm.ClaudeCode
