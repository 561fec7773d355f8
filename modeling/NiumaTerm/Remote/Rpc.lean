import NiumaTerm.Lib.Serde

/-!
# Control messages

`Control.encode` writes a message as an object of the fields of `Raw`, and `Control.decode` tells them
apart by which fields are there.  A response whose result is `null` is not read as it was written
(`Control.decode_encode_iff`).
-/

namespace NiumaTerm.Remote

open Rust Serde

inductive ErrorCode
  | notFound
  | invalidParams
  | unsupported
  | busy
  | denied
  | internal
  | unknown
  deriving DecidableEq

namespace ErrorCode

def name : ErrorCode → String
  | notFound => "not_found"
  | invalidParams => "invalid_params"
  | unsupported => "unsupported"
  | busy => "busy"
  | denied => "denied"
  | internal => "internal"
  | unknown => "unknown"

/-- Any other name is that of an unknown code. -/
def ofName (s : Str) : ErrorCode :=
  ([notFound, invalidParams, unsupported, busy, denied, internal].find? fun code =>
    code.name.toList = s).getD unknown

end ErrorCode

structure RpcError where
  code : ErrorCode
  message : Str

namespace RpcError

def toJson (error : RpcError) : Json :=
  .object [("code", .text error.code.name), ("message", .string error.message)]

def ofJson (value : Json) : Option RpcError := do
  let fields ← structFields ["code", "message"] false value
  let code ← fields.required "code" Json.asStr
  let message ← fields.required "message" Json.asStr
  return ⟨.ofName code, message⟩

end RpcError

/-- `Result<Value, RpcError>` is an `Except`. -/
inductive Control
  | request (id : UInt64) (method : Str) (params : Json)
  | response (id : UInt64) (outcome : Except RpcError Json)
  | notification (method : Str) (params : Json)

/-- The union of the fields that the three shapes use. -/
structure Raw where
  jsonrpc : Str := "2.0".toList
  id : Option UInt64 := none
  method : Option Str := none
  params : Option Json := none
  result : Option Json := none
  error : Option RpcError := none

namespace Raw

def fields (raw : Raw) : List (String × Option Json) :=
  [("jsonrpc", some (.string raw.jsonrpc)), ("id", raw.id.map fun id => ofNat id.toNat),
    ("method", raw.method.map .string), ("params", raw.params), ("result", raw.result),
    ("error", raw.error.map RpcError.toJson)]

def toJson (raw : Raw) : Json := .object (present raw.fields)

def ofJson (value : Json) : Option Raw := do
  let fields ← structFields ["jsonrpc", "id", "method", "params", "result", "error"] false value
  return {
    jsonrpc := ← fields.required "jsonrpc" Json.asStr
    id := ← fields.defaulted "id" none (nullable readU64)
    method := ← fields.defaulted "method" none (nullable Json.asStr)
    params := ← fields.defaulted "params" none (nullable some)
    result := ← fields.defaulted "result" none (nullable some)
    error := ← fields.defaulted "error" none (nullable RpcError.ofJson) }

end Raw

inductive ControlError
  | json
  | malformed (what : String)

namespace Control

def raw : Control → Raw
  | request id method params => { id, method, params }
  | response id (.ok result) => { id, result }
  | response id (.error error) => { id, error }
  | notification method params => { method, params }

def encode (control : Control) : Json := control.raw.toJson

def decode (value : Json) : Except ControlError Control :=
  match Raw.ofJson value with
  | none => .error .json
  | some raw =>
    let params := raw.params.getD .null
    match raw.id, raw.method, raw.result, raw.error with
    | some id, some method, none, none => .ok (request id method params)
    | none, some method, none, none => .ok (notification method params)
    | some id, none, some result, none => .ok (response id (.ok result))
    | some id, none, none, some error => .ok (response id (.error error))
    | _, _, _, _ => .error (.malformed "control message")

end Control

/-! ## Reading what was written -/

theorem ErrorCode.ofName_name (code : ErrorCode) : ErrorCode.ofName code.name.toList = code := by
  cases code <;> decide +kernel

@[simp] theorem RpcError.ofJson_toJson (error : RpcError) :
    RpcError.ofJson error.toJson = some error := by
  have hnames : ["code", "message"].Nodup := by decide
  have hfields : structFields ["code", "message"] false error.toJson =
      some ⟨[("code", .text error.code.name), ("message", .string error.message)], false⟩ :=
    structFields_present [("code", some (.text error.code.name)),
      ("message", some (.string error.message))] hnames (List.Sublist.refl _) false
  simp [RpcError.ofJson, hfields, Fields.required, List.lookup_cons, ErrorCode.ofName_name]

/-- A value that is `null` counts as missing. -/
def unlessNull (value : Option Json) : Option Json := value.filter fun value => !value.isNull

theorem defaulted_unlessNull {value : Option Json} {f : Fields} {name : String}
    (h : f.members.lookup name = value) :
    f.defaulted name none (nullable some) = some (unlessNull value) := by
  rw [Fields.defaulted, h]
  cases value with
  | none => rfl
  | some value => cases hn : value.isNull <;> simp [nullable, unlessNull, hn, Option.filter_some]

theorem asStr_string (s : Str) : (Json.string s).asStr = some s := rfl

/-- **The fields are read as they were written**, but for those that are `null`. -/
theorem Raw.ofJson_toJson (raw : Raw) : Raw.ofJson raw.toJson =
    some { raw with params := unlessNull raw.params, result := unlessNull raw.result } := by
  have hnames : ["jsonrpc", "id", "method", "params", "result", "error"].Nodup := by decide
  have hfields := structFields_present raw.fields hnames (List.Sublist.refl _) false
  have hlookup (name : String) : (present raw.fields).lookup name = (raw.fields.lookup name).join :=
    lookup_present hnames
  set f : Fields := ⟨present raw.fields, false⟩
  have hjsonrpc : f.required "jsonrpc" Json.asStr = some raw.jsonrpc :=
    Fields.required_of_lookup Json.asStr (f := f) (hlookup "jsonrpc")
  have hid : f.defaulted "id" none (nullable readU64) = some raw.id :=
    Fields.defaulted_nullable readU64_ofNat (fun _ => rfl) (hlookup "id")
  have hmethod : f.defaulted "method" none (nullable Json.asStr) = some raw.method :=
    Fields.defaulted_nullable asStr_string (fun _ => rfl) (hlookup "method")
  have hparams : f.defaulted "params" none (nullable some) = some (unlessNull raw.params) :=
    defaulted_unlessNull (hlookup "params")
  have hresult : f.defaulted "result" none (nullable some) = some (unlessNull raw.result) :=
    defaulted_unlessNull (hlookup "result")
  have herror : f.defaulted "error" none (nullable RpcError.ofJson) = some raw.error :=
    Fields.defaulted_nullable RpcError.ofJson_toJson (fun _ => rfl) (hlookup "error")
  rw [Raw.ofJson, Raw.toJson, hfields]
  simp only [Option.bind_eq_bind, Option.bind_some, hjsonrpc, hid, hmethod, hparams, hresult, herror]
  rfl

@[simp] theorem unlessNull_none : unlessNull none = none := rfl

@[simp] theorem unlessNull_null : unlessNull (some .null) = none := rfl

theorem unlessNull_some {value : Json} (h : value ≠ .null) :
    unlessNull (some value) = some value := by
  cases value with
  | null => exact absurd rfl h
  | _ => rfl

@[simp] theorem getD_unlessNull (value : Json) : (unlessNull (some value)).getD .null = value := by
  cases value <;> rfl

namespace Control

/-- **When a message is read as it was written.** -/
theorem decode_encode_iff (control : Control) :
    decode control.encode = .ok control ↔ ∀ id, control ≠ response id (.ok .null) := by
  rw [decode, encode, Raw.ofJson_toJson]
  cases control with
  | request id method params => simp [raw]
  | notification method params => simp [raw]
  | response id outcome =>
    cases outcome with
    | error error => simp [raw]
    | ok result =>
      by_cases hnull : result = .null
      · subst hnull
        simp [raw]
      · simp [raw, unlessNull_some hnull, hnull]

/-- A `null` result is taken for a missing one. -/
theorem null_result_unread : decode (response 1 (.ok .null)).encode =
    .error (.malformed "control message") := by
  rfl

end Control

end NiumaTerm.Remote
