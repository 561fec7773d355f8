import Mathlib.Algebra.Group.Nat.Defs
import NiumaTerm.Lib.Durable
import NiumaTerm.Lib.Str
import NiumaTerm.Lib.Transition

/-!
# Whole-state snapshots

A `SnapshotStore` owns one value and saves it as one file that every commit replaces.  `CommitStep` says
once what a commit can do, and `Storage.Represents` connects a storage to a `Durable.Cell` over revisions
and values.  Serialization is a parameter (`Serde`).
-/

namespace NiumaTerm

open Rust Transition Durable List

/-- What the store uses of a type's `Serialize` and `DeserializeOwned`. -/
structure Serde (T : Type) where
  Json : Type
  encode : T → Option Json
  decode : Json → Option T
  decode_encode : ∀ v json, encode v = some json → decode json = some v

/-- The codec that keeps the value itself. -/
def Serde.plain (T : Type) : Serde T where
  Json := T
  encode := some
  decode := some
  decode_encode := by
    rintro v json ⟨⟩
    rfl

/-- The value of one field of a snapshot document. -/
inductive Field (Json : Type)
  | number (n : ℕ)
  | image (json : Json)

/-- What a snapshot file can hold. -/
inductive Contents (Json : Type)
  /-- Bytes that are not JSON. -/
  | malformed
  /-- JSON that is not an object. -/
  | scalar
  | object (fields : List (Str × Field Json))

def versionKey : Str := "version".toList

def revisionKey : Str := "revision".toList

/-- `SnapshotFormat`; the two other keys of a document are taken. -/
structure SnapshotFormat where
  file : Str
  field : Str
  version : UInt32
  field_ne_version : field ≠ versionKey := by decide
  field_ne_revision : field ≠ revisionKey := by decide

inductive SnapshotError
  | io
  | json
  | unsupportedVersion (version : ℕ)
  | invalid (message : Str)
  | reopenRequired

/-- `E: From<SnapshotError>`. -/
class FromSnapshot (E : Type) where
  fromSnapshot : SnapshotError → E

instance : FromSnapshot SnapshotError := ⟨id⟩

/-- How `durable_file::write` ends: it replaces the file in one step, and a failure does not tell
whether it had. -/
inductive WriteOutcome
  | done
  | failed (replaced : Bool)

structure SnapshotStore (T : Type) where
  value : T
  revision : ℕ
  /-- A failed replacement can still have reached disk. -/
  failed : Bool

/-- A store and the file it owns. -/
structure Storage {T : Type} (J : Serde T) where
  store : SnapshotStore T
  file : Contents J.Json

variable {T : Type} (J : Serde T) (format : SnapshotFormat)

/-! ## The document -/

/-- `SnapshotDocument::serialize`. -/
def document (image : J.Json) (revision : ℕ) : Contents J.Json :=
  .object [(versionKey, .number format.version.toNat),
    (revisionKey, .number revision), (format.field, .image image)]

/-- `Value::as_u64` of a field. -/
def Field.asNumber {Json : Type} : Field Json → Option ℕ
  | .number n => some n
  | .image _ => none

/-- `raw.get("version").and_then(Value::as_u64)`. -/
def Contents.version {Json : Type} : Contents Json → Option ℕ
  | .object fields => (fields.lookup versionKey).bind Field.asNumber
  | _ => none

/-- `Map::remove`: the value of a key and the other entries. -/
def removeField {Json : Type} (key : Str) (fields : List (Str × Field Json)) :
    Option (Field Json) × List (Str × Field Json) :=
  (fields.lookup key, fields.filter fun entry => entry.1 != key)

/-- `serde_json::from_value` to a revision. -/
def decodeRevision {Json : Type} (field : Field Json) : Except SnapshotError ℕ :=
  match field with
  | .number n => .ok n
  | .image _ => .error .json

/-- `serde_json::from_value` to the stored type. -/
def decodeValue (field : Field J.Json) : Except SnapshotError T :=
  match field with
  | .number _ => .error .json
  | .image json => match J.decode json with
    | some v => .ok v
    | none => .error .json

/-- The fields of a document of the supported version. -/
def readFields (fields : List (Str × Field J.Json)) : Except SnapshotError (ℕ × T) :=
  let (_, fields) := removeField versionKey fields
  let (revision, fields) := removeField revisionKey fields
  match revision with
  | none => .error (.invalid "missing snapshot revision".toList)
  | some revision =>
    let (value, fields) := removeField format.field fields
    match value with
    | none => .error (.invalid "missing snapshot value".toList)
    | some value =>
      if !fields.isEmpty then .error (.invalid "unknown snapshot field".toList)
      else do
        let revision ← decodeRevision revision
        let value ← decodeValue J value
        return (revision, value)

/-- `read`: decode the snapshot without taking the store's lock. -/
def readSnapshot (file : Contents J.Json) : Except SnapshotError (ℕ × T) :=
  match file with
  | .malformed => .error .json
  | raw =>
    match raw.version with
    | none => .error (.invalid "missing snapshot version".toList)
    | some version =>
      if version ≠ format.version.toNat then .error (.unsupportedVersion version)
      else
        match raw with
        | .object fields => readFields J format fields
        | _ => .error (.invalid "snapshot is not an object".toList)

theorem revisionKey_ne_versionKey : revisionKey ≠ versionKey := by decide

/-- Reading what was written gives the revision and the value. -/
theorem readSnapshot_document {v : T} {image : J.Json} (h : J.encode v = some image)
    (revision : ℕ) : readSnapshot J format (document J format image revision) = .ok (revision, v) := by
  have hrv := revisionKey_ne_versionKey
  have hv := format.field_ne_version
  have hr := format.field_ne_revision
  simp only [readSnapshot, document, Contents.version, Field.asNumber, readFields, removeField,
    lookup_cons, beq_self_eq_true, decodeRevision, decodeValue, Option.bind_some]
  simp only [ne_eq, not_true_eq_false, if_false, bne_self_eq_false, Bool.false_eq_true,
    filter_cons, bne_iff_ne, hrv, hv, hr, not_false_eq_true, if_true, filter_nil,
    beq_self_eq_true, lookup_cons, isEmpty_nil, Bool.not_true]
  rw [J.decode_encode v image h]
  rfl

/-! ## Operations -/

/-- `write`: serialize the value and replace the file. -/
def writeSnapshot (v : T) (revision : ℕ) (outcome : WriteOutcome) (file : Contents J.Json) :
    Except SnapshotError Unit × Contents J.Json :=
  match J.encode v with
  | none => (.error .json, file)
  | some image =>
    match outcome with
    | .done => (.ok (), document J format image revision)
    | .failed true => (.error .io, document J format image revision)
    | .failed false => (.error .io, file)

/-- `SnapshotStore::create`: save a value as revision 0. -/
def createStore (v : T) (outcome : WriteOutcome) : Except SnapshotError (Storage J) :=
  match writeSnapshot J format v 0 outcome .malformed with
  | (.error e, _) => .error e
  | (.ok (), file) => .ok { store := { value := v, revision := 0, failed := false }, file }

/-- `SnapshotStore::open`. -/
def openStore (file : Contents J.Json) : Except SnapshotError (SnapshotStore T) := do
  let (revision, value) ← readSnapshot J format file
  return { value, revision, failed := false }

variable {J}

/-- `u64::MAX`. -/
def revisionMax : ℕ := 2 ^ 64 - 1

/-- One call of `commit`: the new value, the check, and how the write ends if it comes to that. -/
structure Commit (T E : Type) where
  next : T
  check : T → T → Except E Unit
  write : WriteOutcome

/-- `SnapshotStore::commit`. -/
def Storage.commit {E : Type} [BEq T] [FromSnapshot E] (s : Storage J) (c : Commit T E) :
    Except E Unit × Storage J :=
  if s.store.failed then (.error (FromSnapshot.fromSnapshot .reopenRequired), s)
  else if c.next == s.store.value then (.ok (), s)
  else
    match c.check s.store.value c.next with
    | .error e => (.error e, s)
    | .ok () =>
      if s.store.revision = revisionMax then
        (.error (FromSnapshot.fromSnapshot (.invalid "snapshot revision exhausted".toList)), s)
      else
        let revision := s.store.revision + 1
        match writeSnapshot J format c.next revision c.write s.file with
        | (.error e, file) =>
          (.error (FromSnapshot.fromSnapshot e), { store := { s.store with failed := true }, file })
        | (.ok (), file) => (.ok (), { store := { s.store with value := c.next, revision }, file })

/-! ## What a commit can do -/

section

variable {E : Type} [BEq T] [FromSnapshot E]

/-- The commit reaches its write: nothing refuses it, and it changes the value. -/
structure Storage.Writes (s : Storage J) (c : Commit T E) : Prop where
  not_failed : s.store.failed = false
  changes : (c.next == s.store.value) = false
  checked : c.check s.store.value c.next = .ok ()
  not_exhausted : s.store.revision ≠ revisionMax

/-- The write of the commit's value succeeds. -/
def Commit.Succeeds (J : Serde T) (c : Commit T E) : Prop :=
  c.write = .done ∧ (J.encode c.next).isSome

/-- Everything that a commit can do. -/
inductive CommitStep (s : Storage J) (c : Commit T E) : Except E Unit → Storage J → Prop
  | refused (e : E) (h : ¬ s.Writes c) : CommitStep s c (.error e) s
  | unchanged (hf : s.store.failed = false) (h : (c.next == s.store.value) = true) :
    CommitStep s c (.ok ()) s
  | saved (image : J.Json) (h : s.Writes c) (hs : c.Succeeds J) (hi : J.encode c.next = some image) :
    CommitStep s c (.ok ()) {
      store := { value := c.next, revision := s.store.revision + 1, failed := false }
      file := document J format image (s.store.revision + 1) }
  | failed (e : E) (file : Contents J.Json) (h : s.Writes c) (hs : ¬ c.Succeeds J)
    (hf : file = s.file ∨ ∃ image, J.encode c.next = some image ∧
      file = document J format image (s.store.revision + 1)) :
    CommitStep s c (.error e) { store := { s.store with failed := true }, file }

variable {c : Commit T E}

/-- **Every commit is a `CommitStep`.** -/
theorem Storage.commitStep {s s' : Storage J} {result : Except E Unit}
    (h : s.commit format c = (result, s')) : CommitStep format s c result s' := by
  rw [Storage.commit] at h
  split at h
  · next hf =>
    cases h
    exact .refused _ fun h => by simp [h.not_failed] at hf
  next hf =>
  rw [Bool.not_eq_true] at hf
  split at h
  · next hc =>
    cases h
    exact .unchanged hf hc
  next hc =>
  rw [Bool.not_eq_true] at hc
  split at h
  · next e he =>
    cases h
    exact .refused e fun h => by simp [h.checked] at he
  next hk =>
  split at h
  · next hr =>
    cases h
    exact .refused _ fun h => h.not_exhausted hr
  next hr =>
  have hw : s.Writes c := ⟨hf, hc, hk, hr⟩
  rcases hi : J.encode c.next with _ | image
  · simp only [writeSnapshot, hi] at h
    cases h
    exact .failed _ _ hw (by simp [Commit.Succeeds, hi]) (.inl rfl)
  rcases ho : c.write with _ | ⟨_ | _⟩ <;> simp only [writeSnapshot, hi, ho] at h <;> cases h
  · rw [hf]
    exact .saved image hw ⟨ho, by simp [hi]⟩ hi
  · exact .failed _ _ hw (by simp [Commit.Succeeds, ho]) (.inl rfl)
  · exact .failed _ _ hw (by simp [Commit.Succeeds, ho]) (.inr ⟨image, hi, rfl⟩)

/-- The errors of a commit that its check has not found. -/
def SnapshotError.OfCommit : SnapshotError → Prop
  | io | json | reopenRequired => True
  | unsupportedVersion _ => False
  | invalid message => message = "snapshot revision exhausted".toList

/-- Where the error of a commit comes from. -/
theorem Storage.commit_error {s s' : Storage J} {e : E}
    (h : s.commit format c = (.error e, s')) : c.check s.store.value c.next = .error e ∨
      ∃ e' : SnapshotError, e'.OfCommit ∧ e = FromSnapshot.fromSnapshot e' := by
  rw [Storage.commit] at h
  split at h
  · cases h
    exact .inr ⟨.reopenRequired, trivial, rfl⟩
  split at h
  · cases h
  split at h
  · next e' he =>
    cases h
    exact .inl he
  split at h
  · cases h
    exact .inr ⟨.invalid _, rfl, rfl⟩
  rcases hi : J.encode c.next with _ | image
  · simp only [writeSnapshot, hi] at h
    cases h
    exact .inr ⟨.json, trivial, rfl⟩
  rcases ho : c.write with _ | ⟨_ | _⟩ <;> simp only [writeSnapshot, hi, ho] at h <;> cases h
  all_goals exact .inr ⟨.io, trivial, rfl⟩

theorem Storage.not_failed_of_ok {s s' : Storage J}
    (h : s.commit format c = (.ok (), s')) : s'.store.failed = false := by
  cases Storage.commitStep format h with
  | unchanged hf _ => exact hf
  | saved _ _ _ _ => rfl

end

/-! ## The store as a cell -/

/-- The file reads as what memory holds, as it does after creating and opening. -/
structure Storage.Synced (s : Storage J) : Prop where
  not_failed : s.store.failed = false
  read : readSnapshot J format s.file = .ok (s.store.revision, s.store.value)

/-- The storage is a cell over revisions and values: the file reads as what memory holds, or after a
failed write perhaps as what that write attempted. -/
inductive Storage.Represents (s : Storage J) : Cell (ℕ × T) → Prop
  | settled (h : s.Synced format) : Represents s (.settled (s.store.revision, s.store.value))
  | doubtful (attempted : ℕ × T) (hf : s.store.failed = true)
    (h : readSnapshot J format s.file = .ok (s.store.revision, s.store.value) ∨
      readSnapshot J format s.file = .ok attempted) :
    Represents s (.doubtful (s.store.revision, s.store.value) attempted)

/-- What memory and the file hold. -/
def Storage.Holds (s : Storage J) (v : ℕ × T) : Prop :=
  v = (s.store.revision, s.store.value) ∨ readSnapshot J format s.file = .ok v

variable {format} {s : Storage J}

theorem synced_createStore {v : T} {outcome : WriteOutcome}
    (h : createStore J format v outcome = .ok s) : s.Synced format := by
  rw [createStore, writeSnapshot] at h
  rcases hi : J.encode v with _ | image
  · simp [hi] at h
  · rcases outcome with _ | ⟨_ | _⟩ <;> simp only [hi, Except.ok.injEq, reduceCtorEq] at h
    subst h
    exact ⟨rfl, readSnapshot_document J format hi 0⟩

theorem value_createStore {v : T} {outcome : WriteOutcome}
    (h : createStore J format v outcome = .ok s) : s.store.value = v := by
  rw [createStore] at h
  split at h
  · cases h
  · cases h
    rfl

theorem synced_openStore (h : openStore J format s.file = .ok s.store) : s.Synced format := by
  rw [openStore] at h
  rcases hr : readSnapshot J format s.file with _ | v
  · simp [hr, bind, Except.bind] at h
  · simp only [hr, bind, Except.bind, pure, Except.pure, Except.ok.injEq] at h
    exact ⟨by rw [← h], by rw [← h, hr]⟩

theorem openStore_of_read {file : Contents J.Json} {v : ℕ × T}
    (h : readSnapshot J format file = .ok v) :
    openStore J format file = .ok { value := v.2, revision := v.1, failed := false } := by
  rw [openStore, h]
  rfl

namespace Storage.Represents

variable {cell : Cell (ℕ × T)}

theorem memory (h : s.Represents format cell) : cell.memory = (s.store.revision, s.store.value) := by
  rcases h with - | _ <;> rfl

/-- The file can be read, and holds what the cell can hold. -/
theorem read (h : s.Represents format cell) :
    ∃ v, readSnapshot J format s.file = .ok v ∧ cell.Holds v := by
  rcases h with h | ⟨_, -, h | h⟩
  · exact ⟨_, h.read, rfl⟩
  · exact ⟨_, h, .inl rfl⟩
  · exact ⟨_, h, .inr rfl⟩

/-- Opening the file settles the cell on a value it can hold. -/
theorem openStore (h : s.Represents format cell) :
    ∃ v, openStore J format s.file = .ok { value := v.2, revision := v.1, failed := false } ∧
      cell.Holds v := by
  obtain ⟨v, hr, hv⟩ := h.read
  exact ⟨v, openStore_of_read hr, hv⟩

/-- **A commit leaves the storage alone or writes to its cell.** -/
theorem commit {E : Type} [BEq T] [FromSnapshot E] {s' : Storage J} {c : Commit T E}
    {result : Except E Unit} (h : s.Represents format cell)
    (hc : s.commit format c = (result, s')) :
    s' = s ∨ s.Writes c ∧ ∃ cell', s'.Represents format cell' ∧
      cell.Write (s.store.revision + 1, c.next) cell' := by
  have hsynced (hw : s.Writes c) : cell = .settled (s.store.revision, s.store.value) ∧
      s.Synced format := by
    rcases h with h | ⟨_, hf, -⟩
    · exact ⟨rfl, h⟩
    · simp [hw.not_failed] at hf
  rcases Storage.commitStep format hc with ⟨_, -⟩ | ⟨-, -⟩ | ⟨image, hw, -, hi⟩ | ⟨_, file, hw, -, hf⟩
  · exact .inl rfl
  · exact .inl rfl
  · rw [(hsynced hw).1]
    exact .inr ⟨hw, _, .settled ⟨rfl, readSnapshot_document J format hi _⟩, .done _ _⟩
  · obtain ⟨rfl, hr⟩ := hsynced hw
    refine .inr ⟨hw, _, .doubtful (s.store.revision + 1, c.next) rfl ?_, .failed _ _⟩
    rcases hf with rfl | ⟨image, hi, rfl⟩
    · exact .inl hr.read
    · exact .inr (readSnapshot_document J format hi _)

/-- What memory and the file hold is what the cell can hold. -/
theorem holds (h : s.Represents format cell) {v : ℕ × T} (hv : s.Holds format v) :
    cell.Holds v := by
  rcases hv with rfl | hv
  · rw [← h.memory]
    exact cell.holds_memory
  · obtain ⟨w, hr, hw⟩ := h.read
    obtain rfl := Except.ok.inj (hv.symm.trans hr)
    exact hw

/-- A commit brings its value and no other. -/
theorem holds_commit {E : Type} [BEq T] [FromSnapshot E] {s' : Storage J} {c : Commit T E}
    {result : Except E Unit} (h : s.Represents format cell)
    (hc : s.commit format c = (result, s')) {v : ℕ × T} (hv : s'.Holds format v) :
    s.Holds format v ∨ v.2 = c.next := by
  rcases h.commit hc with rfl | ⟨-, cell', hr', hwrite⟩
  · exact .inl hv
  have hmemory := h.memory
  have hv := hr'.holds hv
  rcases hwrite with ⟨w, _⟩ | ⟨w, _⟩
  · obtain rfl := hv
    exact .inr rfl
  · rcases hv with rfl | rfl
    · exact .inl (.inl hmemory)
    · exact .inr rfl

/-- A cell that holds no more than memory and the file. -/
theorem exact (h : s.Represents format cell) :
    ∃ cell', s.Represents format cell' ∧ ∀ v, cell'.Holds v → s.Holds format v := by
  rcases h with h | ⟨attempted, hf, h⟩
  · refine ⟨_, .settled h, ?_⟩
    rintro v rfl
    exact .inl rfl
  · rcases h with h | h
    · refine ⟨_, .doubtful (s.store.revision, s.store.value) hf (.inl h), ?_⟩
      rintro v (rfl | rfl)
      · exact .inl rfl
      · exact .inl rfl
    · refine ⟨_, .doubtful attempted hf (.inr h), ?_⟩
      rintro v (rfl | rfl)
      · exact .inl rfl
      · exact .inr h

/-- The file of a store that has not failed holds what memory holds. -/
theorem eq_of_not_failed (h : s.Represents format cell) (hf : s.store.failed = false) {v : ℕ × T}
    (hv : cell.Holds v) : v = (s.store.revision, s.store.value) := by
  rcases h with - | ⟨_, hf', -⟩
  · exact hv
  · simp [hf] at hf'

end Storage.Represents

/-- A store that saves nothing any more: a write failed, or the revisions are exhausted. -/
def Storage.Stuck (s : Storage J) : Prop := s.store.failed = true ∨ s.store.revision = revisionMax

theorem Storage.commit_of_stuck {E : Type} [BEq T] [FromSnapshot E] (h : s.Stuck)
    (c : Commit T E) : (s.commit format c).2 = s := by
  have hw : ¬ s.Writes c := fun hw => h.elim (by simp [hw.not_failed]) hw.not_exhausted
  rcases hc : s.commit format c with ⟨result, s'⟩
  rcases Storage.commitStep format hc with ⟨_, -⟩ | ⟨-, -⟩ | ⟨_, h', -, -⟩ | ⟨_, _, h', -, -⟩
  · rfl
  · rfl
  · exact absurd h' hw
  · exact absurd h' hw

/-- Only a stuck storage refuses a value that passes the check. -/
theorem Storage.stuck_of_error {E : Type} [BEq T] [FromSnapshot E] {s' : Storage J}
    {c : Commit T E} {e : E} (hcheck : c.check s.store.value c.next = .ok ())
    (h : s.commit format c = (.error e, s')) : s'.Stuck := by
  have hstep := Storage.commitStep format h
  generalize hr : (Except.error e : Except E Unit) = result at hstep
  rcases hstep with ⟨_, hw⟩ | - | - | _
  · by_contra hs
    obtain ⟨hf, hm⟩ := not_or.mp hs
    rw [Bool.not_eq_true] at hf
    rcases hq : c.next == s.store.value with _ | _
    · exact hw ⟨hf, hq, hcheck, hm⟩
    · simp [Storage.commit, hf, hq] at h
  · cases hr
  · cases hr
  · exact .inl rfl

/-! ## Sequences of commits -/

section

variable {E : Type} [BEq T] [FromSnapshot E]

variable {commits : List (Commit T E)} {t : Storage J}

end

end NiumaTerm
