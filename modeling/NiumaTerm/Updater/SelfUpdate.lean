import Mathlib.Data.Char
import Mathlib.Data.List.AList
import Mathlib.Data.List.Lex
import NiumaTerm.Lib.Crash
import NiumaTerm.Updater.Installs

/-!
# Replacing installed files

The functions that touch the install directory.  Every operation on a `Directory` may fail: where the file
system cannot do it, and where its `Outcome` says so.  A copy that fails may leave anything under the name it
copies to.
-/

namespace NiumaTerm.SelfUpdate

open Rust Crash
open Update (InstallError)

variable {α : Type}

/-! ## Directories and operations -/

inductive Entry (α : Type)
  | file (content : α)
  | directory
deriving DecidableEq

def Entry.isFile : Entry α → Bool
  | .file _ => true
  | .directory => false

abbrev Directory (α : Type) := AList fun _ : Str => Entry α

inductive Operation
  | copy (name target : Str)
  | rename (source target : Str)
  | remove (name : Str)
  | readDir

/-- How an operation goes.  `cutShort` is a copy that fails and leaves this under its target. -/
inductive Outcome (α : Type)
  | done
  | failed
  | cutShort (left : Option α)

def Outcome.isDone : Option (Outcome α) → Bool
  | none | some .done => true
  | _ => false

structure Install (α : Type) where
  files : Directory α
  log : List (Operation × Bool)

abbrev Updating (α : Type) := Prog (Outcome α) (Install α)

/-- An operation that answers whether it went well. -/
def fallible (op : Operation) (f : Option (Outcome α) → Directory α → Bool × Directory α) : Updating α Bool :=
  operation fun outcome s =>
    let result := f outcome s.files
    (result.1, { files := result.2, log := s.log ++ [(op, result.1)] })

/-- What `fs::copy` does to the directory it copies to. -/
def Directory.copy (content : Option (Entry α)) (target : Str) (outcome : Option (Outcome α)) (d : Directory α) :
    Bool × Directory α :=
  match content with
  | some (.file content) =>
    if (d.lookup target).all Entry.isFile then
      match outcome with
      | none | some .done => (true, d.insert target (.file content))
      | some .failed => (false, d)
      | some (.cutShort none) => (false, d.erase target)
      | some (.cutShort (some left)) => (false, d.insert target (.file left))
    else (false, d)
  | _ => (false, d)

/-- Only a file takes the place of a file, and nothing that of a directory. -/
def Entry.mayReplace (entry : Entry α) : Option (Entry α) → Bool
  | none => true
  | some target => entry.isFile && target.isFile

/-- `fs::rename`. -/
def Directory.rename (source target : Str) (outcome : Option (Outcome α)) (d : Directory α) : Bool × Directory α :=
  match d.lookup source with
  | some entry =>
    if entry.mayReplace (d.lookup target) && Outcome.isDone outcome then (true, (d.erase source).insert target entry)
    else (false, d)
  | none => (false, d)

/-- `fs::remove_file`. -/
def Directory.remove (name : Str) (outcome : Option (Outcome α)) (d : Directory α) : Bool × Directory α :=
  if (d.lookup name).any Entry.isFile && Outcome.isDone outcome then (true, d.erase name) else (false, d)

def copy (package : Directory α) (name target : Str) : Updating α Bool :=
  fallible (.copy name target) (Directory.copy (package.lookup name) target)

def rename (source target : Str) : Updating α Bool := fallible (.rename source target) (Directory.rename source target)

def removeFile (name : Str) : Updating α Bool := fallible (.remove name) (Directory.remove name)

/-- The names in the directory, when it can be read. -/
def readDir : Updating α (Option (List Str)) := do
  let readable ← fallible .readDir fun outcome d => (Outcome.isDone outcome, d)
  if readable then
    let names ← observe fun s => s.files.keys
    pure (some names)
  else pure none

def isThere (name : Str) : Updating α Bool := observe fun s => (s.files.lookup name).isSome

def isFile (name : Str) : Updating α Bool := observe fun s => (s.files.lookup name).any Entry.isFile

/-! ## Replacing -/

/-- The text `.nmt-previous`. -/
def previousSuffix : Str := ['.', 'n', 'm', 't', '-', 'p', 'r', 'e', 'v', 'i', 'o', 'u', 's']

/-- The text `.nmt-incoming`. -/
def incomingSuffix : Str := ['.', 'n', 'm', 't', '-', 'i', 'n', 'c', 'o', 'm', 'i', 'n', 'g']

def previous (name : Str) : Str := name ++ previousSuffix

def incoming (name : Str) : Str := name ++ incomingSuffix

/-- A rename back that failed: from which name, to which. -/
abbrev RollbackError := Str × Str

inductive ReplaceFilesError
  | copy (name : Str)
  | replace (name : Str) (rollbackErrors : List RollbackError)
deriving DecidableEq

def discardIncoming (names : List Str) : Updating α Unit :=
  names.forM fun name => do
    let _ ← removeFile (incoming name)

/-- The names still to be copied are the last argument. -/
def copyIn (package : Directory α) (names : List Str) : List Str → Updating α (Except ReplaceFilesError Unit)
  | [] => pure (.ok ())
  | name :: rest => do
    if ← copy package name (incoming name) then copyIn package names rest
    else
      discardIncoming names
      pure (.error (.copy name))

/-- The second half of `replace`. -/
def moveIn (name : Str) (hadPrevious : Bool) : Updating α (Except (List RollbackError) Bool) := do
  if ← rename (incoming name) name then pure (.ok hadPrevious)
  else if hadPrevious then
    if ← rename (previous name) name then pure (.error []) else pure (.error [(previous name, name)])
  else pure (.error [])

def replace (name : Str) : Updating α (Except (List RollbackError) Bool) := do
  if ← isThere name then
    if ← rename name (previous name) then moveIn name true else pure (.error [])
  else moveIn name false

def undoOne (name : Str) (hadPrevious : Bool) : Updating α (List RollbackError) := do
  if ← rename name (incoming name) then
    if hadPrevious then
      if ← rename (previous name) name then pure [] else pure [(previous name, name)]
    else pure []
  else pure [(name, incoming name)]

/-- The files are restored in the order of the list. -/
def undoEach : List (Str × Bool) → Updating α (List RollbackError)
  | [] => pure []
  | (name, hadPrevious) :: rest => do
    let errors ← undoOne name hadPrevious
    let more ← undoEach rest
    pure (errors ++ more)

def undo (replaced : List (Str × Bool)) : Updating α (List RollbackError) := undoEach replaced.reverse

/-- What `swap` does when a file cannot be replaced. -/
def rollBack (names : List Str) (replaced : List (Str × Bool)) (name : Str) (rollbackErrors : List RollbackError) :
    Updating α (Except ReplaceFilesError Unit) := do
  let errors ← undo replaced
  if (rollbackErrors ++ errors).isEmpty then
    discardIncoming names
    pure (.error (.replace name []))
  else pure (.error (.replace name (rollbackErrors ++ errors)))

/-- The files that are replaced and the names still to be replaced are the last arguments. -/
def swap (names : List Str) : List (Str × Bool) → List Str → Updating α (Except ReplaceFilesError Unit)
  | _, [] => pure (.ok ())
  | replaced, name :: rest => do
    match ← replace name with
    | .ok hadPrevious => swap names (replaced ++ [(name, hadPrevious)]) rest
    | .error rollbackErrors => rollBack names replaced name rollbackErrors

def replaceFiles (package : Directory α) (names : List Str) : Updating α (Except ReplaceFilesError Unit) := do
  match ← copyIn package names names with
  | .ok _ => swap names [] names
  | .error error => pure (.error error)

/-! ## Cleaning up -/

def discardPreviousOf (entry : Str) : Updating α Unit :=
  match entry.dropSuffix? previousSuffix with
  | none => pure ()
  | some original => do
    if ← isFile original then
      let _ ← removeFile entry
    else pure ()

def discardPrevious : Updating α Unit := do
  match ← readDir with
  | none => pure ()
  | some entries => if entries.any (incomingSuffix.isSuffixOf ·) then pure () else entries.forM discardPreviousOf

def applyPlan (package : Directory α) (names : List Str) : Updating α (Except InstallError Unit) := do
  match ← replaceFiles package names with
  | .ok _ =>
    discardPrevious
    pure (.ok ())
  | .error (.copy _) => pure (.error .notWritable)
  | .error (.replace _ _) => pure (.error .replace)

/-! ## Packages -/

def appExe : Str := "NiumaTerm.exe".toList

def shellExtensionDll : Str := "NmtShellExtension.dll".toList

/-- The files of a package, sorted. -/
def stagedNames (package : Directory α) : List Str :=
  (package.keys.filter fun name => (package.lookup name).any Entry.isFile).mergeSort fun a b => decide (a ≤ b)

def versionKey (name : Str) : Str :=
  if name = shellExtensionDll then "InternalVersion".toList else "FileVersion".toList

section

-- What a file's version resource has under a key.
variable (versionString : Entry α → Str → Option Str)

def versionOf (d : Directory α) (name key : Str) : Option Str := (d.lookup name).bind (versionString · key)

def differs (staged installed : Option Str) : Bool :=
  match staged, installed with
  | some staged, some installed => staged ≠ installed
  | _, _ => true

/-- The files of the package whose copy differs from what is installed. -/
def plan (package install : Directory α) : List Str :=
  (stagedNames package).filter fun name =>
    differs (versionOf versionString package name (versionKey name)) (versionOf versionString install name (versionKey name))

def isInstalledRelease (package : Directory α) : Updating α Bool :=
  observe fun s =>
    let staged := versionOf versionString package appExe "FileVersion".toList
    staged.isSome && staged = versionOf versionString s.files appExe "FileVersion".toList

def installAdditions (package : Directory α) : Updating α Unit := do
  if ← isInstalledRelease versionString package then
    (stagedNames package).forM fun name => do
      if ← isThere name then pure ()
      else
        let _ ← copy package name name
  else pure ()

/-- The packages are what the staging directory holds. -/
def settlePreviousUpdate (packages : List (Directory α)) : Updating α Unit := do
  packages.forM (installAdditions versionString)
  discardPrevious

end

end NiumaTerm.SelfUpdate
