import NiumaTerm.Lib.Str
import NiumaTerm.Lib.Transition

/-!
# The updater and its jobs

`hosts` is the system of calls in any order: a check or a download is answered once, as late as may be, and
the dialogs may call at any time.  A check that completes is matched by its channel only, so one that was
asked for earlier can end an installation.
-/

namespace NiumaTerm.Update

open Rust Transition List

/-! ## The update state -/

inductive UpdateChannel
  | stable
  | nightly
deriving DecidableEq

structure UpdateConfig where
  checkUpdates : Bool
  channel : UpdateChannel

inductive CheckError
  | unreachable
  | unreadable

inductive InstallError
  | noPackage
  | unreachable
  | checksum
  | unpack
  | notWritable
  | replace
  | relaunch

inductive Status (Release : Type)
  | unknown
  | checking
  | nothingPublished
  | upToDate
  | available (release : Release)
  | installing (release : Release)
  | waitingForIdle (release : Release)
  | inspectingFileUse (release : Release)
  | awaitingFileUse (release : Release)
  | closingFileUsers (release : Release)
  | recoveryWarning (release : Release) (applications : List Str)
  | failed (error : CheckError)
  | installFailed (error : InstallError)

variable {Release Version : Type}

namespace Status

def installationInProgress : Status Release → Bool
  | installing _ | waitingForIdle _ | inspectingFileUse _ | awaitingFileUse _ | closingFileUsers _
  | recoveryWarning _ _ => true
  | _ => false

def busy : Status Release → Bool
  | checking => true
  | status => status.installationInProgress

/-- What a check answers. -/
def outcome (current : Option Version) (supersedes : Version → Release → Bool) :
    Except CheckError (Option Release) → Status Release
  | .ok (some published) =>
    if current.any fun current => !supersedes current published then upToDate else available published
  | .ok none => nothingPublished
  | .error error => failed error

theorem installationInProgress_outcome (current : Option Version) (supersedes : Version → Release → Bool)
    (found : Except CheckError (Option Release)) :
    (outcome current supersedes found).installationInProgress = false := by
  unfold outcome
  split
  · split <;> rfl
  · rfl
  · rfl

end Status

/-- A downloaded release with the names of the files it replaces. -/
structure Installation (Release : Type) where
  release : Release
  names : List Str

def shellExtensionDll : Str := "NmtShellExtension.dll".toList

def Installation.changesShellExtension (installation : Installation Release) : Bool :=
  shellExtensionDll ∈ installation.names

inductive FileUsePromptReason
  | inUse
  | checkFailed
  | rebootRequired
  | remainingUsers

inductive ApplicationKind
  | unknown
  | mainWindow
  | otherWindow
  | service
  | explorer
  | console
  | critical

structure AffectedApplication where
  name : Str
  processId : ℕ
  kind : ApplicationKind
  restartable : Bool

structure FileUsePrompt where
  reason : FileUsePromptReason
  applications : List AffectedApplication

inductive InstallAction
  | none
  | awaitIdle
  | inspectFileUsers
  | prompt (prompt : FileUsePrompt)
  | recoveryWarning (applications : List Str)
  | relaunch

inductive ApplyOutcome
  | applied (applications : List Str)
  | prompt (prompt : FileUsePrompt)
  | failed (error : InstallError)

/-- `number` counts the checks; the source has only the channel. -/
structure Check where
  number : ℕ
  channel : UpdateChannel
deriving DecidableEq

structure CheckedRelease (Release : Type) where
  channel : UpdateChannel
  status : Status Release

structure Updater (Release : Type) where
  status : Status Release
  settings : UpdateConfig
  testing : Bool
  pending : Option (Installation Release)

namespace Updater

def new (settings : UpdateConfig) (testing : Bool) : Updater Release where
  status := .unknown
  settings := settings
  testing := testing
  pending := none

variable (u : Updater Release)

def automaticChecksEnabled : Bool := !u.testing && u.settings.checkUpdates

def setSettings (settings : UpdateConfig) : Bool × Updater Release :=
  let switched := u.settings.channel ≠ settings.channel
  let turnedOn := settings.checkUpdates && !u.settings.checkUpdates
  let u := { u with settings }
  if u.pending.isSome || u.status.installationInProgress then (false, u)
  else
    let u := if switched then { u with status := .unknown } else u
    (u.automaticChecksEnabled && (switched || turnedOn), u)

def beginCheck : Option UpdateChannel × Updater Release :=
  if u.status.busy || u.pending.isSome then (none, u)
  else (some u.settings.channel, { u with status := .checking })

def finishCheck (checked : CheckedRelease Release) : Bool × Updater Release :=
  if checked.channel ≠ u.settings.channel then (false, u)
  else (true, { u with status := checked.status })

/-- The release to download. -/
def beginInstall : Option Release × Updater Release :=
  match u.status with
  | .available release => (some release, { u with status := .installing release })
  | _ => (none, u)

def failInstall (error : InstallError) : InstallAction × Updater Release :=
  (.none, { u with pending := none, status := .installFailed error })

def finishDownload (downloaded : Except InstallError (Installation Release)) :
    InstallAction × Updater Release :=
  match downloaded with
  | .error error => u.failInstall error
  | .ok installation =>
    (.awaitIdle, { u with status := .waitingForIdle installation.release, pending := some installation })

/-- `applied` is what replacing the files answers. -/
def continueInstall (applied : Except InstallError Unit) : InstallAction × Updater Release :=
  match u.pending with
  | none => (.none, u)
  | some pending =>
    let u := { u with status := .installing pending.release }
    match applied with
    | .ok () => (.relaunch, u)
    | .error error => u.failInstall error

def resumeInstall (applied : Except InstallError Unit) : Option InstallAction × Updater Release :=
  match u.status, u.pending with
  | .waitingForIdle _, some pending =>
    if pending.changesShellExtension then (some .inspectFileUsers, u)
    else
      let (action, u) := u.continueInstall applied
      (some action, u)
  | _, _ => (none, u)

/-- Whether the users of the file are to be looked up. -/
def inspectFileUsers : Bool × Updater Release :=
  match u.pending with
  | none => (false, u)
  | some pending => (true, { u with status := .inspectingFileUse pending.release })

def awaitFileUsers (prompt : FileUsePrompt) : InstallAction × Updater Release :=
  match u.pending with
  | none => (.none, u)
  | some pending => (.prompt prompt, { u with status := .awaitingFileUse pending.release })

def finishInspection (inspection : Except Unit (Option FileUsePrompt))
    (applied : Except InstallError Unit) : InstallAction × Updater Release :=
  match inspection with
  | .ok none => u.continueInstall applied
  | .ok (some prompt) => u.awaitFileUsers prompt
  | .error () => u.awaitFileUsers { reason := .checkFailed, applications := [] }

def closeFileUsers : Bool × Updater Release :=
  match u.pending with
  | none => (false, u)
  | some pending => (true, { u with status := .closingFileUsers pending.release })

def finishClosing (closed : ApplyOutcome) : InstallAction × Updater Release :=
  match u.pending with
  | none => (.none, u)
  | some pending =>
    let u := { u with status := .installing pending.release }
    match closed with
    | .applied [] => (.relaunch, u)
    | .applied applications =>
      (.recoveryWarning applications, { u with status := .recoveryWarning pending.release applications })
    | .prompt prompt => u.awaitFileUsers prompt
    | .failed error => u.failInstall error

/-- `started` is what starting the installed program answers. -/
def relaunch (started : Except InstallError Unit) : Bool × Updater Release :=
  match u.pending with
  | none => (false, u)
  | some _ =>
    let u := { u with pending := none }
    match started with
    | .ok () => (true, u)
    | .error error => (false, { u with status := .installFailed error })

def cancelInstall : Bool × Updater Release :=
  match u.pending with
  | none => (false, u)
  | some pending => (true, { u with pending := none, status := .available pending.release })

end Updater

/-! ## Runs -/

structure Host (Release : Type) where
  updater : Updater Release
  /-- The channels of all checks so far, in the order they began. -/
  asked : List UpdateChannel
  /-- The checks without an answer. -/
  checks : List Check
  downloads : List Release
  quit : Bool

inductive HostCall (Release : Type)
  | setSettings (settings : UpdateConfig)
  | beginCheck
  /-- `newer` is whether the published release supersedes the running one. -/
  | finishCheck (check : Check) (newer : Release → Bool) (found : Except CheckError (Option Release))
  | beginInstall
  | finishDownload (release : Release) (downloaded : Except InstallError (List Str))
  | resumeInstall (applied : Except InstallError Unit)
  | inspectFileUsers
  | finishInspection (inspection : Except Unit (Option FileUsePrompt))
      (applied : Except InstallError Unit)
  | closeFileUsers
  | finishClosing (closed : ApplyOutcome)
  | continueInstall (applied : Except InstallError Unit)
  | relaunch (started : Except InstallError Unit)
  | cancelInstall

namespace Host

def new (settings : UpdateConfig) (testing : Bool) : Host Release where
  updater := .new settings testing
  asked := []
  checks := []
  downloads := []
  quit := false

end Host

/-- What a check answers when it has run. -/
def Check.checked (check : Check) (newer : Release → Bool) (found : Except CheckError (Option Release)) :
    CheckedRelease Release where
  channel := check.channel
  status := .outcome (some ()) (fun _ => newer) found

namespace Host

variable (h : Host Release) [DecidableEq Release]

def perform : HostCall Release → Host Release
  | .setSettings settings => { h with updater := (h.updater.setSettings settings).2 }
  | .beginCheck =>
    match h.updater.beginCheck with
    | (some channel, updater) =>
      { h with updater, asked := h.asked ++ [channel],
               checks := h.checks ++ [{ number := h.asked.length, channel }] }
    | (none, updater) => { h with updater }
  | .finishCheck check newer found =>
    { h with updater := (h.updater.finishCheck (check.checked newer found)).2,
             checks := h.checks.erase check }
  | .beginInstall =>
    match h.updater.beginInstall with
    | (some release, updater) => { h with updater, downloads := h.downloads ++ [release] }
    | (none, updater) => { h with updater }
  | .finishDownload release downloaded =>
    let downloaded := downloaded.map fun names => { release, names }
    { h with updater := (h.updater.finishDownload downloaded).2,
             downloads := h.downloads.erase release }
  | .resumeInstall applied =>
    { h with updater := (h.updater.resumeInstall applied).2 }
  | .inspectFileUsers => { h with updater := h.updater.inspectFileUsers.2 }
  | .finishInspection inspection applied =>
    { h with updater := (h.updater.finishInspection inspection applied).2 }
  | .closeFileUsers => { h with updater := h.updater.closeFileUsers.2 }
  | .finishClosing closed => { h with updater := (h.updater.finishClosing closed).2 }
  | .continueInstall applied =>
    { h with updater := (h.updater.continueInstall applied).2 }
  | .relaunch started =>
    { h with updater := (h.updater.relaunch started).2, quit := (h.updater.relaunch started).1 }
  | .cancelInstall => { h with updater := h.updater.cancelInstall.2 }

/-- A job answers once, and nothing happens after the program has quit. -/
def Enabled : HostCall Release → Prop
  | .finishCheck check _ _ => check ∈ h.checks
  | .finishDownload release _ => release ∈ h.downloads
  | _ => True

end Host

def hosts [DecidableEq Release] : System (Host Release) (HostCall Release) where
  init h := ∃ settings testing, h = .new settings testing
  step h call h' := h.quit = false ∧ h.Enabled call ∧ h' = h.perform call

/-! ## The property -/

namespace Status

/-- The release is staged, and only what happens to its files is open. -/
def needsRelease : Status Release → Bool
  | waitingForIdle _ | inspectingFileUse _ | awaitingFileUse _ | closingFileUsers _ | recoveryWarning _ _ => true
  | _ => false

def isInstalling : Status Release → Bool
  | installing _ => true
  | _ => false

theorem installationInProgress_eq (status : Status Release) :
    status.installationInProgress = (status.needsRelease || status.isInstalling) := by
  cases status <;> rfl

end Status

namespace Host

structure Consistent (h : Host Release) : Prop where
  single : h.downloads.length ≤ 1
  installing : h.downloads ≠ [] ∨ h.updater.pending.isSome = true →
    h.updater.status.installationInProgress = true
  /-- `Installing` needs the release from the end of the download on. -/
  pending : h.quit = false → (h.updater.pending.isSome = true ↔ h.updater.status.needsRelease = true ∨
    (h.updater.status.isInstalling = true ∧ h.downloads = []))

/-- No later check asked the same channel, which is the selected one. -/
def Latest (h : Host Release) (check : Check) : Prop :=
  check.channel = h.updater.settings.channel ∧
    ∀ later, check.number < later → h.asked[later]? ≠ some check.channel

/-- A check's answer is taken only from the latest check of the selected channel. -/
def TakesLatest (h : Host Release) : HostCall Release → Prop
  | .finishCheck check newer found => (h.updater.finishCheck (check.checked newer found)).1 = true → h.Latest check
  | _ => True

/-- The latest check, and no installation meanwhile. -/
def Timely (h : Host Release) : HostCall Release → Prop
  | .finishCheck check _ _ => check.channel = h.updater.settings.channel →
      h.Latest check ∧ h.updater.status.installationInProgress = false
  | _ => True

end Host

/-! ## What one call does -/

/-- A call that needs the downloaded release keeps it, or ends the installation. -/
inductive Updater.Handles (u u' : Updater Release) : Prop
  | same (h : u' = u)
  | held (h : u.pending.isSome = true) (h' : u'.pending.isSome = true)
      (hs : u'.status.installationInProgress = true)
  | ended (h : u.pending.isSome = true) (h' : u'.pending = none)
      (hs : u'.status.installationInProgress = false)

namespace Updater

variable (u : Updater Release)

theorem handles_continueInstall (applied : Except InstallError Unit) :
    u.Handles (u.continueInstall applied).2 := by
  unfold continueInstall
  cases hp : u.pending with
  | none => exact .same rfl
  | some pending =>
    cases applied with
    | ok done => exact .held (by rw [hp]; rfl) rfl rfl
    | error error => exact .ended (by rw [hp]; rfl) rfl rfl

theorem handles_resumeInstall (applied : Except InstallError Unit) :
    u.Handles (u.resumeInstall applied).2 := by
  unfold resumeInstall
  split
  · split
    · exact .same rfl
    · exact u.handles_continueInstall applied
  · exact .same rfl

theorem handles_inspectFileUsers : u.Handles u.inspectFileUsers.2 := by
  unfold inspectFileUsers
  cases hp : u.pending with
  | none => exact .same rfl
  | some pending => exact .held (by rw [hp]; rfl) rfl rfl

theorem handles_awaitFileUsers (prompt : FileUsePrompt) : u.Handles (u.awaitFileUsers prompt).2 := by
  unfold awaitFileUsers
  cases hp : u.pending with
  | none => exact .same rfl
  | some pending => exact .held (by rw [hp]; rfl) rfl rfl

theorem handles_finishInspection (inspection : Except Unit (Option FileUsePrompt))
    (applied : Except InstallError Unit) : u.Handles (u.finishInspection inspection applied).2 := by
  unfold finishInspection
  split
  · exact u.handles_continueInstall applied
  · exact u.handles_awaitFileUsers _
  · exact u.handles_awaitFileUsers _

theorem handles_closeFileUsers : u.Handles u.closeFileUsers.2 := by
  unfold closeFileUsers
  cases hp : u.pending with
  | none => exact .same rfl
  | some pending => exact .held (by rw [hp]; rfl) rfl rfl

theorem handles_finishClosing (closed : ApplyOutcome) : u.Handles (u.finishClosing closed).2 := by
  unfold finishClosing
  cases hp : u.pending with
  | none => exact .same rfl
  | some pending =>
    have hsome : u.pending.isSome = true := by rw [hp]; rfl
    cases closed with
    | applied applications => cases applications <;> exact .held hsome rfl rfl
    | prompt prompt => exact .held hsome rfl rfl
    | failed error => exact .ended hsome rfl rfl

theorem finishCheck_of_selected {u : Updater Release} {check : Check} {newer : Release → Bool}
    {found : Except CheckError (Option Release)} (hc : check.channel = u.settings.channel) :
    u.finishCheck (check.checked newer found) = (true, { u with status := (check.checked newer found).status }) :=
  if_neg fun hne : (check.checked newer found).channel ≠ u.settings.channel => hne hc

theorem finishCheck_of_other {u : Updater Release} {check : Check} {newer : Release → Bool}
    {found : Except CheckError (Option Release)} (hc : check.channel ≠ u.settings.channel) :
    u.finishCheck (check.checked newer found) = (false, u) := if_pos hc

theorem beginInstall_cases : (∃ release, u.status = .available release ∧
    u.beginInstall = (some release, { u with status := .installing release })) ∨ u.beginInstall = (none, u) := by
  unfold beginInstall
  split
  · next release hst => exact .inl ⟨release, hst, rfl⟩
  · exact .inr rfl

theorem handles_cancelInstall : u.Handles u.cancelInstall.2 := by
  unfold cancelInstall
  cases hp : u.pending with
  | none => exact .same rfl
  | some pending => exact .ended (by rw [hp]; rfl) rfl rfl

end Updater

namespace Host

variable {h : Host Release}

structure Sound (h : Host Release) : Prop where
  single : h.downloads.length ≤ 1
  downloading : h.downloads ≠ [] → h.updater.status.isInstalling = true ∧ h.updater.pending = none
  waiting : h.updater.pending.isSome = true → h.updater.status.installationInProgress = true
  needed : h.quit = false → h.updater.status.needsRelease = true ∨
    (h.updater.status.isInstalling = true ∧ h.downloads = []) → h.updater.pending.isSome = true

theorem Sound.consistent (hs : h.Sound) : h.Consistent := by
  refine ⟨hs.single, ?_, fun hq => ⟨fun hp => ?_, hs.needed hq⟩⟩
  · rintro (hd | hp)
    · rw [Status.installationInProgress_eq, (hs.downloading hd).1, Bool.or_true]
    · exact hs.waiting hp
  · have hw := hs.waiting hp
    rw [Status.installationInProgress_eq, Bool.or_eq_true] at hw
    refine hw.imp_right fun hi => ⟨hi, ?_⟩
    by_contra hd
    rw [(hs.downloading hd).2] at hp
    cases hp

theorem Sound.new (settings : UpdateConfig) (testing : Bool) : (new settings testing : Host Release).Sound := by
  refine ⟨Nat.zero_le _, fun hd => absurd rfl hd, fun hp => ?_, fun _ hn => ?_⟩
  · cases hp
  · obtain hn | ⟨hn, -⟩ := hn <;> cases hn

/-- Nothing is under way. -/
theorem Sound.idle (hs : h.Sound) (hn : h.updater.status.installationInProgress = false) :
    h.downloads = [] ∧ h.updater.pending = none := by
  constructor
  · by_contra hd
    rw [Status.installationInProgress_eq, (hs.downloading hd).1, Bool.or_true] at hn
    cases hn
  · by_contra hp
    rw [hs.waiting (Option.isSome_iff_ne_none.mpr hp)] at hn
    cases hn

theorem Sound.handles (hs : h.Sound) {u : Updater Release} (hu : h.updater.Handles u) :
    ({ h with updater := u } : Host Release).Sound := by
  cases hu with
  | same hu =>
    rw [hu]
    exact hs
  | held hp hp' hst =>
    have hd : h.downloads = [] := by
      by_contra hd
      rw [(hs.downloading hd).2] at hp
      cases hp
    exact ⟨hs.single, fun h => absurd hd h, fun _ => hst, fun _ _ => hp'⟩
  | ended hp hp' hst =>
    have hd : h.downloads = [] := by
      by_contra hd
      rw [(hs.downloading hd).2] at hp
      cases hp
    refine ⟨hs.single, fun h => absurd hd h, fun h => ?_, fun _ hn => ?_⟩
    · rw [hp'] at h
      cases h
    · rw [Status.installationInProgress_eq, Bool.or_eq_false_iff] at hst
      obtain hn | ⟨hn, -⟩ := hn
      · exact absurd hn (by simp [hst.1])
      · exact absurd hn (by simp [hst.2])

/-- A status without an installation, while nothing is under way. -/
theorem Sound.settle (hs : h.Sound) (hn : h.updater.status.installationInProgress = false) {h' : Host Release}
    (hd : h'.downloads = h.downloads) (hp : h'.updater.pending = h.updater.pending)
    (hst : h'.updater.status.installationInProgress = false) : h'.Sound := by
  obtain ⟨hdn, hpn⟩ := hs.idle hn
  rw [hdn] at hd
  rw [hpn] at hp
  refine ⟨by rw [hd]; exact Nat.zero_le _, fun h => absurd hd h, fun h => ?_, fun _ hneed => ?_⟩
  · rw [hp] at h
    cases h
  · rw [Status.installationInProgress_eq, Bool.or_eq_false_iff] at hst
    obtain hneed | ⟨hneed, -⟩ := hneed
    · exact absurd hneed (by simp [hst.1])
    · exact absurd hneed (by simp [hst.2])

variable [DecidableEq Release]

/-- A call keeps the state sound, unless it is a check that ends an installation. -/
theorem Sound.perform (hs : h.Sound) (hq : h.quit = false) {call : HostCall Release}
    (he : h.Enabled call) (ht : h.Timely call) : (h.perform call).Sound := by
  cases call with
  | setSettings settings =>
    unfold Host.perform Updater.setSettings
    dsimp only
    split_ifs with hbusy hswitched
    · exact ⟨hs.single, hs.downloading, hs.waiting, hs.needed⟩
    · rw [Bool.or_eq_true, not_or, Bool.not_eq_true, Bool.not_eq_true] at hbusy
      exact hs.settle hbusy.2 rfl rfl rfl
    · exact ⟨hs.single, hs.downloading, hs.waiting, hs.needed⟩
  | beginCheck =>
    unfold Host.perform Updater.beginCheck
    split_ifs with hbusy
    · exact hs
    · rw [Bool.or_eq_true, not_or, Bool.not_eq_true, Bool.not_eq_true] at hbusy
      have hn : h.updater.status.installationInProgress = false := by
        cases hst : h.updater.status <;> rw [hst] at hbusy <;> first | rfl | exact hbusy.1
      exact hs.settle hn rfl rfl rfl
  | finishCheck check newer found =>
    unfold Host.perform Updater.finishCheck
    dsimp only
    split_ifs with hc
    · exact ⟨hs.single, hs.downloading, hs.waiting, hs.needed⟩
    · have hn := (ht (not_not.mp hc)).2
      exact hs.settle hn rfl rfl (Status.installationInProgress_outcome _ _ _)
  | beginInstall =>
    obtain ⟨release, hst, hb⟩ | hb := h.updater.beginInstall_cases
    · obtain ⟨hd, hp⟩ := hs.idle (by rw [hst]; rfl)
      rw [Host.perform, hb]
      refine ⟨by simp [hd], fun _ => ⟨rfl, hp⟩, fun h' => ?_, fun _ hneed => ?_⟩
      · dsimp only at h'
        rw [hp] at h'
        cases h'
      · obtain hneed | ⟨-, hneed⟩ := hneed
        · cases hneed
        · simp at hneed
    · rw [Host.perform, hb]
      exact hs
  | finishDownload release downloaded =>
    have hd : h.downloads ≠ [] := ne_nil_of_mem he
    have herase : h.downloads.erase release = [] := by
      have hl := length_erase_of_mem he
      have := hs.single
      rw [← length_eq_zero_iff]
      omega
    cases downloaded with
    | error error =>
      refine ⟨?_, fun hd' => absurd herase hd', fun hp => ?_, fun _ hneed => ?_⟩
      · rw [show (h.perform _).downloads = h.downloads.erase release from rfl, herase]
        exact Nat.zero_le _
      · cases hp
      · obtain hneed | ⟨hneed, -⟩ := hneed <;> cases hneed
    | ok names =>
      refine ⟨?_, fun hd' => absurd herase hd', fun _ => rfl, fun _ _ => rfl⟩
      rw [show (h.perform _).downloads = h.downloads.erase release from rfl, herase]
      exact Nat.zero_le _
  | resumeInstall applied => exact hs.handles (h.updater.handles_resumeInstall applied)
  | inspectFileUsers => exact hs.handles h.updater.handles_inspectFileUsers
  | finishInspection inspection applied => exact hs.handles (h.updater.handles_finishInspection inspection applied)
  | closeFileUsers => exact hs.handles h.updater.handles_closeFileUsers
  | finishClosing closed => exact hs.handles (h.updater.handles_finishClosing closed)
  | continueInstall applied => exact hs.handles (h.updater.handles_continueInstall applied)
  | relaunch started =>
    rw [Host.perform, Updater.relaunch]
    cases hp : h.updater.pending with
    | none => exact ⟨hs.single, hs.downloading, hs.waiting, fun _ => hs.needed hq⟩
    | some pending =>
      have hd : h.downloads = [] := by
        by_contra hd
        rw [(hs.downloading hd).2] at hp
        cases hp
      cases started with
      | ok done =>
        refine ⟨hs.single, fun hd' => absurd hd hd', fun hp' => ?_, fun hq' => ?_⟩
        · cases hp'
        · cases hq'
      | error error =>
        refine ⟨hs.single, fun hd' => absurd hd hd', fun hp' => ?_, fun _ hneed => ?_⟩
        · cases hp'
        · obtain hneed | ⟨hneed, -⟩ := hneed <;> cases hneed
  | cancelInstall => exact hs.handles h.updater.handles_cancelInstall

end Host

/-! ## Runs -/

section

variable [DecidableEq Release] {calls : List (HostCall Release)} {h h' : Host Release}

/-- The calls of a run in which no check is answered out of time. -/
def timely : System (Host Release) (HostCall Release) :=
  hosts.restrict Host.Timely

theorem sound_run (hr : Run (timely : System (Host Release) (HostCall Release)) calls h) : h.Sound := by
  refine hr.invariant (fun s hs => ?_) fun s call s' hs hstep => ?_
  · obtain ⟨settings, testing, rfl⟩ := hs
    exact .new settings testing
  · obtain ⟨ht, hq, he, rfl⟩ := hstep
    exact hs.perform hq he ht

/-- A check that is answered during an installation ends it. -/
theorem Host.Sound.not_consistent (hs : h.Sound) (hq : h.quit = false) {check : Check} {newer : Release → Bool}
    {found : Except CheckError (Option Release)} (hc : check.channel = h.updater.settings.channel)
    (hi : h.updater.status.installationInProgress = true) :
    ¬ (h.perform (.finishCheck check newer found)).Consistent := by
  intro hcon
  have hst : (h.perform (.finishCheck check newer found)).updater =
      { h.updater with status := (check.checked newer found).status } := by
    rw [Host.perform, Updater.finishCheck_of_selected hc]
  have hn := Status.installationInProgress_outcome (some ()) (fun _ => newer) found
  have hbusy : h.downloads ≠ [] ∨ h.updater.pending.isSome = true := by
    by_cases hd : h.downloads = []
    · rw [Status.installationInProgress_eq, Bool.or_eq_true] at hi
      exact .inr (hs.needed hq (hi.imp_right fun hi => ⟨hi, hd⟩))
    · exact .inl hd
  have hinst := hcon.installing (by rw [hst]; exact hbusy)
  rw [hst] at hinst
  exact absurd (hn.symm.trans hinst) (by decide)

/-- **The updater never runs two installs**, as long as every check that is answered on the selected channel
is the latest one of that channel and no installation is under way; and only then. -/
theorem installs_never_two
    (hr : Run (timely : System (Host Release) (HostCall Release)) calls h) :
    h.Consistent ∧ ∀ (call : HostCall Release) (h' : Host Release), hosts.step h call h' →
      (h'.Consistent ∧ h.TakesLatest call ↔ h.Timely call) := by
  have hs := sound_run hr
  refine ⟨hs.consistent, fun call h' hstep ↦ ?_⟩
  obtain ⟨hq, he, rfl⟩ := hstep
  constructor
  · rintro ⟨hcon, htakes⟩
    cases call with
    | finishCheck check newer found =>
      intro hc
      refine ⟨htakes ?_, ?_⟩
      · rw [Updater.finishCheck_of_selected hc]
      · by_contra hi
        exact hs.not_consistent hq hc (by simpa using hi) hcon
    | _ => trivial
  · intro ht
    refine ⟨(hs.perform hq he ht).consistent, ?_⟩
    cases call with
    | finishCheck check newer found =>
      intro htaken
      refine (ht ?_).1
      by_contra hc
      rw [Updater.finishCheck_of_other hc] at htaken
      cases htaken
    | _ => trivial

/-- The calls performed one after another. -/
def Host.after (h : Host Release) (calls : List (HostCall Release)) : Host Release :=
  calls.foldl (Host.perform · ·) h

end

/-! ## Two programs -/

def fresh : Host Unit := .new { checkUpdates := true, channel := .stable } false

/-- The check answers that there is a release. -/
def found (number : ℕ) (channel : UpdateChannel) : HostCall Unit :=
  .finishCheck { number, channel } (fun _ => true) (.ok (some ()))

def select (channel : UpdateChannel) : HostCall Unit := .setSettings { checkUpdates := true, channel }

/-- The release is downloaded, and the files are replaced. -/
def oneInstall : List (HostCall Unit) :=
  [.beginCheck, found 0 .stable, .beginInstall, .finishDownload () (.ok []), .resumeInstall (.ok ())]

theorem installs_never_two_oneInstall :
    (fresh.after oneInstall).Consistent ∧ (fresh.after oneInstall).updater.status = .installing () ∧
    (fresh.after (oneInstall.take 3)).downloads = [()] := by
  have hlatest : (fresh.perform .beginCheck).Latest { number := 0, channel := .stable } := by
    refine ⟨rfl, fun later hl ↦ ?_⟩
    rw [getElem?_eq_none (by exact hl)]
    simp
  have hperforms : Performs timely (Host.perform · ·) fresh oneInstall :=
    ⟨⟨trivial, rfl, trivial, rfl⟩, ⟨fun _ ↦ ⟨hlatest, rfl⟩, rfl, .head _, rfl⟩, ⟨trivial, rfl, trivial, rfl⟩,
      ⟨trivial, rfl, .head _, rfl⟩, ⟨trivial, rfl, trivial, rfl⟩, trivial⟩
  exact ⟨(installs_never_two ((Run.init (S := timely) ⟨_, _, rfl⟩).performs hperforms)).1, rfl, rfl⟩

/-- The channel is switched away and back, and the first check is answered before the last one: two
downloads run at once. -/
def twoInstalls : List (HostCall Unit) :=
  [.beginCheck, select .nightly, .beginCheck, select .stable, .beginCheck, found 0 .stable, .beginInstall,
    found 2 .stable, .beginInstall]

theorem late_check_installs_again :
    ¬ ∀ (calls : List (HostCall Unit)) (h : Host Unit), Run hosts calls h → h.Consistent := by
  intro h
  have hperforms : Performs hosts (Host.perform · ·) fresh twoInstalls :=
    ⟨⟨rfl, trivial, rfl⟩, ⟨rfl, trivial, rfl⟩, ⟨rfl, trivial, rfl⟩, ⟨rfl, trivial, rfl⟩, ⟨rfl, trivial, rfl⟩,
      ⟨rfl, .head _, rfl⟩, ⟨rfl, trivial, rfl⟩, ⟨rfl, .tail _ (.head _), rfl⟩, ⟨rfl, trivial, rfl⟩, trivial⟩
  have hcon := h _ _ ((Run.init (S := hosts) ⟨_, _, rfl⟩).performs hperforms)
  exact absurd hcon.single (by decide)

end NiumaTerm.Update
