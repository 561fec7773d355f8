import NiumaTerm.Lib.Snapshots
import NiumaTerm.Lib.Str
import NiumaTerm.Lib.Transition

/-!
# The host of paired devices

`State` is what the host keeps under its lock, and each function on it is one lock section.  `Host` adds
the tasks around it, which take turns in any order; a clock reading is an argument.
-/

namespace NiumaTerm.Remote

open Rust Transition

/-! ## Devices and codes -/

/-- 32 bytes. -/
abbrev PublicKey := BitVec 256

abbrev DeviceId := Str

inductive DeviceKind
  | desktop
  | mobile
  | unknown
deriving DecidableEq

structure DeviceInfo where
  name : Str
  kind : DeviceKind
  platform : Str

inductive PushEnvironment
  | sandbox
  | production
deriving DecidableEq

inductive PushKind
  | turnFinished
  | turnFailed
  | approval
  | question
  | unknown
deriving DecidableEq

structure PushRegistration where
  endpoint : Str
  token : Str
  environment : PushEnvironment
  key : Str
  kinds : List PushKind
deriving DecidableEq

structure PairedDevice where
  schema : ℕ
  id : DeviceId
  name : Str
  kind : DeviceKind
  platform : Str
  publicKey : PublicKey
  role : Str
  pairedAt : ℕ
  lastSeen : ℕ
  lastHelloMs : ℕ
  push : Option PushRegistration
deriving DecidableEq

/-- The `SCHEMA` of a paired device. -/
def schema : ℕ := 1

/-- The id is the start of a hash of the key. -/
def PairedDevice.new (fromPublicKey : PublicKey → DeviceId) (publicKey : PublicKey) (client : DeviceInfo)
    (now : ℕ) : PairedDevice where
  schema := Remote.schema
  id := fromPublicKey publicKey
  name := client.name
  kind := client.kind
  platform := client.platform
  publicKey := publicKey
  role := "operator".toList
  pairedAt := now
  lastSeen := now
  lastHelloMs := 0
  push := none

/-- The eight symbols without a separator. -/
abbrev PairingCode := Str

def codeLifetimeMs : ℕ := 5 * 60 * 1000

def maxFailedAttempts : ℕ := 3

structure IssuedCode where
  code : PairingCode
  expiresAtMs : ℕ
  failedAttempts : ℕ

namespace IssuedCode

def new (code : PairingCode) (nowMs : ℕ) : IssuedCode where
  code := code
  expiresAtMs := nowMs + codeLifetimeMs
  failedAttempts := 0

def isUsable (issued : IssuedCode) (nowMs : ℕ) : Bool :=
  issued.failedAttempts < maxFailedAttempts && nowMs < issued.expiresAtMs

/-- Whether the code is still usable. -/
def recordFailure (issued : IssuedCode) (nowMs : ℕ) : Bool × IssuedCode :=
  let issued := { issued with failedAttempts := issued.failedAttempts + 1 }
  (issued.isUsable nowMs, issued)

end IssuedCode

/-- A client that proved the code. -/
structure PairingRequest where
  clientKey : PublicKey
  client : DeviceInfo

/-! ## The lock sections -/

structure State where
  devices : List PairedDevice
  code : Option IssuedCode
  /-- The open channels by client key, with the task of each. -/
  connections : List (PublicKey × ℕ)

inductive Refusal
  | replayed (id : DeviceId)
  | unpaired

/-- The first of the elements is replaced. -/
def updateFirst {α : Type} (p : α → Bool) (f : α → α) : List α → List α
  | [] => []
  | a :: rest => if p a then f a :: rest else a :: updateFirst p f rest

def deviceOf (key : PublicKey) (devices : List PairedDevice) : Option PairedDevice :=
  devices.find? fun device => device.publicKey = key

namespace State

variable (s : State)

def startPairing (code : PairingCode) (now : ℕ) : State := { s with code := some (.new code now) }

def expired (now : ℕ) : Bool := s.code.any fun issued => !issued.isUsable now

/-- The section that replaces the code, and whether it did. -/
def renewExpiredPairing (code : PairingCode) (now : ℕ) : Bool × State :=
  if s.expired now then (true, { s with code := some (.new code now) }) else (false, s)

def cancelPairing : State := { s with code := none }

/-- The code that a pairing attempt begins with. -/
def showing (now : ℕ) : Option PairingCode :=
  match s.code with
  | some issued => if issued.isUsable now then some issued.code else none
  | none => none

/-- What a wrong guess does, and whether it was counted. -/
def wrongCode (code : PairingCode) (now : ℕ) : Bool × State :=
  match s.code with
  | some issued =>
    if issued.code = code then
      let (usable, issued) := issued.recordFailure now
      (true, if usable then { s with code := some issued } else { s with code := none })
    else (false, s)
  | none => (false, s)

/-- The section that adds the device; `none` if the code is no longer valid. -/
def acceptPairing (fromPublicKey : PublicKey → DeviceId) (code : PairingCode) (request : PairingRequest)
    (now pairedAt : ℕ) : Option State :=
  match s.code with
  | some issued =>
    if issued.code = code && issued.isUsable now then
      some { s with
        code := none
        devices := (s.devices.filter fun device => device.publicKey ≠ request.clientKey) ++
          [.new fromPublicKey request.clientKey request.client pairedAt] }
    else none
  | none => none

def acceptHello (key : PublicKey) (helloMs now : ℕ) : Except Refusal State :=
  match deviceOf key s.devices with
  | some device =>
    if helloMs ≤ device.lastHelloMs then .error (.replayed device.id)
    else
      .ok { s with
        devices := updateFirst (fun device => device.publicKey = key)
          (fun device => { device with lastHelloMs := helloMs, lastSeen := now }) s.devices }
  | none => .error .unpaired

def register (key : PublicKey) (task : ℕ) : State := { s with connections := s.connections ++ [(key, task)] }

def unregister (task : ℕ) : State :=
  { s with connections := s.connections.filter fun connection => connection.2 ≠ task }

def setPush (key : PublicKey) (push : Option PushRegistration) : Option State :=
  (deviceOf key s.devices).map fun _ =>
    { s with
      devices := updateFirst (fun device => device.publicKey = key) (fun device => { device with push }) s.devices }

/-- The key, and the tasks that are aborted. -/
def removeDevice (id : DeviceId) : Option (PublicKey × List ℕ × State) :=
  (s.devices.find? fun device => device.id = id).map fun device =>
    let key := device.publicKey
    (key, (s.connections.filter fun connection => connection.1 = key).map Prod.snd,
      { s with
        devices := s.devices.filter fun device => device.publicKey ≠ key
        connections := s.connections.filter fun connection => connection.1 ≠ key })

end State

/-! ## What a section does -/

namespace State

variable {s s' : State}

theorem showing_eq_some {code : PairingCode} {now : ℕ} (h : s.showing now = some code) :
    ∃ issued, s.code = some issued ∧ issued.code = code ∧ issued.isUsable now = true := by
  unfold showing at h
  split at h
  · rename_i issued hs
    split at h
    · rename_i hu
      exact ⟨issued, hs, Option.some_inj.mp h, hu⟩
    · cases h
  · cases h

/-- A wrong guess counts against the code that is showing, if it is the attempt's. -/
theorem wrongCode_cases (s : State) (code : PairingCode) (now : ℕ) :
    s.wrongCode code now = (false, s) ∨ ∃ issued, s.code = some issued ∧ issued.code = code ∧
      (s.wrongCode code now).1 = true ∧
      ((s.wrongCode code now).2.code = some (issued.recordFailure now).2 ∨ (s.wrongCode code now).2.code = none) := by
  unfold wrongCode
  split
  · rename_i issued hs
    split
    · rename_i hc
      refine .inr ⟨issued, hs, hc, rfl, ?_⟩
      dsimp only
      split
      · exact .inl rfl
      · exact .inr rfl
    · exact .inl rfl
  · exact .inl rfl

theorem wrongCode_devices (s : State) (code : PairingCode) (now : ℕ) :
    (s.wrongCode code now).2.devices = s.devices ∧ (s.wrongCode code now).2.connections = s.connections := by
  unfold wrongCode
  split
  · split
    · dsimp only
      split <;> exact ⟨rfl, rfl⟩
    · exact ⟨rfl, rfl⟩
  · exact ⟨rfl, rfl⟩

theorem acceptPairing_eq_some {fromPublicKey : PublicKey → DeviceId} {code : PairingCode}
    {request : PairingRequest} {now pairedAt : ℕ}
    (h : s.acceptPairing fromPublicKey code request now pairedAt = some s') :
    (∃ issued, s.code = some issued ∧ issued.code = code ∧ issued.isUsable now = true) ∧ s'.code = none ∧
      s'.connections = s.connections ∧
      s'.devices = (s.devices.filter fun device => device.publicKey ≠ request.clientKey) ++
        [.new fromPublicKey request.clientKey request.client pairedAt] := by
  unfold acceptPairing at h
  split at h
  · rename_i issued hs
    split at h
    · rename_i hc
      rw [Bool.and_eq_true, decide_eq_true_eq] at hc
      cases h
      exact ⟨⟨issued, hs, hc⟩, rfl, rfl, rfl⟩
    · cases h
  · cases h

theorem acceptHello_eq_ok {key : PublicKey} {helloMs now : ℕ}
    (h : s.acceptHello key helloMs now = .ok s') :
    (∃ device, deviceOf key s.devices = some device ∧ device.lastHelloMs < helloMs) ∧ s'.code = s.code ∧
      s'.connections = s.connections ∧
      s'.devices = updateFirst (fun device => device.publicKey = key)
        (fun device => { device with lastHelloMs := helloMs, lastSeen := now }) s.devices := by
  unfold acceptHello at h
  split at h
  · rename_i device hd
    split at h
    · cases h
    · rename_i hle
      cases h
      exact ⟨⟨device, hd, Nat.lt_of_not_le hle⟩, rfl, rfl, rfl⟩
  · cases h

theorem setPush_eq_some {key : PublicKey} {push : Option PushRegistration} (h : s.setPush key push = some s') :
    (deviceOf key s.devices).isSome = true ∧ s'.code = s.code ∧ s'.connections = s.connections ∧
      s'.devices = updateFirst (fun device => device.publicKey = key) (fun device => { device with push }) s.devices := by
  obtain ⟨device, hd, rfl⟩ := Option.map_eq_some_iff.mp h
  exact ⟨by rw [hd]; rfl, rfl, rfl, rfl⟩

theorem removeDevice_eq_some {id : DeviceId} {key : PublicKey} {aborted : List ℕ}
    (h : s.removeDevice id = some (key, aborted, s')) :
    (∃ device ∈ s.devices, device.id = id ∧ device.publicKey = key) ∧
      (∀ task, task ∈ aborted ↔ (key, task) ∈ s.connections) ∧ s'.code = s.code ∧
      s'.connections = (s.connections.filter fun connection => connection.1 ≠ key) ∧
      s'.devices = s.devices.filter fun device => device.publicKey ≠ key := by
  obtain ⟨device, hd, he⟩ := Option.map_eq_some_iff.mp h
  cases he
  refine ⟨⟨device, List.mem_of_find?_eq_some hd, by simpa using List.find?_some hd, rfl⟩, fun task => ?_, rfl, rfl, rfl⟩
  simp

end State

/-! ## The process -/

structure Attempt where
  number : ℕ
  code : PairingCode
deriving DecidableEq

/-- The task that moves messages between the network and the channel. -/
inductive Pump
  | running
  /-- Told to stop, and between two messages perhaps still at work. -/
  | aborted
  | ended
deriving DecidableEq

inductive Phase
  /-- The hello is accepted; `save` is the snapshot that the channel saves first. -/
  | accepted (save : ℕ)
  | serving (pump : Pump) (inbox : ℕ)
deriving DecidableEq

structure Channel where
  task : ℕ
  key : PublicKey
  phase : Phase
deriving DecidableEq

namespace Channel

def abort (channel : Channel) : Channel :=
  match channel.phase with
  | .serving .running inbox => { channel with phase := .serving .aborted inbox }
  | _ => channel

/-- The channel has steps left that do not wait for the network. -/
def isPending (channel : Channel) : Bool :=
  match channel.phase with
  | .serving .running _ => false
  | _ => true

end Channel

inductive Event
  | issued (number : ℕ) (code : IssuedCode)
  | cancelled (number : ℕ)
  /-- The attempt has read the code. -/
  | began (number attempt : ℕ)
  | guessedWrong (number attempt : ℕ)
  | admitted (number attempt now : ℕ) (key : PublicKey)
  | hello (key : PublicKey) (helloMs : ℕ)
  | removed (key : PublicKey)

structure Host where
  state : State
  devicesFile : Snapshots (List PairedDevice)
  /-- Calls that have seen an expired code and will renew it. -/
  renewals : ℕ
  attempts : List Attempt
  channels : List Channel
  /-- How many codes, attempts and channels there have been. -/
  issues : ℕ
  begun : ℕ
  tasks : ℕ
  log : List Event

inductive Call
  | startPairing (code : PairingCode) (now : ℕ)
  | seeExpired (now : ℕ)
  | renewExpiredPairing (code : PairingCode) (now : ℕ)
  | cancelPairing
  | beginAttempt (now : ℕ)
  | guessWrong (attempt : Attempt) (now : ℕ)
  | acceptPairing (attempt : Attempt) (request : PairingRequest) (now pairedAt : ℕ)
  | dropAttempt (attempt : Attempt)
  | hello (key : PublicKey) (helloMs now : ℕ)
  | dropChannel (channel : Channel)
  | register (channel : Channel)
  | deliver (channel : Channel)
  | handle (channel : Channel)
  | stopPump (channel : Channel)
  | close (channel : Channel)
  | setPush (key : PublicKey) (push : Option PushRegistration)
  | removeDevice (id : DeviceId)
  | finishSave (snapshot : Snapshot (List PairedDevice)) (saved : Bool)

namespace Host

/-- The host starts with the devices of the file. -/
def new (devices : List PairedDevice) : Host where
  state := { devices, code := none, connections := [] }
  devicesFile := .new devices
  renewals := 0
  attempts := []
  channels := []
  issues := 0
  begun := 0
  tasks := 0
  log := []

variable (h : Host)

def issue (state : State) (code : IssuedCode) : Host :=
  { h with state, issues := h.issues + 1, log := h.log ++ [.issued (h.issues + 1) code] }

/-- The section has changed the devices, and a snapshot is saved next. -/
def changeDevices (state : State) (events : List Event) : Host :=
  { h with state, devicesFile := h.devicesFile.take state.devices, log := h.log ++ events }

def setChannel (channel : Channel) (phase : Phase) : Host :=
  { h with channels := h.channels.map fun c => if c = channel then { c with phase } else c }

def perform (fromPublicKey : PublicKey → DeviceId) : Call → Host
  | .startPairing code now => h.issue (h.state.startPairing code now) (.new code now)
  | .seeExpired now => if h.state.expired now then { h with renewals := h.renewals + 1 } else h
  | .renewExpiredPairing code now =>
    let h := { h with renewals := h.renewals - 1 }
    match h.state.renewExpiredPairing code now with
    | (true, state) => h.issue state (.new code now)
    | (false, _) => h
  | .cancelPairing => { h with state := h.state.cancelPairing, log := h.log ++ [.cancelled h.issues] }
  | .beginAttempt now =>
    match h.state.showing now with
    | some code =>
      { h with
        attempts := h.attempts ++ [{ number := h.begun, code }]
        begun := h.begun + 1
        log := h.log ++ [.began h.issues h.begun] }
    | none => h
  | .guessWrong attempt now =>
    let h := { h with attempts := h.attempts.erase attempt }
    match h.state.wrongCode attempt.code now with
    | (true, state) => { h with state, log := h.log ++ [.guessedWrong h.issues attempt.number] }
    | (false, _) => h
  | .acceptPairing attempt request now pairedAt =>
    let h := { h with attempts := h.attempts.erase attempt }
    match h.state.acceptPairing fromPublicKey attempt.code request now pairedAt with
    | some state => h.changeDevices state [.admitted h.issues attempt.number now request.clientKey]
    | none => h
  | .dropAttempt attempt => { h with attempts := h.attempts.erase attempt }
  | .hello key helloMs now =>
    match h.state.acceptHello key helloMs now with
    | .ok state =>
      let h := h.changeDevices state [.hello key helloMs]
      { h with
        channels := h.channels ++ [{ task := h.tasks, key, phase := .accepted h.devicesFile.taken }]
        tasks := h.tasks + 1 }
    | .error _ => h
  | .dropChannel channel => { h with channels := h.channels.erase channel }
  | .register channel =>
    { h.setChannel channel (.serving .running 0) with state := h.state.register channel.key channel.task }
  | .deliver channel =>
    match channel.phase with
    | .serving pump inbox => h.setChannel channel (.serving pump (inbox + 1))
    | .accepted _ => h
  | .handle channel =>
    match channel.phase with
    | .serving pump inbox => h.setChannel channel (.serving pump (inbox - 1))
    | .accepted _ => h
  | .stopPump channel =>
    match channel.phase with
    | .serving _ inbox => h.setChannel channel (.serving .ended inbox)
    | .accepted _ => h
  | .close channel =>
    { h with channels := h.channels.erase channel, state := h.state.unregister channel.task }
  | .setPush key push =>
    match h.state.setPush key push with
    | some state => h.changeDevices state []
    | none => h
  | .removeDevice id =>
    match h.state.removeDevice id with
    | some (key, aborted, state) =>
      { h.changeDevices state [.removed key] with
        channels := h.channels.map fun c => if c.task ∈ aborted then c.abort else c }
    | none => h
  | .finishSave snapshot saved => { h with devicesFile := h.devicesFile.finish snapshot saved }

/-- Whether the task is at the section. -/
def Enabled : Call → Prop
  | .renewExpiredPairing _ _ => 0 < h.renewals
  | .guessWrong attempt _ | .acceptPairing attempt _ _ _ | .dropAttempt attempt => attempt ∈ h.attempts
  | .dropChannel channel | .register channel =>
    channel ∈ h.channels ∧ ∃ save, channel.phase = .accepted save ∧
      ∀ snapshot ∈ h.devicesFile.pending, snapshot.number ≠ save
  | .deliver channel =>
    channel ∈ h.channels ∧ ∃ pump inbox, channel.phase = .serving pump inbox ∧ pump ≠ .ended
  | .handle channel => channel ∈ h.channels ∧ ∃ pump inbox, channel.phase = .serving pump (inbox + 1)
  | .stopPump channel => channel ∈ h.channels ∧ ∃ pump inbox, channel.phase = .serving pump inbox
  | .close channel => channel ∈ h.channels ∧ channel.phase = .serving .ended 0
  | .finishSave snapshot _ => snapshot ∈ h.devicesFile.pending
  | _ => True

end Host

def hosts (fromPublicKey : PublicKey → DeviceId) : System Host Call where
  init h := ∃ devices, h = .new devices
  step h call h' := h.Enabled call ∧ h' = h.perform fromPublicKey call

/-! ## Two devices -/

/-- The ids of two keys, the numbers 1 and 2. -/
def someIds (key : PublicKey) : DeviceId :=
  if key = 1 then "xh4hdq98zh611nwe".toList
  else if key = 2 then "j9kx7pzdg0mm2j1z".toList
  else []

/-- The calls are made one after another. -/
def Host.after (h : Host) (calls : List Call) : Host := calls.foldl (Host.perform · someIds ·) h

end NiumaTerm.Remote
