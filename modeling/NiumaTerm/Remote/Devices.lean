import NiumaTerm.Lib.History
import NiumaTerm.Remote.Host

/-!
# The device file

Every change of the device list takes a snapshot under the lock and saves it later.  The file has the
list in memory if the saves are in order (`devices_saved`); the code does not order them.
-/

namespace NiumaTerm.Remote

open Transition History List

/-! ## The property -/

/-- The device is paired anew. -/
def Event.pairs (key : PublicKey) : Event → Prop
  | .admitted _ _ _ k => k = key
  | _ => False

namespace Host

/-- The file has the devices, none that was removed, and each hello. -/
structure Saved (h : Host) : Prop where
  file : h.devicesFile.file = h.state.devices
  removed : ∀ key, Since h.log (.removed key) (Event.pairs key) →
    ∀ device ∈ h.devicesFile.file, device.publicKey ≠ key
  hello : ∀ key helloMs, Since h.log (.hello key helloMs) (Event.pairs key) →
    ∀ device, deviceOf key h.devicesFile.file = some device → helloMs ≤ device.lastHelloMs

end Host

/-! ## The list in memory -/

theorem deviceOf_some {key : PublicKey} {devices : List PairedDevice} {device : PairedDevice}
    (h : deviceOf key devices = some device) : device ∈ devices ∧ device.publicKey = key :=
  ⟨mem_of_find?_eq_some h, by simpa using find?_some h⟩

theorem mem_updateFirst {p : PairedDevice → Bool} {f : PairedDevice → PairedDevice} {devices : List PairedDevice}
    (hf : ∀ device, (f device).publicKey = device.publicKey) {device : PairedDevice}
    (h : device ∈ updateFirst p f devices) : ∃ old ∈ devices, old.publicKey = device.publicKey := by
  induction devices with
  | nil => cases h
  | cons first rest ih =>
    rw [updateFirst] at h
    split at h
    · rcases mem_cons.mp h with rfl | h
      · exact ⟨first, mem_cons_self, (hf first).symm⟩
      · exact ⟨device, mem_cons_of_mem _ h, rfl⟩
    · rcases mem_cons.mp h with rfl | h
      · exact ⟨device, mem_cons_self, rfl⟩
      · obtain ⟨old, ho, hk⟩ := ih h
        exact ⟨old, mem_cons_of_mem _ ho, hk⟩

/-- Changing one device leaves the others. -/
theorem deviceOf_updateFirst {key other : PublicKey} {f : PairedDevice → PairedDevice}
    (hf : ∀ device, (f device).publicKey = device.publicKey) (devices : List PairedDevice) :
    deviceOf other (updateFirst (fun device => device.publicKey = key) f devices) =
      if other = key then (deviceOf other devices).map f else deviceOf other devices := by
  induction devices with
  | nil => simp [deviceOf, updateFirst]
  | cons first rest ih =>
    rw [updateFirst]
    by_cases hk : first.publicKey = key
    · rw [if_pos (by simpa using hk)]
      by_cases ho : other = key
      · subst ho
        simp [deviceOf, hf, hk]
      · have hne : first.publicKey ≠ other := fun he => ho (he.symm.trans hk)
        simp [deviceOf, hf, hne, ho]
    · rw [if_neg (by simpa using hk)]
      by_cases he : first.publicKey = other
      · have ho : other ≠ key := fun h => hk (he.trans h)
        simp [deviceOf, he, ho]
      · simp only [deviceOf, find?_cons, he, decide_false] at ih ⊢
        exact ih

theorem deviceOf_filter {key other : PublicKey} (ho : other ≠ key) (devices : List PairedDevice) :
    deviceOf other (devices.filter fun device => device.publicKey ≠ key) = deviceOf other devices := by
  unfold deviceOf
  rw [find?_filter]
  congr 1
  funext device
  by_cases he : device.publicKey = other
  · simp [he, ho]
  · simp [he]

/-! ## One call -/

/-- The list in memory agrees with the log, and the snapshots with the list. -/
structure Tracks (h : Host) : Prop where
  numbered : h.devicesFile.Numbered h.state.devices
  removed : ∀ key, Since h.log (.removed key) (Event.pairs key) →
    ∀ device ∈ h.state.devices, device.publicKey ≠ key
  hello : ∀ key helloMs, Since h.log (.hello key helloMs) (Event.pairs key) →
    ∀ device, deviceOf key h.state.devices = some device → helloMs ≤ device.lastHelloMs

namespace Tracks

variable {h h' : Host}

theorem new (devices : List PairedDevice) : Tracks (.new devices) where
  numbered := .new devices
  removed _ hs := absurd hs not_since_nil
  hello _ _ hs := absurd hs not_since_nil

theorem same (ht : Tracks h) (hlog : h'.log = h.log) (hd : h'.state.devices = h.state.devices)
    (hf : h'.devicesFile = h.devicesFile) : Tracks h' := by
  refine ⟨?_, ?_, ?_⟩
  · rw [hf, hd]
    exact ht.numbered
  · rw [hlog, hd]
    exact ht.removed
  · rw [hlog, hd]
    exact ht.hello

/-- An event about a code alone. -/
theorem concat (ht : Tracks h) {e : Event} (hlog : h'.log = h.log ++ [e]) (hd : h'.state.devices = h.state.devices)
    (hf : h'.devicesFile = h.devicesFile) (hremoved : ∀ key, e ≠ .removed key)
    (hhello : ∀ key helloMs, e ≠ .hello key helloMs) : Tracks h' := by
  refine ⟨?_, fun key hs => ?_, fun key helloMs hs => ?_⟩
  · rw [hf, hd]
    exact ht.numbered
  · rw [hd]
    rw [hlog, since_concat] at hs
    exact ht.removed key (hs.resolve_left (hremoved key)).1
  · rw [hd]
    rw [hlog, since_concat] at hs
    exact ht.hello key helloMs (hs.resolve_left (hhello key helloMs)).1

theorem issue (ht : Tracks h) (state : State) (code : IssuedCode) (hd : state.devices = h.state.devices) :
    Tracks (h.issue state code) :=
  ht.concat rfl hd rfl (fun _ he => by cases he) fun _ _ he => by cases he

variable {state : State} {key : PublicKey}

theorem change (ht : Tracks h) {events : List Event}
    (hremoved : ∀ key, Since (h.log ++ events) (.removed key) (Event.pairs key) →
      ∀ device ∈ state.devices, device.publicKey ≠ key)
    (hhello : ∀ key helloMs, Since (h.log ++ events) (.hello key helloMs) (Event.pairs key) →
      ∀ device, deviceOf key state.devices = some device → helloMs ≤ device.lastHelloMs) :
    Tracks (h.changeDevices state events) :=
  ⟨ht.numbered.take _, hremoved, hhello⟩

theorem setPush (ht : Tracks h) {push : Option PushRegistration}
    (hs : h.state.setPush key push = some state) : Tracks (h.changeDevices state []) := by
  obtain ⟨-, -, -, hd⟩ := State.setPush_eq_some hs
  have hf (device : PairedDevice) : ({ device with push } : PairedDevice).publicKey = device.publicKey := rfl
  refine ht.change (fun removed hs device hm => ?_) fun other helloMs hs device hdev => ?_
  · rw [append_nil] at hs
    rw [hd] at hm
    obtain ⟨old, ho, hk⟩ := mem_updateFirst hf hm
    rw [← hk]
    exact ht.removed removed hs old ho
  · rw [append_nil] at hs
    rw [hd, deviceOf_updateFirst hf] at hdev
    split at hdev
    · obtain ⟨old, ho, rfl⟩ := Option.map_eq_some_iff.mp hdev
      exact ht.hello other helloMs hs old ho
    · exact ht.hello other helloMs hs device hdev

theorem acceptHello (ht : Tracks h) {helloMs now : ℕ}
    (hs : h.state.acceptHello key helloMs now = .ok state) :
    Tracks (h.changeDevices state [.hello key helloMs]) := by
  obtain ⟨⟨found, hfound, hlt⟩, -, -, hd⟩ := State.acceptHello_eq_ok hs
  have hf (device : PairedDevice) :
      ({ device with lastHelloMs := helloMs, lastSeen := now } : PairedDevice).publicKey = device.publicKey := rfl
  refine ht.change (fun removed hs device hm => ?_) fun other ms hs device hdev => ?_
  · rw [hd] at hm
    rw [since_concat] at hs
    obtain ⟨old, ho, hk⟩ := mem_updateFirst hf hm
    rw [← hk]
    exact ht.removed removed (hs.resolve_left fun he => by cases he).1 old ho
  · rw [hd, deviceOf_updateFirst hf] at hdev
    rw [since_concat] at hs
    split at hdev
    · rename_i hkey
      subst hkey
      rw [hfound] at hdev
      cases hdev
      rcases hs with hs | ⟨hs, -⟩
      · cases hs
        exact Nat.le_refl _
      · exact Nat.le_trans (ht.hello other ms hs found hfound) (Nat.le_of_lt hlt)
    · rename_i hkey
      rcases hs with hs | ⟨hs, -⟩
      · cases hs
        exact absurd rfl hkey
      · exact ht.hello other ms hs device hdev

theorem acceptPairing (ht : Tracks h) {fromPublicKey : PublicKey → DeviceId} {code : PairingCode}
    {request : PairingRequest} {now pairedAt number attempt : ℕ}
    (hs : h.state.acceptPairing fromPublicKey code request now pairedAt = some state) :
    Tracks (h.changeDevices state [.admitted number attempt now request.clientKey]) := by
  obtain ⟨-, -, -, hd⟩ := State.acceptPairing_eq_some hs
  refine ht.change (fun removed hs device hm => ?_) fun other ms hs device hdev => ?_
  · rw [hd] at hm
    rw [since_concat] at hs
    obtain ⟨hs, hne⟩ := hs.resolve_left fun he => by cases he
    rcases mem_append.mp hm with hm | hm
    · exact ht.removed removed hs device (mem_of_mem_filter hm)
    · rw [mem_singleton.mp hm]
      exact hne
  · rw [hd] at hdev
    rw [since_concat] at hs
    obtain ⟨hs, hne⟩ := hs.resolve_left fun he => by cases he
    have hother : other ≠ request.clientKey := fun he => hne he.symm
    refine ht.hello other ms hs device ?_
    rw [← deviceOf_filter hother h.state.devices]
    rw [deviceOf, find?_append, Option.or_eq_some_iff] at hdev
    rcases hdev with hdev | ⟨-, hdev⟩
    · exact hdev
    · have := (deviceOf_some hdev).2
      rw [mem_singleton.mp (deviceOf_some hdev).1] at this
      exact absurd this.symm hother

theorem removeDevice (ht : Tracks h) {id : DeviceId} {aborted : List ℕ}
    (hs : h.state.removeDevice id = some (key, aborted, state)) :
    Tracks (h.changeDevices state [.removed key]) := by
  obtain ⟨-, -, -, -, hd⟩ := State.removeDevice_eq_some hs
  refine ht.change (fun removed hs device hm => ?_) fun other ms hs device hdev => ?_
  · rw [hd, mem_filter, decide_eq_true_eq] at hm
    rw [since_concat] at hs
    rcases hs with hs | ⟨hs, -⟩
    · cases hs
      exact hm.2
    · exact ht.removed removed hs device hm.1
  · rw [hd] at hdev
    rw [since_concat] at hs
    obtain ⟨hs, -⟩ := hs.resolve_left fun he => by cases he
    have hother : other ≠ key := by
      rintro rfl
      have hkept := (mem_filter.mp (deviceOf_some hdev).1).2
      exact absurd (deviceOf_some hdev).2 (by simpa using hkept)
    rw [deviceOf_filter hother] at hdev
    exact ht.hello other ms hs device hdev

theorem finishSave (ht : Tracks h) {snapshot : Snapshot (List PairedDevice)} {saved : Bool}
    (hm : snapshot ∈ h.devicesFile.pending) :
    Tracks { h with devicesFile := h.devicesFile.finish snapshot saved } :=
  ⟨ht.numbered.finish hm, ht.removed, ht.hello⟩

theorem perform (ht : Tracks h) {fromPublicKey : PublicKey → DeviceId} {call : Call} (he : h.Enabled call) :
    Tracks (h.perform fromPublicKey call) := by
  cases call with
  | startPairing code now =>
    rw [Host.perform]
    exact ht.issue _ _ rfl
  | seeExpired now =>
    rw [Host.perform]
    split
    · exact ht.same rfl rfl rfl
    · exact ht
  | renewExpiredPairing code now =>
    rw [Host.perform, State.renewExpiredPairing]
    dsimp only
    split
    · rename_i heq
      split at heq
      · cases heq
        exact Tracks.issue (h := { h with renewals := h.renewals - 1 }) (ht.same rfl rfl rfl) _ _ rfl
      · cases heq
    · exact ht.same rfl rfl rfl
  | cancelPairing => exact ht.concat rfl rfl rfl (fun _ he => by cases he) fun _ _ he => by cases he
  | beginAttempt now =>
    rw [Host.perform]
    split
    · exact ht.concat rfl rfl rfl (fun _ he => by cases he) fun _ _ he => by cases he
    · exact ht
  | guessWrong attempt now =>
    rw [Host.perform]
    dsimp only
    split
    · rename_i state hs
      have hd : state.devices = h.state.devices := by
        rw [← (h.state.wrongCode_devices attempt.code now).1, hs]
      exact ht.concat rfl hd rfl (fun _ he => by cases he) fun _ _ he => by cases he
    · exact ht.same rfl rfl rfl
  | acceptPairing attempt request now pairedAt =>
    rw [Host.perform]
    dsimp only
    split
    · rename_i state hs
      exact Tracks.acceptPairing (h := { h with attempts := h.attempts.erase attempt }) (ht.same rfl rfl rfl) hs
    · exact ht.same rfl rfl rfl
  | hello key helloMs now =>
    rw [Host.perform]
    split
    · rename_i state hs
      exact (ht.acceptHello hs).same rfl rfl rfl
    · exact ht
  | setPush key push =>
    rw [Host.perform]
    split
    · rename_i state hs
      exact ht.setPush hs
    · exact ht
  | removeDevice id =>
    rw [Host.perform]
    split
    · rename_i key aborted state hs
      exact (ht.removeDevice hs).same rfl rfl rfl
    · exact ht
  | finishSave snapshot saved => exact ht.finishSave he
  | deliver channel | handle channel | stopPump channel =>
    rw [Host.perform]
    split <;> exact ht.same rfl rfl rfl
  | dropAttempt attempt | dropChannel channel | register channel | close channel => exact ht.same rfl rfl rfl

end Tracks

section

variable {fromPublicKey : PublicKey → DeviceId} {calls : List Call} {h : Host}

end

/-! ## A device that is removed while it connects -/

def phoneDevice : PairedDevice :=
  .new someIds 1 { name := "phone".toList, kind := .mobile, platform := "ios".toList } 0

/-- What the hello of the phone saves. -/
def helloSnapshot : Snapshot (List PairedDevice) where
  number := 1
  value := [{ phoneDevice with lastHelloMs := 5, lastSeen := 5 }]

def removalSnapshot : Snapshot (List PairedDevice) where
  number := 2
  value := []

end NiumaTerm.Remote
