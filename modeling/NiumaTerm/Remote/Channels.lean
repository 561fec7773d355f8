import NiumaTerm.Remote.Devices

/-!
# Channels of a removed device

Removing a device stops the channels that are registered.  A channel whose hello was accepted before and
that registers afterwards stays (`removed_device_stays`), and there is no other way.
-/

namespace NiumaTerm.Remote

open Transition History List

/-! ## The property -/

namespace Host

/-- The channels of the key have done what they do without the network. -/
def Settled (h : Host) (key : PublicKey) : Prop :=
  ∀ channel ∈ h.channels, channel.key = key → channel.isPending = false

/-- No channel of the key is registered or answers. -/
structure CutOff (h : Host) (key : PublicKey) : Prop where
  connections : ∀ task, (key, task) ∉ h.state.connections
  channels : ∀ channel ∈ h.channels, channel.key ≠ key

/-- A channel that is not about to end is of a paired device. -/
def OnlyPaired (h : Host) : Prop :=
  ∀ channel ∈ h.channels, channel.isPending = false → (deviceOf channel.key h.state.devices).isSome = true

/-- A channel registers while its device is in the list. -/
def RegistersPaired (h : Host) : Call → Prop
  | .register channel => (deviceOf channel.key h.state.devices).isSome = true
  | _ => True

end Host

/-! ## Channels -/

namespace Channel

variable {channel : Channel}

theorem isPending_eq_false : channel.isPending = false ↔ ∃ inbox, channel.phase = .serving .running inbox := by
  unfold isPending
  split
  · rename_i inbox hp
    exact iff_of_true rfl ⟨inbox, hp⟩
  · rename_i hp
    refine iff_of_false (by decide) ?_
    rintro ⟨inbox, h⟩
    exact hp inbox h

@[simp] theorem abort_task : channel.abort.task = channel.task := by
  unfold abort
  split <;> rfl

@[simp] theorem abort_key : channel.abort.key = channel.key := by
  unfold abort
  split <;> rfl

theorem isPending_abort : channel.abort.isPending = true := by
  unfold abort
  split
  · rfl
  · rename_i hp
    by_contra h
    obtain ⟨inbox, hi⟩ := isPending_eq_false.mp (by simpa using h)
    exact hp inbox hi

/-- The channel has registered. -/
def IsServing (channel : Channel) : Prop := ∃ pump inbox, channel.phase = .serving pump inbox

theorem IsServing.abort (h : channel.IsServing) : channel.abort.IsServing := by
  unfold Channel.abort
  split
  · exact ⟨_, _, rfl⟩
  · exact h

end Channel

structure Attended (h : Host) : Prop where
  tasks : (h.channels.map Channel.task).Nodup
  tasks_lt : ∀ channel ∈ h.channels, channel.task < h.tasks
  running : ∀ channel ∈ h.channels, channel.isPending = false → (channel.key, channel.task) ∈ h.state.connections
  paired : h.OnlyPaired
  registered : ∀ key task, (key, task) ∈ h.state.connections →
    ∃ channel ∈ h.channels, channel.key = key ∧ channel.task = task ∧ channel.IsServing

theorem Attended.new (devices : List PairedDevice) : Attended (.new devices) where
  tasks := nodup_nil
  tasks_lt _ hm := by cases hm
  running _ hm := by cases hm
  paired _ hm := by cases hm
  registered _ _ hm := by cases hm

def Keeps (devices devices' : List PairedDevice) : Prop :=
  ∀ key, (deviceOf key devices).isSome = true → (deviceOf key devices').isSome = true

theorem Keeps.refl (devices : List PairedDevice) : Keeps devices devices := fun _ h => h

theorem keeps_updateFirst (key : PublicKey) {f : PairedDevice → PairedDevice}
    (hf : ∀ device, (f device).publicKey = device.publicKey) (devices : List PairedDevice) :
    Keeps devices (updateFirst (fun device => device.publicKey = key) f devices) := by
  intro other ho
  rw [deviceOf_updateFirst hf]
  split
  · rw [Option.isSome_map]
    exact ho
  · exact ho

theorem keeps_pairing (devices : List PairedDevice) (device : PairedDevice) :
    Keeps devices ((devices.filter fun d => d.publicKey ≠ device.publicKey) ++ [device]) := by
  intro key hk
  rw [deviceOf, find?_append, Option.isSome_or]
  by_cases he : key = device.publicKey
  · simp [he]
  · have := deviceOf_filter he devices
    rw [deviceOf] at this
    rw [this, hk]
    rfl

namespace Attended

variable {h h' : Host}

/-- The channels stay as they are. -/
theorem same (ha : Attended h) (hc : h'.channels = h.channels) (ht : h'.tasks = h.tasks)
    (hs : h'.state.connections = h.state.connections) (hd : Keeps h.state.devices h'.state.devices) :
    Attended h' := by
  refine ⟨?_, ?_, ?_, ?_, ?_⟩
  · rw [hc]
    exact ha.tasks
  · rw [hc, ht]
    exact ha.tasks_lt
  · rw [hc, hs]
    exact ha.running
  · intro channel hm hp
    rw [hc] at hm
    exact hd _ (ha.paired channel hm hp)
  · rw [hc, hs]
    exact ha.registered

theorem hello (ha : Attended h) {key : PublicKey} {save : ℕ} (hc : h'.channels =
    h.channels ++ [{ task := h.tasks, key, phase := .accepted save }]) (ht : h'.tasks = h.tasks + 1)
    (hs : h'.state.connections = h.state.connections) (hd : Keeps h.state.devices h'.state.devices) :
    Attended h' := by
  have hmem {channel : Channel} (hm : channel ∈ h'.channels) (hp : channel.isPending = false) :
      channel ∈ h.channels := by
    rw [hc, mem_append, mem_singleton] at hm
    rcases hm with hm | rfl
    · exact hm
    · cases hp
  refine ⟨?_, ?_, ?_, ?_, ?_⟩
  · rw [hc, map_append]
    refine nodup_append.mpr ⟨ha.tasks, nodup_singleton _, fun task htask new hnew => ?_⟩
    obtain ⟨channel, hm, rfl⟩ := mem_map.mp htask
    rw [mem_singleton.mp hnew]
    exact Nat.ne_of_lt (ha.tasks_lt channel hm)
  · intro channel hm
    rw [hc, mem_append, mem_singleton] at hm
    rw [ht]
    rcases hm with hm | rfl
    · exact Nat.lt_succ_of_lt (ha.tasks_lt channel hm)
    · exact Nat.lt_succ_self _
  · intro channel hm hp
    rw [hs]
    exact ha.running channel (hmem hm hp) hp
  · intro channel hm hp
    exact hd _ (ha.paired channel (hmem hm hp) hp)
  · intro key task hm
    rw [hs] at hm
    obtain ⟨channel, hm, hx⟩ := ha.registered key task hm
    exact ⟨channel, by rw [hc]; exact mem_append_left _ hm, hx⟩

theorem eq_of_task (ha : Attended h) {c channel : Channel} (hc : c ∈ h.channels) (hm : channel ∈ h.channels)
    (ht : c.task = channel.task) : c = channel :=
  inj_on_of_nodup_map ha.tasks hc hm ht

theorem mem_erase_iff (ha : Attended h) {c channel : Channel} :
    c ∈ h.channels.erase channel ↔ c ≠ channel ∧ c ∈ h.channels :=
  List.Nodup.mem_erase_iff (List.Nodup.of_map _ ha.tasks)

/-- A channel ends that is not registered. -/
theorem dropChannel (ha : Attended h) {channel : Channel} (hp : ¬ channel.IsServing) :
    Attended { h with channels := h.channels.erase channel } := by
  refine ⟨ha.tasks.sublist ((erase_sublist ..).map _), fun c hm => ha.tasks_lt c (mem_of_mem_erase hm),
    fun c hm => ha.running c (mem_of_mem_erase hm), fun c hm => ha.paired c (mem_of_mem_erase hm),
    fun key task hm => ?_⟩
  obtain ⟨c, hc, hk, ht, hs⟩ := ha.registered key task hm
  refine ⟨c, ha.mem_erase_iff.mpr ⟨?_, hc⟩, hk, ht, hs⟩
  rintro rfl
  exact hp hs

theorem close (ha : Attended h) {channel : Channel} (hm : channel ∈ h.channels) :
    Attended { h with channels := h.channels.erase channel, state := h.state.unregister channel.task } := by
  have hmem {key : PublicKey} {task : ℕ} : (key, task) ∈ (h.state.unregister channel.task).connections ↔
      (key, task) ∈ h.state.connections ∧ task ≠ channel.task := by
    simp [State.unregister]
  refine ⟨ha.tasks.sublist ((erase_sublist ..).map _), fun c hc => ha.tasks_lt c (mem_of_mem_erase hc),
    fun c hc hp => ?_, fun c hc => ha.paired c (mem_of_mem_erase hc), fun key task ht => ?_⟩
  · obtain ⟨hne, hc⟩ := ha.mem_erase_iff.mp hc
    exact hmem.mpr ⟨ha.running c hc hp, fun ht => hne (ha.eq_of_task hc hm ht)⟩
  · obtain ⟨ht, hne⟩ := hmem.mp ht
    obtain ⟨c, hc, hk, htask, hs⟩ := ha.registered key task ht
    refine ⟨c, ha.mem_erase_iff.mpr ⟨?_, hc⟩, hk, htask, hs⟩
    rintro rfl
    exact hne htask.symm

theorem mem_setChannel {channel c : Channel} {phase : Phase} (hm : c ∈ (h.setChannel channel phase).channels) :
    (c ∈ h.channels ∧ c ≠ channel) ∨ (channel ∈ h.channels ∧ c = { channel with phase }) := by
  obtain ⟨old, ho, rfl⟩ := mem_map.mp hm
  split
  · rename_i he
    subst he
    exact .inr ⟨ho, rfl⟩
  · rename_i he
    exact .inl ⟨ho, he⟩

theorem setChannel_tasks {channel : Channel} {phase : Phase} :
    (h.setChannel channel phase).channels.map Channel.task = h.channels.map Channel.task := by
  unfold Host.setChannel
  rw [map_map]
  refine map_congr_left fun c _ => ?_
  dsimp only [Function.comp]
  split <;> rfl

/-- A registered channel goes on; the source starts no pump again. -/
theorem setChannel (ha : Attended h) {channel : Channel} {pump pump' : Pump} {inbox inbox' : ℕ}
    (hm : channel ∈ h.channels) (hp : channel.phase = .serving pump inbox)
    (hpump : pump' = .running → pump = .running) : Attended (h.setChannel channel (.serving pump' inbox')) := by
  have hrun {c : Channel} (hc : c = { channel with phase := .serving pump' inbox' })
      (hpending : c.isPending = false) : channel.isPending = false := by
    obtain ⟨n, hn⟩ := Channel.isPending_eq_false.mp hpending
    subst hc
    injection hn with hrunning
    exact Channel.isPending_eq_false.mpr ⟨inbox, by rw [hp, hpump hrunning]⟩
  refine ⟨?_, fun c hc => ?_, fun c hc hpending => ?_, fun c hc hpending => ?_, fun key task ht => ?_⟩
  · rw [setChannel_tasks]
    exact ha.tasks
  · rcases mem_setChannel hc with ⟨hc, -⟩ | ⟨-, rfl⟩
    · exact ha.tasks_lt c hc
    · exact ha.tasks_lt channel hm
  · rcases mem_setChannel hc with ⟨hc, -⟩ | ⟨-, hc⟩
    · exact ha.running c hc hpending
    · have := ha.running channel hm (hrun hc hpending)
      rw [hc]
      exact this
  · rcases mem_setChannel hc with ⟨hc, -⟩ | ⟨-, hc⟩
    · exact ha.paired c hc hpending
    · have := ha.paired channel hm (hrun hc hpending)
      rw [hc]
      exact this
  · obtain ⟨c, hc, hk, htask, hs⟩ := ha.registered key task ht
    refine ⟨_, mem_map.mpr ⟨c, hc, rfl⟩, ?_⟩
    split
    · exact ⟨hk, htask, _, _, rfl⟩
    · exact ⟨hk, htask, hs⟩

/-- A channel registers whose device is in the list. -/
theorem register (ha : Attended h) {channel : Channel} (hm : channel ∈ h.channels)
    (hd : (deviceOf channel.key h.state.devices).isSome = true) :
    Attended { h.setChannel channel (.serving .running 0) with
      state := h.state.register channel.key channel.task } := by
  have hmem {key : PublicKey} {task : ℕ} : (key, task) ∈ (h.state.register channel.key channel.task).connections ↔
      (key, task) ∈ h.state.connections ∨ (key, task) = (channel.key, channel.task) := by
    simp [State.register]
  refine ⟨?_, fun c hc => ?_, fun c hc hpending => ?_, fun c hc hpending => ?_, fun key task ht => ?_⟩
  · rw [setChannel_tasks]
    exact ha.tasks
  · rcases mem_setChannel hc with ⟨hc, -⟩ | ⟨-, rfl⟩
    · exact ha.tasks_lt c hc
    · exact ha.tasks_lt channel hm
  · rcases mem_setChannel hc with ⟨hc, -⟩ | ⟨-, rfl⟩
    · exact hmem.mpr (.inl (ha.running c hc hpending))
    · exact hmem.mpr (.inr rfl)
  · rcases mem_setChannel hc with ⟨hc, -⟩ | ⟨-, rfl⟩
    · exact ha.paired c hc hpending
    · exact hd
  · have hnew : ({ channel with phase := .serving .running 0 } : Channel) ∈
        (h.setChannel channel (.serving .running 0)).channels := mem_map.mpr ⟨channel, hm, by rw [if_pos rfl]⟩
    rcases hmem.mp ht with ht | ht
    · obtain ⟨c, hc, hk, htask, hs⟩ := ha.registered key task ht
      refine ⟨_, mem_map.mpr ⟨c, hc, rfl⟩, ?_⟩
      split
      · exact ⟨hk, htask, _, _, rfl⟩
      · exact ⟨hk, htask, hs⟩
    · cases ht
      exact ⟨_, hnew, rfl, rfl, _, _, rfl⟩

/-- The channels of the device are told to stop, and the others stay. -/
theorem removeDevice (ha : Attended h) {state : State} {id : DeviceId} {key : PublicKey} {aborted : List ℕ}
    (hs : h.state.removeDevice id = some (key, aborted, state)) :
    Attended { h.changeDevices state [.removed key] with
      channels := h.channels.map fun c => if c.task ∈ aborted then c.abort else c } := by
  obtain ⟨-, htasks, -, hc, hd⟩ := State.removeDevice_eq_some hs
  have hmem {k : PublicKey} {task : ℕ} : (k, task) ∈ state.connections ↔ (k, task) ∈ h.state.connections ∧ k ≠ key := by
    simp [hc]
  have hother {c : Channel} (hm : c ∈ h.channels.map fun c => if c.task ∈ aborted then c.abort else c)
      (hp : c.isPending = false) : c ∈ h.channels ∧ c.key ≠ key := by
    obtain ⟨old, ho, hold⟩ := mem_map.mp hm
    split at hold
    · rw [← hold, Channel.isPending_abort] at hp
      cases hp
    · rename_i hnot
      subst hold
      refine ⟨ho, fun hk => hnot ((htasks _).mpr ?_)⟩
      rw [← hk]
      exact ha.running old ho hp
  refine ⟨?_, fun c hm => ?_, fun c hm hp => ?_, fun c hm hp => ?_, fun k task hm => ?_⟩
  · have htask : (h.channels.map fun c => if c.task ∈ aborted then c.abort else c).map Channel.task =
        h.channels.map Channel.task := by
      rw [map_map]
      refine map_congr_left fun c _ => ?_
      dsimp only [Function.comp]
      split
      · exact Channel.abort_task
      · rfl
    rw [htask]
    exact ha.tasks
  · obtain ⟨old, ho, rfl⟩ := mem_map.mp hm
    split
    · rw [Channel.abort_task]
      exact ha.tasks_lt old ho
    · exact ha.tasks_lt old ho
  · obtain ⟨hc, hk⟩ := hother hm hp
    exact hmem.mpr ⟨ha.running c hc hp, hk⟩
  · obtain ⟨hc, hk⟩ := hother hm hp
    show (deviceOf c.key state.devices).isSome = true
    rw [hd, deviceOf_filter hk]
    exact ha.paired c hc hp
  · obtain ⟨hm, -⟩ := hmem.mp hm
    obtain ⟨c, hc, hk, htask, hserving⟩ := ha.registered k task hm
    refine ⟨_, mem_map.mpr ⟨c, hc, rfl⟩, ?_⟩
    split
    · exact ⟨Channel.abort_key.trans hk, Channel.abort_task.trans htask, hserving.abort⟩
    · exact ⟨hk, htask, hserving⟩

theorem perform (ha : Attended h) {fromPublicKey : PublicKey → DeviceId} {call : Call} (he : h.Enabled call)
    (hr : h.RegistersPaired call) : Attended (h.perform fromPublicKey call) := by
  cases call with
  | startPairing code now | cancelPairing | dropAttempt attempt | finishSave snapshot saved =>
    exact ha.same rfl rfl rfl (.refl _)
  | seeExpired now | beginAttempt now =>
    rw [Host.perform]
    split <;> exact ha.same rfl rfl rfl (.refl _)
  | renewExpiredPairing code now =>
    rw [Host.perform, State.renewExpiredPairing]
    dsimp only
    split
    · rename_i heq
      split at heq
      · cases heq
        exact ha.same rfl rfl rfl (.refl _)
      · cases heq
    · exact ha.same rfl rfl rfl (.refl _)
  | guessWrong attempt now =>
    rw [Host.perform]
    dsimp only
    split
    · rename_i state hs
      have hkept := h.state.wrongCode_devices attempt.code now
      rw [hs] at hkept
      exact ha.same rfl rfl hkept.2 (by rw [hkept.1]; exact .refl _)
    · exact ha.same rfl rfl rfl (.refl _)
  | acceptPairing attempt request now pairedAt =>
    rw [Host.perform]
    dsimp only
    split
    · rename_i state hs
      obtain ⟨-, -, hc, hd⟩ := State.acceptPairing_eq_some hs
      have hkeeps := keeps_pairing h.state.devices (.new fromPublicKey request.clientKey request.client pairedAt)
      rw [show PairedDevice.publicKey _ = request.clientKey from rfl, ← hd] at hkeeps
      exact ha.same rfl rfl hc hkeeps
    · exact ha.same rfl rfl rfl (.refl _)
  | hello key helloMs now =>
    rw [Host.perform]
    split
    · rename_i state hs
      obtain ⟨-, -, hc, hd⟩ := State.acceptHello_eq_ok hs
      have hf (device : PairedDevice) :
        ({ device with lastHelloMs := helloMs, lastSeen := now } : PairedDevice).publicKey = device.publicKey := rfl
      have hkeeps := keeps_updateFirst key hf h.state.devices
      rw [← hd] at hkeeps
      exact ha.hello rfl rfl hc hkeeps
    · exact ha
  | setPush key push =>
    rw [Host.perform]
    split
    · rename_i state hs
      obtain ⟨-, -, hc, hd⟩ := State.setPush_eq_some hs
      have hf (device : PairedDevice) : ({ device with push } : PairedDevice).publicKey = device.publicKey := rfl
      have hkeeps := keeps_updateFirst key hf h.state.devices
      rw [← hd] at hkeeps
      exact ha.same rfl rfl hc hkeeps
    · exact ha
  | removeDevice id =>
    rw [Host.perform]
    split
    · rename_i key aborted state hs
      exact ha.removeDevice hs
    · exact ha
  | dropChannel channel =>
    obtain ⟨-, save, hp, -⟩ := he
    refine ha.dropChannel ?_
    rintro ⟨pump, inbox, hserving⟩
    rw [hp] at hserving
    cases hserving
  | register channel => exact ha.register he.1 hr
  | deliver channel =>
    obtain ⟨hm, pump, inbox, hp, -⟩ := he
    rw [Host.perform, hp]
    exact ha.setChannel hm hp id
  | handle channel =>
    obtain ⟨hm, pump, inbox, hp⟩ := he
    rw [Host.perform, hp]
    exact ha.setChannel hm hp id
  | stopPump channel =>
    obtain ⟨hm, pump, inbox, hp⟩ := he
    rw [Host.perform, hp]
    exact ha.setChannel hm hp fun hpump => by cases hpump
  | close channel => exact ha.close he.1

end Attended

/-! ## Every run -/

section

variable {fromPublicKey : PublicKey → DeviceId} {calls : List Call} {h : Host}

theorem attended_run (hr : Run ((hosts fromPublicKey).restrict Host.RegistersPaired) calls h) :
    Tracks h ∧ Attended h := by
  refine hr.invariant (I := fun h => Tracks h ∧ Attended h) (fun s hs => ?_) fun s call s' hi hstep => ?_
  · obtain ⟨devices, rfl⟩ := hs
    exact ⟨.new devices, .new devices⟩
  · obtain ⟨ht, ha⟩ := hi
    obtain ⟨hpaired, he, rfl⟩ := hstep
    exact ⟨ht.perform he, ha.perform he hpaired⟩

/-- A channel that registers stays, whether its device is in the list or not. -/
theorem registersPaired_of_onlyPaired {call : Call} (he : h.Enabled call)
    (hp : (h.perform fromPublicKey call).OnlyPaired) : h.RegistersPaired call := by
  cases call with
  | register channel =>
    have hnew : ({ channel with phase := .serving .running 0 } : Channel) ∈
        (h.setChannel channel (.serving .running 0)).channels :=
      mem_map.mpr ⟨channel, he.1, by rw [if_pos rfl]⟩
    exact hp { channel with phase := .serving .running 0 } hnew rfl
  | _ => trivial

/-- **Revocation closes every channel**, as long as a channel registers only while its device is in the list:
once the channels of a removed device have done what they had left, none is registered or answers until the
device pairs again.  A channel that registers later than that goes on. -/
theorem removed_device_cut_off (hr : Run ((hosts fromPublicKey).restrict Host.RegistersPaired) calls h) :
    (∀ key, Since h.log (.removed key) (Event.pairs key) → h.Settled key → h.CutOff key) ∧
    ∀ (call : Call) (h' : Host), (hosts fromPublicKey).step h call h' → (h'.OnlyPaired ↔ h.RegistersPaired call) := by
  obtain ⟨ht, ha⟩ := attended_run hr
  refine ⟨fun key hremoved hsettled ↦ ?_, fun call h' hstep ↦ ?_⟩
  · have hnone : ∀ channel ∈ h.channels, channel.key ≠ key := by
      intro channel hm hk
      obtain ⟨device, hd⟩ := Option.isSome_iff_exists.mp (ha.paired channel hm (hsettled channel hm hk))
      obtain ⟨hdevice, hdk⟩ := deviceOf_some hd
      exact ht.removed key hremoved device hdevice (hdk.trans hk)
    refine ⟨fun task hm ↦ ?_, hnone⟩
    obtain ⟨channel, hc, hk, -⟩ := ha.registered key task hm
    exact hnone channel hc hk
  · obtain ⟨he, rfl⟩ := hstep
    exact ⟨registersPaired_of_onlyPaired he, fun hpaired ↦ (ha.perform he hpaired).paired⟩

end

/-! ## A device that is removed while it connects -/

/-- The channel of the phone, at each of its phases. -/
def phoneChannel (phase : Phase) : Channel where
  task := 0
  key := 1
  phase := phase

/-- The channel has registered when the device is removed. -/
def registerThenRemove : List Call :=
  [.hello 1 5 5, .finishSave helloSnapshot true, .register (phoneChannel (.accepted 1)),
    .removeDevice phoneDevice.id, .stopPump (phoneChannel (.serving .aborted 0)),
    .close (phoneChannel (.serving .ended 0))]

theorem removed_device_cut_off_registerThenRemove :
    ((Host.new [phoneDevice]).after registerThenRemove).CutOff 1 := by
  have hperforms : Performs ((hosts someIds).restrict Host.RegistersPaired) (Host.perform · someIds ·)
      (.new [phoneDevice]) registerThenRemove :=
    ⟨⟨trivial, trivial, rfl⟩, ⟨trivial, .head _, rfl⟩,
      ⟨rfl, ⟨.head _, 1, rfl, fun _ hm ↦ by cases hm⟩, rfl⟩, ⟨trivial, trivial, rfl⟩,
      ⟨trivial, ⟨.head _, .aborted, 0, rfl⟩, rfl⟩, ⟨trivial, ⟨.head _, rfl⟩, rfl⟩, trivial⟩
  refine (removed_device_cut_off ((Run.init (S := (hosts someIds).restrict Host.RegistersPaired) ⟨_, rfl⟩).performs
    hperforms)).1 1 ⟨[.hello 1 5], [], rfl, ?_⟩ ?_
  · intro x hx
    cases hx
  · intro channel hm
    cases hm

/-- The device is removed between the hello and the registration. -/
def removeThenRegister : List Call :=
  [.hello 1 5 5, .removeDevice phoneDevice.id, .finishSave helloSnapshot true, .finishSave removalSnapshot true,
    .register (phoneChannel (.accepted 1))]

/-- The channel of the removed device is registered, and waits for requests. -/
theorem removed_device_stays : ¬ ∀ (calls : List Call) (h : Host), Run (hosts someIds) calls h →
    ∀ key, Since h.log (.removed key) (Event.pairs key) → h.Settled key → h.CutOff key := by
  intro h
  have hperforms : Performs (hosts someIds) (Host.perform · someIds ·) (.new [phoneDevice]) removeThenRegister :=
    ⟨⟨trivial, rfl⟩, ⟨trivial, rfl⟩, ⟨.head _, rfl⟩, ⟨.head _, rfl⟩,
      ⟨⟨.head _, 1, rfl, fun _ hm ↦ by cases hm⟩, rfl⟩, trivial⟩
  have hcut := h _ _ ((Run.init (S := hosts someIds) ⟨_, rfl⟩).performs hperforms) 1
    ⟨[.hello 1 5], [], rfl, fun _ hm ↦ by cases hm⟩ fun channel hm _ ↦ by
      rw [mem_singleton.mp hm]
      rfl
  exact hcut.connections 0 (.head _)

end NiumaTerm.Remote
