import Mathlib.Data.List.Nodup
import NiumaTerm.Lib.Transition

/-!
# Published frames

Readers hold a frame after the publication lock is released; the owner exchanges its back buffer with a
frame that nobody else holds, or with one that it allocates between two lock sections.  What is counted are
the references to an address, as an `Arc` counts them.
-/

namespace NiumaTerm.Terminal

open Transition List

variable {Content : Type}

/-! ## The store -/

structure RenderBuffer (Content : Type) where
  /-- Tells the buffers apart. -/
  storage : ℕ
  content : Content

structure PublishedFrames where
  current : ℕ
  retired : List ℕ

/-- A reference that a reader holds. -/
structure Handle where
  number : ℕ
  frame : ℕ
deriving DecidableEq

structure Publication (Content : Type) where
  /-- All frames so far; an address is an index. -/
  frames : List (RenderBuffer Content)
  state : PublishedFrames
  back : RenderBuffer Content
  /-- The frame allocated by a publication that is between its two sections. -/
  next : Option ℕ
  held : List Handle
  /-- How many handles and buffers there have been. -/
  handles : ℕ
  buffers : ℕ
  /-- What was published last. -/
  published : Content

/-- The last element takes the place of the one at `i`. -/
def swapRemove {α : Type} (l : List α) (i : ℕ) : List α :=
  match l.getLast? with
  | some last => (l.set i last).dropLast
  | none => []

namespace Publication

def new (front back : Content) : Publication Content where
  frames := [{ storage := 0, content := front }]
  state := { current := 0, retired := [] }
  back := { storage := 1, content := back }
  next := none
  held := []
  handles := 0
  buffers := 2
  published := front

variable (s : Publication Content)

def strongCount (frame : ℕ) : ℕ :=
  (s.state.current :: s.state.retired).count frame + s.held.countP fun handle => handle.frame = frame

/-- `Arc::get_mut`: the frame may be exchanged. -/
def isUnique (frame : ℕ) : Bool := s.strongCount frame = 1

/-- The back buffer and the frame are exchanged, and the frame becomes the current one. -/
def swap (frame : ℕ) (state : PublishedFrames) : Publication Content :=
  match s.frames[frame]? with
  | some front => { s with frames := s.frames.set frame s.back, back := front, state, published := s.back.content }
  | none => s

def load : Publication Content :=
  { s with held := s.held ++ [{ number := s.handles, frame := s.state.current }], handles := s.handles + 1 }

/-- The first section, and the allocation after it.  `blank` is an empty buffer. -/
def publish (blank : Content) : Publication Content :=
  if s.isUnique s.state.current then s.swap s.state.current s.state
  else
    match s.state.retired.findIdx? s.isUnique with
    | some index =>
      match s.state.retired[index]? with
      | some frame =>
        s.swap frame
          { current := frame, retired := swapRemove s.state.retired index ++ [s.state.current] }
      | none => s
    | none =>
      { s with
        frames := s.frames ++ [s.back]
        next := some s.frames.length
        back := { storage := s.buffers, content := blank }
        buffers := s.buffers + 1 }

/-- The second section; the frame that it discards is dropped outside. -/
def finishPublish : Publication Content :=
  match s.next with
  | some next =>
    match s.frames[next]? with
    | some frame =>
      let retired := s.state.retired ++ [s.state.current]
      { s with
        state := { current := next, retired := if retired.length > 3 then retired.eraseIdx 0 else retired }
        next := none
        published := frame.content }
    | none => s
  | none => s

inductive Call (Content : Type)
  /-- The owner draws into its back buffer. -/
  | draw (content : Content)
  | publish
  | finishPublish
  | load
  | release (handle : Handle)

def perform (blank : Content) : Call Content → Publication Content
  | .draw content => { s with back := { s.back with content } }
  | .publish => s.publish blank
  | .finishPublish => s.finishPublish
  | .load => s.load
  | .release handle => { s with held := s.held.erase handle }

/-- The owner draws and publishes one after another. -/
def Enabled : Call Content → Prop
  | .draw _ | .publish => s.next = none
  | .finishPublish => s.next ≠ none
  | .load => True
  | .release handle => handle ∈ s.held

end Publication

theorem perm_set {α : Type} {l : List α} {i : ℕ} {x : α} (h : l[i]? = some x) (y : α) :
    (x :: l.set i y).Perm (y :: l) := by
  induction l generalizing i with
  | nil => cases h
  | cons a rest ih =>
    cases i with
    | zero =>
      cases h
      exact .swap y x rest
    | succ i => exact ((List.Perm.swap a x _).trans ((ih h).cons a)).trans (.swap y a rest)

theorem perm_swapRemove {α : Type} {l : List α} {i : ℕ} {x : α} (h : l[i]? = some x) :
    (x :: swapRemove l i).Perm l := by
  obtain rfl | ⟨front, last, rfl⟩ := l.eq_nil_or_concat
  · cases h
  · rw [concat_eq_append] at h ⊢
    rw [swapRemove, getLast?_concat]
    dsimp only
    by_cases hi : i < front.length
    · rw [getElem?_append_left hi] at h
      rw [set_append_left _ _ hi, dropLast_concat]
      exact (perm_set h last).trans (perm_append_singleton last front).symm
    · rw [getElem?_append_right (Nat.le_of_not_lt hi)] at h
      obtain ⟨hlt, hx⟩ := List.getElem?_eq_some_iff.mp h
      have hi' : i - front.length = 0 := by
        simp only [length_singleton] at hlt
        omega
      rw [set_append_right _ _ (Nat.le_of_not_lt hi), hi', set_cons_zero, dropLast_concat]
      simp only [hi', getElem_cons_zero] at hx
      rw [← hx]
      exact (perm_append_singleton last front).symm

/-! ## One call -/

namespace Publication

structure Sound (s : Publication Content) : Prop where
  visible_lt : ∀ a ∈ s.state.current :: s.state.retired, a < s.frames.length
  held_lt : ∀ handle ∈ s.held, handle.frame < s.frames.length
  distinct : (s.state.current :: s.state.retired).Nodup
  next : ∀ next, s.next = some next → next < s.frames.length ∧ next ∉ s.state.current :: s.state.retired
  buffers : (s.back.storage :: s.frames.map RenderBuffer.storage).Nodup
  buffers_lt : ∀ storage ∈ s.back.storage :: s.frames.map RenderBuffer.storage, storage < s.buffers
  retired_le : s.state.retired.length ≤ 3
  published : (s.frames[s.state.current]?).map RenderBuffer.content = some s.published
  handles_lt : ∀ handle ∈ s.held, handle.number < s.handles

variable {s s' : Publication Content}

theorem Sound.new (front back : Content) : (new front back).Sound where
  visible_lt := by simp [Publication.new]
  held_lt _ hm := by cases hm
  distinct := nodup_singleton _
  next _ hn := by cases hn
  buffers := by simp [Publication.new]
  buffers_lt := by simp [Publication.new]
  retired_le := Nat.zero_le _
  published := rfl
  handles_lt _ hm := by cases hm

/-- No reader holds a frame that has one reference only. -/
theorem not_held_of_isUnique {a : ℕ} (hu : s.isUnique a = true) (hm : a ∈ s.state.current :: s.state.retired) :
    ∀ handle ∈ s.held, handle.frame ≠ a := by
  intro handle hh he
  have hone : s.strongCount a = 1 := of_decide_eq_true hu
  have hpos : 0 < (s.state.current :: s.state.retired).count a := count_pos_iff.mpr hm
  have hheld : 0 < s.held.countP fun handle => handle.frame = a :=
    countP_pos_iff.mpr ⟨handle, hh, decide_eq_true he⟩
  unfold strongCount at hone
  omega

/-- A frame that nobody holds is exchanged, and becomes the current one. -/
theorem Sound.swap (hs : s.Sound) {a : ℕ} {state : PublishedFrames} (hn : s.next = none)
    (hm : a ∈ s.state.current :: s.state.retired) (hc : state.current = a)
    (hp : (state.current :: state.retired).Perm (s.state.current :: s.state.retired)) : (s.swap a state).Sound := by
  obtain ⟨front, hf⟩ : ∃ front, s.frames[a]? = some front := ⟨_, getElem?_eq_getElem (hs.visible_lt a hm)⟩
  have hbuffers : (front.storage :: (s.frames.set a s.back).map RenderBuffer.storage).Perm
      (s.back.storage :: s.frames.map RenderBuffer.storage) := by
    rw [map_set]
    exact perm_set (by rw [getElem?_map, hf]; rfl) _
  have hswap : s.swap a state =
      { s with frames := s.frames.set a s.back, back := front, state, published := s.back.content } := by
    rw [Publication.swap, hf]
  rw [hswap]
  have hlength : (s.frames.set a s.back).length = s.frames.length := length_set
  refine ⟨fun b hb => ?_, fun handle hh => ?_, hp.nodup_iff.mpr hs.distinct, fun next hnext => ?_,
    hbuffers.nodup_iff.mpr hs.buffers, fun storage hst => hs.buffers_lt _ (hbuffers.mem_iff.mp hst), ?_, ?_,
    hs.handles_lt⟩
  · rw [hlength]
    exact hs.visible_lt b (hp.mem_iff.mp hb)
  · rw [hlength]
    exact hs.held_lt handle hh
  · rw [show s.next = some next from hnext] at hn
    cases hn
  · have := hp.length_eq
    simp only [length_cons] at this
    have := hs.retired_le
    show state.retired.length ≤ 3
    omega
  · show ((s.frames.set a s.back)[state.current]?).map RenderBuffer.content = some s.back.content
    rw [hc, getElem?_set_self (hs.visible_lt a hm)]
    rfl

/-- What the first section of a publication can do: exchange a frame that nobody holds, or allocate one. -/
theorem publish_cases (blank : Content) :
    (∃ a state, s.publish blank = s.swap a state ∧ s.isUnique a = true ∧ a ∈ s.state.current :: s.state.retired ∧
      state.current = a ∧ (state.current :: state.retired).Perm (s.state.current :: s.state.retired)) ∨
    s.publish blank = { s with
      frames := s.frames ++ [s.back]
      next := some s.frames.length
      back := { storage := s.buffers, content := blank }
      buffers := s.buffers + 1 } := by
  unfold publish
  split
  · rename_i hu
    exact .inl ⟨_, _, rfl, hu, mem_cons_self, rfl, .refl _⟩
  · split
    · rename_i index hi
      obtain ⟨hlt, hu, -⟩ := findIdx?_eq_some_iff_getElem.mp hi
      have hget : s.state.retired[index]? = some s.state.retired[index] := getElem?_eq_getElem hlt
      rw [hget]
      refine .inl ⟨_, _, rfl, hu, mem_cons_of_mem _ (getElem_mem hlt), rfl, ?_⟩
      have hperm := (perm_swapRemove hget).append_right [s.state.current]
      exact hperm.trans (perm_append_singleton _ _)
    · exact .inr rfl

theorem Sound.publish (hs : s.Sound) (hn : s.next = none) (blank : Content) : (s.publish blank).Sound := by
  rcases s.publish_cases blank with ⟨a, state, hp, -, hm, hc, hperm⟩ | hp
  · rw [hp]
    exact hs.swap hn hm hc hperm
  · rw [hp]
    have hlength : (s.frames ++ [s.back]).length = s.frames.length + 1 := length_append
    have hstorage : ((s.frames ++ [s.back]).map RenderBuffer.storage).Perm
        (s.back.storage :: s.frames.map RenderBuffer.storage) := by
      rw [map_append]
      exact perm_append_singleton _ _
    refine ⟨fun b hb => ?_, fun handle hh => ?_, hs.distinct, fun next hnext => ?_, ?_, fun storage hst => ?_,
      hs.retired_le, ?_, hs.handles_lt⟩
    · rw [hlength]
      exact Nat.lt_succ_of_lt (hs.visible_lt b hb)
    · rw [hlength]
      exact Nat.lt_succ_of_lt (hs.held_lt handle hh)
    · cases hnext
      exact ⟨by rw [hlength]; exact Nat.lt_succ_self _, fun hm => Nat.lt_irrefl _ (hs.visible_lt _ hm)⟩
    · refine nodup_cons.mpr ⟨fun hm => ?_, hstorage.nodup_iff.mpr hs.buffers⟩
      exact Nat.lt_irrefl _ (hs.buffers_lt _ (hstorage.mem_iff.mp hm))
    · rcases mem_cons.mp hst with rfl | hst
      · exact Nat.lt_succ_self _
      · exact Nat.lt_succ_of_lt (hs.buffers_lt _ (hstorage.mem_iff.mp hst))
    · show ((s.frames ++ [s.back])[s.state.current]?).map RenderBuffer.content = some s.published
      rw [getElem?_append_left (hs.visible_lt _ mem_cons_self)]
      exact hs.published

theorem Sound.finishPublish (hs : s.Sound) : s.finishPublish.Sound := by
  unfold Publication.finishPublish
  split
  · rename_i next hn
    obtain ⟨hlt, hnew⟩ := hs.next next hn
    rw [getElem?_eq_getElem hlt]
    dsimp only
    -- the frame that was current is the youngest of the retired ones
    have hperm : (s.state.retired ++ [s.state.current]).Perm (s.state.current :: s.state.retired) :=
      perm_append_singleton _ _
    have hsub : (if (s.state.retired ++ [s.state.current]).length > 3 then
        (s.state.retired ++ [s.state.current]).eraseIdx 0 else s.state.retired ++ [s.state.current]).Sublist
        (s.state.retired ++ [s.state.current]) := by
      split
      · exact eraseIdx_sublist ..
      · exact .refl _
    have hmem {b : ℕ} (hb : b ∈ if (s.state.retired ++ [s.state.current]).length > 3 then
        (s.state.retired ++ [s.state.current]).eraseIdx 0 else s.state.retired ++ [s.state.current]) :
        b ∈ s.state.current :: s.state.retired := hperm.mem_iff.mp (hsub.subset hb)
    refine ⟨fun b hb => ?_, hs.held_lt, nodup_cons.mpr ⟨fun hm => hnew (hmem hm), ?_⟩, (fun _ h => by cases h),
      hs.buffers, hs.buffers_lt, ?_, ?_, hs.handles_lt⟩
    · rcases mem_cons.mp hb with rfl | hb
      · exact hlt
      · exact hs.visible_lt b (hmem hb)
    · exact (hperm.nodup_iff.mpr hs.distinct).sublist hsub
    · dsimp only
      have hlength : (s.state.retired ++ [s.state.current]).length = s.state.retired.length + 1 :=
        length_append
      have hle := hs.retired_le
      split
      · rw [length_eraseIdx, hlength]
        split <;> omega
      · omega
    · dsimp only
      rw [getElem?_eq_getElem hlt]
      rfl
  · exact hs

variable {call : Call Content} {handle : Handle}

theorem Sound.perform (hs : s.Sound) {blank : Content} (he : s.Enabled call) :
    (s.perform blank call).Sound := by
  cases call with
  | draw content => exact ⟨hs.1, hs.2, hs.3, hs.4, hs.5, hs.6, hs.7, hs.8, hs.9⟩
  | publish => exact hs.publish he blank
  | finishPublish => exact hs.finishPublish
  | load =>
    have hmem {handle : Handle} (hm : handle ∈ s.load.held) :
        handle ∈ s.held ∨ handle = { number := s.handles, frame := s.state.current } := by
      simpa [load] using hm
    refine ⟨hs.visible_lt, fun handle hm => ?_, hs.distinct, hs.next, hs.buffers, hs.buffers_lt, hs.retired_le,
      hs.published, fun handle hm => ?_⟩
    · rcases hmem hm with hm | rfl
      · exact hs.held_lt handle hm
      · exact hs.visible_lt _ mem_cons_self
    · rcases hmem hm with hm | rfl
      · exact Nat.lt_succ_of_lt (hs.handles_lt handle hm)
      · exact Nat.lt_succ_self _
  | release handle =>
    exact ⟨hs.visible_lt, fun _ hm => hs.held_lt _ (mem_of_mem_erase hm), hs.distinct, hs.next, hs.buffers,
      hs.buffers_lt, hs.retired_le, hs.published, fun _ hm => hs.handles_lt _ (mem_of_mem_erase hm)⟩

/-- No call changes a frame that a reader holds. -/
theorem Sound.frame_perform (hs : s.Sound) {blank : Content}
    (hm : handle ∈ s.held) : (s.perform blank call).frames[handle.frame]? = s.frames[handle.frame]? := by
  cases call with
  | publish =>
    rw [Publication.perform]
    rcases s.publish_cases blank with ⟨a, state, hp, hu, ha, -⟩ | hp
    · rw [hp, Publication.swap]
      split
      · exact getElem?_set_ne (not_held_of_isUnique hu ha handle hm).symm
      · rfl
    · rw [hp]
      exact getElem?_append_left (hs.held_lt handle hm)
  | finishPublish =>
    rw [Publication.perform, Publication.finishPublish]
    split
    · split <;> rfl
    · rfl
  | _ => rfl

/-- A handle is new when it is loaded, and not seen again once it is released. -/
theorem mem_held_perform {blank : Content} (hm : handle ∈ (s.perform blank call).held) :
    handle ∈ s.held ∨ handle.number = s.handles := by
  cases call with
  | draw content => exact .inl hm
  | publish =>
    rw [Publication.perform] at hm
    rcases s.publish_cases blank with ⟨a, state, hp, -⟩ | hp
    · rw [hp, Publication.swap] at hm
      split at hm <;> exact .inl hm
    · rw [hp] at hm
      exact .inl hm
  | finishPublish =>
    rw [Publication.perform, Publication.finishPublish] at hm
    split at hm
    · split at hm <;> exact .inl hm
    · exact .inl hm
  | load =>
    rcases mem_append.mp hm with hm | hm
    · exact .inl hm
    · rw [mem_singleton.mp hm]
      exact .inr rfl
  | release other => exact .inl (mem_of_mem_erase hm)

theorem handles_le_perform {blank : Content} : s.handles ≤ (s.perform blank call).handles := by
  cases call with
  | load => exact Nat.le_succ _
  | publish =>
    rw [Publication.perform]
    rcases s.publish_cases blank with ⟨a, state, hp, -⟩ | hp
    · rw [hp, Publication.swap]
      split <;> exact Nat.le_refl _
    · simp only [hp, Nat.le_refl]
  | finishPublish =>
    rw [Publication.perform, Publication.finishPublish]
    split
    · split <;> exact Nat.le_refl _
    · exact Nat.le_refl _
  | _ => exact Nat.le_refl _

/-- The handle was loaded, and has the frame as long as it is held. -/
structure Keeps (s : Publication Content) (handle : Handle) (frame : RenderBuffer Content) : Prop where
  sound : s.Sound
  loaded : handle.number < s.handles
  frame : handle ∈ s.held → s.frames[handle.frame]? = some frame

/-- Once released, a handle is not loaded again: its number is taken. -/
theorem Keeps.perform {frame : RenderBuffer Content} (hk : s.Keeps handle frame) {blank : Content}
    (he : s.Enabled call) : (s.perform blank call).Keeps handle frame := by
  refine ⟨hk.sound.perform he, Nat.lt_of_lt_of_le hk.loaded handles_le_perform, fun hheld => ?_⟩
  rcases mem_held_perform hheld with hheld | hnumber
  · rw [hk.sound.frame_perform hheld]
    exact hk.frame hheld
  · exact absurd hnumber (Nat.ne_of_lt hk.loaded)

end Publication

/-! ## Every run -/

section

variable {blank : Content} {s : Publication Content}

end

end NiumaTerm.Terminal
