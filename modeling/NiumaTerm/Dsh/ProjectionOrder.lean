import NiumaTerm.Dsh.Projections
import NiumaTerm.Lib.Cursor
import Mathlib.Algebra.Order.Group.Int

/-!
# Projections and the order they come in

A run is a list of values of the control stream, in its own order, and of baselines, in any order between
them.  `Agrees` says what it should lead to whatever the order, and `agrees_iff` that it does as long as
every step `Fits`.
-/

namespace NiumaTerm.Dsh

open Rust ClaudeCode Cursor List

inductive Step
  /-- A value of the control stream if `live`, else of a baseline. -/
  | update (live : Bool) (key : String) (value : Json) (seq : ℤ)
  | catalog (catalog : Json)

/-- The values of a key that one of the two streams has had. -/
def updates (live : Bool) (key : String) (steps : List Step) : List (ℤ × Json) :=
  steps.filterMap fun
    | .update live' key' value seq => if live' = live ∧ key' = key then some (seq, value) else none
    | .catalog _ => none

/-- The value with the highest number; the control stream decides among equals. -/
def expected (key : String) (steps : List Step) : Option (ℤ × Json) :=
  prefer (newest (updates true key steps)) (newest (updates false key steps))

/-- A tracker with all events that it has returned, and the last value of each key that it took. -/
structure Ledger where
  tracker : ProjectionTracker := {}
  events : List Event := []
  held : String → Option Json := fun _ => none

def ProjectionTracker.accepts (t : ProjectionTracker) (key : String) (seq : ℤ) : Bool :=
  (t.seen key).all (· ≤ seq)

namespace Ledger

def step (l : Ledger) : Step → Ledger
  | .update _ key value seq =>
    let (tracker, events) := l.tracker.applyAt key value (some seq)
    { tracker
      events := l.events ++ events
      held := if l.tracker.accepts key seq then Function.update l.held key (some value) else l.held }
  | .catalog catalog =>
    let (tracker, events) := l.tracker.applyPermissionCatalog catalog
    { l with tracker, events := l.events ++ events }

/-- The composition of the last breakdown in the window the tracker has. -/
def composition (l : Ledger) : Option Event :=
  (l.held "contextBreakdown").bind l.tracker.compositionEvent

def permissions (l : Ledger) : Option Event :=
  permissionPresets l.tracker.permissionOptions l.tracker.permission

end Ledger

def run (steps : List Step) : Ledger := steps.foldl Ledger.step {}

/-! ## Agreement -/

def isWindow : Event → Bool
  | .contextWindowUpdated _ => true
  | _ => false

def isComposition : Event → Bool
  | .contextCompositionUpdated _ => true
  | _ => false

def isPermission : Event → Bool
  | .approvalPresets _ _ => true
  | _ => false

def lastOf (kind : Event → Bool) (events : List Event) : Option Event := (events.filter kind).getLast?

/-- The tracker has the last values. -/
structure Holds (steps : List Step) (l : Ledger) : Prop where
  cumulative : l.tracker.cumulative = (l.held "tokenUsage").map cumulativeUsage
  usedTokens : l.tracker.usedTokens = (l.held "contextPressure").bind usedTokensOf
  contextWindow : l.tracker.contextWindow = (l.held "contextPressure").bind contextWindowOf
  permission : l.tracker.permission = (l.held "permissions").bind currentValueOf
  options : (∀ catalog, Step.catalog catalog ∉ steps) → ∀ value options,
    l.held "permissions" = some value → value.member? "options" = some options →
    l.tracker.permissionOptions = options
  sessionStats : l.tracker.sessionStats = (l.held "sessionStats").map sessionStatsOf

/-- The last events tell what the tracker has. -/
structure Says (l : Ledger) : Prop where
  window : lastOf isWindow l.events = l.tracker.windowEvent
  composition : lastOf isComposition l.events = l.composition
  permissions : lastOf isPermission l.events = l.permissions

structure Agrees (steps : List Step) : Prop where
  values : ∀ key, (run steps).held key = (expected key steps).map Prod.snd
  holds : Holds steps (run steps)
  last : Says (run steps)

/-! ## Steps that fit -/

/-- A baseline has the same value as the control stream, if their numbers are the same. -/
def FitsCursor (steps : List Step) (live : Bool) (key : String) (value : Json) (seq : ℤ) : Prop :=
  live = false → ∀ current, newest (updates true key steps) = some (seq, current) → value = current

/-- Nothing that was published is taken back, and the window does not change under a composition. -/
def FitsUnit (l : Ledger) (key : String) (value : Json) : Prop :=
  (key = "contextPressure" →
    (usedTokensOf value = none → l.tracker.usedTokens = none) ∧
      (contextWindowOf value = l.tracker.contextWindow ∨ l.composition = none)) ∧
  (key = "contextBreakdown" → segmentsOf value = [] → l.composition = none) ∧
  (key = "permissions" →
    permissionPresets ((value.member? "options").getD l.tracker.permissionOptions)
      (currentValueOf value) = none → l.permissions = none)

def Fits (steps : List Step) : Step → Prop
  | .update live key value seq =>
    (run steps).tracker.accepts key seq = true →
      FitsCursor steps live key value seq ∧ FitsUnit (run steps) key value
  | .catalog catalog =>
    permissionPresets (catalog.get "options") (run steps).tracker.permission = none →
      (run steps).permissions = none

/-! ## Last events -/

theorem lastOf_append (kind : Event → Bool) (events more : List Event) :
    lastOf kind (events ++ more) = (lastOf kind more).or (lastOf kind events) := by
  rw [lastOf, filter_append, getLast?_append]
  rfl

theorem lastOf_toList_of {kind : Event → Bool} {event : Option Event}
    (h : ∀ e ∈ event, kind e = true) : lastOf kind event.toList = event := by
  cases event with
  | none => rfl
  | some e => simp [lastOf, h e rfl]

theorem lastOf_toList_not {kind : Event → Bool} {event : Option Event}
    (h : ∀ e ∈ event, kind e = false) : lastOf kind event.toList = none := by
  cases event with
  | none => rfl
  | some e => simp [lastOf, h e rfl]

/-! ## One unit -/

theorem or_eq_left_iff {α : Type} {a b : Option α} : a.or b = a ↔ (a = none → b = none) := by
  cases a <;> simp

/-- A unit that does not touch the window, the composition and the permission. -/
structure Quiet (t t' : ProjectionTracker) (events : List Event) : Prop where
  seen : t'.seen = t.seen
  cumulative : t'.cumulative = t.cumulative
  usedTokens : t'.usedTokens = t.usedTokens
  contextWindow : t'.contextWindow = t.contextWindow
  permission : t'.permission = t.permission
  options : t'.permissionOptions = t.permissionOptions
  window : lastOf isWindow events = none
  composition : lastOf isComposition events = none
  permissions : lastOf isPermission events = none

theorem applyUnit_cases (t : ProjectionTracker) (key : String) (value : Json) :
    (key = "tokenUsage" ∧ t.applyUnit key value =
      ({ t with cumulative := some (cumulativeUsage value) },
        { t with cumulative := some (cumulativeUsage value) }.windowEvent.toList)) ∨
    (key = "contextPressure" ∧ t.applyUnit key value =
      ({ t with usedTokens := usedTokensOf value, contextWindow := contextWindowOf value },
        { t with usedTokens := usedTokensOf value
                 contextWindow := contextWindowOf value }.windowEvent.toList)) ∨
    (key = "contextBreakdown" ∧ t.applyUnit key value = (t, (t.compositionEvent value).toList)) ∨
    (key = "permissions" ∧ t.applyUnit key value =
      { t with permissionOptions := (value.member? "options").getD t.permissionOptions
               permission := currentValueOf value }.permissionEvent) ∨
    (key = "sessionStats" ∧ t.applyUnit key value =
      ({ t with sessionStats := some (sessionStatsOf value) },
        [.sessionStatsUpdated (sessionStatsOf value)])) ∨
    (key ∉ ["tokenUsage", "contextPressure", "contextBreakdown", "permissions", "sessionStats"] ∧
      (t.applyUnit key value).1 = t ∧ Quiet t t (t.applyUnit key value).2) := by
  have hquiet {events : List Event} (h : ∀ event ∈ events, isWindow event = false ∧
      isComposition event = false ∧ isPermission event = false) : Quiet t t events := by
    refine ⟨rfl, rfl, rfl, rfl, rfl, rfl, ?_, ?_, ?_⟩ <;>
      rw [lastOf, filter_eq_nil_iff.mpr, getLast?_nil] <;> intro event hevent
    · simp [(h event hevent).1]
    · simp [(h event hevent).2.1]
    · simp [(h event hevent).2.2]
  by_cases h1 : key = "tokenUsage"
  · exact .inl ⟨h1, by rw [ProjectionTracker.applyUnit, if_pos h1]⟩
  by_cases h2 : key = "contextPressure"
  · exact .inr (.inl ⟨h2, by rw [ProjectionTracker.applyUnit, if_neg h1, if_pos h2]⟩)
  by_cases h3 : key = "contextBreakdown"
  · exact .inr (.inr (.inl ⟨h3, by
      rw [ProjectionTracker.applyUnit, if_neg h1, if_neg h2, if_pos h3]⟩))
  by_cases h5 : key = "permissions"
  · refine .inr (.inr (.inr (.inl ⟨h5, ?_⟩)))
    subst h5
    rfl
  by_cases h9 : key = "sessionStats"
  · refine .inr (.inr (.inr (.inr (.inl ⟨h9, ?_⟩))))
    subst h9
    rfl
  refine .inr (.inr (.inr (.inr (.inr ⟨by simp [h1, h2, h3, h5, h9], ?_⟩))))
  rw [ProjectionTracker.applyUnit, if_neg h1, if_neg h2, if_neg h3]
  split_ifs
  · refine ⟨rfl, hquiet fun event hevent => ?_⟩
    obtain ⟨title, -, rfl⟩ := Option.map_eq_some_iff.mp (Option.mem_toList.mp hevent)
    exact ⟨rfl, rfl, rfl⟩
  · exact ⟨rfl, hquiet fun event hevent => mem_singleton.mp hevent ▸ ⟨rfl, rfl, rfl⟩⟩
  · exact ⟨rfl, hquiet fun event hevent => mem_singleton.mp hevent ▸ ⟨rfl, rfl, rfl⟩⟩
  · exact ⟨rfl, hquiet fun event hevent => mem_singleton.mp hevent ▸ ⟨rfl, rfl, rfl⟩⟩
  · exact ⟨rfl, hquiet fun event hevent => by cases hevent⟩

theorem applyUnit_seen (t : ProjectionTracker) (key : String) (value : Json) :
    (t.applyUnit key value).1.seen = t.seen := by
  rcases applyUnit_cases t key value with ⟨-, h⟩ | ⟨-, h⟩ | ⟨-, h⟩ | ⟨-, h⟩ | ⟨-, h⟩ | ⟨-, h, -⟩ <;>
    rw [h]
  rfl

/-! ## The cursors -/

theorem updates_concat (live : Bool) (key : String) (steps : List Step) (step : Step) :
    updates live key (steps ++ [step]) = updates live key steps ++ updates live key [step] :=
  filterMap_append

theorem applyAt_of_accepts {t : ProjectionTracker} {key : String} {value : Json} {seq : ℤ}
    (h : t.accepts key seq = true) : t.applyAt key value (some seq) =
      { t with seen := Function.update t.seen key (some seq) }.applyUnit key value := by
  rw [ProjectionTracker.applyAt, if_neg]
  rw [ProjectionTracker.accepts] at h
  cases hseen : t.seen key with
  | none => simp
  | some n => simpa [hseen] using h

theorem applyAt_of_not_accepts {t : ProjectionTracker} {key : String} {value : Json} {seq : ℤ}
    (h : t.accepts key seq = false) : t.applyAt key value (some seq) = (t, []) := by
  rw [ProjectionTracker.applyAt, if_pos]
  rw [ProjectionTracker.accepts] at h
  cases hseen : t.seen key with
  | none => simp [hseen] at h
  | some n => simpa [hseen] using h

theorem run_concat (steps : List Step) (step : Step) :
    run (steps ++ [step]) = (run steps).step step := by
  rw [run, run, foldl_append]
  rfl

/-- An accepted value is the newest one of its key, but one of a baseline does not count against the
control stream with the same number. -/
theorem expected_update (steps : List Step) (live : Bool) (key : String) (value : Json) (seq : ℤ) :
    expected key (steps ++ [.update live key value seq]) =
      if (expected key steps).all fun b => b.1 ≤ seq then
        if live = false ∧ (newest (updates true key steps)).any fun a => a.1 = seq then
          newest (updates true key steps)
        else some (seq, value)
      else expected key steps := by
  cases live with
  | true =>
    have htrue : updates true key [.update true key value seq] = [(seq, value)] := by simp [updates]
    have hfalse : updates false key [.update true key value seq] = [] := by simp [updates]
    rw [expected, updates_concat, updates_concat, htrue, hfalse, append_nil, newest_concat,
      prefer_keep_left]
    simp [expected]
  | false =>
    have htrue : updates true key [.update false key value seq] = [] := by simp [updates]
    have hfalse : updates false key [.update false key value seq] = [(seq, value)] := by
      simp [updates]
    rw [expected, updates_concat, updates_concat, htrue, hfalse, append_nil, newest_concat,
      prefer_keep_right]
    simp [expected]

theorem expected_other {steps : List Step} {step : Step} {key : String}
    (h : ∀ live value seq, step ≠ .update live key value seq) :
    expected key (steps ++ [step]) = expected key steps := by
  have hnone (live : Bool) : updates live key [step] = [] := by
    cases step with
    | update live' key' value seq =>
      have hkey : key' ≠ key := fun heq => h live' value seq (heq ▸ rfl)
      simp [updates, hkey]
    | catalog catalog => rfl
  rw [expected, updates_concat, updates_concat, hnone, hnone, append_nil, append_nil, expected]

/-- The cursor of a key is the highest number so far. -/
theorem seen_run (steps : List Step) (key : String) :
    (run steps).tracker.seen key = (expected key steps).map Prod.fst := by
  induction steps using reverseRecOn with
  | nil => rfl
  | append_singleton steps step ih =>
    rw [run_concat]
    cases step with
    | catalog catalog =>
      rw [expected_other fun _ _ _ => by simp, ← ih]
      rfl
    | update live key' value seq =>
      by_cases hkey : key' = key
      · subst hkey
        rw [expected_update]
        have haccepts : (run steps).tracker.accepts key' seq =
            (expected key' steps).all fun b => b.1 ≤ seq := by
          rw [ProjectionTracker.accepts, ih, Option.all_map]
        cases h : (run steps).tracker.accepts key' seq with
        | false =>
          rw [if_neg (by rw [← haccepts, h]; simp), Ledger.step, applyAt_of_not_accepts h]
          exact ih
        | true =>
          rw [if_pos (haccepts.symm.trans h), Ledger.step, applyAt_of_accepts h]
          dsimp only
          rw [applyUnit_seen]
          dsimp only
          rw [Function.update_self]
          split
          · next hsame =>
            obtain ⟨a, ha, hseq⟩ := (Option.any_eq_true _ _).mp hsame.2
            rw [ha, Option.map_some, of_decide_eq_true hseq]
          · rfl
      · rw [expected_other (fun _ _ _ heq => hkey (by cases heq; rfl)), ← ih, Ledger.step]
        cases h : (run steps).tracker.accepts key' seq with
        | false => rw [applyAt_of_not_accepts h]
        | true =>
          rw [applyAt_of_accepts h]
          dsimp only
          rw [applyUnit_seen]
          exact Function.update_of_ne (Ne.symm hkey) _ _

theorem accepts_run (steps : List Step) (key : String) (seq : ℤ) :
    (run steps).tracker.accepts key seq = (expected key steps).all fun b => b.1 ≤ seq := by
  rw [ProjectionTracker.accepts, seen_run, Option.all_map]

/-! ## One more step -/

section

variable {steps : List Step} {live : Bool} {key : String} {value : Json} {seq : ℤ}

theorem step_of_accepts (live : Bool) (value : Json) {l : Ledger}
    (h : l.tracker.accepts key seq = true) :
    ∃ t : ProjectionTracker, t = { l.tracker with seen := Function.update l.tracker.seen key (some seq) } ∧
      l.step (.update live key value seq) =
        { tracker := (t.applyUnit key value).1
          events := l.events ++ (t.applyUnit key value).2
          held := Function.update l.held key (some value) } := by
  refine ⟨_, rfl, ?_⟩
  rw [Ledger.step, applyAt_of_accepts h, if_pos h]

theorem step_of_not_accepts {l : Ledger} (h : l.tracker.accepts key seq = false) :
    l.step (.update live key value seq) = l := by
  rw [Ledger.step, applyAt_of_not_accepts h, if_neg (by simp [h])]
  simp

theorem holds_of_not_accepts {step : Step} {l : Ledger} (h : Holds steps l) :
    Holds (steps ++ [step]) l :=
  { h with options := fun hcatalog => h.options fun catalog hmem =>
      hcatalog catalog (mem_append_left _ hmem) }

/-- The values that the tracker has, after one more is accepted. -/
theorem holds_of_accepts {l : Ledger} {t : ProjectionTracker} (h : Holds steps l)
    (ht : t = { l.tracker with seen := Function.update l.tracker.seen key (some seq) }) :
    Holds (steps ++ [.update live key value seq])
      { tracker := (t.applyUnit key value).1
        events := l.events ++ (t.applyUnit key value).2
        held := Function.update l.held key (some value) } := by
  have hoptions (hkey : "permissions" ≠ key)
      (hcatalog : ∀ catalog, Step.catalog catalog ∉ steps ++ [.update live key value seq])
      (value' options : Json)
      (hheld : Function.update l.held key (some value) "permissions" = some value')
      (hmember : value'.member? "options" = some options) :
      l.tracker.permissionOptions = options := by
    rw [Function.update_of_ne hkey] at hheld
    exact h.options (fun catalog hmem => hcatalog catalog (mem_append_left _ hmem)) value' options
      hheld hmember
  obtain ⟨hcumulative, hused, hwindow, hpermission, -, hstats⟩ := h
  rcases applyUnit_cases t key value with ⟨rfl, heq⟩ | ⟨rfl, heq⟩ | ⟨rfl, heq⟩ | ⟨rfl, heq⟩ |
    ⟨rfl, heq⟩ | ⟨hkey, heq, -⟩
  · rw [heq, ht]
    refine ⟨?_, ?_, ?_, ?_, hoptions (by decide), ?_⟩ <;>
      simp [hused, hwindow, hpermission, hstats]
  · rw [heq, ht]
    refine ⟨?_, ?_, ?_, ?_, hoptions (by decide), ?_⟩ <;>
      simp [hcumulative, hpermission, hstats]
  · rw [heq, ht]
    refine ⟨?_, ?_, ?_, ?_, hoptions (by decide), ?_⟩ <;>
      simp [hcumulative, hused, hwindow, hpermission, hstats]
  · rw [heq, ht, ProjectionTracker.permissionEvent]
    refine ⟨?_, ?_, ?_, ?_, ?_, ?_⟩
    case refine_5 =>
      intro _ value' options hheld hmember
      simp only [Function.update_self, Option.some.injEq] at hheld
      simp [hheld, hmember]
    all_goals simp [hcumulative, hused, hwindow, hstats]
  · rw [heq, ht]
    refine ⟨?_, ?_, ?_, ?_, hoptions (by decide), ?_⟩ <;>
      simp [hcumulative, hused, hwindow, hpermission]
  · simp only [mem_cons, not_mem_nil, or_false, not_or] at hkey
    obtain ⟨h1, h2, h3, h4, h5⟩ := hkey
    rw [heq, ht]
    refine ⟨?_, ?_, ?_, ?_, hoptions (Ne.symm h4), ?_⟩ <;>
      simp [hcumulative, hused, hwindow, hpermission, hstats, Ne.symm h1, Ne.symm h2, Ne.symm h4,
        Ne.symm h5]

/-- Every value that is accepted is held. -/
theorem holds_run (steps : List Step) : Holds steps (run steps) := by
  induction steps using reverseRecOn with
  | nil => exact ⟨rfl, rfl, rfl, rfl, fun _ _ _ h => (by cases h), rfl⟩
  | append_singleton steps step ih =>
    rw [run_concat]
    cases step with
    | catalog catalog =>
      exact ⟨ih.cumulative, ih.usedTokens, ih.contextWindow, ih.permission, fun hcatalog =>
        absurd (mem_append_right _ (mem_singleton_self _)) (hcatalog catalog),
        ih.sessionStats⟩
    | update live key value seq =>
      cases h : (run steps).tracker.accepts key seq with
      | false =>
        rw [step_of_not_accepts h]
        exact holds_of_not_accepts ih
      | true =>
        obtain ⟨t, ht, hstep⟩ := step_of_accepts live value h
        rw [hstep]
        exact holds_of_accepts ih ht

theorem isSome_windowEvent (t : ProjectionTracker) : t.windowEvent = none ↔ t.usedTokens = none := by
  rw [ProjectionTracker.windowEvent, Option.map_eq_none_iff]

theorem isWindow_of_windowEvent {t : ProjectionTracker} {event : Event} (h : event ∈ t.windowEvent) :
    isWindow event = true ∧ isComposition event = false ∧ isPermission event = false := by
  obtain ⟨used, -, rfl⟩ := Option.map_eq_some_iff.mp h
  exact ⟨rfl, rfl, rfl⟩

theorem compositionEvent_eq_none {t : ProjectionTracker} {value : Json} :
    t.compositionEvent value = none ↔ segmentsOf value = [] := by
  simp [ProjectionTracker.compositionEvent]

theorem isComposition_of_compositionEvent {t : ProjectionTracker} {value : Json} {event : Event}
    (h : event ∈ t.compositionEvent value) :
    isWindow event = false ∧ isComposition event = true ∧ isPermission event = false := by
  simp only [ProjectionTracker.compositionEvent, Option.mem_def] at h
  split at h
  · cases h
  · cases h
    exact ⟨rfl, rfl, rfl⟩

theorem isPermission_of_permissionPresets {options : Json} {current : Option Str} {event : Event}
    (h : event ∈ permissionPresets options current) :
    isWindow event = false ∧ isComposition event = false ∧ isPermission event = true := by
  simp only [permissionPresets, Option.mem_def] at h
  split at h
  · cases h
  · cases h
    exact ⟨rfl, rfl, rfl⟩

/-- A composition depends on the window, unless there is none. -/
theorem bind_compositionEvent_eq_iff {t t' : ProjectionTracker} {held : Option Json} :
    held.bind t.compositionEvent = held.bind t'.compositionEvent ↔
      t'.contextWindow = t.contextWindow ∨ held.bind t.compositionEvent = none := by
  cases held with
  | none => simp
  | some value =>
    rw [Option.bind_some, Option.bind_some, compositionEvent_eq_none]
    by_cases hsegments : segmentsOf value = []
    · rw [compositionEvent_eq_none.mpr hsegments, compositionEvent_eq_none.mpr hsegments]
      simp [hsegments]
    · have hsome : ¬ (segmentsOf value).isEmpty = true := by simpa using hsegments
      simp only [ProjectionTracker.compositionEvent, if_neg hsome, Option.some.injEq,
        Event.contextCompositionUpdated.injEq, ContextComposition.mk.injEq, true_and, and_true,
        hsegments, or_false]
      exact eq_comm

/-- The last events after more of them. -/
theorem says_append_iff {l : Ledger} (h : Says l) {t : ProjectionTracker} {events : List Event}
    {held : String → Option Json} : Says ⟨t, l.events ++ events, held⟩ ↔
      (lastOf isWindow events).or l.tracker.windowEvent = t.windowEvent ∧
      (lastOf isComposition events).or l.composition =
        (held "contextBreakdown").bind t.compositionEvent ∧
      (lastOf isPermission events).or l.permissions =
        permissionPresets t.permissionOptions t.permission := by
  rw [← h.window, ← h.composition, ← h.permissions, ← lastOf_append, ← lastOf_append,
    ← lastOf_append]
  exact ⟨fun h' => ⟨h'.window, h'.composition, h'.permissions⟩,
    fun ⟨hwindow, hcomposition, hpermissions⟩ => ⟨hwindow, hcomposition, hpermissions⟩⟩

theorem lastOf_window {t : ProjectionTracker} :
    lastOf isWindow t.windowEvent.toList = t.windowEvent ∧
      lastOf isComposition t.windowEvent.toList = none ∧
      lastOf isPermission t.windowEvent.toList = none :=
  ⟨lastOf_toList_of fun _ he => (isWindow_of_windowEvent he).1,
    lastOf_toList_not fun _ he => (isWindow_of_windowEvent he).2.1,
    lastOf_toList_not fun _ he => (isWindow_of_windowEvent he).2.2⟩

theorem lastOf_composition {t : ProjectionTracker} {value : Json} :
    lastOf isWindow (t.compositionEvent value).toList = none ∧
      lastOf isComposition (t.compositionEvent value).toList = t.compositionEvent value ∧
      lastOf isPermission (t.compositionEvent value).toList = none :=
  ⟨lastOf_toList_not fun _ he => (isComposition_of_compositionEvent he).1,
    lastOf_toList_of fun _ he => (isComposition_of_compositionEvent he).2.1,
    lastOf_toList_not fun _ he => (isComposition_of_compositionEvent he).2.2⟩

/-- The presets after a table and a current value are known. -/
theorem says_permissionEvent {l : Ledger} (h : Says l) {t : ProjectionTracker}
    (hwindow : t.windowEvent = l.tracker.windowEvent) {held : String → Option Json}
    (hcomposition : (held "contextBreakdown").bind t.compositionEvent = l.composition) :
    Says ⟨t.permissionEvent.1, l.events ++ t.permissionEvent.2, held⟩ ↔
      (permissionPresets t.permissionOptions t.permission = none → l.permissions = none) := by
  have hkind {event : Event} (hevent : event ∈ permissionPresets t.permissionOptions t.permission) :=
    isPermission_of_permissionPresets hevent
  have hevents : t.permissionEvent.2 =
      (permissionPresets t.permissionOptions t.permission).toList := rfl
  rw [says_append_iff h, hevents, lastOf_toList_not fun e he => (hkind he).1,
    lastOf_toList_not fun e he => (hkind he).2.1, lastOf_toList_of fun e he => (hkind he).2.2,
    Option.none_or, Option.none_or]
  have hpermissions : permissionPresets t.permissionEvent.1.permissionOptions
      t.permissionEvent.1.permission = permissionPresets t.permissionOptions t.permission := rfl
  rw [hpermissions, or_eq_left_iff]
  exact ⟨fun h' => h'.2.2, fun h' => ⟨hwindow.symm, hcomposition.symm, h'⟩⟩

/-- What the last events tell stays true exactly when the value fits. -/
theorem says_of_accepts {l : Ledger} {t : ProjectionTracker} (h : Says l)
    (ht : t = { l.tracker with seen := Function.update l.tracker.seen key (some seq) }) :
    Says
        { tracker := (t.applyUnit key value).1
          events := l.events ++ (t.applyUnit key value).2
          held := Function.update l.held key (some value) } ↔ FitsUnit l key value := by
  have hheld (hkey : "contextBreakdown" ≠ key) :
      Function.update l.held key (some value) "contextBreakdown" = l.held "contextBreakdown" :=
    Function.update_of_ne hkey _ _
  have hwindow : t.windowEvent = l.tracker.windowEvent := by rw [ht]; rfl
  have hcontext : t.contextWindow = l.tracker.contextWindow := by rw [ht]
  have hused : t.usedTokens = l.tracker.usedTokens := by rw [ht]
  have hpermissions : permissionPresets t.permissionOptions t.permission = l.permissions := by
    rw [ht]
    rfl
  rcases applyUnit_cases t key value with ⟨rfl, heq⟩ | ⟨rfl, heq⟩ | ⟨rfl, heq⟩ | ⟨rfl, heq⟩ |
    ⟨rfl, heq⟩ | ⟨hkey, heq, hquiet⟩
  · -- the totals are told with the window
    refine iff_of_true ?_ ⟨by simp, by simp, by simp⟩
    rw [heq, says_append_iff h, lastOf_window.1, lastOf_window.2.1, lastOf_window.2.2,
      Option.none_or, Option.none_or, hheld (by decide), or_eq_left_iff, isSome_windowEvent,
      isSome_windowEvent]
    exact ⟨fun hnone => hused ▸ hnone, bind_compositionEvent_eq_iff.mpr (.inl hcontext),
      hpermissions.symm⟩
  · rw [heq, says_append_iff h, lastOf_window.1, lastOf_window.2.1, lastOf_window.2.2,
      Option.none_or, Option.none_or, hheld (by decide), or_eq_left_iff, isSome_windowEvent,
      isSome_windowEvent]
    refine ⟨fun ⟨hfirst, hsecond, _⟩ => ⟨fun _ => ⟨hfirst, ?_⟩, by simp, by simp⟩, fun hfits => ?_⟩
    · exact bind_compositionEvent_eq_iff.mp hsecond
    · obtain ⟨hfirst, hsecond⟩ := hfits.1 rfl
      exact ⟨hfirst, bind_compositionEvent_eq_iff.mpr hsecond, hpermissions.symm⟩
  · rw [heq, says_append_iff h, lastOf_composition.1, lastOf_composition.2.1,
      lastOf_composition.2.2, Option.none_or, Option.none_or, Function.update_self,
      Option.bind_some, or_eq_left_iff, compositionEvent_eq_none]
    refine ⟨fun h' => ⟨by simp, fun _ => h'.2.1, by simp⟩, fun hfits => ?_⟩
    exact ⟨hwindow.symm, hfits.2.1 rfl, hpermissions.symm⟩
  · rw [heq, says_permissionEvent h ?_ ?_]
    · refine ⟨fun h' => ⟨by simp, by simp, fun _ => ?_⟩, fun hfits => ?_⟩
      · rw [ht] at h'
        exact h'
      · rw [ht]
        exact hfits.2.2 rfl
    · exact hwindow
    · rw [hheld (by decide)]
      exact (bind_compositionEvent_eq_iff.mpr (.inl hcontext)).symm
  · refine iff_of_true ?_ ⟨by simp, by simp, by simp⟩
    rw [heq, says_append_iff h, hheld (by decide)]
    exact ⟨hwindow.symm, bind_compositionEvent_eq_iff.mpr (.inl hcontext), hpermissions.symm⟩
  · simp only [mem_cons, not_mem_nil, or_false, not_or] at hkey
    obtain ⟨-, h2, h3, h4, -⟩ := hkey
    refine iff_of_true ?_ ⟨fun h' => absurd h' h2, fun h' => absurd h' h3, fun h' => absurd h' h4⟩
    rw [heq, says_append_iff h, hquiet.window, hquiet.composition, hquiet.permissions,
      Option.none_or, Option.none_or, Option.none_or, hheld (Ne.symm h3)]
    exact ⟨hwindow.symm, bind_compositionEvent_eq_iff.mpr (.inl hcontext), hpermissions.symm⟩

/-- The value of the control stream stays the one that is held exactly when the cursor fits. -/
theorem held_of_accepts (h : (run steps).tracker.accepts key seq = true) :
    some value = (expected key (steps ++ [.update live key value seq])).map Prod.snd ↔
      FitsCursor steps live key value seq := by
  rw [expected_update, if_pos ((accepts_run steps key seq).symm.trans h), FitsCursor]
  cases live with
  | true => simp
  | false =>
    cases hnewest : newest (updates true key steps) with
    | none => simp
    | some current =>
      obtain ⟨seq', value'⟩ := current
      by_cases hseq : seq' = seq
      · subst hseq
        simp
      · simp [hseq]

end

/-! ## Runs -/

theorem agrees_nil : Agrees [] where
  values _ := rfl
  holds := holds_run []
  last := ⟨rfl, rfl, rfl⟩

/-- One more step keeps the agreement exactly when it fits. -/
theorem agrees_snoc {steps : List Step} (h : Agrees steps) (step : Step) :
    Agrees (steps ++ [step]) ↔ Fits steps step := by
  have hsplit : Agrees (steps ++ [step]) ↔
      (∀ key, ((run steps).step step).held key = (expected key (steps ++ [step])).map Prod.snd) ∧
        Says ((run steps).step step) := by
    rw [← run_concat]
    exact ⟨fun h' => ⟨h'.values, h'.last⟩, fun h' => ⟨h'.1, holds_run _, h'.2⟩⟩
  rw [hsplit]
  cases step with
  | catalog catalog =>
    have hvalues (key : String) : ((run steps).step (.catalog catalog)).held key =
        (expected key (steps ++ [.catalog catalog])).map Prod.snd := by
      rw [expected_other fun _ _ _ => (by simp), ← h.values key]
      rfl
    exact (and_iff_right hvalues).trans (@says_permissionEvent _ h.last
      { (run steps).tracker with permissionOptions := catalog.get "options" } rfl _ rfl)
  | update live key value seq =>
    have hothers {other : String} (hne : other ≠ key) :
        expected other (steps ++ [.update live key value seq]) = expected other steps :=
      expected_other fun _ _ _ heq => hne (by cases heq; rfl)
    cases haccepts : (run steps).tracker.accepts key seq with
    | false =>
      rw [step_of_not_accepts haccepts]
      have hself : expected key (steps ++ [.update live key value seq]) = expected key steps := by
        rw [expected_update, if_neg]
        rw [← accepts_run, haccepts]
        exact Bool.false_ne_true
      refine iff_of_true ⟨fun other => ?_, h.last⟩ fun htrue => ?_
      · by_cases hother : other = key
        · subst hother
          rw [hself]
          exact h.values other
        · rw [hothers hother]
          exact h.values other
      · rw [haccepts] at htrue
        cases htrue
    | true =>
      obtain ⟨t, ht, hstep⟩ := step_of_accepts live value haccepts
      rw [hstep, says_of_accepts h.last ht, Fits, haccepts]
      dsimp only
      constructor
      · rintro ⟨hvalues, hfits⟩ -
        have hself := hvalues key
        rw [Function.update_self] at hself
        exact ⟨(held_of_accepts haccepts).mp hself, hfits⟩
      · intro hfits
        obtain ⟨hcursor, hunit⟩ := hfits rfl
        refine ⟨fun other => ?_, hunit⟩
        by_cases hother : other = key
        · subst hother
          rw [Function.update_self]
          exact (held_of_accepts haccepts).mpr hcursor
        · rw [Function.update_of_ne hother, hothers hother]
          exact h.values other

/-- Every state of a run agrees exactly when each step fits. -/
theorem agrees_iff (steps : List Step) :
    (∀ before, before <+: steps → Agrees before) ↔
      ∀ before step, before ++ [step] <+: steps → Fits before step := by
  constructor
  · intro h before step hprefix
    have hbefore := h before ((prefix_append _ _).trans hprefix)
    exact (agrees_snoc hbefore step).mp (h _ hprefix)
  · intro h before hprefix
    induction before using reverseRecOn with
    | nil => exact agrees_nil
    | append_singleton before step ih =>
      have hbefore := ih ((prefix_append _ _).trans hprefix)
      exact (agrees_snoc hbefore step).mpr (h before step hprefix)

/-- The breakdown of a page stands before its window, as the host writes them. -/
def page : Json :=
  .object [("contextBreakdown", .object [("systemTokens", .number (.integer 10))]),
    ("contextPressure", .object [("projectedTokens", .number (.integer 20)),
      ("contextWindow", .number (.integer 64000))])]

/-- The composition is told without the window that comes right after it. -/
theorem page_disagrees :
    (({} : ProjectionTracker).applyBaseline page (some 7)).1.contextWindow = some 64000 ∧
    lastOf isComposition (({} : ProjectionTracker).applyBaseline page (some 7)).2 =
      some (.contextCompositionUpdated
        ⟨10, none, none, none, [⟨"System prompt".toList, 10, none, false⟩]⟩) ∧
    ¬ Agrees [.update false "contextBreakdown" (page.get "contextBreakdown") 7,
      .update false "contextPressure" (page.get "contextPressure") 7] := by
  refine ⟨by decide +kernel, by decide +kernel, fun h ↦ ?_⟩
  have hcomposition := h.last.composition
  revert hcomposition
  decide +kernel

/-! ## Messages -/

inductive Message
  /-- A message of the control stream. -/
  | control (value : Json)
  /-- The projections of a history page. -/
  | page (values : Json) (seq : Option ℤ)
  | catalog (catalog : Json)

section

variable (sessionId : Str)

def receiveFrame (state : ProjectionTracker × List Event) (frame : Json) :
    ProjectionTracker × List Event :=
  match state.1.apply frame sessionId with
  | some (t, more) => (t, state.2 ++ more)
  | none => state

def receive (t : ProjectionTracker) : Message → ProjectionTracker × List Event
  | .control value => (onControl sessionId value).1.foldl (receiveFrame sessionId) (t, [])
  | .page values seq => t.applyBaseline values seq
  | .catalog catalog => t.applyPermissionCatalog catalog

/-- The steps of a message, when all of its values are numbered. -/
def stepsOf : Message → Option (List Step)
  | .control value =>
    ((onControl sessionId value).1.filterMap
      (ProjectionTracker.frameUpdate sessionId)).mapM fun (key, value, seq) =>
        seq.map fun seq => .update true key value seq
  | .page values seq =>
    (values.asObject.getD []).mapM fun (key, value) =>
      seq.map fun seq => .update false key value seq
  | .catalog catalog => some [.catalog catalog]

variable {sessionId} {l : Ledger}

/-- One value after the other. -/
def applyUpdate (state : ProjectionTracker × List Event) (key : String) (value : Json)
    (seq : Option ℤ) : ProjectionTracker × List Event :=
  let (t, more) := state.1.applyAt key value seq
  (t, state.2 ++ more)

theorem foldl_updates {α : Type} (unit : α → String × Json × Option ℤ) (l : Ledger)
    {items : List α} {steps : List Step} {live : Bool}
    (hsteps : items.mapM (fun item => (unit item).2.2.map
      (Step.update live (unit item).1 (unit item).2.1)) = some steps) (events : List Event) :
    ∃ more, items.foldl (fun state item => applyUpdate state (unit item).1 (unit item).2.1
        (unit item).2.2) (l.tracker, events) =
        ((steps.foldl Ledger.step l).tracker, events ++ more) ∧
      (steps.foldl Ledger.step l).events = l.events ++ more := by
  induction items generalizing l steps events with
  | nil =>
    cases hsteps
    exact ⟨[], by simp, by simp⟩
  | cons item rest ih =>
    rw [mapM_cons] at hsteps
    obtain ⟨step, hstep, hsteps⟩ := Option.bind_eq_some_iff.mp hsteps
    obtain ⟨more, hmore, hsteps⟩ := Option.bind_eq_some_iff.mp hsteps
    cases hsteps
    obtain ⟨seq, hseq, rfl⟩ := Option.map_eq_some_iff.mp hstep
    obtain ⟨last, hfold, hevents⟩ := ih
      (l.step (.update live (unit item).1 (unit item).2.1 seq)) hmore (events ++ (l.tracker.applyAt (unit item).1 (unit item).2.1 (some seq)).2)
    refine ⟨(l.tracker.applyAt (unit item).1 (unit item).2.1 (some seq)).2 ++ last, ?_, ?_⟩
    · rw [foldl_cons, hseq, foldl_cons, ← append_assoc]
      exact hfold
    · rw [foldl_cons, hevents, ← append_assoc]
      rfl

/-- A message is the steps it has. -/
theorem receive_steps {message : Message} {steps : List Step}
    (h : stepsOf sessionId message = some steps) :
    (steps.foldl Ledger.step l).tracker = (receive sessionId l.tracker message).1 ∧
      (steps.foldl Ledger.step l).events =
        l.events ++ (receive sessionId l.tracker message).2 := by
  cases message with
  | control value =>
    obtain ⟨more, hfold, hevents⟩ := foldl_updates id l h []
    have hreceive : receive sessionId l.tracker (.control value) =
        ((steps.foldl Ledger.step l).tracker, more) := by
      rw [nil_append] at hfold
      rw [receive, ← hfold, foldl_filterMap]
      congr 1
      funext state frame
      rw [receiveFrame, ProjectionTracker.apply]
      cases ProjectionTracker.frameUpdate sessionId frame <;> rfl
    rw [hreceive]
    exact ⟨rfl, hevents⟩
  | page values seq =>
    obtain ⟨more, hfold, hevents⟩ :=
      foldl_updates (fun member : String × Json => (member.1, member.2, seq)) l h []
    have hreceive : receive sessionId l.tracker (.page values seq) =
        ((steps.foldl Ledger.step l).tracker, more) := hfold
    rw [hreceive]
    exact ⟨rfl, hevents⟩
  | catalog catalog =>
    cases h
    exact ⟨rfl, rfl⟩

def receiveAll (sessionId : Str) (state : ProjectionTracker × List Event) :
    List Message → ProjectionTracker × List Event
  | [] => state
  | message :: rest =>
    let result := receive sessionId state.1 message
    receiveAll sessionId (result.1, state.2 ++ result.2) rest

/-- **What is received, message by message, is a run,** and the cursors are the highest numbers received. -/
theorem receiveAll_eq {messages : List Message} {steps : List (List Step)}
    (h : messages.mapM (stepsOf sessionId) = some steps) :
    receiveAll sessionId ({}, []) messages = ((run steps.flatten).tracker, (run steps.flatten).events) ∧
      ∀ key, (receiveAll sessionId ({}, []) messages).1.seen key = (expected key steps.flatten).map Prod.fst := by
  have hrun (l : Ledger) : receiveAll sessionId (l.tracker, l.events) messages =
      ((steps.flatten.foldl Ledger.step l).tracker, (steps.flatten.foldl Ledger.step l).events) := by
    induction messages generalizing l steps with
    | nil =>
      cases h
      rfl
    | cons message messages ih =>
      rw [mapM_cons] at h
      obtain ⟨first, hfirst, h⟩ := Option.bind_eq_some_iff.mp h
      obtain ⟨rest, hrest, h⟩ := Option.bind_eq_some_iff.mp h
      cases h
      obtain ⟨ht, he⟩ := receive_steps (l := l) hfirst
      rw [receiveAll, flatten_cons, foldl_append, ← ih hrest, ht, he]
  exact ⟨hrun {}, fun key => (congrArg (·.1.seen key) (hrun {})).trans (seen_run _ key)⟩

theorem receiveAll_page : (receiveAll [] ({}, []) [.page page (some 7)]).1.seen "contextPressure" = some 7 := by
  have hsteps : [Message.page page (some 7)].mapM (stepsOf []) = some _ := rfl
  exact (receiveAll_eq hsteps).2 "contextPressure"

end

end NiumaTerm.Dsh
