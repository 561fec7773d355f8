import NiumaTerm.ClaudeCode.Control

/-!
# What is open on the control channel, and what settles it

`Desk` is what is open, and `Desk.load` counts it for one id.  `Desk.Settles` is the conservation law:
what was open is open still, or was reported or applied, each once.  Requests whose end need not be
reported (`Desk.silent`) may disappear.
-/

namespace NiumaTerm.ClaudeCode

open Rust Subprocess List

variable {Choice Form : Type}

/-! ## The queue of effort changes -/

/-- The change is not reported as uncertain. -/
def Change.live (change : Change) : Bool :=
  match change.result with
  | some .unknown => false
  | _ => true

def Change.isApplied (change : Change) : Bool :=
  match change.result with
  | some .applied => true
  | _ => false

def Change.isRejected (change : Change) : Bool :=
  match change.result with
  | some (.rejected _) => true
  | _ => false

def ids (changes : List Change) : List Str := changes.map (·.id)

def live (changes : List Change) : List Str := ids (changes.filter Change.live)

def appliedIds (changes : List Change) : List Str := ids (changes.filter Change.isApplied)

def rejectedIds (changes : List Change) : List Str := ids (changes.filter Change.isRejected)

theorem live_append (a b : List Change) : live (a ++ b) = live a ++ live b := by
  rw [live, filter_append, ids, map_append]
  rfl

/-- A live change with a result was applied or rejected. -/
theorem count_live {changes : List Change} (h : ∀ change ∈ changes, change.result ≠ none) (id : Str) :
    (live changes).count id = (rejectedIds changes).count id + (appliedIds changes).count id := by
  induction changes with
  | nil => rfl
  | cons change rest ih =>
    have ih := ih fun c hc => h c (mem_cons_of_mem _ hc)
    have hne := h change mem_cons_self
    unfold live rejectedIds appliedIds ids at ih ⊢
    rw [filter_cons, filter_cons, filter_cons]
    cases hr : change.result with
    | none => exact absurd hr hne
    | some r =>
      cases r with
      | applied | rejected error =>
        simp only [Change.live, Change.isRejected, Change.isApplied, hr, if_true, Bool.false_eq_true,
          if_false, map_cons, count_cons, ih]
        omega
      | unknown => simpa [Change.live, Change.isRejected, Change.isApplied, hr] using ih

namespace EffortState

variable {e : EffortState}

/-- The front of the queue up to the first change without a result is taken off. -/
theorem pop_cases (e : EffortState) (changes : List Change) : ∃ popped,
    changes = popped ++ (e.pop changes).2.pending ∧ (∀ change ∈ popped, change.result ≠ none) ∧
    (e.pop changes).1.map (·.1) = rejectedIds popped ∧
    (e.pop changes).2.applied = e.applied ++ appliedIds popped ∧
    ((∀ change ∈ changes, change.result ≠ none) → (e.pop changes).2.pending = []) := by
  induction changes generalizing e with
  | nil => exact ⟨[], rfl, by simp, rfl, by simp [pop, appliedIds, ids], fun _ => rfl⟩
  | cons change rest ih =>
    cases hr : change.result with
    | none =>
      refine ⟨[], by simp [pop, hr], by simp, by simp [pop, hr, rejectedIds, ids],
        by simp [pop, hr, appliedIds, ids], fun h => ?_⟩
      exact absurd hr (h change mem_cons_self)
    | some r =>
      have hall : ∀ popped : List Change, (∀ c ∈ popped, c.result ≠ none) →
          ∀ c ∈ change :: popped, c.result ≠ none := by
        intro popped hp c hc
        rcases mem_cons.mp hc with rfl | hc
        · simp [hr]
        · exact hp c hc
      have hrest : (∀ c ∈ change :: rest, c.result ≠ none) → ∀ c ∈ rest, c.result ≠ none :=
        fun h c hc => h c (mem_cons_of_mem _ hc)
      cases r with
      | applied =>
        obtain ⟨popped, h₁, h₂, h₃, h₄, h₅⟩ := ih { e with
          confirmed := some change.value, unconfirmed := none, applied := e.applied ++ [change.id] }
        simp only [pop, hr]
        refine ⟨change :: popped, by rw [cons_append, ← h₁], hall popped h₂, ?_, ?_, fun h => h₅ (hrest h)⟩
        · simpa [rejectedIds, ids, Change.isRejected, hr] using h₃
        · simp [h₄, appliedIds, ids, Change.isApplied, hr]
      | rejected error =>
        obtain ⟨popped, h₁, h₂, h₃, h₄, h₅⟩ := ih e
        simp only [pop, hr]
        refine ⟨change :: popped, by rw [cons_append, ← h₁], hall popped h₂, ?_, ?_, fun h => h₅ (hrest h)⟩
        · simpa [rejectedIds, ids, Change.isRejected, hr] using h₃
        · simpa [appliedIds, ids, Change.isApplied, hr] using h₄
      | unknown =>
        obtain ⟨popped, h₁, h₂, h₃, h₄, h₅⟩ := ih { e with unconfirmed := some change.value }
        simp only [pop, hr]
        refine ⟨change :: popped, by rw [cons_append, ← h₁], hall popped h₂, ?_, ?_, fun h => h₅ (hrest h)⟩
        · simpa [rejectedIds, ids, Change.isRejected, hr] using h₃
        · simpa [appliedIds, ids, Change.isApplied, hr] using h₄

theorem settle_cases (e : EffortState) : ∃ popped,
    e.pending = popped ++ e.settle.2.pending ∧ (∀ change ∈ popped, change.result ≠ none) ∧
    e.settle.1.toList.flatMap (·.about) = rejectedIds popped ∧
    e.settle.2.applied = e.applied ++ appliedIds popped ∧
    (∀ notice ∈ e.settle.1, ∃ message effort, notice.event = .effortRejected message effort) ∧
    ((∀ change ∈ e.pending, change.result ≠ none) → e.settle.2.pending = []) := by
  obtain ⟨popped, h₁, h₂, h₃, h₄, h₅⟩ := e.pop_cases e.pending
  refine ⟨popped, ?_⟩
  unfold settle
  generalize e.pop e.pending = r at h₁ h₃ h₄ h₅ ⊢
  obtain ⟨errors, e'⟩ := r
  cases errors with
  | nil => exact ⟨h₁, h₂, h₃, h₄, by simp, h₅⟩
  | cons error rest => exact ⟨h₁, h₂, by simpa using h₃, h₄, by simp, h₅⟩

theorem ids_setResult (id : Str) (r : ChangeResult) (changes : List Change) :
    ids (setResult id r changes) = ids changes := by
  induction changes with
  | nil => rfl
  | cons change rest ih =>
    unfold ids at ih ⊢
    rw [setResult]
    split_ifs <;> simp [ih]

variable {changes : List Change} {y : Change}

theorem mem_setResult_of_ne {id : Str} {r : ChangeResult} {x : Change}
    (hx : x.id ≠ id) : x ∈ setResult id r changes ↔ x ∈ changes := by
  induction changes with
  | nil => exact Iff.rfl
  | cons change rest ih =>
    rw [setResult]
    split_ifs with h
    · rw [mem_cons, mem_cons]
      refine or_congr ⟨?_, ?_⟩ Iff.rfl
      · rintro rfl
        exact absurd h hx
      · rintro rfl
        exact absurd h hx
    · rw [mem_cons, mem_cons, ih]

theorem result_of_mem_setResult {id : Str} {r : ChangeResult} {x : Change}
    (hn : (ids changes).Nodup) (hx : x ∈ setResult id r changes) (he : x.id = id) : x.result = some r := by
  induction changes with
  | nil => cases hx
  | cons change rest ih =>
    rw [ids, map_cons, nodup_cons] at hn
    rw [setResult] at hx
    split_ifs at hx with h
    · rcases mem_cons.mp hx with rfl | hx
      · rfl
      · refine absurd ?_ hn.1
        rw [h, ← he]
        exact mem_map_of_mem hx
    · rcases mem_cons.mp hx with rfl | hx
      · exact absurd he h
      · exact ih hn.2 hx

/-- A change without a result stays live with one, unless it becomes uncertain. -/
theorem count_live_setResult (hn : (ids changes).Nodup)
    (hy : y ∈ changes) (hr : y.result = none) (r : ChangeResult) (k : Str) :
    (live changes).count k =
      (live (setResult y.id r changes)).count k + if r = .unknown ∧ k = y.id then 1 else 0 := by
  induction changes with
  | nil => cases hy
  | cons change rest ih =>
    rw [ids, map_cons, nodup_cons] at hn
    rw [setResult]
    rcases mem_cons.mp hy with rfl | hy
    · rw [if_pos rfl]
      by_cases hk : k = y.id
      · cases r <;> simp [live, ids, filter_cons, Change.live, hr, hk]
      · cases r <;> simp [live, ids, filter_cons, Change.live, hr, hk, Ne.symm hk]
    · have hne : change.id ≠ y.id := by
        intro h
        rw [h] at hn
        exact hn.1 (mem_map_of_mem hy)
      rw [if_neg hne]
      have ih := ih hn.2 hy
      unfold live ids at ih ⊢
      rw [filter_cons, filter_cons]
      by_cases hl : change.live
      · rw [if_pos hl, if_pos hl]
        simp only [map_cons, count_cons]
        omega
      · rw [if_neg hl, if_neg hl]
        exact ih

theorem conclude_eq {e : EffortState} (hn : (ids e.pending).Nodup) (hy : y ∈ e.pending)
    (hr : y.result = none) (r : ChangeResult) :
    e.conclude y.id r = { e with pending := setResult y.id r e.pending }.settle := by
  have hf : e.pending.find? (fun change => change.id = y.id) = some y := by
    cases hf : e.pending.find? (fun change => change.id = y.id) with
    | none => exact absurd (find?_eq_none.mp hf y hy) (by simp)
    | some z =>
      have hz : z.id = y.id := by simpa using find?_some hf
      rw [inj_on_of_nodup_map hn (mem_of_find?_eq_some hf) hy hz]
  rw [conclude, hf]
  dsimp only
  rw [if_neg (by simp [hr])]

theorem conclude_of_result {e : EffortState} (hn : (ids e.pending).Nodup) (hy : y ∈ e.pending)
    (hr : y.result ≠ none) (r : ChangeResult) : e.conclude y.id r = (none, e) := by
  rw [conclude]
  cases hf : e.pending.find? (fun change => change.id = y.id) with
  | none => rfl
  | some z =>
    have hz : z.id = y.id := by simpa using find?_some hf
    have : z = y := inj_on_of_nodup_map hn (mem_of_find?_eq_some hf) hy hz
    dsimp only
    rw [if_pos (by rw [this]; exact Option.isSome_iff_ne_none.mpr hr)]

end EffortState

/-! ## The law -/

def PendingControlOperation.completes : PendingControlOperation → Bool
  | .fileRewind | .sideQuestion _ => true
  | _ => false

/-- An event must say how the request ended, or the change must be applied. -/
def PendingControlOperation.owed (operation : PendingControlOperation) : Bool :=
  operation.completes || operation = .effort

/-- The events that may report on a request. -/
def Reports : PendingControlOperation → Event → Prop
  | .init, .ready _ | .init, .error _ true => True
  | .effort, .effortRejected _ _ | .effort, .error _ false => True
  | .other, .error _ false => True
  | .fileRewind, .fileRewindCompleted _ => True
  | .contextComposition, .contextCompositionUpdated _ | .contextComposition, .error _ false => True
  | .sessionTitle, .titleUpdated _ | .sessionTitle, .error _ false => True
  | .sideQuestion question, .sideQuestionAnswered id _ => id = question
  | _, _ => False

structure Desk where
  table : List ExpiredControl
  changes : List Change

def ControlState.desk (c : ControlState Choice Form) : Desk where
  table := c.pending.map .ofEntry
  changes := c.effort.pending

def keys (table : List ExpiredControl) : List Str := table.map (·.id)

/-- The requests of the table that are not effort changes. -/
def plain (table : List ExpiredControl) : List Str := keys (table.filter fun x => x.operation ≠ .effort)

/-- How often a notice is about a request. -/
def reports (notices : List Notice) (id : Str) : ℕ := (notices.flatMap (·.about)).count id

theorem reports_append (a b : List Notice) (id : Str) : reports (a ++ b) id = reports a id + reports b id := by
  rw [reports, flatMap_append, count_append]
  rfl

namespace Desk

def load (d : Desk) (id : Str) : ℕ := (plain d.table).count id + (live d.changes).count id

def silent (d : Desk) : List Str := keys (d.table.filter fun x => !x.operation.owed)

/-- The request is open. -/
def Awaits (d : Desk) (id : Str) (operation : PendingControlOperation) : Prop :=
  (operation ≠ .effort ∧ ∃ x ∈ d.table, x.id = id ∧ x.operation = operation) ∨
    operation = .effort ∧ id ∈ live d.changes

/-- The table and the queue of effort changes fit together. -/
structure Wf (d : Desk) : Prop where
  keys : (keys d.table).Nodup
  ids : (ids d.changes).Nodup
  effort : ∀ x ∈ d.table, x.operation = .effort → ∃ y ∈ d.changes, y.id = x.id ∧ y.result = none
  unanswered : ∀ y ∈ d.changes, y.result = none → ∃ x ∈ d.table, x.id = y.id ∧ x.operation = .effort
  only : ∀ x ∈ d.table, ∀ y ∈ d.changes, x.id = y.id → x.operation = .effort

/-- Between two states of the desk, with the notices given and the changes applied meanwhile. -/
structure Settles (d : Desk) (notices : List Notice) (applied : List Str) (d' : Desk) : Prop where
  wf : d'.Wf
  table : ∀ x ∈ d'.table, x ∈ d.table
  changes : ∀ id ∈ ids d'.changes, id ∈ ids d.changes
  live : ∀ id ∈ live d'.changes, id ∈ live d.changes
  confirms : ∀ id ∈ applied, id ∈ ClaudeCode.live d.changes
  fewer : ∀ id, reports notices id + applied.count id + d'.load id ≤ d.load id
  whole : ∀ id ∉ d.silent, reports notices id + applied.count id + d'.load id = d.load id
  about : ∀ notice ∈ notices, ∀ id ∈ notice.about, ∃ operation, d.Awaits id operation ∧
    Reports operation notice.event

variable {d d' d'' : Desk} {notices notices' : List Notice} {applied applied' : List Str}

variable {id : Str} {table : List ExpiredControl} {x : ExpiredControl}

theorem mem_silent : id ∈ d.silent ↔ ∃ x ∈ d.table, x.operation.owed = false ∧ x.id = id := by
  simp [silent, keys, and_assoc]

theorem Settles.awaits (h : d.Settles notices applied d') {operation : PendingControlOperation}
    (ha : d'.Awaits id operation) : d.Awaits id operation := by
  obtain ⟨hne, x, hx, hid, hop⟩ | ⟨he, hl⟩ := ha
  · exact .inl ⟨hne, x, h.table x hx, hid, hop⟩
  · exact .inr ⟨he, h.live id hl⟩

theorem Settles.of_wf (h : d.Wf) (hn : ∀ notice ∈ notices, notice.about = []) :
    d.Settles notices [] d := by
  have hz : ∀ id, reports notices id = 0 := by
    intro id
    rw [reports, count_eq_zero]
    intro hi
    obtain ⟨notice, hm, hi⟩ := mem_flatMap.mp hi
    rw [hn notice hm] at hi
    cases hi
  refine ⟨h, fun _ => id, fun _ => id, fun _ => id, by simp, fun id => ?_, fun id _ => ?_, fun notice hm id hi => ?_⟩
  · rw [hz, count_nil, Nat.zero_add]
  · rw [hz, count_nil, Nat.zero_add]
  · rw [hn notice hm] at hi
    cases hi

theorem Settles.trans (h : d.Settles notices applied d') (h' : d'.Settles notices' applied' d'') :
    d.Settles (notices ++ notices') (applied ++ applied') d'' := by
  refine ⟨h'.wf, fun x hx => h.table x (h'.table x hx), fun id hi => h.changes id (h'.changes id hi),
    fun id hi => h.live id (h'.live id hi), fun id hi => ?_, fun id => ?_, fun id hi => ?_, fun notice hn id hi => ?_⟩
  · rcases mem_append.mp hi with hi | hi
    · exact h.confirms id hi
    · exact h.live id (h'.confirms id hi)
  · have h₁ := h.fewer id
    have h₂ := h'.fewer id
    rw [reports_append, count_append]
    omega
  · have hi' : id ∉ d'.silent := by
      intro hs
      obtain ⟨x, hx, ho, hid⟩ := mem_silent.mp hs
      exact hi (mem_silent.mpr ⟨x, h.table x hx, ho, hid⟩)
    have h₁ := h.whole id hi
    have h₂ := h'.whole id hi'
    rw [reports_append, count_append]
    omega
  · rcases mem_append.mp hn with hn | hn
    · exact h.about notice hn id hi
    · obtain ⟨operation, ha, hr⟩ := h'.about notice hn id hi
      exact ⟨operation, h.awaits ha, hr⟩

/-- The order of the notices of one step does not matter. -/
theorem Settles.perm (h : d.Settles notices applied d') (hp : notices'.Perm notices) :
    d.Settles notices' applied d' := by
  have hr : ∀ id, reports notices' id = reports notices id := fun id => (hp.flatMap_right _).count_eq id
  refine ⟨h.wf, h.table, h.changes, h.live, h.confirms, fun id => ?_, fun id hi => ?_, fun notice hn => ?_⟩
  · rw [hr]
    exact h.fewer id
  · rw [hr]
    exact h.whole id hi
  · exact h.about notice (hp.mem_iff.mp hn)

/-! ### Rules -/

theorem plain_filter (table : List ExpiredControl) (id : Str) :
    plain (table.filter fun x => x.id ≠ id) = (plain table).filter (· ≠ id) := by
  rw [plain, plain, keys, keys, filter_map, filter_comm]
  rfl

theorem count_plain_filter (table : List ExpiredControl) (id k : Str) :
    (plain (table.filter fun x => x.id ≠ id)).count k = if k = id then 0 else (plain table).count k := by
  rw [plain_filter]
  split_ifs with h
  · rw [count_eq_zero]
    intro hk
    simpa [h] using (mem_filter.mp hk).2
  · exact count_filter (by simpa using h)

theorem Wf.eq_of_id (h : d.Wf) {x y : ExpiredControl} (hx : x ∈ d.table) (hy : y ∈ d.table)
    (he : x.id = y.id) : x = y := inj_on_of_nodup_map h.keys hx hy he

theorem Wf.change_eq (h : d.Wf) {x y : Change} (hx : x ∈ d.changes) (hy : y ∈ d.changes)
    (he : x.id = y.id) : x = y := inj_on_of_nodup_map h.ids hx hy he

theorem mem_plain : id ∈ plain table ↔ ∃ x ∈ table, x.operation ≠ .effort ∧ x.id = id := by
  simp [plain, keys, and_assoc]

theorem plain_nodup (h : (keys table).Nodup) : (plain table).Nodup :=
  h.sublist (filter_sublist.map _)

theorem reports_single {id k : Str} {event : Option Event} :
    reports (event.toList.map fun event => { about := [id], event }) k =
      if k = id then event.toList.length else 0 := by
  cases event with
  | none => simp [reports]
  | some event =>
    by_cases h : k = id
    · simp [reports, h]
    · simp [reports, h, Ne.symm h]

/-- A request leaves the table, with the event that reports it. -/
theorem Settles.drop (h : d.Wf) (hx : x ∈ d.table) (he : x.operation ≠ .effort)
    (event : Option Event) (hr : ∀ e ∈ event, Reports x.operation e)
    (hc : x.operation.completes = true → event.isSome) :
    d.Settles (event.toList.map fun event => { about := [x.id], event }) []
      { d with table := d.table.filter fun y => y.id ≠ x.id } := by
  have hone : (plain d.table).count x.id = 1 :=
    count_eq_one_of_mem (plain_nodup h.keys) (mem_plain.mpr ⟨x, hx, he, rfl⟩)
  have hlen : event.toList.length ≤ 1 := by cases event <;> simp
  refine ⟨⟨?_, h.ids, ?_, ?_, ?_⟩, fun y hy => (mem_filter.mp hy).1, fun _ => id, fun _ => id, by simp,
    fun k => ?_, fun k hk => ?_, fun notice hn k hk => ?_⟩
  · exact h.keys.sublist (filter_sublist.map _)
  · exact fun y hy => h.effort y (mem_filter.mp hy).1
  · intro y hy hn
    obtain ⟨z, hz, hid, hop⟩ := h.unanswered y hy hn
    refine ⟨z, mem_filter.mpr ⟨hz, ?_⟩, hid, hop⟩
    rw [decide_eq_true_eq]
    intro hzx
    rw [h.eq_of_id hz hx hzx] at hop
    exact he hop
  · exact fun y hy => h.only y (mem_filter.mp hy).1
  · rw [reports_single, count_nil, load, load, count_plain_filter]
    dsimp only
    split_ifs with hkx
    · rw [hkx, hone]
      omega
    · omega
  · rw [reports_single, count_nil, load, load, count_plain_filter]
    dsimp only
    split_ifs with hkx
    · have howed : x.operation.owed = true := by
        by_contra ho
        exact hk (mem_silent.mpr ⟨x, hx, (Bool.not_eq_true _).mp ho, hkx.symm⟩)
      have hcomp : x.operation.completes = true := by
        simpa [PendingControlOperation.owed, he] using howed
      obtain ⟨e, rfl⟩ := Option.isSome_iff_exists.mp (hc hcomp)
      rw [hkx, hone]
      simp
    · omega
  · obtain ⟨e, hem, rfl⟩ := mem_map.mp hn
    rw [mem_singleton] at hk
    exact ⟨x.operation, .inl ⟨he, x, hx, hk.symm, rfl⟩, hr e (Option.mem_toList.mp hem)⟩

/-- A request that is not in the table cannot leave it. -/
theorem filter_of_not_mem (h : id ∉ keys table) : table.filter (fun x => x.id ≠ id) = table := by
  rw [filter_eq_self]
  intro x hx
  rw [decide_eq_true_eq]
  rintro rfl
  exact h (mem_map_of_mem hx)

theorem Settles.of_table_perm (h : d.Wf) (hp : table.Perm d.table) :
    d.Settles [] [] { d with table } := by
  have hplain : ∀ k, (plain table).count k = (plain d.table).count k :=
    fun k => ((hp.filter _).map _).count_eq k
  refine ⟨⟨?_, h.ids, ?_, ?_, ?_⟩, fun y hy => hp.mem_iff.mp hy, fun _ => id, fun _ => id, by simp, fun k => ?_,
    fun k _ => ?_, fun notice hn => ?_⟩
  · exact (hp.map _).nodup_iff.mpr h.keys
  · exact fun y hy => h.effort y (hp.mem_iff.mp hy)
  · intro y hy hn
    obtain ⟨z, hz, hzy⟩ := h.unanswered y hy hn
    exact ⟨z, hp.mem_iff.mpr hz, hzy⟩
  · exact fun y hy => h.only y (hp.mem_iff.mp hy)
  · simp [reports, load, hplain]
  · simp [reports, load, hplain]
  · cases hn

theorem mem_live {changes : List Change} :
    id ∈ live changes ↔ ∃ y ∈ changes, y.live = true ∧ y.id = id := by
  simp [ClaudeCode.live, ClaudeCode.ids, and_assoc]

/-- An effort change gets its result: it leaves the table, and the front of the queue is taken off.
`extra` reports a change that becomes uncertain. -/
theorem Settles.conclude (h : d.Wf) {e : EffortState} (he : e.pending = d.changes)
    (hx : x ∈ d.table) (hop : x.operation = .effort) (r : ChangeResult) (extra : List Notice)
    (hextra : ∀ k, reports extra k = if r = .unknown ∧ k = x.id then 1 else 0)
    (habout : ∀ notice ∈ extra, ∀ id ∈ notice.about, id = x.id ∧ Reports .effort notice.event) :
    ∃ applied, (e.conclude x.id r).2.applied = e.applied ++ applied ∧
      d.Settles ((e.conclude x.id r).1.toList ++ extra) applied
        { table := d.table.filter fun y => y.id ≠ x.id, changes := (e.conclude x.id r).2.pending } := by
  obtain ⟨y, hy, hid, hr⟩ := h.effort x hx hop
  have hn : (ClaudeCode.ids e.pending).Nodup := he ▸ h.ids
  rw [← hid, EffortState.conclude_eq hn (he ▸ hy) hr]
  set marked := EffortState.setResult y.id r e.pending with hmarked
  obtain ⟨popped, hsplit, hpop, habt, happ, hev, -⟩ :=
    EffortState.settle_cases { e with pending := marked }
  dsimp only at hsplit happ
  generalize { e with pending := marked }.settle = settled at hsplit habt happ hev ⊢
  obtain ⟨notice, e'⟩ := settled
  dsimp only at hsplit habt happ hev ⊢
  have hids : ClaudeCode.ids popped ++ ClaudeCode.ids e'.pending = ClaudeCode.ids d.changes := by
    rw [← he, ← EffortState.ids_setResult y.id r e.pending, ← hmarked, hsplit, ClaudeCode.ids, ClaudeCode.ids,
      ClaudeCode.ids, map_append]
  have hmem : ∀ z ∈ e'.pending, z ∈ marked := fun z hz => hsplit ▸ mem_append_right _ hz
  -- A change that is left without a result is none of the popped ones, and was there before.
  have hleft : ∀ z ∈ e'.pending, z.result = none → z ∈ d.changes ∧ z.id ≠ x.id := by
    intro z hz hnone
    have hne : z.id ≠ y.id := by
      intro heq
      rw [EffortState.result_of_mem_setResult hn (hmem z hz) heq] at hnone
      cases hnone
    exact ⟨he ▸ (EffortState.mem_setResult_of_ne hne).mp (hmem z hz), hid ▸ hne⟩
  have hcount : ∀ k, (ClaudeCode.live d.changes).count k = (rejectedIds popped).count k +
      (appliedIds popped).count k + (ClaudeCode.live e'.pending).count k +
        if r = .unknown ∧ k = x.id then 1 else 0 := by
    intro k
    have h₁ := EffortState.count_live_setResult hn (he ▸ hy) hr r k
    rw [← hmarked, hsplit, live_append, count_append, count_live hpop, he, hid] at h₁
    omega
  have hplain : ∀ k, (plain (d.table.filter fun z => z.id ≠ y.id)).count k = (plain d.table).count k := by
    intro k
    rw [count_plain_filter]
    split_ifs with hk
    · symm
      rw [count_eq_zero, mem_plain]
      rintro ⟨z, hz, hzop, hzk⟩
      rw [h.eq_of_id hz hx (hzk.trans (hk.trans hid))] at hzop
      exact hzop hop
    · rfl
  have hreports : ∀ k, reports (notice.toList ++ extra) k =
      (rejectedIds popped).count k + if r = .unknown ∧ k = x.id then 1 else 0 := by
    intro k
    rw [reports_append, hextra, reports, habt]
  have hlaw : ∀ k, reports (notice.toList ++ extra) k + (appliedIds popped).count k +
      load { table := d.table.filter fun z => z.id ≠ y.id, changes := e'.pending } k = d.load k := by
    intro k
    have := hcount k
    rw [hreports, load, load]
    dsimp only
    rw [hplain]
    omega
  refine ⟨appliedIds popped, happ, ⟨?_, ?_, ?_, ?_, ?_⟩, ?_, ?_, ?_, ?_, fun k => (hlaw k).le,
    fun k _ => hlaw k, ?_⟩
  · exact h.keys.sublist (filter_sublist.map _)
  · have := h.ids
    rw [← hids] at this
    exact this.sublist (sublist_append_right _ _)
  · intro z hz hzop
    obtain ⟨hz, hzid⟩ := mem_filter.mp hz
    have hzid : z.id ≠ y.id := by simpa using hzid
    obtain ⟨w, hw, hwid, hwr⟩ := h.effort z hz hzop
    have hwm : w ∈ marked := (EffortState.mem_setResult_of_ne (hwid ▸ hzid)).mpr (he ▸ hw)
    rw [hsplit] at hwm
    rcases mem_append.mp hwm with hwp | hwe
    · exact absurd hwr (hpop w hwp)
    · exact ⟨w, hwe, hwid, hwr⟩
  · intro z hz hnone
    obtain ⟨hzd, hzx⟩ := hleft z hz hnone
    obtain ⟨w, hw, hwid, hwop⟩ := h.unanswered z hzd hnone
    refine ⟨w, mem_filter.mpr ⟨hw, ?_⟩, hwid, hwop⟩
    rw [decide_eq_true_eq, hwid, hid]
    exact hzx
  · intro z hz w hw hzw
    obtain ⟨hz, -⟩ := mem_filter.mp hz
    have : z.id ∈ ClaudeCode.ids d.changes := by
      rw [← hids, hzw]
      exact mem_append_right _ (mem_map_of_mem hw)
    obtain ⟨v, hv, hvid⟩ := mem_map.mp this
    exact h.only z hz v hv hvid.symm
  · exact fun z hz => (mem_filter.mp hz).1
  · intro id hi
    rw [← hids]
    exact mem_append_right _ hi
  · intro id hi
    have hi : id ∈ ClaudeCode.live e'.pending := hi
    have := hcount id
    have hpos := count_pos_iff.mpr hi
    exact count_pos_iff.mp (by omega)
  · intro id hi
    have := hcount id
    have hpos := count_pos_iff.mpr hi
    exact count_pos_iff.mp (by omega)
  · intro n hn' id hi
    refine ⟨.effort, .inr ⟨rfl, ?_⟩, ?_⟩
    · have hpos : 0 < reports (notice.toList ++ extra) id :=
        count_pos_iff.mpr (mem_flatMap.mpr ⟨n, hn', hi⟩)
      have := hcount id
      rw [hreports] at hpos
      exact count_pos_iff.mp (by omega)
    · rcases mem_append.mp hn' with hn' | hn'
      · obtain ⟨message, effort, hev⟩ := hev n (Option.mem_toList.mp hn')
        rw [hev]
        trivial
      · exact (habout n hn' id hi).2

theorem failPending_eq (operation : PendingControlOperation) (message : Str) :
    (failPendingControlOperation message operation).isSome = operation.completes := by
  cases operation <;> rfl

theorem reports_failPending (operations : List (Str × PendingControlOperation)) (message : Str) (k : Str) :
    reports (failPendingControlOperations operations message) k =
      ((operations.filter (·.2.completes)).map (·.1)).count k := by
  induction operations with
  | nil => rfl
  | cons entry rest ih =>
    unfold reports failPendingControlOperations at ih ⊢
    have hs := failPending_eq entry.2 message
    cases he : failPendingControlOperation message entry.2 with
    | none =>
      rw [he] at hs
      rw [filterMap_cons_none (by simp [he]), ih, filter_cons_of_neg (by simp [← hs])]
    | some event =>
      rw [he] at hs
      rw [filterMap_cons_some (b := { about := [entry.1], event }) (by simp [he]), flatMap_cons,
        count_append, ih, filter_cons_of_pos (by simp [← hs])]
      simp [count_cons, Nat.add_comm]

theorem mem_failPending {operations : List (Str × PendingControlOperation)} {message : Str}
    {notice : Notice} (h : notice ∈ failPendingControlOperations operations message) :
    ∃ entry ∈ operations, notice.about = [entry.1] ∧ entry.2 ≠ .effort ∧ Reports entry.2 notice.event := by
  obtain ⟨⟨id, operation⟩, hm, he⟩ := mem_filterMap.mp h
  refine ⟨(id, operation), hm, ?_⟩
  obtain ⟨event, hev, rfl⟩ := Option.map_eq_some_iff.mp he
  cases operation with
  | fileRewind =>
    obtain rfl := Option.some.inj hev
    exact ⟨rfl, by simp, trivial⟩
  | sideQuestion question =>
    obtain rfl := Option.some.inj hev
    exact ⟨rfl, by simp, rfl⟩
  | init | effort | other | contextComposition | sessionTitle => cases hev

theorem live_map_close (message : Str) (changes : List Change) :
    ClaudeCode.live (changes.map fun change =>
      { change with result := change.result.or (some (.rejected message)) }) =
        ClaudeCode.live changes := by
  induction changes with
  | nil => rfl
  | cons change rest ih =>
    unfold ClaudeCode.live ClaudeCode.ids at ih ⊢
    rw [map_cons, filter_cons, filter_cons]
    cases hr : change.result with
    | none => simpa [Change.live, hr] using ih
    | some r => cases r <;> simpa [Change.live, hr] using ih

/-- Everything ends: what is owed an event gets one, and every effort change gets a result. -/
theorem Settles.close (h : d.Wf) (e : EffortState) (he : e.pending = d.changes) (message : Str)
    {operations : List (Str × PendingControlOperation)} {prompts : List Notice}
    (hprompts : ∀ notice ∈ prompts, notice.about = [])
    (hoperations : ∀ entry ∈ operations, ∃ x ∈ d.table, x.id = entry.1 ∧ x.operation = entry.2)
    (hnodup : (operations.map (·.1)).Nodup)
    (hall : ∀ x ∈ d.table, x.operation.completes = true → (x.id, x.operation) ∈ operations) :
    ∃ applied, (e.close message).2.applied = e.applied ++ applied ∧ (e.close message).2.pending = [] ∧
      d.Settles (prompts ++ (e.close message).1.toList ++ failPendingControlOperations operations message)
        applied { table := [], changes := [] } := by
  unfold EffortState.close
  dsimp only
  set marked := e.pending.map fun change =>
    { change with result := change.result.or (some (.rejected message)) } with hmarked
  obtain ⟨popped, hsplit, hpop, habt, happ, hev, hend⟩ :=
    EffortState.settle_cases { e with pending := marked }
  have hresults : ∀ change ∈ marked, change.result ≠ none := by
    intro change hc
    obtain ⟨y, -, rfl⟩ := mem_map.mp hc
    simp
  have hend := hend hresults
  generalize { e with pending := marked }.settle = settled at hsplit habt happ hev hend ⊢
  obtain ⟨notice, e'⟩ := settled
  dsimp only at hsplit habt happ hev hend ⊢
  rw [hend, append_nil] at hsplit
  have hlive : ∀ k, (ClaudeCode.live d.changes).count k =
      (rejectedIds popped).count k + (appliedIds popped).count k := by
    intro k
    rw [← count_live hpop, ← hsplit, hmarked, live_map_close, he]
  set failed := (operations.filter (·.2.completes)).map (·.1) with hfailed
  have hfailedOne : failed.Nodup := hnodup.sublist (filter_sublist.map _)
  have hplainOne := plain_nodup h.keys
  have hsub : ∀ k ∈ failed, k ∈ plain d.table := by
    intro k hk
    obtain ⟨entry, hm, rfl⟩ := mem_map.mp hk
    obtain ⟨hm, hc⟩ := mem_filter.mp hm
    obtain ⟨x, hx, hid, hop⟩ := hoperations entry hm
    refine mem_plain.mpr ⟨x, hx, ?_, hid⟩
    intro heff
    rw [← hop, heff] at hc
    cases hc
  have hprompt : ∀ k, reports prompts k = 0 := by
    intro k
    rw [reports, count_eq_zero]
    intro hk
    obtain ⟨n, hn, hk⟩ := mem_flatMap.mp hk
    rw [hprompts n hn] at hk
    cases hk
  have hreports : ∀ k, reports (prompts ++ notice.toList ++ failPendingControlOperations operations message) k =
      (rejectedIds popped).count k + failed.count k := by
    intro k
    rw [reports_append, reports_append, hprompt, reports_failPending, reports, habt, Nat.zero_add]
  refine ⟨appliedIds popped, happ, hend, ⟨nodup_nil, nodup_nil, by simp, by simp, by simp⟩,
    by simp, by simp [ClaudeCode.ids], by simp [ClaudeCode.live, ClaudeCode.ids], fun k hk => ?_, fun k => ?_,
    fun k hk => ?_, ?_⟩
  · have hpos := count_pos_iff.mpr hk
    have := hlive k
    exact count_pos_iff.mp (by omega)
  · have hle : failed.count k ≤ (plain d.table).count k := by
      by_cases hk : k ∈ failed
      · rw [count_eq_one_of_mem hfailedOne hk, count_eq_one_of_mem hplainOne (hsub k hk)]
      · rw [count_eq_zero.mpr hk]
        exact Nat.zero_le _
    rw [hreports, load, load, hlive]
    simp only [plain, keys, ClaudeCode.live, ClaudeCode.ids, filter_nil, map_nil, count_nil] at hle ⊢
    omega
  · have heq : failed.count k = (plain d.table).count k := by
      by_cases hkp : k ∈ plain d.table
      · obtain ⟨x, hx, hne, rfl⟩ := mem_plain.mp hkp
        have howed : x.operation.owed = true := by
          by_contra ho
          exact hk (mem_silent.mpr ⟨x, hx, (Bool.not_eq_true _).mp ho, rfl⟩)
        have hcomp : x.operation.completes = true := by
          simpa [PendingControlOperation.owed, hne] using howed
        have hkf : x.id ∈ failed :=
          mem_map.mpr ⟨_, mem_filter.mpr ⟨hall x hx hcomp, hcomp⟩, rfl⟩
        rw [count_eq_one_of_mem hfailedOne hkf, count_eq_one_of_mem hplainOne hkp]
      · rw [count_eq_zero.mpr hkp, count_eq_zero.mpr fun hf => hkp (hsub k hf)]
    rw [hreports, load, load, hlive]
    simp only [plain, keys, ClaudeCode.live, ClaudeCode.ids, filter_nil, map_nil, count_nil] at heq ⊢
    omega
  · intro n hn id hi
    rcases mem_append.mp hn with hn | hn
    · rcases mem_append.mp hn with hn | hn
      · rw [hprompts n hn] at hi
        cases hi
      · refine ⟨.effort, .inr ⟨rfl, ?_⟩, ?_⟩
        · have hid : id ∈ rejectedIds popped := by
            rw [← habt]
            exact mem_flatMap.mpr ⟨n, hn, hi⟩
          have hpos := count_pos_iff.mpr hid
          have := hlive id
          exact count_pos_iff.mp (by omega)
        · obtain ⟨m, effort, hev⟩ := hev n (Option.mem_toList.mp hn)
          rw [hev]
          trivial
    · obtain ⟨entry, hm, hab, hne, hr⟩ := mem_failPending hn
      rw [hab, mem_singleton] at hi
      obtain ⟨x, hx, hid, hop⟩ := hoperations entry hm
      exact ⟨entry.2, .inl ⟨hne, x, hx, hid.trans hi.symm, hop⟩, hr⟩

/-- Requests that are owed nothing leave the table without a word. -/
theorem Settles.forget (h : d.Wf) (p : ExpiredControl → Bool)
    (hp : ∀ x ∈ d.table, p x = false → x.operation.owed = false) :
    d.Settles [] [] { d with table := d.table.filter p } := by
  have hplain : ∀ k, (plain (d.table.filter p)).count k ≤ (plain d.table).count k := fun k =>
    ((filter_sublist.filter _).map _).count_le k
  refine ⟨⟨?_, h.ids, fun y hy => h.effort y (mem_filter.mp hy).1, ?_,
    fun y hy => h.only y (mem_filter.mp hy).1⟩, fun y hy => (mem_filter.mp hy).1, fun _ => id,
    fun _ => id, by simp, fun k => ?_, fun k hk => ?_, by simp⟩
  · exact h.keys.sublist (filter_sublist.map _)
  · intro y hy hn
    obtain ⟨z, hz, hid, hop⟩ := h.unanswered y hy hn
    refine ⟨z, mem_filter.mpr ⟨hz, ?_⟩, hid, hop⟩
    by_contra hpz
    have := hp z hz ((Bool.not_eq_true _).mp hpz)
    simp [PendingControlOperation.owed, hop] at this
  · have := hplain k
    simp only [reports, flatMap_nil, count_nil, Nat.zero_add, load]
    omega
  · have heq : (plain (d.table.filter p)).count k = (plain d.table).count k := by
      refine le_antisymm (hplain k) ?_
      by_cases hkp : k ∈ plain d.table
      · obtain ⟨x, hx, hne, rfl⟩ := mem_plain.mp hkp
        have hpx : p x = true := by
          by_contra hpx
          exact hk (mem_silent.mpr ⟨x, hx, hp x hx ((Bool.not_eq_true _).mp hpx), rfl⟩)
        rw [count_eq_one_of_mem (plain_nodup h.keys) hkp]
        exact count_pos_iff.mpr (mem_plain.mpr ⟨x, mem_filter.mpr ⟨hx, hpx⟩, hne, rfl⟩)
      · rw [count_eq_zero.mpr hkp]
        exact Nat.zero_le _
    simp only [reports, flatMap_nil, count_nil, Nat.zero_add, load, heq]

end Desk

/-! ## The operations of the control state -/

namespace ControlState

variable (c : ControlState Choice Form)

theorem desk_complete (id : Str) : (c.complete id).desk =
    { c.desk with table := c.desk.table.filter fun x => x.id ≠ id } := by
  simp only [desk, complete, filter_map]
  rfl

theorem table_complete (id : Str) :
    (c.complete id).pending.map .ofEntry = c.desk.table.filter fun x => x.id ≠ id :=
  congrArg Desk.table (c.desk_complete id)

variable {id : Str}

theorem mem_effort_pending : c.effort.contains id = true ↔ id ∈ ids c.effort.pending := by
  simp [EffortState.contains, ids]

theorem mem_keys_desk : id ∈ keys c.desk.table ↔ id ∈ c.pending.map (·.1) := by
  simp [keys, desk, ExpiredControl.ofEntry]

theorem filter_of_fresh (h : id ∉ keys c.desk.table) :
    c.pending.filter (fun entry => entry.1 ≠ id) = c.pending := by
  rw [filter_eq_self]
  intro entry he
  rw [decide_eq_true_eq]
  rintro rfl
  exact h (c.mem_keys_desk.mpr (mem_map_of_mem he))

/-- A new request goes to the end of the table. -/
theorem desk_admitEntry (hc : c.closed = false) (h : id ∉ keys c.desk.table)
    (requestClass : RequestClass) (input : Option InputTicket) (operation : PendingControlOperation)
    (now : ℕ) : (c.admitEntry id requestClass input operation now).desk =
      { table := c.desk.table ++ [{ id, requestClass, input, operation }], changes := c.desk.changes } := by
  rw [admitEntry, if_neg (by simp [hc]), c.filter_of_fresh h]
  simp only [desk, map_append]
  rfl

theorem complete_of_not_mem (h : id ∉ keys c.desk.table) : c.complete id = c := by
  rw [complete, c.filter_of_fresh h]

theorem mem_desk_of_lookup {pending : PendingControl} (h : c.pending.lookup id = some pending) :
    ExpiredControl.ofEntry (id, pending) ∈ c.desk.table := by
  obtain ⟨before, after, hs, -⟩ := lookup_eq_some_iff.mp h
  rw [desk, hs]
  exact mem_map_of_mem (mem_append_right _ mem_cons_self)

theorem lookup_eq_none (h : c.pending.lookup id = none) : id ∉ keys c.desk.table := by
  rw [mem_keys_desk, mem_map]
  rintro ⟨entry, he, rfl⟩
  have := lookup_eq_none_iff.mp h entry he
  simp at this

theorem operationResolved_reports {operation : PendingControlOperation} {response : Json} {event : Event}
    (h : operationResolved operation response = some event) (he : operation ≠ .effort) :
    Reports operation event := by
  cases operation with
  | init => cases h
  | effort => exact absurd rfl he
  | other =>
    obtain ⟨message, -, rfl⟩ := Option.map_eq_some_iff.mp h
    trivial
  | fileRewind =>
    obtain rfl := Option.some.inj h
    trivial
  | contextComposition =>
    unfold operationResolved at h
    dsimp only at h
    split_ifs at h
    obtain ⟨composition, -, rfl⟩ := Option.map_eq_some_iff.mp h
    trivial
  | sessionTitle =>
    unfold operationResolved at h
    dsimp only at h
    split_ifs at h
    obtain ⟨title, -, rfl⟩ := Option.map_eq_some_iff.mp h
    trivial
  | sideQuestion question =>
    obtain rfl := Option.some.inj h
    exact rfl

theorem operationResolved_isSome {operation : PendingControlOperation} (h : operation.completes = true)
    (response : Json) : (operationResolved operation response).isSome := by
  cases operation with
  | fileRewind | sideQuestion question => rfl
  | init | effort | other | contextComposition | sessionTitle => cases h

theorem not_mem_keys_of_result (h : c.desk.Wf) {y : Change} (hy : y ∈ c.effort.pending)
    (hr : y.result ≠ none) : y.id ∉ keys c.desk.table := by
  intro hk
  obtain ⟨x, hx, hxy⟩ := mem_map.mp hk
  obtain ⟨z, hz, hzx, hzn⟩ := h.effort x hx (h.only x hx y hy hxy)
  rw [h.change_eq hz hy (hzx.trans hxy)] at hzn
  exact hr hzn

theorem contains_of_effort (h : c.desk.Wf) {x : ExpiredControl} (hx : x ∈ c.desk.table)
    (hop : x.operation = .effort) : c.effort.contains x.id = true := by
  obtain ⟨y, hy, hid, -⟩ := h.effort x hx hop
  rw [mem_effort_pending, ← hid]
  exact mem_map_of_mem hy

/-- An answer settles the request it names. -/
theorem settles_resolve (h : c.desk.Wf) (response : Json) :
    ∃ applied, (c.resolve response).2.effort.applied = c.effort.applied ++ applied ∧
      c.desk.Settles (c.resolve response).1.toList applied (c.resolve response).2.desk := by
  unfold resolve
  cases hid : (response.get "request_id").asStr with
  | none => exact ⟨[], (append_nil _).symm, .of_wf h (by simp)⟩
  | some id =>
    dsimp only
    by_cases hc : c.effort.contains id
    · rw [if_pos (show (c.complete id).effort.contains id = true from hc)]
      obtain ⟨y, hy, rfl⟩ := mem_map.mp (c.mem_effort_pending.mp hc)
      by_cases hr : y.result = none
      · obtain ⟨x, hx, hxid, hop⟩ := h.unanswered y hy hr
        rw [← hxid]
        obtain ⟨applied, happ, hs⟩ := Desk.Settles.conclude h rfl hx hop
          ((controlResponseError response).elim .applied .rejected) []
          (fun k => by cases controlResponseError response <;> simp [reports]) (by simp)
        rw [append_nil, ← c.table_complete] at hs
        exact ⟨applied, happ, hs⟩
      · have hn := c.not_mem_keys_of_result h hy hr
        have hcon : (c.complete y.id).effort.resolve y.id (controlResponseError response) = (none, c.effort) :=
          EffortState.conclude_of_result h.ids hy hr _
        rw [hcon]
        refine ⟨[], (append_nil _).symm, ?_⟩
        rw [c.complete_of_not_mem hn]
        exact .of_wf h (by simp)
    · rw [if_neg (show ¬ (c.complete id).effort.contains id = true from hc)]
      refine ⟨[], (append_nil _).symm, ?_⟩
      cases hl : c.pending.lookup id with
      | none =>
        rw [c.complete_of_not_mem (c.lookup_eq_none hl)]
        exact .of_wf h (by simp)
      | some pending =>
        have hx := c.mem_desk_of_lookup hl
        have hop : pending.operation ≠ .effort := fun hop => hc (c.contains_of_effort h hx hop)
        have hs := Desk.Settles.drop h hx hop _ (fun e he => operationResolved_reports he hop)
          fun hcomp => operationResolved_isSome hcomp response
        rw [c.desk_complete]
        rwa [Option.bind_some, Option.toList_map]

/-- An answer that names no request in the table is not reported. -/
theorem resolve_of_not_mem (h : c.desk.Wf) {response : Json}
    (hid : (response.get "request_id").asStr = some id) (hn : id ∉ keys c.desk.table) :
    (c.resolve response).1 = none := by
  unfold resolve
  rw [hid]
  dsimp only
  split_ifs with hc
  · obtain ⟨y, hy, rfl⟩ := mem_map.mp (c.mem_effort_pending.mp hc)
    have hr : y.result ≠ none := by
      intro hr
      obtain ⟨x, hx, hxid, -⟩ := h.unanswered y hy hr
      exact hn (hxid ▸ mem_map_of_mem hx)
    have hcon : (c.complete y.id).effort.resolve y.id (controlResponseError response) = (none, c.effort) :=
      EffortState.conclude_of_result h.ids hy hr _
    rw [hcon]
  · cases hl : c.pending.lookup id with
    | none => rfl
    | some pending => exact absurd (mem_map_of_mem (c.mem_desk_of_lookup hl)) hn

/-- Closing ends what is in the table and in the queue.  `table` may have more than the control state's
own, if nothing in it is owed an event. -/
theorem settles_close {table : List ExpiredControl} (h : Desk.Wf { table, changes := c.effort.pending })
    (hnodup : (keys c.desk.table).Nodup) (hsub : ∀ x ∈ c.desk.table, x ∈ table)
    (hrest : ∀ x ∈ table, x.operation.completes = true → x ∈ c.desk.table) (message : Str)
    (stdin : Queue Json) :
    ∃ applied, (c.close message stdin).2.1.effort.applied = c.effort.applied ++ applied ∧
      (c.close message stdin).2.1.desk = { table := [], changes := [] } ∧
      Desk.Settles { table, changes := c.effort.pending } (c.close message stdin).1 applied
        { table := [], changes := [] } := by
  have hops : (c.pending.map fun entry => (entry.1, entry.2.operation)) =
      c.desk.table.map fun x => (x.id, x.operation) := by
    rw [desk, map_map]
    rfl
  have hprompts : ∀ notice ∈ ({ c with closed := true, pending := [] } : ControlState Choice Form).finishTurn.1,
      notice.about = [] := by
    intro notice hn
    simp only [finishTurn, mem_append, mem_map, Option.mem_toList, Option.map_eq_some_iff] at hn
    obtain (⟨-, -, rfl⟩ | ⟨-, -, rfl⟩) | ⟨-, -, rfl⟩ := hn <;> rfl
  have hoperations : ∀ entry ∈ c.desk.table.map (fun x => (x.id, x.operation)),
      ∃ x ∈ table, x.id = entry.1 ∧ x.operation = entry.2 := by
    intro entry he
    obtain ⟨x, hx, rfl⟩ := mem_map.mp he
    exact ⟨x, hsub x hx, rfl, rfl⟩
  have hdistinct : ((c.desk.table.map fun x => (x.id, x.operation)).map (·.1)).Nodup := by
    rw [map_map]
    exact hnodup
  have hall : ∀ x ∈ table, x.operation.completes = true →
      (x.id, x.operation) ∈ c.desk.table.map fun x => (x.id, x.operation) :=
    fun x hx hcomp => mem_map.mpr ⟨x, hrest x hx hcomp, rfl⟩
  obtain ⟨applied, happ, hpend, hs⟩ :=
    Desk.Settles.close h c.effort rfl message hprompts hoperations hdistinct hall
  refine ⟨applied, happ, ?_, ?_⟩
  · simp only [close, desk, finishTurn, map_nil, Desk.mk.injEq, true_and]
    exact hpend
  · rw [← hops] at hs
    exact hs

end ControlState

end NiumaTerm.ClaudeCode
