import NiumaTerm.ClaudeCode.Ledger
import NiumaTerm.Lib.Grouping

/-!
# The order in which effort changes settle

Replies to effort changes come in any order; `history` gives each change the first of its own.  The queue
is what follows the first change without a result, and the level is decided by what stands before it
(`perform_summary`), so the replies might as well come in the order of the changes.
-/

namespace NiumaTerm.ClaudeCode

open Rust List

/-! ## Runs -/

/-- An answer to a change, or that its time is over. -/
inductive Reply
  | resolve (id : Str) (error : Option Str)
  | expire (id : Str)

namespace Reply

def id : Reply → Str
  | resolve id _ => id
  | expire id => id

def result : Reply → ChangeResult
  | resolve _ error => error.elim .applied .rejected
  | expire _ => .unknown

end Reply

inductive Exchange
  | record (id value : Str)
  | reply (answer : Reply)

inductive EffortAct
  | record (id value : Str)
  | reply (answer : Reply)
  | close (message : Str)

def Exchange.act : Exchange → EffortAct
  | record id value => .record id value
  | reply answer => .reply answer

def EffortState.perform (e : EffortState) : EffortAct → Option Notice × EffortState
  | .record id value => (none, e.record id value)
  | .reply (.resolve id error) => e.resolve id error
  | .reply (.expire id) => e.expire id
  | .close message => e.close message

/-- Changes and replies, and the message of the close with the replies that come after it. -/
structure EffortRun where
  exchanges : List Exchange
  ending : Option (Str × List Reply)

/-- The changes that are recorded. -/
def submissions : List Exchange → List (Str × Str)
  | [] => []
  | .record id value :: rest => (id, value) :: submissions rest
  | .reply _ :: rest => submissions rest

/-- The replies that come when a change of their id is recorded, or is among the ones `seen`. -/
def answers (seen : List Str) : List Exchange → List Reply
  | [] => []
  | .record id _ :: rest => answers (id :: seen) rest
  | .reply answer :: rest =>
    if answer.id ∈ seen then answer :: answers seen rest else answers seen rest

/-- The other replies. -/
def strays (seen : List Str) : List Exchange → List Reply
  | [] => []
  | .record id _ :: rest => strays (id :: seen) rest
  | .reply answer :: rest =>
    if answer.id ∈ seen then strays seen rest else answer :: strays seen rest

def endingActs : Option (Str × List Reply) → List EffortAct
  | none => []
  | some (message, late) => .close message :: late.map .reply

namespace EffortRun

variable (run : EffortRun)

def ids : List Str := (submissions run.exchanges).map Prod.fst

def acts : List EffortAct := run.exchanges.map Exchange.act ++ endingActs run.ending

/-- The run with the replies to a change in their order, and the changes in theirs. -/
def inOrder : EffortRun where
  exchanges := (strays [] run.exchanges).map .reply ++
    (submissions run.exchanges).map (fun change => .record change.1 change.2) ++
      (Grouping.group Reply.id run.ids (answers [] run.exchanges)).map .reply
  ending := run.ending.map fun ending => (ending.1, Grouping.group Reply.id run.ids ending.2)

end EffortRun

/-! ## What a run says of each change -/

def EffortAct.resultFor (id : Str) : EffortAct → Option ChangeResult
  | record _ _ => none
  | reply answer => if answer.id = id then some answer.result else none
  | close message => some (.rejected message)

/-- A change has the first result that comes for it after it was recorded. -/
def history : List EffortAct → List Change
  | [] => []
  | .record id value :: rest =>
    ⟨id, value, rest.findSome? (EffortAct.resultFor id)⟩ :: history rest
  | _ :: rest => history rest

def Change.completed (change : Change) : Bool := change.result.isSome

def Change.isUnknown (change : Change) : Bool := change.result = some .unknown

def lastApplied (changes : List Change) : Option Str :=
  (changes.filter Change.isApplied).getLast?.map (·.value)

/-- The last uncertain one after the last applied one. -/
def lastUncertain (changes : List Change) : Option Str :=
  ((changes.rtakeWhile (!·.isApplied)).filter Change.isUnknown).getLast?.map (·.value)

def rejections (changes : List Change) : List (Str × Str) :=
  changes.filterMap fun change =>
    match change.result with
    | some (.rejected error) => some (change.id, error)
    | _ => none

/-- The last pending change, else the last uncertain one after the last applied one, else the last
applied one, else the initial level. -/
def level (initial : Option Str) (changes : List Change) : Option Str :=
  ((changes.dropWhile Change.completed).getLast?.map (·.value)).or
    ((lastUncertain (changes.takeWhile Change.completed)).or
      ((lastApplied (changes.takeWhile Change.completed)).or initial))

/-! ## What an act reports -/

/-- The change with the result that an act gives it. -/
def Change.answered (act : EffortAct) (change : Change) : Change :=
  { change with result := change.result.or (act.resultFor change.id) }

/-- The queue after the act, before it is settled. -/
def EffortState.marked (e : EffortState) (act : EffortAct) : List Change :=
  e.pending.map (Change.answered act) ++ history [act]

/-- The rejected changes that leave the queue, with their errors. -/
def EffortState.reported (e : EffortState) (act : EffortAct) : List (Str × Str) :=
  (e.pop (e.marked act)).1

def rejectionNotice (errors : List (Str × Str)) (effort : Option Str) : Option Notice :=
  if errors = [] then none
  else
    some { about := errors.map (·.1),
           event := .effortRejected (List.intercalate "; ".toList (errors.map (·.2))) effort }

/-- The rejections that are reported, and the state at the end. -/
def runEfforts (e : EffortState) : List EffortAct → List (Str × Str) × EffortState
  | [] => ([], e)
  | act :: rest =>
    let (errors, last) := runEfforts (e.perform act).2 rest
    (e.reported act ++ errors, last)

/-! ## One act -/

section

variable {initial : Option Str} {settled waiting changes : List Change} {act : EffortAct}

/-- The state for the changes that left the queue and those in it. -/
def summary (initial : Option Str) (settled waiting : List Change) : EffortState where
  confirmed := (lastApplied settled).or initial
  unconfirmed := lastUncertain settled
  pending := waiting
  applied := appliedIds settled

theorem lastApplied_concat (change : Change) : lastApplied (changes ++ [change]) =
    if change.isApplied then some change.value else lastApplied changes := by
  rw [lastApplied, filter_append, filter_singleton]
  cases change.isApplied with
  | true => rw [cond_true, getLast?_concat]; rfl
  | false => rw [cond_false, append_nil]; rfl

theorem lastUncertain_concat (change : Change) : lastUncertain (changes ++ [change]) =
    if change.isApplied then none
    else if change.isUnknown then some change.value else lastUncertain changes := by
  rw [lastUncertain, rtakeWhile_concat]
  cases change.isApplied with
  | true => rfl
  | false =>
    rw [Bool.not_false, if_pos rfl, filter_append, filter_singleton]
    cases change.isUnknown with
    | true => rw [cond_true, getLast?_concat]; rfl
    | false => rw [cond_false, append_nil]; rfl

theorem pop_summary : (summary initial settled waiting).pop changes =
    (rejections (changes.takeWhile Change.completed),
      summary initial (settled ++ changes.takeWhile Change.completed)
        (changes.dropWhile Change.completed)) := by
  induction changes generalizing settled with
  | nil =>
    rw [takeWhile_nil, append_nil]
    rfl
  | cons change rest ih =>
    cases hresult : change.result with
    | none =>
      have hopen : ¬change.completed := by simp [Change.completed, hresult]
      rw [takeWhile_cons_of_neg hopen, dropWhile_cons_of_neg hopen, append_nil]
      simp only [EffortState.pop, hresult]
      rfl
    | some result =>
      have hdone : change.completed := by simp [Change.completed, hresult]
      have hsplit : settled ++ change :: rest.takeWhile Change.completed =
          (settled ++ [change]) ++ rest.takeWhile Change.completed := by
        rw [append_assoc, singleton_append]
      rw [takeWhile_cons_of_pos hdone, dropWhile_cons_of_pos hdone, hsplit]
      have ih := @ih (settled ++ [change])
      rw [summary, lastApplied_concat, lastUncertain_concat, appliedIds, filter_append,
        filter_singleton] at ih
      cases result with
      | applied =>
        simpa [EffortState.pop, hresult, Change.isApplied, rejections, summary, appliedIds, ids]
          using ih
      | rejected error =>
        simp only [Change.isApplied, Change.isUnknown, hresult, Bool.false_eq_true, if_false,
          cond_false, append_nil, reduceCtorEq, decide_false, Option.some.injEq] at ih
        have hpop : (summary initial settled waiting).pop (change :: rest) =
            ((change.id, error) :: ((summary initial settled waiting).pop rest).1,
              ((summary initial settled waiting).pop rest).2) := by
          simp only [EffortState.pop, hresult]
        have hrejections : rejections (change :: rest.takeWhile Change.completed) =
            (change.id, error) :: rejections (rest.takeWhile Change.completed) := by
          simp only [rejections, filterMap_cons, hresult]
        have hsame : (summary initial settled waiting).pop rest = _ := ih
        rw [hpop, hrejections, hsame]
      | unknown =>
        simpa [EffortState.pop, hresult, Change.isApplied, Change.isUnknown, rejections, summary,
          appliedIds, ids] using ih

/-- The state after a run, by what the run says of its changes. -/
def stateOf (initial : Option Str) (changes : List Change) : EffortState :=
  summary initial (changes.takeWhile Change.completed) (changes.dropWhile Change.completed)

theorem settle_eq (e : EffortState) : e.settle =
    (rejectionNotice (e.pop e.pending).1 (e.pop e.pending).2.desired, (e.pop e.pending).2) := by
  rw [EffortState.settle, rejectionNotice]
  rcases e.pop e.pending with ⟨errors, e'⟩
  cases errors <;> rfl

variable {change : Change}

theorem answered_of_completed (h : change.completed = true) : change.answered act = change := by
  obtain ⟨result, hresult⟩ := Option.isSome_iff_exists.mp h
  rw [Change.answered, hresult, Option.some_or, ← hresult]

theorem answered_of_none (h : act.resultFor change.id = none) : change.answered act = change := by
  rw [Change.answered, h, Option.or_none]

theorem completed_of_settled
    (hchange : change ∈ changes.takeWhile Change.completed) : change.completed = true :=
  mem_takeWhile_imp hchange

theorem map_answered_settled : (changes.takeWhile Change.completed).map (Change.answered act) =
    changes.takeWhile Change.completed := by
  refine (map_congr_left fun change hchange => ?_).trans (map_id _)
  exact answered_of_completed (completed_of_settled hchange)

theorem pop_stateOf (more : List Change) : (stateOf initial changes).pop more =
    (rejections (more.takeWhile Change.completed),
      stateOf initial (changes.takeWhile Change.completed ++ more)) := by
  have hall : ∀ change ∈ changes.takeWhile Change.completed, change.completed = true :=
    fun _ => completed_of_settled
  rw [stateOf, pop_summary, stateOf, takeWhile_append_of_pos hall, dropWhile_append_of_pos hall]

/-- The first change in the queue has no result. -/
theorem takeWhile_waiting :
    (changes.dropWhile Change.completed).takeWhile Change.completed = [] := by
  rw [takeWhile_eq_nil_iff]
  exact fun hl => dropWhile_get_zero_not _ _ hl

theorem setResult_eq {answer : Reply} (hids : (ids changes).Nodup)
    (hchange : change ∈ changes) (hid : change.id = answer.id) (hnone : change.result = none) :
    EffortState.setResult answer.id answer.result changes =
      changes.map (Change.answered (.reply answer)) := by
  induction changes with
  | nil => cases hchange
  | cons first rest ih =>
    obtain ⟨hfirst, hrest⟩ := nodup_cons.mp hids
    rw [EffortState.setResult, map_cons]
    rcases mem_cons.mp hchange with rfl | hmem
    · have hsame : rest.map (Change.answered (.reply answer)) = rest := by
        refine (map_congr_left fun other hother => answered_of_none ?_).trans (map_id _)
        rw [EffortAct.resultFor, if_neg]
        intro heq
        exact hfirst (mem_map.mpr ⟨other, hother, heq.symm.trans hid.symm⟩)
      rw [if_pos hid, hsame, Change.answered, hnone, EffortAct.resultFor, if_pos hid.symm]
      rfl
    · have hne : first.id ≠ answer.id := by
        intro heq
        exact hfirst (mem_map.mpr ⟨change, hmem, hid.trans heq.symm⟩)
      rw [if_neg hne, ih hrest hmem, answered_of_none]
      rw [EffortAct.resultFor, if_neg (Ne.symm hne)]

/-- The queue is settled with the results of the act in it. -/
def EffortState.settledAfter (e : EffortState) (act : EffortAct) : Option Notice × EffortState :=
  (rejectionNotice (e.reported act) (e.pop (e.marked act)).2.desired, (e.pop (e.marked act)).2)

theorem settle_marked : { stateOf initial changes with
    pending := (stateOf initial changes).marked act }.settle =
      (stateOf initial changes).settledAfter act := by
  have hpop (waiting more : List Change) :
      (summary initial (changes.takeWhile Change.completed) waiting).pop more =
        (stateOf initial changes).pop more := by
    rw [pop_summary, stateOf, pop_summary]
  rw [settle_eq]
  exact congrArg (fun popped : List (Str × Str) × EffortState =>
    (rejectionNotice popped.1 popped.2.desired, popped.2)) (hpop _ _)

theorem settledAfter_open
    (h : ((stateOf initial changes).marked act).takeWhile Change.completed = []) :
    (stateOf initial changes).settledAfter act =
      (none, { stateOf initial changes with pending := (stateOf initial changes).marked act }) := by
  have hpop := @pop_summary initial (changes.takeWhile Change.completed)
    (changes.dropWhile Change.completed) ((stateOf initial changes).marked act)
  have hdrop := takeWhile_append_dropWhile (p := Change.completed)
    (l := (stateOf initial changes).marked act)
  rw [h, nil_append] at hdrop
  rw [h, hdrop, append_nil] at hpop
  rw [EffortState.settledAfter, EffortState.reported]
  exact congrArg (fun popped : List (Str × Str) × EffortState =>
    (rejectionNotice popped.1 popped.2.desired, popped.2)) hpop

theorem settledAfter_unchanged (h : ∀ change ∈ (stateOf initial changes).pending,
    act.resultFor change.id = none ∨ change.completed = true) (hact : history [act] = []) :
    (stateOf initial changes).settledAfter act = (none, stateOf initial changes) := by
  have hmarked : (stateOf initial changes).marked act = changes.dropWhile Change.completed := by
    rw [EffortState.marked, hact, append_nil]
    refine (map_congr_left fun change hchange => ?_).trans (map_id _)
    exact (h change hchange).elim answered_of_none answered_of_completed
  rw [settledAfter_open (by rw [hmarked, takeWhile_waiting]), hmarked]
  rfl

theorem conclude_stateOf {answer : Reply} (hids : (ids changes).Nodup) :
    (stateOf initial changes).conclude answer.id answer.result =
      (stateOf initial changes).settledAfter (.reply answer) := by
  have hpending : (ids (stateOf initial changes).pending).Nodup :=
    hids.sublist ((dropWhile_sublist _).map _)
  have hfor {id : Str} (hne : id ≠ answer.id) : (EffortAct.reply answer).resultFor id = none :=
    if_neg (Ne.symm hne)
  have hnothing : history [.reply answer] = [] := rfl
  by_cases hmem : ∃ change ∈ (stateOf initial changes).pending, change.id = answer.id
  · obtain ⟨change, hchange, hid⟩ := hmem
    cases hresult : change.result with
    | none =>
      rw [← hid, EffortState.conclude_eq hpending hchange hresult, hid,
        setResult_eq hpending hchange hid hresult, ← settle_marked, EffortState.marked, hnothing,
        append_nil]
    | some result =>
      rw [← hid, EffortState.conclude_of_result hpending hchange (by simp [hresult]),
        settledAfter_unchanged _ rfl]
      intro other hother
      by_cases hother' : other.id = answer.id
      · rw [inj_on_of_nodup_map hpending hother hchange (hother'.trans hid.symm)]
        exact .inr (by rw [Change.completed, hresult]; rfl)
      · exact .inl (hfor hother')
  · have hfind : (stateOf initial changes).pending.find? (fun change => change.id = answer.id) =
        none := by
      refine find?_eq_none.mpr fun change hchange hid => ?_
      exact hmem ⟨change, hchange, of_decide_eq_true hid⟩
    rw [EffortState.conclude, hfind, settledAfter_unchanged _ rfl]
    exact fun change hchange => .inl (hfor fun hid => hmem ⟨change, hchange, hid⟩)

theorem perform_stateOf (hids : (ids changes).Nodup) :
    (stateOf initial changes).perform act = (stateOf initial changes).settledAfter act := by
  cases act with
  | record id value =>
    have hmarked : (stateOf initial changes).marked (.record id value) =
        changes.dropWhile Change.completed ++ [⟨id, value, none⟩] := by
      rw [EffortState.marked]
      congr 1
      exact (map_congr_left fun change _ => answered_of_none rfl).trans (map_id _)
    have hopen : (changes.dropWhile Change.completed ++
        [(⟨id, value, none⟩ : Change)]).takeWhile Change.completed = [] := by
      rw [takeWhile_append, takeWhile_waiting]
      split_ifs with hnil
      · rw [length_eq_zero_iff.mp hnil.symm]
        rfl
      · rfl
    rw [settledAfter_open (by rw [hmarked, hopen]), hmarked]
    rfl
  | reply answer =>
    cases answer with
    | resolve id error => exact @conclude_stateOf initial changes (.resolve id error) hids
    | expire id => exact @conclude_stateOf initial changes (.expire id) hids
  | close message =>
    have hnothing : history [.close message] = [] := rfl
    rw [← settle_marked, EffortState.marked, hnothing, append_nil]
    rfl

/-- An act goes on with the history, and reports the rejections that settle with it. -/
theorem perform_summary (hids : (ids changes).Nodup) :
    (stateOf initial changes).perform act =
        (rejectionNotice ((stateOf initial changes).reported act)
            (stateOf initial (changes.map (Change.answered act) ++ history [act])).desired,
          stateOf initial (changes.map (Change.answered act) ++ history [act])) ∧
      rejections ((changes.map (Change.answered act) ++ history [act]).takeWhile
          Change.completed) =
        rejections (changes.takeWhile Change.completed) ++
          (stateOf initial changes).reported act := by
  have hchanges : changes.map (Change.answered act) ++ history [act] =
      changes.takeWhile Change.completed ++ (stateOf initial changes).marked act := by
    rw [EffortState.marked, stateOf, summary, ← append_assoc]
    dsimp only
    congr 1
    nth_rewrite 1 [← takeWhile_append_dropWhile (p := Change.completed) (l := changes)]
    rw [map_append, map_answered_settled]
  have hall : ∀ change ∈ changes.takeWhile Change.completed, change.completed = true :=
    fun _ => completed_of_settled
  have hsplit : rejections ((changes.takeWhile Change.completed ++
      (stateOf initial changes).marked act).takeWhile Change.completed) =
        rejections (changes.takeWhile Change.completed) ++
          rejections (((stateOf initial changes).marked act).takeWhile Change.completed) := by
    rw [takeWhile_append_of_pos hall, rejections, filterMap_append]
    rfl
  rw [perform_stateOf hids, EffortState.settledAfter, hchanges, hsplit, EffortState.reported,
    pop_stateOf]
  exact ⟨rfl, rfl⟩

theorem desired_stateOf : (stateOf initial changes).desired = level initial changes := rfl

end

/-! ## Histories -/

section

variable {acts more : List EffortAct} {act : EffortAct}

/-- What comes later gives results to the changes that have none. -/
theorem history_append (acts more : List EffortAct) : history (acts ++ more) =
    (history acts).map (fun change => { change with
      result := change.result.or (more.findSome? (EffortAct.resultFor change.id)) }) ++
        history more := by
  induction acts with
  | nil => rfl
  | cons act rest ih =>
    cases act with
    | record id value =>
      rw [cons_append, history, history, map_cons, cons_append, ih, findSome?_append]
    | reply answer | close message => exact ih

theorem history_concat : history (acts ++ [act]) =
    (history acts).map (Change.answered act) ++ history [act] := by
  rw [history_append]
  congr 1
  refine map_congr_left fun change _ => ?_
  rw [findSome?_singleton, Change.answered]

theorem ids_history_append : ids (history (acts ++ more)) =
    ids (history acts) ++ ids (history more) := by
  rw [history_append, ids, map_append, map_map]
  rfl

theorem runEfforts_concat (e : EffortState) : runEfforts e (acts ++ [act]) =
    ((runEfforts e acts).1 ++ (runEfforts e acts).2.reported act,
      ((runEfforts e acts).2.perform act).2) := by
  induction acts generalizing e with
  | nil =>
    rw [nil_append, runEfforts, runEfforts, runEfforts]
    dsimp only
    rw [append_nil, nil_append]
  | cons first rest ih =>
    rw [cons_append, runEfforts, ih, runEfforts, append_assoc]

/-- A run ends in the state of its history, and has reported the rejections that settled. -/
theorem runEfforts_eq (initial : Option Str) (hids : (ids (history acts)).Nodup) :
    runEfforts (.new initial) acts =
      (rejections ((history acts).takeWhile Change.completed), stateOf initial (history acts)) := by
  induction acts using reverseRecOn with
  | nil => rfl
  | append_singleton acts act ih =>
    have hbefore : (ids (history acts)).Nodup := by
      rw [ids_history_append] at hids
      exact hids.of_append_left
    obtain ⟨hperform, hreported⟩ := @perform_summary initial (history acts) act hbefore
    rw [runEfforts_concat, ih hbefore, history_concat, hreported, hperform]

/-! ## The order of the replies -/

theorem findSome?_answers {seen : List Str} {id : Str} (hid : id ∈ seen)
    (exchanges : List Exchange) :
    (exchanges.map Exchange.act).findSome? (EffortAct.resultFor id) =
      ((answers seen exchanges).map EffortAct.reply).findSome? (EffortAct.resultFor id) := by
  induction exchanges generalizing seen with
  | nil => rfl
  | cons exchange rest ih =>
    cases exchange with
    | record other value => exact ih (mem_cons_of_mem _ hid)
    | reply answer =>
      rw [map_cons, findSome?_cons, Exchange.act, answers, ih hid]
      split_ifs with hseen
      · rfl
      · have hnone : (EffortAct.reply answer).resultFor id = none :=
          if_neg fun heq : answer.id = id => hseen (heq ▸ hid)
        rw [hnone]

/-- A change has the first result of the replies that answer it, or of what comes after them. -/
theorem history_exchanges (exchanges : List Exchange) (seen : List Str)
    (hids : (seen ++ (submissions exchanges).map Prod.fst).Nodup) :
    history (exchanges.map Exchange.act ++ more) =
      (submissions exchanges).map (fun change => ⟨change.1, change.2,
        ((answers seen exchanges).map EffortAct.reply ++ more).findSome?
          (EffortAct.resultFor change.1)⟩) ++ history more := by
  induction exchanges generalizing seen with
  | nil => rfl
  | cons exchange rest ih =>
    cases exchange with
    | record id value =>
      have hrest : ((id :: seen) ++ (submissions rest).map Prod.fst).Nodup :=
        perm_middle.nodup_iff.mp hids
      rw [map_cons, Exchange.act, cons_append, history, ih (id :: seen) hrest,
        findSome?_append, findSome?_answers mem_cons_self, ← findSome?_append]
      rfl
    | reply answer =>
      rw [map_cons, Exchange.act, cons_append, history, ih seen hids, submissions, answers]
      · congr 1
        refine map_congr_left fun change hchange => ?_
        split_ifs with hseen
        · have hnone : (EffortAct.reply answer).resultFor change.1 = none := by
            refine if_neg fun heq => ?_
            exact (disjoint_of_nodup_append hids) hseen (heq ▸ mem_map_of_mem hchange)
          rw [map_cons, cons_append, findSome?_cons, hnone]
        · rfl
      · exact fun _ _ h => nomatch h

/-- The first result depends on the replies to the change alone. -/
theorem findSome?_replies {replies replies' : List Reply} {id : Str}
    (h : replies.filter (fun answer => answer.id = id) =
      replies'.filter fun answer => answer.id = id) :
    (replies.map EffortAct.reply).findSome? (EffortAct.resultFor id) =
      (replies'.map EffortAct.reply).findSome? (EffortAct.resultFor id) := by
  have hfilter (l : List Reply) :
      (l.map EffortAct.reply).findSome? (EffortAct.resultFor id) =
        (l.filter fun answer => answer.id = id).head?.map Reply.result := by
    induction l with
    | nil => rfl
    | cons answer rest ih =>
      rw [map_cons, findSome?_cons, EffortAct.resultFor]
      split_ifs with hid
      · rw [filter_cons_of_pos (by simpa using hid)]
        rfl
      · rw [filter_cons_of_neg (by simpa using hid), ← ih]
  rw [hfilter, hfilter, h]

theorem history_replies (replies : List Reply) (more : List EffortAct) :
    history (replies.map EffortAct.reply ++ more) = history more := by
  induction replies with
  | nil => rfl
  | cons answer rest ih => exact ih

theorem history_records (changes : List (Str × Str)) (more : List EffortAct) :
    history (changes.map (fun change => .record change.1 change.2) ++ more) =
      changes.map (fun change => ⟨change.1, change.2,
        more.findSome? (EffortAct.resultFor change.1)⟩) ++ history more := by
  have hrecords (id : Str) (l : List (Str × Str)) :
      (l.map (fun change => EffortAct.record change.1 change.2)).findSome?
        (EffortAct.resultFor id) = none := by
    rw [findSome?_eq_none_iff]
    rintro act hact
    obtain ⟨change, -, rfl⟩ := mem_map.mp hact
    rfl
  induction changes with
  | nil => rfl
  | cons change rest ih =>
    rw [map_cons, cons_append, history, ih, findSome?_append, hrecords, Option.none_or]
    rfl

theorem history_endingActs (ending : Option (Str × List Reply)) :
    history (endingActs ending) = [] := by
  cases ending with
  | none => rfl
  | some ending =>
    have hreplies := history_replies ending.2 []
    rwa [append_nil] at hreplies

/-- What comes after a close decides nothing. -/
theorem findSome?_endingActs (ending : Option (Str × List Reply)) (id : Str) :
    (endingActs ending).findSome? (EffortAct.resultFor id) =
      ending.map fun ending => .rejected ending.1 := by
  cases ending <;> rfl

theorem strays_perm (exchanges : List Exchange) (seen : List Str) :
    ((strays seen exchanges).map Exchange.reply ++
      ((submissions exchanges).map (fun change => Exchange.record change.1 change.2) ++
        (answers seen exchanges).map Exchange.reply)).Perm exchanges := by
  induction exchanges generalizing seen with
  | nil => exact .nil
  | cons exchange rest ih =>
    cases exchange with
    | record id value => exact perm_middle.trans ((ih (id :: seen)).cons _)
    | reply answer =>
      rw [strays, answers]
      split_ifs with hseen
      · rw [map_cons, submissions, ← append_assoc]
        refine perm_middle.trans (.cons _ ?_)
        rw [append_assoc]
        exact ih seen
      · exact (ih seen).cons _

namespace EffortRun

variable (run : EffortRun)

theorem acts_inOrder : run.inOrder.acts = (strays [] run.exchanges).map EffortAct.reply ++
    ((submissions run.exchanges).map (fun change => .record change.1 change.2) ++
      ((Grouping.group Reply.id run.ids (answers [] run.exchanges)).map EffortAct.reply ++
        endingActs run.inOrder.ending)) := by
  rw [acts, inOrder, map_append, map_append, map_map, map_map, map_map, append_assoc, append_assoc]
  rfl

theorem history_inOrder (hids : run.ids.Nodup) : history run.inOrder.acts = history run.acts := by
  have hexchanges := @history_exchanges (endingActs run.ending) run.exchanges []
    (by simpa [ids] using hids)
  rw [acts_inOrder, history_replies, history_records, history_replies, acts, hexchanges,
    history_endingActs, history_endingActs]
  congr 1
  refine map_congr_left fun change _ => ?_
  rw [findSome?_append, findSome?_append, findSome?_endingActs, findSome?_endingActs,
    findSome?_replies (Grouping.filter_group hids _ _), inOrder, Option.map_map]
  rfl

theorem ids_history (hids : run.ids.Nodup) :
    NiumaTerm.ClaudeCode.ids (history run.acts) = run.ids := by
  have hexchanges := @history_exchanges (endingActs run.ending) run.exchanges []
    (by simpa [ids] using hids)
  rw [acts, hexchanges, history_endingActs, append_nil, NiumaTerm.ClaudeCode.ids, map_map]
  rfl

theorem inOrder_perm (hids : run.ids.Nodup) : run.inOrder.acts.Perm run.acts := by
  refine List.Perm.append ((List.Perm.map _ ?_)) ?_
  · refine .trans ?_ (strays_perm run.exchanges [])
    rw [inOrder, append_assoc]
    exact .append_left _ (.append_left _ ((Grouping.group_perm hids _).map _))
  · rw [inOrder]
    cases run.ending with
    | none => exact .nil
    | some ending => exact .cons _ ((Grouping.group_perm hids _).map _)

end EffortRun

/-- The replies settle as if they came in the order of the changes; the desired level is read off
the history at any time, and a report carries it. -/
theorem efforts_settle_in_order (initial : Option Str) (run : EffortRun) (hids : run.ids.Nodup) :
    run.inOrder.acts.Perm run.acts ∧
    runEfforts (.new initial) run.inOrder.acts = runEfforts (.new initial) run.acts ∧
    (∀ before after, run.acts = before ++ after →
      (runEfforts (.new initial) before).2.desired = level initial (history before)) ∧
    ∀ before act after, run.acts = before ++ act :: after →
      ((runEfforts (.new initial) before).2.perform act).1 =
        rejectionNotice ((runEfforts (.new initial) before).2.reported act)
          ((runEfforts (.new initial) before).2.perform act).2.desired := by
  have hnodup : (ids (history run.acts)).Nodup := by rwa [run.ids_history hids]
  have hbefore {before after : List EffortAct} (hacts : run.acts = before ++ after) :
      (ids (history before)).Nodup := by
    rw [hacts, ids_history_append] at hnodup
    exact hnodup.of_append_left
  refine ⟨run.inOrder_perm hids, ?_, fun before after hacts ↦ ?_, fun before act after hacts ↦ ?_⟩
  · have hsame := run.history_inOrder hids
    rw [runEfforts_eq initial (hsame ▸ hnodup), runEfforts_eq initial hnodup, hsame]
  · rw [runEfforts_eq initial (hbefore hacts), desired_stateOf]
  · rw [runEfforts_eq initial (hbefore hacts), (perform_summary (hbefore hacts)).1]

/-- The answer to the second change comes first, then the first one is rejected, and the third one
gets no answer. -/
def threeEfforts : EffortRun where
  exchanges := [.record "a".toList "high".toList, .record "b".toList "max".toList,
    .reply (.resolve "b".toList none), .reply (.resolve "a".toList (some "unavailable".toList)),
    .record "c".toList "medium".toList]
  ending := some ("stopped".toList, [.resolve "c".toList none])

theorem threeEfforts_settle_in_order :
    (runEfforts (.new (some "low".toList)) threeEfforts.inOrder.acts =
      runEfforts (.new (some "low".toList)) threeEfforts.acts) ∧
    (runEfforts (.new (some "low".toList)) threeEfforts.acts).1 =
      [("a".toList, "unavailable".toList), ("c".toList, "stopped".toList)] ∧
    (runEfforts (.new (some "low".toList)) threeEfforts.acts).2.desired = some "max".toList :=
  ⟨(efforts_settle_in_order (some "low".toList) threeEfforts (by decide +kernel)).2.1,
    by decide +kernel, by decide +kernel⟩

end

end NiumaTerm.ClaudeCode
