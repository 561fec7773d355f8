import Mathlib.Data.List.Induction

/-!
# Logs whose rows are completed by key

A log only grows, except that a new row with the key of a row that is held is merged into the first that
takes it (`add`).  A bounded log keeps its last rows, and stays the end of the unbounded one as long as
no new row has the key of a row that was cut (`retain_addAll`).
-/

namespace KeyedLog

open List

variable {Row Key : Type*}

/-- What the rows of a log are known by, and how a new row completes an older one. -/
structure Rules (Row Key : Type*) where
  key : Row → Option Key
  merge : Row → Row → Option Row
  key_merge : ∀ {row new merged : Row}, merge row new = some merged → key merged = key row
  merge_key : ∀ {row new merged : Row}, merge row new = some merged →
    (key new).isSome ∧ key row = key new

variable (R : Rules Row Key)

/-- The log holds a row with the key of the new one. -/
def holds [DecidableEq Key] (rows : List Row) (new : Row) : Bool :=
  (R.key new).isSome && rows.any fun row => R.key row = R.key new

def mergeFirst (new : Row) : List Row → List Row
  | [] => []
  | row :: rest =>
    match R.merge row new with
    | some merged => merged :: rest
    | none => row :: mergeFirst new rest

def add [DecidableEq Key] (rows : List Row) (new : Row) : List Row :=
  if holds R rows new then mergeFirst R new rows else rows ++ [new]

def addAll [DecidableEq Key] (rows news : List Row) : List Row := news.foldl (add R) rows

/-- Keep the last rows. -/
def retain (limit : ℕ) (rows : List Row) : List Row := rows.drop (rows.length - limit)

def Fresh (rows : List Row) (new : Row) : Prop :=
  (R.key new).isSome → ∀ row ∈ rows, R.key row ≠ R.key new

variable {R} {rows cut news : List Row} {new : Row}

/-! ## Merging -/

theorem mergeFirst_append (h : Fresh R cut new) :
    mergeFirst R new (cut ++ rows) = cut ++ mergeFirst R new rows := by
  induction cut with
  | nil => rfl
  | cons row rest ih =>
    have hrest : Fresh R rest new := fun hkey r hr => h hkey r (mem_cons_of_mem _ hr)
    rw [cons_append, mergeFirst]
    cases hm : R.merge row new with
    | none =>
      rw [ih hrest]
      rfl
    | some merged =>
      obtain ⟨hkey, heq⟩ := R.merge_key hm
      exact absurd heq (h hkey row mem_cons_self)

theorem map_key_mergeFirst : (mergeFirst R new rows).map R.key = rows.map R.key := by
  induction rows with
  | nil => rfl
  | cons row rest ih =>
    rw [mergeFirst]
    cases hm : R.merge row new with
    | none => rw [map_cons, map_cons, ih]
    | some merged => rw [map_cons, map_cons, R.key_merge hm]

/-- The first row that takes the new one is the one that changes. -/
theorem mergeFirst_eq_modify :
    mergeFirst R new rows =
      (rows.findIdx? fun row => (R.merge row new).isSome).elim rows fun index =>
        rows.modify index fun row => (R.merge row new).getD row := by
  induction rows with
  | nil => rfl
  | cons row rest ih =>
    rw [mergeFirst, findIdx?_cons]
    cases hm : R.merge row new with
    | some merged => simp [hm]
    | none =>
      rw [ih]
      cases rest.findIdx? fun row => (R.merge row new).isSome <;> rfl

theorem length_mergeFirst : (mergeFirst R new rows).length = rows.length := by
  rw [← length_map R.key, map_key_mergeFirst, length_map]

section

variable [DecidableEq Key]

theorem holds_eq_false : holds R rows new = false ↔ Fresh R rows new := by
  rw [holds, Bool.and_eq_false_imp, Fresh]
  refine imp_congr_right fun _ => ?_
  simp

theorem add_of_fresh (h : Fresh R rows new) : add R rows new = rows ++ [new] := by
  rw [add, holds_eq_false.mpr h]
  rfl

theorem add_append (h : Fresh R cut new) : add R (cut ++ rows) new = cut ++ add R rows new := by
  have hcut : holds R cut new = false := holds_eq_false.mpr h
  have hholds : holds R (cut ++ rows) new = holds R rows new := by
    rw [holds, any_append, Bool.and_or_distrib_left]
    exact (congrArg (· || _) hcut).trans (Bool.false_or _)
  rw [add, add, hholds, mergeFirst_append h]
  split
  · rfl
  · rw [append_assoc]

theorem addAll_append (h : ∀ new ∈ news, Fresh R cut new) :
    addAll R (cut ++ rows) news = cut ++ addAll R rows news := by
  induction news generalizing rows with
  | nil => rfl
  | cons new rest ih =>
    rw [addAll, foldl_cons, add_append (h new mem_cons_self)]
    exact ih fun n hn => h n (mem_cons_of_mem _ hn)

theorem addAll_of_keyless (h : ∀ new ∈ news, R.key new = none) :
    addAll R rows news = rows ++ news := by
  induction news generalizing rows with
  | nil => exact (append_nil rows).symm
  | cons new rest ih =>
    obtain ⟨hnew, hrest⟩ := forall_mem_cons.mp h
    have hfresh : Fresh R rows new := fun hsome => by
      rw [hnew] at hsome
      cases hsome
    rw [addAll, foldl_cons, add_of_fresh hfresh, ← addAll, ih hrest, append_assoc]
    rfl

/-- What new rows have and merging keeps, all rows of the log have. -/
theorem forall_addAll {P : Row → Prop} (hrows : ∀ row ∈ rows, P row) (hnews : ∀ new ∈ news, P new)
    (hmerge : ∀ row new merged, P row → R.merge row new = some merged → P merged) :
    ∀ row ∈ addAll R rows news, P row := by
  have hfirst (new : Row) (rows : List Row) (hrows : ∀ row ∈ rows, P row) :
      ∀ row ∈ mergeFirst R new rows, P row := by
    induction rows with
    | nil => exact hrows
    | cons row rest ih =>
      obtain ⟨hrow, hrest⟩ := forall_mem_cons.mp hrows
      rw [mergeFirst]
      cases hm : R.merge row new with
      | none => exact forall_mem_cons.mpr ⟨hrow, ih hrest⟩
      | some merged => exact forall_mem_cons.mpr ⟨hmerge _ _ _ hrow hm, hrest⟩
  induction news generalizing rows with
  | nil => exact hrows
  | cons new rest ih =>
    obtain ⟨hnew, hrest⟩ := forall_mem_cons.mp hnews
    have hadded : ∀ row ∈ add R rows new, P row := by
      rw [add]
      split
      · exact hfirst new rows hrows
      · exact forall_mem_append.mpr ⟨hrows, forall_mem_singleton.mpr hnew⟩
    exact ih hadded hrest

/-- Rows may be added in two goes. -/
theorem addAll_concat (first second : List Row) :
    addAll R rows (first ++ second) = addAll R (addAll R rows first) second :=
  foldl_append

theorem length_le_add : rows.length ≤ (add R rows new).length := by
  rw [add]
  split
  · exact Nat.le_of_eq length_mergeFirst.symm
  · simp

theorem length_le_addAll : rows.length ≤ (addAll R rows news).length := by
  induction news generalizing rows with
  | nil => exact Nat.le_refl _
  | cons new rest ih => exact Nat.le_trans length_le_add ih

end

/-! ## Bounded logs -/

variable {limit : ℕ}

theorem length_retain : (retain limit rows).length = min rows.length limit := by
  rw [retain, length_drop]
  omega

/-- The end of the end of a log is the end of the log. -/
theorem retain_drop {n : ℕ} (h : n ≤ rows.length - limit) :
    retain limit (rows.drop n) = retain limit rows := by
  rw [retain, retain, drop_drop, length_drop]
  congr 1
  omega

/-- **A bounded log is the end of the log**, when no new row completes one that was cut. -/
theorem retain_addAll [DecidableEq Key]
    (h : ∀ new ∈ news, Fresh R (rows.take (rows.length - limit)) new) :
    retain limit (addAll R (retain limit rows) news) = retain limit (addAll R rows news) ∧
      rows.length - limit + ((addAll R (retain limit rows) news).length - limit) =
        (addAll R rows news).length - limit := by
  have happend : addAll R rows news =
      rows.take (rows.length - limit) ++ addAll R (retain limit rows) news := by
    rw [← addAll_append h, retain, take_append_drop]
  have hcut : (rows.take (rows.length - limit)).length = rows.length - limit := by
    rw [length_take]
    omega
  have hgrow : (retain limit rows).length ≤ (addAll R (retain limit rows) news).length :=
    length_le_addAll
  rw [length_retain] at hgrow
  have hlength : (addAll R rows news).length =
      rows.length - limit + (addAll R (retain limit rows) news).length := by
    rw [happend, length_append, hcut]
  have hdrop : addAll R (retain limit rows) news =
      (addAll R rows news).drop (rows.length - limit) := by
    rw [happend, drop_left' hcut]
  refine ⟨?_, by omega⟩
  rw [hdrop]
  exact retain_drop (by omega)

theorem map_retain {Shown : Type*} (f : Row → Shown) :
    (retain limit rows).map f = retain limit (rows.map f) := by
  rw [retain, retain, map_drop, length_map]

/-! ## Distinct keys -/

/-- No two rows of the log have a key in common. -/
def Distinct (R : Rules Row Key) (rows : List Row) : Prop :=
  (rows.map R.key).Pairwise fun old new => new.isSome → old ≠ new

theorem distinct_concat : Distinct R (rows ++ [new]) ↔ Distinct R rows ∧ Fresh R rows new := by
  rw [Distinct, map_append, pairwise_append]
  simp only [map_cons, map_nil, mem_singleton, forall_eq, forall_mem_map,
    pairwise_singleton, true_and, Distinct, Fresh]
  exact and_congr_right fun _ =>
    ⟨fun h hkey row hr => h row hr hkey, fun h row hr hkey => h hkey row hr⟩

variable [DecidableEq Key]

theorem Distinct.add (h : Distinct R rows) : Distinct R (add R rows new) := by
  rw [KeyedLog.add]
  split
  · rw [Distinct, map_key_mergeFirst]
    exact h
  · next hfresh =>
    rw [Bool.not_eq_true, holds_eq_false] at hfresh
    exact distinct_concat.mpr ⟨h, hfresh⟩

theorem Distinct.addAll (h : Distinct R rows) : Distinct R (addAll R rows news) := by
  induction news generalizing rows with
  | nil => exact h
  | cons new rest ih => exact ih h.add

theorem addAll_of_distinct (h : Distinct R rows) : KeyedLog.addAll R [] rows = rows := by
  induction rows using reverseRecOn with
  | nil => rfl
  | append_singleton rows new ih =>
    obtain ⟨hrows, hfresh⟩ := distinct_concat.mp h
    rw [addAll_concat, ih hrows]
    exact add_of_fresh hfresh

/-! ## Views -/

/-- A view of rows that shows their keys, and shows a merge as the merge of what it shows. -/
structure View (R : Rules Row Key) (f : Row → Row) : Prop where
  key : ∀ row, R.key (f row) = R.key row
  merge : ∀ row new, R.merge (f row) (f new) = (R.merge row new).map f

variable {f : Row → Row}

omit [DecidableEq Key] in
theorem View.map_mergeFirst (h : View R f) :
    (mergeFirst R new rows).map f = mergeFirst R (f new) (rows.map f) := by
  induction rows with
  | nil => rfl
  | cons row rest ih =>
    rw [map_cons, mergeFirst, mergeFirst, h.merge]
    cases R.merge row new with
    | none => rw [map_cons, ih, Option.map_none]
    | some merged => rfl

theorem View.map_add (h : View R f) :
    (add R rows new).map f = KeyedLog.add R (rows.map f) (f new) := by
  have hholds : holds R (rows.map f) (f new) = holds R rows new := by
    rw [holds, any_map, h.key]
    simp only [holds, Function.comp_def, h.key]
  rw [KeyedLog.add, KeyedLog.add, hholds]
  split
  · exact h.map_mergeFirst
  · rw [map_append, map_singleton]

theorem View.map_addAll (h : View R f) :
    (addAll R rows news).map f = KeyedLog.addAll R (rows.map f) (news.map f) := by
  induction news generalizing rows with
  | nil => rfl
  | cons new rest ih =>
    rw [KeyedLog.addAll, KeyedLog.addAll, map_cons, foldl_cons, foldl_cons, ← h.map_add]
    exact ih

end KeyedLog
