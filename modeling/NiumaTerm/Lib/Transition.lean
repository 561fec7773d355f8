import Mathlib.Data.List.Induction

/-!
# Labelled transition systems

A `Run` is a finite sequence of labelled steps from an initial state.  What holds initially and is kept
by every step holds in every state (`Run.invariant`), also of the labels so far (`Run.history`).  `Steps`
is the rest of a run, and `System.restrict` allows only some of the steps.
-/

namespace Transition

open List

variable {State Label : Type*}

structure System (State Label : Type*) where
  init : State → Prop
  step : State → Label → State → Prop

/-- The labels of a run so far and the state it has reached. -/
inductive Run (S : System State Label) : List Label → State → Prop
  | init {s : State} (h : S.init s) : Run S [] s
  | step {labels : List Label} {s s' : State} {label : Label} (hr : Run S labels s)
      (hs : S.step s label s') : Run S (labels ++ [label]) s'

def Reachable (S : System State Label) (s : State) : Prop := ∃ labels, Run S labels s

variable {S : System State Label}

theorem Reachable.init {s : State} (h : S.init s) : Reachable S s := ⟨[], .init h⟩

theorem Reachable.step {s s' : State} {label : Label} (h : Reachable S s)
    (hs : S.step s label s') : Reachable S s' := by
  obtain ⟨labels, hr⟩ := h
  exact ⟨labels ++ [label], hr.step hs⟩

/-- A relation between the labels so far and the state, kept by every step, holds of every run. -/
theorem Run.history {I : List Label → State → Prop} (hinit : ∀ s, S.init s → I [] s)
    (hstep : ∀ labels s label s', I labels s → S.step s label s' → I (labels ++ [label]) s')
    {labels : List Label} {s : State} (h : Run S labels s) : I labels s := by
  induction h with
  | init h => exact hinit _ h
  | step _ hs ih => exact hstep _ _ _ _ ih hs

/-- **Invariants.**  What holds initially and is kept by every step holds in every state of a
run. -/
theorem Run.invariant {I : State → Prop} (hinit : ∀ s, S.init s → I s)
    (hstep : ∀ s label s', I s → S.step s label s' → I s')
    {labels : List Label} {s : State} (h : Run S labels s) : I s :=
  h.history (I := fun _ => I) hinit fun _ => hstep

theorem Reachable.invariant {I : State → Prop} (hinit : ∀ s, S.init s → I s)
    (hstep : ∀ s label s', I s → S.step s label s' → I s') {s : State} (h : Reachable S s) : I s := by
  obtain ⟨labels, hr⟩ := h
  exact hr.invariant hinit hstep

/-- A system whose steps a function performs: performing a list of labels extends the run. -/
theorem Run.foldlM {f : State → Label → Option State} (hf : ∀ s label s', f s label = some s' →
    S.step s label s') {before labels : List Label} {s s' : State} (h : Run S before s)
    (hs : labels.foldlM f s = some s') : Run S (before ++ labels) s' := by
  induction labels generalizing before s with
  | nil =>
    cases hs
    rwa [append_nil]
  | cons label rest ih =>
    rw [foldlM_cons] at hs
    obtain ⟨next, hn, hs⟩ := Option.bind_eq_some_iff.mp hs
    have := ih (h.step (hf _ _ _ hn)) hs
    rwa [append_assoc] at this

/-- A function performs the labels one after another, each as a step. -/
def Performs (S : System State Label) (f : State → Label → State) : State → List Label → Prop
  | _, [] => True
  | s, label :: rest => S.step s label (f s label) ∧ Performs S f (f s label) rest

/-- The steps that may follow a state. -/
inductive Steps (S : System State Label) : State → List Label → State → Prop
  | refl (s : State) : Steps S s [] s
  | tail {labels : List Label} {s s' s'' : State} {label : Label} (hr : Steps S s labels s')
      (hs : S.step s' label s'') : Steps S s (labels ++ [label]) s''

theorem Run.of_concat {labels : List Label} {label : Label} {s' : State}
    (h : Run S (labels ++ [label]) s') : ∃ s, Run S labels s ∧ S.step s label s' := by
  generalize hl : labels ++ [label] = all at h
  cases h with
  | init => simp at hl
  | step hr hs =>
    simp only [append_singleton_inj] at hl
    obtain ⟨rfl, rfl⟩ := hl
    exact ⟨_, hr, hs⟩

/-- The step of a run that a label stands for, with the runs before and after it. -/
theorem Run.split {before after : List Label} {label : Label} {s : State}
    (h : Run S (before ++ label :: after) s) :
    ∃ s₁ s₂, Run S before s₁ ∧ S.step s₁ label s₂ ∧ Steps S s₂ after s := by
  induction after using reverseRecOn generalizing s with
  | nil =>
    obtain ⟨s₁, hr, hs⟩ := h.of_concat
    exact ⟨s₁, s, hr, hs, .refl s⟩
  | append_singleton after last ih =>
    rw [← cons_append, ← append_assoc] at h
    obtain ⟨s', hr, hs⟩ := h.of_concat
    obtain ⟨s₁, s₂, hr, h₁, h₂⟩ := ih hr
    exact ⟨s₁, s₂, hr, h₁, h₂.tail hs⟩

theorem Run.append {labels more : List Label} {s s' : State} (h : Run S labels s)
    (hs : Steps S s more s') : Run S (labels ++ more) s' := by
  induction hs with
  | refl => rwa [append_nil]
  | tail _ hs ih =>
    rw [← append_assoc]
    exact (ih h).step hs

theorem Steps.single {s s' : State} {label : Label} (h : S.step s label s') : Steps S s [label] s' := (Steps.refl s).tail h

theorem Steps.trans {labels more : List Label} {s s' s'' : State} (h : Steps S s labels s')
    (h' : Steps S s' more s'') : Steps S s (labels ++ more) s'' := by
  induction h' with
  | refl => rwa [append_nil]
  | tail _ hs ih =>
    rw [← append_assoc]
    exact (ih h).tail hs

theorem Steps.performs {f : State → Label → State} {before labels : List Label} {s s' : State}
    (h : Steps S s before s') (hp : Performs S f s' labels) : Steps S s (before ++ labels) (labels.foldl f s') := by
  induction labels generalizing before s' with
  | nil =>
    rw [append_nil]
    exact h
  | cons label rest ih =>
    have := ih (h.tail hp.1) hp.2
    rw [append_assoc] at this
    exact this

theorem Run.performs {f : State → Label → State} {before labels : List Label} {s : State} (h : Run S before s)
    (hp : Performs S f s labels) : Run S (before ++ labels) (labels.foldl f s) :=
  h.append ((Steps.refl s).performs hp)

/-- What every step keeps holds from then on. -/
theorem Steps.stable {P : State → Prop} (hstep : ∀ s label s', P s → S.step s label s' → P s')
    {labels : List Label} {s s' : State} (h : Steps S s labels s') (hp : P s) : P s' := by
  induction h with
  | refl => exact hp
  | tail _ hs ih => exact hstep _ _ _ (ih hp) hs

/-- The system that takes only the steps that meet a condition on the state before them. -/
def System.restrict (S : System State Label) (allowed : State → Label → Prop) :
    System State Label where
  init := S.init
  step s label s' := allowed s label ∧ S.step s label s'

theorem Run.of_restrict {allowed : State → Label → Prop} {labels : List Label} {s : State}
    (h : Run (S.restrict allowed) labels s) : Run S labels s := by
  induction h with
  | init h => exact .init h
  | step _ hs ih => exact ih.step hs.2

end Transition
