import Mathlib.Tactic.Common

/-!
# Programs whose operations may fail, and where they can be stopped

An `operation` of a program takes the next outcome of its `World` and adds one state.  `Spec P C x Q`:
from a state in `P` the program `x` answers `a` in a state in `Q a`, whatever the outcomes are, and each
state on the way, where it may be stopped, is in `C`.
-/

namespace Crash

structure World (φ σ : Type) where
  now : σ
  /-- The states gone through, the last one first. -/
  past : List σ
  outcomes : List φ

abbrev Prog (φ σ : Type) := StateM (World φ σ)

variable {φ σ α β : Type}

/-- An operation without an outcome left goes as it does with `none`. -/
def operation (f : Option φ → σ → α × σ) : Prog φ σ α := fun w =>
  let result := f w.outcomes.head? w.now
  (result.1, { now := result.2, past := result.2 :: w.past, outcomes := w.outcomes.tail })

def observe (f : σ → α) : Prog φ σ α := fun w => (f w.now, w)

def Spec (P C : σ → Prop) (x : Prog φ σ α) (Q : α → σ → Prop) : Prop :=
  ∀ w, P w.now → Q (x w).1 (x w).2.now ∧ ∀ s ∈ (x w).2.past, s ∈ w.past ∨ C s

namespace Spec

variable {P P' C C' : σ → Prop} {x : Prog φ σ α} {Q Q' : α → σ → Prop} {R : β → σ → Prop}

theorem pure {a : α} (h : ∀ s, P s → Q a s) : Spec P C (Pure.pure a : Prog φ σ α) Q :=
  fun w hp => ⟨h w.now hp, fun _ hs => .inl hs⟩

theorem bind {f : α → Prog φ σ β} (hx : Spec P C x Q) (hf : ∀ a, Spec (Q a) C (f a) R) : Spec P C (x >>= f) R := by
  intro w hp
  obtain ⟨hq, hpassed⟩ := hx w hp
  obtain ⟨hr, hpassed'⟩ := hf (x w).1 (x w).2 hq
  refine ⟨hr, fun s hs => ?_⟩
  rcases hpassed' s hs with hs | hs
  · exact hpassed s hs
  · exact .inr hs

theorem ite {x : Prog φ σ Bool} {Q : Bool → σ → Prop} {a b : Prog φ σ β} (hx : Spec P C x Q)
    (ha : Spec (Q true) C a R) (hb : Spec (Q false) C b R) : Spec P C (x >>= fun ok => if ok then a else b) R :=
  hx.bind fun ok => by
    cases ok with
    | true => exact ha
    | false => exact hb

theorem operation {f : Option φ → σ → α × σ} (h : ∀ outcome s, P s → Q (f outcome s).1 (f outcome s).2)
    (hc : ∀ a s, Q a s → C s) : Spec P C (Crash.operation f) Q := by
  intro w hp
  have hq := h w.outcomes.head? w.now hp
  refine ⟨hq, fun s hs => ?_⟩
  rcases List.mem_cons.mp hs with rfl | hs
  · exact .inr (hc _ _ hq)
  · exact .inl hs

theorem observe {f : σ → α} (h : ∀ s, P s → Q (f s) s) : Spec P C (Crash.observe f : Prog φ σ α) Q :=
  fun w hp => ⟨h w.now hp, fun _ hs => .inl hs⟩

theorem imp (hx : Spec P C x Q) (hp : ∀ s, P' s → P s) (hc : ∀ s, C s → C' s) (hq : ∀ a s, Q a s → Q' a s) :
    Spec P' C' x Q' := by
  intro w hw
  obtain ⟨h, hpassed⟩ := hx w (hp _ hw)
  exact ⟨hq _ _ h, fun s hs => (hpassed s hs).imp_right (hc s)⟩

theorem pre (hx : Spec P C x Q) (hp : ∀ s, P' s → P s) : Spec P' C x Q := hx.imp hp (fun _ => id) fun _ _ => id

theorem post (hx : Spec P C x Q) (hq : ∀ a s, Q a s → Q' a s) : Spec P C x Q' := hx.imp (fun _ => id) (fun _ => id) hq

/-- It is enough to look at one starting state at a time. -/
theorem each (h : ∀ s, P s → Spec (fun s' => s' = s) C x Q) : Spec P C x Q := fun w hp => h w.now hp w rfl

/-- What is known of no state in particular. -/
theorem fact {p : Prop} (h : p → Spec P C x Q) : Spec (fun s => p ∧ P s) C x Q := fun w hp => h hp.1 w hp.2

/-- A loop over a list keeps what each turn keeps. -/
theorem forM {f : α → Prog φ σ PUnit} {I : List α → σ → Prop} {l : List α}
    (h : ∀ a ∈ l, ∀ rest, Spec (I (a :: rest)) C (f a) fun _ => I rest) : Spec (I l) C (l.forM f) fun _ => I [] := by
  induction l with
  | nil => exact .pure fun _ => id
  | cons a rest ih =>
    exact (h a (.head _) rest).bind fun _ => ih fun b hb => h b (.tail _ hb)

end Spec

/-- What can be found after a run of `x` from `s`: it has ended, or was stopped between two operations. -/
def Leaves (x : Prog φ σ α) (s s' : σ) : Prop :=
  s' = s ∨ ∃ outcomes, s' = (x ⟨s, [], outcomes⟩).2.now ∨ s' ∈ (x ⟨s, [], outcomes⟩).2.past

theorem Spec.leaves {P C : σ → Prop} {x : Prog φ σ α} {Q : α → σ → Prop} (hx : Spec P C x Q) (hpc : ∀ s, P s → C s)
    (hq : ∀ a s, Q a s → C s) {s s' : σ} (hp : P s) (h : Leaves x s s') : C s' := by
  obtain rfl | ⟨outcomes, rfl | hs⟩ := h
  · exact hpc _ hp
  · exact hq _ _ (hx _ hp).1
  · exact ((hx _ hp).2 s' hs).resolve_left List.not_mem_nil

end Crash
