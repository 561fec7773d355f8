import Mathlib.Tactic.Common

/-!
# A value on a medium with atomic writes

A replacement that fails may or may not have reached the medium; the writer stops then, so at most one
value is in doubt.  `Cell` is that situation, `Cell.Holds` what the medium can hold, and `Cell.Write.all`
the rule of a store: a property survives a write when the new value has it.
-/

namespace Durable

variable {α : Type*}

inductive Cell (α : Type*)
  /-- The medium holds the value in memory. -/
  | settled (v : α)
  /-- The medium holds the value in memory or the one whose write failed. -/
  | doubtful (v attempted : α)

namespace Cell

def memory : Cell α → α
  | settled v | doubtful v _ => v

/-- What reading the medium can give. -/
def Holds : Cell α → α → Prop
  | settled v, w => w = v
  | doubtful v attempted, w => w = v ∨ w = attempted

/-- One attempt to write a value. -/
inductive Write : Cell α → α → Cell α → Prop
  | done (v next : α) : Write (settled v) next (settled next)
  | failed (v next : α) : Write (settled v) next (doubtful v next)

/-- Everything that memory or the medium can hold has the property. -/
def All (P : α → Prop) (c : Cell α) : Prop := ∀ v, c.Holds v → P v

variable {P : α → Prop} {c c' : Cell α}

theorem holds_memory (c : Cell α) : c.Holds c.memory := by
  cases c with
  | settled => exact rfl
  | doubtful => exact .inl rfl

theorem All.memory (h : c.All P) : P c.memory := h _ c.holds_memory

@[simp] theorem all_settled {v : α} : (settled v).All P ↔ P v := by
  simp [All, Holds]

/-- Reading the medium again settles which value it holds. -/
theorem All.reopen (h : c.All P) {v : α} (hv : c.Holds v) : (settled v).All P :=
  all_settled.mpr (h v hv)

/-- A write keeps a property of the values when the new value has it. -/
theorem Write.all {next : α} (h : Write c next c') (hc : c.All P) (hn : P next) : c'.All P := by
  rcases h with ⟨v, _⟩ | ⟨v, _⟩
  · exact all_settled.mpr hn
  · rintro w (rfl | rfl)
    · exact hc.memory
    · exact hn

theorem All.imp {Q : α → Prop} (h : c.All P) (hpq : ∀ v, P v → Q v) : c.All Q :=
  fun v hv => hpq v (h v hv)

end Cell

end Durable
