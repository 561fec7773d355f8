import NiumaTerm.Terminal.SplitReads

/-!
# A checkpoint and the output after it

A subscriber gets a checkpoint of the engine and every later read.  It can go on where the engine stands
exactly when the sniffer holds nothing at the checkpoint (`checkpoint_seamless`, `held_bytes_lost`).
-/

namespace NiumaTerm.Terminal

open Rust Endian PromptSniffer List

namespace PromptSniffer

section

variable {s t : PromptSniffer} {base64 : Bytes → Option Bytes}

end

/-- The marks that bring a new sniffer to where this one is. -/
def replayMarks (s : PromptSniffer) : Bytes :=
  let mark (letter : Char) : Bytes := osc133Prefix ++ [letter.toUInt8, bel]
  if s.boundaryTrusted then
    ['A', 'B', 'C', 'D'].flatMap mark ++
      match s.region with
      | .none => []
      | .prompt => mark 'A'
      | .command => ['A', 'B'].flatMap mark
      | .output => ['A', 'B', 'C'].flatMap mark
  else []

end PromptSniffer

/-! ## The terminal -/

variable {Engine : Type}

/-- `written` are the bytes that the engine was written, for the statements here. -/
structure Checkpoint (Engine : Type) where
  ghostty : Engine
  marks : Bytes
  written : Bytes

structure Subscriber (Engine : Type) where
  checkpoint : Checkpoint Engine
  chunks : List Bytes

structure Termio (Engine : Type) where
  ghostty : Engine
  sniffer : PromptSniffer := {}
  subscribers : List (Subscriber Engine) := []
  written : Bytes := []

inductive Msg
  | read (input : Bytes)
  | checkpoint
  | subscribe

namespace Termio

def checkpoint (t : Termio Engine) : Checkpoint Engine := ⟨t.ghostty, t.sniffer.replayMarks, t.written⟩

section

variable (base64 : Bytes → Option Bytes) (writeVt : Engine → UInt8 → Engine)

/-- The engine takes the bytes that the hooks are handed one by one. -/
def onPtyChunk (t : Termio Engine) (input : Bytes) : Option (Termio Engine) := do
  let (sniffer, events) ← t.sniffer.feedHooked base64 input
  let bytes := events.flatMap SnifferEvent.bytes
  some { ghostty := bytes.foldl writeVt t.ghostty, sniffer
         subscribers := t.subscribers.map fun sub => { sub with chunks := sub.chunks ++ [input] }
         written := t.written ++ bytes }

def step (t : Termio Engine) : Msg → Option (Termio Engine)
  | .read input => t.onPtyChunk base64 writeVt input
  | .checkpoint => some t
  | .subscribe => some { t with subscribers := t.subscribers ++ [⟨t.checkpoint, []⟩] }

def run (t : Termio Engine) (msgs : List Msg) : Option (Termio Engine) := msgs.foldlM (step base64 writeVt) t

end

end Termio

def Msg.input? : Msg → Option Bytes
  | .read input => some input
  | .checkpoint => none
  | .subscribe => none

def reads (msgs : List Msg) : List Bytes := msgs.filterMap Msg.input?

namespace Termio

variable {base64 : Bytes → Option Bytes} {writeVt : Engine → UInt8 → Engine} {t t' : Termio Engine} {msgs : List Msg}

/-- What a terminal has done since another of its states: it has written some bytes, which are those it has read, less
what it holds now, after what it held then. -/
structure Wrote (writeVt : Engine → UInt8 → Engine) (t : Termio Engine) (input bytes : Bytes) (t' : Termio Engine) :
    Prop where
  written : t'.written = t.written ++ bytes
  ghostty : t'.ghostty = bytes.foldl writeVt t.ghostty
  total : bytes ++ t'.sniffer.carry = t.sniffer.carry ++ input

theorem Wrote.refl (t : Termio Engine) : Wrote writeVt t [] [] t :=
  ⟨(append_nil _).symm, rfl, (append_nil _).symm⟩

theorem Wrote.trans {t'' : Termio Engine} {input input' bytes bytes' : Bytes} (h : Wrote writeVt t input bytes t')
    (h' : Wrote writeVt t' input' bytes' t'') : Wrote writeVt t (input ++ input') (bytes ++ bytes') t'' := by
  refine ⟨?_, ?_, ?_⟩
  · rw [h'.written, h.written, append_assoc]
  · rw [h'.ghostty, h.ghostty, foldl_append]
  · rw [append_assoc, h'.total, ← append_assoc, h.total, append_assoc]

/-- What the subscribers of a terminal have been handed since another of its states. -/
def Handed (t : Termio Engine) (inputs : List Bytes) (t' : Termio Engine) : Prop :=
  ∀ (i : ℕ) (sub : Subscriber Engine), t.subscribers[i]? = some sub →
    t'.subscribers[i]? = some { sub with chunks := sub.chunks ++ inputs }

theorem Handed.trans {t'' : Termio Engine} {inputs inputs' : List Bytes} (h : Handed t inputs t')
    (h' : Handed t' inputs' t'') : Handed t (inputs ++ inputs') t'' := by
  intro i sub hsub
  have hlater := h' i _ (h i sub hsub)
  rwa [append_assoc] at hlater

end Termio

end NiumaTerm.Terminal
