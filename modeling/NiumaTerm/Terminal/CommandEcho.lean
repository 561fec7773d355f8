import Mathlib.Algebra.Group.Nat.Defs
import NiumaTerm.Lib.Utf8

/-!
# The echo of a command line

What a shell shows between the end of its prompt and the command's output is the command line, as often as the
line editor drew it.  `renderCommandEcho` is the text that is left on that one line.
-/

namespace NiumaTerm.Terminal

open Rust Utf8

/-- `str::parse::<usize>`. -/
def parseUsize (s : Str) : Option ℕ :=
  let digits := if s.head? = some '+' then s.tail else s
  if digits ≠ [] ∧ digits.all Char.isDigit then
    let n := digits.foldl (fun n c => n * 10 + (c.toNat - '0'.toNat)) 0
    if n < 2 ^ 64 then some n else none
  else none

/-- The line so far and the cursor's column. -/
structure EchoLine where
  line : Str := []
  col : ℕ := 0

namespace EchoLine

/-- The cells from a column on, for some columns, become blank. -/
def blank (line : Str) (first last : ℕ) : Str :=
  line.mapIdx fun i c => if first ≤ i ∧ i < last then ' ' else c

def write (e : EchoLine) (c : Char) : EchoLine where
  line :=
    let line := e.line ++ List.replicate (e.col - e.line.length) ' '
    if e.col < line.length then line.set e.col c else line ++ [c]
  col := e.col + 1

/-- A CSI sequence: its parameters and its last character. -/
def csi (e : EchoLine) (params : Str) (fin : Char) : EchoLine :=
  let nth (n default : ℕ) : ℕ := ((params.splitOn ';')[n]?.bind parseUsize).getD default
  if fin = 'H' ∨ fin = 'f' then { e with col := nth 1 1 - 1 }
  else if fin = 'G' then { e with col := nth 0 1 - 1 }
  else if fin = 'C' then { e with col := e.col + max (nth 0 1) 1 }
  else if fin = 'D' then { e with col := e.col - max (nth 0 1) 1 }
  else if fin = 'K' then
    { e with
      line :=
        match nth 0 0 with
        | 0 => e.line.take e.col
        | 2 => []
        | _ => blank e.line 0 e.col }
  else if fin = 'X' then { e with line := blank e.line e.col (min (e.col + max (nth 0 1) 1) e.line.length) }
  else e

end EchoLine

/-- Where in an escape sequence the text is. -/
inductive EchoMode
  | text
  | escape
  | csi (params : Str)
  | osc

/-- The loop of `render_command_echo`.  A sequence that is cut off has no effect. -/
def echoLoop (e : EchoLine) : EchoMode → Str → EchoLine
  | _, [] => e
  | .text, c :: rest =>
    if c = '\x1b' then echoLoop e .escape rest
    else if c = '\r' then echoLoop { e with col := 0 } .text rest
    else if c = '\x08' then echoLoop { e with col := e.col - 1 } .text rest
    else if ' ' ≤ c then echoLoop (e.write c) .text rest
    else echoLoop e .text rest
  | .escape, c :: rest =>
    if c = '[' then echoLoop e (.csi []) rest
    else if c = ']' then echoLoop e .osc rest
    else echoLoop e .text rest
  | .csi params, c :: rest =>
    if '\x40' ≤ c ∧ c ≤ '\x7e' then echoLoop (e.csi params c) .text rest
    else echoLoop e (.csi (params ++ [c])) rest
  | .osc, [c] => if c = '\x07' then e else echoLoop e .osc []
  | .osc, c :: d :: rest =>
    if c = '\x07' then echoLoop e .text (d :: rest)
    else if c = '\x1b' ∧ d = '\\' then echoLoop e .text rest
    else echoLoop e .osc (d :: rest)

def renderCommandEcho (bytes : List UInt8) : Str :=
  trim (echoLoop {} .text (fromUtf8Lossy bytes)).line

end NiumaTerm.Terminal
