import Mathlib.Algebra.BigOperators.Group.List.Basic
import Mathlib.Order.Bounds.Basic
import Mathlib.Order.MinMax
import NiumaTerm.Terminal.CommandEcho

/-!
# The columns of a command's echo

The parameters of a CSI sequence move the cursor as they say.  The echo is cut into `edits`, of which each
changes the line once, and `isGreatest_col` is the cursor's column as a sum: the largest of the distances
that the last moves add up to.
-/

namespace NiumaTerm.Terminal

open Rust Utf8 List

/-! ## Edits -/

/-- One step of the loop that changes the line or the column. -/
inductive Edit
  | carriageReturn
  | backspace
  | print (c : Char)
  | csi (params : Str) (fin : Char)
  deriving DecidableEq

/-- The edits of a text, in the mode that the loop is in. -/
def edits : EchoMode → Str → List Edit
  | _, [] => []
  | .text, c :: rest =>
    if c = '\x1b' then edits .escape rest
    else if c = '\r' then .carriageReturn :: edits .text rest
    else if c = '\x08' then .backspace :: edits .text rest
    else if ' ' ≤ c then .print c :: edits .text rest
    else edits .text rest
  | .escape, c :: rest =>
    if c = '[' then edits (.csi []) rest
    else if c = ']' then edits .osc rest
    else edits .text rest
  | .csi params, c :: rest =>
    if '\x40' ≤ c ∧ c ≤ '\x7e' then .csi params c :: edits .text rest
    else edits (.csi (params ++ [c])) rest
  | .osc, [c] => if c = '\x07' then [] else edits .osc []
  | .osc, c :: d :: rest =>
    if c = '\x07' then edits .text (d :: rest)
    else if c = '\x1b' ∧ d = '\\' then edits .text rest
    else edits .osc (d :: rest)

namespace EchoLine

def perform (e : EchoLine) : Edit → EchoLine
  | .carriageReturn => { e with col := 0 }
  | .backspace => { e with col := e.col - 1 }
  | .print c => e.write c
  | .csi params fin => e.csi params fin

def after (done : List Edit) : EchoLine := done.foldl perform {}

@[simp] theorem after_nil : after [] = {} := rfl

@[simp] theorem after_concat (done : List Edit) (edit : Edit) :
    after (done ++ [edit]) = (after done).perform edit := by
  rw [after, foldl_append]
  rfl

end EchoLine

theorem echoLoop_eq (e : EchoLine) (mode : EchoMode) (text : Str) :
    echoLoop e mode text = (edits mode text).foldl EchoLine.perform e := by
  fun_induction echoLoop e mode text with
  | _ =>
    simp only [edits, *, and_self, if_true, if_false, foldl_cons, foldl_nil,
      EchoLine.perform, Char.reduceEq]

/-! ## What the edits add -/

/-- The `n`th parameter of a CSI sequence. -/
def csiParam (params : Str) (n default : ℕ) : ℕ :=
  ((params.splitOn ';')[n]?.bind parseUsize).getD default

namespace Edit

/-- What the edit adds to the column. -/
def addend : Edit → Option ℕ
  | .print _ => some 1
  | .csi params fin => if fin = 'C' ∨ fin = 'X' then some (max (csiParam params 0 1) 1) else none
  | .carriageReturn | .backspace => none

def prints : Edit → Bool
  | .print _ => true
  | _ => false

/-- What an edit does to the column: it goes there, or so far to the right, but not beyond the left
end. -/
inductive Move
  | goTo (col : ℕ)
  | shift (distance : ℤ)

def move : Edit → Move
  | .carriageReturn => .goTo 0
  | .backspace => .shift (-1)
  | .print _ => .shift 1
  | .csi params fin =>
    if fin = 'H' ∨ fin = 'f' then .goTo (csiParam params 1 1 - 1)
    else if fin = 'G' then .goTo (csiParam params 0 1 - 1)
    else if fin = 'C' then .shift (max (csiParam params 0 1) 1)
    else if fin = 'D' then .shift (-(max (csiParam params 0 1) 1))
    else .shift 0

end Edit

namespace EchoLine

variable {e : EchoLine} {edit : Edit} {done : List Edit}

theorem perform_col_goTo {col : ℕ} (h : edit.move = .goTo col) : (e.perform edit).col = col := by
  cases edit with
  | carriageReturn =>
    cases h
    rfl
  | backspace | print c => cases h
  | csi params fin =>
    rw [Edit.move] at h
    rw [perform, csi]
    split_ifs at h ⊢ <;> cases h <;> rfl

theorem perform_col_shift {distance : ℤ} (h : edit.move = .shift distance) :
    ((e.perform edit).col : ℤ) = max 0 (e.col + distance) := by
  cases edit with
  | carriageReturn => cases h
  | backspace =>
    cases h
    simp only [perform]
    omega
  | print c =>
    cases h
    simp only [perform, write]
    omega
  | csi params fin =>
    rw [Edit.move] at h
    rw [perform, csi]
    split_ifs at h ⊢ <;> cases h
    · simp only [csiParam]
      omega
    · simp only [csiParam]
      omega
    · dsimp only
      omega
    · dsimp only
      omega
    · omega

/-- A printed character pads the line to its column. -/
theorem write_length (e : EchoLine) (c : Char) :
    (e.write c).line.length = max e.line.length (e.col + 1) := by
  simp only [write]
  split_ifs with h
  · simp only [length_set, length_append, length_replicate] at h ⊢
    omega
  · simp only [length_append, length_replicate, length_singleton] at h ⊢
    omega

/-- Only what is printed makes the line longer. -/
theorem perform_length_le (h : edit.prints = false) :
    (e.perform edit).line.length ≤ e.line.length := by
  cases edit with
  | carriageReturn | backspace => exact Nat.le_refl _
  | print c => cases h
  | csi params fin =>
    rw [perform, csi]
    split_ifs
    · exact Nat.le_refl _
    · exact Nat.le_refl _
    · exact Nat.le_refl _
    · exact Nat.le_refl _
    · dsimp only
      split
      · exact length_take_le' _ _
      · exact Nat.zero_le _
      · exact (length_mapIdx ..).le
    · exact (length_mapIdx ..).le
    · exact Nat.le_refl _

end EchoLine

/-! ## The column as a sum -/

/-- A column that the last moves add up to, from the left end or from a column that one of them went
to. -/
inductive Reaches : List Edit → ℤ → Prop
  | leftEnd (done : List Edit) : Reaches done 0
  | goTo {done : List Edit} {edit : Edit} {col : ℕ} (h : edit.move = .goTo col) :
    Reaches (done ++ [edit]) col
  | shift {done : List Edit} {edit : Edit} {column distance : ℤ} (h : edit.move = .shift distance)
    (hc : Reaches done column) : Reaches (done ++ [edit]) (column + distance)

variable {done : List Edit} {edit : Edit} {column : ℤ}

/-- The last move decides. -/
theorem reaches_concat (h : Reaches (done ++ [edit]) column) :
    column = 0 ∨ (∃ col : ℕ, edit.move = .goTo col ∧ column = col) ∨
      ∃ start distance, edit.move = .shift distance ∧ Reaches done start ∧
        column = start + distance := by
  generalize hall : done ++ [edit] = all at h
  cases h with
  | leftEnd => exact .inl rfl
  | goTo hmove =>
    obtain ⟨-, he⟩ := append_inj' hall rfl
    cases he
    exact .inr (.inl ⟨_, hmove, rfl⟩)
  | shift hmove hc =>
    obtain ⟨rfl, he⟩ := append_inj' hall rfl
    cases he
    exact .inr (.inr ⟨_, _, hmove, hc, rfl⟩)

/-- **The cursor's column** is the largest one that the last moves add up to. -/
theorem isGreatest_col (done : List Edit) :
    IsGreatest {column | Reaches done column} (EchoLine.after done).col := by
  induction done using reverseRecOn with
  | nil =>
    refine ⟨.leftEnd [], fun column h => ?_⟩
    generalize hnil : ([] : List Edit) = none at h
    cases h with
    | leftEnd => exact Int.natCast_nonneg _
    | goTo | shift => exact absurd hnil (by simp)
  | append_singleton done edit ih =>
    rw [EchoLine.after_concat]
    cases hmove : edit.move with
    | goTo col =>
      rw [EchoLine.perform_col_goTo hmove]
      refine ⟨.goTo hmove, fun column h => ?_⟩
      obtain rfl | ⟨col', hmove', rfl⟩ | ⟨start, distance, hmove', -, -⟩ := reaches_concat h
      · exact Int.natCast_nonneg col
      · rw [hmove] at hmove'
        cases hmove'
        exact le_refl _
      · rw [hmove] at hmove'
        cases hmove'
    | shift distance =>
      rw [EchoLine.perform_col_shift hmove]
      constructor
      · -- either the left end, or the column before and the shift
        rcases max_choice 0 ((EchoLine.after done).col + distance : ℤ) with hmax | hmax
        · rw [hmax]
          exact .leftEnd _
        · rw [hmax]
          exact .shift hmove ih.1
      · intro column h
        obtain rfl | ⟨col, hmove', -⟩ | ⟨start, distance', hmove', hstart, rfl⟩ := reaches_concat h
        · exact le_max_left _ _
        · rw [hmove] at hmove'
          cases hmove'
        · rw [hmove] at hmove'
          cases hmove'
          exact le_max_of_le_right (Int.add_le_add_right (ih.2 hstart) distance)

/-- The column and a number are below a limit if all sums are. -/
theorem col_add_lt_iff {n limit : ℕ} : (EchoLine.after done).col + n < limit ↔
    ∀ column, Reaches done column → column + n < limit := by
  obtain ⟨hreaches, hgreatest⟩ := isGreatest_col done
  constructor
  · intro h column hcolumn
    have := hgreatest hcolumn
    omega
  · intro h
    have := h _ hreaches
    omega

/-! ## The property -/

/-- The edits of what was captured. -/
def echoEdits (bytes : List UInt8) : List Edit := edits .text (fromUtf8Lossy bytes)

theorem renderCommandEcho_eq (bytes : List UInt8) :
    renderCommandEcho bytes = trim (EchoLine.after (echoEdits bytes)).line := by
  rw [renderCommandEcho, echoLoop_eq]
  rfl

/-- No addition overflows, the line grows by what is printed and the padding before it, and has at
most `bound` cells at any time. -/
structure Bounded (bound : ℕ) (bytes : List UInt8) : Prop where
  adds : ∀ done edit rest, echoEdits bytes = done ++ edit :: rest → ∀ n ∈ edit.addend,
    (EchoLine.after done).col + n < 2 ^ 64
  grows : ∀ done edit rest, echoEdits bytes = done ++ edit :: rest →
    (EchoLine.after (done ++ [edit])).line.length ≤ (EchoLine.after done).line.length +
      if edit.prints then
        1 + ((EchoLine.after done).col - (EchoLine.after done).line.length)
      else 0
  fits : ∀ done rest, echoEdits bytes = done ++ rest →
    (EchoLine.after done).line.length ≤ bound
  rendered : (renderCommandEcho bytes).length ≤ bound

/-- No sum of moves overflows with what is added to it, and no character is printed beyond
`bound`. -/
structure MovesWithin (bound : ℕ) (bytes : List UInt8) : Prop where
  adds : ∀ done edit rest, echoEdits bytes = done ++ edit :: rest → ∀ n : ℕ, n ∈ edit.addend →
    ∀ column, Reaches done column → column + n < 2 ^ 64
  prints : ∀ done edit rest, echoEdits bytes = done ++ edit :: rest → edit.prints = true →
    ∀ column, Reaches done column → column < bound

/-- One edit makes the line longer by what it prints and the padding before it. -/
theorem length_perform_le (e : EchoLine) (edit : Edit) :
    (e.perform edit).line.length ≤ e.line.length +
      if edit.prints then 1 + (e.col - e.line.length) else 0 := by
  cases hprints : edit.prints with
  | false => exact EchoLine.perform_length_le hprints
  | true =>
    cases edit with
    | print c =>
      rw [EchoLine.perform, EchoLine.write_length, if_pos rfl]
      omega
    | _ => cases hprints

theorem length_trim_le (s : Str) : (trim s).length ≤ s.length := by
  rw [trim]
  exact (( rdropWhile_prefix _ _).length_le).trans (dropWhile_suffix _).length_le

/-- **The echo is bounded exactly when its moves are**, whatever bound one asks for. -/
theorem bounded_iff (bound : ℕ → ℕ) (bytes : List UInt8) :
    Bounded (bound bytes.length) bytes ↔ MovesWithin (bound bytes.length) bytes := by
  generalize bound bytes.length = bound
  constructor
  · intro h
    refine ⟨fun done edit rest hsplit n hn ↦ ?_, fun done edit rest hsplit hprints ↦ ?_⟩
    · exact_mod_cast col_add_lt_iff.mp (h.adds done edit rest hsplit n hn)
    · have hfits := h.fits (done ++ [edit]) rest (by rw [hsplit, append_cons])
      cases edit with
      | print c =>
        rw [EchoLine.after_concat, EchoLine.perform, EchoLine.write_length] at hfits
        have hcol : (EchoLine.after done).col + 0 < bound := by omega
        simpa using col_add_lt_iff.mp hcol
      | _ => cases hprints
  · intro h
    have hfits : ∀ done rest, echoEdits bytes = done ++ rest →
        (EchoLine.after done).line.length ≤ bound := by
      intro done
      induction done using reverseRecOn with
      | nil => exact fun rest _ ↦ Nat.zero_le _
      | append_singleton done edit ih =>
        intro rest hsplit
        rw [append_assoc] at hsplit
        have hbefore := ih _ hsplit
        rw [EchoLine.after_concat]
        cases hprints : edit.prints with
        | false => exact (EchoLine.perform_length_le hprints).trans hbefore
        | true =>
          cases edit with
          | print c =>
            have hcol : (EchoLine.after done).col + 0 < bound :=
              col_add_lt_iff.mpr (by simpa using h.prints done _ rest hsplit rfl)
            rw [EchoLine.perform, EchoLine.write_length]
            omega
          | _ => cases hprints
    refine ⟨fun done edit rest hsplit n hn ↦ ?_, fun done edit rest _ ↦ ?_, hfits, ?_⟩
    · exact col_add_lt_iff.mpr (by exact_mod_cast h.adds done edit rest hsplit n hn)
    · rw [EchoLine.after_concat]
      exact length_perform_le _ edit
    · rw [renderCommandEcho_eq]
      exact (length_trim_le _).trans (hfits _ [] (append_nil _).symm)

/-- ASCII text as it is captured. -/
def echoBytes (text : Str) : List UInt8 := text.map fun c => .ofNat c.toNat

/-- Two moves to the right, each by the largest number that can be read. -/
def twoJumps : List UInt8 :=
  echoBytes "\x1b[18446744073709551615C\x1b[18446744073709551615C".toList

def farColumn : List UInt8 := echoBytes "\x1b[1000000000Gx".toList

/-- The second of two moves overflows, and 14 bytes make a line of a billion cells. -/
theorem unbounded_twoJumps :
    (¬ ∀ done edit rest, echoEdits twoJumps = done ++ edit :: rest → ∀ n ∈ edit.addend,
      (EchoLine.after done).col + n < 2 ^ 64) ∧
    farColumn.length = 14 ∧ (EchoLine.after (echoEdits farColumn)).line.length = 1000000000 := by
  refine ⟨fun h ↦ ?_, by decide +kernel, ?_⟩
  · let jump : Edit := .csi "18446744073709551615".toList 'C'
    have hedits : echoEdits twoJumps = [jump] ++ jump :: [] := by decide +kernel
    have hcol : (EchoLine.after [jump]).col = 18446744073709551615 := by decide +kernel
    have hlt := h [jump] jump [] hedits 18446744073709551615 (by decide +kernel)
    rw [hcol] at hlt
    exact absurd hlt (by decide)
  · let goTo : Edit := .csi "1000000000".toList 'G'
    have hedits : echoEdits farColumn = [goTo] ++ [.print 'x'] := by decide +kernel
    have hcol : (EchoLine.after [goTo]).col = 999999999 := by decide +kernel
    have hline : (EchoLine.after [goTo]).line = [] := by decide +kernel
    rw [hedits, EchoLine.after_concat, EchoLine.perform, EchoLine.write_length, hcol, hline]
    rfl

end NiumaTerm.Terminal
