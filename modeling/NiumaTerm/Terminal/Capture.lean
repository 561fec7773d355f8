import NiumaTerm.Lib.BitField
import NiumaTerm.Lib.History
import NiumaTerm.Lib.Interner
import NiumaTerm.Lib.Str

/-!
# Captured cells

A capture writes the visible cells of the engine into a `RenderBuffer`.  A cell is one 64-bit word: its first
character, its width, and 16-bit ids of its style and of the characters that combine with the first one, in
tables that start empty.
-/

namespace NiumaTerm.Terminal
namespace Capture

open Rust List

/-! ## Styles -/

structure ColorRgb where
  r : UInt8
  g : UInt8
  b : UInt8
  deriving DecidableEq

inductive NamedColor
  | foreground
  | background
  deriving DecidableEq

inductive AnsiColor
  | named (color : NamedColor)
  | spec (color : ColorRgb)
  deriving DecidableEq

abbrev StyleFlags := BitVec 16

namespace StyleFlags

def inverse : StyleFlags := 1 <<< 0
def bold : StyleFlags := 1 <<< 1
def italic : StyleFlags := 1 <<< 2
def dim : StyleFlags := 1 <<< 3
def hidden : StyleFlags := 1 <<< 4
def strikeout : StyleFlags := 1 <<< 5
def underline : StyleFlags := 1 <<< 6
def doubleUnderline : StyleFlags := 1 <<< 7
def undercurl : StyleFlags := 1 <<< 8
def dottedUnderline : StyleFlags := 1 <<< 9
def dashedUnderline : StyleFlags := 1 <<< 10

def set (flags flag : StyleFlags) (value : Bool) : StyleFlags :=
  if value then flags ||| flag else flags &&& ~~~flag

end StyleFlags

structure Style where
  fg : AnsiColor
  bg : AnsiColor
  underlineColor : Option AnsiColor
  flags : StyleFlags
  deriving DecidableEq

def Style.default : Style where
  fg := .named .foreground
  bg := .named .background
  underlineColor := none
  flags := 0

inductive Underline
  | none
  | single
  | double
  | curly
  | dotted
  | dashed

structure SnapshotStyle where
  fg : Option ColorRgb
  bg : Option ColorRgb
  bold : Bool
  italic : Bool
  faint : Bool
  blink : Bool
  inverse : Bool
  invisible : Bool
  strikethrough : Bool
  overline : Bool
  underline : Underline
  underlineColor : Option ColorRgb

/-- Blinking and overlines have no flag. -/
def Style.ofSnapshot (s : SnapshotStyle) : Style where
  fg := s.fg.elim (.named .foreground) .spec
  bg := s.bg.elim (.named .background) .spec
  underlineColor := s.underlineColor.map .spec
  flags :=
    let flags : StyleFlags := 0
    let flags := StyleFlags.set flags .bold s.bold
    let flags := StyleFlags.set flags .italic s.italic
    let flags := StyleFlags.set flags .dim s.faint
    let flags := StyleFlags.set flags .inverse s.inverse
    let flags := StyleFlags.set flags .hidden s.invisible
    let flags := StyleFlags.set flags .strikeout s.strikethrough
    flags ||| match s.underline with
      | .none => 0
      | .single => .underline
      | .double => .doubleUnderline
      | .curly => .undercurl
      | .dotted => .dottedUnderline
      | .dashed => .dashedUnderline

theorem idxOf?_concat {α : Type} [DecidableEq α] (xs : List α) (x y : α) :
    (xs ++ [x]).idxOf? y = (xs.idxOf? y).or (if x = y then some xs.length else none) := by
  rw [List.idxOf?, findIdx?_append, ← List.idxOf?]
  by_cases h : x = y <;> simp [h]

abbrev StyleId := BitVec 16

def maxStyles : ℕ := 65535

/-- Interning table for styles, owned per grid. -/
structure StyleSet where
  styles : List Style
  lookup : Style → Option StyleId
  /-- The default style is always there, as the first one. -/
  first : styles.head? = some Style.default
  indexed : ∀ style, lookup style = (styles.idxOf? style).map (BitVec.ofNat 16)
  bounded : styles.length ≤ maxStyles

namespace StyleSet

variable (set : StyleSet)

def new : StyleSet where
  styles := [.default]
  lookup style := if style = .default then some 0 else none
  first := rfl
  indexed style := by
    by_cases h : style = .default
    · simp [h]
    · have h' : Style.default ≠ style := fun he => h he.symm
      simp [h, h', idxOf?_cons]
  bounded := by decide

/-- Unknown ids are shown as the default style. -/
def get (id : StyleId) : Style := if id = 0 then .default else set.styles[id.toNat]?.getD .default

theorem mem_iff (style : Style) : set.lookup style = none ↔ style ∉ set.styles := by
  rw [set.indexed, Option.map_eq_none_iff, idxOf?_eq_none_iff]

/-- Intern a style.  A full table makes do with the default style. -/
def intern (style : Style) : StyleId × StyleSet :=
  match h : set.lookup style with
  | some id => (id, set)
  | none =>
    if hfull : maxStyles ≤ set.styles.length then (0, set)
    else
      let id := BitVec.ofNat 16 set.styles.length
      (id,
        { styles := set.styles ++ [style]
          lookup := Function.update set.lookup style (some id)
          first := by
            rw [head?_append, set.first]
            rfl
          indexed := fun other => by
            have hnew : set.styles.idxOf? style = none := by
              rw [idxOf?_eq_none_iff, ← set.mem_iff]
              exact h
            rw [idxOf?_concat]
            by_cases he : other = style
            · subst he
              rw [Function.update_self, hnew, if_pos rfl]
              rfl
            · rw [Function.update_of_ne he, set.indexed, if_neg (Ne.symm he), Option.or_none]
          bounded := by
            rw [length_append, length_singleton]
            omega })

/-- Reset to the initial state. -/
def clear : StyleSet where
  styles := set.styles.take 1
  lookup style := if style = .default then some 0 else none
  first := by
    rw [head?_take, set.first]
    rfl
  indexed style := by
    have hstyles : set.styles.take 1 = [.default] := by
      obtain ⟨rest, hrest⟩ := head?_eq_some_iff.mp set.first
      rw [hrest]
      rfl
    rw [hstyles, idxOf?_singleton]
    by_cases h : style = .default
    · simp [h]
    · have h' : Style.default ≠ style := fun he => h he.symm
      simp [h, h']
  bounded := by
    rw [length_take]
    exact Nat.le_trans (Nat.min_le_left _ _) (by decide)

end StyleSet

/-! ## Cells -/

/-- A cell: the first character in bits 0 to 20, the width in bits 21 and 22, the style's id in bits
32 to 47, and the id of further characters in bits 48 to 63. -/
abbrev Square := BitVec 64

inductive Wide
  | narrow
  | wide
  | spacer
  | leadingSpacer

namespace Wide

def bits : Wide → BitVec 2
  | narrow => 0
  | wide => 1
  | spacer => 2
  | leadingSpacer => 3

def ofBits (bits : BitVec 2) : Wide :=
  if bits = 0 then narrow else if bits = 1 then wide else if bits = 2 then spacer
  else leadingSpacer

theorem ofBits_bits (w : Wide) : ofBits w.bits = w := by
  cases w <;> rfl

end Wide

abbrev ExtrasId := BitVec 16

namespace Square

def c (square : Square) : Char := Char.ofNat (BitField.get 0 21 square).toNat

def setC (square : Square) (c : Char) : Square :=
  BitField.set 0 square (BitVec.ofNat 21 c.toNat)

def wide (square : Square) : Wide := .ofBits (BitField.get 21 2 square)

def setWide (square : Square) (w : Wide) : Square := BitField.set 21 square w.bits

def styleId (square : Square) : StyleId := BitField.get 32 16 square

def setStyleId (square : Square) (id : StyleId) : Square := BitField.set 32 square id

def extrasId (square : Square) : Option ExtrasId :=
  let id := BitField.get 48 16 square
  if id = 0 then none else some id

def setExtrasId (square : Square) (id : Option ExtrasId) : Square :=
  BitField.set 48 square (id.getD 0)

end Square

/-! ### Reading back -/

namespace Square

variable {square : Square}

theorem c_setC (c : Char) : (square.setC c).c = c := by
  have hlt : c.toNat < 2 ^ 21 := by
    have hvalid := c.valid
    rw [UInt32.isValidChar, Nat.isValidChar] at hvalid
    show c.val.toNat < _
    omega
  rw [Square.c, setC, BitField.get_set (by decide), BitVec.toNat_ofNat, Nat.mod_eq_of_lt hlt]
  exact Char.ofNat_toNat c

theorem c_setStyleId (id : StyleId) : (square.setStyleId id).c = square.c := by
  rw [c, setStyleId, BitField.get_set_of_disjoint (by decide) (by decide), c]

theorem c_setWide (w : Wide) : (square.setWide w).c = square.c := by
  rw [c, setWide, BitField.get_set_of_disjoint (by decide) (by decide), c]

theorem c_setExtrasId (id : Option ExtrasId) : (square.setExtrasId id).c = square.c := by
  rw [c, setExtrasId, BitField.get_set_of_disjoint (by decide) (by decide), c]

theorem wide_setWide (w : Wide) : (square.setWide w).wide = w := by
  rw [wide, setWide, BitField.get_set (by decide), Wide.ofBits_bits]

theorem wide_setExtrasId (id : Option ExtrasId) : (square.setExtrasId id).wide = square.wide := by
  rw [wide, setExtrasId, BitField.get_set_of_disjoint (by decide) (by decide), wide]

theorem styleId_setStyleId (id : StyleId) : (square.setStyleId id).styleId = id :=
  BitField.get_set (by decide)

theorem styleId_setWide (w : Wide) : (square.setWide w).styleId = square.styleId :=
  BitField.get_set_of_disjoint (by decide) (by decide)

theorem styleId_setExtrasId (id : Option ExtrasId) :
    (square.setExtrasId id).styleId = square.styleId :=
  BitField.get_set_of_disjoint (by decide) (by decide)

theorem extrasId_setExtrasId {id : ExtrasId} (h : id ≠ 0) :
    (square.setExtrasId (some id)).extrasId = some id := by
  rw [extrasId, setExtrasId, BitField.get_set (by decide)]
  exact if_neg h

end Square

/-! ## Captures -/

inductive CellWide
  | narrow
  | wide
  | spacerTail
  | spacerHead

def CellWide.toWide : CellWide → Wide
  | narrow => .narrow
  | wide => .wide
  | spacerTail => .spacer
  | spacerHead => .leadingSpacer

structure Extras where
  zerowidth : Str

structure RenderBuffer where
  cols : ℕ
  rows : ℕ
  grid : List (List Square)
  styles : StyleSet
  extras : ExtrasId → Option Extras
  nextExtrasId : ExtrasId

structure CellWrite where
  x : ℕ
  y : ℕ
  text : Str
  wide : CellWide
  style : SnapshotStyle

namespace CellWrite

variable (w : CellWrite)

/-- The character in the cell itself. -/
def base : Char := w.text.head?.getD ' '

/-- The characters that combine with it. -/
def zerowidth : Str := w.text.tail

/-- The cell, without its extras. -/
def put (id : StyleId) (square : Square) : Square :=
  ((square.setC w.base).setStyleId id).setWide w.wide.toWide

end CellWrite

/-- `saturating_add(1)` -/
def saturatingSucc (id : ExtrasId) : ExtrasId := if id = BitVec.allOnes 16 then id else id + 1

namespace RenderBuffer

def blankGrid (cols rows : ℕ) : List (List Square) := replicate rows (replicate cols 0)

def new (cols rows : ℕ) : RenderBuffer where
  cols
  rows
  grid := blankGrid (max cols 1) rows
  styles := .new
  extras _ := none
  nextExtrasId := 1

variable (b : RenderBuffer)

/-- The cell at a position; out of bounds the default one. -/
def cell (x y : ℕ) : Square :=
  if b.cols ≤ x ∨ b.rows ≤ y then 0 else ((b.grid[y]?.getD [])[x]?).getD 0

def style (id : StyleId) : Style := b.styles.get id

/-- The combining characters of a cell, as the renderer looks them up. -/
def zerowidth (square : Square) : Str :=
  ((square.extrasId.bind b.extras).map Extras.zerowidth).getD []

def beginCapture (cols rows : ℕ) : RenderBuffer :=
  let cols := max cols 1
  { cols
    rows
    grid :=
      if cols ≠ b.cols ∨ rows ≠ b.rows then blankGrid cols rows
      else b.grid.map fun row => row.map fun _ => 0
    styles := b.styles.clear
    extras := fun _ => none
    nextExtrasId := 1 }

/-- Change the cell at a position of the grid. -/
def modifyCell (x y : ℕ) (f : Square → Square) : List (List Square) :=
  b.grid.modify y fun row => row.modify x f

def writeCell (w : CellWrite) : RenderBuffer :=
  if b.cols ≤ w.x ∨ b.rows ≤ w.y then b
  else
    let (id, styles) := b.styles.intern (.ofSnapshot w.style)
    if w.zerowidth = [] then { b with styles, grid := b.modifyCell w.x w.y (w.put id) }
    else
      { b with
        styles
        grid := b.modifyCell w.x w.y fun square =>
          (w.put id square).setExtrasId (some b.nextExtrasId)
        extras := Function.update b.extras b.nextExtrasId (some { zerowidth := w.zerowidth })
        nextExtrasId := saturatingSucc b.nextExtrasId }

end RenderBuffer

/-- What is done to a buffer. -/
inductive Operation
  | beginCapture (cols rows : ℕ)
  | writeCell (w : CellWrite)

def RenderBuffer.perform (b : RenderBuffer) : Operation → RenderBuffer
  | .beginCapture cols rows => b.beginCapture cols rows
  | .writeCell w => b.writeCell w

/-! ## One cell -/

namespace CellWrite

variable (w : CellWrite) (id : StyleId) (square : Square)

theorem c_put : (w.put id square).c = w.base := by
  rw [put, Square.c_setWide, Square.c_setStyleId, Square.c_setC]

theorem wide_put : (w.put id square).wide = w.wide.toWide := Square.wide_setWide _

theorem styleId_put : (w.put id square).styleId = id := by
  rw [put, Square.styleId_setWide, Square.styleId_setStyleId]

/-- A blank cell is written without extras. -/
theorem extrasId_put : (w.put id 0).extrasId = none := by
  have hget : BitField.get 48 16 (w.put id 0) = 0 := by
    rw [put, Square.setWide, BitField.get_set_of_disjoint (by decide) (by decide),
      Square.setStyleId, BitField.get_set_of_disjoint (by decide) (by decide), Square.setC,
      BitField.get_set_of_disjoint (by decide) (by decide)]
    decide
  rw [Square.extrasId, hget]
  rfl

end CellWrite

theorem toNat_saturatingSucc (id : ExtrasId) :
    (saturatingSucc id).toNat = min (id.toNat + 1) 65535 := by
  rw [saturatingSucc]
  have hlt := id.isLt
  split
  · next h =>
    subst h
    decide
  · next h =>
    have hne : id.toNat ≠ 65535 := fun he => h (BitVec.eq_of_toNat_eq (by rw [he]; decide))
    rw [BitVec.toNat_add]
    show (id.toNat + 1) % 65536 = _
    omega

namespace StyleSet

variable (set : StyleSet) (style : Style)

variable {style}

theorem intern_of_mem (h : style ∈ set.styles) :
    ∃ i, set.styles[i]? = some style ∧ set.intern style = (BitVec.ofNat 16 i, set) := by
  obtain ⟨i, hi⟩ : ∃ i, set.styles.idxOf? style = some i := by
    rw [← Option.isSome_iff_exists, isSome_idxOf?]
    exact h
  obtain ⟨hlt, hget, -⟩ := idxOf?_eq_some_iff.mp hi
  have hlookup : set.lookup style = some (BitVec.ofNat 16 i) := by
    rw [set.indexed, hi]
    rfl
  refine ⟨i, by rw [getElem?_eq_getElem hlt, hget], ?_⟩
  rw [intern]
  split
  · next id h =>
    obtain rfl := Option.some.inj (hlookup.symm.trans h)
    rfl
  · next h => cases hlookup.symm.trans h

theorem intern_of_full (h : style ∉ set.styles) (hfull : maxStyles ≤ set.styles.length) :
    set.intern style = (0, set) := by
  rw [intern]
  split
  · next id hid => cases ((set.mem_iff style).mpr h).symm.trans hid
  · exact dif_pos hfull

theorem intern_of_room (h : style ∉ set.styles) (hroom : ¬ maxStyles ≤ set.styles.length) :
    (set.intern style).1 = BitVec.ofNat 16 set.styles.length ∧
      (set.intern style).2.styles = set.styles ++ [style] := by
  rw [intern]
  split
  · next id hid => cases ((set.mem_iff style).mpr h).symm.trans hid
  · rw [dif_neg hroom]
    exact ⟨rfl, rfl⟩

theorem toNat_ofNat_index {i : ℕ} (h : i ≤ maxStyles) : (BitVec.ofNat 16 i).toNat = i := by
  have : maxStyles = 65535 := rfl
  rw [BitVec.toNat_ofNat]
  exact Nat.mod_eq_of_lt (by omega)

theorem styles_intern :
    (set.intern style).2.styles = Interner.addBounded maxStyles set.styles style := by
  rw [Interner.addBounded]
  by_cases hmem : style ∈ set.styles
  · obtain ⟨i, -, hintern⟩ := set.intern_of_mem hmem
    rw [hintern, if_pos (.inl hmem)]
  · by_cases hfull : maxStyles ≤ set.styles.length
    · rw [set.intern_of_full hmem hfull, if_pos (.inr hfull)]
    · rw [(set.intern_of_room hmem hfull).2, if_neg (not_or.mpr ⟨hmem, hfull⟩)]

/-- The id of an interned style names it, or the default style in a full table. -/
theorem getElem?_intern :
    (set.intern style).2.styles[(set.intern style).1.toNat]? =
      some (if style ∈ (set.intern style).2.styles then style else .default) := by
  by_cases hmem : style ∈ set.styles
  · obtain ⟨i, hget, hintern⟩ := set.intern_of_mem hmem
    have hlt := (List.getElem?_eq_some_iff.mp hget).1
    rw [hintern, if_pos hmem, toNat_ofNat_index (Nat.le_trans (Nat.le_of_lt hlt) set.bounded)]
    exact hget
  · by_cases hfull : maxStyles ≤ set.styles.length
    · rw [set.intern_of_full hmem hfull, if_neg hmem]
      have hfirst := set.first
      rw [head?_eq_getElem?] at hfirst
      exact hfirst
    · obtain ⟨hid, hstyles⟩ := set.intern_of_room hmem hfull
      rw [hid, hstyles, if_pos (by simp), toNat_ofNat_index set.bounded]
      exact getElem?_concat_length

variable (style)

/-- Reading a named id. -/
theorem get_of_getElem? {id : StyleId} (h : set.styles[id.toNat]? = some style) :
    set.get id = style := by
  rw [get]
  split
  · next hid =>
    rw [hid] at h
    have hfirst := set.first
    rw [head?_eq_getElem?] at hfirst
    exact Option.some.inj (hfirst.symm.trans h)
  · rw [h]
    rfl

end StyleSet

/-! ## The grid -/

namespace RenderBuffer

/-- The rows of the grid are those of the buffer; a row has at least one cell. -/
structure Sized (b : RenderBuffer) : Prop where
  height : b.grid.length = b.rows
  width : ∀ row ∈ b.grid, row.length = max b.cols 1

theorem blankGrid_width {cols rows : ℕ} : ∀ row ∈ blankGrid cols rows, row.length = cols := by
  intro row hrow
  rw [(mem_replicate.mp hrow).2, length_replicate]

theorem sized_new {cols rows : ℕ} : Sized (new cols rows) where
  height := length_replicate
  width := blankGrid_width

namespace Sized

variable {b : RenderBuffer}

theorem fill (h : Sized b) :
    (b.grid.map fun row => row.map fun _ => (0 : Square)) = blankGrid (max b.cols 1) b.rows := by
  rw [blankGrid, eq_replicate_iff]
  refine ⟨by rw [length_map, h.height], fun row hrow => ?_⟩
  obtain ⟨old, hold, rfl⟩ := mem_map.mp hrow
  rw [map_const', h.width old hold]

theorem grid_beginCapture (h : Sized b) (cols rows : ℕ) :
    (b.beginCapture cols rows).grid = blankGrid (max cols 1) rows := by
  rw [beginCapture]
  simp only
  split
  · rfl
  · next hsame =>
    obtain ⟨hcols, hrows⟩ := not_or.mp hsame
    rw [h.fill, ← not_not.mp hcols, ← not_not.mp hrows, max_assoc, max_self]

theorem beginCapture (h : Sized b) (cols rows : ℕ) : Sized (b.beginCapture cols rows) where
  height := by
    rw [h.grid_beginCapture]
    exact length_replicate
  width := by
    rw [h.grid_beginCapture]
    intro row hrow
    rw [blankGrid_width row hrow]
    show max cols 1 = max (max cols 1) 1
    rw [max_assoc, max_self]

theorem length_modifyCell (h : Sized b) (x y : ℕ) (f : Square → Square) :
    (b.modifyCell x y f).length = b.rows := by
  rw [modifyCell, length_modify, h.height]

theorem width_modifyCell (h : Sized b) (x y : ℕ) (f : Square → Square) :
    ∀ row ∈ b.modifyCell x y f, row.length = max b.cols 1 := by
  intro row hrow
  obtain ⟨i, hi⟩ := mem_iff_getElem?.mp hrow
  rw [modifyCell, getElem?_modify] at hi
  obtain ⟨old, hold, rfl⟩ := Option.map_eq_some_iff.mp hi
  have hwidth := h.width old (mem_of_getElem? hold)
  split
  · rw [length_modify, hwidth]
  · exact hwidth

theorem writeCell (h : Sized b) (w : CellWrite) : Sized (b.writeCell w) := by
  rw [RenderBuffer.writeCell]
  split
  · exact h
  · simp only
    split
    · exact ⟨h.length_modifyCell w.x w.y _, h.width_modifyCell w.x w.y _⟩
    · exact ⟨h.length_modifyCell w.x w.y _, h.width_modifyCell w.x w.y _⟩

theorem perform (h : Sized b) (operation : Operation) : Sized (b.perform operation) := by
  cases operation with
  | beginCapture cols rows => exact h.beginCapture cols rows
  | writeCell w => exact h.writeCell w

theorem foldl_perform (h : Sized b) (operations : List Operation) :
    Sized (operations.foldl RenderBuffer.perform b) := by
  induction operations generalizing b with
  | nil => exact h
  | cons operation operations ih => exact ih (h.perform operation)

/-- Changing a cell of the grid leaves the others alone. -/
theorem cell_modifyCell (h : Sized b) {x y : ℕ} (hx : x < b.cols) (hy : y < b.rows)
    (f : Square → Square) {b' : RenderBuffer} (hcols : b'.cols = b.cols) (hrows : b'.rows = b.rows)
    (hgrid : b'.grid = b.modifyCell x y f) (x' y' : ℕ) :
    b'.cell x' y' = if x' = x ∧ y' = y then f (b.cell x y) else b.cell x' y' := by
  have hin : ¬ (b.cols ≤ x ∨ b.rows ≤ y) := by omega
  rw [cell, cell, cell, hcols, hrows, hgrid]
  by_cases hout : b.cols ≤ x' ∨ b.rows ≤ y'
  · rw [if_pos hout, if_pos hout, if_neg]
    rintro ⟨rfl, rfl⟩
    omega
  · rw [if_neg hout, if_neg hout, if_neg hin, modifyCell, getElem?_modify, Option.map_eq_map]
    obtain ⟨hx', hy'⟩ := not_or.mp hout
    have hy : y' < b.grid.length := by
      rw [h.height]
      omega
    obtain ⟨row, hrow⟩ : ∃ row, b.grid[y']? = some row := ⟨_, getElem?_eq_getElem hy⟩
    have hwidth := h.width row (mem_of_getElem? hrow)
    by_cases hyy : y = y'
    · subst hyy
      rw [hrow, Option.map_some, Option.getD_some, Option.getD_some, if_pos rfl, getElem?_modify]
      have hx : x' < row.length := by omega
      obtain ⟨square, hsquare⟩ : ∃ square, row[x']? = some square :=
        ⟨_, getElem?_eq_getElem hx⟩
      by_cases hxx : x = x'
      · subst hxx
        rw [hsquare, if_pos ⟨rfl, rfl⟩, Option.map_eq_map, Option.map_some, if_pos rfl]
        rfl
      · rw [hsquare, if_neg (fun hpos => hxx hpos.1.symm), Option.map_eq_map, Option.map_some,
          if_neg hxx]
    · rw [hrow, Option.map_some, if_neg hyy, if_neg (fun hpos => hyy hpos.2.symm)]

end Sized

theorem cell_blank {b : RenderBuffer} {cols rows : ℕ} (h : b.grid = blankGrid cols rows)
    (x y : ℕ) : b.cell x y = 0 := by
  rw [cell, h, blankGrid, getElem?_replicate]
  split
  · rfl
  · split
    · rw [Option.getD_some, getElem?_replicate]
      split <;> rfl
    · rfl

end RenderBuffer

/-! ## One capture -/

/-- The combining characters of the cells that have some, as they were written. -/
def marks (ws : List CellWrite) : List Str := (ws.map CellWrite.zerowidth).filter (· ≠ [])

/-- The styles of a capture: the default one and those written, until the table is full. -/
def capturedStyles (ws : List CellWrite) : List Style :=
  (Interner.addAll [.default] (ws.map fun w => Style.ofSnapshot w.style)).take maxStyles

/-- The id of the `n`-th combining characters. -/
def markId (n : ℕ) : ExtrasId := BitVec.ofNat 16 (min n 65535)

theorem toNat_markId (n : ℕ) : (markId n).toNat = min n 65535 := by
  rw [markId, BitVec.toNat_ofNat]
  exact Nat.mod_eq_of_lt (by omega)

theorem markId_ne_zero {n : ℕ} (h : 0 < n) : markId n ≠ 0 := by
  intro heq
  have hnat := toNat_markId n
  rw [heq] at hnat
  change 0 = min n 65535 at hnat
  omega

variable {ws : List CellWrite} {w : CellWrite}

theorem marks_concat :
    marks (ws ++ [w]) = if w.zerowidth = [] then marks ws else marks ws ++ [w.zerowidth] := by
  rw [marks, map_append, filter_append, ← marks, map_cons, map_nil, filter_singleton]
  by_cases h : w.zerowidth = []
  · rw [if_pos h, h]
    exact append_nil _
  · rw [if_neg h]
    simp [h]

theorem capturedStyles_concat : capturedStyles (ws ++ [w]) =
    Interner.addBounded maxStyles (capturedStyles ws) (.ofSnapshot w.style) := by
  rw [capturedStyles, capturedStyles, Interner.addBounded_take, map_append,
    Interner.addAll, foldl_append]
  rfl

/-- What a written cell is: `before` was written earlier in the capture. -/
structure Shows (styles : List Style) (before : List CellWrite) (w : CellWrite)
    (square : Square) : Prop where
  c : square.c = w.base
  wide : square.wide = w.wide.toWide
  style : styles[square.styleId.toNat]? =
    some (if Style.ofSnapshot w.style ∈ styles then .ofSnapshot w.style else .default)
  extras : square.extrasId =
    if w.zerowidth = [] then none else some (markId (marks (before ++ [w])).length)

/-- A buffer after the writes `ws` of a capture, all of them within the grid. -/
structure Wrote (cols rows : ℕ) (ws : List CellWrite) (b : RenderBuffer) : Prop where
  cols : b.cols = cols
  rows : b.rows = rows
  sized : b.Sized
  styles : b.styles.styles = capturedStyles ws
  next : b.nextExtrasId = markId ((marks ws).length + 1)
  extras : ∀ k mark, (marks ws)[k]? = some mark → k + 1 < 65535 ∨ k + 1 = (marks ws).length →
    b.extras (markId (k + 1)) = some { zerowidth := mark }
  cells : History.AtEach (fun before w => Shows b.styles.styles before w (b.cell w.x w.y)) ws
  blank : ∀ x y, (∀ w ∈ ws, (w.x, w.y) ≠ (x, y)) → b.cell x y = 0

namespace Shows

variable {styles : List Style} {before : List CellWrite} {square : Square}

/-- A full table keeps its styles, and one that is not full has them all. -/
theorem addBounded (h : Shows styles before w square)
    (hold : Style.ofSnapshot w.style ∈ styles ∨ maxStyles ≤ styles.length) (style : Style) :
    Shows (Interner.addBounded maxStyles styles style) before w square where
  c := h.c
  wide := h.wide
  extras := h.extras
  style := by
    rw [Interner.addBounded]
    split
    · exact h.style
    · next hroom =>
      have hmem := hold.resolve_right (not_or.mp hroom).2
      have hstyle := h.style
      rw [if_pos hmem] at hstyle
      rw [if_pos (mem_append_left _ hmem),
        getElem?_append_left (List.getElem?_eq_some_iff.mp hstyle).1, hstyle]

end Shows

theorem mem_capturedStyles (h : w ∈ ws) :
    Style.ofSnapshot w.style ∈ capturedStyles ws ∨ maxStyles ≤ (capturedStyles ws).length := by
  have hmem : Style.ofSnapshot w.style ∈ ws.map fun w => Style.ofSnapshot w.style :=
    mem_map.mpr ⟨w, h, rfl⟩
  exact (Interner.mem_or_full hmem).imp_right fun hlength => Nat.le_of_eq hlength.symm

/-! ### One write -/

namespace RenderBuffer

variable {b : RenderBuffer}

theorem writeCell_of_outside (h : b.cols ≤ w.x ∨ b.rows ≤ w.y) : b.writeCell w = b := if_pos h

/-- A write without combining characters. -/
theorem writeCell_bare (hin : ¬ (b.cols ≤ w.x ∨ b.rows ≤ w.y)) (hbare : w.zerowidth = []) :
    b.writeCell w =
      { b with
        styles := (b.styles.intern (.ofSnapshot w.style)).2
        grid := b.modifyCell w.x w.y (w.put (b.styles.intern (.ofSnapshot w.style)).1) } := by
  rw [writeCell, if_neg hin]
  exact if_pos hbare

/-- A write with combining characters. -/
theorem writeCell_marked (hin : ¬ (b.cols ≤ w.x ∨ b.rows ≤ w.y)) (hmarked : w.zerowidth ≠ []) :
    b.writeCell w =
      { b with
        styles := (b.styles.intern (.ofSnapshot w.style)).2
        grid := b.modifyCell w.x w.y fun square =>
          (w.put (b.styles.intern (.ofSnapshot w.style)).1 square).setExtrasId (some b.nextExtrasId)
        extras := Function.update b.extras b.nextExtrasId (some { zerowidth := w.zerowidth })
        nextExtrasId := saturatingSucc b.nextExtrasId } := by
  rw [writeCell, if_neg hin]
  exact if_neg hmarked

theorem cols_writeCell : (b.writeCell w).cols = b.cols := by
  rw [writeCell]
  split
  · rfl
  · simp only
    split <;> rfl

theorem rows_writeCell : (b.writeCell w).rows = b.rows := by
  rw [writeCell]
  split
  · rfl
  · simp only
    split <;> rfl

theorem styles_writeCell (hin : ¬ (b.cols ≤ w.x ∨ b.rows ≤ w.y)) :
    (b.writeCell w).styles = (b.styles.intern (.ofSnapshot w.style)).2 := by
  by_cases hbare : w.zerowidth = []
  · rw [writeCell_bare hin hbare]
  · rw [writeCell_marked hin hbare]

/-- The cell that a write leaves behind. -/
def written (b : RenderBuffer) (w : CellWrite) (square : Square) : Square :=
  let id := (b.styles.intern (.ofSnapshot w.style)).1
  if w.zerowidth = [] then w.put id square
  else (w.put id square).setExtrasId (some b.nextExtrasId)

theorem grid_writeCell (hin : ¬ (b.cols ≤ w.x ∨ b.rows ≤ w.y)) :
    (b.writeCell w).grid = b.modifyCell w.x w.y (b.written w) := by
  by_cases hbare : w.zerowidth = []
  · have hwritten : b.written w = w.put (b.styles.intern (.ofSnapshot w.style)).1 :=
      funext fun _ => if_pos hbare
    rw [writeCell_bare hin hbare, hwritten]
  · have hwritten : b.written w = fun square =>
        (w.put (b.styles.intern (.ofSnapshot w.style)).1 square).setExtrasId
          (some b.nextExtrasId) := funext fun _ => if_neg hbare
    rw [writeCell_marked hin hbare, hwritten]

theorem Sized.cell_writeCell (h : Sized b) (hin : ¬ (b.cols ≤ w.x ∨ b.rows ≤ w.y)) (x y : ℕ) :
    (b.writeCell w).cell x y =
      if x = w.x ∧ y = w.y then b.written w (b.cell w.x w.y) else b.cell x y :=
  h.cell_modifyCell (by omega) (by omega) _ cols_writeCell rows_writeCell (grid_writeCell hin) x y

/-- A write leaves the other cells alone. -/
theorem Sized.cell_writeCell_of_ne (h : Sized b) (hin : ¬ (b.cols ≤ w.x ∨ b.rows ≤ w.y)) {x y : ℕ}
    (hne : (w.x, w.y) ≠ (x, y)) : (b.writeCell w).cell x y = b.cell x y := by
  rw [h.cell_writeCell hin, if_neg]
  rintro ⟨rfl, rfl⟩
  exact hne rfl

/-- A blank cell shows what is written there. -/
theorem Sized.shows_writeCell (h : Sized b) (hin : ¬ (b.cols ≤ w.x ∨ b.rows ≤ w.y))
    (hblank : b.cell w.x w.y = 0) (hnext : b.nextExtrasId = markId ((marks ws).length + 1)) :
    Shows (b.writeCell w).styles.styles ws w ((b.writeCell w).cell w.x w.y) := by
  have hstyle := @StyleSet.getElem?_intern b.styles (.ofSnapshot w.style)
  rw [styles_writeCell hin, h.cell_writeCell hin, if_pos ⟨rfl, rfl⟩, hblank, written]
  by_cases hbare : w.zerowidth = []
  · rw [if_pos hbare]
    refine ⟨w.c_put _ _, w.wide_put _ _, ?_, ?_⟩
    · rw [w.styleId_put]
      exact hstyle
    · rw [w.extrasId_put, if_pos hbare]
  · rw [if_neg hbare]
    refine ⟨?_, ?_, ?_, ?_⟩
    · rw [Square.c_setExtrasId, w.c_put]
    · rw [Square.wide_setExtrasId, w.wide_put]
    · rw [Square.styleId_setExtrasId, w.styleId_put]
      exact hstyle
    · rw [if_neg hbare, marks_concat, if_neg hbare, length_append, length_singleton, hnext]
      exact Square.extrasId_setExtrasId (markId_ne_zero (Nat.succ_pos _))

end RenderBuffer

/-! ### All writes -/

theorem saturatingSucc_markId (n : ℕ) : saturatingSucc (markId n) = markId (n + 1) := by
  refine BitVec.eq_of_toNat_eq ?_
  rw [toNat_saturatingSucc, toNat_markId, toNat_markId]
  omega

namespace Wrote

variable {cols rows : ℕ} {b : RenderBuffer}

theorem extras_write (h : Wrote cols rows ws b) (hin : ¬ (b.cols ≤ w.x ∨ b.rows ≤ w.y)) (k : ℕ)
    (mark : Str) (hmark : (marks (ws ++ [w]))[k]? = some mark)
    (hk : k + 1 < 65535 ∨ k + 1 = (marks (ws ++ [w])).length) :
    (b.writeCell w).extras (markId (k + 1)) = some { zerowidth := mark } := by
  rw [marks_concat] at hmark hk
  by_cases hbare : w.zerowidth = []
  · rw [if_pos hbare] at hmark hk
    rw [RenderBuffer.writeCell_bare hin hbare]
    exact h.extras k mark hmark hk
  · rw [if_neg hbare] at hmark hk
    rw [RenderBuffer.writeCell_marked hin hbare]
    show Function.update _ _ _ _ = _
    rw [h.next]
    rw [length_append, length_singleton] at hk
    rcases Nat.lt_or_ge k (marks ws).length with hlt | hge
    · -- an earlier id is another one: it is below the limit
      have hne : markId (k + 1) ≠ markId ((marks ws).length + 1) := by
        intro heq
        have hnat := congrArg BitVec.toNat heq
        rw [toNat_markId, toNat_markId] at hnat
        omega
      rw [Function.update_of_ne hne]
      rw [getElem?_append_left hlt] at hmark
      exact h.extras k mark hmark (.inl (by omega))
    · have hlast : k = (marks ws).length := by
        have hlen := (List.getElem?_eq_some_iff.mp hmark).1
        rw [length_append, length_singleton] at hlen
        omega
      subst hlast
      rw [getElem?_concat_length] at hmark
      rw [Function.update_self, Option.some.inj hmark]

theorem next_write (h : Wrote cols rows ws b) (hin : ¬ (b.cols ≤ w.x ∨ b.rows ≤ w.y)) :
    (b.writeCell w).nextExtrasId = markId ((marks (ws ++ [w])).length + 1) := by
  rw [marks_concat]
  by_cases hbare : w.zerowidth = []
  · rw [RenderBuffer.writeCell_bare hin hbare, if_pos hbare]
    exact h.next
  · rw [RenderBuffer.writeCell_marked hin hbare, if_neg hbare, length_append, length_singleton]
    show saturatingSucc b.nextExtrasId = _
    rw [h.next, saturatingSucc_markId]

/-- One more write, at a new position. -/
theorem write (h : Wrote cols rows ws b) (hx : w.x < cols) (hy : w.y < rows)
    (hnew : ∀ v ∈ ws, (v.x, v.y) ≠ (w.x, w.y)) : Wrote cols rows (ws ++ [w]) (b.writeCell w) := by
  have hin : ¬ (b.cols ≤ w.x ∨ b.rows ≤ w.y) := by
    rw [h.cols, h.rows]
    omega
  have hstyles : (b.writeCell w).styles.styles =
      Interner.addBounded maxStyles b.styles.styles (.ofSnapshot w.style) := by
    rw [RenderBuffer.styles_writeCell hin, StyleSet.styles_intern]
  refine
    { cols := by rw [RenderBuffer.cols_writeCell, h.cols]
      rows := by rw [RenderBuffer.rows_writeCell, h.rows]
      sized := h.sized.writeCell w
      styles := by rw [hstyles, h.styles, capturedStyles_concat]
      next := h.next_write hin
      extras := h.extras_write hin
      cells := .concat ?_ (h.sized.shows_writeCell hin (h.blank _ _ hnew) h.next)
      blank := ?_ }
  · intro before v after hv
    have hmem : v ∈ ws := by
      rw [hv]
      exact mem_append_right _ mem_cons_self
    have hold := h.cells before v after hv
    rw [hstyles, h.sized.cell_writeCell_of_ne hin (hnew v hmem).symm]
    refine hold.addBounded ?_ _
    rw [h.styles]
    exact mem_capturedStyles hmem
  · intro x y hxy
    rw [h.sized.cell_writeCell_of_ne hin (hxy w (by simp))]
    exact h.blank x y fun v hv => hxy v (mem_append_left _ hv)

end Wrote

/-- A capture begins with a blank grid and empty tables. -/
theorem wrote_nil {b : RenderBuffer} (h : b.Sized) (cols rows : ℕ) :
    Wrote (max cols 1) rows [] (b.beginCapture cols rows) where
  cols := rfl
  rows := rfl
  sized := h.beginCapture cols rows
  styles := by
    obtain ⟨rest, hrest⟩ := head?_eq_some_iff.mp b.styles.first
    show b.styles.styles.take 1 = _
    rw [hrest]
    rfl
  next := rfl
  extras k mark hmark _ := by cases hmark
  cells := History.atEach_nil
  blank x y _ := RenderBuffer.cell_blank (h.grid_beginCapture cols rows) x y

/-- Whether a write is within the grid. -/
def CellWrite.inside (cols rows : ℕ) (w : CellWrite) : Bool := decide (w.x < cols ∧ w.y < rows)

/-- **The writes of a capture**, at distinct positions. -/
theorem Wrote.foldl_writeCell {cols rows : ℕ} {b : RenderBuffer} (h : Wrote cols rows [] b)
    (hdistinct : (ws.map fun w => (w.x, w.y)).Nodup) :
    Wrote cols rows (ws.filter (CellWrite.inside cols rows))
      (ws.foldl RenderBuffer.writeCell b) := by
  induction ws using reverseRecOn with
  | nil => exact h
  | append_singleton ws w ih =>
    rw [map_append, map_singleton, nodup_append] at hdistinct
    have hws := ih hdistinct.1
    rw [foldl_append, filter_append, filter_singleton]
    show Wrote _ _ _ ((ws.foldl RenderBuffer.writeCell b).writeCell w)
    by_cases hin : w.x < cols ∧ w.y < rows
    · rw [CellWrite.inside, decide_eq_true hin]
      refine hws.write hin.1 hin.2 fun v hv => ?_
      exact hdistinct.2.2 _ (mem_map_of_mem (mem_of_mem_filter hv)) _ (mem_singleton.mpr rfl)
    · rw [CellWrite.inside, decide_eq_false hin, RenderBuffer.writeCell_of_outside]
      · rw [cond_false, append_nil]
        exact hws
      · rw [hws.cols, hws.rows]
        omega

/-- The buffer that a capture begins with is the same whatever was captured before. -/
theorem RenderBuffer.Sized.beginCapture_eq {b b' : RenderBuffer} (h : b.Sized) (h' : b'.Sized)
    (cols rows : ℕ) : b.beginCapture cols rows = b'.beginCapture cols rows := by
  have hstyles : b.styles.clear = b'.styles.clear := by
    obtain ⟨rest, hrest⟩ := head?_eq_some_iff.mp b.styles.first
    obtain ⟨rest', hrest'⟩ := head?_eq_some_iff.mp b'.styles.first
    rw [StyleSet.clear, StyleSet.clear, StyleSet.mk.injEq, hrest, hrest']
    exact ⟨rfl, rfl⟩
  have hgrid : (b.beginCapture cols rows).grid = (b'.beginCapture cols rows).grid := by
    rw [h.grid_beginCapture, h'.grid_beginCapture]
  rw [RenderBuffer.mk.injEq]
  exact ⟨rfl, rfl, hgrid, hstyles, rfl, rfl⟩

namespace Wrote

variable {cols rows : ℕ} {b : RenderBuffer}

/-- A written cell has its own combining characters, below the limit or as the last such cell. -/
theorem zerowidth_eq (h : Wrote cols rows ws b) {earlier later : List CellWrite}
    (hws : ws = earlier ++ w :: later)
    (hown : w.zerowidth = [] ∨ (marks (earlier ++ [w])).length < 65535 ∨ marks later = []) :
    b.zerowidth (b.cell w.x w.y) = w.zerowidth := by
  have hshows := h.cells earlier w later hws
  rw [RenderBuffer.zerowidth, hshows.extras]
  by_cases hbare : w.zerowidth = []
  · rw [if_pos hbare, hbare]
    rfl
  · have hmarks : marks (earlier ++ [w]) = marks earlier ++ [w.zerowidth] := by
      rw [marks_concat, if_neg hbare]
    have hall : marks ws = marks (earlier ++ [w]) ++ marks later := by
      rw [hws, append_cons, marks, map_append, filter_append]
      rfl
    have hlength : (marks (earlier ++ [w])).length = (marks earlier).length + 1 := by
      rw [hmarks, length_append, length_singleton]
    have hmark : (marks ws)[(marks earlier).length]? = some w.zerowidth := by
      rw [hall, hmarks, append_assoc, getElem?_append_right (Nat.le_refl _), Nat.sub_self]
      rfl
    rw [if_neg hbare, hlength, Option.bind_some, h.extras _ _ hmark]
    · rfl
    · rcases hown.resolve_left hbare with hlt | hlast
      · exact .inl (hlength ▸ hlt)
      · rw [hall, hlast, append_nil]
        exact .inr hlength.symm

theorem style_eq (h : Wrote cols rows ws b) {earlier later : List CellWrite}
    (hws : ws = earlier ++ w :: later) : b.style (b.cell w.x w.y).styleId =
      if Style.ofSnapshot w.style ∈ capturedStyles ws then .ofSnapshot w.style else .default := by
  have hstyle := (h.cells earlier w later hws).style
  rw [RenderBuffer.style, b.styles.get_of_getElem? _ hstyle, h.styles]

end Wrote

/-- **Captured cells.**  Whatever was captured before, a written cell has its character, its width,
its style if that is among the first 65535 of the capture, and its combining characters if fewer
than 65535 cells have had some by then or if no later one has any. -/
theorem captured (before : List Operation) (cols₀ rows₀ cols rows : ℕ) (ws : List CellWrite)
    (hdistinct : (ws.map fun w ↦ (w.x, w.y)).Nodup) :
    let start := (before.foldl RenderBuffer.perform (.new cols₀ rows₀)).beginCapture cols rows
    let b := ws.foldl RenderBuffer.writeCell start
    let inside := ws.filter (CellWrite.inside (max cols 1) rows)
    (∀ earlier w later, inside = earlier ++ w :: later →
      (b.cell w.x w.y).c = w.base ∧
      (b.cell w.x w.y).wide = w.wide.toWide ∧
      b.style (b.cell w.x w.y).styleId =
        (if Style.ofSnapshot w.style ∈ capturedStyles inside then .ofSnapshot w.style
        else .default) ∧
      (w.zerowidth = [] ∨ (marks (earlier ++ [w])).length < 65535 ∨ marks later = [] →
        b.zerowidth (b.cell w.x w.y) = w.zerowidth)) ∧
    (∀ x y, (∀ w ∈ inside, (w.x, w.y) ≠ (x, y)) → b.cell x y = 0) ∧
    ∀ (before' : List Operation) (cols₁ rows₁ : ℕ), b = ws.foldl RenderBuffer.writeCell
      ((before'.foldl RenderBuffer.perform (.new cols₁ rows₁)).beginCapture cols rows) := by
  intro start b inside
  have hsized := (@RenderBuffer.sized_new cols₀ rows₀).foldl_perform before
  have hwrote : Wrote (max cols 1) rows inside b :=
    (wrote_nil hsized cols rows).foldl_writeCell hdistinct
  refine ⟨fun earlier w later hw ↦ ?_, hwrote.blank, fun before' cols₁ rows₁ ↦ ?_⟩
  · have hshows := hwrote.cells earlier w later hw
    exact ⟨hshows.c, hshows.wide, hwrote.style_eq hw, hwrote.zerowidth_eq hw⟩
  · have hsized' := (@RenderBuffer.sized_new cols₁ rows₁).foldl_perform before'
    exact congrArg (ws.foldl RenderBuffer.writeCell) (hsized.beginCapture_eq hsized' cols rows)

/-! ### A full table -/

/-- A style of its own for each number below `2 ^ 16`. -/
def colored (i : ℕ) : SnapshotStyle where
  fg := some { r := UInt8.ofNat (i % 256), g := UInt8.ofNat (i / 256), b := 0 }
  bg := none
  bold := false
  italic := false
  faint := false
  blink := false
  inverse := false
  invisible := false
  strikethrough := false
  overline := false
  underline := .none
  underlineColor := none

/-- A letter with a combining character. -/
def accented (i : ℕ) (mark : Char) : CellWrite where
  x := i
  y := 0
  text := ['a', mark]
  wide := .narrow
  style := colored i

/-- An accent is shown in its own cell and style, after a capture that used the same ids. -/
theorem captured_accented :
    let b := [accented 0 'b', accented 1 'c'].foldl RenderBuffer.writeCell
      (([.writeCell (accented 0 'x')].foldl RenderBuffer.perform (.new 2 1)).beginCapture 2 1)
    b.style (b.cell 1 0).styleId = .ofSnapshot (colored 1) ∧ b.zerowidth (b.cell 1 0) = ['c'] := by
  intro b
  obtain ⟨hcells, -⟩ := captured [.writeCell (accented 0 'x')] 2 1 2 1
    [accented 0 'b', accented 1 'c'] (by decide)
  obtain ⟨-, -, hstyle, hmarks⟩ := hcells [accented 0 'b'] (accented 1 'c') [] rfl
  exact ⟨hstyle.trans (if_pos (by decide)), hmarks (.inr (.inr rfl))⟩

theorem colored_injective {i j : ℕ} (hi : i < 65536) (hj : j < 65536)
    (h : Style.ofSnapshot (colored i) = .ofSnapshot (colored j)) : i = j := by
  have hfg : AnsiColor.spec _ = AnsiColor.spec _ := congrArg Style.fg h
  rw [AnsiColor.spec.injEq, ColorRgb.mk.injEq] at hfg
  obtain ⟨hr, hg, -⟩ := hfg
  have hr' := congrArg UInt8.toNat hr
  have hg' := congrArg UInt8.toNat hg
  rw [UInt8.toNat_ofNat', UInt8.toNat_ofNat'] at hr' hg'
  omega

theorem colored_ne_default (i : ℕ) : Style.ofSnapshot (colored i) ≠ .default := by
  intro h
  have hfg : AnsiColor.spec _ = AnsiColor.named _ := congrArg Style.fg h
  cases hfg

/-- A row of accented letters, with another accent on the last one. -/
def crowd (m : ℕ) : List CellWrite :=
  (List.range (m + 1)).map (accented · 'b') ++ [accented (m + 1) 'c']

theorem marks_crowd (m : ℕ) : marks (crowd m) = replicate (m + 1) ['b'] ++ [['c']] := by
  rw [crowd, marks, map_append, map_map, filter_append]
  have hmap : (List.range (m + 1)).map (CellWrite.zerowidth ∘ (accented · 'b')) =
      replicate (m + 1) ['b'] := by
    rw [eq_replicate_iff]
    refine ⟨by rw [length_map, length_range], fun mark hmark => ?_⟩
    obtain ⟨i, -, rfl⟩ := mem_map.mp hmark
    rfl
  rw [hmap, filter_eq_self.mpr]
  · rfl
  · intro mark hmark
    rw [(mem_replicate.mp hmark).2]
    rfl

theorem styles_crowd (m : ℕ) : (crowd m).map (fun w => Style.ofSnapshot w.style) =
    (List.range (m + 2)).map fun i => .ofSnapshot (colored i) := by
  rw [crowd, map_append, map_map, @List.range_succ (m + 1), map_append]
  rfl

/-- The styles of a crowd fill the table one after the other. -/
theorem capturedStyles_crowd {m : ℕ} (hm : m + 2 ≤ 65536) : capturedStyles (crowd m) =
    (.default :: (List.range (m + 2)).map fun i => Style.ofSnapshot (colored i)).take
      maxStyles := by
  rw [capturedStyles, styles_crowd, Interner.addAll_of_nodup]
  · rfl
  · refine nodup_cons.mpr ⟨fun hmem => ?_, ?_⟩
    · obtain ⟨i, -, hi⟩ := mem_map.mp hmem
      exact colored_ne_default i hi
    · refine List.Nodup.map_on ?_ nodup_range
      intro i hi j hj heq
      rw [mem_range] at hi hj
      exact colored_injective (by omega) (by omega) heq

theorem crowd_distinct (m : ℕ) : ((crowd m).map fun w => (w.x, w.y)).Nodup := by
  have hmap : (crowd m).map (fun w => (w.x, w.y)) = (List.range (m + 2)).map (·, 0) := by
    rw [crowd, map_append, map_map, @List.range_succ (m + 1), map_append]
    rfl
  rw [hmap]
  exact nodup_range.map fun _ _ h => (Prod.mk.inj h).1

theorem crowd_inside (m : ℕ) : (crowd m).filter (CellWrite.inside (m + 2) 1) = crowd m := by
  rw [filter_eq_self]
  intro w hw
  rw [crowd, mem_append] at hw
  rcases hw with hw | hw
  · obtain ⟨i, hi, rfl⟩ := mem_map.mp hw
    rw [mem_range] at hi
    exact decide_eq_true ⟨Nat.lt_succ_of_lt hi, Nat.one_pos⟩
  · rw [mem_singleton.mp hw]
    exact decide_eq_true ⟨Nat.lt_succ_self _, Nat.one_pos⟩

/-- The last two accents share an id, and the last style but one finds no room. -/
theorem Wrote.crowded {m : ℕ} {b : RenderBuffer} (h : Wrote (m + 2) 1 (crowd m) b)
    (hm : m = 65534) :
    b.style (b.cell m 0).styleId = .default ∧ b.zerowidth (b.cell m 0) = ['c'] := by
  have hlimit : maxStyles = m + 1 := hm.symm ▸ rfl
  have hsplit : crowd m =
      (List.range m).map (accented · 'b') ++ accented m 'b' :: [accented (m + 1) 'c'] := by
    rw [crowd, range_succ, map_append, append_assoc]
    rfl
  have hlength : (marks (crowd m)).length = m + 2 := by
    rw [marks_crowd, length_append, length_replicate, length_singleton]
  have hnonempty (i : ℕ) (mark : Char) : (accented i mark).zerowidth ≠ [] :=
    cons_ne_nil _ _
  constructor
  · have hstyle := h.style_eq hsplit
    rw [if_neg] at hstyle
    · exact hstyle
    · -- the table has the default style and the first `m` ones
      rw [capturedStyles_crowd (by omega), hlimit, take_succ_cons, ← map_take,
        take_range, mem_cons]
      rintro (hdefault | hmem)
      · exact colored_ne_default m hdefault
      · obtain ⟨i, hi, heq⟩ := mem_map.mp hmem
        rw [mem_range] at hi
        have hsame := colored_injective (by omega) (by omega) heq
        omega
  · have hmarks : (marks ((List.range m).map (accented · 'b') ++ [accented m 'b'])).length =
        m + 1 := by
      have hconcat := congrArg List.length (@marks_concat
        ((List.range m).map (accented · 'b') ++ [accented m 'b']) (accented (m + 1) 'c'))
      rw [append_assoc, singleton_append, ← hsplit, hlength,
        if_neg (hnonempty _ _), length_append] at hconcat
      exact (Nat.succ.inj hconcat).symm
    have hlast : (marks (crowd m))[m + 1]? = some ['c'] := by
      rw [marks_crowd, getElem?_append_right (by rw [length_replicate]),
        length_replicate, Nat.sub_self]
      rfl
    have hsame : markId (m + 1) = markId (m + 1 + 1) := by
      rw [markId, markId, Nat.min_eq_right (by omega), Nat.min_eq_right (by omega)]
    have hextras := (h.cells _ _ _ hsplit).extras
    rw [if_neg (hnonempty _ _), hmarks, hsame] at hextras
    have hread := h.extras (m + 1) ['c'] hlast (.inr hlength.symm)
    rw [RenderBuffer.zerowidth]
    show ((Option.bind (b.cell (accented m 'b').x (accented m 'b').y).extrasId b.extras).map
      Extras.zerowidth).getD [] = _
    rw [hextras, Option.bind_some, hread]
    rfl

/-- Styles and combining characters are lost past the limits. -/
theorem crowded :
    let ws := crowd 65534
    let b := ws.foldl RenderBuffer.writeCell ((RenderBuffer.new 65536 1).beginCapture 65536 1)
    (ws.map fun w ↦ (w.x, w.y)).Nodup ∧ ∃ w ∈ ws,
      b.style (b.cell w.x w.y).styleId ≠ .ofSnapshot w.style ∧
        b.zerowidth (b.cell w.x w.y) ≠ w.zerowidth := by
  intro ws b
  have hwrote : Wrote (65534 + 2) 1 ((crowd 65534).filter (CellWrite.inside (65534 + 2) 1)) b :=
    (wrote_nil RenderBuffer.sized_new 65536 1).foldl_writeCell (crowd_distinct _)
  rw [crowd_inside] at hwrote
  obtain ⟨hstyle, hmark⟩ := hwrote.crowded rfl
  refine ⟨crowd_distinct _, accented 65534 'b', ?_, ?_, ?_⟩
  · rw [show ws = crowd 65534 from rfl, crowd]
    exact mem_append_left _
      (mem_map.mpr ⟨65534, mem_range.mpr (Nat.lt_succ_self _), rfl⟩)
  · exact fun heq ↦ colored_ne_default 65534 (heq.symm.trans hstyle)
  · intro heq
    have hne : ['c'] = ['b'] := hmark.symm.trans heq
    cases hne

end Capture
end NiumaTerm.Terminal
