import NiumaTerm.Transcript.Item

/-!
# Transcript content

`TranscriptContent` owns the entries of a conversation, and an index of the positions of each item
identity.  The index of a content is what its entries say (`indexed`), so that every position in it
is one of an entry.
-/

namespace NiumaTerm.Transcript

open Rust List

variable {M : Type}

/-- One conversation entry. -/
structure TranscriptEntry (M : Type) where
  turn : ℕ
  item : Item
  metadata : M

/-- The positions of the entries with an identity, in order. -/
def positionsFrom (start : ℕ) (entries : List (TranscriptEntry M)) (id : Str) : List ℕ :=
  ((entries.zipIdx start).filter fun e => e.1.item.id = some id).map Prod.snd

theorem positionsFrom_append (start : ℕ) (entries more : List (TranscriptEntry M)) (id : Str) :
    positionsFrom start (entries ++ more) id =
      positionsFrom start entries id ++ positionsFrom (start + entries.length) more id := by
  rw [positionsFrom, zipIdx_append, filter_append, map_append]
  rfl

theorem bounds_of_mem_positionsFrom {start index : ℕ} {entries : List (TranscriptEntry M)}
    {id : Str} (h : index ∈ positionsFrom start entries id) :
    start ≤ index ∧ index < start + entries.length := by
  obtain ⟨e, he, rfl⟩ := mem_map.mp h
  have hmem := mem_zipIdx (mem_filter.mp he).1
  exact ⟨hmem.1, hmem.2.1⟩

theorem positionsFrom_take (entries : List (TranscriptEntry M)) (len : ℕ) (id : Str) :
    positionsFrom 0 (entries.take len) id = (positionsFrom 0 entries id).filter (· < len) := by
  have hsplit := positionsFrom_append 0 (entries.take len) (entries.drop len) id
  rw [take_append_drop] at hsplit
  rw [hsplit, filter_append]
  have htake : (positionsFrom 0 (entries.take len) id).filter (· < len) =
      positionsFrom 0 (entries.take len) id := by
    refine filter_eq_self.mpr fun index hmem => ?_
    have hlt := (bounds_of_mem_positionsFrom hmem).2
    rw [length_take] at hlt
    exact decide_eq_true (by omega)
  have hdrop : (positionsFrom (0 + (entries.take len).length) (entries.drop len) id).filter
      (· < len) = [] := by
    refine filter_eq_nil_iff.mpr fun index hmem => ?_
    have hbounds := bounds_of_mem_positionsFrom hmem
    rw [length_take, length_drop] at hbounds
    rw [decide_eq_true_eq]
    omega
  rw [htake, hdrop, append_nil]

/-- The positions depend on the identities only. -/
theorem positionsFrom_congr {entries entries' : List (TranscriptEntry M)}
    (h : entries'.map (fun e => e.item.id) = entries.map fun e => e.item.id) (start : ℕ) (id : Str) :
    positionsFrom start entries' id = positionsFrom start entries id := by
  have hids (entries : List (TranscriptEntry M)) : positionsFrom start entries id =
      (((entries.map fun e => e.item.id).zipIdx start).filter
        fun e => e.1 = some id).map Prod.snd := by
    rw [positionsFrom, zipIdx_map, filter_map, map_map]
    rfl
  rw [hids, hids, h]

/-- `item_index.entry(id).or_default().push(index)`, for an item with an identity. -/
def pushPosition (index : Str → List ℕ) (entry : TranscriptEntry M) (position : ℕ) : Str → List ℕ :=
  match entry.item.id with
  | none => index
  | some id => Function.update index id (index id ++ [position])

theorem pushPosition_eq (index : Str → List ℕ) (entry : TranscriptEntry M) (position : ℕ)
    (id : Str) :
    pushPosition index entry position id = index id ++ positionsFrom position [entry] id := by
  rw [pushPosition, positionsFrom, zipIdx_singleton]
  cases h : entry.item.id with
  | none => simp [h]
  | some key =>
    by_cases hid : id = key
    · subst hid
      simp [h]
    · have hne : key ≠ id := fun he => hid he.symm
      simp [h, Function.update_of_ne hid, hne]

/-- One content owner for a conversation. -/
structure TranscriptContent (M : Type) where
  entries : List (TranscriptEntry M)
  itemIndex : Str → List ℕ
  indexed : ∀ id, itemIndex id = positionsFrom 0 entries id

namespace TranscriptContent

def empty : TranscriptContent M where
  entries := []
  itemIndex _ := []
  indexed _ := rfl

/-- Whether an entry has the identity. -/
def containsItem (content : TranscriptContent M) (id : Str) : Bool := !(content.itemIndex id).isEmpty

/-- Append live or restored content. -/
def append (content : TranscriptContent M) (entry : TranscriptEntry M) : TranscriptContent M where
  entries := content.entries ++ [entry]
  itemIndex := pushPosition content.itemIndex entry content.entries.length
  indexed id := by
    rw [pushPosition_eq, content.indexed, positionsFrom_append, Nat.zero_add]

/-- Replace the entries, and rebuild the index. -/
def replace (entries : List (TranscriptEntry M)) : TranscriptContent M where
  entries
  itemIndex := entries.zipIdx.foldl (fun index e => pushPosition index e.1 e.2) fun _ => []
  indexed id := by
    induction entries using reverseRecOn with
    | nil => rfl
    | append_singleton entries entry ih =>
      rw [zipIdx_append, foldl_append, zipIdx_singleton, foldl_cons,
        foldl_nil, pushPosition_eq, ih, positionsFrom_append]

/-- Drop every entry from `len` on. -/
def truncate (content : TranscriptContent M) (len : ℕ) : TranscriptContent M where
  entries := content.entries.take len
  itemIndex id := (content.itemIndex id).filter (· < len)
  indexed id := by
    rw [content.indexed, positionsFrom_take]

/-- Change one entry, and keep its identity. -/
def modifyEntry (content : TranscriptContent M) (index : ℕ)
    (f : TranscriptEntry M → TranscriptEntry M) (hf : ∀ e, (f e).item.id = e.item.id) :
    TranscriptContent M where
  entries := content.entries.modify index f
  itemIndex := content.itemIndex
  indexed id := by
    rw [content.indexed]
    refine (positionsFrom_congr ?_ 0 id).symm
    refine ext_getElem? fun i => ?_
    simp only [getElem?_map, getElem?_modify]
    cases content.entries[i]? with
    | none => rfl
    | some e =>
      by_cases hi : index = i <;> simp [hi, hf]

/-- Change the item of one entry. -/
def modify (content : TranscriptContent M) (index : ℕ) (f : Item → Item)
    (hf : ∀ item, (f item).id = item.id) : TranscriptContent M :=
  content.modifyEntry index (fun e => { e with item := f e.item }) fun e => hf e.item

/-- `last_metadata_mut`, and what is done with it. -/
def setLastMetadata (content : TranscriptContent M) (f : M → M) : TranscriptContent M :=
  content.modifyEntry (content.entries.length - 1) (fun e => { e with metadata := f e.metadata })
    fun _ => rfl

/-- Remove all matching identities, and rebuild the index. -/
def removeItems (content : TranscriptContent M) (itemIds : List Str) :
    Option (ℕ × TranscriptContent M) := do
  let first ← (itemIds.flatMap content.itemIndex).min?
  return (first, replace (content.entries.filter fun e =>
    !itemIds.any fun removed => e.item.id = some removed))

/-- The first compatible entry accepts a completed payload. -/
def mergeCompleted (content : TranscriptContent M) (item : Item) :
    Option (ℕ × TranscriptContent M) := do
  let id ← item.id
  let index ← (content.itemIndex id).find? fun index =>
    content.entries[index]?.any fun e => (e.item.mergeCompleted item).isSome
  return (index, content.modify index (fun old => (old.mergeCompleted item).getD old) fun old => by
    cases h : old.mergeCompleted item with
    | none => rfl
    | some merged => exact Item.mergeCompleted_id h)

end TranscriptContent

/-- The entry affected by an accepted delta. -/
structure TextAppend where
  index : ℕ
  previousBytes : ℕ
  nonBlank : Bool

namespace TranscriptContent

/-- Append in place.  Missing identities and incompatible fields leave the conversation
untouched. -/
def appendDelta (content : TranscriptContent M) (itemId delta : Str) (field : TextField) :
    Option (TextAppend × TranscriptContent M) := do
  let index ← (content.itemIndex itemId).find? fun index =>
    content.entries[index]?.any fun e => field.fits e.item
  let entry ← content.entries[index]?
  let text := entry.item.text.getD []
  return ({ index, previousBytes := utf8Len text, nonBlank := !(trim (text ++ delta)).isEmpty },
    content.modify index (Item.pushText delta) (Item.pushText_id delta))

/-- Keep the last entries, and say how many were dropped. -/
def retainLast (content : TranscriptContent M) (count : ℕ) : ℕ × TranscriptContent M :=
  let dropped := content.entries.length - count
  (dropped, if dropped > 0 then replace (content.entries.drop dropped) else content)

/-! ## What an update changes -/

variable {content content' : TranscriptContent M} {index : ℕ}

theorem mergeCompleted_some {item : Item}
    (h : content.mergeCompleted item = some (index, content')) :
    ∃ e merged, content.entries[index]? = some e ∧ e.item.mergeCompleted item = some merged ∧
      content'.entries = content.entries.modify index fun e =>
        { e with item := (e.item.mergeCompleted item).getD e.item } := by
  simp only [mergeCompleted, Option.bind_eq_bind, Option.bind_eq_some_iff, Option.pure_def,
    Option.some.injEq, Prod.mk.injEq] at h
  obtain ⟨id, -, _, hfind, rfl, rfl⟩ := h
  have haccepts := find?_some hfind
  obtain ⟨e, he, haccepts⟩ := (Option.any_eq_true _ _).mp haccepts
  obtain ⟨merged, hmerged⟩ := Option.isSome_iff_exists.mp haccepts
  exact ⟨e, merged, he, hmerged, rfl⟩

theorem appendDelta_some {itemId delta : Str} {field : TextField} {update : TextAppend}
    (h : content.appendDelta itemId delta field = some (update, content')) :
    ∃ e, content.entries[update.index]? = some e ∧ field.fits e.item = true ∧
      update.previousBytes = utf8Len (e.item.text.getD []) ∧
      content'.entries = content.entries.modify update.index fun e =>
        { e with item := e.item.pushText delta } := by
  simp only [appendDelta, Option.bind_eq_bind, Option.bind_eq_some_iff, Option.pure_def,
    Option.some.injEq, Prod.mk.injEq] at h
  obtain ⟨_, hfind, e, he, rfl, rfl⟩ := h
  have hfits := find?_some hfind
  rw [he] at hfits
  exact ⟨e, he, hfits, rfl, rfl⟩

end TranscriptContent

end NiumaTerm.Transcript
