import NiumaTerm.Lib.Timeline
import NiumaTerm.Orchestration.Edit
import NiumaTerm.Orchestration.Validation

/-!
# Undo and redo

The editor's two stacks are a timeline with a cursor (`Editor.document`), and every operation of the
editor is one of the timeline.  `editor_follows` has the two next to each other.
-/

namespace NiumaTerm.Orchestration

open Rust List

/-! ## Edits are atomic -/

/-- Either the change failed, and nothing changed, or it did not. -/
theorem changeNode_atomic {d : Definition} {id : Str} {f : Node → Node}
    (h : (changeNode d id f).1 = false) : (changeNode d id f).2 = d := by
  rw [changeNode] at h ⊢
  split
  · next nodes hn =>
    rw [hn] at h
    cases h
  · rfl

/-- **An edit that fails changes nothing.** -/
theorem Edit.applyTo_atomic {d : Definition} {change : Edit} (h : (change.applyTo d).1 = false) :
    (change.applyTo d).2 = d := by
  cases change with
  | moveNodes moves | removeNodes ids | setMaxParallel value => cases h
  | addNode id slot position | addSlot name profile =>
    rw [Edit.applyTo] at h ⊢
    split
    · rfl
    · next hn => rw [if_neg hn] at h; cases h
  | connect source target =>
    rw [Edit.applyTo] at h ⊢
    split
    · rfl
    · next hn =>
      rw [if_neg hn] at h
      exact changeNode_atomic h
  | disconnect source target | setNode id slot prompt => exact changeNode_atomic h
  | renameNode old new =>
    rw [Edit.applyTo, Orchestration.renameNode] at h ⊢
    split
    · rfl
    · next hn =>
      rw [if_neg hn] at h
      split
      · rfl
      · next nodes hc =>
        rw [hc] at h
        cases h
  | removeSlot name =>
    -- as many slots are left as there were
    have hlen : (d.slots.filter fun slot => slot.name ≠ name).length = d.slots.length := by
      simpa [Edit.applyTo] using h
    have hall := filter_eq_self.mpr (length_filter_eq_length_iff.mp hlen)
    change { d with slots := d.slots.filter fun slot => slot.name ≠ name } = d
    rw [hall]
  | setSlot name body =>
    rw [Edit.applyTo] at h ⊢
    split
    · next slots hs =>
      rw [hs] at h
      cases h
    · rfl
  | renameSlot old new =>
    rw [Edit.applyTo] at h ⊢
    split
    · rfl
    · next hn =>
      rw [if_neg hn] at h
      split
      · rfl
      · next slots hs =>
        rw [hs] at h
        cases h

/-! ## The editor as a timeline -/

inductive EditorAction
  | apply (change : Edit)
  | undo
  | redo
  | markSaved (written : Definition)
  | reload (definition : Definition)

def Editor.perform (e : Editor) : EditorAction → Editor
  | .apply change => (e.edit change).2
  | .undo => e.undo.2
  | .redo => e.redo.2
  | .markSaved written => e.markSaved written
  | .reload definition => e.reload definition

/-- The versions of a definition and the one last saved. -/
@[ext]
structure Document where
  timeline : Timeline Definition
  saved : Definition

namespace Document

def opened (definition : Definition) : Document := ⟨.start definition, definition⟩

/-- An edit that fails or leaves the definition equal is not a version. -/
def apply (doc : Document) (change : Edit) : Document :=
  let (applied, next) := change.applyTo doc.timeline.current
  if !applied || next == doc.timeline.current then doc
  else { doc with timeline := doc.timeline.record next }

def perform (doc : Document) : EditorAction → Document
  | .apply change => doc.apply change
  | .undo => { doc with timeline := doc.timeline.back }
  | .redo => { doc with timeline := doc.timeline.forward }
  | .markSaved written => { doc with saved := written }
  | .reload definition => opened definition

end Document

namespace Editor

def timeline (e : Editor) : Timeline Definition where
  versions := e.history ++ e.definition :: e.future.reverse
  cursor := e.history.length
  lt := by
    rw [length_append, length_cons]
    omega

def document (e : Editor) : Document := ⟨e.timeline, e.saved⟩

variable {e : Editor}

@[simp] theorem current_timeline : e.timeline.current = e.definition := by
  simp [Timeline.current, timeline]

@[simp] theorem past_timeline : e.timeline.past = e.history ++ [e.definition] := by
  have hversions : e.timeline.versions = (e.history ++ [e.definition]) ++ e.future.reverse := by
    rw [timeline, append_assoc]
    rfl
  rw [Timeline.past, hversions, take_left']
  rw [length_append]
  rfl

/-- The timeline and the saved version are all that an editor holds. -/
theorem document_injective {e' : Editor} (h : e.document = e'.document) : e = e' := by
  have hlen : e.history.length = e'.history.length := congrArg (·.timeline.cursor) h
  have hversions : e.history ++ e.definition :: e.future.reverse =
      e'.history ++ e'.definition :: e'.future.reverse := congrArg (·.timeline.versions) h
  obtain ⟨hhistory, hrest⟩ := append_inj hversions hlen
  obtain ⟨hdefinition, hfuture⟩ := List.cons.inj hrest
  have hsaved : e.saved = e'.saved := congrArg (·.saved) h
  cases e
  cases e'
  cases hhistory
  cases hdefinition
  cases hsaved
  cases reverse_injective hfuture
  rfl

theorem document_edit (change : Edit) : (e.edit change).2.document = e.document.apply change := by
  rw [edit, Document.apply]
  simp only [document, current_timeline]
  split
  · rfl
  · refine Document.ext (Timeline.ext ?_ length_append) rfl
    change (e.history ++ [e.definition]) ++ [_] = e.timeline.past ++ [_]
    rw [past_timeline]

theorem document_undo : e.undo.2.document = { e.document with timeline := e.timeline.back } := by
  rw [undo]
  cases hlast : e.history.getLast? with
  | none =>
    have hnil := getLast?_eq_none_iff.mp hlast
    refine Document.ext (Timeline.ext rfl ?_) rfl
    change e.history.length = e.history.length - 1
    rw [hnil]
    rfl
  | some previous =>
    obtain ⟨before, hbefore⟩ := getLast?_eq_some_iff.mp hlast
    refine Document.ext (Timeline.ext ?_ length_dropLast) rfl
    change e.history.dropLast ++ previous :: (e.future ++ [e.definition]).reverse =
      e.history ++ e.definition :: e.future.reverse
    rw [hbefore, dropLast_concat, reverse_append, append_assoc]
    rfl

theorem document_redo : e.redo.2.document = { e.document with timeline := e.timeline.forward } := by
  rw [redo, Timeline.forward]
  cases hlast : e.future.getLast? with
  | none =>
    have hnil := getLast?_eq_none_iff.mp hlast
    have hend : ¬ e.timeline.cursor + 1 < e.timeline.versions.length := by
      simp [timeline, hnil]
    rw [dif_neg hend]
    rfl
  | some next =>
    obtain ⟨rest, hrest⟩ := getLast?_eq_some_iff.mp hlast
    have hlt : e.timeline.cursor + 1 < e.timeline.versions.length := by
      simp [timeline, hrest]
    rw [dif_pos hlt]
    refine Document.ext (Timeline.ext ?_ length_append) rfl
    change (e.history ++ [e.definition]) ++ next :: e.future.dropLast.reverse =
      e.history ++ e.definition :: e.future.reverse
    rw [hrest, dropLast_concat, reverse_append, append_assoc]
    rfl

/-- **The editor refines the timeline.** -/
theorem document_perform (action : EditorAction) :
    (e.perform action).document = e.document.perform action := by
  cases action with
  | apply change => exact document_edit change
  | undo => exact document_undo
  | redo => exact document_redo
  | markSaved written | reload definition => rfl

def undoTimes (k : ℕ) (e : Editor) : Editor := (fun e => e.undo.2)^[k] e

def redoTimes (k : ℕ) (e : Editor) : Editor := (fun e => e.redo.2)^[k] e

theorem document_undoTimes (k : ℕ) :
    (undoTimes k e).document = { e.document with timeline := Timeline.back^[k] e.timeline } := by
  induction k generalizing e with
  | zero => rfl
  | succ k ih =>
    rw [undoTimes, Function.iterate_succ_apply, Function.iterate_succ_apply]
    refine ih.trans ?_
    exact congrArg (fun doc => Document.mk (Timeline.back^[k] doc.timeline) doc.saved) document_undo

theorem document_redoTimes (k : ℕ) :
    (redoTimes k e).document = { e.document with timeline := Timeline.forward^[k] e.timeline } := by
  induction k generalizing e with
  | zero => rfl
  | succ k ih =>
    rw [redoTimes, Function.iterate_succ_apply, Function.iterate_succ_apply]
    refine ih.trans ?_
    exact congrArg (fun doc => Document.mk (Timeline.forward^[k] doc.timeline) doc.saved)
      document_redo

theorem definition_undoTimes (k : ℕ) :
    (undoTimes k e).definition = (Timeline.back^[k] e.timeline).current := by
  rw [← current_timeline]
  exact congrArg (·.timeline.current) (document_undoTimes k)

/-- **Redoing undoes undoing**, as far as there is anything to undo. -/
theorem redoTimes_undoTimes {k : ℕ} (h : k ≤ e.history.length) :
    redoTimes k (undoTimes k e) = e := by
  refine document_injective ((document_redoTimes k).trans ?_)
  have hundone := document_undoTimes (e := e) k
  have htimeline : (undoTimes k e).timeline = Timeline.back^[k] e.timeline :=
    congrArg Document.timeline hundone
  have hback : k ≤ e.timeline.cursor := h
  rw [hundone, htimeline, Timeline.forward_iterate_back hback]
  rfl

/-- Apply the edits, and count those that succeed. -/
def editAll (e : Editor) : List Edit → ℕ × Editor
  | [] => (0, e)
  | change :: rest =>
    (((e.edit change).2.editAll rest).1 + (e.edit change).1.toNat,
      ((e.edit change).2.editAll rest).2)

/-- An edit that succeeds drops what could be redone and nothing else. -/
theorem timeline_edit {change : Edit} (h : (e.edit change).1 = true) :
    (e.edit change).2.timeline = e.timeline.record (change.applyTo e.definition).2 := by
  have hdoc := congrArg Document.timeline (document_edit (e := e) change)
  rw [Document.apply] at hdoc
  simp only [document, current_timeline] at hdoc
  rw [edit] at h
  simp only at h
  split at h
  · cases h
  · next hn =>
    rw [if_neg hn] at hdoc
    exact hdoc

/-- **Failing edits leave the editor as it is.** -/
theorem edit_failed {change : Edit} (h : (e.edit change).1 = false) : (e.edit change).2 = e := by
  rw [edit] at h ⊢
  simp only at h ⊢
  split
  · rfl
  · next hn =>
    rw [if_neg hn] at h
    cases h

theorem timeline_editAll (changes : List Edit) : ∃ versions : List Definition,
    versions.length = (e.editAll changes).1 ∧
      (e.editAll changes).2.timeline = e.timeline.recordAll versions := by
  induction changes generalizing e with
  | nil => exact ⟨[], rfl, rfl⟩
  | cons change rest ih =>
    obtain ⟨versions, hlen, htimeline⟩ := ih (e := (e.edit change).2)
    cases happlied : (e.edit change).1 with
    | true =>
      refine ⟨(change.applyTo e.definition).2 :: versions, ?_, ?_⟩
      · rw [length_cons, hlen, editAll, happlied]
        rfl
      · rw [timeline_edit happlied] at htimeline
        exact htimeline
    | false =>
      rw [edit_failed happlied] at hlen htimeline
      refine ⟨versions, ?_, ?_⟩
      · rw [hlen, editAll, edit_failed happlied, happlied]
        rfl
      · rw [← htimeline, editAll, edit_failed happlied]

end Editor

/-! ## Sequences of operations -/

/-- An editor, what it was opened with last, and how many edits succeeded since. -/
structure Session where
  editor : Editor
  opened : Definition
  applied : ℕ

namespace Session

def opening (definition : Definition) : Session := ⟨.opened definition, definition, 0⟩

def perform (s : Session) : EditorAction → Session
  | .apply change =>
    { s with
      editor := s.editor.perform (.apply change)
      applied := s.applied + (s.editor.edit change).1.toNat }
  | .reload definition => ⟨s.editor.perform (.reload definition), definition, 0⟩
  | action => { s with editor := s.editor.perform action }

@[simp] theorem editor_perform (s : Session) (action : EditorAction) :
    (s.perform action).editor = s.editor.perform action := by
  cases action <;> rfl

/-- The first version is what was opened, and there are no more than edits that succeeded. -/
structure Inv (s : Session) : Prop where
  first : s.editor.timeline.versions.head? = some s.opened
  length_le : s.editor.timeline.versions.length ≤ s.applied + 1

theorem Inv.perform {s : Session} (h : s.Inv) (action : EditorAction) : (s.perform action).Inv := by
  cases action with
  | apply change =>
    cases happlied : (s.editor.edit change).1 with
    | true =>
      have htimeline := Editor.timeline_edit happlied
      refine ⟨?_, ?_⟩
      · change (s.editor.edit change).2.timeline.versions.head? = _
        rw [htimeline, Timeline.head?_record]
        exact h.first
      · change (s.editor.edit change).2.timeline.versions.length ≤ s.applied + _ + 1
        rw [htimeline, happlied, Timeline.record, length_append, Timeline.length_past]
        exact Nat.succ_le_succ (s.editor.timeline.lt.trans_le h.length_le)
    | false =>
      rw [Session.perform, Editor.perform, Editor.edit_failed happlied, happlied]
      exact h
  | undo =>
    have htimeline := congrArg Document.timeline (Editor.document_undo (e := s.editor))
    refine ⟨?_, ?_⟩
    · exact (congrArg (·.versions.head?) htimeline).trans h.first
    · exact (congrArg (·.versions.length) htimeline).trans_le h.length_le
  | redo =>
    have htimeline := congrArg Document.timeline (Editor.document_redo (e := s.editor))
    have hversions := (congrArg (·.versions) htimeline).trans Timeline.versions_forward
    refine ⟨?_, ?_⟩
    · exact (congrArg List.head? hversions).trans h.first
    · exact (congrArg List.length hversions).trans_le h.length_le
  | markSaved written => exact ⟨h.first, h.length_le⟩
  | reload definition => exact ⟨rfl, Nat.le_refl _⟩

/-- What an editor does, next to the document that it stands for. -/
structure Follows (s : Session) (doc : Document) : Prop where
  document : s.editor.document = doc
  atomic : ∀ change, (Edit.applyTo s.editor.definition change).1 = false →
    (Edit.applyTo s.editor.definition change).2 = s.editor.definition
  failed : ∀ change, (s.editor.edit change).1 = false → (s.editor.edit change).2 = s.editor
  discarded : ∀ change, (s.editor.edit change).1 = true → (s.editor.edit change).2.document =
    { doc with timeline := doc.timeline.record (change.applyTo s.editor.definition).2 }
  undone : ∀ changes, (Editor.undoTimes (s.editor.editAll changes).1
    (s.editor.editAll changes).2).definition = s.editor.definition
  reopened : (Editor.undoTimes s.applied s.editor).definition = s.opened
  redone : ∀ k ≤ s.editor.history.length,
    Editor.redoTimes k (Editor.undoTimes k s.editor) = s.editor
  dirty : s.editor.isDirty = (doc.timeline.current != doc.saved)

theorem Inv.follows {s : Session} (h : s.Inv) : s.Follows s.editor.document where
  document := rfl
  atomic _ hfailed := Edit.applyTo_atomic hfailed
  failed _ hfailed := Editor.edit_failed hfailed
  discarded change happlied := by
    refine Document.ext (Editor.timeline_edit happlied) ?_
    change (s.editor.edit change).2.saved = s.editor.saved
    rw [Editor.edit]
    simp only
    split <;> rfl
  undone changes := by
    obtain ⟨versions, hlen, htimeline⟩ := s.editor.timeline_editAll changes
    rw [Editor.definition_undoTimes, htimeline, ← hlen, ← Editor.current_timeline]
    exact Timeline.current_eq (Timeline.past_recordAll versions)
  reopened := by
    have hcursor : s.editor.timeline.cursor ≤ s.applied :=
      Nat.le_of_lt_succ (s.editor.timeline.lt.trans_le h.length_le)
    have hfirst := Timeline.head?_back_iterate hcursor
    rw [Editor.definition_undoTimes]
    exact Option.some.inj (hfirst.symm.trans h.first)
  redone _ hk := Editor.redoTimes_undoTimes hk
  dirty := by
    rw [Editor.isDirty, ← Editor.current_timeline]
    rfl

end Session

/-- **Undo and redo are a timeline with a cursor**, after every sequence of operations. -/
theorem editor_follows (definition : Definition) (actions : List EditorAction) :
    (actions.foldl Session.perform (.opening definition)).Follows
      (actions.foldl Document.perform (.opened definition)) := by
  have hrun : (actions.foldl Session.perform (.opening definition)).Inv ∧
      (actions.foldl Session.perform (.opening definition)).editor.document =
        actions.foldl Document.perform (.opened definition) := by
    induction actions using reverseRecOn with
    | nil => exact ⟨⟨rfl, Nat.le_refl _⟩, rfl⟩
    | append_singleton actions action ih =>
      rw [foldl_append, foldl_append, foldl_cons, foldl_cons]
      refine ⟨ih.1.perform action, ?_⟩
      rw [foldl_nil, Session.editor_perform, Editor.document_perform, ih.2]
      rfl
  rw [← hrun.2]
  exact hrun.1.follows

/-- An undo that finds nothing to undo is not undone by a redo. -/
theorem redo_after_nothing_undone :
    let s := [.apply (.setMaxParallel (some 2)), .undo].foldl Session.perform
        (.opening planReview)
    (Editor.redoTimes 1 (Editor.undoTimes 1 s.editor)).definition.maxParallel = some 2 ∧
      s.editor.definition.maxParallel = none := by
  decide +kernel

end NiumaTerm.Orchestration
