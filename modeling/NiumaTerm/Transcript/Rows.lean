import NiumaTerm.Lib.Blocks
import NiumaTerm.Lib.Outline
import NiumaTerm.Transcript.Prompts

/-!
# Transcript rows

`RowSource.allSpecs` lays a conversation out as rows: a fold may hide the work of a turn, and runs of work
steps may be collapsed under a toggle.  `RowGeometry` finds out which disclosure a row belongs to by walking
back over the rows above.
-/

namespace NiumaTerm.Transcript

open Rust

/-! ## Items -/

/-- Blank texts are not shown. -/
def Item.hidden : Item → Bool
  | userMessage text | agentMessage _ text _ | reasoning _ text =>
    text.elim true fun text => (trim text).isEmpty
  | _ => false

/-- Tool calls, file changes, and reasoning are work steps. -/
def Item.isWorkItem : Item → Bool
  | commandExecution _ _ _ _ _ _ | fileChange _ _ _ _ | other _ _ _ _ _ | reasoning _ _ => true
  | _ => false

def Item.isAgentMessage : Item → Bool
  | agentMessage _ _ _ => true
  | _ => false

def Item.isTaskList : Item → Bool
  | taskList _ _ => true
  | _ => false

def Item.isReasoning : Item → Bool
  | reasoning _ _ => true
  | _ => false

/-! ## Settings and disclosures -/

inductive CollapseRows
  | workAndToolCalls
  | toolCalls
  | off
  deriving DecidableEq

/-- Whether the collapse setting folds a settled turn's work away by default. -/
def foldsTurns (collapse : CollapseRows) : Bool := collapse = .workAndToolCalls

inductive TurnSummary
  | worked (seconds : ℕ)
  | interrupted
  deriving DecidableEq

def turnSummary (interrupted : Bool) (seconds : Option ℕ) : Option TurnSummary :=
  if interrupted then some .interrupted else seconds.map .worked

/-- One entry per finished turn. -/
structure TurnLedger where
  settled : ℕ → Bool
  seconds : ℕ → Option ℕ
  outputTokens : ℕ → Option ℕ
  interrupted : ℕ → Bool

inductive RevealKey
  | row (index : ℕ)
  | annotation (index : ℕ)
  /-- A collapsed run of work steps, keyed by the run's first entry. -/
  | group (runStart : ℕ)
  | turn (turn : ℕ)

/-- Which parts of the transcript are open. -/
structure Disclosures where
  expandedRows : ℕ → Bool
  expandedGroups : ℕ → Bool
  expandedAnnotations : ℕ → Bool
  /-- Settled turns flipped away from what the collapse setting does by default. -/
  toggledTurns : ℕ → Bool
  turnsFoldByDefault : Bool

namespace Disclosures

variable (d : Disclosures)

def setTurnUnfolded (turn : ℕ) (unfolded : Bool) : Disclosures :=
  { d with
    toggledTurns := Function.update d.toggledTurns turn (unfolded = d.turnsFoldByDefault) }

def setGroupExpanded (runStart : ℕ) (expanded : Bool) : Disclosures :=
  { d with expandedGroups := Function.update d.expandedGroups runStart expanded }

end Disclosures

/-! ## Rows -/

inductive RowSpec
  | entry (index : ℕ) (fingerprint : BitVec 64)
  | work (index : ℕ) (fingerprint : BitVec 64)
  | turnFold (turn rowCount : ℕ) (folded : Bool)
  | turnSummary (seconds : ℕ) (outputTokens : Option ℕ)
  | interrupted (turn : ℕ) (outputTokens : Option ℕ)
  | runToggle (runStart toolCount : ℕ) (expanded : Bool)
  | working (compacting : Bool)

/-- Whether the other one is the same row, whatever has since changed about it. -/
def RowSpec.isSameRow : RowSpec → RowSpec → Bool
  | entry a _, entry b _ | work a _, work b _ | runToggle a _ _, runToggle b _ _ => a = b
  | turnFold a _ _, turnFold b _ _ | interrupted a _, interrupted b _ => a = b
  | turnSummary _ _, turnSummary _ _ | working _, working _ => true
  | _, _ => false

inductive RevealedPart
  | block (key : RevealKey)
  | entry (index : ℕ)
  | toggle (runStart : ℕ)

/-- The row's part, for the rows that a disclosure can splice in. -/
def revealedPart : RowSpec → Option RevealedPart
  | .work index _ | .entry index _ => some (.entry index)
  | .runToggle runStart _ _ => some (.toggle runStart)
  | _ => none

structure RowSource where
  entries : List Entry
  turns : TurnLedger
  working : Bool
  compacting : Bool
  disclosures : Disclosures
  /-- How far a streaming reply has been typed. -/
  typedEdge : ℕ → Option ℕ
  showThinkingInStream : Bool
  /-- The signature of an item's content. -/
  entryFingerprint : Item → Bool → Bool → BitVec 64

namespace RowSource

variable (source : RowSource)

/-- `entries()[index].item`; the positions read are positions of entries. -/
def item (index : ℕ) : Item := source.entries[index]?.elim (.userMessage none) (·.item)

/-- `entries()[index].turn` -/
def turn (index : ℕ) : ℕ := source.entries[index]?.elim 0 (·.turn)

def entrySpec (index : ℕ) : RowSpec :=
  let fingerprint := source.entryFingerprint (source.item index)
    (source.disclosures.expandedRows index) (source.disclosures.expandedAnnotations index)
  .entry index <| match source.typedEdge index with
    | some shown => fingerprint ^^^ (BitVec.ofNat 64 shown <<< 32)
    | none => fingerprint

def workSpec (index : ℕ) : RowSpec :=
  .work index <| source.entryFingerprint (source.item index)
    (source.disclosures.expandedRows index) false

/-- The work that is grouped into runs. -/
def groupedWork (item : Item) : Bool :=
  item.isWorkItem && !(source.showThinkingInStream && item.isReasoning)

/-- The later entries of the same turn. -/
def later (index : ℕ) : List Entry :=
  (source.entries.drop (index + 1)).takeWhile fun entry => entry.turn = source.turn index

/-- Whether an entry stays on screen while its turn is folded. -/
def survivesFold (index : ℕ) : Bool :=
  match source.item index with
  | .error _ | .compaction _ _ | .sideBoundary _ _ _ | .userMessage _ => true
  | .agentMessage _ _ (some _) => true
  | .reasoning _ _ => source.showThinkingInStream
  | .taskList _ _ => !(source.later index).any fun later => later.item.isTaskList
  | .agentMessage _ _ none =>
    !(source.item index).hidden &&
      (source.later index).all fun later => later.item.hidden || !later.item.isAgentMessage
  | _ => false

/-- Chronological rows for positions of the transcript, with runs of work steps under a toggle. -/
def streamSpecs (skip : ℕ → Bool) (collapse : CollapseRows) : List ℕ → List RowSpec
  | [] => []
  | i :: rest =>
    if skip i || (source.item i).hidden then streamSpecs skip collapse rest
    else if !source.groupedWork (source.item i) then
      source.entrySpec i :: streamSpecs skip collapse rest
    else
      let continues (j : ℕ) : Bool :=
        !skip j && ((source.item j).hidden || source.groupedWork (source.item j))
      let visible := i :: (rest.takeWhile continues).filter fun j => !(source.item j).hidden
      let expanded := source.disclosures.expandedGroups i
      (if collapse ≠ .off then
        .runToggle i visible.length expanded ::
          if expanded then visible.map source.workSpec else []
      else visible.map source.workSpec) ++ streamSpecs skip collapse (rest.dropWhile continues)
termination_by indices => indices.length
decreasing_by
  all_goals simp only [List.length_cons]
  any_goals omega
  exact Nat.lt_succ_of_le (List.length_dropWhile_le _ _)

/-- The positions of one turn. -/
def positions (start stop : ℕ) : List ℕ := List.range' start (stop - start)

/-- The prompt that opened the turn. -/
def openingUser (start stop : ℕ) : Option ℕ :=
  (positions start stop).find? fun i => (source.item i).isUserMessage

def shown (start stop i : ℕ) : Bool :=
  !(source.item i).hidden && some i != source.openingUser start stop

/-- What the fold owns: everything the expanded turn shows that the folded one does not. -/
def rowCount (start stop : ℕ) : ℕ :=
  ((positions start stop).filter fun i =>
    source.shown start stop i && !source.survivesFold i).length

/-- Whether the turn is folded, once it has settled. -/
def folded (collapse : CollapseRows) (turn : ℕ) : Bool :=
  foldsTurns collapse && foldsTurns collapse != source.disclosures.toggledTurns turn

def turnSpecs (turn start stop : ℕ) (collapse : CollapseRows) : List RowSpec :=
  let summary := turnSummary (source.turns.interrupted turn) (source.turns.seconds turn)
  if summary = some .interrupted then
    source.streamSpecs (fun _ => false) collapse (positions start stop) ++
      [.interrupted turn (source.turns.outputTokens turn)]
  else if !source.turns.settled turn then
    source.streamSpecs (fun _ => false) collapse (positions start stop)
  else
    let openingUser := source.openingUser start stop
    let rowCount := source.rowCount start stop
    let folded := source.folded collapse turn
    (openingUser.map source.entrySpec).toList ++
      (if foldsTurns collapse && 0 < rowCount then [.turnFold turn rowCount folded] else []) ++
      (if folded then
        ((positions start stop).filter fun i =>
          source.shown start stop i && source.survivesFold i).map source.entrySpec
      else source.streamSpecs (fun i => some i == openingUser) collapse (positions start stop)) ++
      match summary with
      | some (.worked seconds) => [.turnSummary seconds (source.turns.outputTokens turn)]
      | _ => []

/-- Where the entries of one turn that begin at `start` end. -/
def stretchEnd (start : ℕ) : ℕ :=
  start + 1 + ((source.entries.drop (start + 1)).takeWhile fun entry =>
    entry.turn = source.turn start).length

/-- The stretches of entries of one turn, as their turn, start and end. -/
def stretches (start : ℕ) : List (ℕ × ℕ × ℕ) :=
  if start < source.entries.length then
    (source.turn start, start, source.stretchEnd start) :: stretches (source.stretchEnd start)
  else []
termination_by source.entries.length - start
decreasing_by
  rw [stretchEnd]
  omega

/-- Rows for every turn, followed by the live progress line while a turn is running. -/
def allSpecs (collapse : CollapseRows) : List RowSpec :=
  (source.stretches 0).flatMap (fun s => source.turnSpecs s.1 s.2.1 s.2.2 collapse) ++
    if source.working then [.working source.compacting] else []

/-! ## Rows in the list -/

/-- A row as the list holds it: a reply that is drawn as blocks has a row for each. -/
def blockRows (fragments : ℕ → ℕ) : RowSpec → List RowSpec
  | .entry index fingerprint =>
    match source.item index, fragments index with
    | .agentMessage _ _ none, n + 1 => List.replicate (n + 1) (.entry index 0)
    | _, _ => [.entry index fingerprint]
  | spec => [spec]

def listRows (fragments : ℕ → ℕ) (specs : List RowSpec) : List RowSpec :=
  specs.flatMap (source.blockRows fragments)

/-- The turn a row belongs to, for the rows that belong to one. -/
def rowTurn : RowSpec → Option ℕ
  | .entry index _ | .work index _ | .runToggle index _ _ => some (source.turn index)
  | .turnFold turn _ _ | .interrupted turn _ => some turn
  | .turnSummary _ _ | .working _ => none

/-- Whether this row is one a folded turn would take off the screen. -/
def hiddenByFold : RowSpec → Bool
  | .work _ _ | .runToggle _ _ _ => true
  | .entry index _ => !source.survivesFold index
  | _ => false

/-- The walk from a row of a turn to the fold of the turn. -/
def foldStep (turn : ℕ) (row : RowSpec) : Outline.Step ℕ :=
  let walksOver : Outline.Step ℕ := if source.rowTurn row = some turn then .pass else .stop
  match row with
  | .turnFold heads _ false => if heads = turn then .found turn else walksOver
  | _ => walksOver

end RowSource

/-- The walk from a step of a run to its toggle. -/
def runStep : RowSpec → Outline.Step ℕ
  | .work _ _ => .pass
  | .runToggle runStart _ true => .found runStart
  | _ => .stop

/-- The rows the list currently holds, read against the source they were built from. -/
structure RowGeometry where
  rows : List RowSpec
  source : RowSource

/-- The list of the rows that are built from a source. -/
abbrev RowSource.geometry (source : RowSource) (collapse : CollapseRows) (fragments : ℕ → ℕ) :
    RowGeometry where
  rows := source.listRows fragments (source.allSpecs collapse)
  source

namespace RowGeometry

variable (g : RowGeometry)

/-- The run whose expanded toggle put this row on screen. -/
def runOver (ix : ℕ) : Option ℕ :=
  match g.rows[ix]? with
  | some (.work _ _) => Outline.owner runStep (g.rows.take ix)
  | _ => none

/-- The turn whose unfolded row put this row on screen. -/
def foldOver (ix : ℕ) : Option ℕ :=
  g.rows[ix]?.bind fun row => (g.source.rowTurn row).bind fun turn =>
    if !g.source.turns.settled turn || !g.source.hiddenByFold row then none
    else Outline.owner (g.source.foldStep turn) (g.rows.take ix)

/-- Whether the row is one of those that the disclosure has on screen. -/
def isRevealed (key : RevealKey) (ix : ℕ) : Bool :=
  match key with
  | .group runStart => g.runOver ix = some runStart
  | .turn turn => g.foldOver ix = some turn
  | .row _ | RevealKey.annotation _ => false

/-- The rows a run toggle or a turn fold currently has on screen. -/
def revealedParts (key : RevealKey) : List RevealedPart :=
  ((List.range g.rows.length).filter (g.isRevealed key)).filterMap fun ix =>
    g.rows[ix]?.bind revealedPart

/-- The disclosure whose ramp this row moves on.  `moving` tells which disclosures are moving. -/
def revealedBy (moving : RevealKey → Bool) (ix : ℕ) : Option RevealKey :=
  match (g.foldOver ix).map RevealKey.turn, (g.runOver ix).map RevealKey.group with
  | some fold, some run => if !moving fold then some run else some fold
  | some fold, none => some fold
  | none, run => run

end RowGeometry

end NiumaTerm.Transcript
