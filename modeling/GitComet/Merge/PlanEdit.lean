import GitComet.Merge.Render

namespace GitComet.Merge
open Slice Text

def MergePlan.sourceText (plan : MergePlan) (source : MergeSource) : Option (List Char) :=
  match plan.base, source with
  | some base, .a => some base
  | some _, .b => some plan.ours
  | some _, .c => some plan.theirs
  | none, .a => some plan.ours
  | none, .b => some plan.theirs
  | none, .c => none

def MergePlan.texts (plan : MergePlan) : Sources :=
  (planTexts plan.base plan.ours plan.theirs).sources

def MergeBlock.toggleSource (block : MergeBlock) (source : MergeSource) : MergeBlock :=
  { block with
    manualContent := none
    selection := block.selection.toggle source }

def MergeBlock.replaceSelection (block : MergeBlock) (selection : OrderedSelection) : MergeBlock :=
  { block with
    manualContent := none
    selection := selection }

def MergeBlock.setManualContent (block : MergeBlock) (content : List Char) : MergeBlock :=
  { block with
    selection := .new
    manualContent := some content }

def MergePlan.refreshUnresolvedBlocks (plan : MergePlan) : MergePlan :=
  { plan with unresolvedBlocks := Merge.unresolvedBlocks plan.blocks }

def MergePlan.toggleSource (plan : MergePlan) (index : ℕ) (source : MergeSource) :
    MergePlan × Bool :=
  if (plan.sourceText source).isNone then (plan, false)
  else match plan.blocks[index]? with
    | none => (plan, false)
    | some block =>
      (MergePlan.refreshUnresolvedBlocks
        { plan with blocks := plan.blocks.set index (block.toggleSource source) }, true)

def MergePlan.replaceSelectionDeferred (plan : MergePlan) (index : ℕ)
    (selection : OrderedSelection) : MergePlan × Bool :=
  if selection.sources.any fun source => (plan.sourceText source).isNone then (plan, false)
  else match plan.blocks[index]? with
    | none => (plan, false)
    | some block =>
      ({ plan with blocks := plan.blocks.set index (block.replaceSelection selection) }, true)

def MergePlan.replaceSelection (plan : MergePlan) (index : ℕ) (selection : OrderedSelection) :
    MergePlan × Bool :=
  let changed := plan.replaceSelectionDeferred index selection
  if changed.2 then (changed.1.refreshUnresolvedBlocks, true) else changed

def MergePlan.setManualContentDeferred (plan : MergePlan) (index : ℕ) (content : List Char) :
    MergePlan × Bool :=
  match plan.blocks[index]? with
  | none => (plan, false)
  | some block =>
    ({ plan with blocks := plan.blocks.set index (block.setManualContent content) }, true)

def MergePlan.setManualContent (plan : MergePlan) (index : ℕ) (content : List Char) :
    MergePlan × Bool :=
  let changed := plan.setManualContentDeferred index content
  if changed.2 then (changed.1.refreshUnresolvedBlocks, true) else changed

def refreshIds (texts : Sources) (rows : List AlignedRow) :
    List MergeBlock → (UInt64 → ℕ) → Option (List MergeBlock)
  | [], _ => some []
  | block :: blocks, occurrences => do
    let slice ← sliceOf rows block.rows.start block.rows.stop
    let fingerprint := blockFingerprint texts slice block.classification
    let rest ← refreshIds texts rows blocks (countFingerprint fingerprint occurrences)
    some ({ block with id := ⟨fingerprint, occurrences fingerprint⟩ } :: rest)

def MergePlan.refreshBlockIds (plan : MergePlan) : Option MergePlan := do
  let blocks ← refreshIds plan.texts plan.rows plan.blocks fun _ => 0
  some { plan with blocks := blocks }

structure LineCounts where
  a : ℕ
  b : ℕ
  c : ℕ
  deriving DecidableEq

def LineCounts.isZero (counts : LineCounts) : Bool :=
  counts.a == 0 && counts.b == 0 && counts.c == 0

def wrappingAdd (m n : ℕ) : ℕ := (m + n) % (usizeMax + 1)

def LineCounts.add (total counts : LineCounts) : LineCounts :=
  ⟨wrappingAdd total.a counts.a, wrappingAdd total.b counts.b, wrappingAdd total.c counts.c⟩

def availableCounts (rows : List AlignedRow) : LineCounts :=
  ⟨rows.countP (·.a.isSome), rows.countP (·.b.isSome), rows.countP (·.c.isSome)⟩

def requestedCounts (parts : List LineCounts) : LineCounts := parts.foldl LineCounts.add ⟨0, 0, 0⟩

def takeCell (present : Bool) (remaining : ℕ) : Option ℕ :=
  if present then if remaining = 0 then none else some (remaining - 1) else some remaining

def LineCounts.takeRow (remaining : LineCounts) (row : AlignedRow) : Option LineCounts := do
  let a ← takeCell row.a.isSome remaining.a
  let b ← takeCell row.b.isSome remaining.b
  let c ← takeCell row.c.isSome remaining.c
  some ⟨a, b, c⟩

def partEnd : List AlignedRow → ℕ → LineCounts → Option ℕ
  | [], cursor, remaining => if remaining.isZero then some cursor else none
  | row :: rows, cursor, remaining =>
    if remaining.isZero then some cursor
    else do
      let remaining ← remaining.takeRow row
      partEnd rows (cursor + 1) remaining

def partRanges (rows : List AlignedRow) : ℕ → List LineCounts → Option (List LineRange × ℕ)
  | cursor, [] => some ([], cursor)
  | cursor, counts :: parts =>
    if counts.isZero then none
    else do
      let stop ← partEnd (rows.drop cursor) cursor counts
      if stop = cursor then none
      else do
        let rest ← partRanges rows stop parts
        some (⟨cursor, stop⟩ :: rest.1, rest.2)

def spliceBlocks (blocks : List MergeBlock) (first last : ℕ) (replacement : List MergeBlock) :
    List MergeBlock :=
  blocks.take first ++ (replacement ++ blocks.drop (last + 1))

def MergePlan.splitBlockBySourceLineCounts (plan : MergePlan) (index : ℕ)
    (parts : List LineCounts) : Option (MergePlan × Option ℕ) :=
  if parts.length < 2 then some (plan, none)
  else match plan.blocks[index]? with
    | none => some (plan, none)
    | some original => do
      let rows ← sliceOf plan.rows original.rows.start original.rows.stop
      if availableCounts rows ≠ requestedCounts parts then some (plan, none)
      else match partRanges plan.rows original.rows.start parts with
        | none => some (plan, none)
        | some (ranges, cursor) =>
          if cursor ≠ original.rows.stop then some (plan, none)
          else do
            let replacement := ranges.map fun rows => { original with rows := rows }
            let plan ← MergePlan.refreshBlockIds
              { plan with blocks := spliceBlocks plan.blocks index index replacement }
            some (plan.refreshUnresolvedBlocks, some parts.length)

def joinedBlock (hasBase : Bool) (range : LineRange) (rows : List AlignedRow) : MergeBlock :=
  { id := ⟨0, 0⟩
    rows := range
    classification := if hasBase then .bcChanged else .bChanged
    isDelta := true
    originalConflict := true
    whitespaceConflict := rows.all fun row => rowWhitespaceConflict row hasBase
    automaticSelection := .new
    selection := .new
    manualContent := none }

def MergePlan.joinBlockRange (plan : MergePlan) (first last : ℕ) : Option (MergePlan × Option ℕ) :=
  if first > last ∨ last ≥ plan.blocks.length then some (plan, none)
  else do
    let firstBlock ← plan.blocks[first]?
    let lastBlock ← plan.blocks[last]?
    let range : LineRange := ⟨firstBlock.rows.start, lastBlock.rows.stop⟩
    let rows ← sliceOf plan.rows range.start range.stop
    let plan ← MergePlan.refreshBlockIds { plan with
      blocks := spliceBlocks plan.blocks first last [joinedBlock plan.hasBase range rows] }
    some (plan.refreshUnresolvedBlocks, some (last - first))

def MergeBlock.restore (block previous : MergeBlock) : MergeBlock :=
  { block with
    selection := previous.selection
    manualContent := previous.manualContent }

def sameSequence (blocks previous : List MergeBlock) : Bool :=
  decide (blocks.length = previous.length) &&
    (blocks.zip previous).all fun pair =>
      decide (pair.1.id.fingerprint = pair.2.id.fingerprint)

def fingerprintCount (blocks : List MergeBlock) (fingerprint : UInt64) : ℕ :=
  blocks.countP fun block => decide (block.id.fingerprint = fingerprint)

def uniqueDecisions (previous : List MergeBlock) : List MergeBlock :=
  previous.filter fun block => decide (fingerprintCount previous block.id.fingerprint = 1)

def restoreUnique (blocks previous : List MergeBlock) (block : MergeBlock) : MergeBlock :=
  if fingerprintCount blocks block.id.fingerprint ≠ 1 then block
  else match (uniqueDecisions previous).find? fun found =>
      decide (found.id.fingerprint = block.id.fingerprint) with
    | some found => block.restore found
    | none => block

def restoreBlocks (blocks previous : List MergeBlock) : List MergeBlock :=
  if sameSequence blocks previous then blocks.zipWith MergeBlock.restore previous
  else blocks.map (restoreUnique blocks previous)

def MergePlan.restoreDecisionsFrom (plan previous : MergePlan) : MergePlan :=
  MergePlan.refreshUnresolvedBlocks
    { plan with blocks := restoreBlocks plan.blocks previous.blocks }

inductive PlanOperation where
  | toggleSource (index : ℕ) (source : MergeSource)
  | replaceSelection (index : ℕ) (selection : OrderedSelection)
  | setManualContent (index : ℕ) (content : List Char)
  | splitBlockBySourceLineCounts (index : ℕ) (parts : List LineCounts)
  | joinBlockRange (first last : ℕ)
  | restoreDecisionsFrom (previous : MergePlan)

def MergePlan.perform (plan : MergePlan) : PlanOperation → Option (MergePlan × Bool)
  | .toggleSource index source => some (plan.toggleSource index source)
  | .replaceSelection index selection => some (plan.replaceSelection index selection)
  | .setManualContent index content => some (plan.setManualContent index content)
  | .splitBlockBySourceLineCounts index parts =>
    (plan.splitBlockBySourceLineCounts index parts).map fun result => (result.1, result.2.isSome)
  | .joinBlockRange first last =>
    (plan.joinBlockRange first last).map fun result => (result.1, result.2.isSome)
  | .restoreDecisionsFrom previous => some (plan.restoreDecisionsFrom previous, true)

def MergePlan.performAll (plan : MergePlan) : List PlanOperation → Option MergePlan
  | [] => some plan
  | operation :: operations => do
    let result ← plan.perform operation
    result.1.performAll operations

end GitComet.Merge
