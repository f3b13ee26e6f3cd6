import GitComet.Conflict.Output
import GitComet.Conflict.PlanSync

namespace GitComet.Resolver
open Conflict

def isEmpty (range : TextRange) : Bool := range.stop ≤ range.start

def len (range : TextRange) : ℕ := range.stop - range.start

def holds (range : TextRange) (offset : ℕ) : Bool :=
  decide (range.start ≤ offset) && decide (offset < range.stop)

structure EditDelta where
  old : TextRange
  new : TextRange

structure ResolvedOutputBlockMap where
  ranges : List TextRange
  textLen : ℕ
  deriving DecidableEq

-- Offsets stay far below the width at which the source's additions saturate.
def shiftOffset (shift : ℤ) (offset : ℕ) : ℕ :=
  if 0 ≤ shift then offset + shift.toNat else offset - (-shift).toNat

def ownedRange (shift : ℤ) (edit : EditDelta) (previous : TextRange) : TextRange :=
  let start := if previous.start < edit.old.start then previous.start else edit.old.start
  let stop := if edit.old.stop < previous.stop then shiftOffset shift previous.stop
    else edit.new.stop
  ⟨start, max stop start⟩

def movedRange (shift : ℤ) (edit : EditDelta) (previous : TextRange) : TextRange :=
  if previous.stop ≤ edit.old.start then previous
  else if edit.old.stop ≤ previous.start then
    ⟨shiftOffset shift previous.start, shiftOffset shift previous.stop⟩
  else match decide (previous.start < edit.old.start), decide (edit.old.stop < previous.stop) with
    | true, true => ⟨previous.start, shiftOffset shift previous.stop⟩
    | true, false => ⟨previous.start, edit.old.start⟩
    | false, true => ⟨edit.new.stop, shiftOffset shift previous.stop⟩
    | false, false => ⟨edit.new.stop, edit.new.stop⟩

def windowsOrdered : List TextRange → Bool
  | range :: next :: rest => decide (range.stop ≤ next.start) && windowsOrdered (next :: rest)
  | _ => true

namespace ResolvedOutputBlockMap

variable (map : ResolvedOutputBlockMap)

def ownerForEditStart (start : ℕ) : Option ℕ :=
  (map.ranges.findIdx? (holds · start)).or
    (map.ranges.findIdx? fun range => isEmpty range && decide (range.start = start))

def applyEditDelta (edit : EditDelta) : ResolvedOutputBlockMap × Bool :=
  if edit.old.stop < edit.old.start ∨ map.textLen < edit.old.stop ∨
      edit.new.start ≠ edit.old.start ∨ edit.new.stop < edit.new.start then (map, false)
  else
    let owner := map.ownerForEditStart edit.old.start
    let shift := (len edit.new : ℤ) - len edit.old
    let ranges := map.ranges.mapIdx fun blockIndex previous =>
      if owner = some blockIndex then ownedRange shift edit previous
      else movedRange shift edit previous
    let textLen := shiftOffset shift map.textLen
    (⟨ranges, textLen⟩, windowsOrdered ranges &&
      ranges.all fun range => decide (range.start ≤ range.stop) && decide (range.stop ≤ textLen))

def applyEditDeltas (map : ResolvedOutputBlockMap) :
    List EditDelta → ResolvedOutputBlockMap × Bool
  | [] => (map, true)
  | edit :: edits =>
    let edited := map.applyEditDelta edit
    if edited.2 then edited.1.applyEditDeltas edits else edited

end ResolvedOutputBlockMap

end GitComet.Resolver

namespace GitComet.Resolver
open Text Merge Conflict Conflict.Output

structure ConflictBlock where
  base : Option (List Char)
  ours : List Char
  theirs : List Char
  choice : ConflictOutputChoice
  resolved : Bool
  whitespaceOnly : Bool

inductive ConflictSegment where
  | text (content : List Char)
  | block (block : ConflictBlock)

def blocksOf : List ConflictSegment → List ConflictBlock
  | [] => []
  | .text _ :: segments => blocksOf segments
  | .block block :: segments => block :: blocksOf segments

def conflictCount (segments : List ConflictSegment) : ℕ := (blocksOf segments).length

def unresolvedMergeConflictPlaceholder : List Char := "<Merge Conflict>".toList

def unresolvedWhitespaceConflictPlaceholder : List Char :=
  "<Merge Conflict (Whitespace only)>".toList

namespace ConflictBlock
variable (block : ConflictBlock)

def sides : ParsedConflictBlock := ⟨block.base, block.ours, block.theirs⟩

def usesUnresolvedMergeConflictPlaceholder : Bool :=
  !block.resolved && block.choice.sources.isEmpty

def unresolvedMergeConflictPlaceholderText : List Char :=
  let lineEnding := detectConflictBlockLineEnding block.sides
  let placeholder := if block.whitespaceOnly then unresolvedWhitespaceConflictPlaceholder
    else unresolvedMergeConflictPlaceholder
  if lineEnding = ['\r', '\n'] then placeholder ++ ['\r', '\n']
  else if lineEnding = ['\r'] then placeholder ++ ['\r']
  else placeholder ++ ['\n']

def pickedText : List Char := block.choice.sources.flatMap (sourceText block.sides)

def pickedLen (source : ConflictOutputSource) : ℕ :=
  match source with
  | .base => block.base.elim 0 byteLen
  | .ours => byteLen block.ours
  | .theirs => byteLen block.theirs

def editableConflictBlockLen : ℕ :=
  if block.usesUnresolvedMergeConflictPlaceholder then
    byteLen block.unresolvedMergeConflictPlaceholderText
  else block.choice.sources.foldl (fun length source => length + block.pickedLen source) 0

def generated : List Char :=
  if block.usesUnresolvedMergeConflictPlaceholder then
    block.unresolvedMergeConflictPlaceholderText
  else block.pickedText

end ConflictBlock

def segmentText : ConflictSegment → List Char
  | .text content => content
  | .block block => block.generated

def generateResolvedText (segments : List ConflictSegment) : List Char :=
  segments.flatMap segmentText

namespace ResolvedOutputBlockMap

def layOut : ℕ → List ConflictSegment → List TextRange × ℕ
  | cursor, [] => ([], cursor)
  | cursor, .text content :: segments => layOut (cursor + byteLen content) segments
  | cursor, .block block :: segments =>
    let stop := cursor + block.editableConflictBlockLen
    let rest := layOut stop segments
    (⟨cursor, stop⟩ :: rest.1, rest.2)

def fromSegments (segments : List ConflictSegment) : ResolvedOutputBlockMap :=
  let laid := layOut 0 segments
  ⟨laid.1, laid.2⟩

def isCharBoundary (text : List Char) (offset : ℕ) : Bool := (splitAtByte offset text).isSome

def isValidFor (map : ResolvedOutputBlockMap) (segments : List ConflictSegment)
    (outputText : List Char) : Bool :=
  decide (map.textLen = byteLen outputText) &&
    decide (map.ranges.length = conflictCount segments) &&
    (map.ranges.all fun range => decide (range.start ≤ range.stop) &&
      decide (range.stop ≤ byteLen outputText) && isCharBoundary outputText range.start &&
      isCharBoundary outputText range.stop) &&
    windowsOrdered map.ranges

def blockSlice (map : ResolvedOutputBlockMap) (segments : List ConflictSegment)
    (outputText : List Char) (blockIndex : ℕ) : Option (List Char) := do
  if map.isValidFor segments outputText then
    let range ← map.ranges[blockIndex]?
    byteSlice outputText range.start range.stop
  else none

end ResolvedOutputBlockMap

theorem foldl_add {α : Type} (f : α → ℕ) (xs : List α) :
    ∀ start, xs.foldl (fun length x => length + f x) start = start + (xs.map f).sum := by
  induction xs with
  | nil => exact fun _ => rfl
  | cons x xs ih =>
    intro start
    rw [List.foldl_cons, ih, List.map_cons, List.sum_cons, Nat.add_assoc]

theorem byteLen_flatMap {α : Type} (f : α → List Char) (xs : List α) :
    byteLen (xs.flatMap f) = (xs.map fun x => byteLen (f x)).sum := by
  induction xs with
  | nil => rfl
  | cons x xs ih => rw [List.flatMap_cons, byteLen_append, ih, List.map_cons, List.sum_cons]

theorem ConflictBlock.byteLen_generated (block : ConflictBlock) :
    byteLen block.generated = block.editableConflictBlockLen := by
  unfold generated editableConflictBlockLen
  split
  · rfl
  · rw [pickedText, byteLen_flatMap, foldl_add, Nat.zero_add]
    congr 2
    funext source
    cases source with
    | base => cases hbase : block.base <;> simp [sourceText, pickedLen, sides, hbase]
    | ours => rfl
    | theirs => rfl

end GitComet.Resolver
