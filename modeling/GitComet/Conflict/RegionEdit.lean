import GitComet.Conflict.Segments
import GitComet.Basis.Slice

namespace GitComet.Conflict.RegionEdit
open Text

structure ConflictRegionSplitBoundaries where
  ours : ℕ × ℕ
  theirs : ℕ × ℕ
  base : Option (ℕ × ℕ)

structure ConflictRegionEditOutcome where
  newText : List Char
  parts : ℕ
  deriving DecidableEq

def findLineFeed : List Char → Option ℕ
  | [] => none
  | c :: text => if c = '\n' then some 0 else (findLineFeed text).map (c.utf8Size + ·)

def nthLineStartFrom (side : List Char) : ℕ → ℕ → Option ℕ
  | 0, start => some start
  | n + 1, start => do
    let tail ← byteSlice side start (byteLen side)
    match findLineFeed tail with
    | some rel => nthLineStartFrom side n (start + (rel + 1))
    | none => some (byteLen side)

def nthLineStart (side : List Char) (n : ℕ) : Option ℕ := nthLineStartFrom side n 0

def conflictRange : ParsedConflictSegmentRanges → Option ParsedConflictBlockRanges
  | .text _ => none
  | .conflict block => some block

def conflictBlocks (current : List Char) : List ParsedConflictBlockRanges :=
  (parseConflictMarkerRanges current).filterMap conflictRange

structure MarkerLines where
  opening : List Char
  baseIntro : Option (List Char)
  separator : List Char
  closing : List Char
  deriving DecidableEq

def baseIntroText (current : List Char) (block : ParsedConflictBlockRanges) :
    Option (Option (List Char)) :=
  match block.base with
  | none => some none
  | some base => (byteSlice current block.ours.stop base.start).map some

def markerLines (current : List Char) (block : ParsedConflictBlockRanges) : Option MarkerLines := do
  let separatorStart := block.base.elim block.ours.stop (·.stop)
  let opening ← byteSlice current block.markerStart block.ours.start
  let baseIntro ← baseIntroText current block
  let separator ← byteSlice current separatorStart block.theirs.start
  let closing ← byteSlice current block.theirs.stop block.markerEnd
  some ⟨opening, baseIntro, separator, closing⟩

def baseSection : Option (List Char) → Option (List Char) → List Char
  | some intro, some base => intro ++ base
  | _, _ => []

structure BlockParts where
  ours : List Char
  base : Option (List Char)
  theirs : List Char

def renderBlock (markers : MarkerLines) (parts : BlockParts) : List Char :=
  markers.opening ++ (parts.ours ++ (baseSection markers.baseIntro parts.base ++
    (markers.separator ++ (parts.theirs ++ markers.closing))))

def sideSlices (side : List Char) (bounds : ℕ × ℕ) :
    Option (List Char × List Char × List Char) := do
  let cut0 ← nthLineStart side bounds.1
  let cut1 ← nthLineStart side (max bounds.1 bounds.2)
  let first ← byteSlice side 0 cut0
  let second ← byteSlice side cut0 (max cut1 cut0)
  let third ← byteSlice side (max cut1 cut0) (byteLen side)
  some (first, second, third)

def baseSlices : Option (List Char) → Option (ℕ × ℕ) →
    Option (Option (List Char × List Char × List Char))
  | some base, some bounds => (sideSlices base bounds).map some
  | _, _ => some none

def BlockParts.isEmpty (parts : BlockParts) : Bool :=
  parts.ours.isEmpty && parts.theirs.isEmpty && (parts.base.getD []).isEmpty

def emittedParts (ours theirs : List Char × List Char × List Char)
    (base : Option (List Char × List Char × List Char)) : List BlockParts :=
  [⟨ours.1, base.map (·.1), theirs.1⟩, ⟨ours.2.1, base.map (·.2.1), theirs.2.1⟩,
    ⟨ours.2.2, base.map (·.2.2), theirs.2.2⟩].filter fun parts => !parts.isEmpty

def closingBreak (markers : MarkerLines) : List Char :=
  if endsWithNewline markers.closing then []
  else if ['\r', '\n'].isSuffixOf markers.opening then ['\r', '\n'] else ['\n']

def renderParts (markers : MarkerLines) : List BlockParts → List Char
  | [] => []
  | [parts] => renderBlock markers parts
  | parts :: rest =>
    renderBlock markers parts ++ (closingBreak markers ++ renderParts markers rest)

def splitConflictRegionText (current : List Char) (regionIndex : ℕ)
    (boundaries : ConflictRegionSplitBoundaries) : Option (Option ConflictRegionEditOutcome) :=
  match (conflictBlocks current)[regionIndex]? with
  | none => some none
  | some block =>
    if block.base.isSome ≠ boundaries.base.isSome then some none
    else do
      let markers ← markerLines current block
      let ours ← textForRange current block.ours
      let theirs ← textForRange current block.theirs
      let base ← baseText current block.base
      let oursParts ← sideSlices ours boundaries.ours
      let theirsParts ← sideSlices theirs boundaries.theirs
      let baseParts ← baseSlices base boundaries.base
      let emitted := emittedParts oursParts theirsParts baseParts
      if emitted.length < 2 then some none
      else
        let head ← byteSlice current 0 block.markerStart
        let tail ← byteSlice current block.markerEnd (byteLen current)
        some (some ⟨head ++ (renderParts markers emitted ++ tail), emitted.length⟩)

def isMarkerish (context : List Char) : Bool :=
  (splitLines context).any fun line => startsWith '<' line || startsWith '=' line ||
    startsWith '>' line || startsWith '|' line

def joinedBase (context : List Char) : Option (List Char) → Option (List Char) →
    Option (List Char)
  | none, none => none
  | first, second => some (first.getD [] ++ (context ++ second.getD []))

def joinConflictRegionsText (current : List Char) (firstRegionIndex : ℕ) :
    Option (Option ConflictRegionEditOutcome) :=
  match (conflictBlocks current)[firstRegionIndex]?,
    (conflictBlocks current)[firstRegionIndex + 1]? with
  | some first, some second => do
    let context ← byteSlice current first.markerEnd second.markerStart
    if isMarkerish context then some none
    else
      let firstMarkers ← markerLines current first
      let secondMarkers ← markerLines current second
      let markers : MarkerLines := ⟨firstMarkers.opening,
        firstMarkers.baseIntro.or secondMarkers.baseIntro, firstMarkers.separator,
        secondMarkers.closing⟩
      let firstOurs ← textForRange current first.ours
      let secondOurs ← textForRange current second.ours
      let firstTheirs ← textForRange current first.theirs
      let secondTheirs ← textForRange current second.theirs
      let firstBase ← baseText current first.base
      let secondBase ← baseText current second.base
      let head ← byteSlice current 0 first.markerStart
      let tail ← byteSlice current second.markerEnd (byteLen current)
      let joined : BlockParts := ⟨firstOurs ++ (context ++ secondOurs),
        joinedBase context firstBase secondBase, firstTheirs ++ (context ++ secondTheirs)⟩
      some (some ⟨head ++ (renderBlock markers joined ++ tail), 1⟩)
  | _, _ => some none

end GitComet.Conflict.RegionEdit

namespace GitComet.Conflict.RegionEdit
open Text Slice

def blockRanges : ℕ → List DocumentPart → List ParsedConflictBlockRanges
  | _, [] => []
  | offset, part :: parts =>
    let opening := offset + byteLen part.1.flatten
    part.2.ranges opening :: blockRanges (opening + byteLen part.2.lines.flatten) parts

theorem conflictRange_context (start stop : ℕ) :
    (contextRange start stop).filterMap conflictRange = [] := by
  unfold contextRange
  split <;> rfl

theorem conflictRange_document {tail : List Line} (parts : List DocumentPart) : ∀ offset,
    (documentRanges offset parts tail).filterMap conflictRange = blockRanges offset parts := by
  induction parts with
  | nil =>
    intro offset
    simp only [documentRanges, tailRanges, List.filterMap_append, conflictRange_context,
      List.append_nil, blockRanges]
  | cons part parts ih =>
    intro offset
    simp only [documentRanges, List.filterMap_append, conflictRange_context, List.nil_append,
      blockRanges]
    rw [List.filterMap_cons_some (by rfl), ih]

theorem conflictBlocks_document {text : List Char} {doc : Document}
    (h : splitInclusive text = doc.lines) : conflictBlocks text = blockRanges 0 doc.parts := by
  rw [conflictBlocks, parse_document h, conflictRange_document]

theorem blockRanges_at {part : DocumentPart} {after : List DocumentPart}
    (before : List DocumentPart) : ∀ offset,
    (blockRanges offset (before ++ part :: after))[before.length]? =
      some (part.2.ranges (offset + byteLen (before.flatMap partLines ++ part.1).flatten)) := by
  induction before with
  | nil => simp [blockRanges]
  | cons first before ih =>
    intro offset
    rw [List.cons_append, blockRanges, List.length_cons, List.getElem?_cons_succ, ih]
    simp [partLines, Nat.add_assoc]

theorem length_blockRanges (parts : List DocumentPart) : ∀ offset,
    (blockRanges offset parts).length = parts.length := by
  induction parts with
  | nil => exact fun _ => rfl
  | cons part parts ih => simp [blockRanges, ih]

structure BlockAt (text : List Char) (index : ℕ) (doc : Document) (before : List DocumentPart)
    (context : List Line) (c : ConflictLines) (after : List DocumentPart) : Prop where
  split : splitInclusive text = doc.lines
  parts : doc.parts = before ++ (context, c) :: after
  index : before.length = index

def frontLines (before : List DocumentPart) (context : List Line) : List Line :=
  before.flatMap partLines ++ context

def backLines (after : List DocumentPart) (tail : List Line) : List Line :=
  after.flatMap partLines ++ tail

section
variable {text : List Char} {index : ℕ} {doc : Document} {before after : List DocumentPart}
  {context : List Line} {c : ConflictLines}

section
variable (h : BlockAt text index doc before context c after)
include h

theorem BlockAt.lines :
    splitInclusive text = frontLines before context ++ (c.lines ++ backLines after doc.tail) := by
  rw [h.split, Document.lines, h.parts]
  simp [frontLines, backLines, partLines]

theorem BlockAt.whole :
    text = (frontLines before context).flatten ++
      (c.lines.flatten ++ (backLines after doc.tail).flatten) := by
  rw [← List.flatten_append, ← List.flatten_append, ← h.lines, splitInclusive_flatten]

theorem BlockAt.range :
    (conflictBlocks text)[index]? =
      some (c.ranges (byteLen (frontLines before context).flatten)) := by
  rw [conflictBlocks_document h.split, h.parts, ← h.index, blockRanges_at, Nat.zero_add]
  rfl

end

end

theorem blockAt_exists {text : List Char} {index : ℕ} {range : ParsedConflictBlockRanges}
    (h : (conflictBlocks text)[index]? = some range) :
    ∃ doc before context c after, BlockAt text index doc before context c after := by
  obtain ⟨doc, hdoc⟩ := document_exists (splitInclusive text)
  rw [conflictBlocks_document hdoc.symm] at h
  obtain ⟨hlt, -⟩ := List.getElem?_eq_some_iff.mp h
  rw [length_blockRanges] at hlt
  obtain ⟨before, after, hparts, hindex⟩ := split_at_index (List.getElem?_eq_getElem hlt)
  exact ⟨doc, before, _, _, after, hdoc.symm, hparts, hindex⟩

def lineMarkers (c : ConflictLines) : MarkerLines :=
  ⟨c.opening, c.base.map Prod.fst, c.separator, c.closing⟩

section
variable {text pre post : List Char} (c : ConflictLines)
  (h : text = pre ++ (c.lines.flatten ++ post))
include h

theorem flatten_lines : text = pre ++ (c.opening ++ (c.ours.flatten ++ (c.baseLines.flatten ++
    (c.separator ++ (c.theirs.flatten ++ (c.closing ++ post)))))) := by
  simpa [ConflictLines.lines, ConflictLines.body] using h

theorem markerLines_ranges : markerLines text (c.ranges (byteLen pre)) = some (lineMarkers c) := by
  have htext := flatten_lines c h
  have hopening : byteSlice text (byteLen pre) (byteLen pre + byteLen c.opening) =
      some c.opening := byteSlice_of htext rfl rfl
  have hseparator : byteSlice text (byteLen pre + byteLen c.opening + byteLen c.ours.flatten +
      byteLen c.baseLines.flatten) (byteLen pre + byteLen c.opening + byteLen c.ours.flatten +
      byteLen c.baseLines.flatten + byteLen c.separator) = some c.separator :=
    byteSlice_of (p := pre ++ c.opening ++ c.ours.flatten ++ c.baseLines.flatten)
      (by simpa only [List.append_assoc] using htext) (by simp only [byteLen_append])
      (by simp only [byteLen_append])
  have hclosing : byteSlice text (c.ranges (byteLen pre)).theirs.stop
      (c.ranges (byteLen pre)).markerEnd = some c.closing :=
    byteSlice_of (p := pre ++ c.opening ++ c.ours.flatten ++ c.baseLines.flatten ++ c.separator ++
      c.theirs.flatten) (o := post) (by simpa only [List.append_assoc] using htext)
      (by simp only [byteLen_append, ConflictLines.ranges])
      (by simp only [byteLen_append, ConflictLines.ranges])
  have hintro : baseIntroText text (c.ranges (byteLen pre)) = some (c.base.map Prod.fst) := by
    cases hbase : c.base with
    | none => simp [baseIntroText, ConflictLines.ranges, hbase]
    | some part =>
      have hslice : byteSlice text (byteLen pre + byteLen c.opening + byteLen c.ours.flatten)
          (byteLen pre + byteLen c.opening + byteLen c.ours.flatten + byteLen part.1) =
            some part.1 :=
        byteSlice_of (p := pre ++ c.opening ++ c.ours.flatten)
          (by simpa [ConflictLines.baseLines, hbase] using htext)
          (by simp only [byteLen_append]) (by simp only [byteLen_append])
      simp only [baseIntroText, ConflictLines.ranges, hbase, Option.map_some, hslice]
  have hstart : (c.ranges (byteLen pre)).base.elim (c.ranges (byteLen pre)).ours.stop (·.stop) =
      byteLen pre + byteLen c.opening + byteLen c.ours.flatten + byteLen c.baseLines.flatten := by
    cases hbase : c.base with
    | none => simp [ConflictLines.ranges, ConflictLines.baseLines, hbase]
    | some part => simp [ConflictLines.ranges, ConflictLines.baseLines, hbase, Nat.add_assoc]
  simp only [markerLines, hstart, hintro, hclosing, Option.bind_eq_bind, Option.bind_some]
  simp only [ConflictLines.ranges, hopening, hseparator, Option.bind_some, lineMarkers]

theorem sideTexts_ranges :
    textForRange text (c.ranges (byteLen pre)).ours = some c.ours.flatten ∧
      textForRange text (c.ranges (byteLen pre)).theirs = some c.theirs.flatten ∧
      baseText text (c.ranges (byteLen pre)).base = some (c.base.map fun part => part.2.flatten) := by
  obtain ⟨base, hbase, hrest⟩ := Option.bind_eq_some_iff.mp (c.blockText_ranges h)
  obtain ⟨ours, hours, hrest⟩ := Option.bind_eq_some_iff.mp hrest
  obtain ⟨theirs, htheirs, heq⟩ := Option.bind_eq_some_iff.mp hrest
  obtain ⟨rfl, rfl, rfl⟩ : base = c.block.base ∧ ours = c.block.ours ∧ theirs = c.block.theirs := by
    simpa [ConflictLines.block] using congrArg
      (fun b => (b.base, b.ours, b.theirs)) (Option.some.inj heq)
  exact ⟨hours, htheirs, hbase⟩

end

def markersOf (text : List Char) : List ParsedConflictBlockRanges → Option (List MarkerLines)
  | [] => some []
  | block :: blocks => do
    let markers ← markerLines text block
    let rest ← markersOf text blocks
    some (markers :: rest)

def blockMarkers (text : List Char) : Option (List MarkerLines) :=
  markersOf text (conflictBlocks text)

theorem markersOf_ranges {text : List Char} {t : List Line} (parts : List DocumentPart) :
    ∀ (pre : List Char), text = pre ++ (parts.flatMap partLines ++ t).flatten →
      markersOf text (blockRanges (byteLen pre) parts) =
        some (parts.map fun part => lineMarkers part.2) := by
  induction parts with
  | nil => exact fun _ _ => rfl
  | cons part parts ih =>
    intro pre h
    simp only [List.flatMap_cons, partLines, List.flatten_append, List.append_assoc] at h
    have hmarkers : markerLines text (part.2.ranges (byteLen (pre ++ part.1.flatten))) = _ :=
      markerLines_ranges part.2 (by simpa only [List.append_assoc] using h)
    have hrest := ih (pre ++ part.1.flatten ++ part.2.lines.flatten)
      (by simpa only [List.append_assoc, List.flatten_append, partLines] using h)
    simp only [byteLen_append] at hmarkers hrest
    simp only [blockRanges, markersOf, hmarkers, hrest, Option.bind_eq_bind, Option.bind_some,
      List.map_cons]

theorem blockMarkers_document {text : List Char} {doc : Document}
    (h : splitInclusive text = doc.lines) :
    blockMarkers text = some (doc.parts.map fun part => lineMarkers part.2) := by
  rw [blockMarkers, conflictBlocks_document h]
  exact markersOf_ranges doc.parts (t := doc.tail) [] (by
    rw [List.nil_append, ← Document.lines, ← h, splitInclusive_flatten])

end GitComet.Conflict.RegionEdit
