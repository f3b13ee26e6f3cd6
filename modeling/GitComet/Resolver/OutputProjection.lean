import GitComet.Resolver.OutputRows

namespace GitComet.Resolver
open Text Kit Conflict Conflict.Output List Option Nat

def resolvedOutputSparseLineIndexMinLines : ℕ := 20000
def resolvedOutputSpanCheckpointStride : ℕ := 256

def withoutNewline (line : List Char) : List Char := (stripSuffix '\n' line).getD line

def lineTextFromStarts (text : List Char) (lineStarts : List ℕ) (lineIx : ℕ) : List Char :=
  let textLen := byteLen text
  let start := min (lineStarts[lineIx]?.getD textLen) textLen
  let stop := min (lineStarts[lineIx + 1]?.getD textLen) textLen
  if start ≥ stop then [] else withoutNewline ((byteSlice text start stop).getD [])

inductive FragmentLineIndex where
  | singleLine
  | dense (lineStarts : List ℕ)
  | sparse (index : SparseLineIndex)

namespace FragmentLineIndex

def lineText (lineIndex : FragmentLineIndex) (text : List Char) (lineIx : ℕ) : Option (List Char) :=
  match lineIndex with
  | .singleLine => if lineIx = 0 then some (withoutNewline text) else none
  | .dense lineStarts => some (lineTextFromStarts text lineStarts lineIx)
  | .sparse index => index.lineText text lineIx

def forEachLineText (lineIndex : FragmentLineIndex) (text : List Char) (start stop : ℕ) :
    List (ℕ × List Char) :=
  if start ≥ stop then []
  else match lineIndex with
    | .singleLine => if start = 0 then [(0, withoutNewline text)] else []
    | .dense lineStarts => (range' start (stop - start)).map fun lineIx =>
        (lineIx, lineTextFromStarts text lineStarts lineIx)
    | .sparse index => (range' start (stop - start)).filterMap fun lineIx =>
        (index.lineText text lineIx).map (lineIx, ·)

end FragmentLineIndex

inductive FragmentSource where
  | textSegment (segmentIx : ℕ)
  | blockBase (segmentIx : ℕ)
  | blockOurs (segmentIx : ℕ)
  | blockTheirs (segmentIx : ℕ)
  | unresolvedPlaceholder (text : List Char)

def FragmentSource.sourceText (segments : List ConflictSegment) :
    FragmentSource → Option (List Char)
  | .textSegment segmentIx => match segments[segmentIx]? with
    | some (.text content) => some content
    | _ => none
  | .blockBase segmentIx => match segments[segmentIx]? with
    | some (.block block) => some (block.base.getD [])
    | _ => none
  | .blockOurs segmentIx => match segments[segmentIx]? with
    | some (.block block) => some block.ours
    | _ => none
  | .blockTheirs segmentIx => match segments[segmentIx]? with
    | some (.block block) => some block.theirs
    | _ => none
  | .unresolvedPlaceholder text => some text

structure ResolvedOutputFragment where
  source : FragmentSource
  lineIndex : FragmentLineIndex
  newlineCount : ℕ
  endsWithNewline : Bool
  lineCount : ℕ
  widest : WidestLine

namespace ResolvedOutputFragment

variable (fragment : ResolvedOutputFragment) (segments : List ConflictSegment)

def lineText (lineIx : ℕ) : Option (List Char) := do
  let text ← fragment.source.sourceText segments
  if lineIx < fragment.lineCount then fragment.lineIndex.lineText text lineIx else none

def forEachLineText (start stop : ℕ) : List (ℕ × List Char) :=
  match fragment.source.sourceText segments with
  | none => []
  | some text =>
    let start := min start fragment.lineCount
    let stop := min stop fragment.lineCount
    if start ≥ stop then [] else fragment.lineIndex.forEachLineText text start stop

def widestLine : Option WidestLine :=
  if fragment.lineCount > 0 then some fragment.widest else none

end ResolvedOutputFragment

inductive ResolvedOutputSpan where
  | sourceLines (visibleStart len fragmentIx fragmentLineStart : ℕ)
  | mergedLine (visibleIndex : ℕ) (text : List Char)

namespace ResolvedOutputSpan

def visibleStart : ResolvedOutputSpan → ℕ
  | .sourceLines visibleStart _ _ _ => visibleStart
  | .mergedLine visibleIndex _ => visibleIndex

def len : ResolvedOutputSpan → ℕ
  | .sourceLines _ len _ _ => len
  | .mergedLine _ _ => 1

def visibleEnd (span : ResolvedOutputSpan) : ℕ := span.visibleStart + span.len

end ResolvedOutputSpan

def denseNewlineAt (scan : List ℕ × LineScan) (pos : ℕ) : List ℕ × LineScan :=
  (scan.1 ++ [pos + 1], scan.2.newlineAt pos)

def denseLineStartsAndWidestLine (text : List Char) : List ℕ × LineScan :=
  let scanned := (newlines text).foldl denseNewlineAt ([0], ⟨0, 0, ⟨0, 0⟩⟩)
  (scanned.1, scanned.2.finish (utf8 text).length)

def fragmentLines (text : List Char) (endsWithNewline : Bool) :
    FragmentLineIndex × ℕ × WidestLine :=
  let bytes := utf8 text
  if endsWithNewline && (bytes.take (bytes.length - 1)).all (· != newline) then
    (.singleLine, 1, ⟨0, bytes.length - 1⟩)
  else if !endsWithNewline && bytes.all (· != newline) then
    (.singleLine, 1, ⟨0, bytes.length⟩)
  else
    let dense := denseLineStartsAndWidestLine text
    if dense.2.lineCount ≥ resolvedOutputSparseLineIndexMinLines then
      let index := SparseLineIndex.forText text
      (.sparse index, dense.2.lineCount, index.widestLine.getD ⟨0, 0⟩)
    else (.dense dense.1, dense.2.lineCount, dense.2.widest)

def fragmentOf (source : FragmentSource) (text : List Char) : ResolvedOutputFragment :=
  let endsWithNewline := (utf8 text).getLast? == some newline
  let lines := fragmentLines text endsWithNewline
  let newlineCount := if endsWithNewline then lines.2.1 else lines.2.1 - 1
  ⟨source, lines.1, newlineCount, endsWithNewline, lines.2.1, lines.2.2⟩

inductive PendingLine where
  | empty
  | source (fragmentIx lineIx : ℕ) (conflictIx : Option ℕ)
  | composed (text : List Char) (conflictIx : Option ℕ)

def PendingLine.conflictIx : PendingLine → Option ℕ
  | .empty => none
  | .source _ _ conflictIx => conflictIx
  | .composed _ conflictIx => conflictIx

def mergeConflictIx : Option ℕ → Option ℕ → Option ℕ
  | none, other => other
  | other, none => other
  | some left, some _ => some left

def pushSourceSpan (spans : List ResolvedOutputSpan)
    (visibleStart fragmentIx fragmentLineStart len : ℕ) : List ResolvedOutputSpan :=
  let pushed := spans ++ [.sourceLines visibleStart len fragmentIx fragmentLineStart]
  if len = 0 then spans
  else match spans.getLast? with
    | some (.sourceLines prevVisibleStart prevLen prevFragmentIx prevFragmentLineStart) =>
      if prevFragmentIx = fragmentIx ∧ prevVisibleStart + prevLen = visibleStart ∧
          prevFragmentLineStart + prevLen = fragmentLineStart then
        spans.dropLast ++
          [.sourceLines prevVisibleStart (prevLen + len) prevFragmentIx prevFragmentLineStart]
      else pushed
    | _ => pushed

def extendRange (lineIx : ℕ) : Option TextRange → Option TextRange
  | some range => some ⟨min range.start lineIx, max range.stop (lineIx + 1)⟩
  | none => some ⟨lineIx, lineIx + 1⟩

def extendConflictLineRange (ranges : List (Option TextRange)) (conflictIx : Option ℕ)
    (lineIx : ℕ) : List (Option TextRange) :=
  match conflictIx with
  | none => ranges
  | some conflictIx => ranges.modify conflictIx (extendRange lineIx)

structure ProjectionBuild where
  fragments : List ResolvedOutputFragment
  spans : List ResolvedOutputSpan
  pending : PendingLine
  visibleLine : ℕ
  conflictRanges : List (Option TextRange)
  widest : WidestLine

namespace ProjectionBuild

section
variable (segments : List ConflictSegment) (build : ProjectionBuild)

def fragmentLineText (fragmentIx lineIx : ℕ) : Option (List Char) :=
  build.fragments[fragmentIx]?.bind fun fragment => fragment.lineText segments lineIx

def pendingLen : ℕ :=
  match build.pending with
  | .empty => 0
  | .source fragmentIx lineIx _ =>
    ((build.fragmentLineText segments fragmentIx lineIx).map byteLen).getD 0
  | .composed text _ => byteLen text

def finalizePendingLine : ProjectionBuild :=
  let spans := match build.pending with
    | .empty => build.spans ++ [.mergedLine build.visibleLine []]
    | .source fragmentIx lineIx _ =>
      pushSourceSpan build.spans build.visibleLine fragmentIx lineIx 1
    | .composed text _ => build.spans ++ [.mergedLine build.visibleLine text]
  { build with
    spans, pending := .empty, visibleLine := build.visibleLine + 1
    conflictRanges :=
      extendConflictLineRange build.conflictRanges build.pending.conflictIx build.visibleLine
    widest := build.widest.see build.visibleLine (build.pendingLen segments) }

def updateWidestFromSourceSpan (fragmentIx fragmentLineStart len : ℕ) : WidestLine :=
  match build.fragments[fragmentIx]?.bind (·.widestLine) with
  | none => build.widest
  | some widest =>
    if widest.ix < fragmentLineStart ∨ widest.ix ≥ fragmentLineStart + len then build.widest
    else build.widest.see (build.visibleLine + (widest.ix - fragmentLineStart)) widest.len

def appendSourcePiece (fragmentIx lineIx : ℕ) (conflictIx : Option ℕ) : ProjectionBuild :=
  let pieceText := (build.fragmentLineText segments fragmentIx lineIx).getD []
  match build.pending with
  | .empty =>
    if pieceText.isEmpty then build
    else { build with pending := .source fragmentIx lineIx conflictIx }
  | .source existingFragmentIx existingLineIx existingConflictIx =>
    let existingText := (build.fragmentLineText segments existingFragmentIx existingLineIx).getD []
    { build with
      pending := .composed (existingText ++ pieceText)
        (mergeConflictIx existingConflictIx conflictIx) }
  | .composed text existingConflictIx =>
    { build with
      pending := .composed (text ++ pieceText) (mergeConflictIx existingConflictIx conflictIx) }

def pushLines (fragmentIx fragmentLineStart len : ℕ) (conflictIx : Option ℕ) : ProjectionBuild :=
  { build with
    spans := pushSourceSpan build.spans build.visibleLine fragmentIx fragmentLineStart len
    widest := build.updateWidestFromSourceSpan fragmentIx fragmentLineStart len
    conflictRanges := (range len).foldl (fun ranges offset =>
      extendConflictLineRange ranges conflictIx (build.visibleLine + offset)) build.conflictRanges
    visibleLine := build.visibleLine + len }

def pushFragment (source : FragmentSource) (text : List Char) : ProjectionBuild :=
  { build with fragments := build.fragments ++ [fragmentOf source text] }

def isPending : Bool :=
  match build.pending with
  | .empty => false
  | _ => true

def pushWholeLines (fragmentIx newlineCount : ℕ) (conflictIx : Option ℕ) : ProjectionBuild :=
  if build.isPending then
    let build := (build.appendSourcePiece segments fragmentIx 0 conflictIx).finalizePendingLine
      segments
    if newlineCount > 1 then build.pushLines fragmentIx 1 (newlineCount - 1) conflictIx else build
  else build.pushLines fragmentIx 0 newlineCount conflictIx

def pushFragmentLines (fragmentIx : ℕ) (fragment : ResolvedOutputFragment)
    (conflictIx : Option ℕ) : ProjectionBuild :=
  if fragment.newlineCount = 0 then build.appendSourcePiece segments fragmentIx 0 conflictIx
  else
    let build := build.pushWholeLines segments fragmentIx fragment.newlineCount conflictIx
    if fragment.endsWithNewline then build
    else { build with pending := .source fragmentIx fragment.newlineCount conflictIx }

def pushSource (conflictIx : Option ℕ) (source : FragmentSource) (text : List Char) :
    ProjectionBuild :=
  if text.isEmpty then build
  else (build.pushFragment source text).pushFragmentLines segments build.fragments.length
    (fragmentOf source text) conflictIx

end

end ProjectionBuild

def resolvedOutputBlockSourceFragment (segmentIx : ℕ) (block : ConflictBlock) :
    ConflictOutputSource → Option (FragmentSource × List Char)
  | .base => block.base.map fun base => (.blockBase segmentIx, base)
  | .ours => some (.blockOurs segmentIx, block.ours)
  | .theirs => some (.blockTheirs segmentIx, block.theirs)

def fragmentSources (segmentIx : ℕ) (block : ConflictBlock) : List (FragmentSource × List Char) :=
  if block.usesUnresolvedMergeConflictPlaceholder then
    let text := block.unresolvedMergeConflictPlaceholderText
    [(.unresolvedPlaceholder text, text)]
  else block.choice.sources.filterMap (resolvedOutputBlockSourceFragment segmentIx block)

structure SegmentWalk where
  build : ProjectionBuild
  blockIx : ℕ
  anchors : List ℕ

def SegmentWalk.push (segments : List ConflictSegment) (walk : SegmentWalk)
    (placed : ConflictSegment × ℕ) : SegmentWalk :=
  match placed.1 with
  | .text content =>
    { walk with
      build := walk.build.pushSource segments none (.textSegment placed.2) content }
  | .block block =>
    ⟨(fragmentSources placed.2 block).foldl (fun build piece =>
        build.pushSource segments (some walk.blockIx) piece.1 piece.2) walk.build,
      walk.blockIx + 1, walk.anchors.set walk.blockIx walk.build.visibleLine⟩

def passSpans (line : ℕ) : ℕ → List ResolvedOutputSpan → ℕ
  | spanIx, span :: next :: spans =>
    if span.visibleEnd ≤ line then passSpans line (spanIx + 1) (next :: spans) else spanIx
  | spanIx, _ => spanIx

def spanCheckpointsFrom (spans : List ResolvedOutputSpan) : ℕ → List ℕ → List ℕ
  | _, [] => []
  | spanIx, checkpointIx :: rest =>
    let spanIx := passSpans (checkpointIx * resolvedOutputSpanCheckpointStride) spanIx
      (spans.drop spanIx)
    spanIx :: spanCheckpointsFrom spans spanIx rest

def buildSpanCheckpoints (spans : List ResolvedOutputSpan) (lineCount : ℕ) : List ℕ :=
  if spans.isEmpty ∨ lineCount = 0 then []
  else
    let checkpointCount := (lineCount + (resolvedOutputSpanCheckpointStride - 1)) /
      resolvedOutputSpanCheckpointStride
    spanCheckpointsFrom spans 0 (range checkpointCount)

structure ResolvedOutputProjection where
  fragments : List ResolvedOutputFragment
  spans : List ResolvedOutputSpan
  spanCheckpoints : List ℕ
  conflictLineRanges : List TextRange
  lineCount : ℕ
  widestLineIx : ℕ

def findSpan (lineIx : ℕ) : ℕ → List ResolvedOutputSpan → Option ℕ
  | _, [] => none
  | spanIx, span :: spans =>
    if lineIx < span.visibleEnd then
      if lineIx ≥ span.visibleStart then some spanIx else none
    else findSpan lineIx (spanIx + 1) spans

namespace ResolvedOutputProjection

def fromSegments (segments : List ConflictSegment) : ResolvedOutputProjection :=
  let conflictTotal := conflictCount segments
  let walk := segments.zipIdx.foldl (SegmentWalk.push segments)
    ⟨⟨[], [], .empty, 0, replicate conflictTotal none, ⟨0, 0⟩⟩, 0,
      replicate conflictTotal 0⟩
  let build := walk.build.finalizePendingLine segments
  let conflictLineRanges := build.conflictRanges.mapIdx fun conflictIx range =>
    range.getD
      (let anchor := min (walk.anchors[conflictIx]?.getD 0) build.visibleLine
      ⟨anchor, anchor⟩)
  let lineCount := max build.visibleLine 1
  ⟨build.fragments, build.spans, buildSpanCheckpoints build.spans lineCount, conflictLineRanges,
    lineCount, build.widest.ix⟩

variable (projection : ResolvedOutputProjection) (segments : List ConflictSegment)

def spanIxForVisibleLine (lineIx : ℕ) : Option ℕ :=
  if projection.spans.isEmpty ∨ lineIx ≥ projection.lineCount then none
  else
    let spanIx := projection.spanCheckpoints[lineIx / resolvedOutputSpanCheckpointStride]?.getD 0
    findSpan lineIx spanIx (projection.spans.drop spanIx)

def lineText (lineIx : ℕ) : Option (List Char) := do
  let spanIx ← projection.spanIxForVisibleLine lineIx
  let span ← projection.spans[spanIx]?
  if lineIx ≥ span.visibleEnd then none
  else match span with
    | .sourceLines visibleStart _ fragmentIx fragmentLineStart => do
      let fragment ← projection.fragments[fragmentIx]?
      fragment.lineText segments (fragmentLineStart + (lineIx - visibleStart))
    | .mergedLine _ text => some text

def visitSpan (lineIx visitEnd : ℕ) : ResolvedOutputSpan → Option (List (ℕ × List Char))
  | .sourceLines visibleStart _ fragmentIx fragmentLineStart =>
    projection.fragments[fragmentIx]?.map fun fragment =>
      let start := fragmentLineStart + (lineIx - visibleStart)
      (fragment.forEachLineText segments start (start + (visitEnd - lineIx))).map fun line =>
        (visibleStart + (line.1 - fragmentLineStart), line.2)
  | .mergedLine visibleIndex text =>
    some (if lineIx = visibleIndex then [(visibleIndex, text)] else [])

def visitSpans (stop : ℕ) : ℕ → List ResolvedOutputSpan → List (ℕ × List Char)
  | _, [] => []
  | lineIx, span :: spans =>
    if lineIx < stop then
      let lineIx := max lineIx span.visibleStart
      if lineIx ≥ stop then []
      else
        let visitEnd := min stop span.visibleEnd
        match projection.visitSpan segments lineIx visitEnd span with
        | none => []
        | some visited => visited ++ visitSpans stop visitEnd spans
    else []

def forEachLineTextInRange (start stop : ℕ) : List (ℕ × List Char) :=
  if start ≥ stop ∨ start ≥ projection.lineCount ∨ projection.spans.isEmpty then []
  else match projection.spanIxForVisibleLine start with
    | none => []
    | some spanIx => projection.visitSpans segments (min stop projection.lineCount) start
        (projection.spans.drop spanIx)

end ResolvedOutputProjection

def linesIn (rows : List (List Char)) (start stop : ℕ) : List (ℕ × List Char) :=
  (range' start (stop - start)).filterMap fun ix => rows[ix]?.map (ix, ·)

section
variable {rows : List (List Char)} {text row : List Char} {start stop : ℕ}

theorem linesIn_empty (h : stop ≤ start) : linesIn rows start stop = [] := by
  rw [linesIn, Nat.sub_eq_zero_of_le h]
  rfl

theorem linesIn_append {middle : ℕ} (h : start ≤ middle) (h' : middle ≤ stop) :
    linesIn rows start stop = linesIn rows start middle ++ linesIn rows middle stop := by
  have hsplit : stop - start = (middle - start) + (stop - middle) := by omega
  have hmiddle : start + 1 * (middle - start) = middle := by omega
  rw [linesIn, hsplit, ← range'_append, filterMap_append, hmiddle]
  rfl

theorem linesIn_one (h : rows[start]? = some row) :
    linesIn rows start (start + 1) = [(start, row)] := by
  rw [linesIn, Nat.add_sub_cancel_left, range'_one]
  simp [h]

theorem filterMap_lines {f : ℕ → Option (List Char)}
    (h : ∀ ix, start ≤ ix → ix < stop → f ix = rows[ix]?) :
    ((range' start (stop - start)).filterMap fun ix => (f ix).map (ix, ·)) =
      linesIn rows start stop := by
  refine filterMap_congr fun ix hix => ?_
  rw [mem_range'_1] at hix
  rw [h ix hix.1 (by omega)]

theorem withoutNewline_line (row : List Char) : withoutNewline (row ++ ['\n']) = row := by
  simp [withoutNewline, stripSuffix]

theorem withoutNewline_row (h : '\n' ∉ row) : withoutNewline row = row := by
  rw [withoutNewline, stripSuffix, if_neg fun hlast => h (mem_of_getLast? hlast)]
  rfl

theorem endsWithNewline_iff (hne : text ≠ []) :
    ((utf8 text).getLast? == some newline) ↔ (rowsIn text).getLast? = some [] := by
  induction text using SplitRows.rows_induction '\n' with
  | last row hrow =>
    rw [rowsIn_row hrow, beq_iff_eq]
    refine iff_of_false (fun hlast => ?_) fun hlast => hne (some.inj hlast)
    exact hrow (newline_mem_utf8 (mem_of_getLast? hlast))
  | step row rest hrow ih =>
    obtain ⟨first, more, hmore⟩ := exists_cons_of_ne_nil (rowsIn_ne_nil rest)
    have hbytes : utf8 (row ++ '\n' :: rest) = utf8 row ++ newline :: utf8 rest := by
      rw [← singleton_append, utf8_append, utf8_append, utf8_newline, singleton_append]
    rw [rowsIn_line hrow, hbytes, hmore, getLast?_cons_cons, ← hmore]
    cases rest with
    | nil => simp [rowsIn]
    | cons c rest =>
      rw [← ih (cons_ne_nil c rest)]
      cases hrest : utf8 (c :: rest) with
      | nil =>
        have hpos := byteLen_pos.mpr (cons_ne_nil c rest)
        rw [← length_utf8, hrest] at hpos
        cases hpos
      | cons byte bytes =>
        rw [getLast?_append, getLast?_cons_cons, ← hrest]
        cases hlast : (utf8 (c :: rest)).getLast? with
        | none =>
          rw [getLast?_eq_none_iff, hrest] at hlast
          cases hlast
        | some last => rfl

theorem denseLineStarts (text : List Char) :
    (denseLineStartsAndWidestLine text).1 =
      (range (rowsIn text).length).map (rowStart (rowsIn text)) ∧
    (denseLineStartsAndWidestLine text).2.lineCount = lineTotal (rowsIn text) ∧
    (denseLineStartsAndWidestLine text).2.widest.Of
      ((rowsIn text).take (lineTotal (rowsIn text))) := by
  have hpos := rowsIn_pos text
  have hscan : ((newlines text).foldl denseNewlineAt ([0], ⟨0, 0, ⟨0, 0⟩⟩)).1 =
      (range ((rowsIn text).length - 1 + 1)).map (rowStart (rowsIn text)) ∧
      ((newlines text).foldl denseNewlineAt ([0], ⟨0, 0, ⟨0, 0⟩⟩)).2.At (rowsIn text)
        ((rowsIn text).length - 1) :=
    foldl_newlines (P := fun k (scan : List ℕ × LineScan) =>
      scan.1 = (range (k + 1)).map (rowStart (rowsIn text)) ∧ scan.2.At (rowsIn text) k)
      text ⟨rfl, LineScan.at_zero _⟩ fun k scan hk ⟨hstarts, hat⟩ => by
        refine ⟨?_, hat.newlineAt (lt_of_succ_lt hk)⟩
        have hnext := rowStart_succ (getElem?_eq_getElem (lt_of_succ_lt hk))
        have hstart : rowStart (rowsIn text) (k + 1) - 1 + 1 = rowStart (rowsIn text) (k + 1) := by
          omega
        rw [range_succ (n := k + 1), map_append, map_singleton, ← hstarts, denseNewlineAt, hstart]
  have hlen : (rowsIn text).length - 1 + 1 = (rowsIn text).length := by omega
  rw [hlen] at hscan
  exact ⟨hscan.1, hscan.2.finish⟩

theorem lineTextFromStarts_row {k : ℕ} (hk : k < lineTotal (rowsIn text)) :
    some (lineTextFromStarts text ((range (rowsIn text).length).map
      (rowStart (rowsIn text))) k) = (rowsIn text)[k]? := by
  have hlen := lt_of_lt_of_le hk (lineTotal_bounds text).2
  obtain ⟨row, hrow⟩ : ∃ row, (rowsIn text)[k]? = some row :=
    ⟨_, getElem?_eq_getElem hlen⟩
  have hinside := (rowStart_inside hlen).mpr hk
  obtain ⟨front, back, htext, hfront, hfree, hback⟩ := row_parts hrow
  have hsize := congrArg byteLen htext
  rw [byteLen_append, byteLen_append, hfront] at hsize
  rw [lineTextFromStarts, getElem?_map, getElem?_range hlen, map_some,
    getD_some, min_eq_left hinside.le, getElem?_map]
  rcases hback with ⟨hlast, rfl⟩ | ⟨hnext, rest, rfl⟩
  · rw [getElem?_eq_none (by rw [length_range]; omega), map_none, getD_none,
      min_self, if_neg (Nat.not_le_of_lt hinside),
      byteSlice_of htext hfront.symm (by rw [hsize, hfront, byteLen_nil, add_zero]),
      getD_some, withoutNewline_row hfree, hrow]
  · have hbelow := rowStart_succ hrow
    have hstop : rowStart (rowsIn text) (k + 1) ≤ byteLen text := by
      rw [hsize, hbelow, byteLen_cons, show Char.utf8Size '\n' = 1 from rfl]
      omega
    rw [getElem?_range hnext, map_some, getD_some, min_eq_left hstop,
      if_neg (by omega), byteSlice_of (p := front) (m := row ++ ['\n']) (o := rest)
        (by rw [htext]; simp) hfront.symm (by rw [hbelow, ← hfront, byteLen_append]; rfl),
      getD_some, withoutNewline_line, hrow]

structure ResolvedOutputFragment.Reads (fragment : ResolvedOutputFragment) (text : List Char) :
    Prop where
  count : fragment.lineCount = lineTotal (rowsIn text)
  newlines : fragment.newlineCount = (rowsIn text).length - 1
  ends : fragment.endsWithNewline = true ↔ (rowsIn text).getLast? = some []
  line : ∀ k < lineTotal (rowsIn text), fragment.lineIndex.lineText text k = (rowsIn text)[k]?
  each : ∀ start stop, stop ≤ lineTotal (rowsIn text) →
    fragment.lineIndex.forEachLineText text start stop = linesIn (rowsIn text) start stop
  widest : fragment.widest.Of ((rowsIn text).take (lineTotal (rowsIn text)))

theorem newline_mem_iff : newline ∈ utf8 text ↔ '\n' ∈ text := by
  refine ⟨newline_mem_utf8, fun h => ?_⟩
  exact mem_flatMap.mpr ⟨'\n', h, by decide⟩

theorem all_solid : (utf8 text).all (· != newline) ↔ '\n' ∉ text := by
  rw [List.all_eq_true, ← newline_mem_iff]
  exact ⟨fun h hmem => absurd rfl (bne_iff_ne.mp (h _ hmem)),
    fun h byte hbyte => bne_iff_ne.mpr fun he => h (he ▸ hbyte)⟩

theorem one_full_line (hends : ((utf8 text).getLast? == some newline))
    (hsolid : ((utf8 text).take ((utf8 text).length - 1)).all (· != newline)) :
    ∃ row, '\n' ∉ row ∧ text = row ++ ['\n'] := by
  have htext : utf8 text = (utf8 text).dropLast ++ [newline] := by
    rw [beq_iff_eq] at hends
    exact (dropLast_append_getLast? newline hends).symm
  have hnewline : '\n' ∈ text := by
    rw [← newline_mem_iff, htext]
    simp
  obtain ⟨row, rest, rfl, hrow⟩ := eq_append_cons_of_mem hnewline
  refine ⟨row, hrow, ?_⟩
  cases rest with
  | nil => rfl
  | cons c rest =>
    have hpos := byteLen_pos.mpr (cons_ne_nil c rest)
    rw [List.all_eq_true] at hsolid
    refine absurd rfl (bne_iff_ne.mp (hsolid newline (mem_iff_getElem?.mpr ⟨byteLen row, ?_⟩)))
    have hbytes : utf8 (row ++ '\n' :: c :: rest) = utf8 row ++ newline :: utf8 (c :: rest) := by
      rw [← singleton_append, utf8_append, utf8_append, utf8_newline, singleton_append]
    rw [getElem?_take_of_lt (by rw [length_utf8, byteLen_line]; omega), hbytes,
      getElem?_append_right (length_utf8 row).le, length_utf8, Nat.sub_self]
    rfl

theorem singleLine_reads {source : FragmentSource} {newlineCount len : ℕ} {ends : Bool}
    (hrow : (rowsIn text)[0]? = some (withoutNewline text)) (htotal : lineTotal (rowsIn text) = 1)
    (hlen : byteLen (withoutNewline text) = len)
    (hnewlines : newlineCount = (rowsIn text).length - 1)
    (hends : ends ↔ (rowsIn text).getLast? = some []) :
    ResolvedOutputFragment.Reads ⟨source, .singleLine, newlineCount, ends, 1, ⟨0, len⟩⟩ text where
  count := htotal.symm
  newlines := hnewlines
  ends := hends
  line k hk := by
    rw [htotal, lt_one_iff] at hk
    rw [hk, hrow]
    rfl
  each start stop hstop := by
    rw [htotal] at hstop
    by_cases hempty : stop ≤ start
    · rw [FragmentLineIndex.forEachLineText, if_pos hempty, linesIn_empty hempty]
    · obtain ⟨rfl, rfl⟩ : start = 0 ∧ stop = 1 := by omega
      exact (linesIn_one hrow).symm
  widest := by
    have hsee := WidestLine.of_nil.see (withoutNewline text)
    have hone : (rowsIn text).take 1 = [withoutNewline text] := by
      rw [take_one, head?_eq_getElem?, hrow]
      rfl
    rw [htotal, hone]
    refine ⟨fun row hmem => ?_, .inr ⟨_, rfl, hlen⟩⟩
    rw [mem_singleton.mp hmem, hlen]

def Readable (text : List Char) : Prop :=
  resolvedOutputSparseLineIndexMinLines ≤ lineTotal (rowsIn text) → Addressable text

theorem newlineCount_eq {ends : Bool} (hends : ends ↔ (rowsIn text).getLast? = some []) :
    (if ends = true then lineTotal (rowsIn text) else lineTotal (rowsIn text) - 1) =
      (rowsIn text).length - 1 := by
  unfold lineTotal
  by_cases hlast : (rowsIn text).getLast? = some []
  · rw [if_pos (hends.mpr hlast), if_pos hlast]
  · rw [if_neg (mt hends.mp hlast), if_neg hlast]

theorem fragmentOf_reads (source : FragmentSource) (hne : text ≠ []) (hreadable : Readable text) :
    (fragmentOf source text).Reads text := by
  have hends := endsWithNewline_iff hne
  have hnewlines := newlineCount_eq hends
  simp only [fragmentOf, fragmentLines]
  split
  · rename_i hone
    rw [Bool.and_eq_true] at hone
    obtain ⟨row, hrow, rfl⟩ := one_full_line hone.1 hone.2
    have hrows : rowsIn (row ++ ['\n']) = [row, []] := rowsIn_line hrow []
    have htotal : lineTotal (rowsIn (row ++ ['\n'])) = 1 := by rw [hrows]; rfl
    rw [htotal] at hnewlines
    refine singleLine_reads ?_ htotal ?_ hnewlines hends
    · rw [hrows, withoutNewline_line]
      rfl
    · rw [withoutNewline_line, length_utf8, byteLen_line]
      rfl
  · split
    · rename_i hone
      rw [Bool.and_eq_true, all_solid] at hone
      have hrows := rowsIn_row hone.2
      have htotal : lineTotal (rowsIn text) = 1 := by
        rw [hrows, lineTotal]
        exact if_neg fun h => hne (some.inj h)
      rw [htotal] at hnewlines
      refine singleLine_reads ?_ htotal ?_ hnewlines hends
      · rw [hrows, withoutNewline_row hone.2]
        rfl
      · rw [withoutNewline_row hone.2, length_utf8]
    · obtain ⟨hstarts, hcount, hwidest⟩ := denseLineStarts text
      rw [hcount]
      split
      · rename_i hmany
        have hfits := SparseLineIndex.forText_fits text
        have haddressable := hreadable hmany
        refine ⟨rfl, hnewlines, hends, fun k hk => hfits.lineText haddressable hk,
          fun start stop hstop => ?_, ?_⟩
        · rw [FragmentLineIndex.forEachLineText]
          split
          · rename_i hempty
            rw [linesIn_empty hempty]
          · exact filterMap_lines fun ix _ hix => hfits.lineText haddressable (by omega)
        · have hlines : (SparseLineIndex.forText text).lineCount > 0 := by
            rw [hfits.count]
            exact lt_of_lt_of_le (by decide) hmany
          rw [SparseLineIndex.widestLine, if_pos hlines]
          exact hfits.widest
      · rw [hstarts]
        refine ⟨rfl, hnewlines, hends, fun k hk => lineTextFromStarts_row hk,
          fun start stop hstop => ?_, hwidest⟩
        rw [FragmentLineIndex.forEachLineText]
        split
        · rename_i hempty
          rw [linesIn_empty hempty]
        · rw [← filterMap_lines fun ix _ hix => lineTextFromStarts_row (by omega)]
          simp only [map_some]
          rw [filterMap_eq_map']

end

end GitComet.Resolver
