import GitComet.Basis.BinarySearch
import GitComet.Basis.RecentCache
import GitComet.FileDiff.PlanRows
import GitComet.Resolver.SparseLines

namespace GitComet.Resolver
open Text Kit Conflict BinarySearch RecentCache List Option FileDiff Nat

def conflictSplitPageCacheMaxPages : ℕ := 8

def u32Of (n : ℕ) : ℕ := min n u32Max
def satAddU32 (a b : ℕ) : ℕ := min (a + b) u32Max

def collectRanges (bytes : List UInt8) (startLineIx targetLen : ℕ) :
    ℕ → ℕ → ℕ → List TextRange → List TextRange
  | 0, _, _, out => out
  | left + 1, currentLine, byteIx, out =>
    if byteIx ≤ bytes.length ∧ out.length < targetLen then
      let lineEnd := lineEndFrom bytes byteIx
      let out := if currentLine ≥ startLineIx then out ++ [⟨byteIx, lineEnd⟩] else out
      collectRanges bytes startLineIx targetLen left (currentLine + 1)
        (afterLineEnd bytes lineEnd) out
    else out

def SparseLineIndex.lineRangesInto (index : SparseLineIndex) (text : List Char)
    (startLineIx maxLines : ℕ) : List TextRange :=
  if startLineIx ≥ index.lineCount ∨ maxLines = 0 then []
  else
    let targetLen := min (index.lineCount - startLineIx) maxLines
    let checkpointIx := startLineIx / conflictSplitLineCheckpointStride
    let checkpointLine := checkpointIx * conflictSplitLineCheckpointStride
    match index.checkpoints[checkpointIx]? with
    | none => []
    | some byteIx => collectRanges (utf8 text) startLineIx targetLen
        (index.lineCount - checkpointLine) checkpointLine byteIx []

inductive SplitLayoutKind where
  | context (lineIndex : SparseLineIndex)
      (leadingRowCount trailingRowStart oursStartLine theirsStartLine : ℕ)
  | block (oursLineIndex theirsLineIndex : SparseLineIndex) (oursStartLine theirsStartLine : ℕ)

structure SplitLayoutEntry where
  rowStart : ℕ
  rowCount : ℕ
  segmentIx : ℕ
  conflictIx : Option ℕ
  kind : SplitLayoutKind

structure SplitLayout where
  entries : List SplitLayoutEntry
  totalRows : ℕ
  oursLine : ℕ
  theirsLine : ℕ
  conflictIx : ℕ

def isBlock : Option ConflictSegment → Bool
  | some (.block _) => true
  | _ => false

def SplitLayout.push (segments : List ConflictSegment) (contextLines : ℕ) (layout : SplitLayout)
    (placed : ConflictSegment × ℕ) : SplitLayout :=
  match placed.1 with
  | .text text =>
    let lineIndex := SparseLineIndex.forText text
    let lineCount := lineIndex.lineCount
    let hasPrevBlock := decide (placed.2 > 0) && isBlock segments[placed.2 - 1]?
    let hasNextBlock := isBlock segments[placed.2 + 1]?
    let leading := if hasPrevBlock then min contextLines lineCount else 0
    let trailing := if hasNextBlock then min contextLines lineCount else 0
    let trailingRowStart := max leading (lineCount - trailing)
    let rowCount := leading + (lineCount - trailingRowStart)
    let entry := ⟨layout.totalRows, rowCount, placed.2, none,
      .context lineIndex leading trailingRowStart layout.oursLine layout.theirsLine⟩
    { layout with
      entries := if rowCount > 0 then layout.entries ++ [entry] else layout.entries
      totalRows := if rowCount > 0 then layout.totalRows + rowCount else layout.totalRows
      oursLine := satAddU32 layout.oursLine (u32Of lineCount)
      theirsLine := satAddU32 layout.theirsLine (u32Of lineCount) }
  | .block block =>
    let oursLineIndex := SparseLineIndex.forText block.ours
    let theirsLineIndex := SparseLineIndex.forText block.theirs
    let rowCount := max oursLineIndex.lineCount theirsLineIndex.lineCount
    let entry := ⟨layout.totalRows, rowCount, placed.2, some layout.conflictIx,
      .block oursLineIndex theirsLineIndex layout.oursLine layout.theirsLine⟩
    ⟨layout.entries ++ [entry], layout.totalRows + rowCount,
      satAddU32 layout.oursLine (u32Of oursLineIndex.lineCount),
      satAddU32 layout.theirsLine (u32Of theirsLineIndex.lineCount), layout.conflictIx + 1⟩

def contextRowsFrom (text : List Char) (oursStartLine theirsStartLine : ℕ) :
    ℕ → List TextRange → Option (List FileDiffRow)
  | _, [] => some []
  | lineIx, range :: ranges => do
    let shared ← byteSlice text range.start range.stop
    let rows ← contextRowsFrom text oursStartLine theirsStartLine (lineIx + 1) ranges
    some (⟨.context, some (satAddU32 oursStartLine (u32Of lineIx)),
      some (satAddU32 theirsStartLine (u32Of lineIx)), some shared, some shared, none⟩ :: rows)

def rowKind : Option (List Char) → Option (List Char) → Option FileDiff.RowKind
  | some old, some new => some (if old = new then .context else .modify)
  | some _, none => some .remove
  | none, some _ => some .add
  | none, none => none

def blockRow (oursStartLine theirsStartLine oursCount theirsCount lineIx : ℕ)
    (old new : Option (List Char)) : Option FileDiffRow :=
  (rowKind old new).map fun kind =>
    ⟨kind, if lineIx < oursCount then some (satAddU32 oursStartLine (u32Of lineIx)) else none,
      if lineIx < theirsCount then some (satAddU32 theirsStartLine (u32Of lineIx)) else none,
      old, new, none⟩

def textRows (lineIndex : SparseLineIndex) (text : List Char)
    (oursStartLine theirsStartLine lineIx maxLines : ℕ) : Option (List FileDiffRow) :=
  contextRowsFrom text oursStartLine theirsStartLine lineIx
    (lineIndex.lineRangesInto text lineIx maxLines)

def entryRows (entry : SplitLayoutEntry) (segment : ConflictSegment) (localStart localEnd : ℕ) :
    Option (List FileDiffRow) :=
  match entry.kind, segment with
  | .context lineIndex leading trailingRowStart oursStartLine theirsStartLine, .text text =>
    let leadingEnd := min localEnd leading
    let trailingLocalStart := max localStart leading
    let leadingRows := if localStart < leadingEnd then
        textRows lineIndex text oursStartLine theirsStartLine localStart (leadingEnd - localStart)
      else some []
    let trailingRows := if trailingLocalStart < localEnd then
        textRows lineIndex text oursStartLine theirsStartLine
          (trailingRowStart + (trailingLocalStart - leading)) (localEnd - trailingLocalStart)
      else some []
    leadingRows.bind fun rows => trailingRows.map (rows ++ ·)
  | .block oursLineIndex theirsLineIndex oursStartLine theirsStartLine, .block block =>
    let rowCount := localEnd - localStart
    let oursCount := oursLineIndex.lineCount
    let theirsCount := theirsLineIndex.lineCount
    let oursRanges := oursLineIndex.lineRangesInto block.ours localStart
      (if localStart < oursCount then min rowCount (oursCount - localStart) else 0)
    let theirsRanges := theirsLineIndex.lineRangesInto block.theirs localStart
      (if localStart < theirsCount then min rowCount (theirsCount - localStart) else 0)
    some ((range rowCount).filterMap fun offset =>
      blockRow oursStartLine theirsStartLine oursCount theirsCount (localStart + offset)
        (oursRanges[offset]?.bind fun range => byteSlice block.ours range.start range.stop)
        (theirsRanges[offset]?.bind fun range => byteSlice block.theirs range.start range.stop))
  | _, _ => none

structure ConflictSplitPageCache where
  pages : Entries ℕ (List FileDiffRow)
  lru : List ℕ

namespace ConflictSplitPageCache

def touchQueue (order : List ℕ) (key : ℕ) : List ℕ :=
  if order.getLast? = some key then order else order.erase key ++ [key]

variable (cache : ConflictSplitPageCache)

def get (pageIx : ℕ) : Option (List FileDiffRow × ConflictSplitPageCache) :=
  (cache.pages.lookup pageIx).map fun page => (page, ⟨cache.pages, touchQueue cache.lru pageIx⟩)

-- `none` where the loop goes on for ever, with pages left and an empty queue.
def evictOldest : List ℕ → Entries ℕ (List FileDiffRow) → Option ConflictSplitPageCache
  | [], pages =>
    if pages.keys.length > conflictSplitPageCacheMaxPages then none else some ⟨pages, []⟩
  | oldest :: lru, pages =>
    if pages.keys.length > conflictSplitPageCacheMaxPages then evictOldest lru (pages.erase oldest)
    else some ⟨pages, oldest :: lru⟩

def insert (pageIx : ℕ) (page : List FileDiffRow) : Option ConflictSplitPageCache :=
  evictOldest (touchQueue cache.lru pageIx) (cache.pages.insert pageIx page)

end ConflictSplitPageCache

structure ConflictSplitRowIndex where
  entries : List SplitLayoutEntry
  totalRows : ℕ
  pageSize : ℕ
  pages : Option ConflictSplitPageCache

namespace ConflictSplitRowIndex

def layOut (segments : List ConflictSegment) (contextLines : ℕ) : SplitLayout :=
  segments.zipIdx.foldl (SplitLayout.push segments contextLines) ⟨[], 0, 1, 1, 0⟩

def new (segments : List ConflictSegment) (contextLines : ℕ) : ConflictSplitRowIndex :=
  let layout := layOut segments contextLines
  ⟨layout.entries, layout.totalRows, conflictSplitPageSize, none⟩

variable (index : ConflictSplitRowIndex) (segments : List ConflictSegment)

def pageBounds (pageIx : ℕ) : Option (ℕ × ℕ) :=
  let start := pageIx * index.pageSize
  if start < index.totalRows then some (start, min (start + index.pageSize) index.totalRows)
  else none

def entryForRow (rowIx : ℕ) : Option SplitLayoutEntry :=
  if rowIx ≥ index.totalRows then none
  else do
    let pos := partitionPoint (fun entry : SplitLayoutEntry => decide (entry.rowStart ≤ rowIx))
      index.entries - 1
    let entry ← index.entries[pos]?
    if rowIx ≥ entry.rowStart ∧ rowIx < entry.rowStart + entry.rowCount then some entry else none

def buildRows (stop : ℕ) : ℕ → ℕ → Option (List FileDiffRow)
  | 0, _ => none
  | fuel + 1, rowIx =>
    if rowIx < stop then do
      let entry ← index.entryForRow rowIx
      let entryRowEnd := min (entry.rowStart + entry.rowCount) stop
      let segment ← segments[entry.segmentIx]?
      let rows ← entryRows entry segment (rowIx - entry.rowStart) (entryRowEnd - entry.rowStart)
      let rest ← buildRows stop fuel entryRowEnd
      some (rows ++ rest)
    else some []

def buildPage (pageIx : ℕ) : Option (List FileDiffRow) :=
  (index.pageBounds pageIx).bind fun bounds =>
    index.buildRows segments bounds.2 (bounds.2 - bounds.1 + 1) bounds.1

def cachedPage (pageIx : ℕ) : Option (List FileDiffRow × ConflictSplitPageCache) := do
  let cache ← index.pages
  match cache.pages.lookup pageIx with
  | some page =>
    if cache.pages.keys.length < conflictSplitPageCacheMaxPages ∨
        cache.lru.getLast? = some pageIx then some (page, cache)
    else cache.get pageIx
  | none => cache.get pageIx

def loadPage (pageIx : ℕ) : Option (Option (List FileDiffRow) × ConflictSplitRowIndex) :=
  match index.cachedPage pageIx with
  | some found => some (some found.1, { index with pages := some found.2 })
  | none => match index.buildPage segments pageIx with
    | none => some (none, index)
    | some page =>
      ((index.pages.getD ⟨∅, []⟩).insert pageIx page).map fun cache =>
        (some page, { index with pages := some cache })

def rowAt (rowIx : ℕ) : Option (Option FileDiffRow × ConflictSplitRowIndex) :=
  if rowIx ≥ index.totalRows then some (none, index)
  else (index.loadPage segments (rowIx / index.pageSize)).map fun loaded =>
    (loaded.1.bind fun page => page[rowIx % index.pageSize]?, loaded.2)

def readRows : ConflictSplitRowIndex → List ℕ → Option (List (Option FileDiffRow))
  | _, [] => some []
  | index, rowIx :: accesses => do
    let read ← index.rowAt segments rowIx
    let rows ← readRows read.2 accesses
    some (read.1 :: rows)

end ConflictSplitRowIndex

def linesOf (text : List Char) : List (List Char) :=
  (rowsIn text).take (lineTotal (rowsIn text))

def contextRow (oursLine theirsLine ix : ℕ) (line : List Char) : FileDiffRow :=
  ⟨.context, some (u32Of (oursLine + ix)), some (u32Of (theirsLine + ix)), some line, some line,
    none⟩

def splitRow (oursLine theirsLine ix : ℕ) (old new : Option (List Char)) : Option FileDiffRow :=
  (rowKind old new).map fun kind =>
    ⟨kind, old.map fun _ => u32Of (oursLine + ix), new.map fun _ => u32Of (theirsLine + ix),
      old, new, none⟩

def plainContextRows (contextLines : ℕ) (afterBlock beforeBlock : Bool)
    (oursLine theirsLine : ℕ) (text : List Char) : List FileDiffRow :=
  let rows := (linesOf text).mapIdx (contextRow oursLine theirsLine)
  let leading := if afterBlock then min contextLines rows.length else 0
  let trailing := if beforeBlock then min contextLines rows.length else 0
  rows.take leading ++ rows.drop (max leading (rows.length - trailing))

def plainBlockRows (oursLine theirsLine : ℕ) (block : ConflictBlock) : List FileDiffRow :=
  let ours := linesOf block.ours
  let theirs := linesOf block.theirs
  (range (max ours.length theirs.length)).filterMap fun ix =>
    splitRow oursLine theirsLine ix ours[ix]? theirs[ix]?

def plainRowsFrom (contextLines : ℕ) : Bool → ℕ → ℕ → List ConflictSegment → List FileDiffRow
  | _, _, _, [] => []
  | afterBlock, oursLine, theirsLine, .text text :: segments =>
    plainContextRows contextLines afterBlock (isBlock segments.head?) oursLine theirsLine text ++
      plainRowsFrom contextLines false (oursLine + (linesOf text).length)
        (theirsLine + (linesOf text).length) segments
  | _, oursLine, theirsLine, .block block :: segments =>
    plainBlockRows oursLine theirsLine block ++
      plainRowsFrom contextLines true (oursLine + (linesOf block.ours).length)
        (theirsLine + (linesOf block.theirs).length) segments

def plainRows (segments : List ConflictSegment) (contextLines : ℕ) : List FileDiffRow :=
  plainRowsFrom contextLines false 1 1 segments

variable {start : ℕ}

section
variable {text : List Char} {index : SparseLineIndex}

theorem length_linesOf (text : List Char) : (linesOf text).length = lineTotal (rowsIn text) := by
  rw [linesOf, length_take, min_eq_left (lineTotal_bounds text).2]

theorem getElem?_linesOf {k : ℕ} (h : k < lineTotal (rowsIn text)) :
    (linesOf text)[k]? = (rowsIn text)[k]? := getElem?_take_of_lt h

def rowRange (text : List Char) (k : ℕ) : TextRange :=
  ⟨rowStart (rowsIn text) k, rowStart (rowsIn text) k + byteLen (((rowsIn text)[k]?).getD [])⟩

theorem collectRanges_eq {target : ℕ} (htarget : start + target ≤ lineTotal (rowsIn text))
    (left : ℕ) : ∀ {line byteIx out}, line + left = lineTotal (rowsIn text) →
      (line < (rowsIn text).length → byteIx = rowStart (rowsIn text) line) →
      out = (range' start (line - start)).map (rowRange text) → line - start ≤ target →
        collectRanges (utf8 text) start target left line byteIx out =
          (range' start target).map (rowRange text) := by
  have hbounds := lineTotal_bounds text
  induction left with
  | zero =>
    intro line byteIx out hleft _ hout hle
    obtain rfl : line - start = target := by omega
    exact hout
  | succ left ih =>
    intro line byteIx out hleft hbyte hout hle
    have hlength : out.length = line - start := by rw [hout, length_map, length_range']
    obtain ⟨row, hrow⟩ : ∃ row, (rowsIn text)[line]? = some row :=
      ⟨_, getElem?_eq_getElem (by omega)⟩
    obtain ⟨hinside, hend, hnext⟩ := lineEndFrom_row hrow
    rw [collectRanges, hbyte (by omega), hlength]
    split
    · rename_i hmore
      dsimp only
      rw [hend]
      refine ih (by omega) hnext ?_ (by omega)
      split
      · rename_i hstart
        have hsum : line + 1 - start = line - start + 1 := by omega
        have hlast : start + 1 * (line - start) = line := by omega
        rw [hsum, range'_concat, map_append, ← hout, map_singleton, hlast, rowRange,
          hrow, getD_some]
      · rename_i hbefore
        have hnone : line - start = 0 := by omega
        have hnone' : line + 1 - start = 0 := by omega
        rw [hout, hnone, hnone']
    · rename_i hdone
      have hfull : line - start = target := by omega
      rw [hout, hfull]

theorem lineRangesInto_eq (h : index.Fits text) (haddressable : Addressable text)
    (start maxLines : ℕ) : index.lineRangesInto text start maxLines =
      (range' start (min (lineTotal (rowsIn text) - start) maxLines)).map (rowRange text) := by
  rw [SparseLineIndex.lineRangesInto, h.count]
  split
  · rename_i hnone
    have hzero : min (lineTotal (rowsIn text) - start) maxLines = 0 := by omega
    rw [hzero]
    rfl
  · rename_i hsome
    rw [not_or] at hsome
    have hcheck : start / 256 * 256 < lineTotal (rowsIn text) := by omega
    have hfits : rowStart (rowsIn text) (start / 256 * 256) ≤ u32Max := haddressable _ hcheck
    simp only [conflictSplitLineCheckpointStride, conflictSplitPageSize]
    rw [h.checkpoints _ hcheck, le_u32Max hfits]
    refine collectRanges_eq (by omega) _ (by omega) (fun _ => rfl) ?_ (by omega)
    have hnone : start / 256 * 256 - start = 0 := by omega
    rw [hnone]
    rfl

theorem byteSlice_rowRange {k : ℕ} {row : List Char} (h : (rowsIn text)[k]? = some row) :
    byteSlice text (rowRange text k).start (rowRange text k).stop = some row := by
  rw [rowRange, h]
  exact byteSlice_row h

end

theorem satAddU32_of (a b : ℕ) : satAddU32 (u32Of a) (u32Of b) = u32Of (a + b) := by
  unfold satAddU32 u32Of
  omega

structure EntryShows (segments : List ConflictSegment) (entry : SplitLayoutEntry)
    (rows : List FileDiffRow) : Prop where
  count : entry.rowCount = rows.length
  read : ∃ segment, segments[entry.segmentIx]? = some segment ∧
    ∀ localStart localEnd, localStart ≤ localEnd → localEnd ≤ rows.length →
      entryRows entry segment localStart localEnd =
        some ((rows.drop localStart).take (localEnd - localStart))

section
variable {text : List Char} {index : SparseLineIndex} {segments : List ConflictSegment}

theorem contextRowsFrom_eq (oursLine theirsLine n : ℕ) : ∀ {lineIx},
    lineIx + n ≤ lineTotal (rowsIn text) →
      contextRowsFrom text (u32Of oursLine) (u32Of theirsLine) lineIx
        ((range' lineIx n).map (rowRange text)) =
          some ((((linesOf text).mapIdx (contextRow oursLine theirsLine)).drop lineIx).take n) := by
  induction n with
  | zero => exact fun _ => by rw [take_zero]; rfl
  | succ n ih =>
    intro lineIx hle
    have hlt : lineIx < lineTotal (rowsIn text) := by omega
    have hlen : lineIx < ((linesOf text).mapIdx (contextRow oursLine theirsLine)).length := by
      rwa [length_mapIdx, length_linesOf]
    obtain ⟨row, hrow⟩ : ∃ row, (rowsIn text)[lineIx]? = some row :=
      ⟨_, getElem?_eq_getElem (lt_of_lt_of_le hlt (lineTotal_bounds text).2)⟩
    have hline : (linesOf text)[lineIx]? = some row := (getElem?_linesOf hlt).trans hrow
    have hget : ((linesOf text).mapIdx (contextRow oursLine theirsLine))[lineIx] =
        contextRow oursLine theirsLine lineIx row := by
      rw [getElem_mapIdx, (List.getElem?_eq_some_iff.mp hline).2]
    rw [range'_succ, map_cons, contextRowsFrom, byteSlice_rowRange hrow,
      bind_eq_bind, bind_some, ih (by omega), bind_eq_bind, bind_some,
      drop_eq_getElem_cons hlen, take_succ_cons, hget, satAddU32_of, satAddU32_of]
    rfl

theorem textRows_eq (h : index.Fits text) (haddressable : Addressable text)
    (oursLine theirsLine : ℕ) {lineIx n : ℕ} (hle : lineIx + n ≤ lineTotal (rowsIn text)) :
    textRows index text (u32Of oursLine) (u32Of theirsLine) lineIx n =
      some ((((linesOf text).mapIdx (contextRow oursLine theirsLine)).drop lineIx).take n) := by
  have hmin : min (lineTotal (rowsIn text) - lineIx) n = n := by omega
  rw [textRows, lineRangesInto_eq h haddressable, hmin,
    contextRowsFrom_eq oursLine theirsLine n hle]

theorem window_slice {α : Type} (xs : List α) {leading trailing stop : ℕ}
    (hleading : leading ≤ xs.length) (hle : start ≤ stop) :
    ((xs.take leading ++ xs.drop trailing).drop start).take (stop - start) =
      (xs.drop start).take (min stop leading - start) ++
        (xs.drop (trailing + (max start leading - leading))).take (stop - max start leading) := by
  have hlen : (xs.take leading).length = leading := by
    rw [length_take, min_eq_left hleading]
  have hpart : ((xs.take leading).drop start).length = leading - start := by
    rw [length_drop, hlen]
  rw [drop_append, take_append, hpart, hlen, drop_take, take_take, drop_drop]
  congr 2
  · omega
  · omega
  · congr 1
    omega

variable {entry : SplitLayoutEntry} {oursLine theirsLine : ℕ}

theorem context_shows {leading trailing : ℕ}
    (hat : segments[entry.segmentIx]? = some (.text text)) (haddressable : Addressable text)
    (hkind : entry.kind = .context (SparseLineIndex.forText text) leading trailing
      (u32Of oursLine) (u32Of theirsLine))
    (hleading : leading ≤ trailing) (htrailing : trailing ≤ lineTotal (rowsIn text))
    (hcount : entry.rowCount = leading + (lineTotal (rowsIn text) - trailing)) :
    EntryShows segments entry (((linesOf text).mapIdx (contextRow oursLine theirsLine)).take leading
      ++ ((linesOf text).mapIdx (contextRow oursLine theirsLine)).drop trailing) := by
  have hfits := SparseLineIndex.forText_fits text
  have hlength : ((linesOf text).mapIdx (contextRow oursLine theirsLine)).length =
      lineTotal (rowsIn text) := by rw [length_mapIdx, length_linesOf]
  have hrows : ∀ {lineIx a b}, lineIx + (b - a) ≤ lineTotal (rowsIn text) →
      (if a < b then textRows (SparseLineIndex.forText text) text (u32Of oursLine)
          (u32Of theirsLine) lineIx (b - a)
        else some []) = some ((((linesOf text).mapIdx
          (contextRow oursLine theirsLine)).drop lineIx).take (b - a)) := by
    intro lineIx a b hle
    split
    · exact textRows_eq hfits haddressable oursLine theirsLine hle
    · rename_i hnone
      have hzero : b - a = 0 := by omega
      rw [hzero, take_zero]
  refine ⟨?_, _, hat, fun localStart localEnd hle hend => ?_⟩
  · rw [length_append, length_take, length_drop, hlength, hcount]
    omega
  · rw [length_append, length_take, length_drop, hlength] at hend
    simp only [entryRows, hkind]
    rw [window_slice _ (by omega) hle, hrows (by omega), hrows (by omega)]
    rfl

theorem side_text (haddressable : Addressable text) {localStart rowCount offset : ℕ}
    (hoffset : offset < rowCount) :
    (((SparseLineIndex.forText text).lineRangesInto text localStart
      (if localStart < (SparseLineIndex.forText text).lineCount then
        min rowCount ((SparseLineIndex.forText text).lineCount - localStart) else 0))[offset]?.bind
          fun range => byteSlice text range.start range.stop) =
        (linesOf text)[localStart + offset]? := by
  have hfits := SparseLineIndex.forText_fits text
  rw [lineRangesInto_eq hfits haddressable, hfits.count, getElem?_map]
  by_cases hin : localStart + offset < lineTotal (rowsIn text)
  · have hrow := getElem?_eq_getElem (lt_of_lt_of_le hin (lineTotal_bounds text).2)
    rw [if_pos (by omega), getElem?_range' (by omega), one_mul, map_some,
      bind_some, byteSlice_rowRange hrow, getElem?_linesOf hin, hrow]
  · rw [getElem?_eq_none (by rw [length_range']; split <;> omega),
      getElem?_eq_none (by rw [length_linesOf]; omega)]
    rfl

theorem filterMap_slice {α : Type} {f : ℕ → Option α} {stop total : ℕ}
    (hf : ∀ ix < total, (f ix).isSome) (hle : start ≤ stop) (hstop : stop ≤ total) :
    (((range total).filterMap f).drop start).take (stop - start) =
      (range (stop - start)).filterMap fun offset => f (start + offset) := by
  have hlength : ∀ a n, a + n ≤ total → ((range' a n).filterMap f).length = n := by
    intro a n ha
    rw [filterMap_length_eq_length.mpr fun ix hix => ?_, length_range']
    rw [mem_range'_1] at hix
    exact hf ix (by omega)
  have hsplit : range total = range' 0 start ++
      (range' start (stop - start) ++ range' stop (total - stop)) := by
    rw [range_eq_range', show total = start + ((stop - start) + (total - stop)) by omega,
      ← range'_append, ← range'_append]
    congr 3 <;> omega
  rw [hsplit, filterMap_append, filterMap_append,
    drop_left' (hlength 0 start (by omega)),
    take_left' (hlength start (stop - start) (by omega)), range'_eq_map_range,
    filterMap_map]
  rfl

theorem blockRow_eq {ix : ℕ} {ours theirs : List (List Char)} :
    blockRow (u32Of oursLine) (u32Of theirsLine) ours.length theirs.length ix ours[ix]?
        theirs[ix]? = splitRow oursLine theirsLine ix ours[ix]? theirs[ix]? := by
  have hline : ∀ (lines : List (List Char)) line,
      (if ix < lines.length then some (satAddU32 (u32Of line) (u32Of ix)) else none) =
        lines[ix]?.map fun _ => u32Of (line + ix) := by
    intro lines line
    rw [satAddU32_of]
    split
    · rename_i hlt
      rw [getElem?_eq_getElem hlt, map_some]
    · rename_i hge
      rw [getElem?_eq_none (Nat.le_of_not_lt hge), map_none]
  rw [blockRow, splitRow, hline ours, hline theirs]

theorem splitRow_isSome (oursLine theirsLine : ℕ) (block : ConflictBlock) :
    ∀ ix < max (linesOf block.ours).length (linesOf block.theirs).length,
      (splitRow oursLine theirsLine ix (linesOf block.ours)[ix]?
        (linesOf block.theirs)[ix]?).isSome := by
  intro ix hix
  rw [splitRow, isSome_map]
  by_cases hold : ix < (linesOf block.ours).length
  · rw [getElem?_eq_getElem hold]
    cases (linesOf block.theirs)[ix]? <;> rfl
  · rw [getElem?_eq_none (Nat.le_of_not_lt hold), getElem?_eq_getElem (by omega)]
    rfl

theorem length_plainBlockRows (oursLine theirsLine : ℕ) (block : ConflictBlock) :
    (plainBlockRows oursLine theirsLine block).length =
      max (linesOf block.ours).length (linesOf block.theirs).length := by
  rw [plainBlockRows, filterMap_length_eq_length.mpr fun ix hix =>
    splitRow_isSome oursLine theirsLine block ix (mem_range.mp hix), length_range]

theorem block_shows {block : ConflictBlock} (hat : segments[entry.segmentIx]? = some (.block block))
    (hours : Addressable block.ours) (htheirs : Addressable block.theirs)
    (hkind : entry.kind = .block (SparseLineIndex.forText block.ours)
      (SparseLineIndex.forText block.theirs) (u32Of oursLine) (u32Of theirsLine))
    (hcount : entry.rowCount = max (lineTotal (rowsIn block.ours))
      (lineTotal (rowsIn block.theirs))) :
    EntryShows segments entry (plainBlockRows oursLine theirsLine block) := by
  have hsome := splitRow_isSome oursLine theirsLine block
  have hlength := length_plainBlockRows oursLine theirsLine block
  refine ⟨?_, _, hat, fun localStart localEnd hle hend => ?_⟩
  · rw [hlength, hcount, length_linesOf, length_linesOf]
  · rw [hlength] at hend
    rw [plainBlockRows, filterMap_slice hsome hle hend]
    simp only [entryRows, hkind]
    refine congrArg some (filterMap_congr fun offset hoffset => ?_)
    rw [mem_range] at hoffset
    rw [side_text hours hoffset, side_text htheirs hoffset, ← blockRow_eq, length_linesOf,
      length_linesOf, (SparseLineIndex.forText_fits block.ours).count,
      (SparseLineIndex.forText_fits block.theirs).count]

inductive EntryFor (segments : List ConflictSegment) (entry : SplitLayoutEntry) :
    List FileDiffRow → Prop where
  | context {text : List Char} {leading trailing oursLine theirsLine : ℕ}
      (hat : segments[entry.segmentIx]? = some (.text text)) (haddressable : Addressable text)
      (hkind : entry.kind = .context (SparseLineIndex.forText text) leading trailing
        (u32Of oursLine) (u32Of theirsLine))
      (hleading : leading ≤ trailing) (htrailing : trailing ≤ lineTotal (rowsIn text))
      (hcount : entry.rowCount = leading + (lineTotal (rowsIn text) - trailing)) :
      EntryFor segments entry (((linesOf text).mapIdx (contextRow oursLine theirsLine)).take leading
        ++ ((linesOf text).mapIdx (contextRow oursLine theirsLine)).drop trailing)
  | block {block : ConflictBlock} {oursLine theirsLine : ℕ}
      (hat : segments[entry.segmentIx]? = some (.block block))
      (hours : Addressable block.ours) (htheirs : Addressable block.theirs)
      (hkind : entry.kind = .block (SparseLineIndex.forText block.ours)
        (SparseLineIndex.forText block.theirs) (u32Of oursLine) (u32Of theirsLine))
      (hcount : entry.rowCount = max (lineTotal (rowsIn block.ours))
        (lineTotal (rowsIn block.theirs))) :
      EntryFor segments entry (plainBlockRows oursLine theirsLine block)

theorem EntryFor.shows {rows : List FileDiffRow}
    (h : EntryFor segments entry rows) : EntryShows segments entry rows := by
  cases h with
  | context hat haddressable hkind hleading htrailing hcount =>
    exact context_shows hat haddressable hkind hleading htrailing hcount
  | block hat hours htheirs hkind hcount => exact block_shows hat hours htheirs hkind hcount

end

end GitComet.Resolver
