import GitComet.Text.Lines
import GitComet.Basis.SumTree

namespace GitComet.Kit

open Text

-- Rows and columns are `u32` in the source; a text stays under 4 GiB, so none of them wraps.
structure Point where
  row : ℕ
  column : ℕ
  deriving DecidableEq

def Point.zero : Point := ⟨0, 0⟩

def Point.add (point other : Point) : Point :=
  ⟨point.row + other.row, if other.row = 0 then point.column + other.column else other.column⟩

instance : Add Point := ⟨Point.add⟩

def Point.cmp (point other : Point) : Ordering :=
  (compare point.row other.row).then (compare point.column other.column)

def pointSub (left right : Point) : Point :=
  let row := left.row - right.row
  ⟨row, if row = 0 then left.column - right.column else left.column⟩

structure OffsetUtf16 where
  units : ℕ
  deriving DecidableEq

structure TextSummary where
  len : ℕ
  lenUtf16 : ℕ
  lines : Point
  firstLineLen : ℕ
  lastLineLen : ℕ
  longestRow : ℕ
  longestRowLen : ℕ
  deriving DecidableEq

def TextSummary.zero : TextSummary := ⟨0, 0, Point.zero, 0, 0, 0, 0⟩

def utf8 (text : List Char) : List UInt8 := text.flatMap String.utf8EncodeChar

def newline : UInt8 := 10

def memchr (byte : UInt8) (bytes : List UInt8) : Option ℕ := bytes.findIdx? (· == byte)

def memrchr (byte : UInt8) (bytes : List UInt8) : Option ℕ :=
  (memchr byte bytes.reverse).map fun found => bytes.length - 1 - found

def lenUtf16 (c : Char) : ℕ := if c.val < 0x10000 then 1 else 2

def isAscii (text : List Char) : Bool := text.all fun c => c.val < 128

def utf16Len (text : List Char) : ℕ :=
  if isAscii text then byteLen text else (text.map lenUtf16).sum

def TextSummary.scanRow (summary : TextSummary) (row lineLen : ℕ) : TextSummary :=
  let summary := if row = 0 then { summary with firstLineLen := lineLen } else summary
  if lineLen > summary.longestRowLen then
    { summary with longestRow := row, longestRowLen := lineLen }
  else summary

theorem memchr_lt {byte : UInt8} {bytes : List UInt8} {found : ℕ}
    (h : memchr byte bytes = some found) : found < bytes.length :=
  (List.findIdx?_eq_some_iff_getElem.mp h).1

def TextSummary.scanRows (bytes : List UInt8) (summary : TextSummary)
    (lineStart row searchFrom : ℕ) : TextSummary × ℕ × ℕ :=
  match h : memchr newline (bytes.drop searchFrom) with
  | some found =>
    let newline := searchFrom + found
    scanRows bytes (summary.scanRow row (newline - lineStart)) (newline + 1) (row + 1) (newline + 1)
  | none => (summary, lineStart, row)
termination_by bytes.length - searchFrom
decreasing_by
  have := memchr_lt h
  rw [List.length_drop] at this
  omega

def TextSummary.fromStr (text : List Char) : TextSummary :=
  let start := { TextSummary.zero with len := byteLen text, lenUtf16 := utf16Len text }
  let scanned := TextSummary.scanRows (utf8 text) start 0 0 0
  let lastLineLen := byteLen text - scanned.2.1
  let summary := scanned.1.scanRow scanned.2.2 lastLineLen
  { summary with lastLineLen := lastLineLen, lines := ⟨scanned.2.2, lastLineLen⟩ }

def TextSummary.addSummary (summary other : TextSummary) : TextSummary :=
  let joinedLen := summary.lastLineLen + other.firstLineLen
  let summary :=
    if joinedLen > summary.longestRowLen then
      { summary with longestRow := summary.lines.row, longestRowLen := joinedLen }
    else summary
  let summary :=
    if other.longestRowLen > summary.longestRowLen then
      { summary with
        longestRow := summary.lines.row + other.longestRow, longestRowLen := other.longestRowLen }
    else summary
  let summary :=
    if summary.lines.row = 0 then
      { summary with firstLineLen := summary.firstLineLen + other.firstLineLen }
    else summary
  let summary :=
    if other.lines.row = 0 then
      { summary with lastLineLen := summary.lastLineLen + other.lastLineLen }
    else { summary with lastLineLen := other.lastLineLen }
  { summary with
    lines := summary.lines + other.lines
    len := summary.len + other.len
    lenUtf16 := summary.lenUtf16 + other.lenUtf16 }

open SumTree

instance : Dimension TextSummary TextSummary := ⟨TextSummary.zero, TextSummary.addSummary⟩

instance : Dimension TextSummary ℕ := ⟨0, fun offset summary => offset + summary.len⟩

instance : Dimension TextSummary Point := ⟨Point.zero, fun point summary => point + summary.lines⟩

instance : Dimension TextSummary OffsetUtf16 :=
  ⟨⟨0⟩, fun offset summary => ⟨offset.units + summary.lenUtf16⟩⟩

end GitComet.Kit

namespace GitComet.Kit

open Text SumTree

def maxChunkBytes : ℕ := 512
def chunkTopUpLimit : ℕ := maxChunkBytes

structure Range where
  start : ℕ
  stop : ℕ
  deriving DecidableEq

def strIsCharBoundary (text : List Char) (index : ℕ) : Bool := (splitAtByte index text).isSome

def boundaryBelow (isBoundary : ℕ → Bool) : ℕ → ℕ
  | 0 => 0
  | index + 1 => if isBoundary (index + 1) then index + 1 else boundaryBelow isBoundary index

def boundaryAbove (isBoundary : ℕ → Bool) (len index : ℕ) : ℕ :=
  if index < len ∧ isBoundary index = false then boundaryAbove isBoundary len (index + 1)
  else index
termination_by len - index

def floorCharBoundary (text : List Char) (limit : ℕ) : ℕ :=
  boundaryBelow (strIsCharBoundary text) (min limit (byteLen text))

def divCeil (n d : ℕ) : ℕ := (n + d - 1) / d

theorem splitAtByte_some {n : ℕ} {text front back : List Char}
    (h : splitAtByte n text = some (front, back)) : text = front ++ back ∧ byteLen front = n := by
  induction text generalizing n front with
  | nil =>
    cases n with
    | zero =>
      obtain ⟨rfl, rfl⟩ := Prod.mk.inj (Option.some.inj h)
      exact ⟨rfl, rfl⟩
    | succ n => cases h
  | cons c text ih =>
    cases n with
    | zero =>
      obtain ⟨rfl, rfl⟩ := Prod.mk.inj (Option.some.inj h)
      exact ⟨rfl, rfl⟩
    | succ n =>
      rw [splitAtByte] at h
      split at h
      · rename_i hfit
        obtain ⟨parts, hparts, heq⟩ := Option.map_eq_some_iff.mp h
        obtain ⟨rfl, rfl⟩ := Prod.mk.inj heq
        obtain ⟨htext, hlen⟩ := ih hparts
        refine ⟨by rw [List.cons_append, ← htext], ?_⟩
        rw [byteLen_cons, hlen]
        omega
      · cases h

def splitPieces (target : ℕ) (rest : List Char) : Option (List (List Char)) :=
  if rest = [] then some []
  else
    let take := floorCharBoundary rest (min target (byteLen rest))
    let take := min (max take 1) (byteLen rest)
    match _hsplit : splitAtByte take rest with
    | none => none
    | some (chunk, remainder) => (splitPieces target remainder).map (chunk :: ·)
termination_by rest.length
decreasing_by
  rename_i hrest _
  obtain ⟨htext, hlen⟩ := splitAtByte_some _hsplit
  have hpos := byteLen_pos.mpr hrest
  have hchunk : chunk ≠ [] := byteLen_pos.mp (by omega)
  have := List.length_pos_iff.mpr hchunk
  rw [htext, List.length_append]
  omega

def splitIntoChunks (text : List Char) : Option (List (List Char)) :=
  let pieces := max (divCeil (byteLen text) maxChunkBytes) 1
  let target := max (divCeil (byteLen text) pieces) 1
  splitPieces target text

def utf16ToUtf8Loop (textLen target : ℕ) : List Char → ℕ → ℕ → ℕ
  | [], _, _ => textLen
  | c :: rest, offset, utf16 =>
    if utf16 ≥ target then offset
    else utf16ToUtf8Loop textLen target rest (offset + c.utf8Size) (utf16 + lenUtf16 c)

def utf16ToUtf8Offset (text : List Char) (target : ℕ) : ℕ :=
  if isAscii text then min target (byteLen text)
  else utf16ToUtf8Loop (byteLen text) target text 0 0

def strOffsetToPoint (bytes : List UInt8) (offset : ℕ) : Point :=
  let head := bytes.take (min offset bytes.length)
  let row := head.count newline
  let column := match memrchr newline head with
    | some found => head.length - found - 1
    | none => head.length
  ⟨row, column⟩

-- `none` is the early return of the text's length.
def skipRows (bytes : List UInt8) : ℕ → ℕ → Option ℕ
  | 0, offset => some offset
  | rows + 1, offset =>
    match memchr newline (bytes.drop offset) with
    | some found => skipRows bytes rows (offset + found + 1)
    | none => none

def strPointToOffset (bytes : List UInt8) (point : Point) : ℕ :=
  match skipRows bytes point.row 0 with
  | none => bytes.length
  | some offset =>
    let lineEnd := match memchr newline (bytes.drop offset) with
      | some found => offset + found
      | none => bytes.length
    min (offset + point.column) lineEnd

structure Rope where
  chunks : List (List Char)
  deriving DecidableEq

namespace Rope

def new : Rope := ⟨[]⟩

def summary (rope : Rope) : TextSummary := total TextSummary.fromStr rope.chunks

def len (rope : Rope) : ℕ := rope.summary.len
def isEmpty (rope : Rope) : Bool := rope.len == 0
def lenUtf16 (rope : Rope) : ℕ := rope.summary.lenUtf16
def maxPoint (rope : Rope) : Point := rope.summary.lines
def lineCount (rope : Rope) : ℕ := rope.summary.lines.row + 1
def longestRow (rope : Rope) : ℕ := rope.summary.longestRow
def longestRowLen (rope : Rope) : ℕ := rope.summary.longestRowLen

def seekOffset (rope : Rope) (target : ℕ) (bias : Bias) : Cursor (List Char) ℕ :=
  seek TextSummary.fromStr (fun stop => bias.stops (compare target stop)) rope.chunks

def findOffset (D : Type) [Dimension TextSummary D] (rope : Rope) (target : ℕ) :
    Cursor (List Char) (ℕ × D) :=
  seek TextSummary.fromStr (fun stop => Bias.left.stops (compare target stop.1)) rope.chunks

def findPoint (rope : Rope) (target : Point) : Cursor (List Char) (Point × ℕ) :=
  seek TextSummary.fromStr (fun stop => Bias.left.stops (target.cmp stop.1)) rope.chunks

def findUtf16 (rope : Rope) (target : OffsetUtf16) : Cursor (List Char) (OffsetUtf16 × ℕ) :=
  seek TextSummary.fromStr
    (fun stop => Bias.left.stops (compare target.units stop.1.units)) rope.chunks

def isCharBoundary (rope : Rope) (offset : ℕ) : Bool :=
  if offset = 0 ∨ offset = rope.len then true
  else if offset > rope.len then false
  else
    let found := rope.seekOffset offset .left
    match found.item with
    | some chunk => strIsCharBoundary chunk (offset - found.start)
    | none => false

def clipOffset (rope : Rope) (offset : ℕ) (bias : Bias) : ℕ :=
  let offset := min offset rope.len
  if rope.isCharBoundary offset then offset
  else match bias with
    | .left => boundaryBelow rope.isCharBoundary offset
    | .right => boundaryAbove rope.isCharBoundary rope.len offset

def clipRange (rope : Rope) (range : Range) : Range :=
  let len := rope.len
  let start := rope.clipOffset (min range.start len) .left
  let stop := rope.clipOffset (max (min range.stop len) start) .right
  ⟨start, max stop start⟩

def offsetToPoint (rope : Rope) (offset : ℕ) : Point :=
  let offset := min offset rope.len
  let found := rope.findOffset Point offset
  match found.item with
  | some chunk => found.start.2 + strOffsetToPoint (utf8 chunk) (offset - found.start.1)
  | none => found.start.2

def pointToOffset (rope : Rope) (point : Point) : ℕ :=
  let found := rope.findPoint point
  match found.item with
  | some chunk => found.start.2 + strPointToOffset (utf8 chunk) (pointSub point found.start.1)
  | none => found.start.2

-- `none` where slicing a chunk would panic.
def offsetToUtf16 (rope : Rope) (offset : ℕ) : Option ℕ :=
  let offset := rope.clipOffset (min offset rope.len) .left
  let found := rope.findOffset OffsetUtf16 offset
  match found.item with
  | some chunk =>
    (byteSlice chunk 0 (offset - found.start.1)).map fun slice =>
      found.start.2.units + utf16Len slice
  | none => some found.start.2.units

def offsetFromUtf16 (rope : Rope) (target : ℕ) : ℕ :=
  let target : OffsetUtf16 := ⟨min target rope.lenUtf16⟩
  let found := rope.findUtf16 target
  match found.item with
  | some chunk => found.start.2 + utf16ToUtf8Offset chunk (target.units - found.start.1.units)
  | none => found.start.2

def lineLen (rope : Rope) (row : ℕ) : ℕ :=
  let maxPoint := rope.maxPoint
  if row ≥ maxPoint.row then
    if row = maxPoint.row then maxPoint.column else 0
  else
    let start := rope.pointToOffset ⟨row, 0⟩
    let next := rope.pointToOffset ⟨row + 1, 0⟩
    next - start - 1

def lineRange (rope : Rope) (row : ℕ) : Range :=
  let start := rope.pointToOffset ⟨row, 0⟩
  ⟨start, start + rope.lineLen row⟩

def chunkSlices : Range → ℕ → List (List Char) → Option (List (List Char))
  | _, _, [] => some []
  | range, chunkStart, chunk :: rest =>
    if range.start ≥ range.stop then some []
    else
      let chunkEnd := chunkStart + byteLen chunk
      let sliceStart := range.start - chunkStart
      let sliceEnd := min range.stop chunkEnd - chunkStart
      let later := chunkSlices ⟨min chunkEnd range.stop, range.stop⟩ chunkEnd rest
      if sliceEnd > sliceStart then do
        let slice ← byteSlice chunk sliceStart sliceEnd
        let slices ← later
        some (slice :: slices)
      else later

def chunksInRange (rope : Rope) (range : Range) : Option (List (List Char)) :=
  let range := rope.clipRange range
  let cursor := rope.seekOffset range.start .right
  chunkSlices range cursor.start cursor.items

def textForRange (rope : Rope) (range : Range) : Option (List Char) :=
  let range := rope.clipRange range
  (rope.chunksInRange range).map List.flatten

def text (rope : Rope) : Option (List Char) :=
  (rope.chunksInRange ⟨0, rope.len⟩).map List.flatten

def topUp (rope : Rope) (text : List Char) : Option (List (List Char) × List Char) :=
  match rope.chunks.getLast? with
  | none => some (rope.chunks, text)
  | some trailing =>
    if byteLen trailing < chunkTopUpLimit then
      let spare := chunkTopUpLimit - byteLen trailing
      let take := floorCharBoundary text (min spare (byteLen text))
      if take > 0 then
        (splitAtByte take text).map fun parts =>
          let headLen := rope.len - byteLen trailing
          let head := (rope.seekOffset headLen .right).slice
          (head ++ [trailing ++ parts.1], parts.2)
      else some (rope.chunks, text)
    else some (rope.chunks, text)

def push (rope : Rope) (text : List Char) : Option Rope :=
  if text = [] then some rope
  else do
    let topped ← rope.topUp text
    if topped.2 = [] then some ⟨topped.1⟩
    else
      let pieces ← splitIntoChunks topped.2
      some ⟨topped.1 ++ pieces⟩

def fromStr (text : List Char) : Option Rope := new.push text

def append (rope other : Rope) : Option Rope :=
  if other.isEmpty then some rope
  else if rope.isEmpty then some other
  else match other.chunks.head? with
    | some first => do
      let pushed ← rope.push first
      let rest := (other.seekOffset (byteLen first) .right).suffix
      some ⟨pushed.chunks ++ rest⟩
    | none => some ⟨rope.chunks ++ other.chunks⟩

def seamHead (cursor : Cursor (List Char) ℕ) (start : ℕ) : Option (List Char) :=
  match cursor.item with
  | some chunk => byteSlice chunk 0 (start - cursor.start)
  | none => some []

def seamTail (cursor : Cursor (List Char) ℕ) (stop : ℕ) : Option (List Char) :=
  match cursor.item with
  | some chunk => byteSlice chunk (stop - cursor.start) (byteLen chunk)
  | none => some []

def replace (rope : Rope) (range : Range) (text : List Char) : Option Rope :=
  let range := rope.clipRange range
  if range.start ≥ range.stop ∧ text = [] then some rope
  else do
    let headCursor := rope.seekOffset range.start .right
    let head ← seamHead headCursor range.start
    let tailCursor := rope.seekOffset range.stop .left
    let tail ← seamTail tailCursor range.stop
    let seam ← splitIntoChunks (head ++ text ++ tail)
    some ⟨headCursor.slice ++ seam ++ (tailCursor.next TextSummary.fromStr).suffix⟩

end Rope

end GitComet.Kit
