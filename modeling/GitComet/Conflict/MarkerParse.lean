import Mathlib.Data.List.TakeWhile
import GitComet.Text.Lines

namespace GitComet.Conflict
open Text List Bool

structure TextRange where
  start : ℕ
  stop : ℕ
  deriving DecidableEq

structure ParsedConflictBlock where
  base : Option (List Char)
  ours : List Char
  theirs : List Char
  deriving DecidableEq

structure ParsedConflictBlockRanges where
  markerStart : ℕ
  markerEnd : ℕ
  base : Option TextRange
  ours : TextRange
  theirs : TextRange
  deriving DecidableEq

inductive ParsedConflictSegment where
  | text (content : List Char)
  | conflict (block : ParsedConflictBlock)
  deriving DecidableEq

inductive ParsedConflictSegmentRanges where
  | text (range : TextRange)
  | conflict (block : ParsedConflictBlockRanges)
  deriving DecidableEq

def textForRange (text : List Char) (range : TextRange) : Option (List Char) :=
  byteSlice text range.start range.stop

def lineCursor : ℕ → List Line → List (TextRange × Line)
  | _, [] => []
  | offset, line :: lines =>
    (⟨offset, offset + byteLen line⟩, line) :: lineCursor (offset + byteLen line) lines

def startsWith (marker : Char) (line : Line) : Bool := (replicate 7 marker).isPrefixOf line

def scanBase : ℕ → List (TextRange × Line) → ℕ × Option TextRange × List (TextRange × Line)
  | baseEnd, [] => (baseEnd, none, [])
  | _, (range, line) :: lines =>
    if startsWith '=' line then (range.start, some range, lines) else scanBase range.stop lines

structure OursScan where
  oursEnd : ℕ
  base : Option TextRange
  separator : Option TextRange
  rest : List (TextRange × Line)

def scanOurs : ℕ → List (TextRange × Line) → OursScan
  | oursEnd, [] => ⟨oursEnd, none, none, []⟩
  | _, (range, line) :: lines =>
    if startsWith '=' line then ⟨range.start, none, some range, lines⟩
    else if startsWith '|' line then
      let scan := scanBase range.stop lines
      ⟨range.start, some ⟨range.stop, scan.1⟩, scan.2.1, scan.2.2⟩
    else scanOurs range.stop lines

def scanTheirs : ℕ → List (TextRange × Line) → ℕ × Option ℕ × List (TextRange × Line)
  | theirsEnd, [] => (theirsEnd, none, [])
  | _, (range, line) :: lines =>
    if startsWith '>' line then (range.start, some range.stop, lines)
    else scanTheirs range.stop lines

def contextRange (start stop : ℕ) : List ParsedConflictSegmentRanges :=
  if start < stop then [.text ⟨start, stop⟩] else []

def parseLoop : ℕ → ℕ → List (TextRange × Line) → List ParsedConflictSegmentRanges × ℕ
  | 0, contextStart, _ => ([], contextStart)
  | _ + 1, contextStart, [] => ([], contextStart)
  | fuel + 1, contextStart, (range, line) :: lines =>
    if !startsWith '<' line then parseLoop fuel contextStart lines
    else
      let context := contextRange contextStart range.start
      let ours := scanOurs range.stop lines
      match ours.separator with
      | none =>
        let parsed := parseLoop fuel range.start ours.rest
        (context ++ parsed.1, parsed.2)
      | some separator =>
        let theirs := scanTheirs separator.stop ours.rest
        match theirs.2.1 with
        | none =>
          let parsed := parseLoop fuel range.start theirs.2.2
          (context ++ parsed.1, parsed.2)
        | some markerEnd =>
          let parsed := parseLoop fuel markerEnd theirs.2.2
          (context ++ .conflict ⟨range.start, markerEnd, ours.base, ⟨range.stop, ours.oursEnd⟩,
            ⟨separator.stop, theirs.1⟩⟩ :: parsed.1, parsed.2)

def parseConflictMarkerRanges (text : List Char) : List ParsedConflictSegmentRanges :=
  let lines := splitInclusive text
  let parsed := parseLoop lines.length 0 (lineCursor 0 lines)
  parsed.1 ++ contextRange parsed.2 (byteLen text)

def baseText (text : List Char) : Option TextRange → Option (Option (List Char))
  | none => some none
  | some range => (textForRange text range).map some

def blockText (text : List Char) (block : ParsedConflictBlockRanges) :
    Option ParsedConflictBlock := do
  let base ← baseText text block.base
  let ours ← textForRange text block.ours
  let theirs ← textForRange text block.theirs
  some ⟨base, ours, theirs⟩

def segmentText (text : List Char) : ParsedConflictSegmentRanges → Option ParsedConflictSegment
  | .text range => (textForRange text range).map .text
  | .conflict block => (blockText text block).map .conflict

def segmentTexts (text : List Char) :
    List ParsedConflictSegmentRanges → Option (List ParsedConflictSegment)
  | [] => some []
  | segment :: segments => do
    let segment ← segmentText text segment
    let segments ← segmentTexts text segments
    some (segment :: segments)

def parseConflictMarkerSegments (text : List Char) : Option (List ParsedConflictSegment) :=
  segmentTexts text (parseConflictMarkerRanges text)

def sides (text : List Char) :
    List ParsedConflictSegmentRanges → Option (List Char × List Char)
  | [] => some ([], [])
  | .text range :: segments => do
    let context ← textForRange text range
    let rest ← sides text segments
    some (context ++ rest.1, context ++ rest.2)
  | .conflict block :: segments => do
    let ours ← textForRange text block.ours
    let theirs ← textForRange text block.theirs
    let rest ← sides text segments
    some (ours ++ rest.1, theirs ++ rest.2)

def reconstructConflictMarkerSides (text : List Char) : Option (List Char × List Char) :=
  sides text (parseConflictMarkerRanges text)

variable {c x : Char}

theorem isPrefixOf_append_stop (h : x ≠ c) (rest : List Char) (n : ℕ) :
    ∀ line : List Char, (replicate n c).isPrefixOf (line ++ x :: rest) =
      (replicate n c).isPrefixOf line := by
  induction n with
  | zero => exact fun line => by simp
  | succ n ih =>
    intro line
    cases line with
    | nil => simp [replicate_succ, isPrefixOf, Ne.symm h]
    | cons y line => simp [replicate_succ, isPrefixOf, ih]

theorem startsWith_append (h : x ≠ c) (line rest : List Char) :
    startsWith c (line ++ x :: rest) = startsWith c line :=
  isPrefixOf_append_stop h rest 7 line

theorem startsWith_replicate {size : ℕ} (h : 7 ≤ size) (rest : List Char) :
    startsWith c (replicate size c ++ rest) := by
  obtain ⟨k, rfl⟩ := Nat.exists_eq_add_of_le h
  rw [startsWith, replicate_add, append_assoc, isPrefixOf_iff_prefix]
  exact prefix_append _ _

def readTheirs (lines : List Line) : Option (List Char × List Line) :=
  match lines.dropWhile fun line => !startsWith '>' line with
  | [] => none
  | _ :: rest => some ((lines.takeWhile fun line => !startsWith '>' line).flatten, rest)

def insideOurs (line : Line) : Bool := !startsWith '=' line && !startsWith '|' line

def readBlock (lines : List Line) : Option (ParsedConflictBlock × List Line) :=
  match lines.dropWhile insideOurs with
  | [] => none
  | mark :: after =>
    let ours := (lines.takeWhile insideOurs).flatten
    if startsWith '=' mark then
      (readTheirs after).map fun theirs => (⟨none, ours, theirs.1⟩, theirs.2)
    else match after.dropWhile fun line => !startsWith '=' line with
      | [] => none
      | _ :: body => (readTheirs body).map fun theirs =>
        (⟨some (after.takeWhile fun line => !startsWith '=' line).flatten, ours, theirs.1⟩,
          theirs.2)

def firstBlock : List Line → Option (ParsedConflictBlock × List Line)
  | [] => none
  | line :: lines => if startsWith '<' line then readBlock lines else firstBlock lines

theorem takeWhile_flatten (p : Line → Bool) (lines : List Line) :
    (lines.takeWhile p).flatten ++ (lines.dropWhile p).flatten = lines.flatten := by
  rw [← flatten_append, takeWhile_append_dropWhile]

variable {lines : List Line}

theorem takeWhile_stop {p : Line → Bool} {r : List Line} {m : Line}
    (hlines : ∀ line ∈ lines, p line) (hmark : p m = false) :
    (lines ++ m :: r).takeWhile p = lines ∧ (lines ++ m :: r).dropWhile p = m :: r := by
  rw [takeWhile_append_of_pos hlines, dropWhile_append_of_pos hlines,
    takeWhile_cons_of_neg (by simp [hmark]), dropWhile_cons_of_neg (by simp [hmark])]
  exact ⟨append_nil _, rfl⟩

theorem scanTheirs_spec (lines : List Line) : ∀ offset : ℕ,
    scanTheirs offset (lineCursor offset lines) =
      let theirsEnd := offset + byteLen (lines.takeWhile fun line => !startsWith '>' line).flatten
      match lines.dropWhile fun line => !startsWith '>' line with
      | [] => (theirsEnd, none, [])
      | mark :: rest => (theirsEnd, some (theirsEnd + byteLen mark),
        lineCursor (theirsEnd + byteLen mark) rest) := by
  induction lines with
  | nil => exact fun offset => rfl
  | cons line lines ih =>
    intro offset
    by_cases h : startsWith '>' line
    · simp [lineCursor, scanTheirs, h]
    · rw [Bool.not_eq_true] at h
      simp only [lineCursor, scanTheirs, h, false_eq_true, if_false, ih, Bool.not_false,
        takeWhile_cons_of_pos, dropWhile_cons_of_pos, flatten_cons,
        byteLen_append, Nat.add_assoc]

theorem scanBase_spec (lines : List Line) : ∀ offset : ℕ,
    scanBase offset (lineCursor offset lines) =
      let baseEnd := offset + byteLen (lines.takeWhile fun line => !startsWith '=' line).flatten
      match lines.dropWhile fun line => !startsWith '=' line with
      | [] => (baseEnd, none, [])
      | mark :: rest => (baseEnd, some ⟨baseEnd, baseEnd + byteLen mark⟩,
        lineCursor (baseEnd + byteLen mark) rest) := by
  induction lines with
  | nil => exact fun offset => rfl
  | cons line lines ih =>
    intro offset
    by_cases h : startsWith '=' line
    · simp [lineCursor, scanBase, h]
    · rw [Bool.not_eq_true] at h
      simp only [lineCursor, scanBase, h, false_eq_true, if_false, ih, Bool.not_false,
        takeWhile_cons_of_pos, dropWhile_cons_of_pos, flatten_cons,
        byteLen_append, Nat.add_assoc]

theorem scanOurs_spec (lines : List Line) : ∀ offset : ℕ,
    scanOurs offset (lineCursor offset lines) =
      let oursEnd := offset + byteLen (lines.takeWhile insideOurs).flatten
      match lines.dropWhile insideOurs with
      | [] => ⟨oursEnd, none, none, []⟩
      | mark :: after =>
        if startsWith '=' mark then ⟨oursEnd, none, some ⟨oursEnd, oursEnd + byteLen mark⟩,
          lineCursor (oursEnd + byteLen mark) after⟩
        else
          let scan := scanBase (oursEnd + byteLen mark) (lineCursor (oursEnd + byteLen mark) after)
          ⟨oursEnd, some ⟨oursEnd + byteLen mark, scan.1⟩, scan.2.1, scan.2.2⟩ := by
  induction lines with
  | nil => exact fun offset => rfl
  | cons line lines ih =>
    intro offset
    by_cases hsep : startsWith '=' line
    · simp [lineCursor, scanOurs, insideOurs, hsep]
    · rw [not_eq_true] at hsep
      by_cases hbase : startsWith '|' line
      · simp [lineCursor, scanOurs, insideOurs, hsep, hbase]
      · rw [not_eq_true] at hbase
        have hinside : insideOurs line := by simp [insideOurs, hsep, hbase]
        simp only [lineCursor, scanOurs, hsep, hbase, false_eq_true, if_false, ih, hinside,
          takeWhile_cons_of_pos, dropWhile_cons_of_pos, flatten_cons,
          byteLen_append, Nat.add_assoc]

theorem textForRange_middle {t p m post : List Char} (h : t = p ++ (m ++ post)) :
    textForRange t ⟨byteLen p, byteLen p + byteLen m⟩ = some m := by
  rw [h]
  exact byteSlice_middle p m post

theorem scanTheirs_none (h : readTheirs lines = none) (offset : ℕ) :
    ∃ theirsEnd, scanTheirs offset (lineCursor offset lines) = (theirsEnd, none, []) := by
  unfold readTheirs at h
  split at h
  · rename_i hdrop
    simp only [scanTheirs_spec, hdrop]
    exact ⟨_, rfl⟩
  · cases h

theorem readBlock_none {body : List Line} (h : readBlock body = none) (offset : ℕ) :
    let scan := scanOurs offset (lineCursor offset body)
    (scan.separator = none ∧ scan.rest = []) ∨
      ∃ separator theirsEnd, scan.separator = some separator ∧
        scanTheirs separator.stop scan.rest = (theirsEnd, none, []) := by
  simp only [scanOurs_spec]
  unfold readBlock at h
  split at h
  · simp
  · rename_i mark after hdrop
    split at h
    · rename_i hmark
      obtain ⟨theirsEnd, hscan⟩ := scanTheirs_none (Option.map_eq_none_iff.mp h)
        (offset + byteLen (body.takeWhile insideOurs).flatten + byteLen mark)
      simp only [if_pos hmark]
      exact Or.inr ⟨_, theirsEnd, rfl, hscan⟩
    · rename_i hmark
      split at h
      · rename_i hbase
        simp [hmark, scanBase_spec, hbase]
      · rename_i separator body' hbase
        simp only [if_neg hmark, scanBase_spec, hbase]
        obtain ⟨theirsEnd, hscan⟩ := scanTheirs_none (Option.map_eq_none_iff.mp h) (offset +
          byteLen (body.takeWhile insideOurs).flatten + byteLen mark +
          byteLen (after.takeWhile fun line => !startsWith '=' line).flatten + byteLen separator)
        exact Or.inr ⟨_, theirsEnd, rfl, hscan⟩

def ParsedConflictSegment.block? : ParsedConflictSegment → Option ParsedConflictBlock
  | .text _ => none
  | .conflict block => some block

theorem parseLoop_nil (fuel start : ℕ) : parseLoop fuel start [] = ([], start) := by
  cases fuel <;> rfl

variable {fuel start offset : ℕ} {line : Line}

theorem parseLoop_context (h : startsWith '<' line = false) :
    parseLoop (fuel + 1) start (lineCursor offset (line :: lines)) =
      parseLoop fuel start (lineCursor (offset + byteLen line) lines) := by
  simp only [lineCursor, parseLoop, h, Bool.not_false, if_true]

theorem parseLoop_broken (h : startsWith '<' line) (hnone : readBlock lines = none) :
    parseLoop (fuel + 1) start (lineCursor offset (line :: lines)) =
      (contextRange start offset, offset) := by
  simp only [lineCursor, parseLoop, h, Bool.not_true, Bool.false_eq_true, if_false]
  rcases readBlock_none hnone (offset + byteLen line) with
    ⟨hsep, hrest⟩ | ⟨separator, theirsEnd, hsep, hscan⟩
  · simp only [hsep, hrest, parseLoop_nil, append_nil]
  · simp only [hsep, hscan, parseLoop_nil, append_nil]

end GitComet.Conflict
