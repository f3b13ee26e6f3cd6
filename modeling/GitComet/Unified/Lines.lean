import GitComet.Text.Scan
import GitComet.Basis.KeyGroups

namespace GitComet.Unified
open Text List

inductive DiffLineKind where
  | header
  | hunk
  | add
  | remove
  | context
  deriving DecidableEq

structure DiffLine where
  kind : DiffLineKind
  text : List Char
  deriving DecidableEq

structure AnnotatedDiffLine where
  kind : DiffLineKind
  text : List Char
  oldLine : Option UInt32
  newLine : Option UInt32
  deriving DecidableEq

def classifyUnifiedLine (raw : List Char) : DiffLineKind :=
  match raw.head? with
  | some '@' => if startsWith raw "@@".toList then .hunk else .context
  | some 'd' =>
    if startsWith raw "diff ".toList || startsWith raw "deleted file mode ".toList then .header
    else .context
  | some 'i' => if startsWith raw "index ".toList then .header else .context
  | some '-' => if startsWith raw "--- ".toList then .header else .remove
  | some '+' => if startsWith raw "+++ ".toList then .header else .add
  | some 'n' => if startsWith raw "new file mode ".toList then .header else .context
  | some 's' => if startsWith raw "similarity index ".toList then .header else .context
  | some 'r' =>
    if startsWith raw "rename from ".toList || startsWith raw "rename to ".toList then .header
    else .context
  | some 'B' => if startsWith raw "Binary files ".toList then .header else .context
  | _ => .context

def trimUnifiedLine (raw : List Char) : List Char := (stripSuffix '\r' raw).getD raw

def fromUnified (text : List Char) : List DiffLine :=
  (splitInclusive text).map fun piece =>
    let raw := trimUnifiedLine ((stripSuffix '\n' piece).getD piece)
    ⟨classifyUnifiedLine raw, raw⟩

def parseRangeStart (s : List Char) : Option UInt32 := parseU32 (beforeFirst [','] s)

def parseUnifiedHunkHeader (text : List Char) : Option (UInt32 × UInt32) := do
  let text ← stripPrefix "@@".toList text
  let text := trim (beforeFirst "@@".toList (trimStart text))
  let (old, rest) ← nextWord text
  let (new, _) ← nextWord rest
  let oldStart ← parseRangeStart (← stripPrefix ['-'] old)
  let newStart ← parseRangeStart (← stripPrefix ['+'] new)
  some (oldStart, newStart)

-- `*v += 1` on the counters: the release build wraps.
def bump (line : Option UInt32) : Option UInt32 := line.map (· + 1)

def annotateFrom (oldLine newLine : Option UInt32) : List DiffLine → List AnnotatedDiffLine
  | [] => []
  | line :: lines => match line.kind with
    | .hunk => match parseUnifiedHunkHeader line.text with
      | some (oldStart, newStart) =>
        ⟨.hunk, line.text, none, none⟩ :: annotateFrom (some oldStart) (some newStart) lines
      | none => ⟨.hunk, line.text, none, none⟩ :: annotateFrom none none lines
    | .context =>
      ⟨.context, line.text, oldLine, newLine⟩ :: annotateFrom (bump oldLine) (bump newLine) lines
    | .remove => ⟨.remove, line.text, oldLine, none⟩ :: annotateFrom (bump oldLine) newLine lines
    | .add => ⟨.add, line.text, none, newLine⟩ :: annotateFrom oldLine (bump newLine) lines
    | .header => ⟨.header, line.text, none, none⟩ :: annotateFrom oldLine newLine lines

def annotateUnified (lines : List DiffLine) : List AnnotatedDiffLine :=
  annotateFrom none none lines

inductive RangeText (start : ℕ) : ℕ → List Char → Prop
  | counted (count : ℕ) : RangeText start count (decimal start ++ ',' :: decimal count)
  | single : RangeText start 1 (decimal start)

section
variable {oldStart newStart oldCount newCount : ℕ} {oldRange newRange : List Char}

def headerLine (oldRange newRange heading : List Char) : List Char :=
  '@' :: '@' :: ' ' :: '-' :: oldRange ++ ' ' :: '+' :: newRange ++ ' ' :: '@' :: '@' :: heading

def RangeChar (c : Char) : Prop := c.isDigit = true ∨ c = ','

theorem rangeText_chars (h : RangeText oldStart oldCount oldRange) :
    ∀ c ∈ oldRange, RangeChar c := by
  intro c hc
  cases h with
  | counted =>
    rcases mem_append.mp hc with hc | hc
    · exact .inl (decimal_digit hc)
    · rcases mem_cons.mp hc with rfl | hc
      · exact .inr rfl
      · exact .inl (decimal_digit hc)
  | single => exact .inl (decimal_digit hc)

theorem rangeChar_solid {c : Char} (h : RangeChar c) : isWhitespace c = false := by
  rcases h with h | rfl
  · exact digit_solid h
  · rfl

theorem rangeChar_ne {c d : Char} (h : RangeChar c) (hd : ¬ RangeChar d) : c ≠ d := by
  rintro rfl
  exact hd h

theorem parseRangeStart_range (h : RangeText oldStart oldCount oldRange) :
    parseRangeStart oldRange =
      if oldStart ≤ u32Max then some (UInt32.ofNat oldStart) else none := by
  have hcomma : ',' ∉ decimal oldStart := fun hmem =>
    absurd (decimal_digit hmem) (by decide)
  rw [parseRangeStart, ← parseU32_decimal]
  cases h with
  | counted =>
    have hfirst := beforeFirst_append (m := []) (r := decimal oldCount) hcomma
    simp only [append_assoc, singleton_append] at hfirst
    rw [hfirst]
  | single => rw [beforeFirst_none hcomma]

theorem headerLine_words (hold : RangeText oldStart oldCount oldRange)
    (hnew : RangeText newStart newCount newRange) (heading : List Char) :
    trim (beforeFirst ['@', '@'] (trimStart
      (' ' :: '-' :: oldRange ++ ' ' :: '+' :: newRange ++ ' ' :: '@' :: '@' :: heading))) =
      '-' :: oldRange ++ ' ' :: '+' :: newRange := by
  have hat : '@' ∉ ('-' :: oldRange ++ ' ' :: '+' :: newRange) ++ [' '] := by
    have hrange : ¬ RangeChar '@' := by simp [RangeChar]
    have ho : '@' ∉ oldRange := fun hmem => hrange (rangeText_chars hold _ hmem)
    have hn : '@' ∉ newRange := fun hmem => hrange (rangeText_chars hnew _ hmem)
    simp [ho, hn]
  have hfirst := beforeFirst_append (m := ['@']) (r := heading) hat
  have htext : ' ' :: '-' :: oldRange ++ ' ' :: '+' :: newRange ++ ' ' :: '@' :: '@' :: heading =
      ' ' :: ((('-' :: oldRange ++ ' ' :: '+' :: newRange) ++ [' ']) ++ ['@', '@'] ++ heading) := by
    simp
  have hword : trimStart ((('-' :: oldRange ++ ' ' :: '+' :: newRange) ++ [' ']) ++ ['@', '@'] ++
      heading) = (('-' :: oldRange ++ ' ' :: '+' :: newRange) ++ [' ']) ++ ['@', '@'] ++ heading :=
    trimStart_solid rfl _
  have hlast : ∃ front c, '-' :: oldRange ++ ' ' :: '+' :: newRange = front ++ [c] ∧
      isWhitespace c = false := by
    have hne : newRange ≠ [] := by
      cases hnew with
      | counted => simp
      | single => exact decimal_ne_nil _
    refine ⟨'-' :: oldRange ++ ' ' :: '+' :: newRange.dropLast, newRange.getLast hne, ?_,
      rangeChar_solid (rangeText_chars hnew _ (getLast_mem hne))⟩
    conv => lhs; rw [← dropLast_append_getLast hne]
    simp
  obtain ⟨front, c, hfront, hc⟩ := hlast
  rw [htext, trimStart_space, hword, hfirst, trim]
  have hstart : trimStart (('-' :: oldRange ++ ' ' :: '+' :: newRange) ++ [' ']) =
      ('-' :: oldRange ++ ' ' :: '+' :: newRange) ++ [' '] := trimStart_solid rfl _
  rw [hstart, trimEnd_space, hfront, trimEnd_solid hc]

theorem parseUnifiedHunkHeader_headerLine (hold : RangeText oldStart oldCount oldRange)
    (hnew : RangeText newStart newCount newRange) (heading : List Char) :
    parseUnifiedHunkHeader (headerLine oldRange newRange heading) =
      if oldStart ≤ u32Max ∧ newStart ≤ u32Max then
        some (UInt32.ofNat oldStart, UInt32.ofNat newStart) else none := by
  have hold' : Solid ('-' :: oldRange) :=
    fun c hc => (mem_cons.mp hc).elim (fun h => h ▸ rfl)
      fun h => rangeChar_solid (rangeText_chars hold c h)
  have hnew' : Solid ('+' :: newRange) :=
    fun c hc => (mem_cons.mp hc).elim (fun h => h ▸ rfl)
      fun h => rangeChar_solid (rangeText_chars hnew c h)
  have hline : headerLine oldRange newRange heading = "@@".toList ++
      (' ' :: '-' :: oldRange ++ ' ' :: '+' :: newRange ++ ' ' :: '@' :: '@' :: heading) := rfl
  have hmark : "@@".toList = ['@', '@'] := rfl
  have hminus := stripPrefix_append ['-'] oldRange
  have hplus := stripPrefix_append ['+'] newRange
  simp only [singleton_append] at hminus hplus
  rw [parseUnifiedHunkHeader, hline, stripPrefix_append, hmark]
  simp only [Option.bind_eq_bind, Option.bind_some, headerLine_words hold hnew heading,
    nextWord_cons hold', nextWord_last hnew', hminus, hplus, parseRangeStart_range hold,
    parseRangeStart_range hnew]
  by_cases ho : oldStart ≤ u32Max
  · by_cases hn : newStart ≤ u32Max
    · have hboth : oldStart ≤ u32Max ∧ newStart ≤ u32Max := ⟨ho, hn⟩
      rw [if_pos ho, if_pos hn, if_pos hboth]
      rfl
    · have hboth : ¬(oldStart ≤ u32Max ∧ newStart ≤ u32Max) := fun h => hn h.2
      rw [if_pos ho, if_neg hn, if_neg hboth]
      rfl
  · have hboth : ¬(oldStart ≤ u32Max ∧ newStart ≤ u32Max) := fun h => ho h.1
    rw [if_neg ho, if_neg hboth]
    rfl

end

end GitComet.Unified

namespace GitComet.Unified
open Text KeyGroups

def isFileHeader (line : AnnotatedDiffLine) : Bool := startsWith line.text "diff --git ".toList
def isHunk (line : AnnotatedDiffLine) : Bool := decide (line.kind = .hunk)

def enclosingFrom (diff : List AnnotatedDiffLine) (ix : ℕ) : Option ℕ :=
  match diff[ix]? with
  | none => none
  | some line =>
    if line.kind = .header ∧ isFileHeader line = true then none
    else if isHunk line then some ix
    else match ix with
      | 0 => none
      | ix + 1 => enclosingFrom diff ix

def enclosingHunkSrcIx (diff : List AnnotatedDiffLine) (srcIx : ℕ) : Option ℕ :=
  enclosingFrom diff (min srcIx (diff.length - 1))

def findBack (p : AnnotatedDiffLine → Bool) (lines : List AnnotatedDiffLine) : ℕ → Option ℕ
  | 0 => if (lines[0]?).any p then some 0 else none
  | ix + 1 => if (lines[ix + 1]?).any p then some (ix + 1) else findBack p lines ix

def findFrom (p : AnnotatedDiffLine → Bool) (lines : List AnnotatedDiffLine) (start : ℕ) : ℕ :=
  if start ≤ lines.length then start + (lines.drop start).findIdx p else lines.length

structure PatchBounds where
  fileStart : ℕ
  headerEnd : ℕ
  hunkEnd : ℕ
  deriving DecidableEq

def unifiedPatchFileAndHunkBounds (lines : List AnnotatedDiffLine) (hunkSrcIx : ℕ) :
    Option PatchBounds := do
  let hunk ← lines[hunkSrcIx]?
  if !isHunk hunk then none
  else do
    let fileStart ← findBack isFileHeader lines hunkSrcIx
    let firstHunk := findFrom (fun line => isHunk line || isFileHeader line) lines (fileStart + 1)
    let hunkEnd := findFrom (fun line => isHunk line || isFileHeader line) lines (hunkSrcIx + 1)
    some ⟨fileStart, min firstHunk hunkSrcIx, hunkEnd⟩

inductive UnselectedHunkLineBehavior where
  | drop
  | keepAsContext
  deriving DecidableEq

structure PatchText where
  out : List Char
  hasChange : Bool
  prevIncluded : Bool
  deriving DecidableEq

def PatchText.push (st : PatchText) (text : List Char) : PatchText :=
  { st with out := st.out ++ text ++ ['\n'], prevIncluded := true }

def appendUnselectedHunkLine (st : PatchText) (lineText : List Char) (expectedPrefix : Char)
    (behavior : UnselectedHunkLineBehavior) : PatchText :=
  match behavior with
  | .drop => { st with prevIncluded := false }
  | .keepAsContext => st.push (' ' :: (stripPrefix [expectedPrefix] lineText).getD lineText)

def pushHunkLine (selected : List ℕ) (unselectedAdd unselectedRemove : UnselectedHunkLineBehavior)
    (st : PatchText) (ix : ℕ) (line : AnnotatedDiffLine) : PatchText :=
  if startsWith line.text ['\\'] then
    if st.prevIncluded then { st with out := st.out ++ line.text ++ ['\n'] } else st
  else match line.kind with
    | .add =>
      if ix ∈ selected then { st.push line.text with hasChange := true }
      else appendUnselectedHunkLine st line.text '+' unselectedAdd
    | .remove =>
      if ix ∈ selected then { st.push line.text with hasChange := true }
      else appendUnselectedHunkLine st line.text '-' unselectedRemove
    | .context => st.push line.text
    | .header => st.push line.text
    | .hunk => st.push line.text

def buildHunkSelection (diff : List AnnotatedDiffLine) (hunkSrcIx : ℕ) (selected : List ℕ)
    (unselectedAdd unselectedRemove : UnselectedHunkLineBehavior) : Option (List Char) :=
  if selected = [] then none
  else do
    let bounds ← unifiedPatchFileAndHunkBounds diff hunkSrcIx
    let headers := (diff.take bounds.headerEnd).drop bounds.fileStart
    let hunk ← diff[hunkSrcIx]?
    let out := headers.flatMap fun line => line.text ++ ['\n']
    let st : PatchText := ⟨out ++ hunk.text ++ ['\n'], false, false⟩
    let body := (diff.zipIdx.take bounds.hunkEnd).drop (hunkSrcIx + 1)
    let st := body.foldl (fun st entry =>
      pushHunkLine selected unselectedAdd unselectedRemove st entry.2 entry.1) st
    if st.hasChange then some st.out else none

def buildUnifiedPatchForHunkSelection (diff : List AnnotatedDiffLine) (hunkSrcIx : ℕ)
    (selected : List ℕ) : Option (List Char) :=
  buildHunkSelection diff hunkSrcIx selected .drop .keepAsContext

def buildUnifiedPatchForHunkSelectionForReverseApply (diff : List AnnotatedDiffLine)
    (hunkSrcIx : ℕ) (selected : List ℕ) : Option (List Char) :=
  buildHunkSelection diff hunkSrcIx selected .keepAsContext .drop

def hunkEntry (diff : List AnnotatedDiffLine) (srcIx : ℕ) : Option (ℕ × ℕ) := do
  let line ← diff[srcIx]?
  if line.kind = .add ∨ line.kind = .remove then
    (enclosingHunkSrcIx diff srcIx).map fun hunkSrcIx => (hunkSrcIx, srcIx)
  else none

-- `by_hunk`; the set of selected lines comes in the order its iterator gives.
def byHunk (diff : List AnnotatedDiffLine) (selected : List ℕ) : List (ℕ × List ℕ) :=
  groups (selected.filterMap (hunkEntry diff))

def buildAcrossHunks (build : ℕ → List ℕ → Option (List Char)) (diff : List AnnotatedDiffLine)
    (selected : List ℕ) : Option (List Char) :=
  if selected = [] then none
  else
    let out := (byHunk diff selected).flatMap fun group => (build group.1 group.2).getD []
    if trim out = [] then none else some out

def buildUnifiedPatchForSelectedLinesAcrossHunks (diff : List AnnotatedDiffLine)
    (selected : List ℕ) : Option (List Char) :=
  buildAcrossHunks (buildUnifiedPatchForHunkSelection diff) diff selected

def buildUnifiedPatchForSelectedLinesAcrossHunksForReverseApply (diff : List AnnotatedDiffLine)
    (selected : List ℕ) : Option (List Char) :=
  buildAcrossHunks (buildUnifiedPatchForHunkSelectionForReverseApply diff) diff selected

end GitComet.Unified
