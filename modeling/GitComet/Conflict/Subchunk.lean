import Mathlib.Data.List.SplitBy
import GitComet.FileDiff.Hunks
import GitComet.Merge.Plan

namespace GitComet.Conflict
open Slice Text FileDiff

inductive Subchunk where
  | resolved (text : List Char)
  | conflict (base ours theirs : List Char)
  deriving DecidableEq

abbrev LineHunk := DiffHunk Line

def subchunkMaxLines : ℕ := 500

def linesToText (lines : List Line) (lineEnding : List Char) : List Char :=
  (lines.map (· ++ lineEnding)).flatten

structure LineTriple where
  base : Line
  ours : Line
  theirs : Line
  deriving DecidableEq

inductive LineClass where
  | context
  | oursChanged
  | theirsChanged
  | bothSame
  | conflict
  deriving DecidableEq

def LineTriple.classify (triple : LineTriple) : LineClass :=
  let sameBo := decide (triple.base = triple.ours)
  let sameBt := decide (triple.base = triple.theirs)
  let sameOt := decide (triple.ours = triple.theirs)
  if sameBo && sameBt then .context
  else if !sameBo && sameBt then .oursChanged
  else if sameBo && !sameBt then .theirsChanged
  else if sameOt then .bothSame
  else .conflict

def lineTriples : List Line → List Line → List Line → List LineTriple
  | base :: bases, ours :: oursLines, theirs :: theirsLines =>
    ⟨base, ours, theirs⟩ :: lineTriples bases oursLines theirsLines
  | _, _, _ => []

def groupSubchunk (lineEnding : List Char) (group : List LineTriple) : Subchunk :=
  let base := linesToText (group.map LineTriple.base) lineEnding
  let ours := linesToText (group.map LineTriple.ours) lineEnding
  let theirs := linesToText (group.map LineTriple.theirs) lineEnding
  match group.head?.map LineTriple.classify with
  | some .context => .resolved base
  | some .oursChanged => .resolved ours
  | some .theirsChanged => .resolved theirs
  | some .bothSame => .resolved ours
  | some .conflict => .conflict base ours theirs
  | none => .resolved []

def perLineMerge (baseLines oursLines theirsLines : List Line) (lineEnding : List Char) :
    List Subchunk :=
  ((lineTriples baseLines oursLines theirsLines).splitBy fun triple next =>
    decide (triple.classify = next.classify)).map (groupSubchunk lineEnding)

def sideContent (baseLines : List Line) (rangeStart rangeEnd : ℕ) (hunks : List LineHunk)
    (lineEnding : List Char) : List Char :=
  linesToText (reconstructSide baseLines rangeStart rangeEnd hunks) lineEnding

structure Consumed where
  taken : List LineHunk
  rest : List LineHunk
  regionEnd : ℕ

def consumeWhile (wanted : ℕ → LineHunk → Bool) : List LineHunk → ℕ → Consumed
  | [], regionEnd => ⟨[], [], regionEnd⟩
  | hunk :: hunks, regionEnd =>
    if wanted regionEnd hunk then
      let later := consumeWhile wanted hunks (max regionEnd hunk.baseEnd)
      { later with taken := hunk :: later.taken }
    else ⟨[], hunk :: hunks, regionEnd⟩

def consumeAt (changeStart : ℕ) (hunks : List LineHunk) (regionEnd : ℕ) : Consumed :=
  consumeWhile (fun _ hunk => decide (hunk.baseStart = changeStart)) hunks regionEnd

def consumeOverlapping (hunks : List LineHunk) (regionEnd : ℕ) : Consumed :=
  consumeWhile (fun regionEnd hunk => decide (hunk.baseStart < regionEnd)) hunks regionEnd

structure Region where
  oursTaken : List LineHunk
  oursRest : List LineHunk
  theirsTaken : List LineHunk
  theirsRest : List LineHunk
  regionEnd : ℕ

def openRegion (changeStart basePos : ℕ) (ours theirs : List LineHunk) : Region :=
  let oursHunks := consumeAt changeStart ours basePos
  let theirsHunks := consumeAt changeStart theirs oursHunks.regionEnd
  ⟨oursHunks.taken, oursHunks.rest, theirsHunks.taken, theirsHunks.rest, theirsHunks.regionEnd⟩

def expandOnce (region : Region) : Region × Bool :=
  let oursHunks := consumeOverlapping region.oursRest region.regionEnd
  let theirsHunks := consumeOverlapping region.theirsRest oursHunks.regionEnd
  ({ oursTaken := region.oursTaken ++ oursHunks.taken
     oursRest := oursHunks.rest
     theirsTaken := region.theirsTaken ++ theirsHunks.taken
     theirsRest := theirsHunks.rest
     regionEnd := theirsHunks.regionEnd },
    !(oursHunks.taken.isEmpty && theirsHunks.taken.isEmpty))

-- `none` says that the rounds ran out.
def expandRegion : ℕ → Region → Option Region
  | 0, _ => none
  | fuel + 1, region =>
    let (next, extended) := expandOnce region
    if extended then expandRegion fuel next else some next

def regionSubchunks (baseLines : List Line) (basePos : ℕ) (region : Region)
    (lineEnding : List Char) : Option (List Subchunk) :=
  let oursText := sideContent baseLines basePos region.regionEnd region.oursTaken lineEnding
  let theirsText := sideContent baseLines basePos region.regionEnd region.theirsTaken lineEnding
  if !region.oursTaken.isEmpty && !region.theirsTaken.isEmpty then do
    let own ← sliceOf baseLines basePos (min region.regionEnd baseLines.length)
    let baseText := linesToText own lineEnding
    if oursText = theirsText then some [.resolved oursText]
    else
      let subBase := splitLines baseText
      let subOurs := splitLines oursText
      let subTheirs := splitLines theirsText
      if subBase.length = subOurs.length ∧ subBase.length = subTheirs.length then
        some (perLineMerge subBase subOurs subTheirs lineEnding)
      else some [.conflict baseText oursText theirsText]
  else if !region.oursTaken.isEmpty then some [.resolved oursText]
  else if !region.theirsTaken.isEmpty then some [.resolved theirsText]
  else some []

def hunkStart (hunks : List LineHunk) : ℕ := (hunks.head?.map DiffHunk.baseStart).getD usizeMax

def contextEnd (baseLines : List Line) (basePos changeStart : ℕ) : ℕ :=
  if basePos < changeStart ∧ basePos < baseLines.length then min changeStart baseLines.length
  else basePos

def contextSubchunks (baseLines : List Line) (basePos changeStart : ℕ) (lineEnding : List Char) :
    Option (List Subchunk) :=
  if basePos < changeStart ∧ basePos < baseLines.length then do
    let context ← sliceOf baseLines basePos (min changeStart baseLines.length)
    some [.resolved (linesToText context lineEnding)]
  else some []

def mergeHunks (baseLines : List Line) (lineEnding : List Char) :
    ℕ → ℕ → List LineHunk → List LineHunk → Option (List Subchunk)
  | 0, _, _, _ => none
  | fuel + 1, basePos, ours, theirs =>
    if hunkStart ours = usizeMax ∧ hunkStart theirs = usizeMax then
      if basePos < baseLines.length then
        some [.resolved (linesToText (baseLines.drop basePos) lineEnding)]
      else some []
    else do
      let changeStart := min (hunkStart ours) (hunkStart theirs)
      let context ← contextSubchunks baseLines basePos changeStart lineEnding
      let basePos := contextEnd baseLines basePos changeStart
      let region ← expandRegion (ours.length + theirs.length + 1)
        (openRegion changeStart basePos ours theirs)
      let own ← regionSubchunks baseLines basePos region lineEnding
      let rest ← mergeHunks baseLines lineEnding fuel region.regionEnd region.oursRest
        region.theirsRest
      some (context ++ (own ++ rest))

def mergeLineHunks (baseLines : List Line) (oursHunks theirsHunks : List LineHunk)
    (lineEnding : List Char) : Option (List Subchunk) :=
  mergeHunks baseLines lineEnding (oursHunks.length + theirsHunks.length + 1) 0 oursHunks
    theirsHunks

def Subchunk.isResolved : Subchunk → Bool
  | .resolved _ => true
  | .conflict .. => false

def mergedSubchunks (baseLines oursLines theirsLines : List Line) (lineEnding : List Char) :
    Option (List Subchunk) :=
  if baseLines.length = oursLines.length ∧ baseLines.length = theirsLines.length then
    some (perLineMerge baseLines oursLines theirsLines lineEnding)
  else do
    let editsOurs ← myersEdits baseLines oursLines
    let editsTheirs ← myersEdits baseLines theirsLines
    mergeLineHunks baseLines (editsToHunks editsOurs) (editsToHunks editsTheirs) lineEnding

-- The outer `none` is a panic, the inner one no split.
def splitConflictIntoSubchunks (base ours theirs : List Char) : Option (Option (List Subchunk)) :=
  if ours = theirs ∨ ours = base ∨ theirs = base then some none
  else
    let baseLines := splitLines base
    let oursLines := splitLines ours
    let theirsLines := splitLines theirs
    if subchunkMaxLines < baseLines.length ∨ subchunkMaxLines < oursLines.length ∨
        subchunkMaxLines < theirsLines.length then some none
    else do
      let lineEnding := Merge.detectLineEnding (some base) ours theirs
      let subchunks ← mergedSubchunks baseLines oursLines theirsLines lineEnding
      some (if subchunks.any Subchunk.isResolved then some subchunks else none)

end GitComet.Conflict
