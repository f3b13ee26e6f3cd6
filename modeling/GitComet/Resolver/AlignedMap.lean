import GitComet.Basis.BinarySearch
import GitComet.Merge.AlignedRunsExact

namespace GitComet.Resolver
open Merge BinarySearch List Nat Option

structure SideCounts where
  base : ℕ
  ours : ℕ
  theirs : ℕ
  deriving DecidableEq

def SideCounts.at (counts : SideCounts) : RunSide → ℕ
  | .base => counts.base
  | .ours => counts.ours
  | .theirs => counts.theirs

structure AlignedMapRun where
  alignedStart : ℕ
  rows : ℕ
  starts : SideCounts
  lens : SideCounts
  kind : AlignedRunKind
  deriving DecidableEq

structure ThreeWayAlignedMap where
  runs : List AlignedMapRun
  alignedLen : ℕ
  deriving DecidableEq

def alignedMapRun (alignedStart : ℕ) (run : AlignedRun) : AlignedMapRun :=
  { alignedStart := alignedStart
    rows := run.visualRows
    starts := ⟨run.base.start, run.ours.start, run.theirs.start⟩
    lens := ⟨run.base.len, run.ours.len, run.theirs.len⟩
    kind := run.kind }

def alignedMapRuns : ℕ → List AlignedRun → List AlignedMapRun
  | _, [] => []
  | alignedStart, run :: alignment =>
    alignedMapRun alignedStart run :: alignedMapRuns (alignedStart + run.visualRows) alignment

def alignedRows (alignment : List AlignedRun) : ℕ := (alignment.map AlignedRun.visualRows).sum

namespace ThreeWayAlignedMap

def fromAlignment (alignment : List AlignedRun) : ThreeWayAlignedMap :=
  ⟨alignedMapRuns 0 alignment, alignedRows alignment⟩

variable (map : ThreeWayAlignedMap)

def isIdentity : Bool := map.runs.isEmpty

def runForRow (row : ℕ) : Option AlignedMapRun :=
  if map.alignedLen ≤ row then none
  else map.runs[partitionPoint (fun run => decide (run.alignedStart + run.rows ≤ row)) map.runs]?

def sideLineForRow (side : RunSide) (row : ℕ) : Option ℕ :=
  if map.isIdentity then some row
  else do
    let run ← map.runForRow row
    if row - run.alignedStart < run.lens.at side then
      some (run.starts.at side + (row - run.alignedStart))
    else none

def rowForSideLine (side : RunSide) (line : ℕ) : ℕ :=
  if map.isIdentity then line
  else
    match map.runs[partitionPoint
        (fun run => decide (run.starts.at side + run.lens.at side ≤ line)) map.runs]? with
    | some run => run.alignedStart + (line - run.starts.at side)
    | none => map.alignedLen

def sideLineLowerBound (side : RunSide) (row : ℕ) : ℕ :=
  if map.isIdentity then row
  else
    match map.runForRow row with
    | some run => run.starts.at side + min (row - run.alignedStart) (run.lens.at side)
    | none => (map.runs.getLast?.map fun run => run.starts.at side + run.lens.at side).getD 0

def alignedRangeForSideRange (side : RunSide) (range : LineRange) : LineRange :=
  if map.isIdentity then range
  else if range.stop ≤ range.start then
    ⟨map.rowForSideLine side range.start, map.rowForSideLine side range.start⟩
  else
    let start := map.rowForSideLine side range.start
    let stop := map.rowForSideLine side (range.stop - 1) + 1
    ⟨start, max stop start⟩

end ThreeWayAlignedMap

section
variable (alignedStart : ℕ) (run : AlignedRun) (side : RunSide)

theorem alignedMapRun_start :
    (alignedMapRun alignedStart run).starts.at side = (run.range side).start := by
  cases side <;> rfl

theorem alignedMapRun_len :
    (alignedMapRun alignedStart run).lens.at side = (run.range side).len := by
  cases side <;> rfl

theorem len_le_visualRows : (run.range side).len ≤ run.visualRows :=
  (visualRows_iff.mp rfl).1 side

end

def runAt (alignedStart : ℕ) (alignment : List AlignedRun) (row : ℕ) : Option AlignedMapRun :=
  (alignedMapRuns alignedStart alignment).find? fun run =>
    decide (row < run.alignedStart + run.rows)

def runOfLine (side : RunSide) (alignedStart : ℕ) (alignment : List AlignedRun) (line : ℕ) :
    Option AlignedMapRun :=
  (alignedMapRuns alignedStart alignment).find? fun run =>
    decide (line < run.starts.at side + run.lens.at side)

def lineAt (side : RunSide) (alignedStart : ℕ) (alignment : List AlignedRun) (row : ℕ) : Option ℕ :=
  (runAt alignedStart alignment row).bind fun run =>
    if row - run.alignedStart < run.lens.at side then
      some (run.starts.at side + (row - run.alignedStart))
    else none

def rowOf (side : RunSide) (alignedStart : ℕ) (alignment : List AlignedRun) (line : ℕ) : ℕ :=
  match runOfLine side alignedStart alignment line with
  | some run => run.alignedStart + (line - run.starts.at side)
  | none => alignedStart + alignedRows alignment

def boundAt (side : RunSide) (stop alignedStart : ℕ) (alignment : List AlignedRun) (row : ℕ) : ℕ :=
  match runAt alignedStart alignment row with
  | some run => run.starts.at side + min (row - run.alignedStart) (run.lens.at side)
  | none => stop

section
variable (alignedStart : ℕ) (run : AlignedRun) (alignment : List AlignedRun) (side : RunSide)

theorem alignedRows_cons :
    alignedRows (run :: alignment) = run.visualRows + alignedRows alignment := by
  simp [alignedRows]

theorem lineAt_cons (row : ℕ) :
    lineAt side alignedStart (run :: alignment) row = if row < alignedStart + run.visualRows then
        if row - alignedStart < (run.range side).len then
          some ((run.range side).start + (row - alignedStart)) else none
      else lineAt side (alignedStart + run.visualRows) alignment row := by
  rw [lineAt, runAt, alignedMapRuns, find?_cons]
  by_cases hrow : row < alignedStart + run.visualRows
  · simp [alignedMapRun, hrow, ← alignedMapRun_start alignedStart, ← alignedMapRun_len alignedStart]
  · simp [alignedMapRun, hrow, lineAt, runAt]

theorem boundAt_cons (stop row : ℕ) :
    boundAt side stop alignedStart (run :: alignment) row =
      if row < alignedStart + run.visualRows then
        (run.range side).start + min (row - alignedStart) (run.range side).len
      else boundAt side stop (alignedStart + run.visualRows) alignment row := by
  rw [boundAt, runAt, alignedMapRuns, find?_cons]
  by_cases hrow : row < alignedStart + run.visualRows
  · simp [alignedMapRun, hrow, ← alignedMapRun_start alignedStart, ← alignedMapRun_len alignedStart]
  · simp [alignedMapRun, hrow, boundAt, runAt]

theorem rowOf_cons (line : ℕ) (h : (run.range side).start ≤ (run.range side).stop) :
    rowOf side alignedStart (run :: alignment) line =
      if line < (run.range side).stop then alignedStart + (line - (run.range side).start)
      else rowOf side (alignedStart + run.visualRows) alignment line := by
  have hstop : (run.range side).start + (run.range side).len = (run.range side).stop := by
    rw [LineRange.len]
    omega
  rw [rowOf, runOfLine, alignedMapRuns, find?_cons, alignedMapRun_start, alignedMapRun_len,
    hstop, alignedRows_cons, ← add_assoc]
  by_cases hline : line < (run.range side).stop
  · rw [decide_eq_true hline, if_pos hline, ← alignedMapRun_start alignedStart]
    rfl
  · rw [decide_eq_false hline, if_neg hline]
    rfl

end

variable {row line : ℕ}

section
variable {alignment : List AlignedRun} {side : RunSide} {pos stop : ℕ}

theorem stop_eq {range : LineRange} (h : range.start ≤ range.stop) :
    range.stop = range.start + range.len :=
  (Nat.add_sub_cancel' h).symm

theorem contiguous_cons {run : AlignedRun}
    (h : Contiguous ((run :: alignment).map (·.range side)) pos stop) :
    (run.range side).start = pos ∧ (run.range side).start ≤ (run.range side).stop ∧
      Contiguous (alignment.map (·.range side)) (run.range side).stop stop :=
  h

section
variable (h : Contiguous (alignment.map (·.range side)) pos stop)
include h

theorem lineAt_some {alignedStart : ℕ}
    (hrow : alignedStart ≤ row) (hline : lineAt side alignedStart alignment row = some line) :
    pos ≤ line ∧ line < stop ∧ rowOf side alignedStart alignment line = row := by
  induction alignment generalizing pos alignedStart with
  | nil => cases hline
  | cons run alignment ih =>
    obtain ⟨hstart, hle, hrest⟩ := contiguous_cons h
    have hstop := stop_eq hle
    have hrows := len_le_visualRows run side
    rw [lineAt_cons] at hline
    rw [rowOf_cons _ _ _ _ _ hle]
    split_ifs at hline with hhere hshown
    · cases hline
      have := contiguous_le hrest
      rw [if_pos (by omega)]
      omega
    · obtain ⟨hpos, hlt, hback⟩ := ih hrest (Nat.le_of_not_lt hhere) hline
      rw [if_neg (by omega)]
      exact ⟨by omega, hlt, hback⟩

theorem lineAt_rowOf {alignedStart : ℕ} (hpos : pos ≤ line) (hlt : line < stop) :
    lineAt side alignedStart alignment (rowOf side alignedStart alignment line) = some line ∧
      alignedStart ≤ rowOf side alignedStart alignment line := by
  induction alignment generalizing pos alignedStart with
  | nil =>
    obtain rfl : pos = stop := h
    omega
  | cons run alignment ih =>
    obtain ⟨hstart, hle, hrest⟩ := contiguous_cons h
    have hstop := stop_eq hle
    have hrows := len_le_visualRows run side
    rw [rowOf_cons _ _ _ _ _ hle]
    by_cases hhere : line < (run.range side).stop
    · rw [if_pos hhere, lineAt_cons, if_pos (by omega), if_pos (by omega)]
      exact ⟨congrArg some (by omega), by omega⟩
    · obtain ⟨hback, hrow⟩ := @ih _ hrest (alignedStart + run.visualRows) (by omega)
      rw [if_neg hhere, lineAt_cons, if_neg (by omega)]
      exact ⟨hback, by omega⟩

theorem rowOf_past {alignedStart : ℕ} (hpast : stop ≤ line) :
    rowOf side alignedStart alignment line = alignedStart + alignedRows alignment := by
  induction alignment generalizing pos alignedStart with
  | nil => rfl
  | cons run alignment ih =>
    obtain ⟨-, hle, hrest⟩ := contiguous_cons h
    have := contiguous_le hrest
    rw [rowOf_cons _ _ _ _ _ hle, if_neg (by omega), ih hrest, alignedRows_cons, add_assoc]

theorem boundAt_start
    (alignedStart : ℕ) : boundAt side stop alignedStart alignment alignedStart = pos := by
  induction alignment generalizing pos alignedStart with
  | nil => exact Eq.symm h
  | cons run alignment ih =>
    obtain ⟨hstart, hle, hrest⟩ := contiguous_cons h
    rw [boundAt_cons]
    split_ifs with hhere
    · rw [hstart, Nat.sub_self, Nat.zero_min, Nat.add_zero]
    · have hrows := len_le_visualRows run side
      have hstop := stop_eq hle
      have hnone : run.visualRows = 0 := by omega
      rw [hnone, add_zero, ih hrest]
      omega

theorem boundAt_succ {alignedStart : ℕ} (hrow : alignedStart ≤ row) :
    boundAt side stop alignedStart alignment (row + 1) =
      boundAt side stop alignedStart alignment row +
        (lineAt side alignedStart alignment row).isSome.toNat := by
  induction alignment generalizing pos alignedStart with
  | nil => rfl
  | cons run alignment ih =>
    obtain ⟨hstart, hle, hrest⟩ := contiguous_cons h
    have hrows := len_le_visualRows run side
    have hstop := stop_eq hle
    rw [boundAt_cons, boundAt_cons, lineAt_cons]
    by_cases hhere : row < alignedStart + run.visualRows
    · have hshown : (if row - alignedStart < (run.range side).len then
          some ((run.range side).start + (row - alignedStart)) else none).isSome.toNat =
            if row - alignedStart < (run.range side).len then 1 else 0 := by
        split_ifs <;> rfl
      rw [if_pos hhere, if_pos hhere, hshown]
      by_cases hnext : row + 1 < alignedStart + run.visualRows
      · rw [if_pos hnext]
        split_ifs <;> omega
      · have hfirst : row + 1 = alignedStart + run.visualRows := by omega
        rw [if_neg hnext, hfirst, boundAt_start hrest]
        split_ifs <;> omega
    · rw [if_neg hhere, if_neg (by omega), if_neg hhere]
      exact ih hrest (Nat.le_of_not_lt hhere)

end

theorem alignedMapRuns_start_le {alignedStart : ℕ} {run : AlignedMapRun}
    (hrun : run ∈ alignedMapRuns alignedStart alignment) :
    alignedStart ≤ run.alignedStart ∧
      run.alignedStart + run.rows ≤ alignedStart + alignedRows alignment := by
  induction alignment generalizing alignedStart with
  | nil => cases hrun
  | cons first alignment ih =>
    rw [alignedRows_cons]
    rcases mem_cons.mp hrun with rfl | hrun
    · exact ⟨le_refl _, by simp only [alignedMapRun]; omega⟩
    · have := ih hrun
      omega

theorem rows_ascend (alignedStart : ℕ) (alignment : List AlignedRun) :
    (alignedMapRuns alignedStart alignment).Pairwise fun x y =>
      x.alignedStart + x.rows ≤ y.alignedStart + y.rows := by
  induction alignment generalizing alignedStart with
  | nil => exact .nil
  | cons run alignment ih =>
    refine .cons (fun y hy => ?_) (ih _)
    have hstart := (alignedMapRuns_start_le hy).1
    simp only [alignedMapRun]
    omega

section
variable (h : Contiguous (alignment.map (·.range side)) pos stop)
include h

theorem pos_le_line {alignedStart : ℕ}
    {run : AlignedMapRun} (hrun : run ∈ alignedMapRuns alignedStart alignment) :
    pos ≤ run.starts.at side + run.lens.at side := by
  induction alignment generalizing pos alignedStart with
  | nil => cases hrun
  | cons first alignment ih =>
    obtain ⟨hstart, hle, hrest⟩ := contiguous_cons h
    rcases mem_cons.mp hrun with rfl | hrun
    · rw [alignedMapRun_start, hstart]
      exact le_add_right _ _
    · have := ih hrest hrun
      omega

theorem lines_ascend (alignedStart : ℕ) :
    (alignedMapRuns alignedStart alignment).Pairwise fun x y =>
      x.starts.at side + x.lens.at side ≤ y.starts.at side + y.lens.at side := by
  induction alignment generalizing pos alignedStart with
  | nil => exact .nil
  | cons run alignment ih =>
    obtain ⟨hstart, hle, hrest⟩ := contiguous_cons h
    refine .cons (fun y hy => ?_) (ih hrest _)
    rw [alignedMapRun_start, alignedMapRun_len, ← stop_eq hle]
    exact pos_le_line hrest hy

theorem last_line (alignedStart : ℕ) :
    ((alignedMapRuns alignedStart alignment).getLast?.map fun run =>
      run.starts.at side + run.lens.at side).getD pos = stop := by
  induction alignment generalizing pos alignedStart with
  | nil => exact h
  | cons run alignment ih =>
    obtain ⟨-, hle, hrest⟩ := contiguous_cons h
    have hlast := ih hrest (alignedStart + run.visualRows)
    rw [alignedMapRuns]
    cases hruns : alignedMapRuns (alignedStart + run.visualRows) alignment with
    | nil =>
      rw [hruns] at hlast
      rw [getLast?_singleton, map_some, getD_some, alignedMapRun_start,
        alignedMapRun_len, ← stop_eq hle]
      exact hlast
    | cons next rest =>
      rw [hruns] at hlast
      rw [getLast?_cons_cons]
      obtain ⟨last, hsome⟩ := isSome_iff_exists.mp
        (getLast?_isSome.mpr (cons_ne_nil next rest))
      rw [hsome] at hlast ⊢
      exact hlast

end

end

namespace ThreeWayAlignedMap

section
variable {alignment : List AlignedRun} {side : RunSide}

theorem isIdentity_fromAlignment (alignment : List AlignedRun) :
    (fromAlignment alignment).isIdentity = alignment.isEmpty := by
  cases alignment <;> rfl

theorem runForRow_eq (alignment : List AlignedRun) (row : ℕ) :
    (fromAlignment alignment).runForRow row = runAt 0 alignment row := by
  have hsorted : (alignedMapRuns 0 alignment).Pairwise fun x y =>
      decide (y.alignedStart + y.rows ≤ row) →
        decide (x.alignedStart + x.rows ≤ row) := by
    refine (rows_ascend 0 alignment).imp fun hle hy => ?_
    rw [decide_eq_true_eq] at hy ⊢
    exact le_trans hle hy
  rw [runForRow, fromAlignment]
  split_ifs with hpast
  · refine (find?_eq_none.mpr fun run hrun => ?_).symm
    have hpast : alignedRows alignment ≤ row := hpast
    have := (alignedMapRuns_start_le hrun).2
    rw [decide_eq_true_eq]
    omega
  · rw [getElem?_partitionPoint hsorted, runAt]
    exact congrArg (List.find? · _) (funext fun run => by simp [← decide_not])

theorem sideLineForRow_eq (hne : alignment ≠ []) (row : ℕ) :
    (fromAlignment alignment).sideLineForRow side row = lineAt side 0 alignment row := by
  rw [sideLineForRow, isIdentity_fromAlignment, isEmpty_eq_false_iff.mpr hne, runForRow_eq]
  rfl

theorem rowForSideLine_eq {stop : ℕ}
    (h : Contiguous (alignment.map (·.range side)) 0 stop) (hne : alignment ≠ []) (line : ℕ) :
    (fromAlignment alignment).rowForSideLine side line = rowOf side 0 alignment line := by
  have hsorted : (alignedMapRuns 0 alignment).Pairwise fun x y =>
      decide (y.starts.at side + y.lens.at side ≤ line) →
        decide (x.starts.at side + x.lens.at side ≤ line) := by
    refine (lines_ascend h 0).imp fun hle hy => ?_
    rw [decide_eq_true_eq] at hy ⊢
    exact le_trans hle hy
  have hfind : (fun run : AlignedMapRun => !decide (run.starts.at side + run.lens.at side ≤ line)) =
      fun run => decide (line < run.starts.at side + run.lens.at side) :=
    funext fun run => by simp [← decide_not]
  rw [rowForSideLine, isIdentity_fromAlignment, isEmpty_eq_false_iff.mpr hne,
    if_neg Bool.false_ne_true, fromAlignment, getElem?_partitionPoint hsorted, hfind, rowOf,
    runOfLine, zero_add]

theorem sideLineLowerBound_eq {stop : ℕ} (h : Contiguous (alignment.map (·.range side)) 0 stop)
    (hne : alignment ≠ []) (row : ℕ) :
    (fromAlignment alignment).sideLineLowerBound side row = boundAt side stop 0 alignment row := by
  rw [sideLineLowerBound, isIdentity_fromAlignment, isEmpty_eq_false_iff.mpr hne,
    if_neg Bool.false_ne_true, runForRow_eq, boundAt, ← last_line h 0]
  rfl

end

variable (map : ThreeWayAlignedMap)

def linesAbove (side : RunSide) (row : ℕ) : List ℕ :=
  (range row).filterMap (map.sideLineForRow side)

structure Inverse (side : RunSide) (isLine : ℕ → Prop) : Prop where
  lineBack : ∀ line, isLine line →
    map.sideLineForRow side (map.rowForSideLine side line) = some line
  rowBack : ∀ row line, map.sideLineForRow side row = some line →
    isLine line ∧ map.rowForSideLine side line = row
  boundMono : ∀ row row', row ≤ row' →
    map.sideLineLowerBound side row ≤ map.sideLineLowerBound side row'
  boundCount : ∀ row, map.sideLineLowerBound side row = (map.linesAbove side row).length
  covers : ∀ (range : LineRange) row line, map.sideLineForRow side row = some line →
    ((map.alignedRangeForSideRange side range).start ≤ row ∧
        row < (map.alignedRangeForSideRange side range).stop ↔
      range.start ≤ line ∧ line < range.stop)

theorem identity_inverse (side : RunSide) :
    (fromAlignment []).Inverse side fun _ => True where
  lineBack _ _ := rfl
  rowBack row line hline := ⟨trivial, (some.inj hline).symm⟩
  boundMono _ _ hle := hle
  boundCount row := by
    have hsome : (fromAlignment []).sideLineForRow side = some := rfl
    rw [linesAbove, hsome, filterMap_some, length_range]
    rfl
  covers range row line hline := by
    cases hline
    exact Iff.rfl

section
variable {alignment : List AlignedRun} {side : RunSide} {stop : ℕ}
  (h : Contiguous (alignment.map (·.range side)) 0 stop) (hne : alignment ≠ [])
include h hne

theorem line_back (hline : line < stop) :
    (fromAlignment alignment).sideLineForRow side
      ((fromAlignment alignment).rowForSideLine side line) = some line := by
  rw [sideLineForRow_eq hne, rowForSideLine_eq h hne]
  exact (lineAt_rowOf h (zero_le _) hline).1

theorem row_back (hline : (fromAlignment alignment).sideLineForRow side row = some line) :
    line < stop ∧ (fromAlignment alignment).rowForSideLine side line = row := by
  rw [sideLineForRow_eq hne] at hline
  rw [rowForSideLine_eq h hne]
  exact (lineAt_some h (zero_le _) hline).2

theorem row_past (hline : stop ≤ line) :
    (fromAlignment alignment).rowForSideLine side line = alignedRows alignment := by
  rw [rowForSideLine_eq h hne, rowOf_past h hline, zero_add]

theorem bound_succ (row : ℕ) :
    (fromAlignment alignment).sideLineLowerBound side (row + 1) =
      (fromAlignment alignment).sideLineLowerBound side row +
        ((fromAlignment alignment).sideLineForRow side row).isSome.toNat := by
  simp only [sideLineLowerBound_eq h hne, sideLineForRow_eq hne]
  exact boundAt_succ h (zero_le _)

theorem bound_count (row : ℕ) :
    (fromAlignment alignment).sideLineLowerBound side row =
      ((fromAlignment alignment).linesAbove side row).length := by
  induction row with
  | zero =>
    rw [sideLineLowerBound_eq h hne]
    exact boundAt_start h 0
  | succ row ih =>
    rw [bound_succ h hne, ih, linesAbove, linesAbove, range_succ, filterMap_append,
      length_append]
    cases hshown : (fromAlignment alignment).sideLineForRow side row <;> simp [hshown]

theorem bound_mono {row' : ℕ} (hle : row ≤ row') :
    (fromAlignment alignment).sideLineLowerBound side row ≤
      (fromAlignment alignment).sideLineLowerBound side row' := by
  induction hle with
  | refl => exact le_refl _
  | step _ ih => exact le_trans ih (by rw [succ_eq_add_one, bound_succ h hne]; omega)

omit h in
theorem bound_shown {row line : ℕ}
    (hline : (fromAlignment alignment).sideLineForRow side row = some line) :
    (fromAlignment alignment).sideLineLowerBound side row = line ∧ row < alignedRows alignment := by
  have hid : (fromAlignment alignment).isIdentity = false := by
    rw [isIdentity_fromAlignment, isEmpty_eq_false_iff.mpr hne]
  rw [sideLineForRow, hid, if_neg Bool.false_ne_true] at hline
  obtain ⟨run, hrun, hline⟩ := bind_eq_some_iff.mp hline
  rw [sideLineLowerBound, hid, if_neg Bool.false_ne_true, hrun]
  split_ifs at hline with hshown
  refine ⟨?_, ?_⟩
  · have hmin := min_eq_left (le_of_lt hshown)
    exact (congrArg (run.starts.at side + ·) hmin).trans (some.inj hline)
  · rw [runForRow] at hrun
    split_ifs at hrun with hpast
    exact Nat.lt_of_not_le hpast

theorem row_lt_iff (other : ℕ)
    (hline : (fromAlignment alignment).sideLineForRow side row = some line) :
    row < (fromAlignment alignment).rowForSideLine side other ↔ line < other := by
  obtain ⟨hbound, hinside⟩ := bound_shown hne hline
  by_cases hother : other < stop
  · have hback := line_back h hne hother
    have hbound' := (bound_shown hne hback).1
    constructor
    · intro hlt
      have hle := bound_mono h hne (le_of_lt hlt)
      refine lt_of_le_of_ne (by omega) ?_
      rintro rfl
      exact absurd hlt (by rw [(row_back h hne hline).2]; exact lt_irrefl _)
    · intro hlt
      by_contra hle
      have := bound_mono h hne (Nat.le_of_not_lt hle)
      omega
  · have hlt := (row_back h hne hline).1
    rw [row_past h hne (Nat.le_of_not_lt hother)]
    exact iff_of_true hinside (by omega)

theorem lt_row_iff (other : ℕ)
    (hline : (fromAlignment alignment).sideLineForRow side row = some line) :
    (fromAlignment alignment).rowForSideLine side other < row ↔ other < line := by
  obtain ⟨hlt, hrow⟩ := row_back h hne hline
  have hahead := row_lt_iff h hne other hline
  constructor
  · intro hbefore
    by_contra hle
    rcases lt_or_eq_of_le (Nat.le_of_not_lt hle) with hlt | rfl
    · have := hahead.mpr hlt
      omega
    · omega
  · intro hbefore
    have hother := row_lt_iff h hne line (line_back h hne (lt_trans hbefore hlt))
    rw [hrow] at hother
    exact hother.mpr hbefore

theorem range_covers (range : LineRange)
    (hline : (fromAlignment alignment).sideLineForRow side row = some line) :
    ((fromAlignment alignment).alignedRangeForSideRange side range).start ≤ row ∧
        row < ((fromAlignment alignment).alignedRangeForSideRange side range).stop ↔
      range.start ≤ line ∧ line < range.stop := by
  have hid : (fromAlignment alignment).isIdentity = false := by
    rw [isIdentity_fromAlignment, isEmpty_eq_false_iff.mpr hne]
  have hfirst := row_lt_iff h hne range.start hline
  have hlast := lt_row_iff h hne (range.stop - 1) hline
  rw [alignedRangeForSideRange, hid, if_neg Bool.false_ne_true]
  split_ifs with hempty
  · simp only
    omega
  · simp only [lt_max_iff]
    omega

end

theorem aligned_map_inverse {alignment : List AlignedRun} {side : RunSide} {stop : ℕ}
    (h : Contiguous (alignment.map (·.range side)) 0 stop) :
    (fromAlignment alignment).Inverse side fun line => alignment = [] ∨ line < stop := by
  by_cases hne : alignment = []
  · subst hne
    have hid := identity_inverse side
    exact ⟨fun line _ => hid.lineBack line trivial,
      fun row line hline => ⟨.inl rfl, (hid.rowBack row line hline).2⟩, hid.boundMono,
      hid.boundCount, hid.covers⟩
  · exact
      { lineBack := fun line hline => line_back h hne (hline.resolve_left hne)
        rowBack := fun row line hline =>
          ⟨.inr (row_back h hne hline).1, (row_back h hne hline).2⟩
        boundMono := fun _ _ hle => bound_mono h hne hle
        boundCount := bound_count h hne
        covers := fun range _ _ hline => range_covers h hne range hline }

def paddedRuns : List AlignedRun :=
  [⟨⟨0, 1⟩, ⟨0, 3⟩, ⟨0, 0⟩, .conflict⟩, ⟨⟨1, 2⟩, ⟨3, 4⟩, ⟨0, 1⟩, .unchanged⟩]

theorem padded_runs_inverse :
    (fromAlignment paddedRuns).Inverse .ours fun line => paddedRuns = [] ∨ line < 4 :=
  aligned_map_inverse ⟨rfl, by decide, rfl, by decide, rfl⟩

end ThreeWayAlignedMap

end GitComet.Resolver
