import GitComet.FileDiff.PlanRows

namespace GitComet.FileDiff
open Slice Text List

structure DiffRowMeta where
  kind : RowKind
  oldLine : Option ℕ
  newLine : Option ℕ
  deriving DecidableEq

def FileDiffRow.rowMeta (row : FileDiffRow) : DiffRowMeta :=
  ⟨row.kind, row.oldLine, row.newLine⟩

section
variable {S : Type}

def metaRun (f : S → ℕ → DiffRowMeta → S) (st : S × ℕ) : PlanRun → S × ℕ
  | .context oldStart newStart len =>
    (range len).foldl (fun st offset =>
      let oldIx := satAdd oldStart offset
      let newIx := satAdd newStart offset
      (f st.1 st.2 ⟨.context, oneBasedLineNumber oldIx, oneBasedLineNumber newIx⟩,
        satAdd st.2 1)) st
  | .remove oldStart len =>
    (range len).foldl (fun st offset =>
      let oldIx := satAdd oldStart offset
      (f st.1 st.2 ⟨.remove, oneBasedLineNumber oldIx, none⟩, satAdd st.2 1)) st
  | .add newStart len =>
    (range len).foldl (fun st offset =>
      let newIx := satAdd newStart offset
      (f st.1 st.2 ⟨.add, none, oneBasedLineNumber newIx⟩, satAdd st.2 1)) st
  | .modify oldStart newStart len =>
    (range len).foldl (fun st offset =>
      let oldIx := satAdd oldStart offset
      let newIx := satAdd newStart offset
      (f st.1 st.2 ⟨.modify, oneBasedLineNumber oldIx, oneBasedLineNumber newIx⟩, satAdd st.2 1)) st

def forEachPlanRowMeta (plan : FileDiffPlan) (f : S → ℕ → DiffRowMeta → S) (s : S) : S :=
  (plan.runs.foldl (metaRun f) (s, 0)).1

end

structure FileDiffRowAnchor where
  rowIndex : ℕ
  regionId : Option ℕ
  ordinalInRegion : Option ℕ
  oldLine : Option ℕ
  newLine : Option ℕ
  deriving DecidableEq

structure FileDiffRegionAnchor where
  regionId : ℕ
  rowStart : ℕ
  rowEndExclusive : ℕ
  oldStartLine : Option ℕ
  oldEndLine : Option ℕ
  newStartLine : Option ℕ
  newEndLine : Option ℕ
  deriving DecidableEq

structure FileDiffAnchors where
  rowAnchors : List FileDiffRowAnchor
  regionAnchors : List FileDiffRegionAnchor
  deriving DecidableEq

structure ActiveRegion where
  regionId : ℕ
  rowStart : ℕ
  oldStartLine : Option ℕ
  oldEndLine : Option ℕ
  newStartLine : Option ℕ
  newEndLine : Option ℕ
  nextOrdinal : ℕ
  deriving DecidableEq

def ActiveRegion.start (regionId rowStart : ℕ) : ActiveRegion :=
  ⟨regionId, rowStart, none, none, none, none, 0⟩

def lowerLine (seen : Option ℕ) (line : ℕ) : Option ℕ := some (seen.elim line (min · line))
def upperLine (seen : Option ℕ) (line : ℕ) : Option ℕ := some (seen.elim line (max · line))

def ActiveRegion.updateLines (region : ActiveRegion) (row : DiffRowMeta) : ActiveRegion :=
  let region := match row.oldLine with
    | none => region
    | some oldLine =>
      { region with
        oldStartLine := lowerLine region.oldStartLine oldLine
        oldEndLine := upperLine region.oldEndLine oldLine }
  match row.newLine with
  | none => region
  | some newLine =>
    { region with
      newStartLine := lowerLine region.newStartLine newLine
      newEndLine := upperLine region.newEndLine newLine }

def ActiveRegion.asRegionAnchor (region : ActiveRegion) (rowEndExclusive : ℕ) :
    FileDiffRegionAnchor where
  regionId := region.regionId
  rowStart := region.rowStart
  rowEndExclusive := rowEndExclusive
  oldStartLine := region.oldStartLine
  oldEndLine := region.oldEndLine
  newStartLine := region.newStartLine
  newEndLine := region.newEndLine

structure FileDiffAnchorBuilder where
  rowAnchors : List FileDiffRowAnchor
  regionAnchors : List FileDiffRegionAnchor
  activeRegion : Option ActiveRegion
  deriving DecidableEq

def FileDiffAnchorBuilder.empty : FileDiffAnchorBuilder := ⟨[], [], none⟩

def FileDiffAnchorBuilder.push (builder : FileDiffAnchorBuilder) (rowIndex : ℕ)
    (row : DiffRowMeta) : FileDiffAnchorBuilder :=
  if row.kind = .context then
    { rowAnchors := builder.rowAnchors ++ [⟨rowIndex, none, none, row.oldLine, row.newLine⟩]
      regionAnchors := match builder.activeRegion with
        | none => builder.regionAnchors
        | some region => builder.regionAnchors ++ [region.asRegionAnchor rowIndex]
      activeRegion := none }
  else
    let region := builder.activeRegion.getD
      (.start (builder.regionAnchors.length % (u32Max + 1)) rowIndex)
    let region := region.updateLines row
    let ordinalInRegion := region.nextOrdinal
    { rowAnchors := builder.rowAnchors ++
        [⟨rowIndex, some region.regionId, some ordinalInRegion, row.oldLine, row.newLine⟩]
      regionAnchors := builder.regionAnchors
      activeRegion := some { region with nextOrdinal := satAdd32 region.nextOrdinal 1 } }

def FileDiffAnchorBuilder.finish (builder : FileDiffAnchorBuilder) (rowCount : ℕ) :
    FileDiffAnchors where
  rowAnchors := builder.rowAnchors
  regionAnchors := match builder.activeRegion with
    | none => builder.regionAnchors
    | some region => builder.regionAnchors ++ [region.asRegionAnchor rowCount]

def planRowRegionAnchors (plan : FileDiffPlan) : FileDiffAnchors :=
  (forEachPlanRowMeta plan FileDiffAnchorBuilder.push .empty).finish plan.rowCount

def computeRowRegionAnchors (rows : List FileDiffRow) : FileDiffAnchors :=
  (rows.zipIdx.foldl (fun builder entry => builder.push entry.2 entry.1.rowMeta)
    FileDiffAnchorBuilder.empty).finish rows.length

structure LinePrefixes where
  oldPrefix : List ℕ
  newPrefix : List ℕ
  oldCount : ℕ
  newCount : ℕ
  deriving DecidableEq

def LinePrefixes.start : LinePrefixes := ⟨[0], [0], 0, 0⟩

def LinePrefixes.count (st : LinePrefixes) (oldLine newLine : Option ℕ) : LinePrefixes :=
  let oldCount := if oldLine.isSome then satAdd st.oldCount 1 else st.oldCount
  let newCount := if newLine.isSome then satAdd st.newCount 1 else st.newCount
  ⟨st.oldPrefix ++ [oldCount], st.newPrefix ++ [newCount], oldCount, newCount⟩

def planEmittedLinePrefixCounts (plan : FileDiffPlan) : List ℕ × List ℕ :=
  let st := forEachPlanRowMeta plan (fun st _ row => st.count row.oldLine row.newLine)
    LinePrefixes.start
  (st.oldPrefix, st.newPrefix)

def emittedLinePrefixCountsFromRows (rows : List FileDiffRow) : List ℕ × List ℕ :=
  let st := rows.foldl (fun st row => st.count row.oldLine row.newLine) LinePrefixes.start
  (st.oldPrefix, st.newPrefix)

def markChangedLine (mask : List Bool) (line : Option ℕ) : List Bool :=
  match line with
  | none => mask
  | some line => mask.set (line - 1) true

def markRow (masks : List Bool × List Bool) (kind : RowKind) (oldLine newLine : Option ℕ) :
    List Bool × List Bool :=
  match kind with
  | .context => masks
  | .remove => (markChangedLine masks.1 oldLine, masks.2)
  | .add => (masks.1, markChangedLine masks.2 newLine)
  | .modify => (markChangedLine masks.1 oldLine, markChangedLine masks.2 newLine)

def planChangedLineMasks (plan : FileDiffPlan) (oldLineCount newLineCount : ℕ) :
    List Bool × List Bool :=
  forEachPlanRowMeta plan (fun masks _ row => markRow masks row.kind row.oldLine row.newLine)
    (replicate oldLineCount false, replicate newLineCount false)

def changedLineMasksFromRows (rows : List FileDiffRow) (oldLineCount newLineCount : ℕ) :
    List Bool × List Bool :=
  rows.foldl (fun masks row => markRow masks row.kind row.oldLine row.newLine)
    (replicate oldLineCount false, replicate newLineCount false)

def assignLineToRow (lineToRow : List (Option ℕ)) (line : Option ℕ) (rowIndex : ℕ) :
    List (Option ℕ) :=
  match line with
  | none => lineToRow
  | some line => lineToRow.set (line - 1) (some rowIndex)

def assignRow (maps : List (Option ℕ) × List (Option ℕ)) (rowIndex : ℕ)
    (oldLine newLine : Option ℕ) : List (Option ℕ) × List (Option ℕ) :=
  (assignLineToRow maps.1 oldLine rowIndex, assignLineToRow maps.2 newLine rowIndex)

def planLineToRowMaps (plan : FileDiffPlan) (oldLineCount newLineCount : ℕ) :
    List (Option ℕ) × List (Option ℕ) :=
  forEachPlanRowMeta plan (fun maps rowIndex row => assignRow maps rowIndex row.oldLine row.newLine)
    (replicate oldLineCount none, replicate newLineCount none)

def lineToRowMapsFromRows (rows : List FileDiffRow) (oldLineCount newLineCount : ℕ) :
    List (Option ℕ) × List (Option ℕ) :=
  rows.zipIdx.foldl
    (fun maps entry => assignRow maps entry.2 entry.1.oldLine entry.1.newLine)
    (replicate oldLineCount none, replicate newLineCount none)

def PlanRow.rowMeta (row : PlanRow) : DiffRowMeta := ⟨row.kind, row.oldNumber, row.newNumber⟩

section
variable {S : Type}

def stepMeta (f : S → ℕ → DiffRowMeta → S) (st : S × ℕ) (row : DiffRowMeta) : S × ℕ :=
  (f st.1 st.2 row, satAdd st.2 1)

theorem metaRun_rows {run : PlanRun} (h : RunFits run) (f : S → ℕ → DiffRowMeta → S) (st : S × ℕ) :
    metaRun f st run = run.rows.foldl (fun st row => stepMeta f st row.rowMeta) st := by
  cases run with
  | context o n len =>
    refine foldl_rows (fun i hi st => ?_) st
    obtain ⟨ho, hn⟩ := h.context hi
    simp only [ho, hn]
    rfl
  | remove o len =>
    refine foldl_rows (fun i hi st => ?_) st
    simp only [h.remove hi]
    rfl
  | add n len =>
    refine foldl_rows (fun i hi st => ?_) st
    simp only [h.add hi]
    rfl
  | modify o n len =>
    refine foldl_rows (fun i hi st => ?_) st
    obtain ⟨ho, hn⟩ := h.modify hi
    simp only [ho, hn]
    rfl

theorem foldl_stepMeta (f : S → ℕ → DiffRowMeta → S) (metas : List DiffRowMeta) (s : S) (k : ℕ)
    (hk : k + metas.length ≤ usizeMax) :
    metas.foldl (stepMeta f) (s, k) =
      ((metas.zipIdx k).foldl (fun s entry => f s entry.2 entry.1) s, k + metas.length) := by
  induction metas generalizing s k with
  | nil => rfl
  | cons row metas ih =>
    simp only [length_cons] at hk
    have hnext : satAdd k 1 = k + 1 := satAdd_eq (by omega)
    simp only [foldl_cons, zipIdx_cons, stepMeta, hnext, length_cons]
    rw [ih _ _ (by omega)]
    congr 1
    omega

theorem foldl_zipIdx_fst {α : Type} (g : S → α → S) (xs : List α) (s : S) (k : ℕ) :
    (xs.zipIdx k).foldl (fun s entry => g s entry.1) s = xs.foldl g s := by
  induction xs generalizing s k with
  | nil => rfl
  | cons x xs ih =>
    simp only [zipIdx_cons, foldl_cons]
    exact ih _ _

end

end GitComet.FileDiff
