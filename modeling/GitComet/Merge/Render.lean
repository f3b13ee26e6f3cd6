import Mathlib.Data.List.DropRight
import GitComet.Merge.Complete

namespace GitComet.Merge
open Slice Text Columns List Option

def MergePlan.sourceLines (plan : MergePlan) (source : MergeSource) : List Line :=
  (planTexts plan.base plan.ours plan.theirs).sources.lines source

def MergePlan.blockSourceLines (plan : MergePlan) (block : MergeBlock) (source : MergeSource) :
    Option (List Line) := do
  let rows ← sliceOf plan.rows block.rows.start block.rows.stop
  some (rows.filterMap fun row => cellText (plan.sourceLines source) (row.line source))

def MergePlan.selectionLines (plan : MergePlan) (block : MergeBlock) :
    List MergeSource → Option (List Line)
  | [] => some []
  | source :: sources => do
    let lines ← plan.blockSourceLines block source
    let rest ← plan.selectionLines block sources
    some (lines ++ rest)

def MergePlan.selectedLinesOf (plan : MergePlan) : List MergeBlock → Option (List Line)
  | [] => some []
  | block :: blocks => do
    let lines ← plan.selectionLines block block.selection.sources
    let rest ← plan.selectedLinesOf blocks
    some (lines ++ rest)

def MergePlan.selectedLines (plan : MergePlan) : Option (List Line) :=
  plan.selectedLinesOf plan.blocks

structure CleanMerge (plan : MergePlan) (lines : List Line) : Prop where
  unresolved : plan.unresolvedBlocks = []
  single : ∀ block ∈ plan.blocks, ∃ source, block.selection.sources = [source]
  selected : plan.selectedLines = some lines

def Follows (texts : Sources) (target : MergeSource) (row : AlignedRow) : Prop :=
  ∃ kind source, classify true row = .select kind source ∧
    row.text texts source = row.text texts target

theorem select_sources (kind : MergeBlockClassification) (source : MergeSource) :
    (RowDecision.select kind source).selection.sources = [source] := rfl

variable {row : AlignedRow}

theorem sameBlockKind_select {kind kind' : MergeBlockClassification} {source source' : MergeSource}
    {row' : AlignedRow}
    (h : sameBlockKind (.select kind source) (.select kind' source') row row') :
    source = source' := by
  have hconflict : (RowDecision.select kind source).conflict = false := rfl
  have hconflict' : (RowDecision.select kind' source').conflict = false := rfl
  have hdelta : ∀ k s, (RowDecision.select k s).isDelta = decide (s ≠ .a) := by
    intro k s
    simp [RowDecision.isDelta, select_sources]
  simp only [sameBlockKind, hconflict, hconflict', Bool.false_and, Bool.false_eq_true, if_false,
    Bool.not_false, Bool.true_and, hdelta] at h
  split at h
  · simp only [Bool.and_eq_true, decide_eq_true_eq] at h
    have := congrArg OrderedSelection.sources h.1
    simpa [select_sources] using this
  · simp only [decide_not, Bool.not_not, Bool.and_eq_true, decide_eq_true_eq] at h
    rw [h.1, h.2]

variable {texts : Sources} {target : MergeSource}

theorem run_follows {run : List AlignedRow}
    (hrun : RowRun true run) (h : ∀ row ∈ run, Follows texts target row) :
    ∃ kind source, headDecision true run = .select kind source ∧
      ∀ row ∈ run, row.text texts source = row.text texts target := by
  obtain ⟨hne, hchain⟩ := hrun
  induction run with
  | nil => exact absurd rfl hne
  | cons row run ih =>
    obtain ⟨kind, source, hclass, htext⟩ := h row mem_cons_self
    refine ⟨kind, source, hclass, ?_⟩
    cases run with
    | nil =>
      intro r hr
      rw [mem_singleton.mp hr]
      exact htext
    | cons next run =>
      obtain ⟨hkind, hchain⟩ := isChain_cons_cons.mp hchain
      obtain ⟨kind', source', hhead, hrest⟩ := ih (fun r hr => h r (mem_cons_of_mem _ hr))
        (by simp) hchain
      have hnext : classify true next = .select kind' source' := hhead
      rw [hclass, hnext] at hkind
      obtain rfl := sameBlockKind_select hkind
      intro r hr
      rcases mem_cons.mp hr with rfl | hr
      · exact htext
      · exact hrest r hr

theorem blockSourceLines_run {p : MergePlan} {b : MergeBlock} {done run rest : List AlignedRow}
    (hrows : p.rows = done ++ (run ++ rest))
    (hrange : b.rows = ⟨done.length, done.length + run.length⟩) (source : MergeSource) :
    p.blockSourceLines b source = some (run.filterMap fun row =>
      row.text (planTexts p.base p.ours p.theirs).sources source) := by
  have hslice : sliceOf p.rows b.rows.start b.rows.stop = some run := by
    rw [hrows, hrange, sliceOf_eq (Nat.le_add_right _ _) (by simp)]
    simp [slice]
  simp only [MergePlan.blockSourceLines, hslice, bind_eq_bind, bind_some]
  rfl

theorem selectedLinesOf_runs {plan : MergePlan}
    (htexts : (planTexts plan.base plan.ours plan.theirs).sources = texts)
    {runs : List (List AlignedRow)} : ∀ {blocks : List MergeBlock} {d : List AlignedRow},
      BlocksOf texts true d.length runs blocks → plan.rows = d ++ runs.flatten →
      (∀ run ∈ runs, RowRun true run) → (∀ row ∈ runs.flatten, Follows texts target row) →
      plan.selectedLinesOf blocks = some (runs.flatten.filterMap fun row => row.text texts target) ∧
        ∀ block ∈ blocks, block.isResolved ∧
          ∃ source, block.selection.sources = [source] := by
  induction runs with
  | nil =>
    intro blocks d h _ _ _
    cases h
    exact ⟨rfl, by simp⟩
  | cons run runs ih =>
    intro blocks d h hrows hruns hfollows
    cases h with
    | @cons _ _ _ block blocks hblock hrest =>
      obtain ⟨occurrences, rfl⟩ := hblock.finished
      obtain ⟨kind, source, hhead, htext⟩ := run_follows (hruns run mem_cons_self)
        fun row hrow => hfollows row (mem_flatten_of_mem mem_cons_self hrow)
      obtain ⟨hlines, hblocks⟩ := ih (d := d ++ run) (by rwa [length_append])
        (by rw [hrows, flatten_cons, append_assoc])
        (fun r hr => hruns r (mem_cons_of_mem _ hr))
        (fun row hrow => hfollows row (by
          rw [flatten_cons]
          exact mem_append_right _ hrow))
      rw [hhead]
      refine ⟨?_, ?_⟩
      · have hsource := blockSourceLines_run (p := plan) (b := finishBlock texts true
          ⟨d.length, d.length + run.length⟩ (.select kind source) run occurrences)
          (by rw [hrows, flatten_cons]) rfl source
        rw [htexts, filterMap_congr htext] at hsource
        have hsel : (finishBlock texts true ⟨d.length, d.length + run.length⟩
            (.select kind source) run occurrences).selection.sources = [source] := rfl
        simp only [MergePlan.selectedLinesOf, hsel, MergePlan.selectionLines, hsource, hlines,
          bind_eq_bind, bind_some, append_nil, flatten_cons,
          filterMap_append]
      · intro block hblock
        rcases mem_cons.mp hblock with rfl | hblock
        · exact ⟨rfl, source, rfl⟩
        · exact hblocks block hblock

theorem filterMap_getElem? {α : Type} (xs : List α) :
    (range xs.length).filterMap (fun i => xs[i]?) = xs := by
  induction xs with
  | nil => rfl
  | cons x xs ih =>
    rw [length_cons, range_succ_eq_map, filterMap_cons, filterMap_map]
    exact congrArg (x :: ·) ih

variable {rows : List AlignedRow}

theorem complete_texts (h : CompleteRows texts rows)
    (s : MergeSource) : rows.filterMap (fun row => row.text texts s) = texts.lines s := by
  have heq : rows.filterMap (fun row => row.text texts s) =
      (rows.filterMap fun row => row.line s).filterMap fun i => (texts.lines s)[i]? := by
    rw [filterMap_filterMap]
    rfl
  rw [heq, (h s).eq, ← range_eq_range']
  exact filterMap_getElem? _

theorem line_lt (h : CompleteRows texts rows) (hrow : row ∈ rows) {s : MergeSource} {line : ℕ}
    (hline : row.line s = some line) : line < (texts.lines s).length :=
  ((covers_mem (h s)).mp ⟨row, hrow, hline⟩).2

theorem text_isSome (h : CompleteRows texts rows) (hrow : row ∈ rows) (s : MergeSource) :
    (row.text texts s).isSome = (row.line s).isSome := by
  rw [AlignedRow.text, cellText]
  cases hline : row.line s with
  | none => rfl
  | some line =>
    rw [bind_some, getElem?_eq_getElem (line_lt h hrow hline)]
    rfl

theorem plan_clean {plan : MergePlan}
    (htexts : (planTexts plan.base plan.ours plan.theirs).sources = texts)
    (hrows : CompleteRows texts plan.rows)
    (hblocks : buildBlocks texts true plan.rows = some plan.blocks)
    (hunresolved : plan.unresolvedBlocks = unresolvedBlocks plan.blocks)
    (hfollows : ∀ row ∈ plan.rows, Follows texts target row) :
    CleanMerge plan (texts.lines target) := by
  obtain ⟨blocks, runs, hbuild, hflat, hruns, hof⟩ := buildBlocks_spec texts true plan.rows
  obtain rfl := Option.some.inj (hblocks.symm.trans hbuild)
  rw [← hflat] at hfollows
  obtain ⟨hlines, hall⟩ := selectedLinesOf_runs (d := []) htexts hof hflat.symm hruns hfollows
  refine ⟨?_, fun block hblock => (hall block hblock).2, ?_⟩
  · rw [hunresolved, eq_nil_iff_forall_not_mem]
    intro index hindex
    obtain ⟨block, hblock, hres⟩ := mem_unresolvedBlocks.mp hindex
    rw [(hall block (mem_of_getElem? hblock)).1] at hres
    cases hres
  · rw [MergePlan.selectedLines, hlines, hflat, complete_texts hrows]

end GitComet.Merge

namespace GitComet.Merge
open Slice CommonPrefix Text

structure MergeResult where
  output : List Char
  conflictCount : ℕ
  deriving DecidableEq

def MergePlan.hasBase (plan : MergePlan) : Bool := plan.base.isSome

def MergePlan.localSource (plan : MergePlan) : MergeSource := if plan.hasBase then .b else .a

def MergePlan.remoteSource (plan : MergePlan) : MergeSource := if plan.hasBase then .c else .b

def anchorRow (row : AlignedRow) : Bool := row.equalAb && row.equalAc

def MergePlan.blockAncestorLines (plan : MergePlan) (block : MergeBlock) : Option (List Line) :=
  if plan.hasBase then do
    let before ← sliceOf plan.rows 0 block.rows.start
    let after ← sliceOf plan.rows block.rows.stop plan.rows.length
    let lines := plan.sourceLines .a
    let start := ((before.reverse.find? anchorRow).bind (·.a)).elim 0 (· + 1)
    let stop := ((after.find? anchorRow).bind (·.a)).getD lines.length
    sliceOf lines (min start stop) stop
  else some []

def emitLines (lines : List Line) (lineEnding : List Char) : List Char :=
  (lines.map (· ++ lineEnding)).flatten

def emitMarker (ch : Char) (size : ℕ) (label : Option (List Char)) (lineEnding : List Char) :
    List Char :=
  List.replicate size ch ++ label.elim [] (' ' :: ·) ++ lineEnding

def commonPrefixSuffixLines (a b : List Line) : ℕ × ℕ := commonEnds a b

def baseCommonPrefixLen (base side : List Line) : ℕ := commonPrefix base side

def baseCommonSuffixLen (base side : List Line) : ℕ := commonSuffix base side

def emitMergeMarkers (ours theirs : List Line) (options : MergeOptions) (lineEnding : List Char) :
    List Char :=
  emitMarker '<' options.markerSize options.labels.ours lineEnding ++ emitLines ours lineEnding ++
    (emitMarker '=' options.markerSize none lineEnding ++ emitLines theirs lineEnding ++
      emitMarker '>' options.markerSize options.labels.theirs lineEnding)

def emitDiff3Markers (ours theirs base : List Line) (options : MergeOptions)
    (lineEnding : List Char) : List Char :=
  emitMarker '<' options.markerSize options.labels.ours lineEnding ++ emitLines ours lineEnding ++
    (emitMarker '|' options.markerSize options.labels.base lineEnding ++
        emitLines base lineEnding ++
      (emitMarker '=' options.markerSize none lineEnding ++ emitLines theirs lineEnding ++
        emitMarker '>' options.markerSize options.labels.theirs lineEnding))

def emitZdiff3Markers (ours theirs base : List Line) (options : MergeOptions)
    (lineEnding : List Char) : Option (List Char) := do
  let ends := commonPrefixSuffixLines ours theirs
  let hoisted ← sliceOf ours 0 ends.1
  let oursConflict ← sliceOf ours ends.1 (max (ours.length - ends.2) ends.1)
  let theirsConflict ← sliceOf theirs ends.1 (max (theirs.length - ends.2) ends.1)
  let trailing ← sliceOf ours (ours.length - ends.2) ours.length
  let baseStart := min (baseCommonPrefixLen base hoisted) base.length
  let baseEnd := max (base.length - baseCommonSuffixLen base trailing) baseStart
  let baseConflict ← sliceOf base baseStart baseEnd
  some (emitLines hoisted lineEnding ++
    (emitDiff3Markers oursConflict theirsConflict baseConflict options lineEnding ++
      emitLines trailing lineEnding))

def emitConflictMarkers (ours theirs base : List Line) (options : MergeOptions)
    (lineEnding : List Char) : Option (List Char) :=
  match options.style with
  | .zdiff3 => emitZdiff3Markers ours theirs base options lineEnding
  | .diff3 => some (emitDiff3Markers ours theirs base options lineEnding)
  | .merge => some (emitMergeMarkers ours theirs options lineEnding)

def renderPlanConflict (plan : MergePlan) (block : MergeBlock) (options : MergeOptions) :
    Option (List Char) := do
  let ours ← plan.blockSourceLines block plan.localSource
  let theirs ← plan.blockSourceLines block plan.remoteSource
  let base ← plan.blockAncestorLines block
  if plan.hasBase then emitConflictMarkers ours theirs base options plan.lineEnding
  else emitConflictMarkers ours theirs [] { options with style := .merge } plan.lineEnding

def appendPlanSources (plan : MergePlan) (block : MergeBlock) :
    List MergeSource → Option (List Char)
  | [] => some []
  | source :: sources => do
    let lines ← plan.blockSourceLines block source
    let rest ← appendPlanSources plan block sources
    some (emitLines lines plan.lineEnding ++ rest)

def strategySelection (plan : MergePlan) (options : MergeOptions) (block : MergeBlock) :
    Option OrderedSelection :=
  if block.selection.isEmpty then
    match options.strategy with
    | .normal => none
    | .ours => some (.fromSource plan.localSource)
    | .theirs => some (.fromSource plan.remoteSource)
    | .union => some (.fromSources [plan.localSource, plan.remoteSource])
  else some block.selection

def renderBlock (plan : MergePlan) (options : MergeOptions) (block : MergeBlock) :
    Option MergeResult :=
  match block.manualContent with
  | some manual => some ⟨manual, 0⟩
  | none =>
    match strategySelection plan options block with
    | some selection => (appendPlanSources plan block selection.sources).map (⟨·, 0⟩)
    | none => (renderPlanConflict plan block options).map (⟨·, 1⟩)

def renderBlocks (plan : MergePlan) (options : MergeOptions) :
    List MergeBlock → Option MergeResult
  | [] => some ⟨[], 0⟩
  | block :: blocks => do
    let head ← renderBlock plan options block
    let rest ← renderBlocks plan options blocks
    some ⟨head.output ++ rest.output, head.conflictCount + rest.conflictCount⟩

def hasTrailing (text : List Char) : Bool := text.isEmpty || endsWithNewline text

def outputLast (output : List Char) : Line :=
  ((output.rdropWhile (· == '\n')).rdropWhile (· == '\r')).rtakeWhile (· != '\n')

def lastMatches (lines : List Line) (last : Line) : Bool := decide (lines.getLast? = some last)

def wantTrailing (last : Line) (baseText : List Char) (baseLines : List Line)
    (oursText : List Char) (oursLines : List Line) (theirsText : List Char)
    (theirsLines : List Line) : Bool :=
  let oursHas := hasTrailing oursText
  let theirsHas := hasTrailing theirsText
  let baseHas := hasTrailing baseText
  let baseLast := lastMatches baseLines last
  if lastMatches oursLines last && lastMatches theirsLines last then
    if oursHas = theirsHas then oursHas
    else if baseLast && decide (baseHas = theirsHas) then oursHas
    else if baseLast && decide (baseHas = oursHas) then theirsHas
    else oursHas
  else if lastMatches oursLines last then oursHas
  else if lastMatches theirsLines last then theirsHas
  else if baseLast then baseHas
  else true

def truncateLineEnding (output : List Char) : List Char :=
  if ['\r', '\n'].isSuffixOf output then output.take (output.length - 2)
  else if ['\n'].isSuffixOf output then output.take (output.length - 1)
  else output

def applyTrailingNewlineDecision (output baseText : List Char) (baseLines : List Line)
    (oursText : List Char) (oursLines : List Line) (theirsText : List Char)
    (theirsLines : List Line) : List Char :=
  if wantTrailing (outputLast output) baseText baseLines oursText oursLines theirsText theirsLines
  then output
  else truncateLineEnding output

def MergePlan.finalBlockIsManual (plan : MergePlan) : Bool :=
  (plan.blocks.getLast?.bind (·.manualContent)).isSome

def renderMergePlan (plan : MergePlan) (options : MergeOptions) : Option MergeResult := do
  let rendered ← renderBlocks plan options plan.blocks
  if plan.finalBlockIsManual then some rendered
  else
    let baseLines := if plan.hasBase then plan.sourceLines .a else []
    some ⟨applyTrailingNewlineDecision rendered.output (plan.base.getD []) baseLines plan.ours
      (plan.sourceLines plan.localSource) plan.theirs (plan.sourceLines plan.remoteSource),
      rendered.conflictCount⟩

def mergeFileWithOptionalBase (base : Option (List Char)) (ours theirs : List Char)
    (options : MergeOptions) : Option MergeResult := do
  let plan ← buildMergePlanWithOptionalBase base ours theirs options
  renderMergePlan plan options

def mergeFile (base ours theirs : List Char) (options : MergeOptions) : Option MergeResult :=
  mergeFileWithOptionalBase (some base) ours theirs options

end GitComet.Merge
