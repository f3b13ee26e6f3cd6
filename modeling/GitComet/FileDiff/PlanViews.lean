import GitComet.FileDiff.PlanMeta

namespace GitComet.FileDiff
open Slice Text List Nat Option

structure RowContent where
  kind : RowKind
  oldLine : Option ℕ
  newLine : Option ℕ
  oldText : Option (List Char)
  newText : Option (List Char)
  deriving DecidableEq

def FileDiffRow.content (row : FileDiffRow) : RowContent :=
  ⟨row.kind, row.oldLine, row.newLine, row.old, row.new⟩

def PlanRowView.content (view : PlanRowView) : RowContent :=
  match view with
  | .context oldLine newLine text =>
    ⟨view.kind, some oldLine, some newLine, some text, some text⟩
  | .remove oldLine text => ⟨view.kind, some oldLine, none, some text, none⟩
  | .add newLine text => ⟨view.kind, none, some newLine, none, some text⟩
  | .modify oldLine newLine oldText newText =>
    ⟨view.kind, some oldLine, some newLine, some oldText, some newText⟩

def streamedRows (replacementPairCost : List Char → List Char → UInt32) (old new : Str) :
    Option (List PlanRowView) :=
  forEachSideBySideRow replacementPairCost old new (fun views view => views ++ [view]) []

structure HelpersAgree (plan : FileDiffPlan) (rows : List FileDiffRow) : Prop where
  rowCount : plan.rowCount = rows.length
  anchors : planRowRegionAnchors plan = computeRowRegionAnchors rows
  masks : ∀ oldLineCount newLineCount : ℕ, planChangedLineMasks plan oldLineCount newLineCount =
    changedLineMasksFromRows rows oldLineCount newLineCount
  maps : ∀ oldLineCount newLineCount : ℕ, planLineToRowMaps plan oldLineCount newLineCount =
    lineToRowMapsFromRows rows oldLineCount newLineCount
  prefixes : planEmittedLinePrefixCounts plan = emittedLinePrefixCountsFromRows rows

structure ViewsAgree (replacementPairCost : List Char → List Char → UInt32) (old new : Str) :
    Prop where
  helpers : ∃ plan rows, sideBySidePlan replacementPairCost old new = some plan ∧
    sideBySideRows replacementPairCost old new = some rows ∧ HelpersAgree plan rows
  streamed : ∃ rows views, sideBySideRows replacementPairCost old new = some rows ∧
    streamedRows replacementPairCost old new = some views ∧
    views.map PlanRowView.content = rows.map FileDiffRow.content

theorem rows_length_le (rows : List PlanRow) :
    rows.length ≤ (rows.filterMap PlanRow.oldLine).length +
      (rows.filterMap PlanRow.newLine).length := by
  induction rows with
  | nil => simp
  | cons row rows ih =>
    cases row <;> simp [PlanRow.oldLine, PlanRow.newLine, filterMap_cons] <;> omega

variable {row : PlanRow}

section
variable {old new : Str} {plan : FileDiffPlan}

section
variable (h : PlanTiles old.lines new.lines plan)
include h

variable {i : ℕ}

theorem old_index (hrow : row ∈ planRows plan.runs) (hi : row.oldLine = some i) :
    i < old.lines.length := by
  have hmem : i ∈ (planRows plan.runs).filterMap PlanRow.oldLine :=
    mem_filterMap.mpr ⟨row, hrow, hi⟩
  rw [h.oldLines] at hmem
  exact mem_range.mp hmem

theorem new_index (hrow : row ∈ planRows plan.runs) (hi : row.newLine = some i) :
    i < new.lines.length := by
  have hmem : i ∈ (planRows plan.runs).filterMap PlanRow.newLine :=
    mem_filterMap.mpr ⟨row, hrow, hi⟩
  rw [h.newLines] at hmem
  exact mem_range.mp hmem

theorem runs_fit {run : PlanRun} (hrun : run ∈ plan.runs) : RunFits run := by
  have hrow : ∀ row ∈ run.rows, row ∈ planRows plan.runs :=
    fun row hmem => mem_flatMap.mpr ⟨run, hrun, hmem⟩
  have ho := old.lines_bounded
  have hn := new.lines_bounded
  unfold isizeMax at ho hn
  constructor
  · intro row hmem i hi
    have := old_index h (hrow row hmem) hi
    unfold usizeMax
    omega
  · intro row hmem i hi
    have := new_index h (hrow row hmem) hi
    unfold usizeMax
    omega

theorem rows_fit : (planRows plan.runs).length ≤ usizeMax := by
  have hle := rows_length_le (planRows plan.runs)
  rw [h.oldLines, h.newLines, length_range, length_range] at hle
  have ho := old.lines_bounded
  have hn := new.lines_bounded
  unfold isizeMax at ho hn
  unfold usizeMax
  omega

variable {rows : List FileDiffRow}

theorem forEachPlanRowMeta_rows {S : Type}
    (hrows : rows.map FileDiffRow.rowMeta = (planRows plan.runs).map PlanRow.rowMeta)
    (f : S → ℕ → DiffRowMeta → S) (s : S) :
    forEachPlanRowMeta plan f s =
      rows.zipIdx.foldl (fun s entry => f s entry.2 entry.1.rowMeta) s := by
  have hwalk := foldl_runs (w := metaRun f) (g := fun st row => stepMeta f st row.rowMeta)
    (fun run hrun st => metaRun_rows (runs_fit h hrun) f st) (s, 0)
  have hsteps := foldl_stepMeta f ((planRows plan.runs).map PlanRow.rowMeta) s 0
    (by rw [length_map, zero_add]; exact rows_fit h)
  rw [foldl_map] at hsteps
  rw [forEachPlanRowMeta, hwalk, hsteps]
  simp only [← hrows, zipIdx_map, foldl_map]
  rfl

theorem helpers_agree
    (hrows : rows.map FileDiffRow.rowMeta = (planRows plan.runs).map PlanRow.rowMeta) :
    HelpersAgree plan rows := by
  have hlen : plan.rowCount = rows.length := by
    have := congrArg length hrows
    rw [length_map, length_map] at this
    rw [h.rowCount, this]
  refine ⟨hlen, ?_, fun m n => ?_, fun m n => ?_, ?_⟩
  · rw [planRowRegionAnchors, computeRowRegionAnchors, forEachPlanRowMeta_rows h hrows, hlen]
  · rw [planChangedLineMasks, changedLineMasksFromRows, forEachPlanRowMeta_rows h hrows]
    exact foldl_zipIdx_fst (fun masks row => markRow masks row.kind row.oldLine row.newLine) rows
      _ 0
  · rw [planLineToRowMaps, lineToRowMapsFromRows, forEachPlanRowMeta_rows h hrows]
    rfl
  · rw [planEmittedLinePrefixCounts, emittedLinePrefixCountsFromRows,
      forEachPlanRowMeta_rows h hrows]
    simp only [FileDiffRow.rowMeta]
    rw [foldl_zipIdx_fst (fun st row => LinePrefixes.count st row.oldLine row.newLine) rows]

end

end

section
variable {α : Type} [DecidableEq α] {oldText newText : List Char} {old new : List α}
  {plan : FileDiffPlan}

theorem buildSideBySidePlan_eofNewline {pairCost : α → α → UInt32}
    (h : buildSideBySidePlan pairCost oldText newText old new = some plan) :
    plan.eofNewline = eofNewlineDelta oldText newText := by
  unfold buildSideBySidePlan at h
  split at h
  · simp only [buildLinearFallbackSideBySidePlan, bind_eq_bind, bind_eq_some_iff,
      some.injEq] at h
    obtain ⟨st, _, rfl⟩ := h
    rfl
  split at h
  · rename_i sparse hsparse
    cases h
    unfold buildSparsePositionalSideBySidePlan at hsparse
    split at hsparse
    · simp at hsparse
    split at hsparse
    · simp at hsparse
    simp only [bind_eq_bind, bind_eq_some_iff, some.injEq] at hsparse
    obtain ⟨st, _, rfl⟩ := hsparse
    rfl
  · simp only [bind_eq_bind, bind_eq_some_iff, some.injEq] at h
    obtain ⟨edits, _, st, _, rfl⟩ := h
    rfl

end

theorem chars_empty {text : Str} (h : text.lines = []) : text.chars = [] := by
  have hsplit : splitInclusive text.chars = [] := map_eq_nil_iff.mp h
  have hflat := splitInclusive_flatten text.chars
  rw [hsplit] at hflat
  exact hflat.symm

theorem no_marker_without_rows {old new : Str} {cost : List Char → List Char → UInt32}
    {plan : FileDiffPlan} (hplan : sideBySidePlan cost old new = some plan)
    (h : PlanTiles old.lines new.lines plan) (hrows : planRows plan.runs = []) :
    plan.eofNewline = none := by
  have hold := h.oldLines
  have hnew := h.newLines
  rw [hrows] at hold hnew
  have ho : old.lines = [] := by
    have := congrArg length hold
    simpa using this.symm
  have hn : new.lines = [] := by
    have := congrArg length hnew
    simpa using this.symm
  rw [buildSideBySidePlan_eofNewline hplan, chars_empty ho, chars_empty hn]
  rfl

def plainRows (old new : Str) (plan : FileDiffPlan) : List FileDiffRow :=
  (planRows plan.runs).map (PlanRow.materialized old.lines new.lines 0 0)

def markLastRow (marker : Option EofNewline) (rows : List FileDiffRow) : List FileDiffRow :=
  match marker, rows.getLast? with
  | some marker, some last => rows.dropLast ++ [{ last with eofNewline := some marker }]
  | _, _ => rows

theorem markLastRow_map {β : Type} (g : FileDiffRow → β)
    (hg : ∀ row marker, g { row with eofNewline := marker } = g row) (marker : Option EofNewline)
    (rows : List FileDiffRow) : (markLastRow marker rows).map g = rows.map g := by
  unfold markLastRow
  split
  · rename_i marker last hlast
    rw [map_append, map_singleton, hg]
    conv => rhs; rw [← dropLast_append_getLast? _ hlast]
    rw [map_append, map_singleton]
  · rfl

theorem materialized_rows {old new : Str} {cost : List Char → List Char → UInt32}
    {plan : FileDiffPlan} (hplan : sideBySidePlan cost old new = some plan)
    (h : PlanTiles old.lines new.lines plan) :
    sideBySideRows cost old new = some (markLastRow plan.eofNewline (plainRows old new plan)) := by
  have hwalk := foldl_runs (w := materializeRun old.lines new.lines 0 0)
    (fun run hrun rows => materializeRun_rows (runs_fit h hrun) 0 0 rows) []
  rw [foldl_snoc_map, nil_append] at hwalk
  have hbuild : buildSideBySidePlan cost old.chars new.chars old.lines new.lines = some plan :=
    hplan
  have hnone := no_marker_without_rows hplan h
  simp only [sideBySideRows, hbuild, bind_eq_bind, bind_some,
    materializeRowsFromPlan, materializeRowsFromPlanInto, length_nil, drop_zero, hwalk,
    some.injEq]
  cases hmark : plan.eofNewline with
  | none => rfl
  | some marker =>
    cases hlast : (plainRows old new plan).getLast? with
    | none =>
      have hempty := map_eq_nil_iff.mp (getLast?_eq_none_iff.mp hlast)
      rw [hnone hempty] at hmark
      cases hmark
    | some last =>
      have hlast' := hlast
      simp only [plainRows] at hlast'
      simp only [markLastRow, hlast, hlast']
      rfl

theorem streamed_rows {S : Type} {old new : Str} {cost : List Char → List Char → UInt32}
    {plan : FileDiffPlan} (hplan : sideBySidePlan cost old new = some plan)
    (h : PlanTiles old.lines new.lines plan) (f : S → PlanRowView → S) (s : S) :
    forEachSideBySideRow cost old new f s =
      some (((planRows plan.runs).filterMap (PlanRow.view old.lines new.lines)).foldl f s) := by
  have hbuild : buildSideBySidePlan cost old.chars new.chars old.lines new.lines = some plan :=
    hplan
  have hwalk := foldl_runs (w := streamRun old.lines new.lines f)
    (fun run hrun s => streamRun_rows (runs_fit h hrun) f s) s
  simp only [forEachSideBySideRow, hbuild, bind_eq_bind, bind_some]
  rw [hwalk, foldl_visit]

theorem oneBasedLineNumber_add_zero (ix : ℕ) :
    (oneBasedLineNumber ix).map (satAdd32 · 0) = oneBasedLineNumber ix := by
  unfold oneBasedLineNumber
  split
  · rename_i hle
    simp [satAdd32, hle]
  · rfl

theorem number_add_zero (line : Option ℕ) :
    (line.bind oneBasedLineNumber).map (satAdd32 · 0) = line.bind oneBasedLineNumber := by
  cases line with
  | none => rfl
  | some ix => exact oneBasedLineNumber_add_zero ix

theorem materialized_rowMeta (oldLines newLines : List (List Char)) (row : PlanRow) :
    (row.materialized oldLines newLines 0 0).rowMeta = row.rowMeta := by
  simp only [FileDiffRow.rowMeta, PlanRow.materialized, PlanRow.rowMeta, PlanRow.oldNumber,
    PlanRow.newNumber, number_add_zero]

def Numbered (row : PlanRow) : Prop :=
  ∀ i, row.oldLine = some i ∨ row.newLine = some i → i < u32Max

variable {ix : ℕ}

theorem oneBasedLineNumber_some (h : ix < u32Max) :
    oneBasedLineNumber ix = some (ix + 1) := if_pos h

theorem oneBasedLineNumber_none (h : ¬ ix < u32Max) : oneBasedLineNumber ix = none :=
  if_neg h

theorem view_content (oldLines newLines : List (List Char)) (h : Numbered row) :
    (row.view oldLines newLines).map PlanRowView.content =
      some (row.materialized oldLines newLines 0 0).content := by
  simp only [PlanRow.materialized, FileDiffRow.content, PlanRow.oldNumber, PlanRow.newNumber,
    number_add_zero]
  cases row with
  | context o n =>
    have ho := oneBasedLineNumber_some (h o (.inl rfl))
    have hn := oneBasedLineNumber_some (h n (.inr rfl))
    simp [PlanRow.view, ho, hn, PlanRowView.content, PlanRow.oldLine, PlanRow.newLine,
      PlanRow.oldText, PlanRow.newText, PlanRowView.kind, PlanRow.kind]
  | remove o =>
    have ho := oneBasedLineNumber_some (h o (.inl rfl))
    simp [PlanRow.view, ho, PlanRowView.content, PlanRow.oldLine, PlanRow.newLine,
      PlanRow.oldText, PlanRow.newText, PlanRowView.kind, PlanRow.kind]
  | add n =>
    have hn := oneBasedLineNumber_some (h n (.inr rfl))
    simp [PlanRow.view, hn, PlanRowView.content, PlanRow.oldLine, PlanRow.newLine,
      PlanRow.oldText, PlanRow.newText, PlanRowView.kind, PlanRow.kind]
  | modify o n =>
    have ho := oneBasedLineNumber_some (h o (.inl rfl))
    have hn := oneBasedLineNumber_some (h n (.inr rfl))
    simp [PlanRow.view, ho, hn, PlanRowView.content, PlanRow.oldLine, PlanRow.newLine,
      PlanRow.oldText, PlanRow.newText, PlanRowView.kind, PlanRow.kind]

theorem view_unnumbered (oldLines newLines : List (List Char))
    (h : ¬ Numbered row) : row.view oldLines newLines = none := by
  simp only [Numbered, not_forall] at h
  obtain ⟨i, hi, hlarge⟩ := h
  have hnone := oneBasedLineNumber_none hlarge
  cases row with
  | context o n =>
    obtain hi | hi := hi
    · cases hi
      simp [PlanRow.view, hnone]
    · cases hi
      simp only [PlanRow.view, hnone]
      cases oneBasedLineNumber o <;> rfl
  | remove o =>
    obtain hi | hi := hi
    · cases hi
      simp [PlanRow.view, hnone]
    · cases hi
  | add n =>
    obtain hi | hi := hi
    · cases hi
    · cases hi
      simp [PlanRow.view, hnone]
  | modify o n =>
    obtain hi | hi := hi
    · cases hi
      simp [PlanRow.view, hnone]
    · cases hi
      simp only [PlanRow.view, hnone]
      cases oneBasedLineNumber o <;> rfl

section
variable {old new : Str} {cost : List Char → List Char → UInt32} {plan : FileDiffPlan}

theorem rows_numbered (h : PlanTiles old.lines new.lines plan) :
    (∀ row ∈ planRows plan.runs, Numbered row) ↔
      old.lines.length ≤ u32Max ∧ new.lines.length ≤ u32Max := by
  constructor
  · intro hrows
    by_contra hlarge
    rw [not_and_or, not_le, not_le] at hlarge
    obtain hlarge | hlarge := hlarge
    · have hmem := mem_range.mpr hlarge
      rw [← h.oldLines] at hmem
      obtain ⟨row, hrow, hi⟩ := mem_filterMap.mp hmem
      exact lt_irrefl _ (hrows row hrow _ (.inl hi))
    · have hmem := mem_range.mpr hlarge
      rw [← h.newLines] at hmem
      obtain ⟨row, hrow, hi⟩ := mem_filterMap.mp hmem
      exact lt_irrefl _ (hrows row hrow _ (.inr hi))
  · rintro ⟨hold, hnew⟩ row hrow i (hi | hi)
    · exact lt_of_lt_of_le (old_index h hrow hi) hold
    · exact lt_of_lt_of_le (new_index h hrow hi) hnew

theorem plainRows_content (old new : Str) (plan : FileDiffPlan) :
    (markLastRow plan.eofNewline (plainRows old new plan)).map FileDiffRow.content =
      (planRows plan.runs).map fun row => (row.materialized old.lines new.lines 0 0).content := by
  rw [markLastRow_map _ (fun _ _ => rfl), plainRows, List.map_map]
  rfl

theorem streamed_content_iff (h : PlanTiles old.lines new.lines plan) :
    ((planRows plan.runs).filterMap (PlanRow.view old.lines new.lines)).map PlanRowView.content =
      (markLastRow plan.eofNewline (plainRows old new plan)).map FileDiffRow.content ↔
      old.lines.length ≤ u32Max ∧ new.lines.length ≤ u32Max := by
  rw [← rows_numbered h, plainRows_content]
  constructor
  · intro heq row hrow
    by_contra hlarge
    have hlen := congrArg length heq
    rw [length_map, length_map, filterMap_length_eq_length] at hlen
    have hsome := hlen row hrow
    rw [view_unnumbered _ _ hlarge] at hsome
    cases hsome
  · intro hrows
    rw [map_filterMap, ← filterMap_eq_map']
    exact filterMap_congr fun row hrow => view_content _ _ (hrows row hrow)

section
variable (hplan : sideBySidePlan cost old new = some plan)
include hplan

section
variable (h : PlanTiles old.lines new.lines plan)
include h

theorem streamed_views :
    streamedRows cost old new =
      some ((planRows plan.runs).filterMap (PlanRow.view old.lines new.lines)) := by
  rw [streamedRows, streamed_rows hplan h, foldl_snoc_map (fun view : PlanRowView => view)]
  simp

theorem helpers_agree_with_rows :
    ∃ plan rows, sideBySidePlan cost old new = some plan ∧
      sideBySideRows cost old new = some rows ∧ HelpersAgree plan rows := by
  refine ⟨plan, _, hplan, materialized_rows hplan h, helpers_agree h ?_⟩
  rw [markLastRow_map _ (fun _ _ => rfl), plainRows, List.map_map]
  exact map_congr_left fun row _ => materialized_rowMeta _ _ row

theorem streamed_agree_iff :
    (∃ rows views, sideBySideRows cost old new = some rows ∧
      streamedRows cost old new = some views ∧
      views.map PlanRowView.content = rows.map FileDiffRow.content) ↔
      old.lines.length ≤ u32Max ∧ new.lines.length ≤ u32Max := by
  rw [← streamed_content_iff h, materialized_rows hplan h, streamed_views hplan h]
  constructor
  · rintro ⟨rows, views, hrows, hviews, heq⟩
    cases hrows
    cases hviews
    exact heq
  · exact fun heq => ⟨_, _, rfl, rfl, heq⟩

end

end

end

theorem newlines_lines (n : ℕ) : (splitLines (replicate n '\n')).length = n := by
  induction n with
  | zero => rfl
  | succ n ih =>
    simp only [splitLines, replicate_succ, splitInclusive, if_true, map_cons, length_cons] at ih ⊢
    rw [ih]

def overlongText : Str where
  chars := replicate (u32Max + 1) '\n'
  bounded := by
    rw [length_replicate]
    decide

theorem views_agree_iff (replacementPairCost : List Char → List Char → UInt32) (old new : Str) :
    ViewsAgree replacementPairCost old new ↔
      old.lines.length ≤ u32Max ∧ new.lines.length ≤ u32Max := by
  obtain ⟨plan, hplan, htiles⟩ := side_by_side_plan_tiles replacementPairCost old new
  rw [← streamed_agree_iff hplan htiles]
  exact ⟨ViewsAgree.streamed, fun hstreamed =>
    ⟨helpers_agree_with_rows hplan htiles, hstreamed⟩⟩

theorem overlong_rows_are_not_streamed :
    ¬ ∀ (replacementPairCost : List Char → List Char → UInt32) (old new : Str),
      ViewsAgree replacementPairCost old new := by
  intro hagree
  obtain ⟨plan, hplan, htiles⟩ := side_by_side_plan_tiles (fun _ _ => 0) overlongText overlongText
  have hviews := (hagree (fun _ _ => 0) overlongText overlongText).streamed
  have hlines : overlongText.lines.length ≤ u32Max :=
    ((streamed_agree_iff hplan htiles).mp hviews).1
  have hcount : overlongText.lines.length = u32Max + 1 := newlines_lines (u32Max + 1)
  omega

end GitComet.FileDiff
