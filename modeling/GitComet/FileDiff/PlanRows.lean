import GitComet.FileDiff.Plan

namespace GitComet.FileDiff
open Slice Text List

def oneBasedLineNumber (lineIx : ℕ) : Option ℕ :=
  if lineIx + 1 ≤ u32Max then some (lineIx + 1) else none

inductive RowKind where
  | context
  | remove
  | add
  | modify
  deriving DecidableEq

structure FileDiffRow where
  kind : RowKind
  oldLine : Option ℕ
  newLine : Option ℕ
  old : Option (List Char)
  new : Option (List Char)
  eofNewline : Option EofNewline
  deriving DecidableEq

def lineText (lines : List (List Char)) (ix : ℕ) : List Char := (lines[ix]?).getD []

def materializeRun (oldLines newLines : List (List Char)) (oldLineDelta newLineDelta : ℕ)
    (rows : List FileDiffRow) : PlanRun → List FileDiffRow
  | .context oldStart newStart len =>
    (range len).foldl (fun rows offset =>
      let oldIx := satAdd oldStart offset
      let newIx := satAdd newStart offset
      let text := lineText oldLines oldIx
      rows ++ [{ kind := .context
                 oldLine := (oneBasedLineNumber oldIx).map (satAdd32 · oldLineDelta)
                 newLine := (oneBasedLineNumber newIx).map (satAdd32 · newLineDelta)
                 old := some text
                 new := some text
                 eofNewline := none }]) rows
  | .remove oldStart len =>
    (range len).foldl (fun rows offset =>
      let oldIx := satAdd oldStart offset
      rows ++ [{ kind := .remove
                 oldLine := (oneBasedLineNumber oldIx).map (satAdd32 · oldLineDelta)
                 newLine := none
                 old := some (lineText oldLines oldIx)
                 new := none
                 eofNewline := none }]) rows
  | .add newStart len =>
    (range len).foldl (fun rows offset =>
      let newIx := satAdd newStart offset
      rows ++ [{ kind := .add
                 oldLine := none
                 newLine := (oneBasedLineNumber newIx).map (satAdd32 · newLineDelta)
                 old := none
                 new := some (lineText newLines newIx)
                 eofNewline := none }]) rows
  | .modify oldStart newStart len =>
    (range len).foldl (fun rows offset =>
      let oldIx := satAdd oldStart offset
      let newIx := satAdd newStart offset
      rows ++ [{ kind := .modify
                 oldLine := (oneBasedLineNumber oldIx).map (satAdd32 · oldLineDelta)
                 newLine := (oneBasedLineNumber newIx).map (satAdd32 · newLineDelta)
                 old := some (lineText oldLines oldIx)
                 new := some (lineText newLines newIx)
                 eofNewline := none }]) rows

def materializeRowsFromPlanInto (rows : List FileDiffRow) (plan : FileDiffPlan)
    (oldLines newLines : List (List Char)) (oldLineOffset newLineOffset : ℕ) :
    List FileDiffRow :=
  let oldLineDelta := oldLineOffset - 1
  let newLineDelta := newLineOffset - 1
  let rowStart := rows.length
  let rows := plan.runs.foldl (materializeRun oldLines newLines oldLineDelta newLineDelta) rows
  match plan.eofNewline with
  | none => rows
  | some marker => match (rows.drop rowStart).getLast? with
    | some last => rows.dropLast ++ [{ last with eofNewline := some marker }]
    | none => rows ++ [⟨.modify, none, none, none, none, some marker⟩]

def materializeRowsFromPlan (plan : FileDiffPlan) (oldLines newLines : List (List Char)) :
    List FileDiffRow :=
  materializeRowsFromPlanInto [] plan oldLines newLines 0 0

def sideBySideRows (replacementPairCost : List Char → List Char → UInt32) (old new : Str) :
    Option (List FileDiffRow) := do
  let plan ← buildSideBySidePlan replacementPairCost old.chars new.chars old.lines new.lines
  some (materializeRowsFromPlan plan old.lines new.lines)

inductive PlanRowView where
  | context (oldLine newLine : ℕ) (text : List Char)
  | remove (oldLine : ℕ) (text : List Char)
  | add (newLine : ℕ) (text : List Char)
  | modify (oldLine newLine : ℕ) (oldText newText : List Char)
  deriving DecidableEq

def PlanRowView.kind : PlanRowView → RowKind
  | .context _ _ _ => .context
  | .remove _ _ => .remove
  | .add _ _ => .add
  | .modify _ _ _ _ => .modify

section
variable {S : Type}

def streamRun (oldLines newLines : List (List Char)) (f : S → PlanRowView → S) (s : S) :
    PlanRun → S
  | .context oldStart newStart len =>
    (range len).foldl (fun s offset =>
      let oldIx := satAdd oldStart offset
      let newIx := satAdd newStart offset
      match oneBasedLineNumber oldIx, oneBasedLineNumber newIx with
      | some ol, some nl => f s (.context ol nl (lineText oldLines oldIx))
      | _, _ => s) s
  | .remove oldStart len =>
    (range len).foldl (fun s offset =>
      let oldIx := satAdd oldStart offset
      match oneBasedLineNumber oldIx with
      | some ol => f s (.remove ol (lineText oldLines oldIx))
      | none => s) s
  | .add newStart len =>
    (range len).foldl (fun s offset =>
      let newIx := satAdd newStart offset
      match oneBasedLineNumber newIx with
      | some nl => f s (.add nl (lineText newLines newIx))
      | none => s) s
  | .modify oldStart newStart len =>
    (range len).foldl (fun s offset =>
      let oldIx := satAdd oldStart offset
      let newIx := satAdd newStart offset
      match oneBasedLineNumber oldIx, oneBasedLineNumber newIx with
      | some ol, some nl =>
        f s (.modify ol nl (lineText oldLines oldIx) (lineText newLines newIx))
      | _, _ => s) s

def forEachSideBySideRow (replacementPairCost : List Char → List Char → UInt32) (old new : Str)
    (f : S → PlanRowView → S) (s : S) : Option S := do
  let plan ← buildSideBySidePlan replacementPairCost old.chars new.chars old.lines new.lines
  some (plan.runs.foldl (streamRun old.lines new.lines f) s)

end

-- The indices of a run stay in `usize`, so no saturating addition is cut off.
structure RunFits (run : PlanRun) : Prop where
  old : ∀ row ∈ run.rows, ∀ i, row.oldLine = some i → i ≤ usizeMax
  new : ∀ row ∈ run.rows, ∀ i, row.newLine = some i → i ≤ usizeMax

theorem foldl_rows {S : Type} {g : S → PlanRow → S} {step : S → ℕ → S} {row : ℕ → PlanRow}
    {len : ℕ} (h : ∀ i < len, ∀ s, step s i = g s (row i)) (s : S) :
    (range len).foldl step s = ((range len).map row).foldl g s := by
  rw [foldl_map]
  exact foldl_ext _ _ s fun s i hi => h i (mem_range.mp hi) s

theorem RunFits.context {o n len : ℕ} (h : RunFits (.context o n len)) {i : ℕ} (hi : i < len) :
    satAdd o i = o + i ∧ satAdd n i = n + i := by
  have hmem : PlanRow.context (o + i) (n + i) ∈ (PlanRun.context o n len).rows :=
    mem_map.mpr ⟨i, mem_range.mpr hi, rfl⟩
  exact ⟨satAdd_eq (h.old _ hmem _ rfl), satAdd_eq (h.new _ hmem _ rfl)⟩

theorem RunFits.remove {o len : ℕ} (h : RunFits (.remove o len)) {i : ℕ} (hi : i < len) :
    satAdd o i = o + i := by
  have hmem : PlanRow.remove (o + i) ∈ (PlanRun.remove o len).rows :=
    mem_map.mpr ⟨i, mem_range.mpr hi, rfl⟩
  exact satAdd_eq (h.old _ hmem _ rfl)

theorem RunFits.add {n len : ℕ} (h : RunFits (.add n len)) {i : ℕ} (hi : i < len) :
    satAdd n i = n + i := by
  have hmem : PlanRow.add (n + i) ∈ (PlanRun.add n len).rows :=
    mem_map.mpr ⟨i, mem_range.mpr hi, rfl⟩
  exact satAdd_eq (h.new _ hmem _ rfl)

theorem RunFits.modify {o n len : ℕ} (h : RunFits (.modify o n len)) {i : ℕ} (hi : i < len) :
    satAdd o i = o + i ∧ satAdd n i = n + i := by
  have hmem : PlanRow.modify (o + i) (n + i) ∈ (PlanRun.modify o n len).rows :=
    mem_map.mpr ⟨i, mem_range.mpr hi, rfl⟩
  exact ⟨satAdd_eq (h.old _ hmem _ rfl), satAdd_eq (h.new _ hmem _ rfl)⟩

def PlanRow.kind : PlanRow → RowKind
  | .context _ _ => .context
  | .remove _ => .remove
  | .add _ => .add
  | .modify _ _ => .modify

def PlanRow.oldNumber (row : PlanRow) : Option ℕ := row.oldLine.bind oneBasedLineNumber
def PlanRow.newNumber (row : PlanRow) : Option ℕ := row.newLine.bind oneBasedLineNumber

section
variable {oldLines newLines : List (List Char)}

def PlanRow.oldText (oldLines : List (List Char)) (row : PlanRow) : Option (List Char) :=
  row.oldLine.map (lineText oldLines)

def PlanRow.newText (oldLines newLines : List (List Char)) : PlanRow → Option (List Char)
  | .context old _ => some (lineText oldLines old)
  | row => row.newLine.map (lineText newLines)

def PlanRow.materialized (oldLines newLines : List (List Char)) (oldLineDelta newLineDelta : ℕ)
    (row : PlanRow) : FileDiffRow where
  kind := row.kind
  oldLine := row.oldNumber.map (satAdd32 · oldLineDelta)
  newLine := row.newNumber.map (satAdd32 · newLineDelta)
  old := row.oldText oldLines
  new := row.newText oldLines newLines
  eofNewline := none

def PlanRow.view (oldLines newLines : List (List Char)) : PlanRow → Option PlanRowView
  | .context old new => match oneBasedLineNumber old, oneBasedLineNumber new with
    | some ol, some nl => some (.context ol nl (lineText oldLines old))
    | _, _ => none
  | .remove old => (oneBasedLineNumber old).map (.remove · (lineText oldLines old))
  | .add new => (oneBasedLineNumber new).map (.add · (lineText newLines new))
  | .modify old new => match oneBasedLineNumber old, oneBasedLineNumber new with
    | some ol, some nl => some (.modify ol nl (lineText oldLines old) (lineText newLines new))
    | _, _ => none

theorem materializeRun_rows {run : PlanRun} (h : RunFits run) (oldLineDelta newLineDelta : ℕ)
    (rows : List FileDiffRow) :
    materializeRun oldLines newLines oldLineDelta newLineDelta rows run = run.rows.foldl
      (fun rows row => rows ++ [row.materialized oldLines newLines oldLineDelta newLineDelta])
      rows := by
  cases run with
  | context o n len =>
    refine foldl_rows (fun i hi rows => ?_) rows
    obtain ⟨ho, hn⟩ := h.context hi
    simp only [ho, hn]
    rfl
  | remove o len =>
    refine foldl_rows (fun i hi rows => ?_) rows
    simp only [h.remove hi]
    rfl
  | add n len =>
    refine foldl_rows (fun i hi rows => ?_) rows
    simp only [h.add hi]
    rfl
  | modify o n len =>
    refine foldl_rows (fun i hi rows => ?_) rows
    obtain ⟨ho, hn⟩ := h.modify hi
    simp only [ho, hn]
    rfl

def visit {S : Type} (f : S → PlanRowView → S) (s : S) (view : Option PlanRowView) : S :=
  view.elim s (f s)

theorem streamRun_rows {S : Type} {run : PlanRun} (h : RunFits run) (f : S → PlanRowView → S)
    (s : S) :
    streamRun oldLines newLines f s run =
      run.rows.foldl (fun s row => visit f s (row.view oldLines newLines)) s := by
  cases run with
  | context o n len =>
    refine foldl_rows (fun i hi s => ?_) s
    obtain ⟨ho, hn⟩ := h.context hi
    simp only [ho, hn, PlanRow.view]
    cases oneBasedLineNumber (o + i) <;> cases oneBasedLineNumber (n + i) <;> rfl
  | remove o len =>
    refine foldl_rows (fun i hi s => ?_) s
    simp only [h.remove hi, PlanRow.view]
    cases oneBasedLineNumber (o + i) <;> rfl
  | add n len =>
    refine foldl_rows (fun i hi s => ?_) s
    simp only [h.add hi, PlanRow.view]
    cases oneBasedLineNumber (n + i) <;> rfl
  | modify o n len =>
    refine foldl_rows (fun i hi s => ?_) s
    obtain ⟨ho, hn⟩ := h.modify hi
    simp only [ho, hn, PlanRow.view]
    cases oneBasedLineNumber (o + i) <;> cases oneBasedLineNumber (n + i) <;> rfl

theorem foldl_runs {S : Type} {w : S → PlanRun → S} {g : S → PlanRow → S}
    {runs : List PlanRun} (h : ∀ run ∈ runs, ∀ s, w s run = run.rows.foldl g s) (s : S) :
    runs.foldl w s = (planRows runs).foldl g s := by
  induction runs generalizing s with
  | nil => rfl
  | cons run runs ih =>
    have hrest := fun run hrun => h run (mem_cons_of_mem _ hrun)
    simp only [foldl_cons, planRows, flatMap_cons, foldl_append]
    rw [h run (mem_cons_self), ih hrest, planRows]

theorem foldl_snoc_map {α β : Type} (g : α → β) (xs : List α) (acc : List β) :
    xs.foldl (fun acc x => acc ++ [g x]) acc = acc ++ xs.map g := by
  induction xs generalizing acc with
  | nil => simp
  | cons x xs ih => simp [ih]

theorem foldl_visit {S : Type} (f : S → PlanRowView → S) (rows : List PlanRow) (s : S) :
    rows.foldl (fun s row => visit f s (row.view oldLines newLines)) s =
      (rows.filterMap (PlanRow.view oldLines newLines)).foldl f s := by
  rw [foldl_filterMap]
  congr 1
  funext s row
  cases row.view oldLines newLines <;> rfl

end

end GitComet.FileDiff
