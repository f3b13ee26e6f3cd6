import GitComet.Merge.Alignment

namespace GitComet.Merge
open Slice Text List Option Nat

inductive MergeBlockClassification where
  | default
  | noChange
  | bChanged
  | cChanged
  | bcChanged
  | bcChangedAndEqual
  | bDeleted
  | cDeleted
  | bcDeleted
  | bChangedCDeleted
  | cChangedBDeleted
  | bAdded
  | cAdded
  | bcAdded
  | bcAddedAndEqual
  deriving DecidableEq

def MergeBlockClassification.debugName : MergeBlockClassification → String
  | .default => "Default"
  | .noChange => "NoChange"
  | .bChanged => "BChanged"
  | .cChanged => "CChanged"
  | .bcChanged => "BCChanged"
  | .bcChangedAndEqual => "BCChangedAndEqual"
  | .bDeleted => "BDeleted"
  | .cDeleted => "CDeleted"
  | .bcDeleted => "BCDeleted"
  | .bChangedCDeleted => "BChangedCDeleted"
  | .cChangedBDeleted => "CChangedBDeleted"
  | .bAdded => "BAdded"
  | .cAdded => "CAdded"
  | .bcAdded => "BCAdded"
  | .bcAddedAndEqual => "BCAddedAndEqual"

structure MergeBlockId where
  fingerprint : UInt64
  occurrence : ℕ
  deriving DecidableEq

structure MergeBlock where
  id : MergeBlockId
  rows : LineRange
  classification : MergeBlockClassification
  isDelta : Bool
  originalConflict : Bool
  whitespaceConflict : Bool
  automaticSelection : OrderedSelection
  selection : OrderedSelection
  manualContent : Option (List Char)
  deriving DecidableEq

def MergeBlock.isResolved (block : MergeBlock) : Bool :=
  block.manualContent.isSome || !block.selection.isEmpty

structure RowDecision where
  classification : MergeBlockClassification
  conflict : Bool
  selection : OrderedSelection
  deriving DecidableEq

def RowDecision.select (classification : MergeBlockClassification) (source : MergeSource) :
    RowDecision :=
  ⟨classification, false, .fromSource source⟩

def RowDecision.conflicting (classification : MergeBlockClassification) : RowDecision :=
  ⟨classification, true, .new⟩

def classifyTwoInput (row : AlignedRow) : RowDecision :=
  match row.a, row.b with
  | some _, some _ => if row.equalAb then .select .noChange .a else .conflicting .bChanged
  | _, _ => .conflicting .bDeleted

def classifyThreeWay (row : AlignedRow) : RowDecision :=
  match row.a, row.b, row.c with
  | some _, some _, some _ =>
    if row.equalAb && row.equalAc then .select .noChange .a
    else if row.equalAb then .select .cChanged .c
    else if row.equalAc then .select .bChanged .b
    else if row.equalBc then .select .bcChangedAndEqual .c
    else .conflicting .bcChanged
  | some _, some _, none =>
    if !row.equalAb then .conflicting .bChangedCDeleted else .select .cDeleted .c
  | some _, none, some _ =>
    if !row.equalAc then .conflicting .cChangedBDeleted else .select .bDeleted .b
  | none, some _, some _ =>
    if !row.equalBc then .conflicting .bcAdded else .select .bcAddedAndEqual .c
  | none, none, some _ => .select .cAdded .c
  | none, some _, none => .select .bAdded .b
  | some _, none, none => .select .bcDeleted .c
  | none, none, none => ⟨.default, false, .new⟩

def classify (threeWay : Bool) (row : AlignedRow) : RowDecision :=
  if threeWay then classifyThreeWay row else classifyTwoInput row

def rowWhitespaceConflict (row : AlignedRow) (threeWay : Bool) : Bool :=
  if threeWay then
    (row.whitespaceEqualAb && row.whitespaceEqualAc) ||
      (row.whitespaceA && row.whitespaceB && row.whitespaceC)
  else row.whitespaceEqualAb || (row.whitespaceA && row.whitespaceB)

def RowDecision.isDelta (decision : RowDecision) : Bool :=
  decide (decision.selection.sources ≠ [.a])

def sameBlockKind (previous next : RowDecision) (previousRow nextRow : AlignedRow) : Bool :=
  if previous.conflict && next.conflict then
    decide (previousRow.whitespaceEqualAc = nextRow.whitespaceEqualAc) &&
      decide (previousRow.whitespaceEqualAb = nextRow.whitespaceEqualAb)
  else if !previous.conflict && !next.conflict && previous.isDelta && next.isDelta then
    decide (previous.selection = next.selection) &&
      (decide (previous.classification = next.classification) ||
        (decide (previous.classification ≠ .bcAddedAndEqual) &&
          decide (next.classification ≠ .bcAddedAndEqual)))
  else !previous.isDelta && !next.isDelta

def fnvUpdate (hash : UInt64) (bytes : List UInt8) : UInt64 :=
  bytes.foldl (fun hash byte => (hash ^^^ byte.toUInt64) * 0x100000001b3) hash

def utf8Bytes (chars : List Char) : List UInt8 := chars.flatMap String.utf8EncodeChar

def cellBytes (tag : UInt8) (cell : Option Line) : List UInt8 :=
  tag :: (match cell with
    | some line => utf8Bytes line
    | none => [0xff]) ++ [0]

def blockFingerprint (texts : Sources) (rows : List AlignedRow)
    (classification : MergeBlockClassification) : UInt64 :=
  rows.foldl (fun hash row => fnvUpdate hash (cellBytes 65 (row.text texts .a) ++
    cellBytes 66 (row.text texts .b) ++ cellBytes 67 (row.text texts .c)))
    (fnvUpdate 0xcbf29ce484222325 (utf8Bytes classification.debugName.toList))

def rawLoop (threeWay : Bool) (index start : ℕ) (startDecision : RowDecision)
    (previous : AlignedRow) : List AlignedRow → List (LineRange × RowDecision)
  | [] => [(⟨start, index⟩, startDecision)]
  | row :: rows =>
    if sameBlockKind (classify threeWay previous) (classify threeWay row) previous row then
      rawLoop threeWay (index + 1) start startDecision row rows
    else (⟨start, index⟩, startDecision) ::
      rawLoop threeWay (index + 1) index (classify threeWay row) row rows

def rawBlocks (threeWay : Bool) : List AlignedRow → List (LineRange × RowDecision)
  | [] => []
  | row :: rows => rawLoop threeWay 1 0 (classify threeWay row) row rows

def finishBlock (texts : Sources) (threeWay : Bool) (range : LineRange) (decision : RowDecision)
    (rows : List AlignedRow) (occurrences : UInt64 → ℕ) : MergeBlock :=
  let fingerprint := blockFingerprint texts rows decision.classification
  { id := ⟨fingerprint, occurrences fingerprint⟩
    rows := range
    classification := decision.classification
    isDelta := decision.isDelta
    originalConflict := decision.conflict
    whitespaceConflict :=
      decision.conflict && rows.all fun row => rowWhitespaceConflict row threeWay
    automaticSelection := decision.selection
    selection := decision.selection
    manualContent := none }

def countFingerprint (fingerprint : UInt64) (occurrences : UInt64 → ℕ) : UInt64 → ℕ :=
  fun key => if key = fingerprint then min (occurrences key + 1) u32Max else occurrences key

def finishBlocks (texts : Sources) (threeWay : Bool) (rows : List AlignedRow) :
    List (LineRange × RowDecision) → (UInt64 → ℕ) → Option (List MergeBlock)
  | [], _ => some []
  | (range, decision) :: raw, occurrences => do
    let slice ← sliceOf rows range.start range.stop
    let block := finishBlock texts threeWay range decision slice occurrences
    let blocks ← finishBlocks texts threeWay rows raw
      (countFingerprint block.id.fingerprint occurrences)
    some (block :: blocks)

def buildBlocks (texts : Sources) (threeWay : Bool) (rows : List AlignedRow) :
    Option (List MergeBlock) :=
  finishBlocks texts threeWay rows (rawBlocks threeWay rows) fun _ => 0

def unresolvedBlocks (blocks : List MergeBlock) : List ℕ :=
  blocks.zipIdx.filterMap fun entry => if entry.1.isResolved then none else some entry.2

inductive Tiles : List LineRange → ℕ → ℕ → Prop
  | nil (n : ℕ) : Tiles [] n n
  | cons {range ranges stop} : range.start < range.stop → Tiles ranges range.stop stop →
      Tiles (range :: ranges) range.start stop

structure RowRun (threeWay : Bool) (run : List AlignedRow) : Prop where
  nonempty : run ≠ []
  chain : run.IsChain fun x y =>
    sameBlockKind (classify threeWay x) (classify threeWay y) x y = true

def headDecision (threeWay : Bool) (run : List AlignedRow) : RowDecision :=
  classify threeWay (run.headD (.ofCells none none none))

def runRanges (threeWay : Bool) : ℕ → List (List AlignedRow) → List (LineRange × RowDecision)
  | _, [] => []
  | start, run :: runs =>
    (⟨start, start + run.length⟩, headDecision threeWay run) ::
      runRanges threeWay (start + run.length) runs

theorem rawLoop_runs (threeWay : Bool) (rows : List AlignedRow) :
    ∀ {u : List AlignedRow} {p : AlignedRow} {s : ℕ}, RowRun threeWay (u ++ [p]) →
      ∃ runs, rawLoop threeWay (s + (u ++ [p]).length) s (headDecision threeWay (u ++ [p])) p rows =
            runRanges threeWay s runs ∧
        runs.flatten = u ++ [p] ++ rows ∧ ∀ r ∈ runs, RowRun threeWay r := by
  induction rows with
  | nil =>
    intro u p s h
    exact ⟨[u ++ [p]], rfl, by simp, by simpa using h⟩
  | cons row rows ih =>
    intro u p s h
    simp only [rawLoop]
    by_cases hkind : sameBlockKind (classify threeWay p) (classify threeWay row) p
        row
    · have hrun : RowRun threeWay ((u ++ [p]) ++ [row]) := by
        refine ⟨by simp, isChain_append.mpr ⟨h.chain, by simp, ?_⟩⟩
        intro x hx y hy
        simp only [getLast?_append, getLast?_singleton, some_or,
          mem_some_iff, head?_cons] at hx hy
        rw [← hx, ← hy]
        exact hkind
      obtain ⟨runs, heq, hflat, hruns⟩ := ih (s := s) hrun
      have hhead : headDecision threeWay ((u ++ [p]) ++ [row]) =
          headDecision threeWay (u ++ [p]) := by
        cases u <;> rfl
      refine ⟨runs, ?_, by simpa using hflat, hruns⟩
      rw [if_pos hkind, ← heq, hhead]
      congr 1
      simp only [length_append, length_cons, length_nil]
      omega
    · have hrun : RowRun threeWay ([] ++ [row]) := ⟨by simp, by simp⟩
      obtain ⟨runs, heq, hflat, hruns⟩ := ih (s := s + (u ++ [p]).length) hrun
      refine ⟨(u ++ [p]) :: runs, ?_, by simpa using hflat, ?_⟩
      · rw [if_neg hkind, runRanges, ← heq]
        rfl
      · intro r hr
        rcases mem_cons.mp hr with rfl | hr
        · exact h
        · exact hruns r hr

theorem rawBlocks_runs (threeWay : Bool) (rows : List AlignedRow) :
    ∃ runs, rawBlocks threeWay rows = runRanges threeWay 0 runs ∧ runs.flatten = rows ∧
      ∀ run ∈ runs, RowRun threeWay run := by
  cases rows with
  | nil => exact ⟨[], rfl, rfl, by simp⟩
  | cons row rows =>
    obtain ⟨runs, heq, hflat, hruns⟩ := rawLoop_runs threeWay rows (u := []) (p := row)
      (s := 0) ⟨by simp, by simp⟩
    exact ⟨runs, by simpa [rawBlocks, headDecision] using heq, by simpa using hflat, hruns⟩

structure BlockOf (texts : Sources) (threeWay : Bool) (start : ℕ) (run : List AlignedRow)
    (block : MergeBlock) : Prop where
  finished : ∃ occurrences, block = finishBlock texts threeWay ⟨start, start + run.length⟩
    (headDecision threeWay run) run occurrences

inductive BlocksOf (texts : Sources) (threeWay : Bool) :
    ℕ → List (List AlignedRow) → List MergeBlock → Prop
  | nil (start : ℕ) : BlocksOf texts threeWay start [] []
  | cons {start run runs block blocks} : BlockOf texts threeWay start run block →
      BlocksOf texts threeWay (start + run.length) runs blocks →
      BlocksOf texts threeWay start (run :: runs) (block :: blocks)

theorem finishBlocks_spec (texts : Sources) (threeWay : Bool) (runs : List (List AlignedRow)) :
    ∀ (done : List AlignedRow) (occurrences : UInt64 → ℕ), ∃ blocks,
      finishBlocks texts threeWay (done ++ runs.flatten)
        (runRanges threeWay done.length runs) occurrences = some blocks ∧
      BlocksOf texts threeWay done.length runs blocks := by
  induction runs with
  | nil => exact fun done _ => ⟨[], rfl, .nil _⟩
  | cons run runs ih =>
    intro done occurrences
    have hslice : sliceOf (done ++ (run ++ runs.flatten)) done.length (done.length + run.length) =
        some run := by
      rw [sliceOf_eq (by omega) (by simp)]
      simp [slice]
    obtain ⟨blocks, hrun, hblocks⟩ := ih (done ++ run) (countFingerprint
      (finishBlock texts threeWay ⟨done.length, done.length + run.length⟩
        (headDecision threeWay run) run occurrences).id.fingerprint occurrences)
    rw [append_assoc, length_append] at hrun
    rw [length_append] at hblocks
    refine ⟨_ :: blocks, ?_, .cons ⟨occurrences, rfl⟩ hblocks⟩
    simp only [flatten_cons, runRanges, finishBlocks, hslice, bind_eq_bind,
      bind_some, hrun]

theorem buildBlocks_spec (texts : Sources) (threeWay : Bool) (rows : List AlignedRow) :
    ∃ blocks runs, buildBlocks texts threeWay rows = some blocks ∧ runs.flatten = rows ∧
      (∀ run ∈ runs, RowRun threeWay run) ∧ BlocksOf texts threeWay 0 runs blocks := by
  obtain ⟨runs, hraw, hflat, hruns⟩ := rawBlocks_runs threeWay rows
  obtain ⟨blocks, hblocks, hof⟩ := finishBlocks_spec texts threeWay runs [] fun _ => 0
  refine ⟨blocks, runs, ?_, hflat, hruns, hof⟩
  rw [buildBlocks, hraw, ← hflat]
  exact hblocks

variable {texts : Sources} {threeWay : Bool} {start : ℕ} {runs : List (List AlignedRow)}
  {blocks : List MergeBlock}

theorem BlocksOf.tiles
    (h : BlocksOf texts threeWay start runs blocks) (hruns : ∀ run ∈ runs, RowRun threeWay run) :
    Tiles (blocks.map MergeBlock.rows) start (start + runs.flatten.length) := by
  induction h with
  | nil => exact .nil _
  | @cons start run runs block blocks hblock _ ih =>
    obtain ⟨occurrences, rfl⟩ := hblock.finished
    have hpos := length_pos_of_ne_nil (hruns run mem_cons_self).nonempty
    have hrest := ih fun r hr => hruns r (mem_cons_of_mem _ hr)
    rw [flatten_cons, length_append, ← add_assoc]
    change Tiles (⟨start, start + run.length⟩ :: _) start _
    exact .cons (by simp only; omega) hrest

theorem tiles_le {ranges : List LineRange} {stop : ℕ} (h : Tiles ranges start stop) :
    start ≤ stop := by
  induction h with
  | nil => exact le_refl _
  | cons hlt _ ih => exact le_trans (le_of_lt hlt) ih

theorem tiles_mem {ranges : List LineRange} {stop : ℕ} (h : Tiles ranges start stop) :
    ∀ range ∈ ranges, start ≤ range.start ∧ range.start < range.stop ∧ range.stop ≤ stop := by
  induction h with
  | nil => simp
  | @cons range ranges stop hlt hrest ih =>
    intro found hfound
    have hstop := tiles_le hrest
    rcases mem_cons.mp hfound with rfl | hfound
    · exact ⟨le_refl _, hlt, hstop⟩
    · obtain ⟨hstart, hin, hend⟩ := ih found hfound
      exact ⟨by omega, hin, hend⟩

theorem BlocksOf.manual (h : BlocksOf texts threeWay start runs blocks) :
    ∀ block ∈ blocks, block.manualContent = none := by
  induction h with
  | nil => simp
  | cons hblock _ ih =>
    obtain ⟨occurrences, rfl⟩ := hblock.finished
    intro block hmem
    rcases mem_cons.mp hmem with rfl | hmem
    · rfl
    · exact ih block hmem

theorem BlocksOf.selection (h : BlocksOf texts threeWay start runs blocks) :
    ∀ block ∈ blocks, ∃ run, block.selection = (headDecision threeWay run).selection := by
  induction h with
  | nil => simp
  | cons hblock _ ih =>
    obtain ⟨occurrences, rfl⟩ := hblock.finished
    intro block hmem
    rcases mem_cons.mp hmem with rfl | hmem
    · exact ⟨_, rfl⟩
    · exact ih block hmem

theorem mem_unresolvedBlocks {index : ℕ} :
    index ∈ unresolvedBlocks blocks ↔
      ∃ block, blocks[index]? = some block ∧ block.isResolved = false := by
  simp only [unresolvedBlocks, mem_filterMap, Prod.exists, mem_zipIdx_iff_getElem?]
  constructor
  · rintro ⟨block, i, hblock, hsome⟩
    split at hsome
    · cases hsome
    · rename_i hres
      cases hsome
      exact ⟨block, hblock, by simpa using hres⟩
  · rintro ⟨block, hblock, hres⟩
    exact ⟨block, index, hblock, by simp [hres]⟩

theorem unresolvedBlocks_sorted (blocks : List MergeBlock) :
    (unresolvedBlocks blocks).Pairwise (· < ·) := by
  have hindex : blocks.zipIdx.Pairwise fun x y => x.2 < y.2 := by
    rw [← pairwise_map (f := Prod.snd) (R := (· < ·)), zipIdx_map_snd]
    exact pairwise_lt_range'
  refine hindex.filterMap _ ?_
  intro x y hxy i hi j hj
  split at hi <;> split at hj <;> simp_all

end GitComet.Merge
