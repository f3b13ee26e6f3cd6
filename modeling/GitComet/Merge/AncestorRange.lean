import GitComet.Merge.PlanRun

namespace GitComet.Merge
open Slice Text LinkedArena List Option Nat

def lineCount (text : List Char) : ℕ :=
  if text.isEmpty then 0 else text.count '\n' + if endsWithNewline text then 0 else 1

def MergePlan.baseLineCount (plan : MergePlan) : ℕ := plan.base.elim 0 lineCount

-- `none` is a panic, `some none` the range of a plan without a base.
def MergePlan.blockAncestorRange (plan : MergePlan) (block : MergeBlock) :
    Option (Option LineRange) :=
  if plan.hasBase then do
    let before ← sliceOf plan.rows 0 block.rows.start
    let after ← sliceOf plan.rows block.rows.stop plan.rows.length
    let start := ((before.reverse.find? anchorRow).bind (·.a)).elim 0 (· + 1)
    let stop := ((after.find? anchorRow).bind (·.a)).getD plan.baseLineCount
    some (some ⟨min start stop, stop⟩)
  else some none

def anchorLine (row : AlignedRow) : Option ℕ := if anchorRow row then row.a else none

def anchorsBefore : List AlignedRow → ℕ → List ℕ
  | [], last => [last]
  | row :: rows, last => last :: anchorsBefore rows ((anchorLine row).elim last (· + 1))

def anchorsAfter (baseLen : ℕ) (rows : List AlignedRow) : ℕ × List ℕ :=
  rows.foldr (fun row after =>
    let next := (anchorLine row).getD after.1
    (next, next :: after.2)) (baseLen, [baseLen])

def MergePlan.blockAncestorRanges (plan : MergePlan) : Option (List (Option LineRange)) :=
  if plan.hasBase then
    let before := anchorsBefore plan.rows 0
    let after := (anchorsAfter plan.baseLineCount plan.rows).2
    plan.blocks.mapM fun block => do
      let start ← before[block.rows.start]?
      let stop ← after[block.rows.stop]?
      some (some ⟨min start stop, stop⟩)
  else some (replicate plan.blocks.length none)

theorem lineCount_cons (c d : Char) (text : List Char) :
    lineCount (c :: d :: text) = lineCount (d :: text) + if c = '\n' then 1 else 0 := by
  have hends : endsWithNewline (c :: d :: text) = endsWithNewline (d :: text) := by
    simp only [endsWithNewline, getLast?_cons_cons]
  have hcount : (c :: d :: text).count '\n' =
      (d :: text).count '\n' + if c = '\n' then 1 else 0 := by
    rw [count_cons]
    simp only [beq_iff_eq]
  simp only [lineCount, isEmpty_cons, Bool.false_eq_true, if_false, hends, hcount]
  exact Nat.add_right_comm _ _ _

theorem lineCount_singleton (c : Char) : lineCount [c] = 1 := by
  by_cases hc : c = '\n' <;> simp [lineCount, endsWithNewline, hc]

theorem splitInclusive_length (text : List Char) :
    (splitInclusive text).length = lineCount text := by
  induction text with
  | nil => rfl
  | cons c text ih =>
    rw [splitInclusive]
    cases text with
    | nil =>
      rw [lineCount_singleton]
      split <;> rfl
    | cons d text =>
      rw [lineCount_cons, ← ih]
      by_cases hc : c = '\n'
      · rw [if_pos hc, if_pos hc, length_cons]
      · rw [if_neg hc, if_neg hc, add_zero]
        split
        · rename_i hnil
          have hflat := splitInclusive_flatten (d :: text)
          rw [hnil] at hflat
          cases hflat
        · rename_i hcons
          rw [hcons]
          rfl

theorem splitLines_length (text : List Char) : (splitLines text).length = lineCount text := by
  rw [splitLines, length_map, splitInclusive_length]

section
variable {rows : List AlignedRow}

def AnchorsHeld (bound : ℕ) (rows : List AlignedRow) : Prop :=
  ∀ row ∈ rows, anchorRow row = true → ∃ line, row.a = some line ∧ line < bound

theorem anchorsHeld_of_computed {texts : Sources} (h : Computed texts rows) :
    AnchorsHeld texts.a.length rows := by
  intro row hrow hanchor
  rw [anchorRow, Bool.and_eq_true] at hanchor
  have hequal := hanchor.1
  rw [← h row hrow] at hequal
  obtain ⟨line, hline, -⟩ := pairMetadata_equal.mp hequal
  obtain ⟨index, hindex, hget⟩ := bind_eq_some_iff.mp hline
  exact ⟨index, hindex, (List.getElem?_eq_some_iff.mp hget).1⟩

variable {bound : ℕ}

theorem anchorLine_held {row : AlignedRow} (h : AnchorsHeld bound rows)
    (hrow : row ∈ rows) (hanchor : anchorRow row) :
    ∃ line, row.a = some line ∧ anchorLine row = some line := by
  obtain ⟨line, hline, -⟩ := h row hrow hanchor
  exact ⟨line, hline, by rw [anchorLine, if_pos hanchor, hline]⟩

theorem anchorsBefore_getElem? : ∀ {rows : List AlignedRow} {last index : ℕ},
    AnchorsHeld bound rows → index ≤ rows.length → (anchorsBefore rows last)[index]? =
      some ((((rows.take index).reverse.find? anchorRow).bind (·.a)).elim last (· + 1)) := by
  intro rows
  induction rows with
  | nil =>
    intro last index _ hindex
    obtain rfl := le_zero.mp hindex
    rfl
  | cons row rows ih =>
    intro last index h hindex
    cases index with
    | zero => rfl
    | succ index =>
      have hrest : AnchorsHeld bound rows := fun r hr => h r (mem_cons_of_mem _ hr)
      rw [anchorsBefore, getElem?_cons_succ, ih hrest (le_of_succ_le_succ hindex),
        take_succ_cons, reverse_cons, find?_append]
      cases hfind : (rows.take index).reverse.find? anchorRow with
      | some found =>
        have hmem := mem_of_mem_take (List.mem_reverse.mp (mem_of_find?_eq_some hfind))
        obtain ⟨line, hline, -⟩ := hrest found hmem (find?_some hfind)
        simp [hline]
      | none =>
        by_cases hanchor : anchorRow row
        · obtain ⟨line, hline, hheld⟩ := anchorLine_held h mem_cons_self hanchor
          simp [hanchor, hline, hheld]
        · simp [hanchor, anchorLine]

theorem anchorsAfter_getElem? {baseLen : ℕ} : ∀ {rows : List AlignedRow}, AnchorsHeld bound rows →
    (anchorsAfter baseLen rows).1 = ((rows.find? anchorRow).bind (·.a)).getD baseLen ∧
    ∀ index ≤ rows.length, (anchorsAfter baseLen rows).2[index]? =
      some ((((rows.drop index).find? anchorRow).bind (·.a)).getD baseLen) := by
  intro rows
  induction rows with
  | nil =>
    intro _
    refine ⟨rfl, fun index hindex => ?_⟩
    obtain rfl := le_zero.mp hindex
    rfl
  | cons row rows ih =>
    intro h
    obtain ⟨hnext, hafter⟩ := ih fun r hr => h r (mem_cons_of_mem _ hr)
    have hhead : (anchorsAfter baseLen (row :: rows)).1 =
        (((row :: rows).find? anchorRow).bind (·.a)).getD baseLen := by
      simp only [anchorsAfter, foldr_cons] at hnext ⊢
      rw [hnext]
      by_cases hanchor : anchorRow row
      · obtain ⟨line, hline, hheld⟩ := anchorLine_held h mem_cons_self hanchor
        simp [hanchor, hline, hheld]
      · simp [hanchor, anchorLine]
    refine ⟨hhead, fun index hindex => ?_⟩
    cases index with
    | zero => exact congrArg some hhead
    | succ index => exact hafter index (le_of_succ_le_succ hindex)

end

structure TilesStep (plan plan' : MergePlan) : Prop where
  sources : SameSources plan plan'
  tiles : Tiles (plan'.blocks.map MergeBlock.rows) 0 plan'.rows.length

variable {plan : MergePlan}

theorem TilesStep.of_rows {blocks : List MergeBlock}
    (h : Tiles (plan.blocks.map MergeBlock.rows) 0 plan.rows.length)
    (hrows : blocks.map MergeBlock.rows = plan.blocks.map MergeBlock.rows) :
    TilesStep plan (MergePlan.refreshUnresolvedBlocks { plan with blocks := blocks }) :=
  ⟨⟨rfl, rfl, rfl, rfl⟩, hrows ▸ h⟩

theorem perform_tiles
    (h : Tiles (plan.blocks.map MergeBlock.rows) 0 plan.rows.length) (o : PlanOperation) :
    ∃ result, plan.perform o = some result ∧ TilesStep plan result.1 := by
  have hsame : TilesStep plan plan := ⟨⟨rfl, rfl, rfl, rfl⟩, h⟩
  cases o with
  | toggleSource index source =>
    refine ⟨_, rfl, ?_⟩
    unfold MergePlan.toggleSource
    split
    · exact hsame
    split
    · exact hsame
    · rename_i block hblock
      exact .of_rows h (set_map _ hblock rfl)
  | replaceSelection index selection =>
    refine ⟨_, rfl, ?_⟩
    unfold MergePlan.replaceSelection MergePlan.replaceSelectionDeferred
    split
    · exact hsame
    split
    · exact hsame
    · rename_i block hblock
      exact .of_rows h (set_map _ hblock rfl)
  | setManualContent index content =>
    refine ⟨_, rfl, ?_⟩
    unfold MergePlan.setManualContent MergePlan.setManualContentDeferred
    split
    · exact hsame
    · rename_i block hblock
      exact .of_rows h (set_map _ hblock rfl)
  | splitBlockBySourceLineCounts index parts =>
    rw [MergePlan.perform]
    rcases splitBlock_cases h index parts with heq | ⟨_, _, blocks, -, hspliced, heq⟩
    · exact ⟨_, by rw [heq]; rfl, hsame⟩
    · exact ⟨_, by rw [heq]; rfl, ⟨rfl, rfl, rfl, rfl⟩, hspliced.tiles⟩
  | joinBlockRange first last =>
    rw [MergePlan.perform]
    rcases joinBlockRange_cases h first last with heq | ⟨_, _, blocks, hspliced, heq⟩
    · exact ⟨_, by rw [heq]; rfl, hsame⟩
    · exact ⟨_, by rw [heq]; rfl, ⟨rfl, rfl, rfl, rfl⟩, hspliced.tiles⟩
  | restoreDecisionsFrom previous =>
    exact ⟨_, rfl, .of_rows h (restoreBlocks_map _ fun _ _ => rfl)⟩

theorem performAll_tiles (operations : List PlanOperation) : ∀ {plan : MergePlan},
    Tiles (plan.blocks.map MergeBlock.rows) 0 plan.rows.length →
      ∃ plan', plan.performAll operations = some plan' ∧ TilesStep plan plan' := by
  induction operations with
  | nil => exact fun h => ⟨_, rfl, ⟨rfl, rfl, rfl, rfl⟩, h⟩
  | cons o operations ih =>
    intro plan h
    obtain ⟨result, hresult, hstep⟩ := perform_tiles h o
    obtain ⟨plan', hrun, hrest⟩ := ih hstep.tiles
    refine ⟨plan', ?_, hstep.sources.trans hrest.sources, hrest.tiles⟩
    simp only [MergePlan.performAll, hresult, bind_eq_bind, bind_some, hrun]

variable {base : Option (List Char)} {ours theirs : List Char} {options : MergeOptions}
  {alignments : ManualAlignmentList}

theorem built_tiles
    (h : buildMergePlanWithAlignments base ours theirs options alignments = some plan) :
    Tiles (plan.blocks.map MergeBlock.rows) 0 plan.rows.length := by
  obtain ⟨rows, -, h⟩ := bind_eq_some_iff.mp h
  obtain ⟨blocks, hblocks, h⟩ := bind_eq_some_iff.mp h
  cases h
  obtain ⟨blocks', runs, hbuilt, rfl, hruns, hof⟩ := buildBlocks_spec
    (planTexts base ours theirs).sources base.isSome rows
  obtain rfl := some.inj (hblocks.symm.trans hbuilt)
  have htiles := hof.tiles hruns
  rwa [zero_add] at htiles

theorem built_anchors
    (h : buildMergePlanWithAlignments base ours theirs options alignments = some plan) :
    AnchorsHeld (plan.sourceLines .a).length plan.rows := by
  obtain ⟨rows, hrows, h⟩ := bind_eq_some_iff.mp h
  obtain ⟨blocks, -, h⟩ := bind_eq_some_iff.mp h
  cases h
  exact anchorsHeld_of_computed (planRows_tidy hrows).computed

structure AncestorAgreement (plan : MergePlan) (block : MergeBlock) (range : Option LineRange) :
    Prop where
  single : plan.blockAncestorRange block = some range
  rendered : plan.blockAncestorLines block =
    some (range.elim [] fun range => slice (plan.sourceLines .a) range.start range.stop)
  within : ∀ found, range = some found →
    found.start ≤ found.stop ∧ found.stop ≤ (plan.sourceLines .a).length

theorem block_agrees (htiles : Tiles (plan.blocks.map MergeBlock.rows) 0
    plan.rows.length) (hbase : plan.hasBase)
    (hheld : AnchorsHeld (plan.sourceLines .a).length plan.rows) {block : MergeBlock}
    (hblock : block ∈ plan.blocks) :
    ∃ start stop, (anchorsBefore plan.rows 0)[block.rows.start]? = some start ∧
      (anchorsAfter plan.baseLineCount plan.rows).2[block.rows.stop]? = some stop ∧
      AncestorAgreement plan block (some ⟨min start stop, stop⟩) := by
  obtain ⟨-, hlt, hle⟩ := tiles_mem htiles block.rows (mem_map_of_mem hblock)
  have hcount : plan.baseLineCount = (plan.sourceLines .a).length := by
    obtain ⟨base, hsome⟩ := isSome_iff_exists.mp hbase
    simp only [MergePlan.baseLineCount, MergePlan.sourceLines, hsome, planTexts,
      PlanTexts.sources, Sources.lines, splitLines_length, elim_some]
  have hbefore : (anchorsBefore plan.rows 0)[block.rows.start]? = _ :=
    anchorsBefore_getElem? hheld (le_trans (le_of_lt hlt) hle)
  have hafter : (anchorsAfter plan.baseLineCount plan.rows).2[block.rows.stop]? = _ :=
    (anchorsAfter_getElem? hheld).2 _ hle
  have hstop : (((plan.rows.drop block.rows.stop).find? anchorRow).bind (·.a)).getD
      plan.baseLineCount ≤ (plan.sourceLines .a).length := by
    cases hfind : (plan.rows.drop block.rows.stop).find? anchorRow with
    | none => exact le_of_eq hcount
    | some found =>
      obtain ⟨line, hline, hbound⟩ := hheld found
        (mem_of_mem_drop (mem_of_find?_eq_some hfind)) (find?_some hfind)
      rw [bind_some, hline]
      exact le_of_lt hbound
  refine ⟨_, _, hbefore, hafter, ?_, ?_, ?_⟩
  · rw [MergePlan.blockAncestorRange, if_pos hbase, sliceOf_eq (zero_le _) (by omega),
      sliceOf_eq hle (le_refl _), slice_zero, slice_to_end]
    rfl
  · rw [MergePlan.blockAncestorLines, if_pos hbase, sliceOf_eq (zero_le _) (by omega),
      sliceOf_eq hle (le_refl _), slice_zero, slice_to_end]
    rw [hcount] at hstop ⊢
    exact sliceOf_eq (min_le_right _ _) hstop
  · rintro found hfound
    cases hfound
    exact ⟨min_le_right _ _, hstop⟩

theorem mapM_exists {α β : Type*} {f : α → Option β} {P : α → β → Prop} {xs : List α}
    (h : ∀ x ∈ xs, ∃ y, f x = some y ∧ P x y) :
    ∃ ys, xs.mapM f = some ys ∧ Forall₂ P xs ys := by
  induction xs with
  | nil => exact ⟨[], rfl, .nil⟩
  | cons x xs ih =>
    obtain ⟨y, hy, hP⟩ := h x mem_cons_self
    obtain ⟨ys, hys, hall⟩ := ih fun z hz => h z (mem_cons_of_mem _ hz)
    exact ⟨y :: ys, by rw [mapM_cons, hy, hys]; rfl, .cons hP hall⟩

theorem ranges_agree (htiles : Tiles (plan.blocks.map MergeBlock.rows) 0 plan.rows.length)
    (hheld : AnchorsHeld (plan.sourceLines .a).length plan.rows) :
    ∃ ranges, plan.blockAncestorRanges = some ranges ∧
      Forall₂ (AncestorAgreement plan) plan.blocks ranges := by
  rw [MergePlan.blockAncestorRanges]
  by_cases hbase : plan.hasBase
  · rw [if_pos hbase]
    refine mapM_exists fun block hblock => ?_
    obtain ⟨start, stop, hstart, hstop, hagree⟩ := block_agrees htiles hbase hheld hblock
    exact ⟨_, by rw [hstart, hstop]; rfl, hagree⟩
  · rw [if_neg hbase]
    refine ⟨_, rfl, List.forall₂_iff_get.mpr ⟨by simp, fun index hindex hindex' => ?_⟩⟩
    simp only [get_eq_getElem, getElem_replicate]
    exact ⟨by rw [MergePlan.blockAncestorRange, if_neg hbase],
      by rw [MergePlan.blockAncestorLines, if_neg hbase]; rfl, fun found hfound => by cases hfound⟩

theorem ancestor_ranges_agree {base : Option (List Char)} {ours theirs : List Char}
    {options : MergeOptions} {alignments : ManualAlignmentList} {plan : MergePlan}
    (hplan : buildMergePlanWithAlignments base ours theirs options alignments = some plan)
    (operations : List PlanOperation) :
    ∃ plan' ranges, plan.performAll operations = some plan' ∧
      plan'.blockAncestorRanges = some ranges ∧
      Forall₂ (AncestorAgreement plan') plan'.blocks ranges := by
  obtain ⟨plan', hrun, hsources, htiles⟩ :=
    performAll_tiles operations (built_tiles hplan)
  obtain ⟨ranges, hranges, hall⟩ := ranges_agree htiles (by
    simpa only [MergePlan.sourceLines, hsources.base, hsources.ours, hsources.theirs,
      hsources.rows] using built_anchors hplan)
  exact ⟨plan', ranges, hrun, hranges, hall⟩

theorem rejoined_block_ranges_agree : ∃ plan plan' ranges,
    buildMergePlanWithAlignments (some "k\nx\n".toList) "k\ny\nz\n".toList "k\nw\n".toList
        .default [] = some plan ∧ plan.performAll [.joinBlockRange 1 2,
        .splitBlockBySourceLineCounts 1 [⟨1, 1, 1⟩, ⟨0, 1, 0⟩]] = some plan' ∧
      plan'.blockAncestorRanges = some ranges ∧
      Forall₂ (AncestorAgreement plan') plan'.blocks ranges := by
  have hsome : (buildMergePlanWithAlignments (some "k\nx\n".toList) "k\ny\nz\n".toList
      "k\nw\n".toList .default []).isSome = true := by decide +kernel
  obtain ⟨plan, hplan⟩ := isSome_iff_exists.mp hsome
  obtain ⟨plan', ranges, hagree⟩ := ancestor_ranges_agree hplan
    [.joinBlockRange 1 2, .splitBlockBySourceLineCounts 1 [⟨1, 1, 1⟩, ⟨0, 1, 0⟩]]
  exact ⟨plan, plan', ranges, hplan, hagree⟩

end GitComet.Merge
