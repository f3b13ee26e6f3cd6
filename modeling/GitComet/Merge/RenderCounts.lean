import GitComet.Merge.AncestorRange

namespace GitComet.Merge
open Slice CommonPrefix Text LinkedArena List Option Nat

section
variable {plan : MergePlan} {block : MergeBlock} (options : MergeOptions)

def MergeOptions.leavesOpen (block : MergeBlock) : Bool :=
  options.strategy = .normal && !block.isResolved

theorem emitConflictMarkers_runs (ours theirs base : List Line) (lineEnding : List Char) :
    ∃ output, emitConflictMarkers ours theirs base options lineEnding = some output := by
  unfold emitConflictMarkers
  split
  · have hends := commonEnds_spec ours theirs
    have hleft := hends.left
    have hright := hends.right
    simp only [emitZdiff3Markers, commonPrefixSuffixLines]
    rw [max_eq_left (by omega), max_eq_left (by omega), sliceOf_eq (zero_le _) (by omega),
      sliceOf_eq (by omega) (by omega), sliceOf_eq (by omega) (by omega),
      sliceOf_eq (by omega) (le_refl _)]
    simp only [bind_eq_bind, bind_some]
    rw [sliceOf_eq (le_max_right _ _) (by omega)]
    exact ⟨_, rfl⟩
  · exact ⟨_, rfl⟩
  · exact ⟨_, rfl⟩

theorem leavesOpen_eq (plan : MergePlan) (h : block.manualContent = none) :
    options.leavesOpen block = (strategySelection plan options block).isNone := by
  rw [MergeOptions.leavesOpen, MergeBlock.isResolved, h, strategySelection]
  cases block.selection.isEmpty <;> cases options.strategy <;> rfl

theorem renderBlock_counts (hlt : block.rows.start < block.rows.stop)
    (hle : block.rows.stop ≤ plan.rows.length) {base : List Line}
    (hbase : plan.blockAncestorLines block = some base) : ∃ output,
      renderBlock plan options block = some ⟨output, (options.leavesOpen block).toNat⟩ := by
  rw [renderBlock]
  cases hmanual : block.manualContent with
  | some manual => exact ⟨manual, by simp [MergeOptions.leavesOpen, MergeBlock.isResolved, hmanual]⟩
  | none =>
    rw [leavesOpen_eq options plan hmanual]
    cases strategySelection plan options block with
    | some selection =>
      obtain ⟨output, houtput⟩ := appendPlanSources_exists hlt hle selection.sources
      exact ⟨output, by simp [houtput]⟩
    | none =>
      obtain ⟨output, houtput⟩ : ∃ output, renderPlanConflict plan block options = some output := by
        simp only [renderPlanConflict, MergePlan.blockSourceLines, sliceOf_eq (le_of_lt hlt) hle,
          hbase, bind_eq_bind, bind_some]
        split_ifs <;> exact emitConflictMarkers_runs ..
      exact ⟨output, by simp [houtput]⟩

theorem renderBlocks_counts {blocks : List MergeBlock} (h : ∀ block ∈ blocks, ∃ output,
      renderBlock plan options block = some ⟨output, (options.leavesOpen block).toNat⟩) :
    ∃ output, renderBlocks plan options blocks =
      some ⟨output, blocks.countP options.leavesOpen⟩ := by
  induction blocks with
  | nil => exact ⟨[], rfl⟩
  | cons block blocks ih =>
    obtain ⟨⟨head, hhead⟩, hblocks⟩ := forall_mem_cons.mp h
    obtain ⟨rest, hrest⟩ := ih hblocks
    refine ⟨head ++ rest, ?_⟩
    simp only [renderBlocks, hhead, hrest, bind_eq_bind, bind_some, countP_cons]
    cases options.leavesOpen block <;> simp [Nat.add_comm]

end

theorem rendering_counts_open_blocks {base : Option (List Char)} {ours theirs : List Char}
    {options : MergeOptions} {alignments : ManualAlignmentList} {plan : MergePlan}
    (hplan : buildMergePlanWithAlignments base ours theirs options alignments = some plan)
    (operations : List PlanOperation) (rendering : MergeOptions) :
    ∃ plan' output, plan.performAll operations = some plan' ∧
      renderMergePlan plan' rendering =
        some ⟨output, plan'.blocks.countP rendering.leavesOpen⟩ := by
  obtain ⟨plan', hrun, hsources, htiles⟩ := performAll_tiles operations (built_tiles hplan)
  obtain ⟨ranges, -, hall⟩ := ranges_agree htiles (by
    simpa only [MergePlan.sourceLines, hsources.base, hsources.ours, hsources.theirs,
      hsources.rows] using built_anchors hplan)
  obtain ⟨output, houtput⟩ := renderBlocks_counts rendering fun block hblock => by
    obtain ⟨-, hlt, hle⟩ := tiles_mem htiles block.rows (mem_map_of_mem hblock)
    obtain ⟨index, hindex, rfl⟩ := getElem_of_mem hblock
    exact renderBlock_counts rendering hlt hle
      (hall.get hindex (hall.length_eq ▸ hindex)).rendered
  refine ⟨plan', ?_⟩
  simp only [renderMergePlan, houtput, bind_eq_bind, bind_some]
  split
  · exact ⟨_, hrun, rfl⟩
  · exact ⟨_, hrun, rfl⟩

theorem rendering_counts_two_additions : ∃ plan plan' output,
    buildMergePlanWithAlignments none ['a'] ['b'] .default [] = some plan ∧
      plan.performAll [] = some plan' ∧ renderMergePlan plan' .default =
        some ⟨output, plan'.blocks.countP MergeOptions.default.leavesOpen⟩ := by
  have hsome : (buildMergePlanWithAlignments none ['a'] ['b'] .default []).isSome = true := by
    decide +kernel
  obtain ⟨plan, hplan⟩ := isSome_iff_exists.mp hsome
  obtain ⟨plan', output, h⟩ := rendering_counts_open_blocks hplan [] .default
  exact ⟨plan, plan', output, hplan, h⟩

end GitComet.Merge
