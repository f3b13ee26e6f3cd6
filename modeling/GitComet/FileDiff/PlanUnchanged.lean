import GitComet.FileDiff.PlanViews
import GitComet.FileDiff.MyersMinimal

namespace GitComet.FileDiff
open Slice CommonPrefix EditGraph Text List Nat Option

section
variable {α : Type}

theorem Script.unchanged {xs ys : List α} {es : List (Edit α)} (h : Script xs ys es)
    (hes : changes es = 0) : kindRun .equal es = es.length ∧ es.length = xs.length := by
  induction h with
  | nil => exact ⟨rfl, rfl⟩
  | equal a _ ih =>
    obtain ⟨hrun, hlength⟩ := ih hes
    simp [kindRun_cons, Edit.ofEqual, hrun, hlength]
  | delete a _ _ => simp at hes
  | insert a _ _ => simp at hes

variable [DecidableEq α]

theorem buildSideBySidePlan_same (pairCost : α → α → UInt32) (oldText newText : List Char)
    (lines : List α) : buildSideBySidePlan pairCost oldText newText lines lines =
      some (finishPlan (pushPlanRunWithCounts .empty (.context 0 0 lines.length))
        (eofNewlineDelta oldText newText)) := by
  unfold buildSideBySidePlan
  split_ifs with hlarge
  · simp [buildLinearFallbackSideBySidePlan, commonEnds_self, pushAlignedReplacementRuns,
      sliceOf_eq, pushPlanRunWithCounts, PlanRun.rowLen]
  rw [buildSparsePositionalSideBySidePlan, if_neg (not_not.mpr rfl)]
  split_ifs with hsmall
  · have hshort : satAdd lines.length lines.length < sideBySideHistogramLineThreshold :=
      hsmall.elim (fun hnone => hnone ▸ by decide) id
    obtain ⟨edits, hedits, hscript, hleast⟩ := myersEdits_least lines lines (by
      unfold satAdd usizeMax sideBySideHistogramLineThreshold at hshort
      unfold u32Max
      omega)
    obtain ⟨hrun, hsame⟩ := hscript.unchanged (le_zero.mp ((hleast _ (script_equals lines)).trans
      (changes_equals lines).le))
    dsimp only [selectSideBySideEdits]
    rw [if_neg hlarge, if_neg (not_le.mpr hshort), hedits, ← hsame]
    cases edits with
    | nil => rfl
    | cons edit rest =>
      have hkind : edit.kind = .equal := by
        by_contra hkind
        rw [kindRun_cons, if_neg hkind] at hrun
        cases hrun
      simp [planFromEdits, hkind, hrun]
  · obtain ⟨count, hcount⟩ := exists_eq_succ_of_ne_zero fun hnone => hsmall (.inl hnone)
    have hslide : slideFrom lines lines 0 0 = lines.length := commonPrefix_self lines
    rw [hcount, sparseRuns, hslide]
    cases count <;> simp [sparseRuns, hcount]

theorem finishPlan_contexts (len : ℕ) (eof : Option EofNewline) :
    (∀ row ∈ planRows (finishPlan (pushPlanRunWithCounts .empty (.context 0 0 len)) eof).runs,
      row.kind = .context) ↔ len = 0 ∨ eof = none := by
  rcases len with _ | _ | len <;> cases eof <;> simp [pushPlanRunWithCounts, pushPlanRun, finishPlan,
    applyEofNewlineToPlan, PlanRun.rowLen, PlanRun.rows, PlanRow.kind, PlanState.empty, planRows]

omit [DecidableEq α] in
theorem PlanTiles.same {old new : List α} {plan : FileDiffPlan} (h : PlanTiles old new plan)
    (hkinds : ∀ row ∈ planRows plan.runs, row.kind = .context) : old = new := by
  have hread : ∀ lines : List α, (range lines.length).map (lines[·]?) = lines.map some :=
    fun lines => ext_getElem (by simp) (by simp)
  apply map_injective_iff.mpr (some_injective α)
  rw [← hread, ← hread, ← h.oldLines, ← h.newLines, map_filterMap, map_filterMap]
  refine filterMap_congr fun row hrow => ?_
  have hkind := hkinds row hrow
  cases row with
  | context o n =>
    obtain ⟨line, ho, hn⟩ := h.contextPairs o n hrow
    simp [PlanRow.oldLine, PlanRow.newLine, ho, hn]
  | remove => cases hkind
  | add => cases hkind
  | modify => cases hkind

end

theorem plan_without_changes_iff (replacementPairCost : List Char → List Char → UInt32)
    (old new : Str) : ∃ plan, sideBySidePlan replacementPairCost old new = some plan ∧
      ((∀ row ∈ planRows plan.runs, row.kind = .context) ↔
        old.lines = new.lines ∧ eofNewlineDelta old.chars new.chars = none) := by
  obtain ⟨plan, hplan, htiles⟩ := side_by_side_plan_tiles replacementPairCost old new
  refine ⟨plan, hplan, ?_⟩
  rw [← and_iff_right_of_imp htiles.same]
  refine and_congr_right fun hsame => ?_
  rw [sideBySidePlan, ← hsame, buildSideBySidePlan_same, some.injEq] at hplan
  rw [← hplan, finishPlan_contexts, length_eq_zero_iff]
  refine or_iff_right_of_imp fun hempty => ?_
  rw [chars_empty hempty, chars_empty (hsame ▸ hempty)]
  rfl

end GitComet.FileDiff
