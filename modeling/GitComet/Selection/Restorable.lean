import GitComet.Selection.ExclusiveSteps

namespace GitComet.Selection
open IndexedHistory Loading

structure MainViewSnapshot.Shown (snapshot : MainViewSnapshot) : Prop where
  edit : snapshot.editMode = true → snapshot.contentPreview = true
  preview : snapshot.contentPreview = true → snapshot.diffTarget.isSome = true
  alone : snapshot.worktreeSelection.isSome = true → snapshot.selectedCommit = none

structure Restorable (s : RepoState) : Prop where
  shown : s.mainViewSnapshot.Shown
  recorded : ∀ snapshot ∈ s.mainHistory.entries, snapshot.Shown

namespace Restorable
variable {s after : RepoState}

theorem of_same (h : Restorable s) (htarget : after.diffTarget = s.diffTarget)
    (hpreview : after.contentPreview = s.contentPreview) (hedit : after.editMode = s.editMode)
    (halone : after.worktreeSelection.isSome → after.selectedCommit = none)
    (hhistory : after.mainHistory = s.mainHistory) : Restorable after where
  shown :=
    { edit := fun hset => hpreview.trans (h.shown.edit (hedit.symm.trans hset))
      preview := fun hset =>
        (congrArg Option.isSome htarget).trans (h.shown.preview (hpreview.symm.trans hset))
      alone := halone }
  recorded := by
    rw [hhistory]
    exact h.recorded

end Restorable

namespace KeepsSelection
variable {s after : RepoState}

theorem restorable (hkeeps : KeepsSelection s after) (h : Restorable s)
    (hedit : after.editMode → after.contentPreview)
    (hpreview : after.contentPreview → after.diffTarget.isSome) :
    Restorable after where
  shown :=
    { edit := hedit
      preview := hpreview
      alone := fun hsome => hkeeps.selectedCommit.trans
        (h.shown.alone ((congrArg Option.isSome hkeeps.worktreeSelection).symm.trans hsome)) }
  recorded := by
    rw [hkeeps.mainHistory]
    exact h.recorded

end KeepsSelection

namespace KeepsView
variable {s after : RepoState}

theorem restorable (hkeeps : KeepsView s after) (h : Restorable s) : Restorable after := by
  refine hkeeps.toKeepsSelection.restorable h ?_ ?_
  · rw [hkeeps.editMode, hkeeps.contentPreview]
    exact h.shown.edit
  · rw [hkeeps.contentPreview, hkeeps.diffTarget]
    exact h.shown.preview

end KeepsView

namespace KeptBySelection
variable {Holds : RepoState → Prop} {s : RepoState} (hkept : KeptBySelection Holds) (h : Holds s)
include hkept h

theorem restoreRange (range : Option Loading.RangeSelection) :
    Holds (s.restoreRange range).1 := by
  rw [RepoState.restoreRange.eq_def]
  split
  · exact h
  · cases range with
    | none => exact hkept.range h
    | some range => exact hkept.compare h _ _ _ _ _

end KeptBySelection

namespace RepoState
variable {s : RepoState}

section

section
variable (h : Restorable s)
include h

theorem clearRangeComparison_restorable : Restorable s.clearRangeComparison.1 := by
  rw [clearRangeComparison]
  split_ifs
  · exact h
  · exact h.of_same rfl rfl rfl h.shown.alone rfl

theorem setSelectedCommit_restorable (v : Option CommitId) :
    Restorable (s.setSelectedCommit v) := by
  cases v with
  | none =>
    have hdissolved : Restorable { s with
        worktreeSelection := none
        revealTarget := if s.revealTarget = none then s.revealTarget else none
        multiSelection := .default
        selectedIds := ∅ } := h.of_same rfl rfl rfl (by rintro ⟨⟩) rfl
    exact (clearRangeComparison_restorable hdissolved).of_same rfl rfl rfl (fun _ => rfl) rfl
  | some commitId => exact h.of_same rfl rfl rfl (by rintro ⟨⟩) rfl

theorem setWorktreeSelection_restorable (path : Option Path) :
    Restorable (s.setWorktreeSelection path) := by
  rw [setWorktreeSelection]
  split_ifs with hsame hpath
  · exact h
  · exact (setSelectedCommit_restorable h none).of_same rfl rfl rfl (fun _ => rfl) rfl
  · exact h.of_same rfl rfl rfl (fun hsome => absurd hsome hpath) rfl

theorem setCommitMultiSelection_restorable (v : CommitMultiSelection)
    (shared : Bool) : Restorable (s.setCommitMultiSelection v shared) := by
  rw [setCommitMultiSelection]
  split
  · exact h
  · exact h.of_same rfl rfl rfl h.shown.alone rfl

theorem clearDiffSelection_restorable : Restorable s.clearDiffSelection :=
  clearDiffSelection_keeps.restorable h (by rintro ⟨⟩) (by rintro ⟨⟩)

theorem dropDiffTarget_restorable (hpreview : s.contentPreview = false) :
    Restorable { s with diffTarget := none } := by
  have hkeeps : KeepsSelection s { s with diffTarget := none } :=
    ⟨rfl, rfl, rfl, rfl, rfl, rfl, rfl⟩
  refine hkeeps.restorable h h.shown.edit fun hset => ?_
  cases hpreview.symm.trans hset

end

end

section

section
variable (h : Restorable s)
include h

theorem compareRange_restorable (fromId : CommitId) (toId : Option CommitId)
    (fromLabel toLabel : String) (source : ComparisonSource) :
    Restorable (s.compareRange fromId toId fromLabel toLabel source).1 := by
  cases source with
  | multiSelection =>
    exact clearDiffSelection_restorable (h.of_same rfl rfl rfl h.shown.alone rfl)
  | explicit =>
    have hdropped := setCommitMultiSelection_restorable h .default false
    exact clearDiffSelection_restorable (hdropped.of_same rfl rfl rfl hdropped.shown.alone rfl)

omit h in
theorem keptRestorable : KeptBySelection Restorable where
  range := clearRangeComparison_restorable
  commit := setSelectedCommit_restorable
  worktree := setWorktreeSelection_restorable
  multi := setCommitMultiSelection_restorable
  details h _ := (commitDetails_keeps _).restorable h
  compare := compareRange_restorable

omit h in
theorem shownRestorable : KeptByView Restorable where
  toKeptByRestore := keptRestorable.restores
  view := KeepsView.restorable
  reconcile h _ _ _ := keptRestorable.reconcileSelection h _ _

theorem clearComparison_restorable : Restorable s.clearComparison.1 := by
  have hcleared := clearRangeComparison_restorable
    (setCommitMultiSelection_restorable h .default false)
  exact clearDiffSelection_restorable ((reconcileSelectedCommitDetails_view _).restorable hcleared)

theorem compareWithMarked_restorable (commitId : CommitId) (label : String) :
    Restorable (s.compareWithMarked commitId label).1 := by
  rw [compareWithMarked]
  split
  · exact h
  · exact compareRange_restorable h _ _ _ _ _

end

end

section
variable (planner : Planner)

variable (s) in
theorem fillSelectDiff_view (target : DiffTarget) (mode : ContentViewMode) :
    (s.fillSelectDiff planner target mode).1.diffTarget = some target ∧
      (s.fillSelectDiff planner target mode).1.contentPreview = mode.isContentView ∧
      (s.fillSelectDiff planner target mode).1.editMode = decide (mode = .edit) := by
  rw [fillSelectDiff]
  cases s.conflictOf planner target mode <;> exact ⟨rfl, rfl, rfl⟩

section
variable (h : Restorable s)
include h

theorem fillSelectDiff_restorable (target : DiffTarget)
    (mode : ContentViewMode) : Restorable (s.fillSelectDiff planner target mode).1 := by
  obtain ⟨htarget, hpreview, hedit⟩ := s.fillSelectDiff_view planner target mode
  refine (s.fillSelectDiff_keeps planner target mode).restorable h ?_ ?_
  · rw [hedit, hpreview]
    cases mode <;> decide
  · rw [htarget]
    exact fun _ => rfl

theorem viewHistory_restorable (history : NavStack ViewHistoryEntry) :
    Restorable { s with viewHistory := history } := h.of_same rfl rfl rfl h.shown.alone rfl

theorem editReturnView_restorable (view : Option FileEditReturnView) :
    Restorable { s with editReturnView := view } := h.of_same rfl rfl rfl h.shown.alone rfl

theorem openFileContent_restorable (source : FileSource) (path : Path) :
    Restorable (s.openFileContent planner source path).1 := by
  rw [openFileContent]
  cases contentViewTarget source path with
  | none => exact h
  | some target => exact fillSelectDiff_restorable planner (viewHistory_restorable h _) target _

theorem openFileEditor_restorable (path : Path) : Restorable (s.openFileEditor planner path).1 :=
  editReturnView_restorable (fillSelectDiff_restorable planner (viewHistory_restorable h _) _ _) _

theorem alignViewHistory_restorable (wanted : Bool) (target : DiffTarget) :
    Restorable (s.alignViewHistory wanted target) := by
  rw [alignViewHistory]
  cases if wanted then viewHistoryEntryForTarget target else none with
  | none => exact h
  | some entry => exact viewHistory_restorable h _

theorem showReturnView_restorable (target : DiffTarget)
    (mode : ContentViewMode) : Restorable (s.showReturnView planner target mode).1 :=
  fillSelectDiff_restorable planner (alignViewHistory_restorable h _ target) target mode

theorem exitDiffEditMode_restorable : Restorable (s.exitDiffEditMode planner).1 := by
  have htaken := editReturnView_restorable h none
  rw [exitDiffEditMode]
  split
  · exact h
  · rename_i hediting
    have hedit : s.editMode := by simpa using hediting
    have hshown : s.diffTarget.isSome := h.shown.preview (h.shown.edit hedit)
    dsimp only
    split
    · exact showReturnView_restorable planner htaken _ _
    · exact showReturnView_restorable planner htaken _ _
    · rename_i hnone
      rw [hnone] at hshown
      cases hshown

theorem viewerNav_restorable (dir : ViewNavDir) : Restorable (s.viewerNav planner dir).1 := by
  rw [viewerNav]
  split
  · exact viewHistory_restorable h _
  · exact fillSelectDiff_restorable planner (viewHistory_restorable h _) _ _

theorem selectConflictDiff_restorable (path : Path) : Restorable (s.selectConflictDiff path).1 := by
  have hkeeps : KeepsSelection s (s.selectConflictDiff path).1 :=
    ⟨rfl, rfl, rfl, rfl, rfl, rfl, rfl⟩
  exact hkeeps.restorable h (by rintro ⟨⟩) (by rintro ⟨⟩)

theorem clearDiffSelectionForStatusAction_restorable (area : DiffArea)
    (paths : List Path) : Restorable (s.clearDiffSelectionForStatusAction area paths) := by
  have hforgotten : Restorable (s.forgetReturnView area paths) := by
    rw [forgetReturnView]
    split
    · exact editReturnView_restorable h none
    · exact h
  rw [clearDiffSelectionForStatusAction]
  split_ifs
  · exact clearDiffSelection_restorable hforgotten
  · exact hforgotten

theorem clearDiffSelectionAfterDiscard_restorable (paths removedStaged : List Path) :
    Restorable (s.clearDiffSelectionAfterDiscard paths removedStaged) := by
  have hunstaged := clearDiffSelectionForStatusAction_restorable h .unstaged paths
  rw [clearDiffSelectionAfterDiscard]
  split_ifs
  · exact h
  · exact hunstaged
  · exact clearDiffSelectionForStatusAction_restorable hunstaged .staged removedStaged

theorem fileBrowserReopen_restorable (source : FileSource) (path : Path)
    (listed : Bool) : Restorable (s.fileBrowserReopen planner source path listed).1 := by
  rw [fileBrowserReopen]
  split_ifs
  · exact h
  · exact clearDiffSelection_restorable h
  · exact h
  · exact openFileContent_restorable planner h source path

end

end

section
variable (planner : Planner)

section
variable (h : Restorable s)
include h

theorem restoreTarget_restorable (snapshot : MainViewSnapshot) :
    Restorable (s.restoreTarget planner snapshot).1 := by
  rw [restoreTarget]
  cases snapshot.diffTarget with
  | none => exact clearDiffSelection_restorable h
  | some target =>
    exact fillSelectDiff_restorable planner (alignViewHistory_restorable h _ target) target _

theorem restore_restorable (snapshot : MainViewSnapshot) :
    Restorable (s.restore planner snapshot).1 :=
  restoreTarget_restorable planner (keptRestorable.restoreRange
    (keptRestorable.restores.restoreWorktree (keptRestorable.restores.restoreCommit h planner _)
      planner _) _) snapshot

theorem globalNav_restorable (dir : ViewNavDir) : Restorable (s.globalNav planner dir).1 := by
  have hstepped : Restorable { s with mainHistory := (s.mainHistory.step dir).1 } := by
    refine ⟨h.shown, ?_⟩
    rw [NavStack.step_entries]
    exact h.recorded
  rw [globalNav]
  cases (s.mainHistory.step dir).2 with
  | none => exact hstepped
  | some snapshot => exact restore_restorable planner hstepped snapshot

end

end

section
variable (planner : Planner)

section
variable (h : Restorable s)
include h

theorem rangeFilesLoaded_restorable (fromId : CommitId) (toId : Option CommitId)
    (request : BitVec 64) : Restorable (s.rangeFilesLoaded fromId toId request).1 := by
  rw [rangeFilesLoaded]
  split
  · exact h
  · split
    · exact h.of_same rfl rfl rfl h.shown.alone rfl
    · split
      · exact h.of_same rfl rfl rfl h.shown.alone rfl
      · exact h.of_same rfl rfl rfl h.shown.alone rfl

theorem refreshRangeComparison_restorable (change : RepoExternalChange) :
    Restorable (s.refreshRangeComparison change).1 := by
  rw [refreshRangeComparison]
  split
  · exact h
  · split
    · exact h
    · rw [requestRangeFilesRefresh]
      split
      · exact h.of_same rfl rfl rfl h.shown.alone rfl
      · exact h.of_same rfl rfl rfl h.shown.alone rfl

theorem restorable_of_empty_history :
    Restorable { s with mainHistory := .empty, viewHistory := .empty } where
  shown := ⟨h.shown.edit, h.shown.preview, h.shown.alone⟩
  recorded := by rintro _ ⟨⟩

theorem reloadRepo_restorable : Restorable s.reloadRepo := by
  have hcleared := keptRestorable.clearCommitSelection
    ((cancelLoads_keeps.trans (showLog_keeps .loading)).restorable h)
  have hunmarked : Restorable { (s.cancelLoads.showLog .loading).clearCommitSelection with
      comparisonMark := none } := hcleared.of_same rfl rfl rfl hcleared.shown.alone rfl
  exact restorable_of_empty_history hunmarked

end

end

end RepoState

end GitComet.Selection
