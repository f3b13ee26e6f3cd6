import GitComet.Selection.OneSelection
import GitComet.Selection.Restorable

namespace GitComet.Selection
open IndexedHistory Loading List

namespace RepoState
variable {s : RepoState} (planner : Planner)

section

theorem indexedSelect_restorable (h : Restorable s) (commitId : CommitId) (mode : CommitSelectMode)
    (projection : HistoryProjection) :
    Restorable (s.indexedSelect planner commitId mode projection).1 := by
  rw [indexedSelect]
  split_ifs
  · exact h
  · cases projection.position commitId with
    | none => exact h
    | some clicked => exact keptRestorable.selectCommitMulti h planner _ _ _ _

end

end RepoState

def DropsDiffOnly (active : Bool) (s : RepoState) : RepoMsg → Prop
  | .commitCompletionFinished => s.contentPreview = false
  | .repoCommandFinished command => command.clearsDiffTarget = true → s.contentPreview = false
  | .repoOpenedOk => active = true → s.contentPreview = false
  | _ => True

namespace RepoState
variable {s : RepoState} (planner : Planner)

theorem repoCommandFinished_restorable (h : Restorable s) {command : RepoCommandKind}
    (hdrops : command.clearsDiffTarget → s.contentPreview = false) :
    Restorable (s.repoCommandFinished command) := by
  have hdropped : Restorable
      (if command.clearsDiffTarget then { s with diffTarget := none } else s) := by
    split
    · rename_i hclears
      exact dropDiffTarget_restorable h (hdrops hclears)
    · exact h
  rw [repoCommandFinished]
  cases command.clearsSelection with
  | true => exact keptRestorable.clearCommitSelection hdropped
  | false => exact hdropped

theorem clearCommitSelection_contentPreview :
    s.clearCommitSelection.contentPreview = s.contentPreview := by
  have hcleared : ∀ repo : RepoState,
      repo.clearRangeComparison.1.contentPreview = repo.contentPreview := by
    intro repo
    rw [clearRangeComparison]
    split_ifs <;> rfl
  exact hcleared _

theorem repoOpenedOk_restorable (h : Restorable s) {active : Bool}
    (hdrops : active → s.contentPreview = false) : Restorable (s.repoOpenedOk active) := by
  cases active with
  | false => exact h.of_same rfl rfl rfl h.shown.alone rfl
  | true =>
    have hcleared := keptRestorable.clearCommitSelection ((showLog_keeps .loading).restorable h)
    have hpreview := (clearCommitSelection_contentPreview.trans
      (showLog_keeps .loading).contentPreview).trans (hdrops rfl)
    exact restorable_of_empty_history (dropDiffTarget_restorable hcleared hpreview)

theorem handle_restorable (h : Restorable s) (active : Bool) (message : RepoMsg)
    (hdrops : DropsDiffOnly active s message) : Restorable (s.handle planner active message) := by
  cases message with
  | selectCommit commitId => exact keptRestorable.selectCommitMulti h planner commitId _ _ _
  | selectCommitMulti commitId mode clickedIndex visibleOrder =>
    exact keptRestorable.selectCommitMulti h planner _ _ _ _
  | indexedHistory event =>
    exact shownRestorable.reduceIndexed h planner fun _ _ _ _ => indexedSelect_restorable planner h _ _ _
  | clearCommitSelection => exact keptRestorable.clearCommitSelection h
  | compareCommitRange fromId toId fromLabel toLabel => exact compareRange_restorable h _ _ _ _ _
  | compareWithWorkingTree fromId fromLabel => exact compareRange_restorable h _ _ _ _ _
  | clearComparison => exact clearComparison_restorable h
  | markForComparison | clearComparisonMark => exact h.of_same rfl rfl rfl h.shown.alone rfl
  | compareWithMarked commitId label => exact compareWithMarked_restorable h commitId label
  | rangeFilesLoaded fromId toId request => exact rangeFilesLoaded_restorable h fromId toId request
  | selectWorktreeUncommitted path => exact shownRestorable.selectWorktreeUncommitted h planner path
  | worktreeDirtyLoaded result => exact shownRestorable.worktreeDirtyLoaded h result
  | revealCommit reference => exact (revealTarget_keeps _).restorable h
  | finishCommitReveal => exact (revealTarget_keeps none).restorable h
  | commitRevealResolved reference result =>
    exact shownRestorable.commitRevealResolved h planner reference result
  | selectDiff target => exact fillSelectDiff_restorable planner h target .diff
  | selectConflictDiff path => exact selectConflictDiff_restorable h path
  | clearDiffSelection => exact clearDiffSelection_restorable h
  | openFileContent source path => exact openFileContent_restorable planner h source path
  | openFileEditor path => exact openFileEditor_restorable planner h path
  | exitDiffEditMode => exact exitDiffEditMode_restorable planner h
  | viewerNav dir => exact viewerNav_restorable planner h dir
  | globalNav dir => exact globalNav_restorable planner h dir
  | fileBrowserReopen source path listed =>
    exact fileBrowserReopen_restorable planner h source path listed
  | statusActionFinished area paths =>
    exact clearDiffSelectionForStatusAction_restorable h area paths
  | discardFinished paths removedStaged =>
    exact clearDiffSelectionAfterDiscard_restorable h paths removedStaged
  | commitCompletionFinished => exact dropDiffTarget_restorable h hdrops
  | repoCommandFinished command => exact repoCommandFinished_restorable h hdrops
  | reloadRepo => exact reloadRepo_restorable h
  | repoOpenedOk => exact repoOpenedOk_restorable h hdrops
  | firstLogPageLoaded page =>
    exact keptRestorable.reconcileSelectionFromPage ((showLog_keeps _).restorable h) page
  | repoExternallyChanged change => exact refreshRangeComparison_restorable h change
  | elsewhere change navigates => exact (change.keeps s).restorable h

theorem reconcileNavHistory_restorable (h : Restorable s) (push : Bool) :
    Restorable (s.reconcileNavHistory push) := by
  refine ⟨h.shown, fun snapshot hsnapshot => ?_⟩
  rcases NavStack.mem_reconcile hsnapshot with hold | rfl
  · exact h.recorded snapshot hold
  · exact h.shown

theorem activate_restorable (h : Restorable s) : Restorable s.activate := by
  have hcleared := keptRestorable.clearCommitSelection h
  refine ⟨hcleared.shown, fun snapshot hsnapshot => ?_⟩
  rcases NavStack.mem_replaceCurrent hsnapshot with hold | rfl
  · exact hcleared.recorded snapshot hold
  · exact hcleared.shown

end RepoState

theorem opening_restorable (id : Loading.RepoId) (preferences : OpenPreferences) :
    Restorable (AppState.opening id preferences) where
  shown := ⟨by rintro ⟨⟩, by rintro ⟨⟩, by rintro ⟨⟩⟩
  recorded := by rintro _ ⟨⟩

theorem DropsDiffOnly.recorded {active : Bool} {s : RepoState} {message : RepoMsg}
    (history : NavStack MainViewSnapshot) (h : DropsDiffOnly active s message) :
    DropsDiffOnly active { s with mainHistory := history } message := by
  cases message <;> exact h

def restorableViews (planner : Planner) : RepoInvariant planner where
  Holds := Restorable
  Allows := DropsDiffOnly
  opening := opening_restorable
  activate _ h := RepoState.activate_restorable h
  cancelLoads _ h := RepoState.cancelLoads_keeps.restorable h
  reconcile _ push h := RepoState.reconcileNavHistory_restorable h push
  handle _ active message h hdrops := RepoState.handle_restorable planner h active message hdrops
  recorded _ _ history _ h := h.recorded history

namespace RepoState
variable (s : RepoState) (planner : Planner)

variable {snapshot : MainViewSnapshot}

section

theorem mainViewSnapshot_eq (htarget : s.diffTarget = snapshot.diffTarget)
    (hpreview : s.contentPreview = snapshot.contentPreview) (hedit : s.editMode = snapshot.editMode)
    (hcommit : s.selectedCommit = snapshot.selectedCommit)
    (hrange : s.rangeSelection = snapshot.rangeSelection)
    (hworktree : s.worktreeSelection = snapshot.worktreeSelection) :
    s.mainViewSnapshot = snapshot := by
  rw [mainViewSnapshot, htarget, hpreview, hedit, hcommit, hrange, hworktree]

theorem focusSelection_focus (focus : CommitId) :
    (s.focusSelection focus).1.selectedCommit = some focus := by
  rw [focusSelection]
  cases s.selectedPair with
  | some pair => rfl
  | none =>
    have hfocus := (s.clearRangeComparison.1.selectCommitAndLoadDetails_focus focus).1
    dsimp only
    split
    · exact (reconcileSelectedCommitDetails_view _).selectedCommit.trans hfocus
    · exact hfocus

theorem restoreCommit_commit (commit : Option CommitId) :
    (s.restoreCommit planner commit).1.selectedCommit = commit := by
  cases commit with
  | none => rfl
  | some commitId =>
    have hselected : (s.selectCommit planner commitId).1.selectedCommit = some commitId :=
      focusSelection_focus _ commitId
    rw [restoreCommit]
    split_ifs
    · exact hselected
    · exact hselected

theorem restoreWorktree_commit {path : Option Path}
    (halone : path.isSome → s.selectedCommit = none) :
    (s.restoreWorktree planner path).1.selectedCommit = s.selectedCommit := by
  have hset : (s.setWorktreeSelection path).selectedCommit = s.selectedCommit := by
    rw [setWorktreeSelection]
    split_ifs with hsame hsome
    · rfl
    · exact (halone hsome).symm
    · rfl
  rw [restoreWorktree]
  split_ifs
  · rfl
  · exact hset
  · exact hset

theorem restoreRange_range (range : Option RangeSelection) :
    (s.restoreRange range).1.rangeSelection = range := by
  rw [restoreRange.eq_def]
  split
  · assumption
  · cases range with
    | none => exact clearRangeComparison_cleared.1
    | some range => rfl

theorem restoreRange_same (range : Option RangeSelection) :
    (s.restoreRange range).1.worktreeSelection = s.worktreeSelection ∧
      (s.restoreRange range).1.selectedCommit = s.selectedCommit := by
  rw [restoreRange.eq_def]
  split
  · exact ⟨rfl, rfl⟩
  · cases range with
    | none =>
      obtain ⟨hcommit, -, -, hworktree, -⟩ := s.clearRangeComparison_same
      exact ⟨hworktree, hcommit⟩
    | some range => exact s.setCommitMultiSelection_same .default false

theorem restoreTarget_view (hshown : snapshot.Shown) :
    (s.restoreTarget planner snapshot).1.diffTarget = snapshot.diffTarget ∧
      (s.restoreTarget planner snapshot).1.contentPreview = snapshot.contentPreview ∧
      (s.restoreTarget planner snapshot).1.editMode = snapshot.editMode := by
  obtain ⟨target, preview, edit, commit, range, worktree⟩ := snapshot
  have hedit : edit → preview := hshown.edit
  have hpreview : preview → target.isSome := hshown.preview
  cases target with
  | none =>
    have hclosed : preview = false := Bool.eq_false_iff.mpr fun hset => by cases hpreview hset
    subst hclosed
    have hleft : edit = false := Bool.eq_false_iff.mpr fun hset => by cases hedit hset
    subst hleft
    exact ⟨rfl, rfl, rfl⟩
  | some target =>
    obtain ⟨htarget, hmode, hediting⟩ := (s.alignViewHistory preview target).fillSelectDiff_view
      planner target (MainViewSnapshot.mode ⟨some target, preview, edit, commit, range, worktree⟩)
    refine ⟨htarget, hmode.trans ?_, hediting.trans ?_⟩
    · cases edit with
      | true => exact (hedit rfl).symm
      | false => cases preview <;> rfl
    · cases edit with
      | true => rfl
      | false => cases preview <;> rfl

theorem restore_mainViewSnapshot (hshown : snapshot.Shown) :
    (s.restore planner snapshot).1.mainViewSnapshot = snapshot := by
  let commit := (s.restoreCommit planner snapshot.selectedCommit).1
  let worktree := (commit.restoreWorktree planner snapshot.worktreeSelection).1
  let range := (worktree.restoreRange snapshot.rangeSelection).1
  have hcommit : commit.selectedCommit = snapshot.selectedCommit :=
    s.restoreCommit_commit planner _
  have hkept : worktree.selectedCommit = commit.selectedCommit :=
    commit.restoreWorktree_commit planner fun hsome => hcommit.trans (hshown.alone hsome)
  have hpath : worktree.worktreeSelection = snapshot.worktreeSelection :=
    commit.restoreWorktree_path planner _
  obtain ⟨hpathKept, hcommitKept⟩ := worktree.restoreRange_same snapshot.rangeSelection
  have hkeeps := range.restoreTarget_keeps planner snapshot
  obtain ⟨htarget, hpreview, hedit⟩ := range.restoreTarget_view planner hshown
  refine mainViewSnapshot_eq _ htarget hpreview hedit ?_ ?_ ?_
  · exact (hkeeps.selectedCommit.trans hcommitKept).trans (hkept.trans hcommit)
  · exact hkeeps.rangeSelection.trans (worktree.restoreRange_range _)
  · exact (hkeeps.worktreeSelection.trans hpathKept).trans hpath

end

section

theorem alignViewHistory_id (wanted : Bool) (target : Loading.DiffTarget) :
    (s.alignViewHistory wanted target).id = s.id := by
  rw [alignViewHistory]
  cases if wanted then viewHistoryEntryForTarget target else none <;> rfl

theorem fillSelectDiff_id (target : Loading.DiffTarget) (mode : Loading.ContentViewMode) :
    (s.fillSelectDiff planner target mode).1.id = s.id := by
  rw [fillSelectDiff]
  cases s.conflictOf planner target mode <;> rfl

theorem restoreTarget_id (snapshot : MainViewSnapshot) :
    (s.restoreTarget planner snapshot).1.id = s.id := by
  rw [restoreTarget]
  cases snapshot.diffTarget with
  | none => rfl
  | some target => exact (fillSelectDiff_id _ planner _ _).trans (s.alignViewHistory_id _ target)

theorem restore_id (snapshot : MainViewSnapshot) : (s.restore planner snapshot).1.id = s.id := by
  have hkept := keptHistory s
  have hcommit := hkept.restores.restoreCommit (.refl s) planner snapshot.selectedCommit
  have hworktree := hkept.restores.restoreWorktree hcommit planner snapshot.worktreeSelection
  exact (restoreTarget_id _ planner snapshot).trans
    (hkept.restoreRange hworktree snapshot.rangeSelection).id

theorem globalNav_id (dir : ViewNavDir) : (s.globalNav planner dir).1.id = s.id := by
  rw [globalNav]
  cases (s.mainHistory.step dir).2 with
  | none => rfl
  | some snapshot => exact restore_id _ planner snapshot

end

theorem globalNav_mainViewSnapshot {dir : ViewNavDir}
    (h : Restorable s) (hentry : (s.mainHistory.step dir).2 = some snapshot) :
    (s.globalNav planner dir).1.mainViewSnapshot = snapshot := by
  rw [globalNav, hentry]
  exact restore_mainViewSnapshot _ planner (h.recorded snapshot (NavStack.mem_of_step hentry))

end RepoState

namespace AppState
variable (state : AppState)

theorem repo?_onRepo (repoId : Loading.RepoId) {f : RepoState → RepoState}
    (hid : ∀ repo, (f repo).id = repo.id) :
    (state.onRepo repoId f).repo? repoId = (state.repo? repoId).map f := by
  obtain ⟨repos, activeRepo, nextRepoId⟩ := state
  rw [onRepo, repo?, repo?]
  dsimp only
  induction repos with
  | nil => rfl
  | cons repo repos ih =>
    rw [replaceF_cons]
    by_cases hrepo : repo.id = repoId
    · have hafter : (f repo).id = repoId := (hid repo).trans hrepo
      simp [hrepo, hafter]
    · simpa [hrepo] using ih

end AppState

structure RestoresViews (planner : Planner) (state : AppState) : Prop where
  edit : ∀ repo ∈ state.repos, repo.editMode = true → repo.contentPreview = true
  preview : ∀ repo ∈ state.repos, repo.contentPreview = true → repo.diffTarget.isSome = true
  restored : ∀ repoId dir repo snapshot, state.repo? repoId = some repo →
    (repo.mainHistory.step dir).2 = some snapshot →
    ∃ after, (state.reduce planner (.repo repoId (.globalNav dir))).repo? repoId = some after ∧
      after.mainViewSnapshot = snapshot

theorem RestoresViews.of_restorable {planner : Planner} {state : AppState}
    (h : (restorableViews planner).OnEach state) : RestoresViews planner state where
  edit repo hrepo := (h repo hrepo).shown.edit
  preview repo hrepo := (h repo hrepo).shown.preview
  restored repoId dir repo snapshot hrepo hentry := by
    have hstepped : (state.reduce planner (.repo repoId (.globalNav dir))).repo? repoId =
        (state.repo? repoId).map fun repo => (repo.globalNav planner dir).1 :=
      state.repo?_onRepo repoId fun repo => repo.globalNav_id planner dir
    rw [hstepped, hrepo]
    have hrestorable : Restorable repo := h repo (mem_of_find?_eq_some hrepo)
    exact ⟨_, rfl, repo.globalNav_mainViewSnapshot planner hrestorable hentry⟩

theorem back_and_forward_restore_the_recorded_view (planner : Planner) {messages : List Msg}
    (hdrops : AllowedAlong planner DropsDiffOnly .initial messages) :
    RestoresViews planner (AppState.run planner messages) := by
  have hrestorable : (restorableViews planner).OnEach (AppState.run planner messages) :=
    RepoInvariant.run hdrops
  exact .of_restorable hrestorable

theorem back_and_forward_restore_the_recorded_view_around_a_commit :
    RestoresViews plainPlanner (AppState.run plainPlanner (openedWith [.selectCommit "a",
      .openFileContent (.commit "a") "file", .selectDiff (.workingTree "file" .staged),
      .commitCompletionFinished, .globalNav .back])) := by
  refine back_and_forward_restore_the_recorded_view plainPlanner ⟨trivial, ?_, ?_, ?_, ?_, ?_,
    trivial⟩
  · exact fun _ _ _ => trivial
  · exact fun _ _ _ => trivial
  · exact fun _ _ _ => trivial
  · intro repo hrepo _
    rw [mem_singleton.mp hrepo]
    rfl
  · exact fun _ _ _ => trivial

theorem finished_commit_leaves_the_preview_on :
    ¬ ∀ messages, RestoresViews plainPlanner (AppState.run plainPlanner messages) := by
  intro h
  have hshown := (h (openedWith [.openFileContent .workingDirectory "file",
    .commitCompletionFinished])).preview _ (mem_singleton_self _) rfl
  exact Bool.false_ne_true hshown

end GitComet.Selection
