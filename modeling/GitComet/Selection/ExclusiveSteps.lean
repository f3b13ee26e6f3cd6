import GitComet.Selection.Exclusive

namespace GitComet.Selection
open IndexedHistory Loading

namespace RepoState
variable (s : RepoState) (planner : Planner)

section

theorem viewHistory_keeps (history : NavStack ViewHistoryEntry) :
    KeepsSelection s { s with viewHistory := history } := ⟨rfl, rfl, rfl, rfl, rfl, rfl, rfl⟩

theorem editReturnView_keeps (view : Option FileEditReturnView) :
    KeepsSelection s { s with editReturnView := view } := ⟨rfl, rfl, rfl, rfl, rfl, rfl, rfl⟩

theorem fillSelectDiff_keeps (target : DiffTarget) (mode : ContentViewMode) :
    KeepsSelection s (s.fillSelectDiff planner target mode).1 := by
  rw [fillSelectDiff]
  cases s.conflictOf planner target mode <;> exact ⟨rfl, rfl, rfl, rfl, rfl, rfl, rfl⟩

theorem openFileContent_keeps (source : FileSource) (path : Path) :
    KeepsSelection s (s.openFileContent planner source path).1 := by
  rw [openFileContent]
  cases contentViewTarget source path with
  | none => exact .refl s
  | some target =>
    exact (s.viewHistory_keeps _).trans (fillSelectDiff_keeps _ planner target .preview)

theorem openFileEditor_keeps (path : Path) :
    KeepsSelection s (s.openFileEditor planner path).1 := by
  have hopened := (s.viewHistory_keeps (s.viewHistory.record ⟨.workingDirectory, path⟩)).trans
    (fillSelectDiff_keeps _ planner (.workingTree path .unstaged) .edit)
  exact hopened.trans (editReturnView_keeps _ _)

theorem alignViewHistory_keeps (wanted : Bool) (target : DiffTarget) :
    KeepsSelection s (s.alignViewHistory wanted target) := by
  rw [alignViewHistory]
  cases if wanted then viewHistoryEntryForTarget target else none with
  | none => exact .refl s
  | some entry => exact ⟨rfl, rfl, rfl, rfl, rfl, rfl, rfl⟩

theorem showReturnView_keeps (target : DiffTarget) (mode : ContentViewMode) :
    KeepsSelection s (s.showReturnView planner target mode).1 :=
  (s.alignViewHistory_keeps _ target).trans (fillSelectDiff_keeps _ planner target mode)

theorem exitDiffEditMode_keeps : KeepsSelection s (s.exitDiffEditMode planner).1 := by
  have hshown : ∀ target mode, KeepsSelection s
      ({ s with editReturnView := none }.showReturnView planner target mode).1 :=
    fun target mode => (s.editReturnView_keeps none).trans
      (showReturnView_keeps _ planner target mode)
  rw [exitDiffEditMode]
  split
  · exact .refl s
  · dsimp only
    split
    · exact hshown _ _
    · exact hshown _ _
    · exact ⟨rfl, rfl, rfl, rfl, rfl, rfl, rfl⟩

theorem viewerNav_keeps (dir : ViewNavDir) : KeepsSelection s (s.viewerNav planner dir).1 := by
  have hstepped := s.viewHistory_keeps (s.viewHistory.step dir).1
  rw [viewerNav]
  split
  · exact hstepped
  · exact hstepped.trans (fillSelectDiff_keeps _ planner _ _)

theorem clearDiffSelectionForStatusAction_keeps (area : DiffArea) (paths : List Path) :
    KeepsSelection s (s.clearDiffSelectionForStatusAction area paths) := by
  have hforgotten : KeepsSelection s (s.forgetReturnView area paths) := by
    rw [forgetReturnView]
    split_ifs
    · exact ⟨rfl, rfl, rfl, rfl, rfl, rfl, rfl⟩
    · exact .refl s
  rw [clearDiffSelectionForStatusAction]
  split_ifs
  · exact hforgotten.trans clearDiffSelection_keeps
  · exact hforgotten

theorem clearDiffSelectionAfterDiscard_keeps (paths removedStaged : List Path) :
    KeepsSelection s (s.clearDiffSelectionAfterDiscard paths removedStaged) := by
  have hunstaged := s.clearDiffSelectionForStatusAction_keeps .unstaged paths
  rw [clearDiffSelectionAfterDiscard]
  split_ifs
  · exact .refl s
  · exact hunstaged
  · exact hunstaged.trans (clearDiffSelectionForStatusAction_keeps _ .staged removedStaged)

theorem fileBrowserReopen_keeps (source : FileSource) (path : Path) (listed : Bool) :
    KeepsSelection s (s.fileBrowserReopen planner source path listed).1 := by
  rw [fileBrowserReopen]
  split_ifs
  · exact .refl s
  · exact clearDiffSelection_keeps
  · exact .refl s
  · exact s.openFileContent_keeps planner source path

end

section
variable {s}

theorem revealTarget_keeps (target : Option CommitId) :
    KeepsView s { s with revealTarget := target } :=
  ⟨⟨rfl, rfl, rfl, rfl, rfl, rfl, rfl⟩, rfl, rfl, rfl, rfl⟩

theorem cancelLoads_keeps : KeepsView s s.cancelLoads :=
  ⟨⟨rfl, rfl, rfl, rfl, rfl, rfl, rfl⟩, rfl, rfl, rfl, rfl⟩

theorem showLog_keeps (log : Loading.Loadable LogPage) : KeepsView s (s.showLog log) := by
  rw [showLog]
  split_ifs
  · exact .refl s
  · exact ⟨⟨rfl, rfl, rfl, rfl, rfl, rfl, rfl⟩, rfl, rfl, rfl, rfl⟩

theorem indexed_keeps (history : IndexedHistory.IndexedHistoryState) :
    KeepsView s { s with indexed := history } :=
  ⟨⟨rfl, rfl, rfl, rfl, rfl, rfl, rfl⟩, rfl, rfl, rfl, rfl⟩

end

end RepoState

def flowRepo : Flow → RepoState
  | .returned repo _ => repo
  | .passed repo => repo

namespace RepoState
variable {s : RepoState}

theorem ensureIndex_keeps : KeepsView s (flowRepo s.ensureIndex) := by
  rw [ensureIndex]
  split
  · exact .refl s
  · dsimp only
    split_ifs
    · exact .refl s
    · exact indexed_keeps _
    · exact indexed_keeps _

theorem publish_keeps (index : HistoryIndexHandle) : KeepsView s (s.publish index) := by
  rw [publish]
  dsimp only
  split_ifs
  · exact .refl s
  · exact indexed_keeps _

theorem requestRanges_keeps (snapshot : HistorySnapshot) (blocks : List ℕ) (retry : Bool) :
    KeepsView s (flowRepo (s.requestRanges snapshot blocks retry)) := by
  rw [requestRanges]
  cases s.indexed.requestRanges snapshot blocks retry with
  | none => exact .refl s
  | some history => exact indexed_keeps _

theorem indexProgress_keeps (seq : BitVec 64) (progress : HistoryIndexProgress) :
    KeepsView s (s.indexProgress seq progress) := by
  rw [indexProgress]
  split_ifs
  · exact indexed_keeps _
  · exact .refl s

theorem rangeLoaded_keeps {snapshot : HistorySnapshot} {seq : BitVec 64} {start : ℕ}
    {result : Except String IndexedHistory.HistoryRange} {flow : Flow}
    (hflow : s.rangeLoaded snapshot seq start result = some flow) :
    KeepsView s (flowRepo flow) := by
  rw [rangeLoaded] at hflow
  split_ifs at hflow
  · cases hflow
    exact .refl s
  · obtain ⟨history, -, rfl⟩ := Option.map_eq_some_iff.mp hflow
    exact indexed_keeps _

theorem startMissingRanges_keeps : KeepsView s s.startMissingRanges.1 := by
  rw [startMissingRanges]
  cases s.indexed.rangeIndex with
  | none => exact .refl s
  | some index => exact indexed_keeps _

end RepoState

structure KeptByRestore (Holds : RepoState → Prop) : Prop where
  clear : ∀ {s}, Holds s → Holds s.clearCommitSelection
  select : ∀ {s}, Holds s → ∀ planner commitId, Holds (s.selectCommit planner commitId).1
  worktree : ∀ {s}, Holds s → ∀ path, Holds (s.setWorktreeSelection path)
  details : ∀ {s}, Holds s → ∀ details, Holds { s with commitDetails := details }

structure KeptByView (Holds : RepoState → Prop) : Prop extends KeptByRestore Holds where
  view : ∀ {s after}, KeepsView s after → Holds s → Holds after
  reconcile : ∀ {s}, Holds s → ∀ {survives} {shared : Bool},
    (shared → s.multiSelection.commits.all survives) →
      Holds (s.reconcileSelection survives shared).1

variable {Holds : RepoState → Prop} {s : RepoState}

theorem KeptBySelection.restores (hkept : KeptBySelection Holds) : KeptByRestore Holds where
  clear := hkept.clearCommitSelection
  select h planner _ := hkept.selectCommitMulti h planner _ _ _ _
  worktree := hkept.worktree
  details := hkept.details

namespace KeptByRestore
variable (hkept : KeptByRestore Holds) (h : Holds s) (planner : Planner)
include hkept h

theorem restoreCommit (commit : Option CommitId) : Holds (s.restoreCommit planner commit).1 := by
  cases commit with
  | none => exact hkept.clear h
  | some commitId =>
    have hselected := hkept.select h planner commitId
    rw [RepoState.restoreCommit]
    split_ifs
    · exact hkept.details hselected _
    · exact hselected

theorem restoreWorktree (path : Option Path) : Holds (s.restoreWorktree planner path).1 := by
  have hset := hkept.worktree h path
  rw [RepoState.restoreWorktree]
  split_ifs
  · exact h
  · exact hset
  · exact hkept.details hset _

end KeptByRestore

namespace KeptByView
variable (hkept : KeptByView Holds) (h : Holds s) (planner : Planner)
include hkept h

theorem selectWorktreeUncommitted (path : Path) :
    Holds (s.selectWorktreeUncommitted planner path).1 := by
  rw [RepoState.selectWorktreeUncommitted]
  split_ifs
  · exact h
  · exact hkept.details (hkept.worktree h (some path)) _

theorem worktreeDirtyLoaded (result : Except ReadError (List Path)) :
    Holds (s.worktreeDirtyLoaded result) := by
  have hkeeps : KeepsView s { s with worktreeDirty := s.worktreeDirtyAfter result } :=
    ⟨⟨rfl, rfl, rfl, rfl, rfl, rfl, rfl⟩, rfl, rfl, rfl, rfl⟩
  have hloaded := hkept.view hkeeps h
  rw [RepoState.worktreeDirtyLoaded]
  split_ifs
  · exact hkept.worktree hloaded none
  · exact hloaded

theorem commitRevealResolved (reference : CommitId) (result : Except String CommitDetails) :
    Holds (s.commitRevealResolved planner reference result).1 := by
  rw [RepoState.commitRevealResolved.eq_def]
  split_ifs
  · exact h
  · cases result with
    | error message => exact hkept.view (RepoState.revealTarget_keeps none) h
    | ok details =>
      have hrevealed := hkept.view (RepoState.revealTarget_keeps (some details.id)) h
      exact hkept.select (hkept.details hrevealed _) planner details.id

theorem reconcileSelectionFromPage (page : LogPage) :
    Holds (s.reconcileSelectionFromPage page).1 := by
  rw [RepoState.reconcileSelectionFromPage]
  split_ifs
  · exact h
  · exact hkept.reconcile h (by rintro ⟨⟩)

theorem indexBuilt (seq : BitVec 64) (result : Except String (Option HistoryIndexHandle)) :
    Holds (flowRepo (s.indexBuilt seq result)) := by
  have hindexed : ∀ {s} history, Holds s → Holds { s with indexed := history } :=
    fun history => hkept.view (RepoState.indexed_keeps history)
  rw [RepoState.indexBuilt.eq_def]
  split_ifs
  · exact h
  · cases result with
    | error message => exact hindexed _ h
    | ok built =>
      cases built with
      | none => exact hindexed _ h
      | some index =>
        dsimp only
        split_ifs
        · rw [RepoState.installIndex]
          exact hkept.reconcile (hindexed _ (hindexed _ h)) fun hall => hall
        · exact hindexed _ h

theorem handleIndexed {event : IndexedHistoryMsg} {flow : Flow}
    (hselect : ∀ commitId mode projection, event = .select commitId mode projection →
      Holds (s.indexedSelect planner commitId mode projection).1)
    (hflow : s.handleIndexed planner event = some flow) : Holds (flowRepo flow) := by
  cases event with
  | rangeLoaded snapshot seq start result =>
    exact hkept.view (RepoState.rangeLoaded_keeps hflow) h
  | retry =>
    cases hflow
    exact hkept.view RepoState.ensureIndex_keeps (hkept.view (RepoState.indexed_keeps _) h)
  | ensure =>
    cases hflow
    exact hkept.view RepoState.ensureIndex_keeps h
  | publish index =>
    cases hflow
    exact hkept.view (RepoState.publish_keeps index) h
  | select commitId mode projection =>
    cases hflow
    exact hselect commitId mode projection rfl
  | requestRanges snapshot blocks retry =>
    cases hflow
    exact hkept.view (RepoState.requestRanges_keeps snapshot blocks retry) h
  | progress seq progress =>
    cases hflow
    exact hkept.view (RepoState.indexProgress_keeps seq progress) h
  | built seq result =>
    cases hflow
    exact hkept.indexBuilt h seq result

theorem reduceIndexed {event : IndexedHistoryMsg}
    (hselect : ∀ commitId mode projection, event = .select commitId mode projection →
      Holds (s.indexedSelect planner commitId mode projection).1) :
    Holds (((s.reduceIndexed planner event).map Prod.fst).getD s) := by
  rw [RepoState.reduceIndexed]
  cases hflow : s.handleIndexed planner event with
  | none => exact h
  | some flow =>
    have hafter := hkept.handleIndexed h planner hselect hflow
    cases flow with
    | returned repo effects => exact hafter
    | passed repo => exact hkept.view RepoState.startMissingRanges_keeps hafter

end KeptByView

namespace RepoState
variable {s : RepoState} (planner : Planner)

theorem keptExclusive : KeptByView Exclusive where
  clear h := clearCommitSelection_exclusive h.toSelecting
  select h planner := selectCommit_exclusive planner h
  worktree := setWorktreeSelection_exclusive
  details h _ := (commitDetails_keeps _).exclusive h
  view hkeeps := hkeeps.exclusive
  reconcile h _ _ hshared := reconcileSelection_exclusive h hshared

theorem emptied_exclusive (h : Exclusive s) : Exclusive { s with mainHistory := .empty } :=
  ⟨⟨h.distinct, h.ids, h.alone, h.range, by rintro _ ⟨⟩⟩, h.focus⟩

theorem rangeFilesLoaded_exclusive (h : Exclusive s) (fromId : CommitId) (toId : Option CommitId)
    (request : BitVec 64) : Exclusive (s.rangeFilesLoaded fromId toId request).1 := by
  have hlanded : ∀ queued, Exclusive { s with
      rangeFilesInFlight := false
      rangeFilesRefreshQueued := queued } := fun _ =>
    ⟨⟨h.distinct, h.ids, h.alone, fun _ => rfl, h.recorded⟩, h.focus⟩
  rw [rangeFilesLoaded]
  split
  · exact h
  · split
    · exact hlanded false
    · rename_i hcurrent
      split
      · exact hlanded _
      · refine ⟨⟨h.distinct, h.ids, h.alone, fun hnone => ?_, h.recorded⟩, h.focus⟩
        have hgone : s.rangeSelection = none := hnone
        rw [rangeIs, hgone] at hcurrent
        exact absurd rfl hcurrent

theorem refreshRangeComparison_exclusive (h : Exclusive s) (change : RepoExternalChange) :
    Exclusive (s.refreshRangeComparison change).1 := by
  rw [refreshRangeComparison]
  split
  · exact h
  · rename_i range hrange
    have hshown : s.rangeSelection = some range := by
      split_ifs at hrange
      exact hrange
    split
    · exact h
    · rw [requestRangeFilesRefresh]
      split
      · exact ⟨⟨h.distinct, h.ids, h.alone, h.range, h.recorded⟩, h.focus⟩
      · refine ⟨⟨h.distinct, h.ids, h.alone, fun hnone => ?_, h.recorded⟩, h.focus⟩
        cases hshown.symm.trans hnone

theorem setWorktreeSelection_path (path : Option Path) :
    (s.setWorktreeSelection path).worktreeSelection = path := by
  rw [setWorktreeSelection]
  split_ifs with hsame
  · exact hsame
  · rfl
  · rfl

theorem restoreWorktree_path (path : Option Path) :
    (s.restoreWorktree planner path).1.worktreeSelection = path := by
  rw [restoreWorktree]
  split_ifs with hsame
  · exact hsame
  · exact setWorktreeSelection_path path
  · exact setWorktreeSelection_path path

theorem restoreRange_exclusive (h : Exclusive s) {range : Option RangeSelection}
    (halone : s.worktreeSelection.isSome → range = none) :
    Exclusive (s.restoreRange range).1 := by
  rw [restoreRange.eq_def]
  split_ifs with hsame
  · exact h
  · cases range with
    | none => exact clearRangeComparison_exclusive h
    | some range =>
      refine compareRange_explicit h.toSelecting ?_ _ _ _ _
      cases hworktree : s.worktreeSelection with
      | none => rfl
      | some path =>
        rw [hworktree] at halone
        cases halone rfl

theorem restoreTarget_keeps (snapshot : MainViewSnapshot) :
    KeepsSelection s (s.restoreTarget planner snapshot).1 := by
  rw [restoreTarget]
  cases snapshot.diffTarget with
  | none => exact clearDiffSelection_keeps
  | some target =>
    exact (s.alignViewHistory_keeps _ target).trans (fillSelectDiff_keeps _ planner target _)

theorem restore_exclusive (h : Exclusive s) {snapshot : MainViewSnapshot}
    (halone : snapshot.worktreeSelection.isSome → snapshot.rangeSelection = none) :
    Exclusive (s.restore planner snapshot).1 := by
  have hcommit := keptExclusive.restoreCommit h planner snapshot.selectedCommit
  have hworktree := keptExclusive.restoreWorktree hcommit planner snapshot.worktreeSelection
  have hpath := (s.restoreCommit planner snapshot.selectedCommit).1.restoreWorktree_path planner
    snapshot.worktreeSelection
  refine (restoreTarget_keeps planner snapshot).exclusive (restoreRange_exclusive hworktree ?_)
  rw [hpath]
  exact halone

theorem globalNav_exclusive (h : Exclusive s) (dir : ViewNavDir) :
    Exclusive (s.globalNav planner dir).1 := by
  have hstepped : Exclusive { s with mainHistory := (s.mainHistory.step dir).1 } := by
    refine ⟨⟨h.distinct, h.ids, h.alone, h.range, ?_⟩, h.focus⟩
    rw [NavStack.step_entries]
    exact h.recorded
  rw [globalNav]
  cases hentry : (s.mainHistory.step dir).2 with
  | none => exact hstepped
  | some snapshot =>
    have hsnapshot := h.recorded snapshot (NavStack.mem_of_step hentry)
    exact restore_exclusive planner hstepped fun hsome => (hsnapshot hsome).2

section
variable (h : Exclusive s)
include h

theorem reloadRepo_exclusive : Exclusive s.reloadRepo := by
  have hshown := (cancelLoads_keeps.trans (showLog_keeps .loading)).selecting h.toSelecting
  have hemptied := emptied_exclusive (clearCommitSelection_exclusive hshown)
  exact ⟨⟨hemptied.distinct, hemptied.ids, hemptied.alone, hemptied.range, hemptied.recorded⟩,
    hemptied.focus⟩

theorem repoOpenedOk_exclusive (active : Bool) : Exclusive (s.repoOpenedOk active) := by
  cases active with
  | false => exact ⟨⟨h.distinct, h.ids, h.alone, h.range, h.recorded⟩, h.focus⟩
  | true =>
    have hshown := (showLog_keeps .loading).selecting h.toSelecting
    have hemptied := emptied_exclusive (clearCommitSelection_exclusive hshown)
    exact ⟨⟨hemptied.distinct, hemptied.ids, hemptied.alone, hemptied.range, hemptied.recorded⟩,
      hemptied.focus⟩

theorem repoCommandFinished_exclusive (command : RepoCommandKind) :
    Exclusive (s.repoCommandFinished command) := by
  have hcleared : ∀ target, Exclusive { s with diffTarget := target } := fun _ =>
    ⟨⟨h.distinct, h.ids, h.alone, h.range, h.recorded⟩, h.focus⟩
  rw [repoCommandFinished]
  split_ifs
  · exact clearCommitSelection_exclusive (hcleared none).toSelecting
  · exact clearCommitSelection_exclusive h.toSelecting
  · exact hcleared none
  · exact h

theorem reconcileNavHistory_exclusive (push : Bool) : Exclusive (s.reconcileNavHistory push) := by
  refine ⟨⟨h.distinct, h.ids, h.alone, h.range, fun snapshot hsnapshot => ?_⟩, h.focus⟩
  rcases NavStack.mem_reconcile hsnapshot with hold | rfl
  · exact h.recorded snapshot hold
  · exact h.alone

theorem activate_exclusive : Exclusive s.activate := by
  have hcleared := clearCommitSelection_exclusive h.toSelecting
  refine ⟨⟨hcleared.distinct, hcleared.ids, hcleared.alone, hcleared.range,
    fun snapshot hsnapshot => ?_⟩, hcleared.focus⟩
  rcases NavStack.mem_replaceCurrent hsnapshot with hold | rfl
  · exact hcleared.recorded snapshot hold
  · exact hcleared.alone

end

def rowsOf (message : IndexedHistoryMsg) : Prop :=
  match message with
  | .select _ .range projection => ∀ first last, (projection.between first last).Nodup
  | _ => True

theorem indexedSelect_exclusive (h : Exclusive s) {commitId : CommitId} {mode : CommitSelectMode}
    {projection : HistoryProjection}
    (hrows : mode = .range → ∀ first last, (projection.between first last).Nodup) :
    Exclusive (s.indexedSelect planner commitId mode projection).1 := by
  rw [indexedSelect]
  split_ifs
  · exact h
  · cases projection.position commitId with
    | none => exact h
    | some clicked =>
      refine selectCommitMulti_exclusive planner h fun hmode => ?_
      rw [if_pos hmode]
      exact hrows hmode _ _

end RepoState

def Careful (_ : Bool) (s : RepoState) : RepoMsg → Prop
  | .compareCommitRange _ _ _ _ | .compareWithWorkingTree _ _ => s.worktreeSelection = none
  | .compareWithMarked commitId _ =>
    (s.comparisonMark.any fun mark => mark.commitId ≠ commitId) = true → s.worktreeSelection = none
  | .selectCommitMulti _ .range _ visibleOrder => (visibleOrder.getD []).Nodup
  | .indexedHistory event => RepoState.rowsOf event
  | _ => True

namespace RepoState
variable {s : RepoState} (planner : Planner)

theorem compareWithMarked_exclusive (h : Exclusive s) {commitId : CommitId} {label : String}
    (hrow : (s.comparisonMark.any fun mark => mark.commitId ≠ commitId) →
      s.worktreeSelection = none) : Exclusive (s.compareWithMarked commitId label).1 := by
  rw [compareWithMarked]
  cases hmark : s.comparisonMark.filter fun mark => mark.commitId ≠ commitId with
  | none => exact h
  | some mark =>
    obtain ⟨hsome, hother⟩ := Option.filter_eq_some_iff.mp hmark
    refine compareRange_explicit h.toSelecting (hrow ?_) _ _ _ _
    rw [hsome]
    exact hother

theorem handle_exclusive (h : Exclusive s) (active : Bool) (message : RepoMsg)
    (hcareful : Careful active s message) : Exclusive (s.handle planner active message) := by
  cases message with
  | selectCommit commitId => exact selectCommit_exclusive planner h commitId
  | selectCommitMulti commitId mode clickedIndex visibleOrder =>
    refine selectCommitMulti_exclusive planner h fun hmode => ?_
    subst hmode
    exact hcareful
  | indexedHistory event =>
    refine keptExclusive.reduceIndexed h planner fun commitId mode projection hselect => ?_
    refine indexedSelect_exclusive planner h fun hmode => ?_
    subst hselect hmode
    exact hcareful
  | clearCommitSelection => exact clearCommitSelection_exclusive h.toSelecting
  | compareCommitRange fromId toId fromLabel toLabel =>
    exact compareRange_explicit h.toSelecting hcareful _ _ _ _
  | compareWithWorkingTree fromId fromLabel =>
    exact compareRange_explicit h.toSelecting hcareful _ _ _ _
  | clearComparison => exact clearComparison_exclusive h
  | markForComparison | clearComparisonMark =>
    exact ⟨⟨h.distinct, h.ids, h.alone, h.range, h.recorded⟩, h.focus⟩
  | compareWithMarked commitId label => exact compareWithMarked_exclusive h hcareful
  | rangeFilesLoaded fromId toId request => exact rangeFilesLoaded_exclusive h fromId toId request
  | selectWorktreeUncommitted path => exact keptExclusive.selectWorktreeUncommitted h planner path
  | worktreeDirtyLoaded result => exact keptExclusive.worktreeDirtyLoaded h result
  | revealCommit reference => exact (revealTarget_keeps _).exclusive h
  | finishCommitReveal => exact (revealTarget_keeps none).exclusive h
  | commitRevealResolved reference result =>
    exact keptExclusive.commitRevealResolved h planner reference result
  | selectDiff target => exact (s.fillSelectDiff_keeps planner target .diff).exclusive h
  | selectConflictDiff path =>
    exact ⟨⟨h.distinct, h.ids, h.alone, h.range, h.recorded⟩, h.focus⟩
  | clearDiffSelection => exact clearDiffSelection_keeps.exclusive h
  | openFileContent source path => exact (s.openFileContent_keeps planner source path).exclusive h
  | openFileEditor path => exact (s.openFileEditor_keeps planner path).exclusive h
  | exitDiffEditMode => exact (s.exitDiffEditMode_keeps planner).exclusive h
  | viewerNav dir => exact (s.viewerNav_keeps planner dir).exclusive h
  | globalNav dir => exact globalNav_exclusive planner h dir
  | fileBrowserReopen source path listed =>
    exact (s.fileBrowserReopen_keeps planner source path listed).exclusive h
  | statusActionFinished area paths =>
    exact (s.clearDiffSelectionForStatusAction_keeps area paths).exclusive h
  | discardFinished paths removedStaged =>
    exact (s.clearDiffSelectionAfterDiscard_keeps paths removedStaged).exclusive h
  | commitCompletionFinished =>
    exact ⟨⟨h.distinct, h.ids, h.alone, h.range, h.recorded⟩, h.focus⟩
  | repoCommandFinished command => exact repoCommandFinished_exclusive h command
  | reloadRepo => exact reloadRepo_exclusive h
  | repoOpenedOk => exact repoOpenedOk_exclusive h active
  | firstLogPageLoaded page =>
    exact keptExclusive.reconcileSelectionFromPage ((showLog_keeps _).exclusive h) page
  | repoExternallyChanged change => exact refreshRangeComparison_exclusive h change
  | elsewhere change navigates => exact (change.keeps s).exclusive h

end RepoState

end GitComet.Selection
