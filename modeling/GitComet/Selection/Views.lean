import GitComet.IndexedHistory.Reduce

namespace GitComet.Selection
open Loading

def contentViewTarget : FileSource → Path → Option DiffTarget
  | .workingDirectory, path => some (.workingTree path .unstaged)
  | .commit commitId, path => some (.commit commitId (some path))
  | .branch _, _ => none

def viewHistoryEntryForTarget : DiffTarget → Option ViewHistoryEntry
  | .commit commitId (some path) => some ⟨.commit commitId, path⟩
  | .workingTree path .unstaged => some ⟨.workingDirectory, path⟩
  | _ => none

namespace MainViewSnapshot

def mode (snapshot : MainViewSnapshot) : ContentViewMode :=
  if snapshot.editMode then .edit else if snapshot.contentPreview then .preview else .diff

end MainViewSnapshot

namespace RepoState
variable (s : RepoState) (planner : Planner)

def mainViewSnapshot : MainViewSnapshot where
  diffTarget := s.diffTarget
  contentPreview := s.contentPreview
  editMode := s.editMode
  selectedCommit := s.selectedCommit
  rangeSelection := s.rangeSelection
  worktreeSelection := s.worktreeSelection

def enterContentView (mode : ContentViewMode) : RepoState :=
  { s with
    contentPreview := mode.isContentView
    editMode := mode = .edit
    editReturnView := if mode = .edit then s.editReturnView else none }

def conflictOf (target : DiffTarget) (mode : ContentViewMode) :
    Option Loading.SelectedConflictTarget :=
  if mode.isContentView then none
  else planner.selectedConflictTarget (s.enterContentView mode) target

def fillSelectDiff (target : DiffTarget) (mode : ContentViewMode) : RepoState × List Effect :=
  let selected := { s.enterContentView mode with diffTarget := some target }
  match s.conflictOf planner target mode with
  | some conflict => (selected, [.reloadConflict s.id conflict])
  | none => (selected, [.loadSelectedDiff s.id (planner.selectedDiffLoadPlan selected target)])

def selectDiff (target : DiffTarget) : RepoState × List Effect :=
  s.fillSelectDiff planner target .diff

def openFileContent (source : FileSource) (path : Path) : RepoState × List Effect :=
  match contentViewTarget source path with
  | none => (s, [])
  | some target =>
    { s with viewHistory := s.viewHistory.record ⟨source, path⟩ }.fillSelectDiff planner target
      .preview

def returnView : Option FileEditReturnView :=
  if s.editMode then s.editReturnView
  else s.diffTarget.map fun target => ⟨target, s.contentPreview⟩

def openFileEditor (path : Path) : RepoState × List Effect :=
  let recorded := { s with viewHistory := s.viewHistory.record ⟨.workingDirectory, path⟩ }
  let opened := recorded.fillSelectDiff planner (.workingTree path .unstaged) .edit
  ({ opened.1 with editReturnView := s.returnView }, opened.2)

def alignViewHistory (wanted : Bool) (target : DiffTarget) : RepoState :=
  match if wanted then viewHistoryEntryForTarget target else none with
  | none => s
  | some entry => { s with viewHistory := s.viewHistory.seekOrRecord entry }

def showReturnView (target : DiffTarget) (mode : ContentViewMode) : RepoState × List Effect :=
  (s.alignViewHistory (mode = .preview) target).fillSelectDiff planner target mode

def exitDiffEditMode : RepoState × List Effect :=
  if !s.editMode then (s, [])
  else
    let taken := { s with editReturnView := none }
    match s.editReturnView, s.diffTarget with
    | some view, _ =>
      taken.showReturnView planner view.target (if view.contentPreview then .preview else .diff)
    | none, some target => taken.showReturnView planner target .preview
    | none, none => ({ taken with editMode := false, contentPreview := true }, [])

def viewerNav (dir : ViewNavDir) : RepoState × List Effect :=
  let stepped := s.viewHistory.step dir
  let s := { s with viewHistory := stepped.1 }
  match stepped.2.bind fun entry => contentViewTarget entry.source entry.path with
  | none => (s, [])
  | some target => s.fillSelectDiff planner target .preview

def selectConflictDiff (path : Path) : RepoState × List Effect :=
  ({ s with
     contentPreview := false
     editMode := false
     editReturnView := none
     diffTarget := some (.workingTree path .unstaged) }, [.reloadConflictAs s.id path .currentOnly])

def inStatusAction (area : DiffArea) (paths : List Path) : DiffTarget → Bool
  | .workingTree path selectedArea => selectedArea = area && (paths.isEmpty || paths.contains path)
  | _ => false

def forgetReturnView (area : DiffArea) (paths : List Path) : RepoState :=
  if s.editReturnView.any fun view => !view.contentPreview && inStatusAction area paths view.target
  then { s with editReturnView := none }
  else s

def clearDiffSelectionForStatusAction (area : DiffArea) (paths : List Path) : RepoState :=
  let s := s.forgetReturnView area paths
  if !s.contentPreview && s.diffTarget.any (inStatusAction area paths) then s.clearDiffSelection
  else s

def clearDiffSelectionAfterDiscard (paths removedStaged : List Path) : RepoState :=
  if paths.isEmpty then s
  else
    let s := s.clearDiffSelectionForStatusAction .unstaged paths
    if removedStaged.isEmpty then s
    else s.clearDiffSelectionForStatusAction .staged removedStaged

def restoreCommit : Option CommitId → RepoState × List Effect
  | some commitId =>
    let selected := s.selectCommit planner commitId
    if selected.2.isEmpty && !selected.1.detailsLoaded commitId then
      ({ selected.1 with commitDetails := .notLoaded }, [.loadCommitDetails s.id commitId])
    else selected
  | none => (s.clearCommitSelection, [])

def worktreeDirtyEffects : List Effect :=
  if planner.requestsWorktreeDirty s then [.loadWorktreeDirty s.id] else []

def restoreWorktree (path : Option Path) : RepoState × List Effect :=
  if s.worktreeSelection = path then (s, [])
  else
    let s := s.setWorktreeSelection path
    if path.isNone then (s, [])
    else
      let s := { s with commitDetails := .notLoaded }
      (s, s.worktreeDirtyEffects planner)

def restoreRange (range : Option Loading.RangeSelection) : RepoState × List Effect :=
  if s.rangeSelection = range then (s, [])
  else
    match range with
    | some range => s.compareRange range.fromId range.toId range.fromLabel range.toLabel .explicit
    | none => (s.clearRangeComparison.1, [])

def restoreTarget (snapshot : MainViewSnapshot) : RepoState × List Effect :=
  match snapshot.diffTarget with
  | some target =>
    (s.alignViewHistory snapshot.contentPreview target).fillSelectDiff planner target snapshot.mode
  | none => (s.clearDiffSelection, [])

def restore (snapshot : MainViewSnapshot) : RepoState × List Effect :=
  let commit := s.restoreCommit planner snapshot.selectedCommit
  let worktree := commit.1.restoreWorktree planner snapshot.worktreeSelection
  let range := worktree.1.restoreRange snapshot.rangeSelection
  let target := range.1.restoreTarget planner snapshot
  (target.1, commit.2 ++ worktree.2 ++ range.2 ++ target.2)

def globalNav (dir : ViewNavDir) : RepoState × List Effect :=
  let stepped := s.mainHistory.step dir
  let s := { s with mainHistory := stepped.1 }
  match stepped.2 with
  | none => (s, [])
  | some snapshot => s.restore planner snapshot

end RepoState

end GitComet.Selection

namespace GitComet.Selection
open IndexedHistory Loading

inductive RepoCommandKind where
  | reset | squashCommits | rebase | rebaseContinue | rebaseAbort | interactiveRebase
  | interactiveCherryPick | cherryPick | revert | mergeAbort | other
  deriving DecidableEq

namespace RepoCommandKind

def clearsDiffTarget (command : RepoCommandKind) : Bool := command != .other

def clearsSelection : RepoCommandKind → Bool
  | .squashCommits | .interactiveRebase | .interactiveCherryPick => true
  | _ => false

end RepoCommandKind

structure KeepsSelection (s after : RepoState) : Prop where
  selectedCommit : after.selectedCommit = s.selectedCommit
  multiSelection : after.multiSelection = s.multiSelection
  selectedIds : after.selectedIds = s.selectedIds
  rangeSelection : after.rangeSelection = s.rangeSelection
  rangeFilesInFlight : after.rangeFilesInFlight = s.rangeFilesInFlight
  worktreeSelection : after.worktreeSelection = s.worktreeSelection
  mainHistory : after.mainHistory = s.mainHistory

structure KeepsView (s after : RepoState) : Prop extends KeepsSelection s after where
  id : after.id = s.id
  diffTarget : after.diffTarget = s.diffTarget
  contentPreview : after.contentPreview = s.contentPreview
  editMode : after.editMode = s.editMode

structure OtherChange where
  apply : RepoState → RepoState
  keeps : ∀ s, KeepsView s (apply s)

inductive RepoMsg where
  | selectCommit (commitId : CommitId)
  | selectCommitMulti (commitId : CommitId) (mode : CommitSelectMode) (clickedIndex : Option ℕ)
      (visibleOrder : Option (List CommitId))
  | indexedHistory (event : IndexedHistoryMsg)
  | clearCommitSelection
  | compareCommitRange (fromId toId : CommitId) (fromLabel toLabel : String)
  | compareWithWorkingTree (fromId : CommitId) (fromLabel : String)
  | clearComparison
  | markForComparison (commitId : CommitId) (label : String)
  | compareWithMarked (commitId : CommitId) (label : String)
  | clearComparisonMark
  | rangeFilesLoaded (fromId : CommitId) (toId : Option CommitId) (request : BitVec 64)
  | selectWorktreeUncommitted (path : Path)
  | worktreeDirtyLoaded (result : Except ReadError (List Path))
  | revealCommit (reference : CommitId)
  | finishCommitReveal
  | commitRevealResolved (reference : CommitId) (result : Except String CommitDetails)
  | selectDiff (target : DiffTarget)
  | selectConflictDiff (path : Path)
  | clearDiffSelection
  | openFileContent (source : FileSource) (path : Path)
  | openFileEditor (path : Path)
  | exitDiffEditMode
  | viewerNav (dir : ViewNavDir)
  | globalNav (dir : ViewNavDir)
  | fileBrowserReopen (source : FileSource) (path : Path) (listed : Bool)
  | statusActionFinished (area : DiffArea) (paths : List Path)
  | discardFinished (paths removedStaged : List Path)
  | commitCompletionFinished
  | repoCommandFinished (command : RepoCommandKind)
  | reloadRepo
  | repoOpenedOk
  | firstLogPageLoaded (page : LogPage)
  | repoExternallyChanged (change : RepoExternalChange)
  | elsewhere (change : OtherChange) (navigates : Bool)

namespace RepoState
variable (s : RepoState) (planner : Planner)

def showLog (log : Loadable LogPage) : RepoState :=
  if s.log = log then s else { s with logSnapshot := none, log := log, logRev := s.logRev + 1 }

def compareWithWorkingTree (fromId : CommitId) (fromLabel : String) : RepoState × List Effect :=
  s.compareRange fromId none fromLabel "Working tree" .explicit

def rangeIs (fromId : CommitId) (toId : Option CommitId) : Bool :=
  s.rangeSelection.any fun range => range.fromId = fromId && range.toId = toId

def rangeFilesLoaded (fromId : CommitId) (toId : Option CommitId) (request : BitVec 64) :
    RepoState × List Effect :=
  if request ≠ s.rangeFilesRequest then (s, [])
  else
    let landed := { s with rangeFilesInFlight := false }
    if !s.rangeIs fromId toId then ({ landed with rangeFilesRefreshQueued := false }, [])
    else if !s.rangeFilesRefreshQueued then (landed, [])
    else
      let begun := landed.beginRangeFilesLoad
      (begun.1, [.loadRangeFiles s.id fromId toId begun.2])

def refreshRangeComparison (change : RepoExternalChange) : RepoState × List Effect :=
  match if change.gitState || change.index || change.worktree then s.rangeSelection else none with
  | none => (s, [])
  | some range =>
    if range.toId.isSome then (s, [])
    else
      let requested := s.requestRangeFilesRefresh
      (requested.1, requested.2.toList.map fun request =>
        .loadRangeFiles s.id range.fromId none request)

def selectWorktreeUncommitted (path : Path) : RepoState × List Effect :=
  if s.worktreeSelection = some path then (s, [])
  else
    let s := { s.setWorktreeSelection (some path) with commitDetails := .notLoaded }
    (s, s.worktreeDirtyEffects planner)

def worktreeDirtyAfter : Except ReadError (List Path) → Loadable (List Path)
  | .ok dirty => .ready dirty
  | .error failure =>
    if s.worktreeDirty.ready?.isSome then s.worktreeDirty
    else
      match failure with
      | .cancelled => .notLoaded
      | .failed message => .error message

def selectedWorktreeIsGone : Bool :=
  s.worktreeSelection.any fun selected => s.worktreeDirty.ready?.any fun dirty =>
    !dirty.contains selected

def worktreeDirtyLoaded (result : Except ReadError (List Path)) : RepoState :=
  let s := { s with worktreeDirty := s.worktreeDirtyAfter result }
  if s.selectedWorktreeIsGone then s.setWorktreeSelection none else s

def revealCommit (reference : CommitId) : RepoState × List Effect :=
  ({ s with revealTarget := some reference }, [.resolveCommitForReveal s.id reference])

def commitRevealResolved (reference : CommitId) (result : Except String CommitDetails) :
    RepoState × List Effect :=
  if s.revealTarget ≠ some reference then (s, [])
  else
    match result with
    | .error _ => ({ s with revealTarget := none }, [])
    | .ok details =>
      let revealed := { s with revealTarget := some details.id, commitDetails := .ready details }
      let selected := revealed.selectCommit planner details.id
      (selected.1, selected.2 ++
        if planner.verifiesSignatures revealed then [.verifyCommitSignatures s.id] else [])

def fileBrowserReopen (source : FileSource) (path : Path) (listed : Bool) :
    RepoState × List Effect :=
  if s.editMode || !s.contentPreview then (s, [])
  else if !listed then (s.clearDiffSelection, [])
  else if contentViewTarget source path = s.diffTarget then (s, [])
  else s.openFileContent planner source path

def commitCompletionFinished : RepoState := { s with diffTarget := none }

def repoCommandFinished (command : RepoCommandKind) : RepoState :=
  let s := if command.clearsDiffTarget then { s with diffTarget := none } else s
  if command.clearsSelection then s.clearCommitSelection else s

def cancelLoads : RepoState :=
  { s.bumpLoadEpoch with
    log := s.log.clearLoading
    commitDetails := s.commitDetails.clearLoading }

def reloadRepo : RepoState :=
  { (s.cancelLoads.showLog .loading).clearCommitSelection with
    comparisonMark := none
    mainHistory := .empty
    viewHistory := .empty }

def repoOpenedOk (active : Bool) : RepoState :=
  if !active then
    { s with log := s.log.clearLoading, commitDetails := s.commitDetails.clearLoading }
  else
    { (s.showLog .loading).clearCommitSelection with
      diffTarget := none
      mainHistory := .empty
      viewHistory := .empty }

def firstLogPageLoaded (page : LogPage) : RepoState × List Effect :=
  (s.showLog (.ready page)).reconcileSelectionFromPage page

def activate : RepoState :=
  let s := s.clearCommitSelection
  { s with mainHistory := s.mainHistory.replaceCurrent s.mainViewSnapshot }

def reconcileNavHistory (push : Bool) : RepoState :=
  { s with mainHistory := s.mainHistory.reconcile s.mainViewSnapshot push }

def handle (active : Bool) : RepoMsg → RepoState
  | .selectCommit commitId => (s.selectCommit planner commitId).1
  | .selectCommitMulti commitId mode clickedIndex visibleOrder =>
    (s.selectCommitMulti planner commitId mode clickedIndex visibleOrder).1
  | .indexedHistory event => ((s.reduceIndexed planner event).map Prod.fst).getD s
  | .clearCommitSelection => s.clearCommitSelection
  | .compareCommitRange fromId toId fromLabel toLabel =>
    (s.compareRange fromId (some toId) fromLabel toLabel .explicit).1
  | .compareWithWorkingTree fromId fromLabel => (s.compareWithWorkingTree fromId fromLabel).1
  | .clearComparison => s.clearComparison.1
  | .markForComparison commitId label => { s with comparisonMark := some ⟨commitId, label⟩ }
  | .compareWithMarked commitId label => (s.compareWithMarked commitId label).1
  | .clearComparisonMark => { s with comparisonMark := none }
  | .rangeFilesLoaded fromId toId request => (s.rangeFilesLoaded fromId toId request).1
  | .selectWorktreeUncommitted path => (s.selectWorktreeUncommitted planner path).1
  | .worktreeDirtyLoaded result => s.worktreeDirtyLoaded result
  | .revealCommit reference => (s.revealCommit reference).1
  | .finishCommitReveal => { s with revealTarget := none }
  | .commitRevealResolved reference result => (s.commitRevealResolved planner reference result).1
  | .selectDiff target => (s.selectDiff planner target).1
  | .selectConflictDiff path => (s.selectConflictDiff path).1
  | .clearDiffSelection => s.clearDiffSelection
  | .openFileContent source path => (s.openFileContent planner source path).1
  | .openFileEditor path => (s.openFileEditor planner path).1
  | .exitDiffEditMode => (s.exitDiffEditMode planner).1
  | .viewerNav dir => (s.viewerNav planner dir).1
  | .globalNav dir => (s.globalNav planner dir).1
  | .fileBrowserReopen source path listed => (s.fileBrowserReopen planner source path listed).1
  | .statusActionFinished area paths => s.clearDiffSelectionForStatusAction area paths
  | .discardFinished paths removedStaged => s.clearDiffSelectionAfterDiscard paths removedStaged
  | .commitCompletionFinished => s.commitCompletionFinished
  | .repoCommandFinished command => s.repoCommandFinished command
  | .reloadRepo => s.reloadRepo
  | .repoOpenedOk => s.repoOpenedOk active
  | .firstLogPageLoaded page => (s.firstLogPageLoaded page).1
  | .repoExternallyChanged change => (s.refreshRangeComparison change).1
  | .elsewhere change _ => change.apply s

end RepoState

end GitComet.Selection
