import GitComet.Loading.State

namespace GitComet.Loading
open Store

inductive ComparisonSource where
  | multiSelection | explicit
  deriving DecidableEq

structure RepoExternalChange where
  worktree : Bool
  index : Bool
  gitState : Bool
  deriving DecidableEq

structure SquashPlan where
  oldest : CommitId
  head : CommitId
  deriving DecidableEq

inductive SelectedConflictTarget where
  | current
  | path (path : Path)
  deriving DecidableEq

inductive ContentViewMode where
  | diff | preview | edit
  deriving DecidableEq

def ContentViewMode.isContentView (mode : ContentViewMode) : Bool := mode != .diff

inductive SidebarMode where
  | branches | files
  deriving DecidableEq

inductive DiffReloadMode where
  | blank | keepLoaded
  deriving DecidableEq

inductive SelectedHistoryReload where
  | fileHistory (path : Path)
  | blame (path : Path) (source : FileSource)
  | commitDetails (commitId : CommitId)
  deriving DecidableEq

structure Planner (V : Type) where
  historySquashPlan : RepoState V → Option SquashPlan
  selectedDiffLoadPlan : RepoState V → DiffTarget → SelectedDiffLoadPlan
  selectedConflictTarget : RepoState V → DiffTarget → Option SelectedConflictTarget

def reactivatedFileHistoryLimit : ℕ := 200

variable {V : Type}

def SelectedDiffLoadPlan.effects (plan : SelectedDiffLoadPlan) (repoId : RepoId)
    (target : DiffTarget) : List Effect :=
  (if plan.loadSubmoduleSummary then [.loadSubmoduleSummary repoId target] else []) ++
    (if plan.loadPatchDiff then [.loadDiff repoId target] else []) ++
    (if plan.loadFileImage then [.loadDiffFileImage repoId target] else []) ++
    (plan.previewTextSide.toList.map fun side => .loadDiffPreviewTextFile repoId target side) ++
    if plan.loadFileText then [.loadDiffFile repoId target] else []

def DiffReloadMode.reloading (mode : DiffReloadMode) (current : Loadable V) : Loadable V :=
  match mode, current with
  | keepLoaded, .ready value => .ready value
  | _, _ => .loading

namespace RepoState

variable (s : RepoState V)

def beginRangeFilesLoad : RepoState V × BitVec 64 :=
  let request := s.rangeFilesRequest + 1
  ({ s with
     rangeFilesRequest := request
     rangeFilesInFlight := true
     rangeFilesRefreshQueued := false }, request)

def requestRangeFilesRefresh : RepoState V × Option (BitVec 64) :=
  if s.rangeFilesInFlight then ({ s with rangeFilesRefreshQueued := true }, none)
  else (s.beginRangeFilesLoad.1, some s.beginRangeFilesLoad.2)

def clearRangeComparison : RepoState V × Bool :=
  if s.rangeSelection.isNone && !s.rangeFilesInFlight then (s, false)
  else
    ({ ({ s with rangeSelection := none }).setRangeFiles .notLoaded with
       rangeFilesRequest := s.rangeFilesRequest + 1
       rangeFilesInFlight := false
       rangeFilesRefreshQueued := false }, true)

def setSelectedCommit (v : Option CommitId) : RepoState V :=
  let s := { s with
    worktreeSelection := none
    revealTarget := if s.revealTarget = v then s.revealTarget else none }
  let s :=
    if v.isNone then
      ({ s with multiSelection := CommitMultiSelection.default }).clearRangeComparison.1
    else s
  { s with selectedCommit := v }

def clearDiffSelection : RepoState V :=
  let s := { s with
    inlineSubmoduleDiff := none
    contentPreview := false
    editMode := false
    editReturnView := none
    diffTarget := none }
  ((((s.put .diff .notLoaded).put .diffFile .notLoaded).put .diffPreviewTextFile .notLoaded).put
    .submoduleSummary .notLoaded).put .diffFileImage .notLoaded

def compareRange (fromId : CommitId) (toId : Option CommitId) (fromLabel toLabel : String)
    (source : ComparisonSource) : RepoState V × List Effect :=
  let s :=
    if source = .explicit then { s with multiSelection := CommitMultiSelection.default } else s
  let s := { s with rangeSelection := some ⟨fromId, toId, fromLabel, toLabel⟩ }
  let begun := (s.setRangeFiles .loading).beginRangeFilesLoad
  (begun.1.clearDiffSelection, [.loadRangeFiles s.id fromId toId begun.2])

def refreshRangeComparison (change : RepoExternalChange) : RepoState V × List Effect :=
  if change.gitState || change.index || change.worktree then
    match s.rangeSelection.filter (·.toId.isNone) with
    | none => (s, [])
    | some range =>
      match s.requestRangeFilesRefresh with
      | (s, none) => (s, [])
      | (s, some request) => (s, [.loadRangeFiles s.id range.fromId none request])
  else (s, [])

def prepareSquash (planner : Planner V) : RepoState V × List Effect :=
  match planner.historySquashPlan s with
  | none => (({ s with squashPreviewPending := none }).setSquashPreview .notLoaded, [])
  | some plan =>
    (({ s with squashPreviewPending := some (plan.oldest, plan.head) }).setSquashPreview .loading,
      [.loadSquashMessagePreview s.id plan.oldest plan.head])

def hoverIsCurrent (commitId : CommitId) : Bool :=
  s.hoverCommitMessage.any fun hover => hover.1 = commitId && !hover.2.isError

def loadHoverCommitMessage (commitId : CommitId) : RepoState V × List Effect :=
  if (s.loadable .opened).ready?.isNone then (s, [])
  else if s.hoverIsCurrent commitId then (s, [])
  else (s.setHoverCommitMessage commitId .loading, [.loadHoverCommitMessage s.id commitId])

def requestLane (flag : BitVec 32) (effect : Effect) : RepoState V × List Effect :=
  let requested := s.loadsInFlight.request flag
  ({ s with loadsInFlight := requested.1 }, if requested.2 then [effect] else [])

def loadRefMetadata : RepoState V × List Effect :=
  if (s.loadable .opened).ready?.isNone then (s, [])
  else
    (s.setRefMetadata .loading).requestLane RepoLoadsInFlight.refMetadata (.loadRefMetadata s.id)

def loadReflog : RepoState V × List Effect :=
  (s.setReflog .loading).requestLane RepoLoadsInFlight.reflog (.loadReflog s.id 200)

def requestFileBrowserLoad : RepoState V × List Effect :=
  if (s.loadable .opened).ready?.isNone then (s, [])
  else
    s.requestLane RepoLoadsInFlight.fileBrowser (.loadFileBrowser s.id s.fileBrowserSource)

def loadFileBrowser (source : FileSource) : RepoState V × List Effect :=
  if (s.loadable .opened).ready?.isNone || s.fileBrowserSource != source then (s, [])
  else
    let s :=
      if (s.loadable .fileBrowserEntries).ready?.isSome then s
      else s.put .fileBrowserEntries .loading
    s.requestFileBrowserLoad

def needsLoad : Bool :=
  s.fileBrowserStale || match s.loadable .fileBrowserEntries with
    | .notLoaded => true
    | .error _ => true
    | _ => false

def fileBrowserLoadForActiveFilesMode (sidebarMode : SidebarMode) : RepoState V × List Effect :=
  if sidebarMode != .files || !s.needsLoad then (s, []) else s.requestFileBrowserLoad

def detailsLoaded (p : Payload V) (commitId : CommitId) : Bool :=
  (s.loadable .commitDetails).ready?.any fun details => p.detailsId details = commitId

def detailsPending : Bool :=
  match s.loadable .commitDetails with
  | .notLoaded => true
  | .error _ => true
  | _ => false

def selectCommitAndLoadDetails (p : Payload V) (commitId : CommitId) : RepoState V × List Effect :=
  if s.selectedCommit = some commitId then (s, [])
  else
    let s := s.setSelectedCommit (some commitId)
    if s.detailsLoaded p commitId then (s, [])
    else
      let s := if s.detailsPending then s.setCommitDetails .notLoaded else s
      (s, [.loadCommitDetails s.id commitId])

def reconcileSelectedCommitDetails (p : Payload V) : RepoState V × List Effect :=
  match s.selectedCommit with
  | none => (s, [])
  | some commitId =>
    if s.detailsLoaded p commitId then (s, [])
    else (s.setCommitDetails .notLoaded, [.loadCommitDetails s.id commitId])

def isNotLoaded (field : LoadField) : Bool :=
  match s.loadable field with
  | .notLoaded => true
  | _ => false

def selectedHistoryReloadsForActivation : List SelectedHistoryReload :=
  (if s.isNotLoaded .fileHistory then s.fileHistoryPath.toList.map .fileHistory else []) ++
    (if s.isNotLoaded .blame then
      s.blamePath.toList.flatMap fun path => s.blameSource.toList.map (.blame path) else []) ++
    if s.isNotLoaded .commitDetails then s.selectedCommit.toList.map .commitDetails else []

def appendSelectedHistoryReloadEffect : SelectedHistoryReload → RepoState V × Effect
  | .fileHistory path =>
    (s.put .fileHistory .loading, .loadFileHistory s.id path reactivatedFileHistoryLimit)
  | .blame path source => (s.put .blame .loading, .loadBlame s.id path source)
  | .commitDetails commitId => (s.setCommitDetails .loading, .loadCommitDetails s.id commitId)

def appendSelectedHistoryReloadEffects :
    List SelectedHistoryReload → RepoState V → RepoState V × List Effect
  | [], s => (s, [])
  | reload :: reloads, s =>
    let pushed := s.appendSelectedHistoryReloadEffect reload
    let rest := appendSelectedHistoryReloadEffects reloads pushed.1
    (rest.1, pushed.2 :: rest.2)

def reloadSelectedHistory : RepoState V × List Effect :=
  appendSelectedHistoryReloadEffects s.selectedHistoryReloadsForActivation s

def resetConflictTargetReloadState (mode : ConflictFileLoadMode) (samePath : Bool) : RepoState V :=
  let s := ({ s with conflictFileLoadMode := mode }).setConflictFile .loading
  let s := if samePath then s else { s with sessionPendingRestore := none }
  let s :=
    match s.conflictSession with
    | none => s
    | some session =>
      { s with
        conflictSession := none
        sessionPendingRestore := if samePath then some session else s.sessionPendingRestore }
  { s with conflictHideResolved := false }

def startCurrentConflictTargetReload : RepoState V × List Effect :=
  let mode := s.conflictFileLoadMode
  (s.resetConflictTargetReloadState mode true, [.loadSelectedConflictFile s.id mode])

def startConflictTargetReload (path : Path) : RepoState V × List Effect :=
  let mode := s.conflictFileLoadMode
  if s.conflictFilePath = some path then s.startCurrentConflictTargetReload
  else
    (({ s with conflictFilePath := some path }).resetConflictTargetReloadState mode false,
      [.loadSelectedConflictFile s.id mode])

def reloadConflictTarget : SelectedConflictTarget → RepoState V × List Effect
  | .current => s.startCurrentConflictTargetReload
  | .path path => s.startConflictTargetReload path

def planned (wanted : Bool) (mode : DiffReloadMode) (field : LoadField) : RepoState V :=
  s.put field (if wanted then mode.reloading (s.loadable field) else .notLoaded)

def applySelectedDiffLoadPlanState (plan : SelectedDiffLoadPlan) (mode : DiffReloadMode) :
    RepoState V :=
  let s := { s with diffReloadInFlight := mode == DiffReloadMode.keepLoaded }
  ((((s.planned plan.loadPatchDiff mode .diff).planned plan.loadFileText mode .diffFile).planned
    plan.previewTextSide.isSome mode .diffPreviewTextFile).planned plan.loadSubmoduleSummary mode
    .submoduleSummary).planned plan.loadFileImage mode .diffFileImage

def selectDiff (planner : Planner V) (target : DiffTarget) (mode : ContentViewMode) :
    RepoState V × List Effect :=
  let s := { s with
    inlineSubmoduleDiff := none
    contentPreview := mode.isContentView
    editMode := mode = .edit
    editReturnView := if mode = .edit then s.editReturnView else none }
  match if mode.isContentView then none else planner.selectedConflictTarget s target with
  | some conflictTarget =>
    let s := { s with diffTarget := some target }
    let s := ((((s.put .diff .notLoaded).put .diffFile .notLoaded).put .diffPreviewTextFile
      .notLoaded).put .submoduleSummary .notLoaded).put .diffFileImage .notLoaded
    s.reloadConflictTarget conflictTarget
  | none =>
    let s := { s with diffTarget := some target }
    let plan := planner.selectedDiffLoadPlan s target
    (s.applySelectedDiffLoadPlanState plan .blank, [.loadSelectedDiff s.id plan])

def reloadPatchedDiff (planner : Planner V) (target : DiffTarget) : RepoState V × List Effect :=
  let plan := planner.selectedDiffLoadPlan s target
  let s := s.applySelectedDiffLoadPlanState plan .keepLoaded
  (s, (planner.selectedDiffLoadPlan s target).effects s.id target)

end RepoState

end GitComet.Loading
