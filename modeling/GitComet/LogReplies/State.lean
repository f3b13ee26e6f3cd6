import GitComet.IndexedHistory.Reduce

namespace GitComet.LogReplies
open IndexedHistory Loading Selection
open Store (LogCursor LogLoadSeq LogScope PendingLogLoad RepoLoadsInFlight)

inductive HistoryReadResult where
  | page (page : LogPage) (snapshot : Option HistorySnapshot)
  | unchanged
  | invalidated
  deriving DecidableEq

structure RepoState extends Selection.RepoState where
  repoLog : Loadable LogPage
  loads : RepoLoadsInFlight
  retainedLogWhileLoading : Option LogPage
  historyLogLoadingMore : Bool
  logLoadingMore : Bool
  logScanProgress : Option (BitVec 64)
  headBranch : Loadable String
  detachedHeadCommit : Option CommitId

inductive Effect where
  | loadLog (seq : LogLoadSeq) (load : PendingLogLoad)
  | selection (effect : Selection.Effect)

def defaultLogPageSize : ℕ := 200

def guaranteesHeadVisibility : LogScope → Bool
  | .fullReachable | .firstParent => true
  | _ => false

namespace RepoState
variable (s : RepoState)

def newOpening (id : Loading.RepoId) (scope : LogScope) (author : Option (List Char)) :
    RepoState where
  toRepoState :=
    { Selection.RepoState.newOpening id with historyScope := scope, historyAuthorFilter := author }
  repoLog := .notLoaded
  loads := .default
  retainedLogWhileLoading := none
  historyLogLoadingMore := false
  logLoadingMore := false
  logScanProgress := none
  headBranch := .notLoaded
  detachedHeadCommit := none

def setLog (log : Loadable LogPage) : RepoState :=
  if s.log = log ∧ s.repoLog = log then s
  else
    { s with
      retainedLogWhileLoading := if log.isLoading then s.retainedLogWhileLoading else none
      logSnapshot := none
      log := log
      repoLog := log
      logRev := s.logRev + 1 }

def retainLogWhileLoading : RepoState :=
  if s.retainedLogWhileLoading.isSome then s
  else { s with retainedLogWhileLoading := s.repoLog.ready? }

def setPartialLogWhileLoading (page : LogPage) : RepoState :=
  if s.repoLog.isLoading then
    { s with retainedLogWhileLoading := some page, logRev := s.logRev + 1 }
  else s

def setLogLoadingMore (v : Bool) : RepoState :=
  if s.historyLogLoadingMore = v ∧ s.logLoadingMore = v then s
  else { s with historyLogLoadingMore := v, logLoadingMore := v, logRev := s.logRev + 1 }

def setLogScanProgress (scanned : Option (BitVec 64)) : RepoState :=
  { s with logScanProgress := scanned }

def refreshLogLimit : ℕ :=
  (s.repoLog.ready?.map fun page => max defaultLogPageSize page.commits.length).getD
    defaultLogPageSize

def firstPageLogRequest : PendingLogLoad :=
  ⟨s.historyScope, s.historyAuthorFilter, defaultLogPageSize, none⟩

def refreshLogRequest : PendingLogLoad :=
  { s.firstPageLogRequest with limit := s.refreshLogLimit }

def requestLogEffect (load : PendingLogLoad) : RepoState × List Effect :=
  let requested := s.loads.requestLog load
  ({ s with loads := requested.1 }, requested.2.toList.map fun seq => .loadLog seq load)

def nextCursor? : Option LogCursor := s.repoLog.ready?.bind LogPage.nextCursor

def loadMoreHistory : RepoState × List Effect :=
  if s.historyLogLoadingMore || s.loads.isInFlight RepoLoadsInFlight.log then (s, [])
  else
    match s.nextCursor? with
    | none => (s, [])
    | some cursor =>
      let s := s.setLogLoadingMore true
      s.requestLogEffect { s.firstPageLogRequest with cursor := some cursor }

def requestLanes (lanes : List (BitVec 32)) : RepoState :=
  { s with loads := lanes.foldl (fun loads lane => (loads.request lane).1) s.loads }

def invalidateLineStats : RepoState := { s with loads := s.loads.invalidateLineStats }

def requestRefresh : RepoState × List Effect :=
  let requested := s.requestLogEffect s.refreshLogRequest
  (if requested.2.isEmpty then requested.1 else requested.1.setLogLoadingMore false, requested.2)

def primaryLanes : List (BitVec 32) :=
  [RepoLoadsInFlight.headBranch, RepoLoadsInFlight.upstreamDivergence,
    RepoLoadsInFlight.rebaseState, RepoLoadsInFlight.mergeCommitMessage,
    RepoLoadsInFlight.worktreeStatus, RepoLoadsInFlight.stagedStatus]

def refreshPrimary : RepoState × List Effect :=
  let load := s.refreshLogRequest
  let batch := s.loads.requestPrimaryRefreshBatch load
  match batch.2 with
  | some seq =>
    (({ s with loads := batch.1 }.setLogLoadingMore false).invalidateLineStats, [.loadLog seq load])
  | none => ((s.requestLanes primaryLanes).invalidateLineStats).requestRefresh

def fullLanesBefore : List (BitVec 32) :=
  [RepoLoadsInFlight.headBranch, RepoLoadsInFlight.upstreamDivergence,
    RepoLoadsInFlight.worktreeStatus, RepoLoadsInFlight.stagedStatus]

def fullLanesAfter : List (BitVec 32) :=
  [RepoLoadsInFlight.branches, RepoLoadsInFlight.remotes, RepoLoadsInFlight.remoteBranches,
    RepoLoadsInFlight.rebaseState, RepoLoadsInFlight.mergeCommitMessage]

def refreshFull : RepoState × List Effect :=
  let refreshed := ((s.requestLanes fullLanesBefore).invalidateLineStats).requestRefresh
  (refreshed.1.requestLanes fullLanesAfter, refreshed.2)

def restartHistoryLoad : RepoState × List Effect :=
  let s := ((s.retainLogWhileLoading.setLog .loading).setLogLoadingMore false).setLogScanProgress
    none
  s.requestLogEffect s.firstPageLogRequest

def setHistoryScope (scope : LogScope) : RepoState × List Effect :=
  if s.historyScope = scope then (s, [])
  else { s with toRepoState := s.toRepoState.setLogScope scope }.restartHistoryLoad

def setHistoryAuthorFilter (author : Option (List Char)) : RepoState × List Effect :=
  if s.historyAuthorFilter = author then (s, [])
  else { s with toRepoState := s.toRepoState.setHistoryAuthorFilter author }.restartHistoryLoad

def clearCancelledRepoLoading : RepoState :=
  let s := { s with loads := s.loads.clear }
  let s := if s.repoLog.isLoading then s.setLog .notLoaded else s
  s.setLogLoadingMore false

def cancelRepoLoads : RepoState :=
  { s with toRepoState := s.toRepoState.bumpLoadEpoch }.clearCancelledRepoLoading

def resetHistoryView : RepoState :=
  let s := { s with headBranch := .loading, detachedHeadCommit := none }
  let s := (s.setLog .loading).setLogLoadingMore false
  { s with toRepoState := s.toRepoState.clearCommitSelection }

def reloadRepo : RepoState × List Effect :=
  let s := s.cancelRepoLoads.resetHistoryView
  { s with
    comparisonMark := none
    mainHistory := .empty
    viewHistory := .empty }.refreshFull

def repoOpenedOk (active : Bool) : RepoState × List Effect :=
  if !active then (s.clearCancelledRepoLoading, [])
  else
    { s.resetHistoryView with
      diffTarget := none
      mainHistory := .empty
      viewHistory := .empty }.refreshFull

def activeLogIsLoadMore : Bool := s.loads.activeLog.any fun active => active.2.cursor.isSome

def logChunkLoaded (seq : LogLoadSeq) (commits : List Commit) (scanned : BitVec 64) : RepoState :=
  if !s.loads.isActiveLogReply seq || s.activeLogIsLoadMore || !s.repoLog.isLoading then s
  else if commits.isEmpty then s.setLogScanProgress (some scanned)
  else (s.setLogScanProgress (some scanned)).setPartialLogWhileLoading ⟨commits, none⟩

def reconcileDetachedHeadFromLog (scope : LogScope) : RepoState :=
  if guaranteesHeadVisibility scope ∧ s.headBranch = .ready "HEAD" then
    match s.repoLog.ready? with
    | none => s
    | some page => { s with detachedHeadCommit := page.commits.head?.map Commit.id }
  else s

def withRefreshLimit (limit : ℕ) (next : PendingLogLoad) : PendingLogLoad :=
  if next.cursor.isNone then { next with limit := limit } else next

def finishLogLoad : RepoState × List Effect :=
  let s := s.setLogLoadingMore false
  let finished := s.loads.finishLog (withRefreshLimit s.refreshLogLimit)
  let s := { s with loads := finished.1 }
  match finished.2 with
  | none => (s, [])
  | some (seq, next) => (s.setLogLoadingMore next.cursor.isSome, [.loadLog seq next])

def appendPage (existing page : LogPage) : RepoState :=
  let merged : LogPage := ⟨existing.commits ++ page.commits, page.nextCursor⟩
  { s with repoLog := .ready merged, log := .ready merged, logRev := s.logRev + 1 }

def installPage (isLoadMore : Bool) (page : LogPage) (snapshot : Option HistorySnapshot) :
    RepoState :=
  let s :=
    if isLoadMore then
      match s.repoLog.ready? with
      | none => s
      | some existing => s.appendPage existing page
    else s.setLog (.ready page)
  { s with logSnapshot := snapshot }

def reconcileSelectionFromLog (isLoadMore : Bool) : RepoState × List Effect :=
  match if isLoadMore then none else s.repoLog.ready? with
  | none => (s, [])
  | some page =>
    let reconciled := s.toRepoState.reconcileSelectionFromPage page
    ({ s with toRepoState := reconciled.1 }, reconciled.2.map .selection)

def pageLoaded (scope : LogScope) (isLoadMore : Bool) (page : LogPage)
    (snapshot : Option HistorySnapshot) : RepoState × List Effect :=
  let s := (s.installPage isLoadMore page snapshot).reconcileDetachedHeadFromLog scope
  let reconciled := s.reconcileSelectionFromLog isLoadMore
  let s := if isLoadMore then reconciled.1.setLogLoadingMore false else reconciled.1
  let finished := s.finishLogLoad
  (finished.1, reconciled.2 ++ finished.2)

def logLoaded (seq : LogLoadSeq) (scope : LogScope) (cursor : Option LogCursor)
    (result : Except ReadError HistoryReadResult) : RepoState × List Effect :=
  if !s.loads.isActiveLogReply seq then (s, [])
  else
    let s := s.setLogScanProgress none
    match result with
    | .error .cancelled => s.finishLogLoad
    | .ok .unchanged => (s.reconcileDetachedHeadFromLog scope).finishLogLoad
    | .ok .invalidated =>
      { s with loads := (s.loads.requestLog s.refreshLogRequest).1 }.finishLogLoad
    | .ok (.page page snapshot) => s.pageLoaded scope cursor.isSome page snapshot
    | .error (.failed message) =>
      (if s.repoLog.ready?.isSome then s else s.setLog (.error message)).finishLogLoad

end RepoState

end GitComet.LogReplies
