import GitComet.LogReplies.State
import GitComet.Store.LogCoalescing

namespace GitComet.LogReplies
open IndexedHistory Loading Selection Store

structure Issue where
  seq : LogLoadSeq
  load : PendingLogLoad
  log : Loadable LogPage
  snapshot : Option HistorySnapshot

structure Answer where
  load : PendingLogLoad
  known : Option HistorySnapshot
  page : LogPage
  snapshot : Option HistorySnapshot

structure OtherChange where
  apply : RepoState → RepoState
  loads : ∀ s, (apply s).loads = s.loads
  repoLog : ∀ s, (apply s).repoLog = s.repoLog
  log : ∀ s, (apply s).log = s.log
  logSnapshot : ∀ s, (apply s).logSnapshot = s.logSnapshot
  historyScope : ∀ s, (apply s).historyScope = s.historyScope
  historyAuthorFilter : ∀ s, (apply s).historyAuthorFilter = s.historyAuthorFilter

inductive Message where
  | loadMoreHistory
  | refreshPrimary
  | refreshFull
  | setHistoryScope (scope : LogScope)
  | setHistoryAuthorFilter (author : Option (List Char))
  | cancelRepoLoads
  | reloadRepo
  | repoOpenedOk (active : Bool)
  | logChunkLoaded (seq : LogLoadSeq) (commits : List Commit) (scanned : BitVec 64)
  | logLoaded (age : ℕ) (result : Except ReadError HistoryReadResult)
  | requestLane (lane : OtherLane)
  | finishLane (lane : OtherLane)
  | invalidateLineStats
  | startLineStats (statusReady : Bool)
  | finishLineStats (generation : LineStatsGeneration)
  | elsewhere (change : OtherChange)

structure Session where
  repo : RepoState
  issued : List Issue
  shown : List Answer

def Effect.issue? (repo : RepoState) : Effect → Option Issue
  | .loadLog seq load => some ⟨seq, load, repo.repoLog, repo.logSnapshot⟩
  | .selection _ => none

namespace Session

variable (session : Session)

def opened (id : Loading.RepoId) (scope : LogScope) (author : Option (List Char)) : Session :=
  ⟨.newOpening id scope author, [], []⟩

def publish (shown : List Answer) (reduced : RepoState × List Effect) : Session :=
  ⟨reduced.1, (reduced.2.filterMap (Effect.issue? reduced.1)).reverse ++ session.issued, shown⟩

def setLoads (loads : RepoLoadsInFlight) : Session :=
  { session with repo := { session.repo with loads := loads } }

def shownAfter (issue : Issue) : Except ReadError HistoryReadResult → List Answer
  | .ok (.page page snapshot) =>
    let answer : Answer := ⟨issue.load, issue.snapshot, page, snapshot⟩
    if !session.repo.loads.isActiveLogReply issue.seq then session.shown
    else if issue.load.cursor.isNone then [answer]
    else if session.repo.repoLog.ready?.isSome then session.shown ++ [answer]
    else session.shown
  | _ => session.shown

def reply (issue : Issue) (result : Except ReadError HistoryReadResult) : Session :=
  session.publish (session.shownAfter issue result)
    (session.repo.logLoaded issue.seq issue.load.scope issue.load.cursor result)

def step : Message → Session
  | .loadMoreHistory => session.publish session.shown session.repo.loadMoreHistory
  | .refreshPrimary => session.publish session.shown session.repo.refreshPrimary
  | .refreshFull => session.publish session.shown session.repo.refreshFull
  | .setHistoryScope scope => session.publish session.shown (session.repo.setHistoryScope scope)
  | .setHistoryAuthorFilter author =>
    session.publish session.shown (session.repo.setHistoryAuthorFilter author)
  | .cancelRepoLoads => { session with repo := session.repo.cancelRepoLoads }
  | .reloadRepo => session.publish session.shown session.repo.reloadRepo
  | .repoOpenedOk active => session.publish session.shown (session.repo.repoOpenedOk active)
  | .logChunkLoaded seq commits scanned =>
    { session with repo := session.repo.logChunkLoaded seq commits scanned }
  | .logLoaded age result =>
    match session.issued[age]? with
    | none => session
    | some issue => session.reply issue result
  | .requestLane lane => session.setLoads (session.repo.loads.request lane.flag).1
  | .finishLane lane => session.setLoads (session.repo.loads.finish lane.flag).1
  | .invalidateLineStats => session.setLoads session.repo.loads.invalidateLineStats
  | .startLineStats statusReady =>
    session.setLoads (session.repo.loads.startLineStats statusReady).1
  | .finishLineStats generation =>
    session.setLoads (session.repo.loads.finishLineStats generation).1
  | .elsewhere change => { session with repo := change.apply session.repo }

def run (id : Loading.RepoId) (scope : LogScope) (author : Option (List Char))
    (messages : List Message) : Session :=
  messages.foldl step (opened id scope author)

end Session

def joined (shown : List Answer) : LogPage :=
  ⟨shown.flatMap fun answer => answer.page.commits,
    shown.getLast?.bind fun answer => answer.page.nextCursor⟩

structure Follows (answer next : Answer) : Prop where
  more : answer.page.nextCursor.isSome = true
  cursor : next.load.cursor = answer.page.nextCursor
  known : next.known = answer.snapshot

def FilterOf (repo : RepoState) (load : PendingLogLoad) : Prop :=
  load.scope = repo.historyScope ∧ load.author = repo.historyAuthorFilter

structure Displays (repo : RepoState) (shown : List Answer) (page : LogPage) : Prop where
  joined : page = joined shown
  first : ∃ answer rest, shown = answer :: rest ∧ answer.load.cursor = none
  consecutive : shown.IsChain Follows
  filter : ∀ answer ∈ shown, FilterOf repo answer.load
  snapshot : shown.getLast?.map Answer.snapshot = some repo.logSnapshot

structure Continues (repo : RepoState) (issue : Issue) : Prop where
  same : ∀ page, repo.repoLog = .ready page → issue.load.cursor.isSome = true →
    issue.log = .ready page ∧ page.nextCursor = issue.load.cursor ∧
      issue.snapshot = repo.logSnapshot

structure Recorded (session : Session) : Prop where
  copy : session.repo.log = session.repo.repoLog
  numbered : session.issued.map Issue.seq = Store.numbers session.issued.length
  last : session.repo.loads.lastLogSeq = BitVec.ofNat 64 session.issued.length
  waiting : ∀ load, session.repo.loads.pendingLog = some load → load.cursor = none
  shown : ∀ page, session.repo.repoLog = .ready page → Displays session.repo session.shown page

structure Tracked (session : Session) : Prop extends Recorded session where
  bit : session.repo.loads.isInFlight RepoLoadsInFlight.log =
    session.repo.loads.activeLog.isSome
  busy : session.repo.loads.pendingLog.isSome = true → session.repo.loads.activeLog.isSome = true
  active : ∀ seq load, session.repo.loads.activeLog = some (seq, load) →
    ∃ issue rest, session.issued = issue :: rest ∧ issue.seq = seq ∧ issue.load = load ∧
      Continues session.repo issue

structure Sound (session : Session) : Prop extends Tracked session where
  active_filter : ∀ seq load, session.repo.loads.activeLog = some (seq, load) →
    FilterOf session.repo load
  waiting_filter : ∀ load, session.repo.loads.pendingLog = some load → FilterOf session.repo load

end GitComet.LogReplies

namespace GitComet.LogReplies
open IndexedHistory Loading Selection Store

namespace RepoState

structure Quiet (s after : RepoState) : Prop where
  loads : KeepsLog s.loads after.loads
  repoLog : after.repoLog = s.repoLog
  log : after.log = s.log
  logSnapshot : after.logSnapshot = s.logSnapshot
  historyScope : after.historyScope = s.historyScope
  historyAuthorFilter : after.historyAuthorFilter = s.historyAuthorFilter

theorem keepsLog_refl (loads : RepoLoadsInFlight) : KeepsLog loads loads := ⟨rfl, rfl, rfl, rfl⟩

theorem keepsLog_trans {loads mid after : RepoLoadsInFlight} (hmid : KeepsLog loads mid)
    (hafter : KeepsLog mid after) : KeepsLog loads after :=
  ⟨hafter.bit.trans hmid.bit, hafter.waiting.trans hmid.waiting, hafter.active.trans hmid.active,
    hafter.last.trans hmid.last⟩

namespace Quiet
variable {s mid after : RepoState}

theorem refl (s : RepoState) : Quiet s s := ⟨keepsLog_refl _, rfl, rfl, rfl, rfl, rfl⟩

theorem trans (hmid : Quiet s mid) (hafter : Quiet mid after) : Quiet s after where
  loads := keepsLog_trans hmid.loads hafter.loads
  repoLog := hafter.repoLog.trans hmid.repoLog
  log := hafter.log.trans hmid.log
  logSnapshot := hafter.logSnapshot.trans hmid.logSnapshot
  historyScope := hafter.historyScope.trans hmid.historyScope
  historyAuthorFilter := hafter.historyAuthorFilter.trans hmid.historyAuthorFilter

end Quiet

variable (s : RepoState)

theorem quiet_loads {loads : RepoLoadsInFlight} (h : KeepsLog s.loads loads) :
    Quiet s { s with loads := loads } := ⟨h, rfl, rfl, rfl, rfl, rfl⟩

theorem setLogLoadingMore_quiet (v : Bool) : Quiet s (s.setLogLoadingMore v) := by
  rw [setLogLoadingMore]
  split_ifs
  · exact .refl s
  · exact ⟨keepsLog_refl _, rfl, rfl, rfl, rfl, rfl⟩

theorem setLogScanProgress_quiet (scanned : Option (BitVec 64)) :
    Quiet s (s.setLogScanProgress scanned) := ⟨keepsLog_refl _, rfl, rfl, rfl, rfl, rfl⟩

theorem retainLogWhileLoading_quiet : Quiet s s.retainLogWhileLoading := by
  rw [retainLogWhileLoading]
  split_ifs
  · exact .refl s
  · exact ⟨keepsLog_refl _, rfl, rfl, rfl, rfl, rfl⟩

theorem setPartialLogWhileLoading_quiet (page : LogPage) :
    Quiet s (s.setPartialLogWhileLoading page) := by
  rw [setPartialLogWhileLoading]
  split_ifs
  · exact ⟨keepsLog_refl _, rfl, rfl, rfl, rfl, rfl⟩
  · exact .refl s

theorem invalidateLineStats_quiet : Quiet s s.invalidateLineStats :=
  s.quiet_loads ⟨rfl, rfl, rfl, rfl⟩

theorem requestLanes_quiet {lanes : List (BitVec 32)}
    (h : ∀ lane ∈ lanes, lane &&& RepoLoadsInFlight.log = 0) : Quiet s (s.requestLanes lanes) := by
  have hlanes : KeepsLog s.loads
      (lanes.foldl (fun loads lane => (loads.request lane).1) s.loads) := by
    refine List.foldlRecOn lanes _ (keepsLog_refl _) fun loads hloads lane hlane => ?_
    exact keepsLog_trans hloads (Store.keepsLog_request loads ⟨lane, h lane hlane⟩)
  exact s.quiet_loads hlanes

theorem logChunkLoaded_quiet (seq : LogLoadSeq) (commits : List Commit) (scanned : BitVec 64) :
    Quiet s (s.logChunkLoaded seq commits scanned) := by
  rw [logChunkLoaded]
  split_ifs
  · exact .refl s
  · exact s.setLogScanProgress_quiet _
  · exact (s.setLogScanProgress_quiet _).trans (setPartialLogWhileLoading_quiet _ _)

theorem reconcileDetachedHeadFromLog_quiet (scope : LogScope) :
    Quiet s (s.reconcileDetachedHeadFromLog scope) := by
  rw [reconcileDetachedHeadFromLog]
  split_ifs
  · cases s.repoLog.ready? with
    | none => exact .refl s
    | some page => exact ⟨keepsLog_refl _, rfl, rfl, rfl, rfl, rfl⟩
  · exact .refl s

theorem quiet_selection {selected : Selection.RepoState}
    (h : Selection.KeepsHistory s.toRepoState selected) :
    Quiet s { s with toRepoState := selected } :=
  ⟨keepsLog_refl _, rfl, h.log, h.logSnapshot, h.historyScope, h.historyAuthorFilter⟩

theorem reconcileSelectionFromLog_quiet (isLoadMore : Bool) :
    Quiet s (s.reconcileSelectionFromLog isLoadMore).1 := by
  rw [reconcileSelectionFromLog]
  cases if isLoadMore then none else s.repoLog.ready? with
  | none => exact .refl s
  | some page =>
    exact s.quiet_selection ((Selection.keptHistory _).reconcileSelectionFromPage (.refl _) _)

structure Unready (s after : RepoState) : Prop where
  loads : KeepsLog s.loads after.loads
  copy : after.log = after.repoLog
  gone : after.repoLog.ready? = none

theorem setLog_repoLog (log : Loadable LogPage) : (s.setLog log).repoLog = log := by
  rw [setLog]
  split
  · rename_i h
    exact h.2
  · rfl

theorem setLog_log (log : Loadable LogPage) : (s.setLog log).log = log := by
  rw [setLog]
  split
  · rename_i h
    exact h.1
  · rfl

theorem setLog_loads (log : Loadable LogPage) : (s.setLog log).loads = s.loads := by
  rw [setLog]
  split <;> rfl

theorem setLog_filter (log : Loadable LogPage) :
    (s.setLog log).historyScope = s.historyScope ∧
      (s.setLog log).historyAuthorFilter = s.historyAuthorFilter := by
  rw [setLog]
  split <;> exact ⟨rfl, rfl⟩

theorem setLog_unready (log : Loadable LogPage) (h : log.ready? = none) :
    Unready s (s.setLog log) :=
  ⟨by rw [s.setLog_loads]; exact keepsLog_refl _,
    (s.setLog_log log).trans (s.setLog_repoLog log).symm, by rw [s.setLog_repoLog, h]⟩

theorem Unready.quiet {s mid after : RepoState} (hmid : Unready s mid) (hafter : Quiet mid after) :
    Unready s after where
  loads := keepsLog_trans hmid.loads hafter.loads
  copy := hafter.log.trans (hmid.copy.trans hafter.repoLog.symm)
  gone := by rw [hafter.repoLog, hmid.gone]

theorem Unready.since {s mid after : RepoState} (hafter : Unready mid after)
    (hmid : KeepsLog s.loads mid.loads) : Unready s after where
  loads := keepsLog_trans hmid hafter.loads
  copy := hafter.copy
  gone := hafter.gone

end RepoState

end GitComet.LogReplies
