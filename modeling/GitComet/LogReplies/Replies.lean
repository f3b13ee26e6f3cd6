import Mathlib.Data.List.Chain
import GitComet.LogReplies.Tracking

namespace GitComet.LogReplies
open List IndexedHistory Loading RepoState Selection Store

variable {session : Session}

theorem Recorded.idle (h : Recorded session) {loads : RepoLoadsInFlight}
    (hbit : loads.inFlight.getLsbD 11 = false) (hwaiting : loads.pendingLog = none)
    (hactive : loads.activeLog = none) (hlast : loads.lastLogSeq = session.repo.loads.lastLogSeq) :
    Sound { session with repo := { session.repo with loads := loads } } := by
  refine { copy := h.copy, numbered := h.numbered, last := hlast.trans h.last, waiting := ?_,
           shown := ?_, bit := ?_, busy := ?_, active := ?_, active_filter := ?_,
           waiting_filter := ?_ }
  · intro load hload
    cases hwaiting.symm.trans hload
  · intro page hpage
    have hdisplays := h.shown page hpage
    exact ⟨hdisplays.joined, hdisplays.first, hdisplays.consecutive, hdisplays.filter,
      hdisplays.snapshot⟩
  · change loads.isInFlight RepoLoadsInFlight.log = loads.activeLog.isSome
    rw [Store.isInFlight_log, hbit, hactive]
    rfl
  · change loads.pendingLog.isSome → _
    rw [hwaiting]
    rintro ⟨⟩
  · intro seq load hload
    cases hactive.symm.trans hload
  · intro seq load hload
    cases hactive.symm.trans hload
  · intro load hload
    cases hwaiting.symm.trans hload

theorem FilterOf.setLog {repo : RepoState} {load : PendingLogLoad} (h : FilterOf repo load)
    (log : Loadable LogPage) : FilterOf (repo.setLog log) load :=
  ⟨h.1.trans (repo.setLog_filter log).1.symm, h.2.trans (repo.setLog_filter log).2.symm⟩

theorem Sound.clearCancelledRepoLoading (h : Sound session) :
    Sound { session with repo := session.repo.clearCancelledRepoLoading } := by
  have hcleared : Sound { session with
      repo := { session.repo with loads := session.repo.loads.clear } } :=
    h.toRecorded.idle BitVec.getLsbD_zero rfl rfl rfl
  rw [RepoState.clearCancelledRepoLoading]
  dsimp only
  split
  · have hgone := hcleared.unready (RepoState.setLog_unready _ .notLoaded rfl)
      fun load hload => hload.setLog _
    exact hgone.quiet (RepoState.setLogLoadingMore_quiet _ false)
  · exact hcleared.quiet (RepoState.setLogLoadingMore_quiet _ false)

theorem RepoState.bumpLoadEpoch_quiet (s : RepoState) :
    Quiet s { s with toRepoState := s.toRepoState.bumpLoadEpoch } :=
  ⟨RepoState.keepsLog_refl _, rfl, rfl, rfl, rfl, rfl⟩

theorem Sound.cancelRepoLoads (h : Sound session) :
    Sound { session with repo := session.repo.cancelRepoLoads } :=
  (h.quiet session.repo.bumpLoadEpoch_quiet).clearCancelledRepoLoading

theorem RepoState.resetHistoryView_unready (s : RepoState) : Unready s s.resetHistoryView := by
  have hgone := (RepoState.setLog_unready
    { s with headBranch := .loading, detachedHeadCommit := none } .loading rfl).quiet
    (RepoState.setLogLoadingMore_quiet _ false)
  have hcleared := hgone.quiet (RepoState.quiet_selection _
    ((Selection.keptHistory _).clearCommitSelection (.refl _)))
  exact ⟨hcleared.loads, hcleared.copy, hcleared.gone⟩

theorem Sound.reloadRepo (h : Sound session) :
    Sound (session.publish session.shown session.repo.reloadRepo) := by
  have hreset := h.cancelRepoLoads.toTracked.unready (RepoState.resetHistoryView_unready _)
  have hviews : Quiet session.repo.cancelRepoLoads.resetHistoryView
      { session.repo.cancelRepoLoads.resetHistoryView with
        comparisonMark := none
        mainHistory := .empty
        viewHistory := .empty } :=
    ⟨RepoState.keepsLog_refl _, rfl, rfl, rfl, rfl, rfl⟩
  exact (hreset.quiet hviews).refreshFull

theorem Sound.repoOpenedOk (h : Sound session) (active : Bool) :
    Sound (session.publish session.shown (session.repo.repoOpenedOk active)) := by
  cases active with
  | false => exact h.clearCancelledRepoLoading
  | true =>
    have hreset := h.toTracked.unready session.repo.resetHistoryView_unready
    have hviews : Quiet session.repo.resetHistoryView
        { session.repo.resetHistoryView with
          diffTarget := none
          mainHistory := .empty
          viewHistory := .empty } :=
      ⟨RepoState.keepsLog_refl _, rfl, rfl, rfl, rfl, rfl⟩
    exact (hreset.quiet hviews).refreshFull

theorem finishLog_cases (loads : RepoLoadsInFlight) (prepare : PendingLogLoad → PendingLogLoad) :
    (∃ idle : RepoLoadsInFlight, idle.inFlight.getLsbD 11 = false ∧ idle.pendingLog = none ∧
      idle.activeLog = none ∧ idle.lastLogSeq = loads.lastLogSeq ∧
      loads.finishLog prepare = (idle, none)) ∨
    ∃ (waiting : PendingLogLoad) (busy : RepoLoadsInFlight), loads.pendingLog = some waiting ∧
      busy.inFlight.getLsbD 11 ∧ busy.pendingLog = none ∧
      busy.lastLogSeq = loads.lastLogSeq ∧
      loads.finishLog prepare = ((busy.startLog (prepare waiting)).1,
        some ((busy.startLog (prepare waiting)).2, prepare waiting)) := by
  rw [RepoLoadsInFlight.finishLog]
  cases hpending : loads.pendingLog with
  | none =>
    refine .inl ⟨_, ?_, ?_, ?_, ?_, rfl⟩
    · rw [BitVec.getLsbD_and, BitVec.getLsbD_not]
      exact Bool.and_false _
    · rfl
    · rfl
    · rfl
  | some waiting =>
    refine .inr ⟨waiting, _, rfl, ?_, ?_, ?_, rfl⟩
    · rw [BitVec.getLsbD_or]
      exact Bool.or_true _
    · rfl
    · rfl

theorem withRefreshLimit_of_first {limit : ℕ} {next : PendingLogLoad} (h : next.cursor = none) :
    RepoState.withRefreshLimit limit next = { next with limit := limit } := by
  rw [RepoState.withRefreshLimit, h]
  rfl

theorem Recorded.finishLogLoad (h : Recorded session)
    (hfilter : ∀ load, session.repo.loads.pendingLog = some load → FilterOf session.repo load) :
    Sound (session.publish session.shown session.repo.finishLogLoad) := by
  have hquiet := session.repo.setLogLoadingMore_quiet false
  have hset := h.quiet hquiet
  rw [RepoState.finishLogLoad]
  rcases finishLog_cases (session.repo.setLogLoadingMore false).loads
      (RepoState.withRefreshLimit (session.repo.setLogLoadingMore false).refreshLogLimit) with
    ⟨idle, hbit, hwaiting, hactive, hlast, hfinished⟩ |
      ⟨waiting, busy, hpending, hbit, hwaiting, hlast, hfinished⟩
  · rw [hfinished]
    exact hset.idle hbit hwaiting hactive hlast
  · have hcursor : waiting.cursor = none := hset.waiting waiting hpending
    rw [withRefreshLimit_of_first hcursor] at hfinished
    generalize hnext : { waiting with
      limit := (session.repo.setLogLoadingMore false).refreshLogLimit } = next at hfinished
    have hfirst : ∀ page, (session.repo.setLogLoadingMore false).repoLog = .ready page →
        next.cursor.isSome → page.nextCursor = next.cursor := by
      intro _ _ hsome
      rw [← hnext, show _ = none from hcursor] at hsome
      cases hsome
    have hsame : FilterOf (session.repo.setLogLoadingMore false) next :=
      hnext ▸ (hfilter waiting (hquiet.loads.waiting ▸ hpending)).quiet hquiet
    rw [hfinished]
    exact (hset.start hbit hwaiting hlast hfirst hsame).publish_quiet
      (RepoState.setLogLoadingMore_quiet _ _)

theorem Sound.queue_refresh (h : Sound session) {seq : LogLoadSeq} {active : PendingLogLoad}
    (hactive : session.repo.loads.activeLog = some (seq, active)) :
    Sound { session with
      repo := { session.repo with
        loads := (session.repo.loads.requestLog session.repo.refreshLogRequest).1 } } := by
  have hfilter := h.active_filter seq active hactive
  have hbusy : session.repo.loads.isInFlight RepoLoadsInFlight.log := by
    rw [h.bit, hactive]
    rfl
  have hstays : session.repo.loads.supersedesActive session.repo.refreshLogRequest = false := by
    rw [RepoLoadsInFlight.supersedesActive, hactive]
    exact Bool.or_eq_false_iff.mpr
      ⟨bne_eq_false_iff_eq.mpr hfilter.1, bne_eq_false_iff_eq.mpr hfilter.2⟩
  rw [RepoLoadsInFlight.requestLog, hbusy, hstays]
  exact h.toTracked.queue_request rfl session.repo.refreshLogRequest_filter hstays

theorem Tracked.accepted (h : Tracked session) (hfew : session.issued.length < 2 ^ 64)
    {issue : Issue} (hissue : issue ∈ session.issued)
    (haccepted : session.repo.loads.isActiveLogReply issue.seq) :
    session.repo.loads.activeLog = some (issue.seq, issue.load) ∧ Continues session.repo issue := by
  obtain ⟨load, hactive⟩ := Store.accepted_iff.mp haccepted
  obtain ⟨head, rest, hissued, hseq, rfl, hcontinues⟩ := h.active _ _ hactive
  have hdistinct : (session.issued.map Issue.seq).Nodup := h.numbered ▸ Store.nodup_numbers hfew
  have hhead : head ∈ session.issued := by
    rw [hissued]
    exact mem_cons_self
  obtain rfl := inj_on_of_nodup_map hdistinct hhead hissue hseq
  exact ⟨hactive, hcontinues⟩

section
variable {issue : Issue} {page : LogPage} {snapshot : Option HistorySnapshot}

theorem RepoState.installPage_loads (s : RepoState) (isLoadMore : Bool) (page : LogPage)
    (snapshot : Option HistorySnapshot) :
    (s.installPage isLoadMore page snapshot).loads = s.loads := by
  rw [RepoState.installPage]
  cases isLoadMore with
  | false => exact s.setLog_loads _
  | true =>
    dsimp only
    rw [if_pos rfl]
    cases s.repoLog.ready? <;> rfl

theorem Sound.install_first (h : Sound session)
    (hactive : session.repo.loads.activeLog = some (issue.seq, issue.load))
    (hcursor : issue.load.cursor = none) :
    Recorded { session with
      repo := session.repo.installPage false page snapshot
      shown := [⟨issue.load, issue.snapshot, page, snapshot⟩] } := by
  have hloads := session.repo.installPage_loads false page snapshot
  have hlog : (session.repo.installPage false page snapshot).repoLog = .ready page :=
    session.repo.setLog_repoLog _
  refine ⟨(session.repo.setLog_log _).trans hlog.symm, h.numbered, ?_, ?_, ?_⟩
  · rw [hloads]
    exact h.last
  · rw [hloads]
    exact h.waiting
  · intro shown hshown
    obtain rfl : page = shown := Loadable.ready.inj (hlog.symm.trans hshown)
    refine ⟨?_, ⟨_, _, rfl, hcursor⟩, isChain_singleton _, ?_, rfl⟩
    · simp [joined]
    · intro answer hanswer
      obtain rfl := mem_singleton.mp hanswer
      exact (h.active_filter _ _ hactive).setLog _

theorem joined_append (shown : List Answer) (answer : Answer) :
    joined (shown ++ [answer]) =
      ⟨(joined shown).commits ++ answer.page.commits, answer.page.nextCursor⟩ := by
  simp [joined]

theorem Sound.install_next (h : Sound session) {existing : LogPage}
    (hready : session.repo.repoLog = .ready existing)
    (hactive : session.repo.loads.activeLog = some (issue.seq, issue.load))
    (hcontinues : Continues session.repo issue) (hcursor : issue.load.cursor.isSome) :
    Recorded { session with
      repo := session.repo.installPage true page snapshot
      shown := session.shown ++ [⟨issue.load, issue.snapshot, page, snapshot⟩] } := by
  obtain ⟨-, hnext, hknown⟩ := hcontinues.same existing hready hcursor
  have hdisplays := h.shown existing hready
  have hinstalled : session.repo.installPage true page snapshot =
      { session.repo.appendPage existing page with logSnapshot := snapshot } := by
    rw [RepoState.installPage, if_pos rfl, hready]
    rfl
  rw [hinstalled]
  refine ⟨rfl, h.numbered, h.last, h.waiting, ?_⟩
  intro shown hshown
  obtain rfl := Loadable.ready.inj hshown
  obtain ⟨first, rest, hfirst, hstart⟩ := hdisplays.first
  refine ⟨?_, ⟨first, rest ++ [_], by rw [hfirst]; rfl, hstart⟩, ?_, ?_, ?_⟩
  · rw [joined_append, ← hdisplays.joined]
  · refine isChain_append.mpr ⟨hdisplays.consecutive, isChain_singleton _, ?_⟩
    intro last hlast next hnext'
    cases hnext'
    have hcursors : last.page.nextCursor = issue.load.cursor := by
      rw [← hnext, hdisplays.joined, joined, hlast]
      rfl
    have hsnapshot := hdisplays.snapshot
    rw [hlast] at hsnapshot
    exact ⟨by rw [hcursors, hcursor], hcursors.symm,
      hknown.trans (Option.some.inj hsnapshot).symm⟩
  · intro answer hanswer
    rcases mem_append.mp hanswer with hold | hnew
    · exact hdisplays.filter answer hold
    · obtain rfl := mem_singleton.mp hnew
      exact h.active_filter _ _ hactive
  · rw [getLast?_concat]
    rfl

theorem Sound.install_gone (h : Sound session) (hgone : session.repo.repoLog.ready? = none) :
    Recorded { session with repo := session.repo.installPage true page snapshot } := by
  have hinstalled : session.repo.installPage true page snapshot =
      { session.repo with logSnapshot := snapshot } := by
    rw [RepoState.installPage, if_pos rfl, hgone]
  rw [hinstalled]
  exact ⟨h.copy, h.numbered, h.last, h.waiting,
    fun shown hshown => absurd hshown (not_ready hgone shown)⟩

theorem RepoState.reconcileSelectionFromLog_issues (s repo : RepoState) (isLoadMore : Bool) :
    (s.reconcileSelectionFromLog isLoadMore).2.filterMap (Effect.issue? repo) = [] := by
  rw [RepoState.reconcileSelectionFromLog]
  cases if isLoadMore then none else s.repoLog.ready? with
  | none => rfl
  | some page => simp [filterMap_map, Function.comp_def, Effect.issue?]

theorem RepoState.pageLoaded_eq (s : RepoState) (scope : LogScope) (isLoadMore : Bool)
    (page : LogPage) (snapshot : Option HistorySnapshot) :
    ∃ after, Quiet (s.installPage isLoadMore page snapshot) after ∧
      (s.pageLoaded scope isLoadMore page snapshot).1 = after.finishLogLoad.1 ∧
      ∀ repo, (s.pageLoaded scope isLoadMore page snapshot).2.filterMap (Effect.issue? repo) =
        after.finishLogLoad.2.filterMap (Effect.issue? repo) := by
  let detached := (s.installPage isLoadMore page snapshot).reconcileDetachedHeadFromLog scope
  let reconciled := detached.reconcileSelectionFromLog isLoadMore
  have hquiet : Quiet (s.installPage isLoadMore page snapshot) reconciled.1 :=
    (RepoState.reconcileDetachedHeadFromLog_quiet _ scope).trans
      (RepoState.reconcileSelectionFromLog_quiet _ isLoadMore)
  refine ⟨if isLoadMore then reconciled.1.setLogLoadingMore false else reconciled.1, ?_, rfl, ?_⟩
  · cases isLoadMore with
    | false => exact hquiet
    | true => exact hquiet.trans (RepoState.setLogLoadingMore_quiet _ false)
  · intro repo
    rw [RepoState.pageLoaded, filterMap_append, RepoState.reconcileSelectionFromLog_issues]
    rfl

theorem Recorded.pageLoaded {shown : List Answer} {isLoadMore : Bool} {scope : LogScope}
    (h : Recorded { session with
      repo := session.repo.installPage isLoadMore page snapshot
      shown := shown })
    (hfilter : ∀ load, session.repo.loads.pendingLog = some load →
      FilterOf (session.repo.installPage isLoadMore page snapshot) load) :
    Sound (session.publish shown
      (session.repo.pageLoaded scope isLoadMore page snapshot)) := by
  obtain ⟨after, hquiet, hrepo, hissues⟩ :=
    session.repo.pageLoaded_eq scope isLoadMore page snapshot
  have hpublished : session.publish shown (session.repo.pageLoaded scope isLoadMore page snapshot) =
      session.publish shown after.finishLogLoad := by
    simp only [Session.publish, hrepo, hissues]
  rw [hpublished]
  refine (h.quiet hquiet).finishLogLoad fun load hload => ?_
  rw [hquiet.loads.waiting, RepoState.installPage_loads] at hload
  exact (hfilter load hload).quiet hquiet

theorem FilterOf.installPage {repo : RepoState} {load : PendingLogLoad} (h : FilterOf repo load)
    (isLoadMore : Bool) : FilterOf (repo.installPage isLoadMore page snapshot) load := by
  rw [RepoState.installPage]
  cases isLoadMore with
  | false => exact h.setLog _
  | true =>
    rw [if_pos rfl]
    cases repo.repoLog.ready? <;> exact h

end

theorem Session.reply_of_stale {issue : Issue} {result : Except ReadError HistoryReadResult}
    (h : session.repo.loads.isActiveLogReply issue.seq = false) :
    session.reply issue result = session := by
  have hrepo : session.repo.logLoaded issue.seq issue.load.scope issue.load.cursor result =
      (session.repo, []) := by
    rw [RepoState.logLoaded, h]
    rfl
  have hshown : session.shownAfter issue result = session.shown := by
    unfold Session.shownAfter
    split
    · rw [h]
      rfl
    · rfl
  rw [Session.reply, hrepo, hshown]
  rfl

theorem Session.shownAfter_page {issue : Issue} {page : LogPage} {snapshot : Option HistorySnapshot}
    (h : session.repo.loads.isActiveLogReply issue.seq) :
    session.shownAfter issue (.ok (.page page snapshot)) =
      if issue.load.cursor.isNone then [⟨issue.load, issue.snapshot, page, snapshot⟩]
      else if session.repo.repoLog.ready?.isSome then
        session.shown ++ [⟨issue.load, issue.snapshot, page, snapshot⟩] else session.shown := by
  rw [Session.shownAfter, h]
  rfl

theorem Sound.reply (h : Sound session) (hfew : session.issued.length < 2 ^ 64) {issue : Issue}
    (hissue : issue ∈ session.issued) (result : Except ReadError HistoryReadResult) :
    Sound (session.reply issue result) := by
  cases haccepted : session.repo.loads.isActiveLogReply issue.seq with
  | false =>
    rw [Session.reply_of_stale haccepted]
    exact h
  | true =>
    obtain ⟨hactive, hcontinues⟩ := h.toTracked.accepted hfew hissue haccepted
    have hquiet := session.repo.setLogScanProgress_quiet none
    have hsound := h.quiet hquiet
    rw [Session.reply, RepoState.logLoaded, haccepted]
    rw [Bool.not_true, if_neg Bool.false_ne_true]
    cases result with
    | error failure =>
      cases failure with
      | cancelled => exact hsound.toRecorded.finishLogLoad hsound.waiting_filter
      | failed message =>
        dsimp only
        split
        · exact hsound.toRecorded.finishLogLoad hsound.waiting_filter
        · have hgone := hsound.unready (RepoState.setLog_unready _ (.error message) rfl)
            fun load hload => hload.setLog _
          exact hgone.toRecorded.finishLogLoad hgone.waiting_filter
    | ok answer =>
      cases answer with
      | unchanged =>
        have hdetached := hsound.quiet
          (RepoState.reconcileDetachedHeadFromLog_quiet _ issue.load.scope)
        exact hdetached.toRecorded.finishLogLoad hdetached.waiting_filter
      | invalidated =>
        have hqueued := hsound.queue_refresh hactive
        exact hqueued.toRecorded.finishLogLoad hqueued.waiting_filter
      | page page snapshot =>
        have hfilter : ∀ isLoadMore load,
            (session.repo.setLogScanProgress none).loads.pendingLog = some load →
            FilterOf ((session.repo.setLogScanProgress none).installPage isLoadMore page snapshot)
              load :=
          fun isLoadMore load hload => (hsound.waiting_filter load hload).installPage isLoadMore
        rw [Session.shownAfter_page haccepted]
        cases hcursor : issue.load.cursor with
        | none => exact (hsound.install_first hactive hcursor).pageLoaded (hfilter false)
        | some cursor =>
          have hsome : issue.load.cursor.isSome := by
            rw [hcursor]
            rfl
          cases hready : session.repo.repoLog.ready? with
          | none =>
            have hgone : (session.repo.setLogScanProgress none).repoLog.ready? = none := hready
            exact (hsound.install_gone hgone).pageLoaded (hfilter true)
          | some existing =>
            exact (hsound.install_next (ready_of_ready? hready) hactive
              (hcontinues.quiet hquiet) hsome).pageLoaded (hfilter true)

end GitComet.LogReplies
