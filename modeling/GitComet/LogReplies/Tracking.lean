import GitComet.LogReplies.Session

variable {shown : List Answer}

namespace GitComet.LogReplies
open Loading RepoState Selection Store Option Bool

variable {load : PendingLogLoad}

section
variable {repo after : RepoState}

theorem FilterOf.quiet (h : FilterOf repo load) (hquiet : Quiet repo after) : FilterOf after load :=
  ⟨h.1.trans hquiet.historyScope.symm, h.2.trans hquiet.historyAuthorFilter.symm⟩

theorem Displays.quiet {page : LogPage} (h : Displays repo shown page)
    (hquiet : Quiet repo after) : Displays after shown page where
  joined := h.joined
  first := h.first
  consecutive := h.consecutive
  filter answer hanswer := (h.filter answer hanswer).quiet hquiet
  snapshot := by rw [hquiet.logSnapshot, h.snapshot]

theorem Continues.quiet {issue : Issue} (h : Continues repo issue) (hquiet : Quiet repo after) :
    Continues after issue := by
  refine ⟨fun page hpage hcursor => ?_⟩
  rw [hquiet.repoLog] at hpage
  rw [hquiet.logSnapshot]
  exact h.same page hpage hcursor

theorem not_ready {log : Loadable LogPage} (h : log.ready? = none) (page : LogPage) :
    log ≠ .ready page := by
  rintro rfl
  cases h

theorem ready_of_ready? {log : Loadable LogPage} {page : LogPage} (h : log.ready? = some page) :
    log = .ready page := by
  cases log with
  | ready value => rw [some.inj h]
  | notLoaded | loading | error message => cases h

end

section
variable {session : Session} {after : RepoState}

theorem Recorded.quiet (h : Recorded session) (hquiet : Quiet session.repo after) :
    Recorded { session with repo := after } where
  copy := hquiet.log.trans (h.copy.trans hquiet.repoLog.symm)
  numbered := h.numbered
  last := hquiet.loads.last.trans h.last
  waiting := by
    rw [hquiet.loads.waiting]
    exact h.waiting
  shown page hpage := (h.shown page (hquiet.repoLog ▸ hpage)).quiet hquiet

theorem Tracked.quiet (h : Tracked session) (hquiet : Quiet session.repo after) :
    Tracked { session with repo := after } where
  toRecorded := h.toRecorded.quiet hquiet
  bit := by
    rw [Store.isInFlight_log, hquiet.loads.bit, hquiet.loads.active, ← h.bit, Store.isInFlight_log]
  busy := by
    rw [hquiet.loads.waiting, hquiet.loads.active]
    exact h.busy
  active seq load hactive := by
    rw [hquiet.loads.active] at hactive
    obtain ⟨issue, rest, hissued, hseq, hload, hcontinues⟩ := h.active seq load hactive
    exact ⟨issue, rest, hissued, hseq, hload, hcontinues.quiet hquiet⟩

theorem Sound.quiet (h : Sound session) (hquiet : Quiet session.repo after) :
    Sound { session with repo := after } where
  toTracked := h.toTracked.quiet hquiet
  active_filter seq load hactive :=
    (h.active_filter seq load (hquiet.loads.active ▸ hactive)).quiet hquiet
  waiting_filter load hwaiting :=
    (h.waiting_filter load (hquiet.loads.waiting ▸ hwaiting)).quiet hquiet

theorem Tracked.unready (h : Tracked session) (hgone : Unready session.repo after) :
    Tracked { session with repo := after } where
  copy := hgone.copy
  numbered := h.numbered
  last := hgone.loads.last.trans h.last
  waiting := by
    rw [hgone.loads.waiting]
    exact h.waiting
  shown page hpage := absurd hpage (not_ready hgone.gone page)
  bit := by rw [Store.isInFlight_log, hgone.loads.bit, hgone.loads.active, ← h.bit,
    Store.isInFlight_log]
  busy := by
    rw [hgone.loads.waiting, hgone.loads.active]
    exact h.busy
  active seq load hactive := by
    rw [hgone.loads.active] at hactive
    obtain ⟨issue, rest, hissued, hseq, hload, -⟩ := h.active seq load hactive
    exact ⟨issue, rest, hissued, hseq, hload,
      ⟨fun page hpage => absurd hpage (not_ready hgone.gone page)⟩⟩

theorem Sound.unready (h : Sound session) (hgone : Unready session.repo after)
    (hfilter : ∀ load, FilterOf session.repo load → FilterOf after load) :
    Sound { session with repo := after } where
  toTracked := h.toTracked.unready hgone
  active_filter seq load hactive :=
    hfilter load (h.active_filter seq load (hgone.loads.active ▸ hactive))
  waiting_filter load hwaiting :=
    hfilter load (h.waiting_filter load (hgone.loads.waiting ▸ hwaiting))

theorem issue?_quiet {repo : RepoState} (hquiet : Quiet repo after) (effect : Effect) :
    effect.issue? after = effect.issue? repo := by
  cases effect with
  | loadLog seq load => simp only [Effect.issue?, hquiet.repoLog, hquiet.logSnapshot]
  | selection effect => rfl

theorem publish_quiet {repo : RepoState} {effects : List Effect} (hquiet : Quiet repo after) :
    session.publish shown (after, effects) =
      { session.publish shown (repo, effects) with repo := after } := by
  have hissue : Effect.issue? after = Effect.issue? repo :=
    funext fun effect => issue?_quiet hquiet effect
  simp only [Session.publish, hissue]

end

section
variable {session : Session}

theorem Recorded.start (h : Recorded session) {loads : RepoLoadsInFlight}
    (hbit : loads.inFlight.getLsbD 11) (hwaiting : loads.pendingLog = none)
    (hlast : loads.lastLogSeq = session.repo.loads.lastLogSeq)
    (hcontinues : ∀ page, session.repo.repoLog = .ready page → load.cursor.isSome →
      page.nextCursor = load.cursor)
    (hfilter : FilterOf session.repo load) :
    Sound (session.publish session.shown
      ({ session.repo with loads := (loads.startLog load).1 },
        [.loadLog (loads.startLog load).2 load])) := by
  have hseq : (loads.startLog load).2 = BitVec.ofNat 64 (session.issued.length + 1) := by
    rw [RepoLoadsInFlight.startLog, hlast, h.last, BitVec.ofNat_add]
    rfl
  have hidle : (loads.startLog load).1.pendingLog = none := hwaiting
  refine { copy := h.copy, numbered := ?_, last := hseq, waiting := ?_, shown := ?_, bit := ?_,
           busy := ?_, active := ?_, active_filter := ?_, waiting_filter := ?_ }
  · change (loads.startLog load).2 :: session.issued.map Issue.seq = _
    rw [hseq, h.numbered]
    rfl
  · intro waiting hwait
    cases hidle.symm.trans hwait
  · intro page hpage
    have hdisplays := h.shown page hpage
    exact ⟨hdisplays.joined, hdisplays.first, hdisplays.consecutive, hdisplays.filter,
      hdisplays.snapshot⟩
  · exact (Store.isInFlight_log _).trans hbit
  · exact fun _ => rfl
  · intro seq active hactive
    obtain ⟨rfl, rfl⟩ := Prod.mk.inj (some.inj hactive)
    exact ⟨_, _, rfl, rfl, rfl,
      ⟨fun page hpage hcursor => ⟨hpage, hcontinues page hpage hcursor, rfl⟩⟩⟩
  · intro seq active hactive
    obtain ⟨rfl, rfl⟩ := Prod.mk.inj (some.inj hactive)
    exact hfilter
  · intro waiting hwait
    cases hidle.symm.trans hwait

theorem Tracked.idle_waiting (h : Tracked session)
    (hidle : session.repo.loads.activeLog = none) : session.repo.loads.pendingLog = none := by
  have hbusy := h.busy
  rw [hidle] at hbusy
  cases hpending : session.repo.loads.pendingLog with
  | none => rfl
  | some load =>
    rw [hpending] at hbusy
    cases hbusy rfl

theorem Tracked.queue (h : Tracked session) {waiting : PendingLogLoad} {seq : LogLoadSeq}
    {active : PendingLogLoad} (hactive : session.repo.loads.activeLog = some (seq, active))
    (hsame : FilterOf session.repo active) (hcursor : waiting.cursor = none)
    (hfilter : FilterOf session.repo waiting) :
    Sound { session with
      repo := { session.repo with
        loads := { session.repo.loads with pendingLog := some waiting } } } := by
  refine { copy := h.copy, numbered := h.numbered, last := h.last, waiting := ?_, shown := ?_,
           bit := h.bit, busy := ?_, active := ?_, active_filter := ?_, waiting_filter := ?_ }
  · intro other hother
    cases hother
    exact hcursor
  · intro page hpage
    have hdisplays := h.shown page hpage
    exact ⟨hdisplays.joined, hdisplays.first, hdisplays.consecutive, hdisplays.filter,
      hdisplays.snapshot⟩
  · intro _
    exact isSome_iff_exists.mpr ⟨_, hactive⟩
  · intro seq' load' hactive'
    obtain ⟨issue, rest, hissued, hseq, hload, hcontinues⟩ := h.active seq' load' hactive'
    exact ⟨issue, rest, hissued, hseq, hload, ⟨hcontinues.same⟩⟩
  · intro seq' load' hactive'
    obtain ⟨rfl, rfl⟩ := Prod.mk.inj (some.inj (hactive.symm.trans hactive'))
    exact hsame
  · intro other hother
    cases hother
    exact hfilter

theorem Tracked.queue_request (h : Tracked session)
    (hcursor : load.cursor = none) (hfilter : FilterOf session.repo load)
    (hstays : session.repo.loads.supersedesActive load = false) :
    Sound (session.setLoads
      { session.repo.loads with pendingLog := session.repo.loads.queueLog load }) := by
  obtain ⟨seq, active, hactive, hscope, hauthor⟩ := Store.supersedesActive_false hstays
  have hsame : FilterOf session.repo active :=
    ⟨hscope.trans hfilter.1, hauthor.trans hfilter.2⟩
  rcases Store.queueLog_cases session.repo.loads load with
    ⟨hqueue, -⟩ | ⟨existing, -, hqueue, hexisting, hrefresh⟩
  · rw [hqueue]
    exact h.queue hactive hsame hcursor hfilter
  · rw [hqueue]
    exact h.queue hactive hsame hrefresh ⟨hexisting.1.trans hfilter.1, hexisting.2.trans hfilter.2⟩

theorem Tracked.request (h : Tracked session) (hcursor : load.cursor = none)
    (hfilter : FilterOf session.repo load) :
    Sound (session.publish session.shown (session.repo.requestLogEffect load)) := by
  have hfirst : ∀ page, session.repo.repoLog = .ready page → load.cursor.isSome →
      page.nextCursor = load.cursor := by
    intro page _ hsome
    rw [hcursor] at hsome
    cases hsome
  rw [RepoState.requestLogEffect, RepoLoadsInFlight.requestLog]
  split
  · rename_i hidle
    have hactive : session.repo.loads.activeLog = none := by
      rw [h.bit] at hidle
      simpa using hidle
    exact h.toRecorded.start (by rw [BitVec.getLsbD_or]; exact or_true _)
      (h.idle_waiting hactive) rfl hfirst hfilter
  · rename_i hbusy
    rw [not_eq_true, not_eq_false', Store.isInFlight_log] at hbusy
    split
    · exact h.toRecorded.start hbusy rfl rfl hfirst hfilter
    · rename_i hstays
      exact h.queue_request hcursor hfilter (not_eq_true _ ▸ hstays)

end

end GitComet.LogReplies

namespace GitComet.LogReplies
open IndexedHistory Loading RepoState Selection Store

variable {session : Session}

theorem Sound.publish_quiet {repo after : RepoState} {effects : List Effect}
    (h : Sound (session.publish shown (repo, effects))) (hquiet : Quiet repo after) :
    Sound (session.publish shown (after, effects)) := by
  rw [LogReplies.publish_quiet hquiet]
  exact h.quiet hquiet

theorem RepoState.firstPageLogRequest_filter (s : RepoState) :
    FilterOf s s.firstPageLogRequest := ⟨rfl, rfl⟩

theorem RepoState.refreshLogRequest_filter (s : RepoState) : FilterOf s s.refreshLogRequest :=
  ⟨rfl, rfl⟩

theorem Sound.loadMoreHistory (h : Sound session) :
    Sound (session.publish session.shown session.repo.loadMoreHistory) := by
  rw [RepoState.loadMoreHistory]
  split_ifs with hbusy
  · exact h
  · rw [Bool.or_eq_true, not_or] at hbusy
    cases hcursor : session.repo.nextCursor? with
    | none => exact h
    | some cursor =>
      have hquiet := session.repo.setLogLoadingMore_quiet true
      have hset := h.quiet hquiet
      have hbit : (session.repo.setLogLoadingMore true).loads.isInFlight RepoLoadsInFlight.log
          = false := by
        rw [Store.isInFlight_log, hquiet.loads.bit, ← Store.isInFlight_log]
        exact Bool.not_eq_true _ ▸ hbusy.2
      have hidle : (session.repo.setLogLoadingMore true).loads.activeLog = none := by
        have hactive := hset.bit
        rw [hbit] at hactive
        simpa using hactive.symm
      dsimp only
      rw [RepoState.requestLogEffect, RepoLoadsInFlight.requestLog, hbit]
      refine hset.toRecorded.start (by rw [BitVec.getLsbD_or]; exact Bool.or_true _)
        (hset.idle_waiting hidle) rfl (fun page hpage _ => ?_) ⟨rfl, rfl⟩
      have hready : (session.repo.setLogLoadingMore true).repoLog = .ready page := hpage
      rw [RepoState.nextCursor?, ← hquiet.repoLog, hready] at hcursor
      exact hcursor

theorem Tracked.requestRefresh (h : Tracked session) :
    Sound (session.publish session.shown session.repo.requestRefresh) := by
  have hrequested := h.request rfl session.repo.refreshLogRequest_filter
  rw [RepoState.requestRefresh]
  split
  · exact hrequested
  · exact hrequested.publish_quiet (RepoState.setLogLoadingMore_quiet _ _)

theorem RepoState.primaryLanes_apart :
    ∀ lane ∈ RepoState.primaryLanes, lane &&& RepoLoadsInFlight.log = 0 := by
  simp only [RepoState.primaryLanes, List.forall_mem_cons]
  exact ⟨rfl, rfl, rfl, rfl, rfl, rfl, fun _ h => absurd h List.not_mem_nil⟩

theorem RepoState.fullLanesBefore_apart :
    ∀ lane ∈ RepoState.fullLanesBefore, lane &&& RepoLoadsInFlight.log = 0 := by
  simp only [RepoState.fullLanesBefore, List.forall_mem_cons]
  exact ⟨rfl, rfl, rfl, rfl, fun _ h => absurd h List.not_mem_nil⟩

theorem RepoState.fullLanesAfter_apart :
    ∀ lane ∈ RepoState.fullLanesAfter, lane &&& RepoLoadsInFlight.log = 0 := by
  simp only [RepoState.fullLanesAfter, List.forall_mem_cons]
  exact ⟨rfl, rfl, rfl, rfl, rfl, fun _ h => absurd h List.not_mem_nil⟩

theorem requestPrimaryRefreshBatch_cases (loads : RepoLoadsInFlight) (load : PendingLogLoad) :
    loads.requestPrimaryRefreshBatch load = (loads, none) ∨
    ∃ busy : RepoLoadsInFlight, busy.inFlight.getLsbD 11 ∧ busy.pendingLog = none ∧
      busy.lastLogSeq = loads.lastLogSeq ∧ loads.requestPrimaryRefreshBatch load =
        ((busy.startLog load).1, some (busy.startLog load).2) := by
  have hlog : RepoLoadsInFlight.primaryRefreshFlags.getLsbD 11 := by decide
  rw [RepoLoadsInFlight.requestPrimaryRefreshBatch]
  split
  · rename_i hidle
    rw [Bool.and_eq_true, Option.isNone_iff_eq_none] at hidle
    refine .inr ⟨_, ?_, ?_, ?_, rfl⟩
    · rw [BitVec.getLsbD_or, hlog, Bool.or_true]
    · exact hidle.2
    · rfl
  · exact .inl rfl

theorem Tracked.refreshPrimary (h : Tracked session) :
    Sound (session.publish session.shown session.repo.refreshPrimary) := by
  rw [RepoState.refreshPrimary]
  rcases requestPrimaryRefreshBatch_cases session.repo.loads session.repo.refreshLogRequest with
    hrefused | ⟨busy, hbit, hwaiting, hlast, hstarts⟩
  · rw [hrefused]
    have hquiet := (session.repo.requestLanes_quiet RepoState.primaryLanes_apart).trans
      (RepoState.invalidateLineStats_quiet _)
    exact (h.quiet hquiet).requestRefresh
  · rw [hstarts]
    have hfirst : ∀ page, session.repo.repoLog = .ready page →
        session.repo.refreshLogRequest.cursor.isSome →
        page.nextCursor = session.repo.refreshLogRequest.cursor := by
      rintro _ _ ⟨⟩
    have hstarted := h.toRecorded.start hbit hwaiting hlast hfirst
      session.repo.refreshLogRequest_filter
    exact (hstarted.publish_quiet (RepoState.setLogLoadingMore_quiet _ _)).publish_quiet
      (RepoState.invalidateLineStats_quiet _)

theorem Tracked.refreshFull (h : Tracked session) :
    Sound (session.publish session.shown session.repo.refreshFull) := by
  have hquiet := (session.repo.requestLanes_quiet RepoState.fullLanesBefore_apart).trans
    (RepoState.invalidateLineStats_quiet _)
  have hrequested := (h.quiet hquiet).requestRefresh
  exact hrequested.publish_quiet (RepoState.requestLanes_quiet _ RepoState.fullLanesAfter_apart)

theorem Tracked.restartHistoryLoad (h : Tracked session) {repo : RepoState}
    (hloads : repo.loads = session.repo.loads) :
    Sound (session.publish session.shown repo.restartHistoryLoad) := by
  have hretained := repo.retainLogWhileLoading_quiet.loads
  rw [hloads] at hretained
  have hgone := (RepoState.setLog_unready repo.retainLogWhileLoading .loading rfl).since hretained
  have hcleared := (hgone.quiet (RepoState.setLogLoadingMore_quiet _ false)).quiet
    (RepoState.setLogScanProgress_quiet _ none)
  exact (h.unready hcleared).request rfl (RepoState.firstPageLogRequest_filter _)

theorem Sound.setHistoryScope (h : Sound session) (scope : LogScope) :
    Sound (session.publish session.shown (session.repo.setHistoryScope scope)) := by
  rw [RepoState.setHistoryScope]
  split
  · exact h
  · exact h.toTracked.restartHistoryLoad rfl

theorem Sound.setHistoryAuthorFilter (h : Sound session) (author : Option (List Char)) :
    Sound (session.publish session.shown (session.repo.setHistoryAuthorFilter author)) := by
  rw [RepoState.setHistoryAuthorFilter]
  split
  · exact h
  · exact h.toTracked.restartHistoryLoad rfl

end GitComet.LogReplies
