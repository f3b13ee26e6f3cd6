import GitComet.LogReplies.Replies

namespace GitComet.LogReplies
open List IndexedHistory Loading RepoState Selection Store

section
variable {session : Session}

theorem Sound.setLoads (h : Sound session) {loads : RepoLoadsInFlight}
    (hloads : Store.KeepsLog session.repo.loads loads) : Sound (session.setLoads loads) :=
  h.quiet (session.repo.quiet_loads hloads)

theorem Sound.step (h : Sound session) (hfew : session.issued.length < 2 ^ 64) (message : Message) :
    Sound (session.step message) := by
  cases message with
  | loadMoreHistory => exact h.loadMoreHistory
  | refreshPrimary => exact h.toTracked.refreshPrimary
  | refreshFull => exact h.toTracked.refreshFull
  | setHistoryScope scope => exact h.setHistoryScope scope
  | setHistoryAuthorFilter author => exact h.setHistoryAuthorFilter author
  | cancelRepoLoads => exact h.cancelRepoLoads
  | reloadRepo => exact h.reloadRepo
  | repoOpenedOk active => exact h.repoOpenedOk active
  | logChunkLoaded seq commits scanned =>
    exact h.quiet (session.repo.logChunkLoaded_quiet seq commits scanned)
  | logLoaded age result =>
    rw [Session.step]
    cases hissue : session.issued[age]? with
    | none => exact h
    | some issue => exact h.reply hfew (mem_of_getElem? hissue) result
  | requestLane lane => exact h.setLoads (Store.keepsLog_request _ lane)
  | finishLane lane => exact h.setLoads (Store.keepsLog_finish _ lane)
  | invalidateLineStats => exact h.setLoads ⟨rfl, rfl, rfl, rfl⟩
  | startLineStats statusReady => exact h.setLoads (Store.keepsLog_startLineStats _ statusReady)
  | finishLineStats generation => exact h.setLoads (Store.keepsLog_finishLineStats _ generation)
  | elsewhere change =>
    have hloads := change.loads session.repo
    exact h.quiet ⟨hloads ▸ RepoState.keepsLog_refl _, change.repoLog _, change.log _,
      change.logSnapshot _, change.historyScope _, change.historyAuthorFilter _⟩

theorem Sound.opened (id : Loading.RepoId) (scope : LogScope) (author : Option (List Char)) :
    Sound (Session.opened id scope author) := by
  refine { copy := rfl, numbered := rfl, last := rfl, waiting := ?_, shown := ?_,
           bit := Store.LoadInvariant.initial.bit, busy := ?_, active := ?_, active_filter := ?_,
           waiting_filter := ?_ }
  · rintro _ ⟨⟩
  · rintro _ ⟨⟩
  · rintro ⟨⟩
  · rintro _ _ ⟨⟩
  · rintro _ _ ⟨⟩
  · rintro _ ⟨⟩

theorem publish_issued_length (shown : List Answer) (reduced : RepoState × List Effect) :
    session.issued.length ≤ (session.publish shown reduced).issued.length := by
  simp [Session.publish]

theorem step_issued_length (message : Message) :
    session.issued.length ≤ (session.step message).issued.length := by
  cases message with
  | logLoaded age result =>
    rw [Session.step]
    cases session.issued[age]? with
    | none => exact le_rfl
    | some issue => exact publish_issued_length _ _
  | loadMoreHistory | refreshPrimary | refreshFull | setHistoryScope | setHistoryAuthorFilter |
    reloadRepo | repoOpenedOk => exact publish_issued_length _ _
  | cancelRepoLoads | logChunkLoaded | requestLane | finishLane | invalidateLineStats |
    startLineStats | finishLineStats | elsewhere => exact le_rfl

theorem run_concat (id : Loading.RepoId) (scope : LogScope) (author : Option (List Char))
    (messages : List Message) (message : Message) :
    Session.run id scope author (messages ++ [message]) =
      (Session.run id scope author messages).step message := by
  rw [Session.run, foldl_append]
  rfl

theorem sound_run (id : Loading.RepoId) (scope : LogScope) (author : Option (List Char))
    (messages : List Message)
    (hfew : (Session.run id scope author messages).issued.length < 2 ^ 64) :
    Sound (Session.run id scope author messages) := by
  induction messages using reverseRecOn with
  | nil => exact .opened id scope author
  | append_singleton messages message ih =>
    rw [run_concat] at hfew ⊢
    have hbefore := (step_issued_length message).trans_lt hfew
    exact (ih hbefore).step hbefore message

end

structure Keeps (s after : RepoState) : Prop where
  log : after.repoLog = s.repoLog ∨ after.repoLog.ready? = none

namespace Keeps
variable {s mid after : RepoState}

theorem refl (s : RepoState) : Keeps s s := ⟨.inl rfl⟩

theorem quiet (h : Quiet s after) : Keeps s after := ⟨.inl h.repoLog⟩

theorem unready (h : Unready s after) : Keeps s after := ⟨.inr h.gone⟩

theorem trans (hmid : Keeps s mid) (hafter : Keeps mid after) : Keeps s after := by
  refine ⟨?_⟩
  rcases hafter.log with hsame | hgone
  · rw [hsame]
    exact hmid.log
  · exact .inr hgone

end Keeps

namespace RepoState
variable (s : RepoState)

theorem requestLogEffect_keeps (load : PendingLogLoad) : Keeps s (s.requestLogEffect load).1 :=
  ⟨.inl rfl⟩

theorem loadMoreHistory_keeps : Keeps s s.loadMoreHistory.1 := by
  rw [loadMoreHistory]
  split
  · exact .refl s
  · cases s.nextCursor? with
    | none => exact .refl s
    | some cursor =>
      exact (Keeps.quiet (s.setLogLoadingMore_quiet true)).trans (requestLogEffect_keeps _ _)

theorem requestRefresh_keeps : Keeps s s.requestRefresh.1 := by
  have hrequested := s.requestLogEffect_keeps s.refreshLogRequest
  rw [requestRefresh]
  dsimp only
  split
  · exact hrequested
  · exact hrequested.trans (.quiet (setLogLoadingMore_quiet _ false))

theorem refreshPrimary_keeps : Keeps s s.refreshPrimary.1 := by
  rw [refreshPrimary]
  rcases requestPrimaryRefreshBatch_cases s.loads s.refreshLogRequest with
    hrefused | ⟨busy, -, -, -, hstarts⟩
  · rw [hrefused]
    exact (Keeps.quiet ((s.requestLanes_quiet primaryLanes_apart).trans
      (invalidateLineStats_quiet _))).trans (requestRefresh_keeps _)
  · rw [hstarts]
    exact ⟨.inl (setLogLoadingMore_quiet _ false).repoLog⟩

theorem refreshFull_keeps : Keeps s s.refreshFull.1 :=
  ((Keeps.quiet ((s.requestLanes_quiet fullLanesBefore_apart).trans
    (invalidateLineStats_quiet _))).trans (requestRefresh_keeps _)).trans
    (.quiet (requestLanes_quiet _ fullLanesAfter_apart))

theorem restartHistoryLoad_keeps : Keeps s s.restartHistoryLoad.1 := by
  have hgone := setLog_unready s.retainLogWhileLoading .loading rfl
  have hcleared := (hgone.quiet (setLogLoadingMore_quiet _ false)).quiet
    (setLogScanProgress_quiet _ none)
  exact ⟨.inr hcleared.gone⟩

theorem setHistoryScope_keeps (scope : LogScope) : Keeps s (s.setHistoryScope scope).1 := by
  rw [setHistoryScope]
  split
  · exact .refl s
  · exact ⟨(restartHistoryLoad_keeps _).log⟩

theorem setHistoryAuthorFilter_keeps (author : Option (List Char)) :
    Keeps s (s.setHistoryAuthorFilter author).1 := by
  rw [setHistoryAuthorFilter]
  split
  · exact .refl s
  · exact ⟨(restartHistoryLoad_keeps _).log⟩

theorem clearCancelledRepoLoading_keeps : Keeps s s.clearCancelledRepoLoading := by
  rw [clearCancelledRepoLoading]
  dsimp only
  split
  · exact ⟨.inr ((setLog_unready _ .notLoaded rfl).quiet (setLogLoadingMore_quiet _ false)).gone⟩
  · exact ⟨.inl (setLogLoadingMore_quiet _ false).repoLog⟩

theorem cancelRepoLoads_keeps : Keeps s s.cancelRepoLoads :=
  (Keeps.quiet s.bumpLoadEpoch_quiet).trans (clearCancelledRepoLoading_keeps _)

theorem refreshFull_gone {s : RepoState} (h : s.repoLog.ready? = none) :
    s.refreshFull.1.repoLog.ready? = none := by
  rcases s.refreshFull_keeps.log with hsame | hgone
  · rw [hsame, h]
  · exact hgone

theorem reloadRepo_keeps : Keeps s s.reloadRepo.1 := by
  have hgone := (resetHistoryView_unready s.cancelRepoLoads).gone
  rw [reloadRepo]
  exact ⟨.inr (refreshFull_gone hgone)⟩

theorem repoOpenedOk_keeps (active : Bool) : Keeps s (s.repoOpenedOk active).1 := by
  cases active with
  | false => exact s.clearCancelledRepoLoading_keeps
  | true =>
    have hgone := s.resetHistoryView_unready.gone
    rw [repoOpenedOk]
    exact ⟨.inr (refreshFull_gone hgone)⟩

theorem finishLogLoad_repoLog : s.finishLogLoad.1.repoLog = s.repoLog := by
  have hquiet := s.setLogLoadingMore_quiet false
  rw [finishLogLoad]
  split
  · exact hquiet.repoLog
  · exact (setLogLoadingMore_quiet _ _).repoLog.trans hquiet.repoLog

theorem pageLoaded_repoLog (scope : LogScope) (isLoadMore : Bool) (page : LogPage)
    (snapshot : Option HistorySnapshot) :
    (s.pageLoaded scope isLoadMore page snapshot).1.repoLog =
      (s.installPage isLoadMore page snapshot).repoLog := by
  obtain ⟨after, hquiet, hrepo, -⟩ := s.pageLoaded_eq scope isLoadMore page snapshot
  rw [hrepo, finishLogLoad_repoLog, hquiet.repoLog]

end RepoState

section
variable {session : Session}

structure Continuation (session : Session) (issue : Issue) (existing : LogPage) : Prop where
  displayed : session.repo.repoLog = .ready existing
  requested : issue.log = .ready existing
  cursor : existing.nextCursor = issue.load.cursor
  filter : FilterOf session.repo issue.load
  snapshot : issue.snapshot = session.repo.logSnapshot

def appended (existing reply : LogPage) : LogPage :=
  ⟨existing.commits ++ reply.commits, reply.nextCursor⟩

theorem logLoaded_keeps (s : RepoState) (seq : LogLoadSeq) (scope : LogScope)
    (cursor : Option LogCursor) {result : Except ReadError HistoryReadResult}
    (hresult : ∀ page snapshot, result ≠ .ok (.page page snapshot)) :
    Keeps s (s.logLoaded seq scope cursor result).1 := by
  have hfinish : ∀ {after : RepoState}, Keeps (s.setLogScanProgress none) after →
      Keeps s after.finishLogLoad.1 := fun hafter =>
    ((Keeps.quiet (s.setLogScanProgress_quiet none)).trans hafter).trans
      ⟨.inl (RepoState.finishLogLoad_repoLog _)⟩
  rw [RepoState.logLoaded]
  split
  · exact .refl s
  · cases result with
    | error failure =>
      cases failure with
      | cancelled => exact hfinish (.refl _)
      | failed message =>
        dsimp only
        split
        · exact hfinish (.refl _)
        · exact hfinish (.unready (RepoState.setLog_unready _ (.error message) rfl))
    | ok answer =>
      cases answer with
      | unchanged => exact hfinish (.quiet (RepoState.reconcileDetachedHeadFromLog_quiet _ _))
      | invalidated => exact hfinish ⟨.inl rfl⟩
      | page page snapshot => exact absurd rfl (hresult page snapshot)

section
variable {issue : Issue} {page existing : LogPage} {snapshot : Option HistorySnapshot}

section
variable (haccepted : session.repo.loads.isActiveLogReply issue.seq)
include haccepted

theorem reply_page_repoLog :
    (session.reply issue (.ok (.page page snapshot))).repo.repoLog =
      ((session.repo.setLogScanProgress none).installPage issue.load.cursor.isSome page
        snapshot).repoLog := by
  rw [Session.reply, RepoState.logLoaded, haccepted]
  exact RepoState.pageLoaded_repoLog _ _ _ _ _

theorem reply_first_page (hcursor : issue.load.cursor = none) :
    (session.reply issue (.ok (.page page snapshot))).repo.repoLog = .ready page := by
  rw [reply_page_repoLog haccepted, hcursor]
  exact RepoState.setLog_repoLog _ _

theorem reply_next_page
    (hcursor : issue.load.cursor.isSome) (hready : session.repo.repoLog = .ready existing) :
    (session.reply issue (.ok (.page page snapshot))).repo.repoLog =
      .ready (appended existing page) := by
  have hset : (session.repo.setLogScanProgress none).repoLog = .ready existing := hready
  rw [reply_page_repoLog haccepted, hcursor, RepoState.installPage, if_pos rfl, hset]
  rfl

end

theorem reply_next_page_gone (haccepted : session.repo.loads.isActiveLogReply issue.seq)
    (hcursor : issue.load.cursor.isSome) (hgone : session.repo.repoLog.ready? = none) :
    (session.reply issue (.ok (.page page snapshot))).repo.repoLog.ready? = none := by
  have hset : (session.repo.setLogScanProgress none).repoLog.ready? = none := hgone
  rw [reply_page_repoLog haccepted, hcursor, RepoState.installPage, if_pos rfl, hset]
  exact hgone

end

theorem Sound.continuation (h : Sound session) (hfew : session.issued.length < 2 ^ 64)
    {issue : Issue} {existing : LogPage} (hissue : issue ∈ session.issued)
    (haccepted : session.repo.loads.isActiveLogReply issue.seq)
    (hcursor : issue.load.cursor.isSome) (hready : session.repo.repoLog = .ready existing) :
    Continuation session issue existing := by
  obtain ⟨hactive, hcontinues⟩ := h.toTracked.accepted hfew hissue haccepted
  obtain ⟨hlog, hnext, hknown⟩ := hcontinues.same existing hready hcursor
  exact ⟨hready, hlog, hnext, h.active_filter _ _ hactive, hknown⟩

theorem step_keeps (session : Session) (message : Message)
    (hpage : ∀ age page snapshot, message ≠ .logLoaded age (.ok (.page page snapshot))) :
    Keeps session.repo (session.step message).repo := by
  cases message with
  | loadMoreHistory => exact session.repo.loadMoreHistory_keeps
  | refreshPrimary => exact session.repo.refreshPrimary_keeps
  | refreshFull => exact session.repo.refreshFull_keeps
  | setHistoryScope scope => exact session.repo.setHistoryScope_keeps scope
  | setHistoryAuthorFilter author => exact session.repo.setHistoryAuthorFilter_keeps author
  | cancelRepoLoads => exact session.repo.cancelRepoLoads_keeps
  | reloadRepo => exact session.repo.reloadRepo_keeps
  | repoOpenedOk active => exact session.repo.repoOpenedOk_keeps active
  | logChunkLoaded seq commits scanned => exact .quiet (session.repo.logChunkLoaded_quiet _ _ _)
  | logLoaded age result =>
    rw [Session.step]
    cases session.issued[age]? with
    | none => exact .refl _
    | some issue =>
      exact logLoaded_keeps _ _ _ _ fun page snapshot hresult =>
        hpage age page snapshot (hresult ▸ rfl)
  | requestLane | finishLane | invalidateLineStats | startLineStats | finishLineStats =>
    exact ⟨.inl rfl⟩
  | elsewhere change => exact ⟨.inl (change.repoLog _)⟩

structure Unspliced (session : Session) : Prop where
  copy : session.repo.log = session.repo.repoLog
  displays : ∀ page, session.repo.repoLog = .ready page → Displays session.repo session.shown page
  distinct : ∀ page, session.repo.repoLog = .ready page →
    (session.shown.flatMap fun answer => answer.page.commits.map Commit.id).Nodup →
    (page.commits.map Commit.id).Nodup
  stale : ∀ issue result, session.repo.loads.isActiveLogReply issue.seq = false →
    session.reply issue result = session
  appends : ∀ age issue reply snapshot existing, session.issued[age]? = some issue →
    issue.load.cursor.isSome = true → session.repo.loads.isActiveLogReply issue.seq = true →
    session.repo.repoLog = .ready existing → Continuation session issue existing ∧
      (session.step (.logLoaded age (.ok (.page reply snapshot)))).repo.repoLog =
        .ready (appended existing reply)
  installs : ∀ message page, (session.step message).repo.repoLog = .ready page →
    session.repo.repoLog = .ready page ∨
    ∃ age issue reply snapshot, session.issued[age]? = some issue ∧
      message = .logLoaded age (.ok (.page reply snapshot)) ∧
      (issue.load.cursor = none ∧ page = reply ∨
        ∃ existing, Continuation session issue existing ∧ page = appended existing reply)

theorem Sound.installs (h : Sound session) (hfew : session.issued.length < 2 ^ 64) {age : ℕ}
    {reply page : LogPage} {snapshot : Option HistorySnapshot} (hpage :
      (session.step (.logLoaded age (.ok (.page reply snapshot)))).repo.repoLog = .ready page) :
    session.repo.repoLog = .ready page ∨ ∃ issue, session.issued[age]? = some issue ∧
      (issue.load.cursor = none ∧ page = reply ∨
        ∃ existing, Continuation session issue existing ∧ page = appended existing reply) := by
  rw [Session.step] at hpage
  cases hissue : session.issued[age]? with
  | none =>
    rw [hissue] at hpage
    exact .inl hpage
  | some issue =>
    rw [hissue] at hpage
    dsimp only at hpage
    cases haccepted : session.repo.loads.isActiveLogReply issue.seq with
    | false =>
      rw [Session.reply_of_stale haccepted] at hpage
      exact .inl hpage
    | true =>
      refine .inr ⟨issue, rfl, ?_⟩
      cases hcursor : issue.load.cursor with
      | none =>
        rw [reply_first_page haccepted hcursor] at hpage
        exact .inl ⟨rfl, (Loadable.ready.inj hpage).symm⟩
      | some cursor =>
        have hsome : issue.load.cursor.isSome := by
          rw [hcursor]
          rfl
        cases hready : session.repo.repoLog.ready? with
        | none =>
          have hgone := @reply_next_page_gone session issue reply snapshot haccepted hsome hready
          rw [hpage] at hgone
          cases hgone
        | some existing =>
          have hexisting := ready_of_ready? hready
          rw [reply_next_page haccepted hsome hexisting] at hpage
          exact .inr ⟨existing,
            h.continuation hfew (mem_of_getElem? hissue) haccepted hsome hexisting,
            (Loadable.ready.inj hpage).symm⟩

end

theorem log_replies_never_splice (id : Loading.RepoId) (scope : LogScope)
    (author : Option (List Char)) (messages : List Message)
    (hfew : (Session.run id scope author messages).issued.length < 2 ^ 64) :
    Unspliced (Session.run id scope author messages) := by
  have h := sound_run id scope author messages hfew
  generalize Session.run id scope author messages = session at h hfew
  refine ⟨h.copy, h.shown, ?_, fun _ _ => Session.reply_of_stale, ?_, ?_⟩
  · intro page hpage hdistinct
    rw [(h.shown page hpage).joined, joined, map_flatMap]
    exact hdistinct
  · intro age issue reply snapshot existing hissue hcursor haccepted hready
    refine ⟨h.continuation hfew (mem_of_getElem? hissue) haccepted hcursor hready, ?_⟩
    rw [Session.step, hissue]
    exact reply_next_page haccepted hcursor hready
  · intro message page hpage
    by_cases hreply : ∃ age reply snapshot, message = .logLoaded age (.ok (.page reply snapshot))
    · obtain ⟨age, reply, snapshot, rfl⟩ := hreply
      rcases h.installs hfew hpage with hsame | ⟨issue, hissue, hinstalled⟩
      · exact .inl hsame
      · exact .inr ⟨age, issue, reply, snapshot, hissue, rfl, hinstalled⟩
    · have hkeeps := step_keeps session message fun age reply snapshot heq =>
        hreply ⟨age, reply, snapshot, heq⟩
      rcases hkeeps.log with hsame | hgone
      · exact .inl (hsame ▸ hpage)
      · exact absurd hpage (not_ready hgone page)

def cursorAfter (id : String) : LogCursor := ⟨id.toList, none, none⟩

def twoPages : List Message :=
  [.refreshPrimary, .logLoaded 0 (.ok (.page ⟨[⟨"c2", ["c1"]⟩], some (cursorAfter "c2")⟩ none)),
    .loadMoreHistory, .logLoaded 0 (.ok (.page ⟨[⟨"c1", []⟩], none⟩ none))]

theorem log_replies_never_splice_on_two_pages :
    Unspliced (Session.run 1 .fullReachable none twoPages) :=
  log_replies_never_splice 1 .fullReachable none twoPages (by decide)

end GitComet.LogReplies
