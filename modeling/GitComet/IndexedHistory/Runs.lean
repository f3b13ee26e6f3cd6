import GitComet.IndexedHistory.Blocks

namespace GitComet.IndexedHistory
open IndexedHistoryState Loading Selection List
open Store (LogScope)

structure OtherChange where
  apply : RepoState → RepoState
  keeps : ∀ s, (apply s).indexed = s.indexed

inductive Step where
  | message (event : IndexedHistoryMsg)
  | setLogScope (scope : LogScope)
  | setHistoryAuthorFilter (author : Option (List Char))
  | bumpLoadEpoch
  | elsewhere (change : OtherChange)

structure Session where
  repo : RepoState
  stalled : Bool

namespace Session
variable (session : Session)

def opened (repoId : RepoId) : Session := ⟨.newOpening repoId, false⟩

def handled : Flow → Session
  | .returned repo _ => ⟨repo, session.stalled⟩
  | .passed repo => ⟨repo.startMissingRanges.1, false⟩

def step (planner : Planner) : Step → Option Session
  | .message event => (session.repo.handleIndexed planner event).map session.handled
  | .setLogScope scope => some { session with repo := session.repo.setLogScope scope }
  | .setHistoryAuthorFilter author =>
    some { session with repo := session.repo.setHistoryAuthorFilter author }
  | .bumpLoadEpoch => some ⟨session.repo.bumpLoadEpoch, true⟩
  | .elsewhere change => some { session with repo := change.apply session.repo }

def run (planner : Planner) (repoId : RepoId) (steps : List Step) : Option Session :=
  steps.foldlM (fun session step => session.step planner step) (opened repoId)

def Queued (start : ℕ) : Prop :=
  start ∈ session.repo.indexed.desired ∧
    (session.repo.indexed.pending.keys.length = 2 ∨ session.stalled = true)

structure Valid : Prop where
  sound : session.repo.indexed.Sound
  served : session.stalled = false → session.repo.indexed.Served

end Session

def Flow.Keeps (h : IndexedHistoryState) : Flow → Prop
  | .returned repo _ => SameCache h repo.indexed
  | .passed repo => repo.indexed.Sound ∧ h.Spares repo.indexed

section
variable {s : RepoState}

theorem passed_keeps {h : IndexedHistoryState} (hsound : h.Sound) {repo : RepoState}
    (hsame : SameCache h repo.indexed) : (Flow.passed repo).Keeps h :=
  ⟨hsame.sound hsound, hsame.spares⟩

theorem Flow.Keeps.of_same {h mid : IndexedHistoryState} (hsame : SameCache h mid) {flow : Flow}
    (hflow : flow.Keeps mid) : flow.Keeps h := by
  cases flow with
  | returned repo effects => exact hsame.trans hflow
  | passed repo =>
    refine ⟨hflow.1, ⟨fun hindex start hstart range hrange => ?_⟩⟩
    refine hflow.2.cached (hindex.trans hsame.rangeIndex.symm) start hstart range ?_
    rw [hsame.ranges]
    exact hrange

theorem indexedSelect_indexed (planner : Planner) (commitId : CommitId) (mode : CommitSelectMode)
    (projection : HistoryProjection) :
    (s.indexedSelect planner commitId mode projection).1.indexed = s.indexed := by
  rw [RepoState.indexedSelect]
  split_ifs
  · rfl
  · cases projection.position commitId with
    | none => rfl
    | some clicked => exact ((keptHistory s).selectCommitMulti (.refl s) planner _ _ _ _).indexed

theorem publish_keeps (index : HistoryIndexHandle) :
    SameCache s.indexed (s.publish index).indexed := by
  rw [RepoState.publish]
  dsimp only
  split_ifs
  · exact SameCache.refl _
  · exact ⟨rfl, rfl, rfl, rfl, rfl, rfl⟩

theorem ensureIndex_keeps (hsound : s.indexed.Sound) : s.ensureIndex.Keeps s.indexed := by
  rw [RepoState.ensureIndex]
  cases s.logSnapshot with
  | none => exact SameCache.refl _
  | some snapshot =>
    dsimp only
    split_ifs
    · exact SameCache.refl _
    · exact passed_keeps hsound ⟨rfl, rfl, rfl, rfl, rfl, rfl⟩
    · exact ⟨rfl, rfl, rfl, rfl, rfl, rfl⟩

theorem indexProgress_keeps (seq : BitVec 64) (progress : HistoryIndexProgress) :
    SameCache s.indexed (s.indexProgress seq progress).indexed := by
  rw [RepoState.indexProgress]
  split_ifs
  · exact ⟨rfl, rfl, rfl, rfl, rfl, rfl⟩
  · exact SameCache.refl _

section
variable (hsound : s.indexed.Sound)
include hsound

theorem indexBuilt_keeps (seq : BitVec 64) (result : Except String (Option HistoryIndexHandle)) :
    (s.indexBuilt seq result).Keeps s.indexed := by
  rw [RepoState.indexBuilt]
  split_ifs
  · exact SameCache.refl _
  · match result with
    | .error message => exact passed_keeps hsound ⟨rfl, rfl, rfl, rfl, rfl, rfl⟩
    | .ok none => exact passed_keeps hsound ⟨rfl, rfl, rfl, rfl, rfl, rfl⟩
    | .ok (some index) =>
      dsimp only
      split_ifs
      · have hkept := keptHistory { s with indexed :=
          { s.indexed with loading := false, progress := none, index := some index } }
        rw [Flow.Keeps, RepoState.installIndex, (hkept.reconcileSelection (.refl _) _ _).indexed]
        exact ⟨rfl, rfl, rfl, rfl, rfl, rfl⟩
      · exact passed_keeps hsound ⟨rfl, rfl, rfl, rfl, rfl, rfl⟩

theorem requestRanges_keeps (snapshot : HistorySnapshot)
    (blocks : List ℕ) (retry : Bool) : (s.requestRanges snapshot blocks retry).Keeps s.indexed := by
  rw [RepoState.requestRanges]
  cases hafter : s.indexed.requestRanges snapshot blocks retry with
  | none => exact SameCache.refl _
  | some history => exact requestRanges_sound hsound hafter

theorem rangeLoaded_keeps (snapshot : HistorySnapshot)
    (seq : BitVec 64) (start : ℕ) (result : Except String HistoryRange) :
    ∃ flow, s.rangeLoaded snapshot seq start result = some flow ∧ flow.Keeps s.indexed := by
  rw [RepoState.rangeLoaded]
  split_ifs with hignores
  · exact ⟨_, rfl, SameCache.refl _⟩
  · have hpending : start ∈ s.indexed.pending := by
      rw [ignoresRange, Bool.or_eq_true, not_or] at hignores
      rw [← AList.lookup_isSome]
      cases hlookup : s.indexed.pending.lookup start with
      | none =>
        rw [hlookup] at hignores
        exact absurd rfl hignores.2
      | some found => rfl
    obtain ⟨after, hafter, hsettled, hspares⟩ :=
      (answered hsound hpending).settle snapshot result
    dsimp only
    rw [hafter]
    exact ⟨_, rfl, hsettled, ⟨hspares.cached⟩⟩

theorem handleIndexed_keeps (planner : Planner) (event : IndexedHistoryMsg) :
    ∃ flow, s.handleIndexed planner event = some flow ∧ flow.Keeps s.indexed := by
  cases event with
  | retry =>
    have hsame : SameCache s.indexed { s.indexed with requested := none } :=
      ⟨rfl, rfl, rfl, rfl, rfl, rfl⟩
    refine ⟨_, rfl, .of_same hsame ?_⟩
    exact ensureIndex_keeps (s := { s with indexed := { s.indexed with requested := none } })
      (hsame.sound hsound)
  | ensure => exact ⟨_, rfl, ensureIndex_keeps hsound⟩
  | publish index => exact ⟨_, rfl, publish_keeps index⟩
  | select commitId mode projection =>
    exact ⟨_, rfl, .ofEq (indexedSelect_indexed planner commitId mode projection)⟩
  | requestRanges snapshot blocks retry =>
    exact ⟨_, rfl, requestRanges_keeps hsound snapshot blocks retry⟩
  | progress seq progress =>
    exact ⟨_, rfl, passed_keeps hsound (indexProgress_keeps seq progress)⟩
  | built seq result => exact ⟨_, rfl, indexBuilt_keeps hsound seq result⟩
  | rangeLoaded snapshot seq start result =>
    exact rangeLoaded_keeps hsound snapshot seq start result

end

end

section
variable {planner : Planner} {session : Session}

theorem startMissingRanges_sound {s : RepoState} (hsound : s.indexed.Sound) :
    let after := s.startMissingRanges.1.indexed
    after.Sound ∧ after.Served ∧ after.ranges = s.indexed.ranges ∧
      after.desired = s.indexed.desired ∧ after.rangeIndex = s.indexed.rangeIndex := by
  rw [RepoState.startMissingRanges]
  cases hindex : s.indexed.rangeIndex with
  | none =>
    exact ⟨hsound, served_of_desired_nil (hsound.indexed hindex), rfl, rfl, hindex⟩
  | some index =>
    obtain ⟨hafter, hranges, herrors, hdesired, hkept, -, hall⟩ :=
      startRanges_sound s.id index s.indexed.desired hsound
        fun _ hstart => hstart
    refine ⟨hafter, fun start hstart => ?_, hranges, hdesired, hkept.trans hindex⟩
    dsimp only at hstart ⊢
    rw [hdesired] at hstart
    rw [hranges, herrors]
    exact hall start hstart

theorem opened_valid (repoId : RepoId) : (Session.opened repoId).Valid where
  sound := default_sound
  served _ := served_of_desired_nil rfl

theorem handled_valid (hvalid : session.Valid) {flow : Flow}
    (hflow : flow.Keeps session.repo.indexed) : (session.handled flow).Valid ∧
      session.repo.indexed.Spares (session.handled flow).repo.indexed := by
  cases flow with
  | returned repo effects =>
    exact ⟨⟨hflow.sound hvalid.sound, fun hstalled => hflow.served (hvalid.served hstalled)⟩,
      hflow.spares⟩
  | passed repo =>
    obtain ⟨hsound, hserved, hranges, hdesired, hindex⟩ := startMissingRanges_sound hflow.1
    refine ⟨⟨hsound, fun _ => hserved⟩, ⟨fun hsame start hstart range hrange => ?_⟩⟩
    rw [Session.handled] at hsame hstart ⊢
    rw [hindex] at hsame
    rw [hdesired] at hstart
    rw [hranges]
    exact hflow.2.cached hsame start hstart range hrange

theorem resetQuery_valid (h : IndexedHistoryState) :
    h.resetQuery.Sound ∧ h.resetQuery.Served ∧ h.Spares h.resetQuery := by
  have hsame : SameCache .default h.resetQuery := ⟨rfl, rfl, rfl, rfl, rfl, rfl⟩
  exact ⟨hsame.sound default_sound, served_of_desired_nil rfl,
    ⟨fun _ _ hstart => absurd hstart not_mem_nil⟩⟩

theorem reset_valid (hvalid : session.Valid) {repo : RepoState}
    (hrepo : repo.indexed = session.repo.indexed ∨
      repo.indexed = session.repo.indexed.resetQuery) :
    Session.Valid { session with repo := repo } ∧
      session.repo.indexed.Spares repo.indexed := by
  rcases hrepo with heq | heq
  · have hsame := SameCache.ofEq heq
    exact ⟨⟨hsame.sound hvalid.sound, fun hstalled => hsame.served (hvalid.served hstalled)⟩,
      hsame.spares⟩
  · obtain ⟨hsound, hserved, hspares⟩ := resetQuery_valid session.repo.indexed
    rw [← heq] at hsound hserved hspares
    exact ⟨⟨hsound, fun _ => hserved⟩, hspares⟩

theorem setLogScope_indexed (s : RepoState) (scope : LogScope) :
    (s.setLogScope scope).indexed = s.indexed ∨
      (s.setLogScope scope).indexed = s.indexed.resetQuery := by
  rw [RepoState.setLogScope]
  split_ifs
  · exact Or.inl rfl
  · exact Or.inr rfl

theorem setHistoryAuthorFilter_indexed (s : RepoState) (author : Option (List Char)) :
    (s.setHistoryAuthorFilter author).indexed = s.indexed ∨
      (s.setHistoryAuthorFilter author).indexed = s.indexed.resetQuery := by
  rw [RepoState.setHistoryAuthorFilter]
  split_ifs
  · exact Or.inl rfl
  · exact Or.inr rfl

theorem step_valid (planner : Planner) (hvalid : session.Valid) (step : Step) :
    ∃ next, session.step planner step = some next ∧ next.Valid ∧
      session.repo.indexed.Spares next.repo.indexed := by
  cases step with
  | message event =>
    obtain ⟨flow, hflow, hkeeps⟩ := handleIndexed_keeps hvalid.sound planner event
    refine ⟨session.handled flow, ?_, handled_valid hvalid hkeeps⟩
    rw [Session.step, hflow]
    rfl
  | setLogScope scope =>
    exact ⟨_, rfl, reset_valid hvalid (setLogScope_indexed session.repo scope)⟩
  | setHistoryAuthorFilter author =>
    exact ⟨_, rfl, reset_valid hvalid (setHistoryAuthorFilter_indexed session.repo author)⟩
  | bumpLoadEpoch =>
    exact ⟨_, rfl, ⟨hvalid.sound.cancel, fun hstalled => Bool.noConfusion hstalled⟩,
      ⟨fun _ _ _ _ hrange => hrange⟩⟩
  | elsewhere change =>
    exact ⟨_, rfl, reset_valid hvalid (Or.inl (change.keeps session.repo))⟩

theorem run_snoc (planner : Planner) (repoId : RepoId) (steps : List Step) (step : Step) :
    Session.run planner repoId (steps ++ [step]) =
      (Session.run planner repoId steps).bind fun session => session.step planner step := by
  rw [Session.run, foldlM_append]
  simp [Session.run]

theorem run_valid (planner : Planner) (repoId : RepoId) (steps : List Step) :
    ∃ session, Session.run planner repoId steps = some session ∧ session.Valid := by
  induction steps using List.reverseRecOn with
  | nil => exact ⟨_, rfl, opened_valid repoId⟩
  | append_singleton steps step ih =>
    obtain ⟨session, hrun, hvalid⟩ := ih
    obtain ⟨next, hnext, hafter, -⟩ := step_valid planner hvalid step
    exact ⟨next, by rw [run_snoc, hrun]; exact hnext, hafter⟩

theorem step_stalled {step : Step} {next : Session} (hnext : session.step planner step = some next)
    (hbump : step ≠ .bumpLoadEpoch) (hstalled : session.stalled = false) :
    next.stalled = false := by
  cases step with
  | message event =>
    obtain ⟨flow, -, rfl⟩ := Option.map_eq_some_iff.mp hnext
    cases flow with
    | returned repo effects => exact hstalled
    | passed repo => rfl
  | setLogScope scope =>
    cases hnext
    exact hstalled
  | setHistoryAuthorFilter author =>
    cases hnext
    exact hstalled
  | bumpLoadEpoch => exact absurd rfl hbump
  | elsewhere change =>
    cases hnext
    exact hstalled

theorem run_stalled {repoId : RepoId} {steps : List Step}
    (hrun : Session.run planner repoId steps = some session)
    (hbump : Step.bumpLoadEpoch ∉ steps) : session.stalled = false := by
  induction steps using List.reverseRecOn generalizing session with
  | nil =>
    cases hrun
    rfl
  | append_singleton steps step ih =>
    rw [run_snoc] at hrun
    obtain ⟨before, hbefore, hstep⟩ := Option.bind_eq_some_iff.mp hrun
    rw [mem_append, not_or] at hbump
    exact step_stalled hstep (fun heq => hbump.2 (heq ▸ mem_singleton_self _))
      (ih hbefore hbump.1)

theorem indexed_history_cache_sound (planner : Planner) (repoId : RepoId) (steps : List Step) :
    ∃ session, Session.run planner repoId steps = some session ∧
      (Step.bumpLoadEpoch ∉ steps → session.stalled = false) ∧
      let h := session.repo.indexed
      h.pending.keys.length ≤ 2 ∧
      (∀ start ∈ h.pending, start ∈ h.desired ∧ start ∉ h.ranges) ∧
      h.lru.Nodup ∧ (∀ start, start ∈ h.lru ↔ start ∈ h.ranges) ∧
      h.ranges.keys.length * historyBlockSize ≤ historyRowCacheLimit ∧
      (∀ start ∈ h.desired, start ∈ h.ranges ∨ start ∈ h.pending ∨ start ∈ h.rangeErrors ∨
        session.Queued start) ∧
      (∀ snapshot row commit, h.commit snapshot row = some commit →
        ∃ index, h.rangeIndex = some index ∧ index.snapshot = snapshot ∧
          ∃ bytes, index.table.idBytes row = some bytes ∧
            Text.Hex.decode commit.id.toList = some bytes) ∧
      ∀ step, ∃ next, session.step planner step = some next ∧ h.Spares next.repo.indexed := by
  obtain ⟨session, hrun, hvalid⟩ := run_valid planner repoId steps
  have hsound := hvalid.sound
  refine ⟨session, hrun, run_stalled hrun, hsound.pending_few, hsound.pending_desired,
    hsound.tracks.nodup, hsound.tracks.mem_iff, ?_, ?_, ?_, ?_⟩
  · exact (Nat.mul_le_mul_right historyBlockSize hsound.few).trans (by decide)
  · intro start hstart
    cases hstalled : session.stalled with
    | true => exact Or.inr (Or.inr (Or.inr ⟨hstart, Or.inr hstalled⟩))
    | false =>
      rcases hvalid.served hstalled start hstart with hcached | hpending | hfailed | hfull
      · exact Or.inl hcached
      · exact Or.inr (Or.inl hpending)
      · exact Or.inr (Or.inr (Or.inl hfailed))
      · exact Or.inr (Or.inr (Or.inr ⟨hstart, Or.inl hfull⟩))
  · intro snapshot row commit hcommit
    exact hsound.commit hcommit
  · intro step
    obtain ⟨next, hnext, -, hspares⟩ := step_valid planner hvalid step
    exact ⟨next, hnext, hspares⟩

end

end GitComet.IndexedHistory
