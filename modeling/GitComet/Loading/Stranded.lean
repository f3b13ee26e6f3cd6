import GitComet.Loading.Cancel
import GitComet.Loading.Requests

namespace GitComet.Loading
open List Store Option

variable {V : Type}

structure Settled (s : RepoState V) : Prop where
  fields : ∀ field, (s.loadable field).isLoading = false
  hover : ∀ hover ∈ s.hoverCommitMessage, hover.2.isLoading = false
  inline : ∀ inline ∈ s.inlineSubmoduleDiff, inline.diff.isLoading = false ∧
    inline.diffFile.isLoading = false ∧ inline.diffFileImage.isLoading = false
  inFlight : s.loadsInFlight.inFlight = 0 ∧ s.loadsInFlight.pending = 0
  log : s.loadsInFlight.pendingLog = none ∧ s.loadsInFlight.activeLog = none ∧
    s.logLoadingMore = false ∧ s.logScanProgress = none
  lineStats : s.loadsInFlight.activeLineStats = none ∧ s.loadsInFlight.lineStatsRequested = false
  rangeFiles : s.rangeFilesInFlight = false ∧ s.rangeFilesRefreshQueued = false
  squashPreview : s.squashPreviewPending = none
  diffReload : s.diffReloadInFlight = false

structure NextLoadsIssue (p : Payload V) (planner : Planner V) (outstanding : List Effect)
    (s : RepoState V) : Prop where
  lane : ∀ flag effect, (s.requestLane flag effect).2 = [effect]
  log : ∀ load, (s.loadsInFlight.requestLog load).2.isSome = true
  primary : ∀ load, (s.loadsInFlight.requestPrimaryRefreshBatch load).2.isSome = true
  lineStats : (s.loadsInFlight.invalidateLineStats.startLineStats true).2.isSome = true
  compareRange : ∀ fromId toId fromLabel toLabel source, ∃ request,
    (s.compareRange fromId toId fromLabel toLabel source).2 =
      [.loadRangeFiles s.id fromId toId request]
  rangeRefresh : ∀ change range, (change.gitState || change.index || change.worktree) = true →
    s.rangeSelection = some range → range.toId = none →
      ∃ request, (s.refreshRangeComparison change).2 =
        [.loadRangeFiles s.id range.fromId none request]
  squashPreview : ∀ plan, planner.historySquashPlan s = some plan →
    (s.prepareSquash planner).2 = [.loadSquashMessagePreview s.id plan.oldest plan.head]
  hover : ∀ commitId, (s.loadable .opened).ready?.isSome = true →
    (∀ hover ∈ s.hoverCommitMessage, hover.1 = commitId →
      hover.2.isLoading = true ∨ hover.2.isError = true) →
      (s.loadHoverCommitMessage commitId).2 = [.loadHoverCommitMessage s.id commitId]
  refMetadata : (s.loadable .opened).ready?.isSome = true →
    s.loadRefMetadata.2 = [.loadRefMetadata s.id]
  fileBrowser : (s.loadable .opened).ready?.isSome = true →
    (s.loadFileBrowser s.fileBrowserSource).2 = [.loadFileBrowser s.id s.fileBrowserSource]
  filesMode : (s.loadable .opened).ready?.isSome = true →
    ((s.loadable .fileBrowserEntries).ready?.isSome = true → s.fileBrowserStale = true) →
      (s.fileBrowserLoadForActiveFilesMode .files).2 =
        [.loadFileBrowser s.id s.fileBrowserSource]
  commitDetails : ∀ commitId, s.selectedCommit ≠ some commitId →
    s.detailsLoaded p commitId = false →
      (s.selectCommitAndLoadDetails p commitId).2 = [.loadCommitDetails s.id commitId]
  selectedDetails : ∀ commitId, s.selectedCommit = some commitId →
    .loadCommitDetails s.id commitId ∈ outstanding → s.detailsLoaded p commitId = false →
      .loadCommitDetails s.id commitId ∈ s.reloadSelectedHistory.2
  fileHistory : ∀ path, s.fileHistoryPath = some path →
    (s.loadable .fileHistory).ready? = none → (s.loadable .fileHistory).isError = false →
      .loadFileHistory s.id path reactivatedFileHistoryLimit ∈ s.reloadSelectedHistory.2
  blame : ∀ path source, s.blamePath = some path → s.blameSource = some source →
    (s.loadable .blame).ready? = none → (s.loadable .blame).isError = false →
      .loadBlame s.id path source ∈ s.reloadSelectedHistory.2
  diff : ∀ target mode, ∃ effect, (s.selectDiff planner target mode).2 = [effect]
  conflictFile : ∀ target, ∃ mode,
    (s.reloadConflictTarget target).2 = [.loadSelectedConflictFile s.id mode]
  reflog : s.loadReflog.2 = [.loadReflog s.id 200]

structure NothingForgotten (p : Payload V) (outstanding : List Effect) (s : RepoState V) :
    Prop where
  rangeFiles : (s.loadable .rangeFiles).isLoading = false
  rangeFilesLane : s.rangeFilesInFlight = false ∧ s.rangeFilesRefreshQueued = false
  squashPreview : (s.loadable .squashPreview).isLoading = false
  squashPreviewPending : s.squashPreviewPending = none
  hover : ∀ hover ∈ s.hoverCommitMessage, hover.2.isLoading = false
  fileBrowser : (s.loadable .fileBrowserEntries).isLoading = false
  refMetadata : (s.loadable .refMetadata).isLoading = true →
    (s.loadable .branches).isLoading = true ∨ (s.loadable .remoteBranches).isLoading = true
  diffReload : s.diffReloadInFlight = false
  selectedDetails : ∀ commitId, s.selectedCommit = some commitId →
    .loadCommitDetails s.id commitId ∈ outstanding → s.detailsLoaded p commitId = false →
      (s.loadable .commitDetails).ready? = none ∧ (s.loadable .commitDetails).isError = false

variable {p : Payload V} {planner : Planner V} {outstanding : List Effect} {s : RepoState V}

variable {field : LoadField}

namespace RepoState

theorem opened_eq (hopened : (s.loadable .opened).ready?.isSome) :
    (s.loadable .opened).ready?.isNone = false := by
  rw [← not_isSome, hopened]
  rfl

theorem requestLane_idle (hidle : s.loadsInFlight.inFlight = 0) (flag : BitVec 32)
    (effect : Effect) : (s.requestLane flag effect).2 = [effect] := by
  have hlane : s.loadsInFlight.isInFlight flag = false := by
    simp [RepoLoadsInFlight.isInFlight, hidle]
  rw [requestLane, RepoLoadsInFlight.request, hlane]
  rfl

theorem requestFileBrowserLoad_idle (hidle : s.loadsInFlight.inFlight = 0)
    (hopened : (s.loadable .opened).ready?.isSome) :
    s.requestFileBrowserLoad.2 = [.loadFileBrowser s.id s.fileBrowserSource] := by
  rw [requestFileBrowserLoad, opened_eq hopened]
  exact requestLane_idle hidle _ _

theorem appendSelectedHistoryReloadEffects_effects (reloads : List SelectedHistoryReload) :
    (appendSelectedHistoryReloadEffects reloads s).2 =
      reloads.map fun reload => (s.appendSelectedHistoryReloadEffect reload).2 := by
  induction reloads generalizing s with
  | nil => rfl
  | cons reload reloads ih =>
    have hsame : (fun other : SelectedHistoryReload =>
        ((s.appendSelectedHistoryReloadEffect reload).1.appendSelectedHistoryReloadEffect
          other).2) =
        fun other => (s.appendSelectedHistoryReloadEffect other).2 := by
      funext other
      cases reload <;> cases other <;> rfl
    rw [appendSelectedHistoryReloadEffects, map_cons, ih, hsame]

theorem isNotLoaded_of (hready : (s.loadable field).ready? = none)
    (hloading : (s.loadable field).isLoading = false)
    (herror : (s.loadable field).isError = false) : s.isNotLoaded field := by
  rw [isNotLoaded]
  cases hvalue : s.loadable field with
  | notLoaded => rfl
  | loading =>
    rw [hvalue] at hloading
    cases hloading
  | ready value =>
    rw [hvalue] at hready
    cases hready
  | error message =>
    rw [hvalue] at herror
    cases herror

theorem reloadConflictTarget_issues (target : SelectedConflictTarget) :
    ∃ mode, (s.reloadConflictTarget target).2 = [.loadSelectedConflictFile s.id mode] := by
  cases target with
  | current => exact ⟨_, rfl⟩
  | path path =>
    rw [reloadConflictTarget, startConflictTargetReload]
    split <;> exact ⟨_, rfl⟩

theorem selectDiff_issues (planner : Planner V) (target : DiffTarget) (mode : ContentViewMode) :
    ∃ effect, (s.selectDiff planner target mode).2 = [effect] := by
  rw [selectDiff]
  dsimp only
  split
  next conflictTarget _ =>
    obtain ⟨mode, hissued⟩ := reloadConflictTarget_issues conflictTarget
    exact ⟨_, hissued⟩
  next => exact ⟨_, rfl⟩

variable {commitId : CommitId}

theorem selectCommit_issues (hother : s.selectedCommit ≠ some commitId)
    (hdetails : s.detailsLoaded p commitId = false) :
    (s.selectCommitAndLoadDetails p commitId).2 = [.loadCommitDetails s.id commitId] := by
  have hkept : (s.setSelectedCommit (some commitId)).detailsLoaded p commitId = false := hdetails
  rw [selectCommitAndLoadDetails, if_neg hother]
  dsimp only
  rw [hkept, if_neg Bool.false_ne_true]
  split <;> rfl

theorem mem_reloadSelectedHistory (reload : SelectedHistoryReload)
    (hmem : reload ∈ s.selectedHistoryReloadsForActivation) :
    (s.appendSelectedHistoryReloadEffect reload).2 ∈ s.reloadSelectedHistory.2 := by
  rw [reloadSelectedHistory, appendSelectedHistoryReloadEffects_effects]
  exact mem_map_of_mem hmem

theorem isNotLoaded_of_reloaded
    (hmem : .loadCommitDetails s.id commitId ∈ s.reloadSelectedHistory.2) :
    s.isNotLoaded .commitDetails := by
  rw [reloadSelectedHistory, appendSelectedHistoryReloadEffects_effects] at hmem
  obtain ⟨reload, hmem, heffect⟩ := List.mem_map.mp hmem
  cases reload with
  | fileHistory path => cases heffect
  | blame path source => cases heffect
  | commitDetails other =>
    rw [selectedHistoryReloadsForActivation] at hmem
    by_contra hloaded
    rw [if_neg hloaded] at hmem
    split_ifs at hmem <;> simp at hmem

theorem ready?_of_isNotLoaded (h : s.isNotLoaded field) :
    (s.loadable field).ready? = none ∧ (s.loadable field).isError = false := by
  rw [isNotLoaded] at h
  cases hvalue : s.loadable field with
  | notLoaded => exact ⟨rfl, rfl⟩
  | loading => exact ⟨rfl, rfl⟩
  | ready value =>
    rw [hvalue] at h
    cases h
  | error message =>
    rw [hvalue] at h
    cases h

end RepoState

theorem Settled.nextLoadsIssue (h : Settled s)
    (hselected : ∀ commitId, s.selectedCommit = some commitId →
      .loadCommitDetails s.id commitId ∈ outstanding → s.detailsLoaded p commitId = false →
        (s.loadable .commitDetails).ready? = none ∧
          (s.loadable .commitDetails).isError = false) :
    NextLoadsIssue p planner outstanding s where
  lane := RepoState.requestLane_idle h.inFlight.1
  log := fun load => by
    simp [RepoLoadsInFlight.requestLog, RepoLoadsInFlight.isInFlight, h.inFlight.1]
  primary := fun load => by
    simp [RepoLoadsInFlight.requestPrimaryRefreshBatch, h.inFlight, h.log]
  lineStats := by
    simp [RepoLoadsInFlight.invalidateLineStats, RepoLoadsInFlight.startLineStats,
      RepoLoadsInFlight.isInFlight, h.inFlight.1, h.lineStats.1]
  compareRange := fun _ _ _ _ source => ⟨s.rangeFilesRequest + 1, by cases source <;> rfl⟩
  rangeRefresh := fun change range hchange hrange hworktree => by
    rw [RepoState.refreshRangeComparison, if_pos hchange, hrange, filter_some,
      if_pos (by rw [hworktree]; rfl), RepoState.requestRangeFilesRefresh, h.rangeFiles.1]
    exact ⟨_, rfl⟩
  squashPreview := fun plan hplan => by
    rw [RepoState.prepareSquash, hplan]
  hover := fun commitId hopened hfetching => by
    have hcurrent : s.hoverIsCurrent commitId = false := by
      rw [RepoState.hoverIsCurrent]
      cases hvalue : s.hoverCommitMessage with
      | none => rfl
      | some hover =>
        by_cases hsame : hover.1 = commitId
        · have hloading := h.hover hover hvalue
          rcases hfetching hover hvalue hsame with hbusy | herror
          · rw [hloading] at hbusy
            cases hbusy
          · simp [herror]
        · simp [hsame]
    rw [RepoState.loadHoverCommitMessage, RepoState.opened_eq hopened, hcurrent]
    rfl
  refMetadata := fun hopened => by
    rw [RepoState.loadRefMetadata, RepoState.opened_eq hopened]
    exact RepoState.requestLane_idle h.inFlight.1 _ _
  fileBrowser := fun hopened => by
    rw [RepoState.loadFileBrowser, RepoState.opened_eq hopened, bne_self_eq_false, Bool.or_self,
      if_neg Bool.false_ne_true]
    split
    · exact RepoState.requestFileBrowserLoad_idle h.inFlight.1 hopened
    · exact RepoState.requestFileBrowserLoad_idle
        (s := s.put .fileBrowserEntries .loading) h.inFlight.1 hopened
  filesMode := fun hopened hstale => by
    have hneeds : s.needsLoad := by
      rw [RepoState.needsLoad]
      have hloading := h.fields .fileBrowserEntries
      cases hvalue : s.loadable .fileBrowserEntries with
      | ready entries => rw [hstale (by rw [hvalue]; rfl), Bool.true_or]
      | loading =>
        rw [hvalue] at hloading
        cases hloading
      | notLoaded => exact Bool.or_true _
      | error message => exact Bool.or_true _
    rw [RepoState.fileBrowserLoadForActiveFilesMode, hneeds]
    exact RepoState.requestFileBrowserLoad_idle h.inFlight.1 hopened
  commitDetails := fun _ => RepoState.selectCommit_issues
  selectedDetails := fun commitId hcommit houtstanding hdetails => by
    obtain ⟨hready, herror⟩ := hselected commitId hcommit houtstanding hdetails
    refine RepoState.mem_reloadSelectedHistory (.commitDetails commitId) ?_
    rw [RepoState.selectedHistoryReloadsForActivation,
      if_pos (RepoState.isNotLoaded_of hready (h.fields _) herror), hcommit]
    exact mem_append_right _ (mem_singleton_self _)
  fileHistory := fun path hpath hready herror => by
    refine RepoState.mem_reloadSelectedHistory (.fileHistory path) ?_
    rw [RepoState.selectedHistoryReloadsForActivation,
      if_pos (RepoState.isNotLoaded_of hready (h.fields _) herror), hpath]
    exact mem_append_left _ (mem_append_left _ (mem_singleton_self _))
  blame := fun path source hpath hsource hready herror => by
    refine RepoState.mem_reloadSelectedHistory (.blame path source) ?_
    have hmissing := RepoState.isNotLoaded_of hready (h.fields _) herror
    rw [RepoState.selectedHistoryReloadsForActivation, hmissing, hpath, hsource]
    exact mem_append_left _ (mem_append_right _ (mem_singleton_self _))
  diff := RepoState.selectDiff_issues planner
  conflictFile := RepoState.reloadConflictTarget_issues
  reflog := RepoState.requestLane_idle (s := s.setReflog .loading) h.inFlight.1 _ _

namespace LoadField

theorem mem_touched (field : LoadField) : field ∈ field.touched := by
  cases field <;> decide

theorem touches_refMetadata (hcleared : field ∈ clearedFields)
    (htouched : refMetadata ∈ field.touched) : field = branches ∨ field = remoteBranches := by
  revert hcleared htouched
  cases field <;> decide

theorem mem_clearedFields (field : LoadField) :
    field ∈ clearedFields ∨ field = refMetadata ∨ field = rangeFiles ∨ field = squashPreview ∨
      field = fileBrowserEntries := by
  cases field <;> decide

end LoadField

variable [DecidableEq V]

def RepoState.cancelled (p : Payload V) (s : RepoState V) : RepoState V :=
  s.bumpLoadEpoch.1.clearCancelledRepoLoading p

theorem cancelled_eq :
    s.cancelled p =
      { s with
        loadEpoch := s.loadEpoch + 1
        loadsInFlight := s.loadsInFlight.clear
        logScanProgress := none
        logLoadingMore := false
        inlineSubmoduleDiff := s.inlineSubmoduleDiff.map InlineSubmoduleDiffState.clearLoading
        loadable := clearedFields.foldl lowered s.loadable } :=
  RepoState.clearCancelledRepoLoading_eq

theorem cancelled_loadable (field : LoadField) :
    (s.cancelled p).loadable field =
      if ∃ cleared ∈ clearedFields, (s.loadable cleared).isLoading ∧ field ∈ cleared.touched then
        .notLoaded else s.loadable field := by
  rw [cancelled_eq]
  exact foldl_lowered _ clearedFields_pairwise field

theorem cancelled_kept (field : LoadField)
    (huntouched : ∀ cleared ∈ clearedFields, field ∉ cleared.touched) :
    (s.cancelled p).loadable field = s.loadable field := by
  rw [cancelled_loadable, if_neg]
  rintro ⟨cleared, hcleared, -, htouched⟩
  exact huntouched cleared hcleared htouched

theorem isLoading_cancelled (hcleared : field ∈ clearedFields) :
    ((s.cancelled p).loadable field).isLoading = false := by
  rw [cancelled_loadable]
  split_ifs with hlowered
  · rfl
  · by_contra hloading
    exact hlowered ⟨field, hcleared, Bool.eq_true_of_not_eq_false hloading, field.mem_touched⟩

theorem isLoading_refMetadata_cancelled :
    ((s.cancelled p).loadable .refMetadata).isLoading = false ↔
      ((s.loadable .refMetadata).isLoading → (s.loadable .branches).isLoading ∨
          (s.loadable .remoteBranches).isLoading) := by
  rw [cancelled_loadable]
  split_ifs with hlowered
  · refine iff_of_true rfl fun _ => ?_
    obtain ⟨cleared, hcleared, hloading, htouched⟩ := hlowered
    rcases LoadField.touches_refMetadata hcleared htouched with rfl | rfl
    · exact .inl hloading
    · exact .inr hloading
  · refine ⟨fun hidle hloading => ?_, fun himp => ?_⟩
    · rw [hidle] at hloading
      cases hloading
    · by_contra hloading
      rcases himp (Bool.eq_true_of_not_eq_false hloading) with hbranches | hremote
      · exact hlowered ⟨.branches, by decide, hbranches, by decide⟩
      · exact hlowered ⟨.remoteBranches, by decide, hremote, by decide⟩

theorem NothingForgotten.settled (h : NothingForgotten p outstanding s) :
    Settled (s.cancelled p) where
  fields := fun field => by
    rcases field.mem_clearedFields with hcleared | rfl | rfl | rfl | rfl
    · exact isLoading_cancelled hcleared
    · exact isLoading_refMetadata_cancelled.mpr h.refMetadata
    · rw [cancelled_kept _ (by decide)]
      exact h.rangeFiles
    · rw [cancelled_kept _ (by decide)]
      exact h.squashPreview
    · rw [cancelled_kept _ (by decide)]
      exact h.fileBrowser
  hover := by
    rw [cancelled_eq]
    exact h.hover
  inline := by
    rw [cancelled_eq]
    intro inline hinline
    obtain ⟨shown, -, rfl⟩ := map_eq_some_iff.mp hinline
    exact ⟨Loadable.isLoading_clearLoading _, Loadable.isLoading_clearLoading _,
      Loadable.isLoading_clearLoading _⟩
  inFlight := by
    rw [cancelled_eq]
    exact ⟨rfl, rfl⟩
  log := by
    rw [cancelled_eq]
    exact ⟨rfl, rfl, rfl, rfl⟩
  lineStats := by
    rw [cancelled_eq]
    exact ⟨rfl, rfl⟩
  rangeFiles := by
    rw [cancelled_eq]
    exact h.rangeFilesLane
  squashPreview := by
    rw [cancelled_eq]
    exact h.squashPreviewPending
  diffReload := by
    rw [cancelled_eq]
    exact h.diffReload

theorem details_cancelled :
    ((s.cancelled p).loadable .commitDetails).ready? = (s.loadable .commitDetails).ready? ∧
      ((s.cancelled p).loadable .commitDetails).isError = (s.loadable .commitDetails).isError := by
  rw [cancelled_loadable]
  split_ifs with hlowered
  · obtain ⟨cleared, hcleared, hloading, htouched⟩ := hlowered
    have hself : cleared = .commitDetails := by
      revert htouched
      cases cleared <;> decide
    rw [hself] at hloading
    rw [(Loadable.isLoading_iff _).mp hloading]
    exact ⟨rfl, rfl⟩
  · exact ⟨rfl, rfl⟩

theorem detailsLoaded_cancelled (commitId : CommitId) :
    (s.cancelled p).detailsLoaded p commitId = s.detailsLoaded p commitId := by
  rw [RepoState.detailsLoaded, details_cancelled.1, ← RepoState.detailsLoaded]

theorem selection_cancelled :
    (s.cancelled p).selectedCommit = s.selectedCommit ∧ (s.cancelled p).id = s.id := by
  rw [cancelled_eq]
  exact ⟨rfl, rfl⟩

theorem NothingForgotten.nextLoadsIssue (h : NothingForgotten p outstanding s) :
    NextLoadsIssue p planner outstanding (s.cancelled p) := by
  refine h.settled.nextLoadsIssue fun commitId hcommit houtstanding hdetails => ?_
  rw [selection_cancelled.1] at hcommit
  rw [selection_cancelled.2] at houtstanding
  rw [detailsLoaded_cancelled] at hdetails
  rw [details_cancelled.1, details_cancelled.2]
  exact h.selectedDetails commitId hcommit houtstanding hdetails

theorem Settled.forgotten (h : Settled (s.cancelled p))
    (hnext : NextLoadsIssue p planner outstanding (s.cancelled p)) :
    NothingForgotten p outstanding s where
  rangeFiles := by
    rw [← cancelled_kept (p := p) (s := s) .rangeFiles (by decide)]
    exact h.fields _
  rangeFilesLane := by
    have hlane := h.rangeFiles
    rw [cancelled_eq] at hlane
    exact hlane
  squashPreview := by
    rw [← cancelled_kept (p := p) (s := s) .squashPreview (by decide)]
    exact h.fields _
  squashPreviewPending := by
    have hpending := h.squashPreview
    rw [cancelled_eq] at hpending
    exact hpending
  hover := by
    have hhover := h.hover
    rw [cancelled_eq] at hhover
    exact hhover
  fileBrowser := by
    rw [← cancelled_kept (p := p) (s := s) .fileBrowserEntries (by decide)]
    exact h.fields _
  refMetadata := isLoading_refMetadata_cancelled.mp (h.fields _)
  diffReload := by
    have hreload := h.diffReload
    rw [cancelled_eq] at hreload
    exact hreload
  selectedDetails := fun commitId hcommit houtstanding hdetails => by
    rw [← (details_cancelled (p := p)).1, ← (details_cancelled (p := p)).2]
    rw [← (selection_cancelled (p := p)).1] at hcommit
    rw [← (selection_cancelled (p := p)).2] at houtstanding
    rw [← detailsLoaded_cancelled] at hdetails
    exact RepoState.ready?_of_isNotLoaded (RepoState.isNotLoaded_of_reloaded
      (hnext.selectedDetails commitId hcommit houtstanding hdetails))

namespace AppState

variable {Message : Type} (reduce : Message → AppState V → AppState V × List Effect)
  {state : AppState V} {repoId : RepoId} {before : RepoState V}

theorem repo?_cancelled (hrepo : state.repo? repoId = some before) (effects : List Effect) :
    (state.appendCancelRepoLoadsEffectForRepo p (some repoId) effects).1.repo? repoId =
      some (before.cancelled p) := by
  have hid : (before.cancelled p).id = before.id := selection_cancelled.2
  exact repo?_onRepo hrepo hid

def lateReplies (repoId : RepoId) (loadEpoch : BitVec 64) (replies : List Message)
    (state : AppState V) : AppState V :=
  replies.foldl
    (fun state message => (state.repoLoadFinished reduce repoId loadEpoch message).1) state

omit [DecidableEq V] in
theorem repoLoadFinished_dropped {after : RepoState V} (hrepo : state.repo? repoId = some after)
    {loadEpoch : BitVec 64} (hstale : after.loadEpoch ≠ loadEpoch) (message : Message) :
    state.repoLoadFinished reduce repoId loadEpoch message = (state, []) := by
  rw [repoLoadFinished, hrepo, map_some, if_neg]
  exact fun hsame => hstale (some.inj hsame)

omit [DecidableEq V] in
theorem lateReplies_dropped {after : RepoState V} (hrepo : state.repo? repoId = some after)
    {loadEpoch : BitVec 64} (hstale : after.loadEpoch ≠ loadEpoch) (replies : List Message) :
    lateReplies reduce repoId loadEpoch replies state = state := by
  induction replies with
  | nil => rfl
  | cons message replies ih =>
    rw [lateReplies, foldl_cons, repoLoadFinished_dropped reduce hrepo hstale]
    exact ih

theorem loadEpoch_cancelled : (before.cancelled p).loadEpoch ≠ before.loadEpoch := by
  rw [cancelled_eq]
  exact fun hsame => by simp at hsame

end AppState

def CancelStrandsNothing {Message : Type} (p : Payload V) (planner : Planner V)
    (reduce : Message → AppState V → AppState V × List Effect) (state : AppState V)
    (repoId : RepoId) (before : RepoState V) (outstanding : List Effect) : Prop :=
  ∀ (effects : List Effect) (replies : List Message),
    ∃ after,
      (AppState.lateReplies reduce repoId before.loadEpoch replies
        (state.appendCancelRepoLoadsEffectForRepo p (some repoId) effects).1).repo? repoId =
          some after ∧
        Settled after ∧ NextLoadsIssue p planner outstanding after

theorem cancelStrandsNothing_iff_cancelled {Message : Type}
    (reduce : Message → AppState V → AppState V × List Effect) {state : AppState V}
    {repoId : RepoId} {before : RepoState V} (hrepo : state.repo? repoId = some before) :
    CancelStrandsNothing p planner reduce state repoId before outstanding ↔
      Settled (before.cancelled p) ∧ NextLoadsIssue p planner outstanding (before.cancelled p) := by
  refine ⟨fun h => ?_, fun h effects replies => ?_⟩
  · obtain ⟨after, hafter, hsettled, hnext⟩ := h [] []
    rw [AppState.lateReplies, foldl_nil, AppState.repo?_cancelled hrepo] at hafter
    cases hafter
    exact ⟨hsettled, hnext⟩
  · refine ⟨before.cancelled p, ?_, h⟩
    rw [AppState.lateReplies_dropped reduce (AppState.repo?_cancelled hrepo effects)
      AppState.loadEpoch_cancelled, AppState.repo?_cancelled hrepo]

theorem cancel_strands_nothing_iff {Message : Type} (p : Payload V) (planner : Planner V)
    (reduce : Message → AppState V → AppState V × List Effect) (state : AppState V)
    (repoId : RepoId) (before : RepoState V) (outstanding : List Effect)
    (hrepo : state.repo? repoId = some before) :
    CancelStrandsNothing p planner reduce state repoId before outstanding ↔
      NothingForgotten p outstanding before := by
  rw [cancelStrandsNothing_iff_cancelled reduce hrepo]
  exact ⟨fun h => h.1.forgotten h.2, fun h => ⟨h.settled, h.nextLoadsIssue⟩⟩

def RepoState.refreshRangeComparisons (s : RepoState V) :
    List RepoExternalChange → RepoState V × List Effect
  | [] => (s, [])
  | change :: changes =>
    let refreshed := s.refreshRangeComparison change
    let rest := refreshed.1.refreshRangeComparisons changes
    (rest.1, refreshed.2 ++ rest.2)

omit [DecidableEq V] in
theorem refresh_folded (hlane : s.rangeFilesInFlight) (change : RepoExternalChange) :
    (s.refreshRangeComparison change).1.rangeFilesInFlight ∧
      (s.refreshRangeComparison change).2 = [] := by
  rw [RepoState.refreshRangeComparison, RepoState.requestRangeFilesRefresh, hlane, if_pos rfl]
  split
  · split
    · exact ⟨hlane, rfl⟩
    · exact ⟨rfl, rfl⟩
  · exact ⟨hlane, rfl⟩

omit [DecidableEq V] in
theorem refreshes_folded (hlane : s.rangeFilesInFlight)
    (changes : List RepoExternalChange) : (s.refreshRangeComparisons changes).2 = [] := by
  induction changes generalizing s with
  | nil => rfl
  | cons change changes ih =>
    obtain ⟨hkept, hnone⟩ := refresh_folded hlane change
    rw [RepoState.refreshRangeComparisons, hnone, ih hkept]
    rfl

def openedField : LoadField → Loadable String
  | .opened | .headBranch | .upstreamDivergence | .branches | .remotes | .remoteBranches
  | .worktreeStatus | .stagedStatus | .status | .log | .rebaseInProgress | .sequencerState
  | .mergeCommitMessage | .worktrees => .ready ""
  | _ => .notLoaded

def openedRepo : RepoState String where
  id := 1
  loadsInFlight := RepoLoadsInFlight.default
  loadEpoch := 0
  loadable := openedField
  hoverCommitMessage := none
  inlineSubmoduleDiff := none
  logLoadingMore := false
  logScanProgress := none
  rangeSelection := none
  rangeFilesRequest := 0
  rangeFilesInFlight := false
  rangeFilesRefreshQueued := false
  squashPreviewPending := none
  selectedCommit := none
  multiSelection := CommitMultiSelection.default
  revealTarget := none
  worktreeSelection := none
  fileHistoryPath := none
  blamePath := none
  blameSource := none
  fileBrowserSource := .workingDirectory
  fileBrowserStale := false
  diffTarget := none
  contentPreview := false
  editMode := false
  editReturnView := none
  diffReloadInFlight := false
  conflictFilePath := none
  conflictFileLoadMode := .currentOnly
  conflictSession := none
  sessionPendingRestore := none
  conflictHideResolved := false

def comparedRepo : RepoState String :=
  (openedRepo.compareRange "a" none "a" "Working tree" .explicit).1

def samplePayload : Payload String := ⟨id, id, id⟩

def samplePlanner : Planner String :=
  ⟨fun _ => none, fun _ _ => ⟨true, true, none, false, false⟩, fun _ _ => none⟩

def ignored (_ : Unit) (state : AppState String) : AppState String × List Effect := (state, [])

theorem cancel_strands_nothing_opened :
    CancelStrandsNothing samplePayload samplePlanner ignored ⟨[openedRepo]⟩ 1 openedRepo [] ↔
      NothingForgotten samplePayload [] openedRepo :=
  cancel_strands_nothing_iff samplePayload samplePlanner ignored ⟨[openedRepo]⟩ 1 openedRepo [] rfl

theorem compared_range_is_stranded :
    ¬ CancelStrandsNothing samplePayload samplePlanner ignored ⟨[comparedRepo]⟩ 1 comparedRepo
        [.loadRangeFiles 1 "a" none 1] ∧ ∀ changes,
        ((comparedRepo.cancelled samplePayload).refreshRangeComparisons changes).2 = [] := by
  refine ⟨fun h => ?_, refreshes_folded (by rw [cancelled_eq]; rfl)⟩
  have hrepo : (⟨[comparedRepo]⟩ : AppState String).repo? 1 = some comparedRepo := rfl
  have hsettled := ((cancelStrandsNothing_iff_cancelled ignored hrepo).mp h).1
  have hlane := hsettled.rangeFiles.1
  rw [cancelled_eq] at hlane
  cases hlane

end GitComet.Loading
