import GitComet.Loading.State

namespace GitComet.Loading
open List Store Function

variable {V : Type}

def InlineSubmoduleDiffState.clearLoading (inline : InlineSubmoduleDiffState V) :
    InlineSubmoduleDiffState V :=
  ⟨inline.diff.clearLoading, inline.diffFile.clearLoading, inline.diffFileImage.clearLoading⟩

def LoadField.touched : LoadField → List LoadField
  | branches => [branches, refMetadata]
  | remoteBranches => [remoteBranches, refMetadata]
  | status => [worktreeStatus, stagedStatus, status]
  | field => [field]

def clearedFields : List LoadField :=
  [.commitLookup, .mainlineLookup] ++
    [.opened, .headBranch, .upstreamDivergence, .branches, .tags, .remoteTags, .remotes,
      .remoteBranches, .worktreeStatus, .stagedStatus, .status, .log] ++
    [.stashes, .reflog, .rebaseInProgress, .sequencerState, .mergeCommitMessage, .worktrees,
      .submodules, .fileHistory, .blame, .commitDetails, .diff, .diffFile, .diffPreviewTextFile,
      .submoduleSummary, .diffFileImage] ++
    [.conflictFile]

def lowered (l : LoadField → Loadable V) (field : LoadField) : LoadField → Loadable V :=
  fun f => if (l field).isLoading ∧ f ∈ field.touched then .notLoaded else l f

theorem foldl_lowered {fields : List LoadField} (l : LoadField → Loadable V)
    (hfields : fields.Pairwise fun a b => b ∉ a.touched) (f : LoadField) :
    fields.foldl lowered l f =
      if ∃ field ∈ fields, (l field).isLoading ∧ f ∈ field.touched then .notLoaded else l f := by
  induction fields generalizing l with
  | nil => simp
  | cons a fields ih =>
    obtain ⟨ha, hfields⟩ := List.pairwise_cons.mp hfields
    have hkeep : ∀ field ∈ fields, lowered l a field = l field := fun field hmem =>
      if_neg fun h => ha field hmem h.2
    have hlater : (∃ field ∈ fields, (lowered l a field).isLoading ∧ f ∈ field.touched) ↔
        ∃ field ∈ fields, (l field).isLoading ∧ f ∈ field.touched :=
      exists_congr fun field => and_congr_right fun hmem => by rw [hkeep field hmem]
    rw [foldl_cons, ih _ hfields, lowered]
    simp only [hlater, mem_cons, exists_eq_or_imp]
    by_cases hhead : (l a).isLoading ∧ f ∈ a.touched
    · simp [hhead]
    · simp [hhead]

theorem clearedFields_pairwise : clearedFields.Pairwise fun a b => b ∉ a.touched := by
  decide

namespace RepoState

section

variable {s : RepoState V}

theorem put_put (field other : LoadField) (v w : Loadable V) :
    (s.put field v).put other w =
      { s with loadable := Function.update (Function.update s.loadable field v) other w } := rfl

theorem invalidateRefMetadata_idle (hidle : s.loadsInFlight.inFlight = 0) :
    s.invalidateRefMetadata = s.put .refMetadata .notLoaded := by
  have hlane : s.loadsInFlight.isInFlight RepoLoadsInFlight.refMetadata = false := by
    rw [RepoLoadsInFlight.isInFlight, hidle]
    rfl
  rw [invalidateRefMetadata, hlane]
  rfl

theorem put_notLoaded (field : LoadField) :
    s.put field .notLoaded =
      { s with loadable := fun f => if f ∈ [field] then .notLoaded else s.loadable f } := by
  rw [put]
  congr 1
  funext f
  rw [update_apply]
  simp only [mem_singleton]

theorem put_notLoaded_refMetadata {field : LoadField} :
    (s.put field .notLoaded).put .refMetadata .notLoaded =
      { s with
        loadable := fun f => if f ∈ [field, .refMetadata] then .notLoaded else s.loadable f } := by
  rw [put_put]
  congr 1
  funext f
  simp only [update_apply, mem_cons, not_mem_nil, or_false]
  by_cases hf : f = .refMetadata
  · simp [hf]
  · simp [hf]

end

variable [DecidableEq V] (p : Payload V) (s : RepoState V)

def reset : LoadField → RepoState V
  | .opened => s.setOpen .notLoaded
  | .headBranch => s.setHeadBranch .notLoaded
  | .upstreamDivergence => s.setUpstreamDivergence .notLoaded
  | .branches => s.setBranches .notLoaded
  | .tags => s.setTags .notLoaded
  | .remoteTags => s.setRemoteTags .notLoaded
  | .remotes => s.setRemotes .notLoaded
  | .remoteBranches => s.setRemoteBranches .notLoaded
  | .worktreeStatus => s.setWorktreeStatus .notLoaded
  | .stagedStatus => s.setStagedStatus .notLoaded
  | .status => s.setStatus p .notLoaded
  | .log => s.setLog .notLoaded
  | .stashes => s.setStashes .notLoaded
  | .reflog => s.setReflog .notLoaded
  | .rebaseInProgress => s.setRebaseInProgress .notLoaded
  | .sequencerState => s.setSequencerState .notLoaded
  | .mergeCommitMessage => s.setMergeCommitMessage .notLoaded
  | .worktrees => s.setWorktrees .notLoaded
  | .submodules => s.setSubmodules .notLoaded
  | .commitDetails => s.setCommitDetails .notLoaded
  | .conflictFile => s.setConflictFile .notLoaded
  | field => s.put field .notLoaded

def clearLoading (field : LoadField) : RepoState V :=
  if (s.loadable field).isLoading then s.reset p field else s

def clearAll (fields : List LoadField) : RepoState V :=
  fields.foldl (fun s field => s.clearLoading p field) s

def clearCancelledRepoLoading : RepoState V :=
  let s := { s with loadsInFlight := s.loadsInFlight.clear }
  let s := s.clearAll p [.commitLookup, .mainlineLookup]
  let s := s.setLogScanProgress none
  let s := s.clearAll p [.opened, .headBranch, .upstreamDivergence, .branches, .tags, .remoteTags,
    .remotes, .remoteBranches, .worktreeStatus, .stagedStatus, .status, .log]
  let s := s.setLogLoadingMore false
  let s := s.clearAll p [.stashes, .reflog, .rebaseInProgress, .sequencerState,
    .mergeCommitMessage, .worktrees, .submodules, .fileHistory, .blame, .commitDetails, .diff,
    .diffFile, .diffPreviewTextFile, .submoduleSummary, .diffFileImage]
  let s := { s with
    inlineSubmoduleDiff := s.inlineSubmoduleDiff.map InlineSubmoduleDiffState.clearLoading }
  s.clearAll p [.conflictFile]

def bumpLoadEpoch : RepoState V × BitVec 64 :=
  ({ s with loadEpoch := s.loadEpoch + 1 }, s.loadEpoch)

variable {p s}

section
variable (hidle : s.loadsInFlight.inFlight = 0)
include hidle

theorem reset_eq {field : LoadField}
    (hloading : s.loadable field = .loading) :
    s.reset p field =
      { s with
        loadable := fun f => if f ∈ field.touched then .notLoaded else s.loadable f } := by
  have hchanged : s.loadable field ≠ .notLoaded := by
    rw [hloading]
    intro h
    cases h
  cases field with
  | branches =>
    rw [reset, setBranches, if_neg hchanged,
      invalidateRefMetadata_idle (s := s.put .branches .notLoaded) hidle,
      put_notLoaded_refMetadata]
    rfl
  | remoteBranches =>
    rw [reset, setRemoteBranches, if_neg hchanged,
      invalidateRefMetadata_idle (s := s.put .remoteBranches .notLoaded) hidle,
      put_notLoaded_refMetadata]
    rfl
  | status =>
    rw [reset, setStatus, put_put, put]
    congr 1
    funext f
    simp only [update_apply, LoadField.touched, mem_cons, not_mem_nil,
      or_false, Loadable.map]
    cases f <;> rfl
  | _ => exact put_notLoaded _

theorem clearLoading_eq (field : LoadField) :
    s.clearLoading p field = { s with loadable := lowered s.loadable field } := by
  rw [clearLoading]
  by_cases hloading : (s.loadable field).isLoading
  · rw [if_pos hloading, reset_eq hidle ((Loadable.isLoading_iff _).mp hloading)]
    unfold lowered
    simp only [hloading, true_and]
  · rw [if_neg hloading]
    unfold lowered
    simp only [hloading, Bool.false_eq_true, false_and, if_false]

theorem clearAll_eq (fields : List LoadField) :
    s.clearAll p fields = { s with loadable := fields.foldl lowered s.loadable } := by
  induction fields generalizing s with
  | nil => rfl
  | cons field fields ih =>
    rw [clearAll, foldl_cons, ← clearAll, clearLoading_eq hidle]
    exact ih hidle

end

theorem clearCancelledRepoLoading_eq :
    s.clearCancelledRepoLoading p =
      { s with
        loadsInFlight := s.loadsInFlight.clear
        logScanProgress := none
        logLoadingMore := false
        inlineSubmoduleDiff := s.inlineSubmoduleDiff.map InlineSubmoduleDiffState.clearLoading
        loadable := clearedFields.foldl lowered s.loadable } := by
  have hidle : s.loadsInFlight.clear.inFlight = 0 := rfl
  simp only [clearCancelledRepoLoading, clearAll_eq, hidle, setLogScanProgress,
    setLogLoadingMore, clearedFields, foldl_append]

end RepoState

namespace AppState

variable [DecidableEq V] (p : Payload V) (state : AppState V)

def appendCancelRepoLoadsEffectForRepo (repoId : Option RepoId) (effects : List Effect) :
    AppState V × List Effect :=
  match repoId with
  | none => (state, effects)
  | some repoId =>
    let cancelled := state.onRepo repoId fun repo =>
      (repo.bumpLoadEpoch.1.clearCancelledRepoLoading p,
        [.cancelRepoLoads repoId repo.bumpLoadEpoch.2])
    (cancelled.1, effects ++ cancelled.2)

def repoLoadFinished {Message : Type} (reduce : Message → AppState V → AppState V × List Effect)
    (repoId : RepoId) (loadEpoch : BitVec 64) (message : Message) : AppState V × List Effect :=
  if (state.repo? repoId).map (·.loadEpoch) = some loadEpoch then reduce message state
  else (state, [])

end AppState

end GitComet.Loading
