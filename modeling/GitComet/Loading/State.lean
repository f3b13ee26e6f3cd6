import GitComet.Store.Loads

namespace GitComet.Loading
open Store

abbrev RepoId := ℕ
abbrev CommitId := String
abbrev Path := String

inductive Loadable (α : Type) where
  | notLoaded
  | loading
  | ready (value : α)
  | error (message : String)
  deriving DecidableEq

namespace Loadable

variable {α : Type}

def isLoading : Loadable α → Bool
  | loading => true
  | _ => false

def ready? : Loadable α → Option α
  | ready value => some value
  | _ => none

def isError : Loadable α → Bool
  | error _ => true
  | _ => false

def map (f : α → α) : Loadable α → Loadable α
  | notLoaded => notLoaded
  | loading => loading
  | ready value => ready (f value)
  | error message => error message

def clearLoading (l : Loadable α) : Loadable α := if l.isLoading then notLoaded else l

theorem isLoading_iff (l : Loadable α) : l.isLoading ↔ l = loading := by
  cases l <;> simp [isLoading]

theorem isLoading_clearLoading (l : Loadable α) : l.clearLoading.isLoading = false := by
  cases l <;> rfl

end Loadable

inductive LoadField where
  | opened | headBranch | upstreamDivergence | branches | tags | remoteTags | remotes
  | remoteBranches | worktreeStatus | stagedStatus | status | log | stashes | reflog
  | rebaseInProgress | sequencerState | mergeCommitMessage | worktrees | refMetadata | submodules
  | fileBrowserEntries | fileHistory | blame | commitDetails | rangeFiles | squashPreview
  | commitLookup | mainlineLookup | diff | diffFile | diffPreviewTextFile | submoduleSummary
  | diffFileImage | conflictFile
  deriving DecidableEq

inductive FileSource where
  | workingDirectory
  | commit (id : CommitId)
  | branch (name : String)
  deriving DecidableEq

inductive DiffArea where
  | staged | unstaged
  deriving DecidableEq

inductive DiffTarget where
  | workingTree (path : Path) (area : DiffArea)
  | commit (commitId : CommitId) (path : Option Path)
  | commitRange (fromCommitId : CommitId) (toCommitId : Option CommitId) (path : Option Path)
  deriving DecidableEq

inductive DiffPreviewTextSide where
  | old | new
  deriving DecidableEq

structure SelectedDiffLoadPlan where
  loadPatchDiff : Bool
  loadFileText : Bool
  previewTextSide : Option DiffPreviewTextSide
  loadSubmoduleSummary : Bool
  loadFileImage : Bool
  deriving DecidableEq

inductive ConflictFileLoadMode where
  | currentOnly | full
  deriving DecidableEq

structure RangeSelection where
  fromId : CommitId
  toId : Option CommitId
  fromLabel : String
  toLabel : String
  deriving DecidableEq

structure CommitMultiSelection where
  commits : List CommitId
  anchor : Option CommitId
  anchorIndex : Option ℕ
  anchorLogRev : Option (BitVec 64)
  deriving DecidableEq

def CommitMultiSelection.default : CommitMultiSelection := ⟨[], none, none, none⟩

structure InlineSubmoduleDiffState (V : Type) where
  diff : Loadable V
  diffFile : Loadable V
  diffFileImage : Loadable V
  deriving DecidableEq

structure Payload (V : Type) where
  unstaged : V → V
  staged : V → V
  detailsId : V → CommitId

structure RepoState (V : Type) where
  id : RepoId
  loadsInFlight : RepoLoadsInFlight
  loadEpoch : BitVec 64
  loadable : LoadField → Loadable V
  hoverCommitMessage : Option (CommitId × Loadable V)
  inlineSubmoduleDiff : Option (InlineSubmoduleDiffState V)
  logLoadingMore : Bool
  logScanProgress : Option (BitVec 64)
  rangeSelection : Option RangeSelection
  rangeFilesRequest : BitVec 64
  rangeFilesInFlight : Bool
  rangeFilesRefreshQueued : Bool
  squashPreviewPending : Option (CommitId × CommitId)
  selectedCommit : Option CommitId
  multiSelection : CommitMultiSelection
  revealTarget : Option CommitId
  worktreeSelection : Option Path
  fileHistoryPath : Option Path
  blamePath : Option Path
  blameSource : Option FileSource
  fileBrowserSource : FileSource
  fileBrowserStale : Bool
  diffTarget : Option DiffTarget
  contentPreview : Bool
  editMode : Bool
  editReturnView : Option V
  diffReloadInFlight : Bool
  conflictFilePath : Option Path
  conflictFileLoadMode : ConflictFileLoadMode
  conflictSession : Option V
  sessionPendingRestore : Option V
  conflictHideResolved : Bool

inductive Effect where
  | cancelRepoLoads (repoId : RepoId) (loadEpoch : BitVec 64)
  | loadRangeFiles (repoId : RepoId) (fromId : CommitId) (toId : Option CommitId)
      (request : BitVec 64)
  | loadSquashMessagePreview (repoId : RepoId) (oldest head : CommitId)
  | loadHoverCommitMessage (repoId : RepoId) (commitId : CommitId)
  | loadRefMetadata (repoId : RepoId)
  | loadFileBrowser (repoId : RepoId) (source : FileSource)
  | loadCommitDetails (repoId : RepoId) (commitId : CommitId)
  | loadFileHistory (repoId : RepoId) (path : Path) (limit : ℕ)
  | loadBlame (repoId : RepoId) (path : Path) (source : FileSource)
  | loadReflog (repoId : RepoId) (limit : ℕ)
  | loadSelectedDiff (repoId : RepoId) (plan : SelectedDiffLoadPlan)
  | loadSubmoduleSummary (repoId : RepoId) (target : DiffTarget)
  | loadDiff (repoId : RepoId) (target : DiffTarget)
  | loadDiffFileImage (repoId : RepoId) (target : DiffTarget)
  | loadDiffPreviewTextFile (repoId : RepoId) (target : DiffTarget) (side : DiffPreviewTextSide)
  | loadDiffFile (repoId : RepoId) (target : DiffTarget)
  | loadSelectedConflictFile (repoId : RepoId) (mode : ConflictFileLoadMode)
  deriving DecidableEq

namespace RepoState

variable {V : Type} (s : RepoState V)

def put (field : LoadField) (v : Loadable V) : RepoState V :=
  { s with loadable := Function.update s.loadable field v }

def setOpen (v : Loadable V) : RepoState V := s.put .opened v
def setHeadBranch (v : Loadable V) : RepoState V := s.put .headBranch v
def setUpstreamDivergence (v : Loadable V) : RepoState V := s.put .upstreamDivergence v
def setTags (v : Loadable V) : RepoState V := s.put .tags v
def setRemoteTags (v : Loadable V) : RepoState V := s.put .remoteTags v
def setRemotes (v : Loadable V) : RepoState V := s.put .remotes v
def setWorktreeStatus (v : Loadable V) : RepoState V := s.put .worktreeStatus v
def setStagedStatus (v : Loadable V) : RepoState V := s.put .stagedStatus v
def setLog (v : Loadable V) : RepoState V := s.put .log v
def setStashes (v : Loadable V) : RepoState V := s.put .stashes v
def setReflog (v : Loadable V) : RepoState V := s.put .reflog v
def setRebaseInProgress (v : Loadable V) : RepoState V := s.put .rebaseInProgress v
def setSequencerState (v : Loadable V) : RepoState V := s.put .sequencerState v
def setMergeCommitMessage (v : Loadable V) : RepoState V := s.put .mergeCommitMessage v
def setWorktrees (v : Loadable V) : RepoState V := s.put .worktrees v
def setSubmodules (v : Loadable V) : RepoState V := s.put .submodules v
def setRefMetadata (v : Loadable V) : RepoState V := s.put .refMetadata v
def setCommitDetails (v : Loadable V) : RepoState V := s.put .commitDetails v
def setRangeFiles (v : Loadable V) : RepoState V := s.put .rangeFiles v
def setSquashPreview (v : Loadable V) : RepoState V := s.put .squashPreview v
def setConflictFile (v : Loadable V) : RepoState V := s.put .conflictFile v

def setHoverCommitMessage (commitId : CommitId) (message : Loadable V) : RepoState V :=
  { s with hoverCommitMessage := some (commitId, message) }

def setLogLoadingMore (v : Bool) : RepoState V := { s with logLoadingMore := v }

def setLogScanProgress (v : Option (BitVec 64)) : RepoState V := { s with logScanProgress := v }

def invalidateRefMetadata : RepoState V :=
  let s :=
    if s.loadsInFlight.isInFlight RepoLoadsInFlight.refMetadata then
      { s with loadsInFlight := (s.loadsInFlight.request RepoLoadsInFlight.refMetadata).1 }
    else s
  s.put .refMetadata .notLoaded

def setStatus (p : Payload V) (v : Loadable V) : RepoState V :=
  ((s.put .worktreeStatus (v.map p.unstaged)).put .stagedStatus (v.map p.staged)).put .status v

variable [DecidableEq V]

def setBranches (v : Loadable V) : RepoState V :=
  if s.loadable .branches = v then s else (s.put .branches v).invalidateRefMetadata

def setRemoteBranches (v : Loadable V) : RepoState V :=
  if s.loadable .remoteBranches = v then s else (s.put .remoteBranches v).invalidateRefMetadata

end RepoState

structure AppState (V : Type) where
  repos : List (RepoState V)

namespace AppState

variable {V : Type} (state : AppState V)

def repo? (repoId : RepoId) : Option (RepoState V) := state.repos.find? fun repo => repo.id = repoId

def onRepo (repoId : RepoId) (f : RepoState V → RepoState V × List Effect) :
    AppState V × List Effect :=
  match state.repo? repoId with
  | none => (state, [])
  | some repo =>
    (⟨state.repos.replaceF fun other => if other.id = repoId then some (f repo).1 else none⟩,
      (f repo).2)

variable {repoId : RepoId} {repo : RepoState V}

theorem find?_replaceF {repos : List (RepoState V)} {new : RepoState V}
    (hrepo : repos.find? (fun repo => repo.id = repoId) = some repo) (hid : new.id = repo.id) :
    (repos.replaceF fun other => if other.id = repoId then some new else none).find?
      (fun repo => repo.id = repoId) = some new := by
  induction repos with
  | nil => cases hrepo
  | cons other repos ih =>
    by_cases hother : other.id = repoId
    · rw [List.find?_cons_of_pos (by simpa using hother)] at hrepo
      cases hrepo
      simp [hother, hid]
    · rw [List.find?_cons_of_neg (by simpa using hother)] at hrepo
      simpa [List.replaceF_cons, hother] using ih hrepo

variable {state}

theorem onRepo_of_repo?
    (hrepo : state.repo? repoId = some repo) (f : RepoState V → RepoState V × List Effect) :
    state.onRepo repoId f =
      (⟨state.repos.replaceF fun other => if other.id = repoId then some (f repo).1 else none⟩,
        (f repo).2) := by
  rw [onRepo, hrepo]

theorem repo?_onRepo
    (hrepo : state.repo? repoId = some repo) {f : RepoState V → RepoState V × List Effect}
    (hid : (f repo).1.id = repo.id) : (state.onRepo repoId f).1.repo? repoId = some (f repo).1 := by
  rw [onRepo_of_repo? hrepo]
  exact find?_replaceF hrepo hid

end AppState

end GitComet.Loading
