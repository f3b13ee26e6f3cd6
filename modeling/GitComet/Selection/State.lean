import GitComet.IndexedHistory.State
import GitComet.Loading.Requests

namespace GitComet.Selection
open IndexedHistory Loading
open Store (LogCursor LogScope)

inductive CommitSelectMode where
  | single | toggle | range | preserveIfSelected
  deriving DecidableEq

inductive ReadError where
  | cancelled
  | failed (message : String)
  deriving DecidableEq

structure LogPage where
  commits : List Commit
  nextCursor : Option LogCursor
  deriving DecidableEq

structure CommitDetails where
  id : CommitId
  deriving DecidableEq

structure FileEditReturnView where
  target : DiffTarget
  contentPreview : Bool
  deriving DecidableEq

structure ComparisonMark where
  commitId : CommitId
  label : String
  deriving DecidableEq

structure ViewHistoryEntry where
  source : FileSource
  path : Path
  deriving DecidableEq

structure MainViewSnapshot where
  diffTarget : Option DiffTarget
  contentPreview : Bool
  editMode : Bool
  selectedCommit : Option CommitId
  rangeSelection : Option RangeSelection
  worktreeSelection : Option Path
  deriving DecidableEq

inductive ViewNavDir where
  | back | forward
  deriving DecidableEq

def navHistoryCap : ℕ := 64

structure NavStack (α : Type) where
  entries : List α
  cursor : ℕ
  deriving DecidableEq

namespace NavStack

variable {α : Type} [DecidableEq α] (s : NavStack α)

def empty : NavStack α := ⟨[], 0⟩

def push (entry : α) : NavStack α :=
  let entries := s.entries.take (s.cursor + 1) ++ [entry]
  let entries := entries.drop (entries.length - navHistoryCap)
  ⟨entries, entries.length - 1⟩

def record (entry : α) : NavStack α :=
  if s.entries[s.cursor]? = some entry then s else s.push entry

def replaceCurrent (entry : α) : NavStack α :=
  if s.entries[s.cursor]? = some entry then s
  else if s.entries.isEmpty then ⟨[entry], 0⟩
  else if 0 < s.cursor ∧ s.entries[s.cursor - 1]? = some entry then
    ⟨s.entries.eraseIdx s.cursor, s.cursor - 1⟩
  else ⟨s.entries.set s.cursor entry, s.cursor⟩

def reconcile (entry : α) (pushes : Bool) : NavStack α :=
  if s.entries[s.cursor]? = some entry then s
  else if s.entries.isEmpty then ⟨[entry], 0⟩
  else if pushes then s.push entry
  else if s.cursor + 1 < s.entries.length then s
  else s.replaceCurrent entry

def canBack : Bool := 0 < s.cursor

def canForward : Bool := s.cursor + 1 < s.entries.length

def step (dir : ViewNavDir) : NavStack α × Option α :=
  match dir with
  | .back =>
    if s.canBack then (⟨s.entries, s.cursor - 1⟩, s.entries[s.cursor - 1]?) else (s, none)
  | .forward =>
    if s.canForward then (⟨s.entries, s.cursor + 1⟩, s.entries[s.cursor + 1]?) else (s, none)

def seekOrRecord (entry : α) : NavStack α :=
  match s.entries.findIdx? (· = entry) with
  | some found => ⟨s.entries, found⟩
  | none => s.record entry

end NavStack

structure RepoState where
  id : RepoId
  loadEpoch : BitVec 64
  indexed : IndexedHistoryState
  historyScope : LogScope
  historyAuthorFilter : Option (List Char)
  log : Loadable LogPage
  logSnapshot : Option HistorySnapshot
  logRev : BitVec 64
  selectedCommit : Option CommitId
  revealTarget : Option CommitId
  commitDetails : Loadable CommitDetails
  multiSelection : CommitMultiSelection
  selectedIds : Finset CommitId
  rangeSelection : Option RangeSelection
  rangeFilesRequest : BitVec 64
  rangeFilesInFlight : Bool
  rangeFilesRefreshQueued : Bool
  worktreeSelection : Option Path
  worktreeDirty : Loadable (List Path)
  diffTarget : Option DiffTarget
  contentPreview : Bool
  editMode : Bool
  editReturnView : Option FileEditReturnView
  comparisonMark : Option ComparisonMark
  mainHistory : NavStack MainViewSnapshot
  viewHistory : NavStack ViewHistoryEntry

def RepoState.newOpening (id : RepoId) : RepoState where
  id := id
  loadEpoch := 0
  indexed := .default
  historyScope := .fullReachable
  historyAuthorFilter := none
  log := .notLoaded
  logSnapshot := none
  logRev := 0
  selectedCommit := none
  revealTarget := none
  commitDetails := .notLoaded
  multiSelection := .default
  selectedIds := ∅
  rangeSelection := none
  rangeFilesRequest := 0
  rangeFilesInFlight := false
  rangeFilesRefreshQueued := false
  worktreeSelection := none
  worktreeDirty := .notLoaded
  diffTarget := none
  contentPreview := false
  editMode := false
  editReturnView := none
  comparisonMark := none
  mainHistory := .empty
  viewHistory := .empty

inductive Effect where
  | loadCommitDetails (repoId : RepoId) (commitId : CommitId)
  | loadRangeFiles (repoId : RepoId) (fromId : CommitId) (toId : Option CommitId)
      (request : BitVec 64)
  | loadWorktreeDirty (repoId : RepoId)
  | verifyCommitSignatures (repoId : RepoId)
  | resolveCommitForReveal (repoId : RepoId) (reference : CommitId)
  | loadSelectedDiff (repoId : RepoId) (plan : SelectedDiffLoadPlan)
  | reloadConflict (repoId : RepoId) (target : SelectedConflictTarget)
  | reloadConflictAs (repoId : RepoId) (path : Path) (mode : ConflictFileLoadMode)
  | indexedHistory (effect : IndexedHistoryEffect)

structure Planner where
  verifiesSignatures : RepoState → Bool
  requestsWorktreeDirty : RepoState → Bool
  selectedConflictTarget : RepoState → DiffTarget → Option SelectedConflictTarget
  selectedDiffLoadPlan : RepoState → DiffTarget → SelectedDiffLoadPlan

end GitComet.Selection
