import GitComet.Selection.State

namespace GitComet.Selection
open IndexedHistory Loading

def emptyTreeId : CommitId := "4b825dc642cb6eb9a060e54bf8d69288fbee4904"

def rangeEndpointLabel (id : CommitId) : String :=
  if id = emptyTreeId then "start of history"
  else ((Text.byteSlice id.toList 0 8).map String.ofList).getD id

def commitSelectionEntryIndex (entries : List CommitId) (target : CommitId)
    (indexHint : Option ℕ) : Option ℕ :=
  (indexHint.filter fun ix => entries[ix]? = some target).or
    (entries.findIdx? (· = target))

def collapseMultiSelectionTo (commitId : CommitId) (clickedIndex : Option ℕ) (logRev : BitVec 64) :
    CommitMultiSelection :=
  ⟨[commitId], some commitId, clickedIndex, some logRev⟩

namespace RepoState

variable (s : RepoState)

def clearRangeComparison : RepoState × Bool :=
  if s.rangeSelection.isNone && !s.rangeFilesInFlight then (s, false)
  else
    ({ s with
       rangeSelection := none
       rangeFilesRequest := s.rangeFilesRequest + 1
       rangeFilesInFlight := false
       rangeFilesRefreshQueued := false }, true)

def setSelectedCommit (v : Option CommitId) : RepoState :=
  let s := { s with
    worktreeSelection := none
    revealTarget := if s.revealTarget = v then s.revealTarget else none }
  let s :=
    if v.isNone then
      ({ s with multiSelection := .default, selectedIds := ∅ }).clearRangeComparison.1
    else s
  { s with selectedCommit := v }

def setWorktreeSelection (path : Option Path) : RepoState :=
  if s.worktreeSelection = path then s
  else
    let s := if path.isSome then s.setSelectedCommit none else s
    { s with worktreeSelection := path }

def setCommitMultiSelection (v : CommitMultiSelection) (shared : Bool) : RepoState :=
  if s.multiSelection = v then s
  else
    { s with
      multiSelection := v
      selectedIds := if shared then s.selectedIds else v.commits.toFinset }

def beginRangeFilesLoad : RepoState × BitVec 64 :=
  let request := s.rangeFilesRequest + 1
  ({ s with
     rangeFilesRequest := request
     rangeFilesInFlight := true
     rangeFilesRefreshQueued := false }, request)

def requestRangeFilesRefresh : RepoState × Option (BitVec 64) :=
  if s.rangeFilesInFlight then ({ s with rangeFilesRefreshQueued := true }, none)
  else (s.beginRangeFilesLoad.1, some s.beginRangeFilesLoad.2)

def detailsLoaded (commitId : CommitId) : Bool :=
  s.commitDetails.ready?.any fun details => details.id = commitId

def detailsPending : Bool := s.commitDetails = .notLoaded || s.commitDetails.isError

def selectCommitAndLoadDetails (commitId : CommitId) : RepoState × List Effect :=
  if s.selectedCommit = some commitId then (s, [])
  else
    let s := s.setSelectedCommit (some commitId)
    if s.detailsLoaded commitId then (s, [])
    else
      ({ s with commitDetails := if s.detailsPending then .notLoaded else s.commitDetails },
        [.loadCommitDetails s.id commitId])

def reconcileSelectedCommitDetails : RepoState × List Effect :=
  match s.selectedCommit with
  | none => (s, [])
  | some commitId =>
    if s.detailsLoaded commitId then (s, [])
    else ({ s with commitDetails := .notLoaded }, [.loadCommitDetails s.id commitId])

def clearDiffSelection : RepoState :=
  { s with
    contentPreview := false
    editMode := false
    editReturnView := none
    diffTarget := none }

def compareRange (fromId : CommitId) (toId : Option CommitId) (fromLabel toLabel : String)
    (source : ComparisonSource) : RepoState × List Effect :=
  let s := if source = .explicit then s.setCommitMultiSelection .default false else s
  let begun := ({ s with
    rangeSelection := some ⟨fromId, toId, fromLabel, toLabel⟩ }).beginRangeFilesLoad
  (begun.1.clearDiffSelection, [.loadRangeFiles s.id fromId toId begun.2])

def clearComparison : RepoState × List Effect :=
  let s := (s.setCommitMultiSelection .default false).clearRangeComparison.1
  let reconciled := s.reconcileSelectedCommitDetails
  (reconciled.1.clearDiffSelection, reconciled.2)

def compareWithMarked (commitId : CommitId) (label : String) : RepoState × List Effect :=
  match s.comparisonMark.filter fun mark => mark.commitId ≠ commitId with
  | none => (s, [])
  | some mark => s.compareRange mark.commitId (some commitId) mark.label label .explicit

def clearCommitSelection : RepoState :=
  { s.setSelectedCommit none with commitDetails := .notLoaded }

def indexedSelectionRange (index : HistoryIndexHandle) (selected : List CommitId) :
    Option (Option (CommitId × CommitId)) :=
  match selected.mapM index.position with
  | none => none
  | some positions =>
    some (do
      let newest ← positions.min?
      let oldest ← positions.max?
      let newestId ← index.commitId newest
      some ((index.parentCommitId oldest 0).getD emptyTreeId, newestId))

def scanSelected (wanted : Finset CommitId) :
    List Commit → Option Commit → Option Commit → ℕ → Option (Commit × Commit)
  | [], newest, oldest, found =>
    if found ≠ wanted.card then none
    else newest.bind fun newest => oldest.map fun oldest => (newest, oldest)
  | commit :: commits, newest, oldest, found =>
    if commit.id ∉ wanted then scanSelected wanted commits newest oldest found
    else if found + 1 = wanted.card then some (newest.getD commit, commit)
    else scanSelected wanted commits (some (newest.getD commit)) (some commit) (found + 1)

def loggedSelectionRange (selected : List CommitId) : Option (CommitId × CommitId) := do
  let page ← s.log.ready?
  let (newest, oldest) ← scanSelected selected.toFinset page.commits none none 0
  some (oldest.parentIds.head?.getD emptyTreeId, newest.id)

def mergedSelectionRange (selected : List CommitId) : Option (CommitId × CommitId) :=
  match (s.indexed.displayedIndex.or s.indexed.rangeIndex).bind
      fun index => indexedSelectionRange index selected with
  | some range => range
  | none => s.loggedSelectionRange selected

def rangeClick (commitId : CommitId) (clickedIndex : Option ℕ) (entries : List CommitId) :
    CommitMultiSelection :=
  let sel := s.multiSelection
  match commitSelectionEntryIndex entries commitId clickedIndex with
  | none => collapseMultiSelectionTo commitId clickedIndex s.logRev
  | some clickedIx =>
    let anchorIx := (sel.anchor.bind fun anchor =>
      commitSelectionEntryIndex entries anchor
        (sel.anchorIndex.filter fun _ => sel.anchorLogRev = some s.logRev)).getD clickedIx
    let first := min anchorIx clickedIx
    let last := max anchorIx clickedIx
    { commits := (entries.take (last + 1)).drop first
      anchor := if sel.anchor.isNone then some commitId else sel.anchor
      anchorIndex := some anchorIx
      anchorLogRev := some s.logRev }

def clickedSelection (commitId : CommitId) (mode : CommitSelectMode) (clickedIndex : Option ℕ)
    (visibleOrder : Option (List CommitId)) : CommitMultiSelection × Option CommitId :=
  let sel := s.multiSelection
  match mode with
  | .single => (collapseMultiSelectionTo commitId clickedIndex s.logRev, some commitId)
  | .toggle =>
    match sel.commits.findIdx? (· = commitId) with
    | some ix =>
      let commits := sel.commits.eraseIdx ix
      ({ sel with commits := commits }, commits.getLast?)
    | none =>
      ({ commits := sel.commits ++ [commitId]
         anchor := some commitId
         anchorIndex := clickedIndex
         anchorLogRev := some s.logRev }, some commitId)
  | .range => (s.rangeClick commitId clickedIndex (visibleOrder.getD []), some commitId)
  | .preserveIfSelected =>
    (if sel.commits.contains commitId then sel
     else collapseMultiSelectionTo commitId clickedIndex s.logRev, some commitId)

def keepsList (mode : CommitSelectMode) (commitId : CommitId) : Bool :=
  mode = .preserveIfSelected && s.multiSelection.commits.contains commitId

def selectedPair : Option (CommitId × CommitId) :=
  if 2 ≤ s.multiSelection.commits.length then s.mergedSelectionRange s.multiSelection.commits
  else none

def focusSelection (focus : CommitId) : RepoState × List Effect :=
  match s.selectedPair with
  | some (fromId, toId) =>
    (s.setSelectedCommit (some focus)).compareRange fromId (some toId) (rangeEndpointLabel fromId)
      (rangeEndpointLabel toId) .multiSelection
  | none =>
    let left := s.clearRangeComparison
    let selected := left.1.selectCommitAndLoadDetails focus
    if left.2 && selected.2.isEmpty then selected.1.reconcileSelectedCommitDetails else selected

def selectCommitMulti (planner : Planner) (commitId : CommitId) (mode : CommitSelectMode)
    (clickedIndex : Option ℕ) (visibleOrder : Option (List CommitId)) :
    RepoState × List Effect :=
  let clicked := s.clickedSelection commitId mode clickedIndex visibleOrder
  match clicked.2 with
  | none => (s.clearCommitSelection, [])
  | some focus =>
    let selected :=
      (s.setCommitMultiSelection clicked.1 (s.keepsList mode commitId)).focusSelection focus
    (selected.1, selected.2 ++
      if planner.verifiesSignatures selected.1 then [.verifyCommitSignatures s.id] else [])

def selectCommit (planner : Planner) (commitId : CommitId) : RepoState × List Effect :=
  s.selectCommitMulti planner commitId .single none none

def survivingSelection (survives : CommitId → Bool) : CommitMultiSelection where
  commits := s.multiSelection.commits.filter survives
  anchor := s.multiSelection.anchor.filter survives
  anchorIndex := none
  anchorLogRev := none

def reconcileSelection (survives : CommitId → Bool) (shared : Bool) : RepoState × List Effect :=
  let next := s.survivingSelection survives
  let focusGone := s.selectedCommit.any fun id => !survives id
  let s := s.setCommitMultiSelection next shared
  if focusGone then
    match next.commits.getLast? with
    | some commitId => s.selectCommitAndLoadDetails commitId
    | none => (s.clearCommitSelection, [])
  else (s, [])

def survivesPage (page : LogPage) (id : CommitId) : Bool :=
  s.revealTarget == some id || page.commits.any fun commit => commit.id == id

def reconcileSelectionFromPage (page : LogPage) : RepoState × List Effect :=
  if s.indexed.index.isSome || s.multiSelection.commits.isEmpty then (s, [])
  else s.reconcileSelection (s.survivesPage page) false

end RepoState

end GitComet.Selection

namespace GitComet.Selection
open Loading

structure KeepsHistory (s after : RepoState) : Prop where
  id : after.id = s.id
  loadEpoch : after.loadEpoch = s.loadEpoch
  indexed : after.indexed = s.indexed
  historyScope : after.historyScope = s.historyScope
  historyAuthorFilter : after.historyAuthorFilter = s.historyAuthorFilter
  log : after.log = s.log
  logSnapshot : after.logSnapshot = s.logSnapshot
  logRev : after.logRev = s.logRev

namespace KeepsHistory
variable {s mid after : RepoState}

theorem refl (s : RepoState) : KeepsHistory s s := ⟨rfl, rfl, rfl, rfl, rfl, rfl, rfl, rfl⟩

theorem trans (hmid : KeepsHistory s mid) (hafter : KeepsHistory mid after) :
    KeepsHistory s after where
  id := hafter.id.trans hmid.id
  loadEpoch := hafter.loadEpoch.trans hmid.loadEpoch
  indexed := hafter.indexed.trans hmid.indexed
  historyScope := hafter.historyScope.trans hmid.historyScope
  historyAuthorFilter := hafter.historyAuthorFilter.trans hmid.historyAuthorFilter
  log := hafter.log.trans hmid.log
  logSnapshot := hafter.logSnapshot.trans hmid.logSnapshot
  logRev := hafter.logRev.trans hmid.logRev

end KeepsHistory

namespace RepoState
variable (s : RepoState)

theorem clearRangeComparison_keeps : KeepsHistory s s.clearRangeComparison.1 := by
  rw [clearRangeComparison]
  split_ifs
  · exact .refl s
  · exact ⟨rfl, rfl, rfl, rfl, rfl, rfl, rfl, rfl⟩

theorem setSelectedCommit_keeps (v : Option CommitId) : KeepsHistory s (s.setSelectedCommit v) := by
  cases v with
  | none =>
    have hcleared := clearRangeComparison_keeps { s with
      worktreeSelection := none
      revealTarget := if s.revealTarget = none then s.revealTarget else none
      multiSelection := .default
      selectedIds := ∅ }
    exact ⟨hcleared.id, hcleared.loadEpoch, hcleared.indexed, hcleared.historyScope,
      hcleared.historyAuthorFilter, hcleared.log, hcleared.logSnapshot, hcleared.logRev⟩
  | some commitId => exact ⟨rfl, rfl, rfl, rfl, rfl, rfl, rfl, rfl⟩

theorem setCommitMultiSelection_keeps (v : CommitMultiSelection) (shared : Bool) :
    KeepsHistory s (s.setCommitMultiSelection v shared) := by
  rw [setCommitMultiSelection]
  split_ifs
  · exact .refl s
  · exact ⟨rfl, rfl, rfl, rfl, rfl, rfl, rfl, rfl⟩
  · exact ⟨rfl, rfl, rfl, rfl, rfl, rfl, rfl, rfl⟩

theorem setWorktreeSelection_keeps (path : Option Path) :
    KeepsHistory s (s.setWorktreeSelection path) := by
  have hset := s.setSelectedCommit_keeps none
  rw [setWorktreeSelection]
  split_ifs
  · exact .refl s
  · exact hset.trans ⟨rfl, rfl, rfl, rfl, rfl, rfl, rfl, rfl⟩
  · exact ⟨rfl, rfl, rfl, rfl, rfl, rfl, rfl, rfl⟩

theorem compareRange_keeps (fromId : CommitId) (toId : Option CommitId) (fromLabel toLabel : String)
    (source : ComparisonSource) :
    KeepsHistory s (s.compareRange fromId toId fromLabel toLabel source).1 := by
  have hdropped := s.setCommitMultiSelection_keeps .default false
  cases source with
  | multiSelection => exact ⟨rfl, rfl, rfl, rfl, rfl, rfl, rfl, rfl⟩
  | explicit => exact hdropped.trans ⟨rfl, rfl, rfl, rfl, rfl, rfl, rfl, rfl⟩

end RepoState

structure KeptBySelection (Holds : RepoState → Prop) : Prop where
  range : ∀ {s}, Holds s → Holds s.clearRangeComparison.1
  commit : ∀ {s}, Holds s → ∀ v, Holds (s.setSelectedCommit v)
  worktree : ∀ {s}, Holds s → ∀ path, Holds (s.setWorktreeSelection path)
  multi : ∀ {s}, Holds s → ∀ v shared, Holds (s.setCommitMultiSelection v shared)
  details : ∀ {s}, Holds s → ∀ details, Holds { s with commitDetails := details }
  compare : ∀ {s}, Holds s → ∀ fromId toId fromLabel toLabel source,
    Holds (s.compareRange fromId toId fromLabel toLabel source).1

theorem keptHistory (s : RepoState) : KeptBySelection (KeepsHistory s) where
  range h := h.trans (RepoState.clearRangeComparison_keeps _)
  commit h v := h.trans (RepoState.setSelectedCommit_keeps _ v)
  worktree h path := h.trans (RepoState.setWorktreeSelection_keeps _ path)
  multi h v shared := h.trans (RepoState.setCommitMultiSelection_keeps _ v shared)
  details h _ := h.trans ⟨rfl, rfl, rfl, rfl, rfl, rfl, rfl, rfl⟩
  compare h _ _ _ _ _ := h.trans (RepoState.compareRange_keeps _ _ _ _ _ _)

namespace KeptBySelection
variable {Holds : RepoState → Prop} {s : RepoState} (hkept : KeptBySelection Holds) (h : Holds s)
include hkept h

theorem clearCommitSelection : Holds s.clearCommitSelection :=
  hkept.details (hkept.commit h none) _

theorem selectCommitAndLoadDetails (commitId : CommitId) :
    Holds (s.selectCommitAndLoadDetails commitId).1 := by
  rw [RepoState.selectCommitAndLoadDetails]
  split_ifs
  · exact h
  · dsimp only
    have hset := hkept.commit h (some commitId)
    split
    · exact hset
    · exact hkept.details hset _

theorem reconcileSelectedCommitDetails : Holds s.reconcileSelectedCommitDetails.1 := by
  rw [RepoState.reconcileSelectedCommitDetails]
  split
  · exact h
  · split
    · exact h
    · exact hkept.details h _

theorem focusSelection (focus : CommitId) : Holds (s.focusSelection focus).1 := by
  rw [RepoState.focusSelection]
  cases s.selectedPair with
  | some pair => exact hkept.compare (hkept.commit h _) _ _ _ _ _
  | none =>
    have hselected := hkept.selectCommitAndLoadDetails (hkept.range h) focus
    dsimp only
    split_ifs
    · exact hkept.reconcileSelectedCommitDetails hselected
    · exact hselected

theorem selectCommitMulti (planner : Planner) (commitId : CommitId) (mode : CommitSelectMode)
    (clickedIndex : Option ℕ) (visibleOrder : Option (List CommitId)) :
    Holds (s.selectCommitMulti planner commitId mode clickedIndex visibleOrder).1 := by
  rw [RepoState.selectCommitMulti]
  cases (s.clickedSelection commitId mode clickedIndex visibleOrder).2 with
  | none => exact hkept.clearCommitSelection h
  | some focus => exact hkept.focusSelection (hkept.multi h _ _) focus

theorem reconcileSelection (survives : CommitId → Bool) (shared : Bool) :
    Holds (s.reconcileSelection survives shared).1 := by
  have hset := hkept.multi h (s.survivingSelection survives) shared
  rw [RepoState.reconcileSelection]
  split_ifs
  · cases (s.survivingSelection survives).commits.getLast? with
    | none => exact hkept.clearCommitSelection hset
    | some commitId => exact hkept.selectCommitAndLoadDetails hset commitId
  · exact hset

theorem reconcileSelectionFromPage (page : LogPage) :
    Holds (s.reconcileSelectionFromPage page).1 := by
  rw [RepoState.reconcileSelectionFromPage]
  split_ifs
  · exact h
  · exact hkept.reconcileSelection h _ _

end KeptBySelection

end GitComet.Selection
