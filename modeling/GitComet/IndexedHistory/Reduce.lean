import GitComet.Selection.Commits

namespace GitComet.IndexedHistory
open BinarySearch RecentCache
open Loading (CommitId RepoId)
open Selection

structure HistoryProjection where
  index : HistoryIndexHandle
  hidden : List ℕ

namespace HistoryProjection
variable (projection : HistoryProjection)

def len : ℕ := projection.index.len - projection.hidden.length

def visiblePosition (raw : ℕ) : Option ℕ :=
  if projection.index.len ≤ raw then none
  else
    let before := partitionPoint (fun hidden => decide (hidden < raw)) projection.hidden
    if projection.hidden[before]? = some raw then none else some (raw - before)

def rawSearch (visible : ℕ) : ℕ → ℕ → ℕ → ℕ
  | 0, lo, _ => lo
  | fuel + 1, lo, hi =>
    if lo < hi then
      let mid := lo + (hi - lo) / 2
      if projection.hidden.getD mid 0 - mid ≤ visible then rawSearch visible fuel (mid + 1) hi
      else rawSearch visible fuel lo mid
    else lo

def rawPosition (visible : ℕ) : Option ℕ :=
  if projection.len ≤ visible then none
  else
    let hidden := projection.hidden.length
    some (visible + projection.rawSearch visible (hidden + 1) 0 hidden)

def position (id : CommitId) : Option ℕ :=
  (projection.index.position id).bind projection.visiblePosition

def commitId (visible : ℕ) : Option CommitId :=
  (projection.rawPosition visible).bind projection.index.commitId

def between (first last : ℕ) : List CommitId :=
  ((List.range (last + 1)).drop first).filterMap projection.commitId

end HistoryProjection

inductive IndexedHistoryMsg where
  | retry
  | ensure
  | publish (index : HistoryIndexHandle)
  | select (commitId : CommitId) (mode : CommitSelectMode) (projection : HistoryProjection)
  | requestRanges (snapshot : HistorySnapshot) (blocks : List ℕ) (retry : Bool)
  | progress (seq : BitVec 64) (progress : HistoryIndexProgress)
  | built (seq : BitVec 64) (result : Except String (Option HistoryIndexHandle))
  | rangeLoaded (snapshot : HistorySnapshot) (seq : BitVec 64) (start : ℕ)
      (result : Except String HistoryRange)

inductive Flow where
  | returned (repo : RepoState) (effects : List Effect)
  | passed (repo : RepoState)

namespace IndexedHistoryState
variable (h : IndexedHistoryState)

def switchRanges (index : HistoryIndexHandle) : IndexedHistoryState :=
  { h with
    pending := ∅
    ranges := ∅
    rangeErrors := ∅
    lru := []
    rangeIndex := some index }

def desiredBlocks (index : HistoryIndexHandle) (blocks : List ℕ) : List ℕ :=
  (blocks.take cachedBlocks).foldl (fun desired block =>
    if block < index.len ∧ block % historyBlockSize = 0 ∧ ¬desired.contains block then
      desired ++ [block]
    else desired) []

def touchDesired (desired : List ℕ) : List ℕ :=
  desired.foldl (fun lru start => if (h.ranges.lookup start).isSome then touch lru start else lru)
    h.lru

def demand (desired : List ℕ) (retry : Bool) : IndexedHistoryState :=
  let wanted := fun start => desired.contains start
  let errors := retain wanted h.rangeErrors
  { h with
    pending := retain wanted h.pending
    rangeErrors := if retry then desired.foldl (fun errors start => errors.erase start) errors
      else errors
    lru := h.touchDesired desired
    desired := desired }

def requestRanges (snapshot : HistorySnapshot) (blocks : List ℕ) (retry : Bool) :
    Option IndexedHistoryState :=
  let ofSnapshot := fun index : HistoryIndexHandle => index.snapshot == snapshot
  match (h.index.filter ofSnapshot).or (h.rangeIndex.filter ofSnapshot) with
  | none => none
  | some index =>
    let other := h.rangeIndex.all fun old => old.snapshot != snapshot
    let h := if other then h.switchRanges index else h
    some (h.demand (desiredBlocks index blocks) retry)

def accepts (range : HistoryRange) (snapshot : HistorySnapshot) (start : ℕ) : Bool :=
  range.snapshot == snapshot && range.start == start && h.rangeIndex.any fun index =>
    range.commits.length == min historyBlockSize (index.len - start) &&
      range.commits.zipIdx.all fun entry => index.rowMatchesHexId (start + entry.2) entry.1.id

def keptDesired (start : ℕ) : Bool := h.desired.contains start

def evictionFuel (ranges : Entries ℕ HistoryRange) : ℕ :=
  (ranges.keys.length + 1) * (ranges.keys.length + 1)

def install (start : ℕ) (range : HistoryRange) : Option IndexedHistoryState :=
  let ranges := h.ranges.insert start range
  (evict h.keptDesired cachedBlocks (evictionFuel ranges) ranges (touch h.lru start)).map
    fun evicted => { h with ranges := evicted.1, lru := evicted.2 }

def fail (start : ℕ) (message : String) : IndexedHistoryState :=
  { h with rangeErrors := h.rangeErrors.insert start message }

def settle (snapshot : HistorySnapshot) (start : ℕ) :
    Except String HistoryRange → Option IndexedHistoryState
  | .ok range =>
    if h.accepts range snapshot start then h.install start range
    else some (h.fail start "History response did not match its request")
  | .error message => some (h.fail start message)

def ignoresRange (snapshot : HistorySnapshot) (seq : BitVec 64) (start : ℕ) : Bool :=
  (h.rangeIndex.all fun index => index.snapshot != snapshot) ||
    (h.pending.lookup start).all fun pending => pending != seq

def served (start : ℕ) : Bool :=
  (h.pending.lookup start).isSome || (h.ranges.lookup start).isSome ||
    (h.rangeErrors.lookup start).isSome

def startRange (start : ℕ) : IndexedHistoryState :=
  { h with
    rangeSeq := h.rangeSeq + 1
    pending := h.pending.insert start (h.rangeSeq + 1) }

def startRanges (repoId : RepoId) (index : HistoryIndexHandle) :
    List ℕ → IndexedHistoryState → IndexedHistoryState × List Effect
  | [], h => (h, [])
  | start :: desired, h =>
    if 2 ≤ h.pending.keys.length then (h, [])
    else if h.served start then startRanges repoId index desired h
    else
      let h := h.startRange start
      let started := startRanges repoId index desired h
      (started.1, .indexedHistory (.range repoId h.rangeSeq index start) :: started.2)

end IndexedHistoryState

end GitComet.IndexedHistory

namespace GitComet.Selection
open IndexedHistory Loading
open Store (LogScope)

namespace RepoState
variable (s : RepoState)

def setLogScope (scope : LogScope) : RepoState :=
  if s.historyScope = scope then s
  else
    { s with
      indexed := s.indexed.resetQuery
      historyScope := scope
      logRev := s.logRev + 1 }

def setHistoryAuthorFilter (author : Option (List Char)) : RepoState :=
  if s.historyAuthorFilter = author then s
  else
    { s with
      indexed := s.indexed.resetQuery
      historyAuthorFilter := author
      logRev := s.logRev + 1 }

def bumpLoadEpoch : RepoState :=
  { s with loadEpoch := s.loadEpoch + 1, indexed := s.indexed.cancel }

def publish (index : HistoryIndexHandle) : RepoState :=
  let known := s.indexed.index.toList ++ s.indexed.rangeIndex.toList
  if !(known.any fun known => known.ptrEq index) ||
      s.indexed.displayedIndex.any fun shown => shown.ptrEq index then s
  else { s with indexed := { s.indexed with displayedIndex := some index } }

def projectedClick (planner : Planner) (commitId : CommitId) (mode : CommitSelectMode)
    (projection : HistoryProjection) (clicked : ℕ) : RepoState × List Effect :=
  let anchor := (s.multiSelection.anchor.bind projection.position).getD clicked
  s.selectCommitMulti planner commitId mode none
    (if mode = .range then some (projection.between (min anchor clicked) (max anchor clicked))
     else none)

def indexedSelect (planner : Planner) (commitId : CommitId) (mode : CommitSelectMode)
    (projection : HistoryProjection) : RepoState × List Effect :=
  if s.indexed.displayedIndex.all fun index => !index.ptrEq projection.index then (s, [])
  else ((projection.position commitId).map
    (s.projectedClick planner commitId mode projection)).getD (s, [])

def ensureIndex : Flow :=
  match s.logSnapshot with
  | none => .returned s []
  | some snapshot =>
    let history := s.indexed
    if history.requested = some snapshot ∧ history.epoch = s.loadEpoch then .returned s []
    else if history.index.any fun index => index.snapshot == snapshot then
      .passed { s with indexed := { history with
        epoch := s.loadEpoch
        requested := some snapshot
        loading := false
        progress := none } }
    else
      .returned { s with indexed := { history with
        seq := history.seq + 1
        epoch := s.loadEpoch
        requested := some snapshot
        loading := true
        progress := none
        error := none } }
        [.indexedHistory (.build s.id (history.seq + 1) s.historyScope s.historyAuthorFilter)]

def indexProgress (seq : BitVec 64) (progress : HistoryIndexProgress) : RepoState :=
  if seq = s.indexed.seq ∧ s.indexed.loading = true ∧ s.indexed.epoch = s.loadEpoch then
    { s with indexed := { s.indexed with progress := some progress } }
  else s

def survivesIndex (index : HistoryIndexHandle) (id : CommitId) : Bool :=
  s.revealTarget == some id || (index.position id).isSome

def installIndex (index : HistoryIndexHandle) : RepoState × List Effect :=
  let s := { s with indexed := { s.indexed with index := some index } }
  let survives := s.survivesIndex index
  s.reconcileSelection survives (s.multiSelection.commits.all survives)

def indexBuilt (seq : BitVec 64) (result : Except String (Option HistoryIndexHandle)) : Flow :=
  if seq ≠ s.indexed.seq ∨ s.indexed.epoch ≠ s.loadEpoch then .returned s []
  else
    let history := { s.indexed with loading := false, progress := none }
    match result with
    | .ok (some index) =>
      if some index.snapshot = history.requested ∧ some index.snapshot = s.logSnapshot then
        let installed := { s with indexed := history }.installIndex index
        .returned installed.1 installed.2
      else .passed { s with indexed := { history with requested := none } }
    | .ok none => .passed { s with indexed := history }
    | .error message => .passed { s with indexed := { history with error := some message } }

def requestRanges (snapshot : HistorySnapshot) (blocks : List ℕ) (retry : Bool) : Flow :=
  match s.indexed.requestRanges snapshot blocks retry with
  | none => .returned s []
  | some history => .passed { s with indexed := history }

def rangeLoaded (snapshot : HistorySnapshot) (seq : BitVec 64) (start : ℕ)
    (result : Except String HistoryRange) : Option Flow :=
  if s.indexed.ignoresRange snapshot seq start then some (.returned s [])
  else
    let history := { s.indexed with pending := s.indexed.pending.erase start }
    (history.settle snapshot start result).map fun history =>
      .passed { s with indexed := history }

def handleIndexed (planner : Planner) : IndexedHistoryMsg → Option Flow
  | .retry => some { s with indexed := { s.indexed with requested := none } }.ensureIndex
  | .ensure => some s.ensureIndex
  | .publish index => some (.returned (s.publish index) [])
  | .select commitId mode projection =>
    let selected := s.indexedSelect planner commitId mode projection
    some (.returned selected.1 selected.2)
  | .requestRanges snapshot blocks retry => some (s.requestRanges snapshot blocks retry)
  | .progress seq progress => some (.passed (s.indexProgress seq progress))
  | .built seq result => some (s.indexBuilt seq result)
  | .rangeLoaded snapshot seq start result => s.rangeLoaded snapshot seq start result

def startMissingRanges : RepoState × List Effect :=
  match s.indexed.rangeIndex with
  | none => (s, [])
  | some index =>
    let started := IndexedHistoryState.startRanges s.id index s.indexed.desired s.indexed
    ({ s with indexed := started.1 }, started.2)

-- Nothing when an eviction loop has not ended.
def reduceIndexed (planner : Planner) (event : IndexedHistoryMsg) :
    Option (RepoState × List Effect) :=
  (s.handleIndexed planner event).map fun flow => match flow with
    | .returned s effects => (s, effects)
    | .passed s => s.startMissingRanges

end RepoState

end GitComet.Selection
