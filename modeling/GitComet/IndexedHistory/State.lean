import GitComet.Basis.RecentCache
import GitComet.History.Index
import GitComet.Loading.State
import GitComet.Text.Hex

namespace GitComet.IndexedHistory
open ByteOrder RecentCache Text Loading
open Store (LogScope)

abbrev HistorySnapshot := String

structure Commit where
  id : CommitId
  parentIds : List CommitId
  deriving DecidableEq

def historyBlockSize : ℕ := 256

def historyRowCacheLimit : ℕ := 8192

def cachedBlocks : ℕ := historyRowCacheLimit / historyBlockSize

structure HistoryIndexHandle where
  address : ℕ
  snapshot : HistorySnapshot
  table : History.HistoryIndex

namespace HistoryIndexHandle
variable (index : HistoryIndexHandle)

def ptrEq (other : HistoryIndexHandle) : Bool := index.address == other.address

def len : ℕ := index.table.len

def commitId (row : ℕ) : Option CommitId :=
  (index.table.idBytes row).map fun bytes => String.ofList (Hex.encode bytes)

-- The tables that the builder makes are never read out of range.
def position (id : CommitId) : Option ℕ :=
  if id.length ≠ index.table.hashLen * 2 then none
  else (Hex.decode id.toList).bind fun bytes => (index.table.positionBytes bytes).join

def parentCommitId (row parent : ℕ) : Option CommitId :=
  (index.table.parentIdBytes row parent).join.map fun bytes => String.ofList (Hex.encode bytes)

def rowMatchesHexId (row : ℕ) (id : CommitId) : Bool :=
  (index.table.idBytes row).any fun bytes => Hex.matchesHex bytes id.toList

end HistoryIndexHandle

structure HistoryIndexProgress where
  scanned : BitVec 64
  matched : BitVec 64
  deriving DecidableEq

structure HistoryRange where
  snapshot : HistorySnapshot
  start : ℕ
  commits : List Commit

structure IndexedHistoryState where
  index : Option HistoryIndexHandle
  displayedIndex : Option HistoryIndexHandle
  rangeIndex : Option HistoryIndexHandle
  requested : Option HistorySnapshot
  loading : Bool
  progress : Option HistoryIndexProgress
  error : Option String
  ranges : Entries ℕ HistoryRange
  rangeErrors : Entries ℕ String
  epoch : BitVec 64
  seq : BitVec 64
  desired : List ℕ
  pending : Entries ℕ (BitVec 64)
  rangeSeq : BitVec 64
  lru : List ℕ

namespace IndexedHistoryState

def default : IndexedHistoryState where
  index := none
  displayedIndex := none
  rangeIndex := none
  requested := none
  loading := false
  progress := none
  error := none
  ranges := ∅
  rangeErrors := ∅
  epoch := 0
  seq := 0
  desired := []
  pending := ∅
  rangeSeq := 0
  lru := []

variable (s : IndexedHistoryState)

def blockOf (row : ℕ) : ℕ := row / historyBlockSize * historyBlockSize

def commit (snapshot : HistorySnapshot) (row : ℕ) : Option Commit :=
  if s.rangeIndex.all fun index => index.snapshot != snapshot then none
  else (s.ranges.lookup (blockOf row)).bind fun range => range.commits[row - blockOf row]?

def cancel : IndexedHistoryState := { s with pending := ∅ }

def resetQuery : IndexedHistoryState :=
  { default with seq := s.cancel.seq + 1, rangeSeq := s.cancel.rangeSeq + 1 }

end IndexedHistoryState

inductive IndexedHistoryEffect where
  | build (repoId : RepoId) (seq : BitVec 64) (mode : LogScope) (author : Option (List Char))
  | range (repoId : RepoId) (seq : BitVec 64) (index : HistoryIndexHandle) (start : ℕ)

end GitComet.IndexedHistory
