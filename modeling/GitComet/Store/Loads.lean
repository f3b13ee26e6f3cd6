import Mathlib.Data.BitVec

namespace GitComet.Store

inductive HistoryMode where
  | fullReachable | firstParent | noMerges | mergesOnly | allBranches
  deriving DecidableEq

abbrev LogScope := HistoryMode

structure LogCursor where
  lastSeen : List Char
  resumeFrom : Option (List Char)
  resumeToken : Option (List Char)
  deriving DecidableEq

structure PendingLogLoad where
  scope : LogScope
  author : Option (List Char)
  limit : ℕ
  cursor : Option LogCursor
  deriving DecidableEq

abbrev LogLoadSeq := BitVec 64
abbrev LineStatsGeneration := BitVec 64

structure RepoLoadsInFlight where
  inFlight : BitVec 32
  pending : BitVec 32
  pendingLog : Option PendingLogLoad
  activeLog : Option (LogLoadSeq × PendingLogLoad)
  lastLogSeq : LogLoadSeq
  lineStatsGeneration : LineStatsGeneration
  activeLineStats : Option LineStatsGeneration
  lineStatsRequested : Bool
  deriving DecidableEq

namespace RepoLoadsInFlight

def default : RepoLoadsInFlight := ⟨0, 0, none, none, 0, 0, none, false⟩

def headBranch : BitVec 32 := 1 <<< 0
def upstreamDivergence : BitVec 32 := 1 <<< 1
def branches : BitVec 32 := 1 <<< 2
def tags : BitVec 32 := 1 <<< 3
def remotes : BitVec 32 := 1 <<< 4
def remoteBranches : BitVec 32 := 1 <<< 5
def worktreeStatus : BitVec 32 := 1 <<< 6
def stagedStatus : BitVec 32 := 1 <<< 7
def stashes : BitVec 32 := 1 <<< 8
def reflog : BitVec 32 := 1 <<< 9
def rebaseState : BitVec 32 := 1 <<< 10
def log : BitVec 32 := 1 <<< 11
def mergeCommitMessage : BitVec 32 := 1 <<< 12
def remoteTags : BitVec 32 := 1 <<< 13
def worktrees : BitVec 32 := 1 <<< 14
def submodules : BitVec 32 := 1 <<< 15
def refMetadata : BitVec 32 := 1 <<< 16
def worktreeDirty : BitVec 32 := 1 <<< 17
def fileBrowser : BitVec 32 := 1 <<< 18
def uncommittedLineStats : BitVec 32 := 1 <<< 19

def primaryRefreshFlags : BitVec 32 :=
  headBranch ||| upstreamDivergence ||| rebaseState ||| mergeCommitMessage ||| worktreeStatus |||
    stagedStatus ||| log

variable (loads : RepoLoadsInFlight)

def isInFlight (flag : BitVec 32) : Bool := loads.inFlight &&& flag != 0

def clear : RepoLoadsInFlight :=
  { loads with
    inFlight := 0
    pending := 0
    pendingLog := none
    activeLog := none
    lineStatsGeneration := loads.lineStatsGeneration + 1
    activeLineStats := none
    lineStatsRequested := false }

def invalidateLineStats : RepoLoadsInFlight :=
  { loads with
    lineStatsGeneration := loads.lineStatsGeneration + 1
    lineStatsRequested := true }

def startLineStats (statusReady : Bool) : RepoLoadsInFlight × Option LineStatsGeneration :=
  if loads.isInFlight (worktreeStatus ||| stagedStatus) || loads.activeLineStats.isSome ||
      !loads.lineStatsRequested then (loads, none)
  else if !statusReady then ({ loads with lineStatsRequested := false }, none)
  else
    ({ loads with
       lineStatsRequested := false
       inFlight := loads.inFlight ||| uncommittedLineStats
       activeLineStats := some loads.lineStatsGeneration }, some loads.lineStatsGeneration)

def finishLineStats (generation : LineStatsGeneration) : RepoLoadsInFlight × Bool :=
  if loads.activeLineStats != some generation then (loads, false)
  else
    ({ loads with
       activeLineStats := none
       inFlight := loads.inFlight &&& ~~~uncommittedLineStats },
      generation == loads.lineStatsGeneration)

def startLog (load : PendingLogLoad) : RepoLoadsInFlight × LogLoadSeq :=
  let seq := loads.lastLogSeq + 1
  ({ loads with lastLogSeq := seq, activeLog := some (seq, load) }, seq)

def requestPrimaryRefreshBatch (load : PendingLogLoad) : RepoLoadsInFlight × Option LogLoadSeq :=
  if loads.inFlight == 0 && loads.pending == 0 && loads.pendingLog.isNone then
    let started := startLog { loads with inFlight := loads.inFlight ||| primaryRefreshFlags } load
    (started.1, some started.2)
  else (loads, none)

def request (flag : BitVec 32) : RepoLoadsInFlight × Bool :=
  if loads.isInFlight flag then ({ loads with pending := loads.pending ||| flag }, false)
  else ({ loads with inFlight := loads.inFlight ||| flag }, true)

def finish (flag : BitVec 32) : RepoLoadsInFlight × Bool :=
  let inFlight := loads.inFlight &&& ~~~flag
  if loads.pending &&& flag != 0 then
    ({ loads with inFlight := inFlight ||| flag, pending := loads.pending &&& ~~~flag }, true)
  else ({ loads with inFlight := inFlight }, false)

def supersedesActive (next : PendingLogLoad) : Bool :=
  match loads.activeLog with
  | none => true
  | some (_, active) => active.scope != next.scope || active.author != next.author

def queueLog (next : PendingLogLoad) : Option PendingLogLoad :=
  match loads.pendingLog with
  | none => some next
  | some existing =>
    if existing.scope != next.scope || existing.author != next.author then some next
    else if existing.cursor.isNone && next.cursor.isSome then some existing
    else some next

def requestLog (next : PendingLogLoad) : RepoLoadsInFlight × Option LogLoadSeq :=
  if !loads.isInFlight log then
    let started := startLog { loads with inFlight := loads.inFlight ||| log } next
    (started.1, some started.2)
  else if loads.supersedesActive next then
    let started := startLog { loads with pendingLog := none } next
    (started.1, some started.2)
  else ({ loads with pendingLog := loads.queueLog next }, none)

def isActiveLogReply (seq : LogLoadSeq) : Bool :=
  match loads.activeLog with
  | none => false
  | some (active, _) => active == seq

def finishLog (prepare : PendingLogLoad → PendingLogLoad) :
    RepoLoadsInFlight × Option (LogLoadSeq × PendingLogLoad) :=
  let idle := { loads with inFlight := loads.inFlight &&& ~~~log, activeLog := none }
  match loads.pendingLog with
  | none => (idle, none)
  | some waiting =>
    let next := prepare waiting
    let started := startLog { idle with inFlight := idle.inFlight ||| log, pendingLog := none } next
    (started.1, some (started.2, next))

end RepoLoadsInFlight

end GitComet.Store
