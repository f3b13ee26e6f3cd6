import GitComet.Text.Scan

namespace GitComet.LogPages
open Text List

abbrev ObjectId := ℕ
abbrev Bytes := List UInt8

inductive HistoryMode where
  | fullReachable | firstParent | noMerges | mergesOnly | allBranches
  deriving DecidableEq

structure Commit where
  id : ObjectId
  parentIds : List ObjectId
  author : Option Bytes
  deriving DecidableEq

def modeIncludes (mode : HistoryMode) (parentCount : ℕ) : Bool :=
  match mode with
  | .fullReachable | .firstParent | .allBranches => true
  | .noMerges => parentCount < 2
  | .mergesOnly => parentCount > 1

def toAsciiLowercase (c : UInt8) : UInt8 := if 65 ≤ c ∧ c ≤ 90 then c + 32 else c

def eqIgnoreAsciiCase (a b : Bytes) : Bool :=
  a.map toAsciiLowercase = b.map toAsciiLowercase

def utf8 (text : List Char) : Bytes := text.flatMap String.utf8EncodeChar

structure AuthorFilter where
  needle : Bytes
  deriving DecidableEq

namespace AuthorFilter

def new (author : Option (List Char)) : Option AuthorFilter :=
  author.bind fun author =>
    if (trim author).isEmpty then none
    else some ⟨(utf8 (trim author)).map toAsciiLowercase⟩

def isMatch (filter : AuthorFilter) (name : Bytes) : Bool :=
  filter.needle.length ≤ name.length &&
    (range (name.length + 1 - filter.needle.length)).any fun start =>
      eqIgnoreAsciiCase ((name.drop start).take filter.needle.length) filter.needle

end AuthorFilter

structure LogCursor where
  lastSeen : ObjectId
  resumeFrom : Option ObjectId
  resumeToken : Option ℕ
  deriving DecidableEq

structure LogPage where
  commits : List Commit
  nextCursor : Option LogCursor
  deriving DecidableEq

def emptyLogPage : LogPage := ⟨[], none⟩

structure CursorGate where
  lastSeen : Option ObjectId
  started : Bool
  deriving DecidableEq

namespace CursorGate

def new (cursor : Option LogCursor) : CursorGate := ⟨cursor.map (·.lastSeen), cursor.isNone⟩

def shouldSkip (gate : CursorGate) (id : ObjectId) : CursorGate × Bool :=
  if gate.started then (gate, false)
  else
    match gate.lastSeen with
    | none => ({ gate with started := true }, false)
    | some lastSeen => if lastSeen = id then ({ gate with started := true }, true) else (gate, true)

def opened : CursorGate := ⟨none, true⟩

def passed (gate : CursorGate) : List Commit → List Commit
  | [] => []
  | commit :: walk =>
    let skipped := gate.shouldSkip commit.id
    if skipped.2 then skipped.1.passed walk else commit :: skipped.1.passed walk

variable {gate : CursorGate}

theorem passed_started (hgate : gate.started) (walk : List Commit) :
    gate.passed walk = walk := by
  induction walk with
  | nil => rfl
  | cons commit walk ih => simp [passed, shouldSkip, hgate, ih]

variable {commit : Commit}

theorem passed_skip (hskip : (gate.shouldSkip commit.id).2) (walk : List Commit) :
    gate.passed (commit :: walk) = (gate.shouldSkip commit.id).1.passed walk := by
  rw [passed, if_pos hskip]

theorem passed_keep (hskip : (gate.shouldSkip commit.id).2 = false) (walk : List Commit) :
    gate.passed (commit :: walk) = commit :: (gate.shouldSkip commit.id).1.passed walk := by
  rw [passed, hskip, if_neg Bool.false_ne_true]

theorem started_keeps (hgate : gate.started) (id : ObjectId) :
    (gate.shouldSkip id).2 = false := by
  rw [shouldSkip, if_pos hgate]

theorem keep_started {id : ObjectId}
    (hskip : (gate.shouldSkip id).2 = false) : (gate.shouldSkip id).1.started := by
  rw [shouldSkip] at hskip ⊢
  split_ifs at hskip ⊢ with hstarted
  · exact hstarted
  · cases hseen : gate.lastSeen with
    | none => rfl
    | some lastSeen =>
      simp only [hseen] at hskip
      split_ifs at hskip

theorem passed_cursor {cursor : LogCursor} {before after : List Commit}
    (hbefore : ∀ other ∈ before, other.id ≠ cursor.lastSeen)
    (hcommit : commit.id = cursor.lastSeen) :
    (new (some cursor)).passed (before ++ commit :: after) = after := by
  induction before with
  | nil =>
    have hskip : (new (some cursor)).shouldSkip commit.id =
        (⟨some cursor.lastSeen, true⟩, true) := by
      simp [new, shouldSkip, hcommit]
    rw [nil_append, passed_skip (by rw [hskip]), hskip]
    exact passed_started rfl after
  | cons other before ih =>
    have hother : other.id ≠ cursor.lastSeen := hbefore other mem_cons_self
    have hskip : ((new (some cursor)).shouldSkip other.id) = (new (some cursor), true) := by
      simp [new, shouldSkip, Ne.symm hother]
    rw [cons_append, passed_skip (by rw [hskip]), hskip]
    exact ih fun other hmem => hbefore other (mem_cons_of_mem _ hmem)

end CursorGate

end GitComet.LogPages
