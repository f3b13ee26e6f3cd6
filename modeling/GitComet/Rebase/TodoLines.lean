import GitComet.Store.Commands
import GitComet.Text.Scan

namespace GitComet.Rebase
open List Store Text

inductive TodoLineRole where
  | editsOwnMessage | foldEditsMessage | foldSilent | transparent | other
  deriving DecidableEq

def toTodoStr : InteractiveRebaseAction → Chars
  | .pick => "pick".toList
  | .reword => "reword".toList
  | .squash => "squash".toList
  | .fixup => "fixup".toList
  | .drop => "drop".toList

def fromTodoWord (word : Chars) : Option InteractiveRebaseAction :=
  if word = "pick".toList ∨ word = ['p'] then some .pick
  else if word = "reword".toList ∨ word = ['r'] then some .reword
  else if word = "squash".toList ∨ word = ['s'] then some .squash
  else if word = "fixup".toList ∨ word = ['f'] then some .fixup
  else if word = "drop".toList ∨ word = ['d'] then some .drop
  else none

def todoLineCommitWord (line : Chars) : Option Chars :=
  match splitWhitespace line with
  | [] => none
  | _ :: words => words.find? fun word => !startsWith word ['-']

def todoLineRole (line : Chars) : TodoLineRole :=
  match splitWhitespace line with
  | [] => .transparent
  | first :: words =>
    if startsWith first ['#'] then .transparent
    else
      match fromTodoWord first with
      | some .reword => .editsOwnMessage
      | some .squash => .foldEditsMessage
      | some .fixup =>
        if words.head? = some ['-', 'c'] ∨ words.head? = some ['-', 'C'] then .foldEditsMessage
        else .foldSilent
      | some .drop => .transparent
      | some .pick => .other
      | none => if first = "merge".toList ∨ first = ['m'] then .editsOwnMessage else .other

def oneLine (summary : Chars) : Chars := summary.map fun ch => if ch = '\n' then ' ' else ch

def buildTodoLine (entry : InteractiveRebaseEntry) : Chars :=
  toTodoStr entry.action ++ ' ' :: (entry.commitId ++ ' ' :: oneLine entry.summary) ++ ['\n']

def buildTodoContent (entries : List InteractiveRebaseEntry) : Chars :=
  (entries.map buildTodoLine).flatten

def actionRole : InteractiveRebaseAction → TodoLineRole
  | .pick => .other
  | .reword => .editsOwnMessage
  | .squash => .foldEditsMessage
  | .fixup => .foldSilent
  | .drop => .transparent

def isHexDigit (c : Char) : Bool := c.isDigit || "abcdefABCDEF".toList.contains c

def HexId (id : CommitId) : Prop := id ≠ [] ∧ id.all isHexDigit = true

theorem hexDigit_solid {c : Char} (hc : isHexDigit c) :
    isWhitespace c = false ∧ c ≠ '-' := by
  have hletters : "abcdefABCDEF".toList.all (fun c => !isWhitespace c && c != '-') := by
    decide
  rw [isHexDigit, Bool.or_eq_true, contains_iff_mem] at hc
  rcases hc with hdigit | hletter
  · refine ⟨Text.digit_solid hdigit, ?_⟩
    rintro rfl
    cases hdigit
  · simpa using all_eq_true.mp hletters c hletter

variable {id : CommitId}

theorem hexId_solid (hid : HexId id) {c : Char} (hc : c ∈ id) : isWhitespace c = false :=
  (hexDigit_solid (all_eq_true.mp hid.2 c hc)).1

theorem toTodoStr_solid (action : InteractiveRebaseAction) :
    ∀ c ∈ toTodoStr action, isWhitespace c = false := by
  have hsolid : (toTodoStr action).all (fun c => !isWhitespace c) := by
    cases action <;> decide
  intro c hc
  simpa using all_eq_true.mp hsolid c hc

theorem toTodoStr_ne_nil (action : InteractiveRebaseAction) : toTodoStr action ≠ [] := by
  cases action <;> decide

theorem fromTodoWord_toTodoStr (action : InteractiveRebaseAction) :
    fromTodoWord (toTodoStr action) = some action := by
  cases action <;> decide

section

variable {sep : Char → Bool}

theorem wordsBy_cons {word : Chars} (hne : word ≠ []) (hword : ∀ c ∈ word, sep c = false)
    (hspace : sep ' ') (rest : Chars) :
    wordsBy sep (word ++ ' ' :: rest) = word :: wordsBy sep rest := by
  rw [wordsBy, splitOnP_append_cons_of_forall_mem hword ' ' hspace, filter_cons_of_pos,
    wordsBy]
  simpa using hne

theorem wordsBy_front {action : InteractiveRebaseAction}
    (haction : ∀ c ∈ toTodoStr action, sep c = false) (hne : id ≠ [])
    (hid : ∀ c ∈ id, sep c = false) (hspace : sep ' ') (rest : Chars) :
    wordsBy sep (toTodoStr action ++ ' ' :: (id ++ ' ' :: rest)) =
      toTodoStr action :: id :: wordsBy sep rest := by
  rw [wordsBy_cons (toTodoStr_ne_nil action) haction hspace, wordsBy_cons hne hid hspace]

end

theorem oneLine_unbroken (summary : Chars) : '\n' ∉ oneLine summary := by
  rw [oneLine, mem_map]
  rintro ⟨ch, _, hch⟩
  split at hch
  · cases hch
  · next hbreak => exact hbreak hch

theorem stripLineEnding_front (front summary : Chars) :
    ∃ rest, stripLineEnding (front ++ ' ' :: summary ++ ['\n']) = front ++ ' ' :: rest := by
  have hfeed : Text.stripSuffix '\n' (front ++ ' ' :: summary ++ ['\n']) =
      some (front ++ ' ' :: summary) := by
    rw [Text.stripSuffix, getLast?_concat, if_pos rfl, dropLast_concat]
  rw [stripLineEnding, hfeed]
  rcases eq_nil_or_concat summary with rfl | ⟨summary, c, rfl⟩
  · have hkept : Text.stripSuffix '\r' (front ++ [' ']) = none := by
      rw [Text.stripSuffix, getLast?_concat, if_neg (by decide)]
    exact ⟨[], by simp only [hkept]⟩
  · have hlast : front ++ ' ' :: summary.concat c = front ++ ' ' :: summary ++ [c] := by simp
    by_cases hreturn : c = '\r'
    · have hcut : Text.stripSuffix '\r' (front ++ ' ' :: summary.concat c) =
          some (front ++ ' ' :: summary) := by
        rw [hlast, hreturn, Text.stripSuffix, getLast?_concat, if_pos rfl,
          dropLast_concat]
      exact ⟨summary, by simp only [hcut]⟩
    · have hkept : Text.stripSuffix '\r' (front ++ ' ' :: summary.concat c) = none := by
        rw [hlast, Text.stripSuffix, getLast?_concat, if_neg (by simpa using hreturn)]
      exact ⟨summary.concat c, by simp only [hkept]⟩

theorem buildTodoLine_full (entry : InteractiveRebaseEntry) (hid : HexId entry.commitId) :
    FullLine (buildTodoLine entry) := by
  refine ⟨_, rfl, ?_⟩
  intro hfeed
  rcases mem_append.mp hfeed with haction | hfeed
  · exact absurd (toTodoStr_solid entry.action _ haction) (by decide)
  · rcases mem_cons.mp hfeed with hspace | hfeed
    · exact absurd hspace (by decide)
    · rcases mem_append.mp hfeed with hid' | hfeed
      · exact absurd (hexId_solid hid hid') (by decide)
      · rcases mem_cons.mp hfeed with hspace | hfeed
        · exact absurd hspace (by decide)
        · exact oneLine_unbroken entry.summary hfeed

theorem splitLines_todo {entries : List InteractiveRebaseEntry}
    (hids : ∀ entry ∈ entries, HexId entry.commitId) :
    splitLines (buildTodoContent entries) =
      entries.map fun entry => stripLineEnding (buildTodoLine entry) := by
  have hfull : ∀ line ∈ entries.map buildTodoLine, FullLine line := by
    intro line hline
    obtain ⟨entry, hentry, rfl⟩ := mem_map.mp hline
    exact buildTodoLine_full entry (hids entry hentry)
  rw [splitLines, buildTodoContent, Text.splitInclusive_lines hfull, map_map]
  rfl

theorem todoLine_front (entry : InteractiveRebaseEntry) :
    ∃ rest, stripLineEnding (buildTodoLine entry) =
      toTodoStr entry.action ++ ' ' :: (entry.commitId ++ ' ' :: rest) := by
  obtain ⟨rest, hrest⟩ := stripLineEnding_front
    (toTodoStr entry.action ++ ' ' :: entry.commitId) (oneLine entry.summary)
  refine ⟨rest, ?_⟩
  simpa [buildTodoLine, oneLine] using hrest

variable {entry : InteractiveRebaseEntry}

theorem todoLine_words {sep : Char → Bool} (hsep : ∀ c, isWhitespace c = false → sep c = false)
    (hspace : sep ' ') (hid : HexId entry.commitId) :
    ∃ rest, wordsBy sep (stripLineEnding (buildTodoLine entry)) =
      toTodoStr entry.action :: entry.commitId :: rest := by
  obtain ⟨rest, hrest⟩ := todoLine_front entry
  refine ⟨wordsBy sep rest, ?_⟩
  rw [hrest]
  exact wordsBy_front (fun c hc => hsep c (toTodoStr_solid entry.action c hc)) hid.1
    (fun c hc => hsep c (hexId_solid hid hc)) hspace rest

theorem hexId_plain (hid : HexId id) : startsWith id ['-'] = false := by
  obtain ⟨hne, hhex⟩ := hid
  cases id with
  | nil => exact absurd rfl hne
  | cons c id =>
    have hdash : c ≠ '-' := (hexDigit_solid (all_eq_true.mp hhex c mem_cons_self)).2
    simp [startsWith, isPrefixOf, Ne.symm hdash]

theorem todoLine_commitWord (hid : HexId entry.commitId) :
    todoLineCommitWord (stripLineEnding (buildTodoLine entry)) = some entry.commitId := by
  obtain ⟨rest, hwords⟩ := todoLine_words (fun _ hc => hc) rfl hid
  simp only [todoLineCommitWord, splitWhitespace, hwords]
  exact find?_cons_of_pos (by simp [hexId_plain hid])

theorem todoLine_role (hid : HexId entry.commitId) :
    todoLineRole (stripLineEnding (buildTodoLine entry)) = actionRole entry.action := by
  obtain ⟨rest, hwords⟩ := todoLine_words (fun _ hc => hc) rfl hid
  have hplain := hexId_plain hid
  have hhash : startsWith (toTodoStr entry.action) ['#'] = false := by
    cases entry.action <;> decide
  simp only [todoLineRole, splitWhitespace, hwords, hhash, fromTodoWord_toTodoStr,
    Bool.false_eq_true, if_false]
  cases haction : entry.action with
  | fixup =>
    refine if_neg ?_
    rintro (hoption | hoption) <;> rw [head?_cons, Option.some_inj] at hoption <;>
      rw [hoption] at hplain <;> cases hplain
  | _ => rfl

end GitComet.Rebase

namespace GitComet.Rebase
open Store Text

structure StateFile where
  text : Chars
  readable : Bool
  deriving DecidableEq

def readToString (file : Option StateFile) : Option Chars :=
  file.bind fun file => if file.readable then some file.text else none

structure RewordDir where
  editor : Bool
  messages : Bool
  plan : Option StateFile
  deriving DecidableEq

structure RebaseMerge where
  todo : Option StateFile
  done : Option StateFile
  reword : Option RewordDir
  deriving DecidableEq

inductive PersistedReword where
  | absent
  | ready (plan : StateFile)
  | damaged
  deriving DecidableEq

def persistedRewordState (dir : RebaseMerge) : PersistedReword :=
  match dir.reword with
  | none => .absent
  | some state =>
    match state.plan with
    | some plan => if state.editor && state.messages then .ready plan else .damaged
    | none => .damaged

def editsMessage (line : Chars) : Bool :=
  todoLineRole line = .editsOwnMessage || todoLineRole line = .foldEditsMessage

def plannedIds (planContent : Chars) : List Chars :=
  ((splitLines planContent).filter editsMessage).filterMap todoLineCommitWord

def unplannedLine (planned : List Chars) (line : Chars) : Bool :=
  match todoLineCommitWord line with
  | some id => !planned.any fun p => startsWith p id || startsWith id p
  | none => true

def rebaseUnplannedMessageEdit (dir : RebaseMerge) (plan : StateFile) : Bool :=
  match readToString (some plan) with
  | none => true
  | some planContent =>
    match readToString dir.todo with
    | none => false
    | some todo =>
      ((splitLines todo).filter editsMessage).any (unplannedLine (plannedIds planContent))

def pendingInDone (stepsBack : ℕ) : List Chars → Bool
  | [] => false
  | line :: lines =>
    match todoLineRole line with
    | .editsOwnMessage => stepsBack = 0
    | .foldEditsMessage => true
    | .foldSilent | .transparent => pendingInDone (stepsBack + 1) lines
    | .other => false

def rebasePendingMessageEdit (dir : RebaseMerge) : Bool :=
  ((readToString dir.todo).any fun todo => (splitLines todo).any editsMessage) ||
    (readToString dir.done).any fun done => pendingInDone 0 (splitLines done).reverse

inductive SequencerState where
  | none | rebaseOrApply | cherryPick | revert
  deriving DecidableEq

inductive ContinueEditor where
  | persisted | noop
  deriving DecidableEq

inductive Continued where
  | revert
  | applyMailbox
  | rebase (editor : ContinueEditor)
  | refusedUnplanned
  | refusedDamaged
  deriving DecidableEq

def rebaseContinue (sequencer : SequencerState) (applyMailbox : Bool) (dir : RebaseMerge) :
    Continued :=
  if sequencer = .revert then .revert
  else if applyMailbox then .applyMailbox
  else
    match persistedRewordState dir with
    | .ready plan =>
      if rebaseUnplannedMessageEdit dir plan then .refusedUnplanned else .rebase .persisted
    | .damaged => .refusedDamaged
    | .absent => if rebasePendingMessageEdit dir then .refusedUnplanned else .rebase .noop

end GitComet.Rebase
