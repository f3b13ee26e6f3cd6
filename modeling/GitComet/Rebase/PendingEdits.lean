import GitComet.Rebase.TodoLines

namespace GitComet.Rebase
open List Store Text Option

def fileLines (file : Option StateFile) : List Chars :=
  (file.map fun file => splitLines file.text).getD []

def readLines (file : Option StateFile) : List Chars :=
  ((readToString file).map splitLines).getD []

def foldLine (line : Chars) : Bool :=
  match todoLineRole line with
  | .foldEditsMessage | .foldSilent | .transparent => true
  | .editsOwnMessage | .other => false

def pausedRun (done : List Chars) : List Chars := done.reverse.takeWhile foldLine

def pausedEdits (done : List Chars) : List Chars :=
  (done.getLast?.filter fun line => todoLineRole line = .editsOwnMessage).toList ++
    (pausedRun done).filter fun line => todoLineRole line = .foldEditsMessage

def openEdits (todo done : List Chars) : List Chars := todo.filter editsMessage ++ pausedEdits done

def SameCommit (word word' : Chars) : Prop := word <+: word' ∨ word' <+: word

structure Abbreviates (objects : Set CommitId) (word : Chars) (id : CommitId) : Prop where
  stored : id ∈ objects
  isPrefix : word <+: id
  unique : ∀ other ∈ objects, word <+: other → other = id

def PlannedEdit (plan : List Chars) (line : Chars) : Prop :=
  ∃ id, todoLineCommitWord line = some id ∧
    ∃ step ∈ plan, editsMessage step = true ∧
      ∃ planned, todoLineCommitWord step = some planned ∧ SameCommit planned id

structure NoSilentEdit (dir : RebaseMerge) (continued : Continued) : Prop where
  planned : continued = .rebase .persisted →
    ∃ plan, persistedRewordState dir = .ready plan ∧
      ∀ line ∈ openEdits (fileLines dir.todo) (fileLines dir.done),
        PlannedEdit (splitLines plan.text) line
  damaged : persistedRewordState dir = .damaged →
    openEdits (fileLines dir.todo) (fileLines dir.done) ≠ [] →
    ∀ editor, continued ≠ .rebase editor
  absent : persistedRewordState dir = .absent → ∀ editor, continued = .rebase editor →
    openEdits (fileLines dir.todo) (fileLines dir.done) = []

theorem unplannedLine_eq_false {planContent line : Chars} :
    unplannedLine (plannedIds planContent) line = false ↔
      PlannedEdit (splitLines planContent) line := by
  have hany : ∀ id, ((plannedIds planContent).any fun p => startsWith p id || startsWith id p) ↔
      ∃ step ∈ splitLines planContent, editsMessage step ∧
        ∃ planned, todoLineCommitWord step = some planned ∧ SameCommit planned id := by
    intro id
    simp only [plannedIds, List.any_eq_true, mem_filterMap, mem_filter, SameCommit,
      startsWith, Bool.or_eq_true, isPrefixOf_iff_prefix]
    constructor
    · rintro ⟨planned, ⟨step, ⟨hstep, hedits⟩, hword⟩, hsame⟩
      exact ⟨step, hstep, hedits, planned, hword, hsame.symm⟩
    · rintro ⟨step, hstep, hedits, planned, hword, hsame⟩
      exact ⟨planned, ⟨step, ⟨hstep, hedits⟩, hword⟩, hsame.symm⟩
  rw [unplannedLine, PlannedEdit]
  cases todoLineCommitWord line with
  | none => simp
  | some id => simp only [Bool.not_eq_false', hany, some.injEq, exists_eq_left']

theorem readLines_unreadable {file : Option StateFile} (hfile : readToString file = none) :
    readLines file = [] := by
  rw [readLines, hfile]
  rfl

theorem readLines_read {file : Option StateFile} {text : Chars}
    (hfile : readToString file = some text) : readLines file = splitLines text := by
  rw [readLines, hfile]
  rfl

variable {dir : RebaseMerge} {plan : StateFile}

theorem unplanned_eq_false_iff :
    rebaseUnplannedMessageEdit dir plan = false ↔ plan.readable ∧
      ∀ line ∈ (readLines dir.todo).filter editsMessage,
        PlannedEdit (splitLines plan.text) line := by
  cases hreadable : plan.readable with
  | false =>
    have hplan : readToString (some plan) = none := by simp [readToString, hreadable]
    simp [rebaseUnplannedMessageEdit, hplan]
  | true =>
    have hplan : readToString (some plan) = some plan.text := by simp [readToString, hreadable]
    cases htodo : readToString dir.todo with
    | none => simp [rebaseUnplannedMessageEdit, hplan, htodo, readLines_unreadable htodo]
    | some todo =>
      simp only [rebaseUnplannedMessageEdit, hplan, htodo, readLines_read htodo,
        List.any_eq_false, Bool.not_eq_true, unplannedLine_eq_false, true_and]

theorem pendingInDone_succ (steps : ℕ) (lines : List Chars) :
    pendingInDone (steps + 1) lines ↔
      (lines.takeWhile foldLine).filter (fun line => todoLineRole line = .foldEditsMessage) ≠
        [] := by
  induction lines generalizing steps with
  | nil => simp [pendingInDone]
  | cons line lines ih =>
    rw [pendingInDone]
    cases hrole : todoLineRole line with
    | editsOwnMessage | other => simp [foldLine, hrole]
    | foldEditsMessage => simp [foldLine, hrole]
    | foldSilent | transparent => simpa [foldLine, hrole] using ih (steps + 1)

theorem pendingInDone_iff (done : List Chars) :
    pendingInDone 0 done.reverse ↔ pausedEdits done ≠ [] := by
  rw [pausedEdits, pausedRun, getLast?_eq_head?_reverse]
  cases done.reverse with
  | nil => simp [pendingInDone]
  | cons line lines =>
    rw [pendingInDone]
    cases hrole : todoLineRole line with
    | editsOwnMessage | other => simp [foldLine, hrole]
    | foldEditsMessage => simp [foldLine, hrole]
    | foldSilent | transparent => simpa [foldLine, hrole] using pendingInDone_succ 0 lines

theorem pending_eq_false_iff :
    rebasePendingMessageEdit dir = false ↔
      openEdits (readLines dir.todo) (readLines dir.done) = [] := by
  have htodo : ((readToString dir.todo).any fun todo => (splitLines todo).any editsMessage) =
      false ↔ (readLines dir.todo).filter editsMessage = [] := by
    cases hread : readToString dir.todo with
    | none => simp [readLines_unreadable hread]
    | some todo => simp [readLines_read hread, filter_eq_nil_iff]
  have hdone : ((readToString dir.done).any fun done =>
      pendingInDone 0 (splitLines done).reverse) = false ↔
        pausedEdits (readLines dir.done) = [] := by
    cases hread : readToString dir.done with
    | none => simp [readLines_unreadable hread, pausedEdits, pausedRun]
    | some done =>
      rw [readLines_read hread, any_some, ← Bool.not_eq_true, pendingInDone_iff, not_not]
  rw [rebasePendingMessageEdit, Bool.or_eq_false_iff, htodo, hdone, openEdits,
    append_eq_nil_iff]

def unreadLines (file : Option StateFile) : List Chars :=
  if (readToString file).isNone then fileLines file else []

theorem fileLines_cases (file : Option StateFile) :
    fileLines file = readLines file ∧ unreadLines file = [] ∨
      fileLines file = unreadLines file ∧ readLines file = [] := by
  cases hread : readToString file with
  | none => exact .inr ⟨by rw [unreadLines, hread]; rfl, readLines_unreadable hread⟩
  | some text =>
    refine .inl ⟨?_, by rw [unreadLines, hread]; rfl⟩
    cases file with
    | none => cases hread
    | some file =>
      rw [readLines, hread]
      rw [readToString, bind_some] at hread
      split_ifs at hread
      rw [fileLines, map_some, getD_some, some.inj hread]
      rfl

theorem mem_fileLines (file : Option StateFile) {line : Chars} :
    line ∈ fileLines file ↔ line ∈ readLines file ∨ line ∈ unreadLines file := by
  rcases fileLines_cases file with ⟨hlines, hnone⟩ | ⟨hlines, hnone⟩ <;> simp [hlines, hnone]

def EditsSeen (dir : RebaseMerge) : Prop :=
  match persistedRewordState dir with
  | .damaged => True
  | .ready plan => plan.readable = true →
    (∀ line ∈ (readLines dir.todo).filter editsMessage, PlannedEdit (splitLines plan.text) line) →
    ∀ line ∈ openEdits (unreadLines dir.todo) (fileLines dir.done),
      PlannedEdit (splitLines plan.text) line
  | .absent => openEdits (readLines dir.todo) (readLines dir.done) = [] →
    openEdits (unreadLines dir.todo) (unreadLines dir.done) = []

theorem rebaseContinue_ready
    (hready : persistedRewordState dir = .ready plan) {sequencer : SequencerState}
    (hsequencer : sequencer ≠ .revert) : rebaseContinue sequencer false dir =
      if rebaseUnplannedMessageEdit dir plan then .refusedUnplanned else .rebase .persisted := by
  rw [rebaseContinue, if_neg hsequencer, if_neg Bool.false_ne_true, hready]

theorem rebaseContinue_absent
    (habsent : persistedRewordState dir = .absent) {sequencer : SequencerState}
    (hsequencer : sequencer ≠ .revert) : rebaseContinue sequencer false dir =
      if rebasePendingMessageEdit dir then .refusedUnplanned else .rebase .noop := by
  rw [rebaseContinue, if_neg hsequencer, if_neg Bool.false_ne_true, habsent]

theorem rebaseContinue_damaged (hdamaged : persistedRewordState dir = .damaged)
    (sequencer : SequencerState) (applyMailbox : Bool) (editor : ContinueEditor) :
    rebaseContinue sequencer applyMailbox dir ≠ .rebase editor := by
  rw [rebaseContinue, hdamaged]
  split_ifs <;> exact fun hgoes => by cases hgoes

theorem noSilentEdit_of_stays {continued : Continued}
    (hstays : ∀ editor, continued ≠ .rebase editor) : NoSilentEdit dir continued where
  planned := fun hgoes => absurd hgoes (hstays .persisted)
  damaged := fun _ _ => hstays
  absent := fun _ editor hgoes => absurd hgoes (hstays editor)

theorem noSilentEdit_ready
    (hready : persistedRewordState dir = .ready plan) (editor : ContinueEditor) :
    NoSilentEdit dir (.rebase editor) ↔ (editor = .persisted →
      ∀ line ∈ openEdits (fileLines dir.todo) (fileLines dir.done),
        PlannedEdit (splitLines plan.text) line) := by
  constructor
  · rintro hsilent rfl
    obtain ⟨other, hother, hplanned⟩ := hsilent.planned rfl
    rw [hready] at hother
    cases hother
    exact hplanned
  · intro hplanned
    refine ⟨fun hgoes => ⟨plan, hready, hplanned (by cases hgoes; rfl)⟩, ?_, ?_⟩
    · intro hdamaged
      rw [hready] at hdamaged
      cases hdamaged
    · intro habsent
      rw [hready] at habsent
      cases habsent

theorem noSilentEdit_absent (habsent : persistedRewordState dir = .absent) :
    NoSilentEdit dir (.rebase .noop) ↔
      openEdits (fileLines dir.todo) (fileLines dir.done) = [] := by
  constructor
  · intro hsilent
    exact hsilent.absent habsent .noop rfl
  · intro hnone
    refine ⟨fun hgoes => (by cases hgoes), ?_, fun _ _ _ => hnone⟩
    intro hdamaged
    rw [habsent] at hdamaged
    cases hdamaged

theorem openEdits_planned_iff {P : Chars → Prop}
    (hread : ∀ line ∈ (readLines dir.todo).filter editsMessage, P line) :
    (∀ line ∈ openEdits (fileLines dir.todo) (fileLines dir.done), P line) ↔
      ∀ line ∈ openEdits (unreadLines dir.todo) (fileLines dir.done), P line := by
  simp only [openEdits, mem_append, mem_filter, mem_fileLines dir.todo] at hread ⊢
  constructor
  · rintro hall line (⟨hunread, hedits⟩ | hpaused)
    · exact hall line (.inl ⟨.inr hunread, hedits⟩)
    · exact hall line (.inr hpaused)
  · rintro hall line (⟨hseen | hunread, hedits⟩ | hpaused)
    · exact hread line ⟨hseen, hedits⟩
    · exact hall line (.inl ⟨hunread, hedits⟩)
    · exact hall line (.inr hpaused)

theorem openEdits_absent_iff (hread : openEdits (readLines dir.todo) (readLines dir.done) = []) :
    openEdits (fileLines dir.todo) (fileLines dir.done) = [] ↔
      openEdits (unreadLines dir.todo) (unreadLines dir.done) = [] := by
  have hnothing : pausedEdits [] = [] := rfl
  simp only [openEdits, append_eq_nil_iff] at hread ⊢
  rcases fileLines_cases dir.todo with ⟨htodo, hnone⟩ | ⟨htodo, -⟩ <;>
    rcases fileLines_cases dir.done with ⟨hdone, hnone'⟩ | ⟨hdone, -⟩ <;>
      simp only [filter_nil, true_and, and_true, *]

def pausedOnEditedStep : RebaseMerge where
  todo := some ⟨"reword b2 t\n".toList, true⟩
  done := some ⟨"reword a1 s\n".toList, true⟩
  reword := some ⟨true, true, some ⟨"pick a1 s\nreword b2 t\n".toList, true⟩⟩

end GitComet.Rebase
