import GitComet.Rebase.TodoLines

variable {entry : InteractiveRebaseEntry} {entries : List InteractiveRebaseEntry}

namespace GitComet.Rebase
open List Option Store

def runFinalFrom (k : ℕ) (lastFold : Option ℕ) (hasSquash : Bool) :
    List InteractiveRebaseEntry → Option ℕ
  | [] => if hasSquash then lastFold else none
  | entry :: entries =>
    match entry.action with
    | .squash => runFinalFrom (k + 1) (some k) true entries
    | .fixup => runFinalFrom (k + 1) (some k) hasSquash entries
    | .drop => runFinalFrom (k + 1) lastFold hasSquash entries
    | .pick | .reword => if hasSquash then lastFold else none

def squashRunFinalEntry (entries : List InteractiveRebaseEntry) (ix : ℕ) : Option ℕ :=
  runFinalFrom (ix + 1) none false (entries.drop (ix + 1))

structure RebaseScripts where
  todoContent : Chars
  msgEditor : Bool
  msgs : List (CommitId × Chars)
  deriving DecidableEq

def needsMsgEditor (entries : List InteractiveRebaseEntry) : Bool :=
  entries.any fun entry => entry.action = .reword ∨ entry.action = .squash

def rewordMessage (entry : InteractiveRebaseEntry) : Option Chars :=
  if entry.action = .reword then entry.newMessage else none

def keyEntry (entries : List InteractiveRebaseEntry) (entry : InteractiveRebaseEntry) (ix : ℕ) :
    InteractiveRebaseEntry :=
  match squashRunFinalEntry entries ix with
  | some k => entries[k]?.getD entry
  | none => entry

def writtenMsgs (entries : List InteractiveRebaseEntry) : List (CommitId × Chars) :=
  entries.zipIdx.filterMap fun step =>
    (rewordMessage step.1).map fun msg => ((keyEntry entries step.1 step.2).commitId, msg)

namespace RebaseScripts

def create (entries : List InteractiveRebaseEntry) : RebaseScripts where
  todoContent := buildTodoContent entries
  msgEditor := needsMsgEditor entries
  msgs := if needsMsgEditor entries then writtenMsgs entries else []

def msgFile (scripts : RebaseScripts) (id : CommitId) : Option Chars :=
  (scripts.msgs.reverse.find? fun file => file.1 = id).map Prod.snd

end RebaseScripts

def msgEditorScript (listing : List (CommitId × Chars)) (sha message : Chars) : Chars :=
  if sha = [] ∨ ¬sha.all fun c => c.isDigit || "abcdef".toList.contains c then message
  else ((listing.find? fun file => sha.isPrefixOf file.1).map Prod.snd).getD message

section

def creates : InteractiveRebaseAction → Bool
  | .pick | .reword => true
  | .squash | .fixup | .drop => false

def runEnd (lastFold : Option CommitId) (hasSquash : Bool) :
    List InteractiveRebaseEntry → Option CommitId
  | [] => if hasSquash then lastFold else none
  | entry :: entries =>
    match entry.action with
    | .squash => runEnd (some entry.commitId) true entries
    | .fixup => runEnd (some entry.commitId) hasSquash entries
    | .drop => runEnd lastFold hasSquash entries
    | .pick | .reword => if hasSquash then lastFold else none

def fileKey (entry : InteractiveRebaseEntry) (entries : List InteractiveRebaseEntry) : CommitId :=
  (runEnd none false entries).getD entry.commitId

def messageFiles : List InteractiveRebaseEntry → List (CommitId × Chars)
  | [] => []
  | entry :: entries =>
    ((rewordMessage entry).map fun msg => (fileKey entry entries, msg)).toList ++
      messageFiles entries

variable {all rest : List InteractiveRebaseEntry}

variable {k : ℕ}

theorem runFinalFrom_id (hrest : all.drop k = rest) (lastFold : Option ℕ) (hasSquash : Bool) :
    (runFinalFrom k lastFold hasSquash rest).bind (fun j => all[j]?.map (·.commitId)) =
      runEnd (lastFold.bind fun j => all[j]?.map (·.commitId)) hasSquash rest := by
  induction rest generalizing k lastFold hasSquash with
  | nil =>
    rw [runFinalFrom, runEnd]
    cases hasSquash <;> rfl
  | cons entry rest ih =>
    have hentry : all[k]? = some entry := by
      rw [← Nat.add_zero k, ← getElem?_drop, hrest, getElem?_cons_zero]
    have hnext : all.drop (k + 1) = rest := by
      rw [← drop_drop, hrest, drop_one, tail_cons]
    rw [runFinalFrom, runEnd]
    cases entry.action with
    | pick => cases hasSquash <;> rfl
    | reword => cases hasSquash <;> rfl
    | squash =>
      refine (ih hnext (some k) true).trans ?_
      rw [bind_some, hentry, map_some]
    | fixup =>
      refine (ih hnext (some k) hasSquash).trans ?_
      rw [bind_some, hentry, map_some]
    | drop => exact ih hnext lastFold hasSquash

theorem runFinalFrom_lt {j : ℕ}
    (hrest : all.drop k = rest) {lastFold : Option ℕ} (hlast : ∀ i ∈ lastFold, i < all.length)
    {hasSquash : Bool} (hfinal : runFinalFrom k lastFold hasSquash rest = some j) :
    j < all.length := by
  induction rest generalizing k lastFold hasSquash with
  | nil =>
    rw [runFinalFrom] at hfinal
    split_ifs at hfinal
    exact hlast j hfinal
  | cons entry rest ih =>
    have hnext : all.drop (k + 1) = rest := by
      rw [← drop_drop, hrest, drop_one, tail_cons]
    have hk : k < all.length := by
      by_contra hover
      rw [drop_eq_nil_of_le (by omega)] at hrest
      cases hrest
    have hfold : ∀ i ∈ some k, i < all.length := fun i hi => some.inj hi ▸ hk
    rw [runFinalFrom] at hfinal
    split at hfinal
    · exact ih hnext hfold hfinal
    · exact ih hnext hfold hfinal
    · exact ih hnext hlast hfinal
    · split_ifs at hfinal
      exact hlast j hfinal
    · split_ifs at hfinal
      exact hlast j hfinal

variable {ix : ℕ}

theorem keyEntry_id (hrest : all.drop (ix + 1) = rest) :
    (keyEntry all entry ix).commitId = fileKey entry rest := by
  have hid := runFinalFrom_id hrest none false
  rw [keyEntry, squashRunFinalEntry, fileKey, hrest]
  rw [bind_none] at hid
  cases hfinal : runFinalFrom (ix + 1) none false rest with
  | none =>
    rw [← hid, hfinal]
    rfl
  | some k =>
    have hk : k < all.length := runFinalFrom_lt hrest (fun _ hi => absurd hi (by simp)) hfinal
    rw [← hid, hfinal, bind_some]
    simp only [getElem?_eq_getElem hk, getD_some, map_some]

theorem writtenMsgs_from (hrest : all.drop ix = rest) :
    ((rest.zipIdx ix).filterMap fun step =>
      (rewordMessage step.1).map fun msg => ((keyEntry all step.1 step.2).commitId, msg)) =
      messageFiles rest := by
  induction rest generalizing ix with
  | nil => rfl
  | cons entry rest ih =>
    have hnext : all.drop (ix + 1) = rest := by
      rw [← drop_drop, hrest, drop_one, tail_cons]
    rw [zipIdx_cons, messageFiles, filterMap_cons, ← ih hnext]
    dsimp only
    rw [keyEntry_id hnext]
    cases rewordMessage entry <;> rfl

theorem writtenMsgs_eq (entries : List InteractiveRebaseEntry) :
    writtenMsgs entries = messageFiles entries :=
  writtenMsgs_from rfl

theorem messageFiles_unneeded
    (hneeds : needsMsgEditor entries = false) : messageFiles entries = [] := by
  induction entries with
  | nil => rfl
  | cons entry entries ih =>
    rw [needsMsgEditor, any_cons, Bool.or_eq_false_iff] at hneeds
    have hkept : rewordMessage entry = none :=
      if_neg fun hreword => by simp [hreword] at hneeds
    rw [messageFiles, hkept, ih hneeds.2]
    rfl

theorem create_msgs (entries : List InteractiveRebaseEntry) :
    (RebaseScripts.create entries).msgs = messageFiles entries := by
  rw [RebaseScripts.create]
  cases hneeds : needsMsgEditor entries with
  | true => exact writtenMsgs_eq entries
  | false => exact (messageFiles_unneeded hneeds).symm

end

end GitComet.Rebase

namespace GitComet.Rebase
open Store Text

abbrev Step := InteractiveRebaseAction × CommitId

-- How Git words the message of a fold run is left open: a squash appends to it, and once
-- it did, a later fixup may leave a remark in it.
structure Git where
  message : CommitId → Chars
  squash : Chars → CommitId → Chars
  remark : Chars → CommitId → Chars

structure Run where
  target : CommitId
  message : Chars
  squashed : Bool

def gitStep (line : Chars) : Option Step :=
  match wordsBy (fun c => c = ' ' ∨ c = '\t') line with
  | word :: id :: _ => (fromTodoWord word).map fun action => (action, id)
  | _ => none

def gitSteps (todo : Chars) : Option (List Step) := (splitLines todo).mapM gitStep

def finalFold : List Step → Bool
  | [] => true
  | (.drop, _) :: steps => finalFold steps
  | (.squash, _) :: _ | (.fixup, _) :: _ => false
  | (.pick, _) :: _ | (.reword, _) :: _ => true

namespace Git

variable (git : Git) (edit : CommitId → Chars → Chars)

def foldMessage (run : Run) (action : InteractiveRebaseAction) (id : CommitId) : Chars :=
  if action = .squash then git.squash run.message id
  else if run.squashed then git.remark run.message id
  else run.message

def fold (run : Run) (action : InteractiveRebaseAction) (id : CommitId) (steps : List Step) : Run :=
  let squashed := run.squashed || action = .squash
  let message := git.foldMessage run action id
  ⟨run.target, if squashed && finalFold steps then edit id message else message, squashed⟩

def start (action : InteractiveRebaseAction) (id : CommitId) : Run :=
  ⟨id, if action = .reword then edit id (git.message id) else git.message id, false⟩

def replay : Option Run → List Step → Option (List (CommitId × Chars))
  | current, [] => some (current.map fun run => (run.target, run.message)).toList
  | current, (.drop, _) :: steps => replay current steps
  | some run, (.squash, id) :: steps => replay (some (git.fold edit run .squash id steps)) steps
  | some run, (.fixup, id) :: steps => replay (some (git.fold edit run .fixup id steps)) steps
  | none, (.squash, _) :: _ | none, (.fixup, _) :: _ => none
  | current, (.pick, id) :: steps =>
    (replay (some (git.start edit .pick id)) steps).map
      ((current.map fun run => (run.target, run.message)).toList ++ ·)
  | current, (.reword, id) :: steps =>
    (replay (some (git.start edit .reword id)) steps).map
      ((current.map fun run => (run.target, run.message)).toList ++ ·)

def runTodo (todo : Chars) : Option (List (CommitId × Chars)) :=
  (gitSteps todo).bind (git.replay edit none)

end Git

def keepMessage (_ : CommitId) (message : Chars) : Chars := message

namespace RebaseScripts

-- Without the installed editor Git would start the user's own one.
def edit (scripts : RebaseScripts) (ownEditor : CommitId → Chars → Chars) (id : CommitId)
    (message : Chars) : Chars :=
  if scripts.msgEditor then (scripts.msgFile id).getD message else ownEditor id message

end RebaseScripts

def entryStep (entry : InteractiveRebaseEntry) : Step := (entry.action, entry.commitId)

theorem gitStep_todoLine (hid : HexId entry.commitId) :
    gitStep (Text.stripLineEnding (buildTodoLine entry)) = some (entryStep entry) := by
  have hsep : ∀ c, Text.isWhitespace c = false → decide (c = ' ' ∨ c = '\t') = false := by
    intro c hc
    rw [decide_eq_false_iff_not]
    rintro (rfl | rfl) <;> cases hc
  obtain ⟨rest, hwords⟩ := todoLine_words hsep rfl hid
  simp only [gitStep, hwords, fromTodoWord_toTodoStr, Option.map_some, entryStep]

theorem gitSteps_todo (hids : ∀ entry ∈ entries, HexId entry.commitId) :
    gitSteps (buildTodoContent entries) = some (entries.map entryStep) := by
  rw [gitSteps, splitLines_todo hids]
  induction entries with
  | nil => rfl
  | cons entry entries ih =>
    rw [List.map_cons, List.mapM_cons, gitStep_todoLine (hids entry List.mem_cons_self),
      ih fun entry hentry => hids entry (List.mem_cons_of_mem _ hentry)]
    rfl

end GitComet.Rebase
