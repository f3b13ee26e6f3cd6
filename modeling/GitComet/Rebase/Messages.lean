import GitComet.Rebase.Scripts

namespace GitComet.Rebase
open List Option Store Bool

def ids (entries : List InteractiveRebaseEntry) : List CommitId := entries.map (·.commitId)

theorem ids_cons (entry : InteractiveRebaseEntry) (entries : List InteractiveRebaseEntry) :
    ids (entry :: entries) = entry.commitId :: ids entries := rfl

def ownRun (entries : List InteractiveRebaseEntry) : List InteractiveRebaseEntry :=
  entries.takeWhile fun entry => !creates entry.action

def laterRuns (entries : List InteractiveRebaseEntry) : List InteractiveRebaseEntry :=
  entries.dropWhile fun entry => !creates entry.action

variable {id : CommitId}

section

variable {entry : InteractiveRebaseEntry} {entries : List InteractiveRebaseEntry}

theorem ids_runs (entries : List InteractiveRebaseEntry) :
    ids entries = ids (ownRun entries) ++ ids (laterRuns entries) := by
  rw [ids, ids, ids, ← map_append, ownRun, laterRuns, takeWhile_append_dropWhile]

theorem laterRuns_creates (hcreates : creates entry.action) :
    laterRuns (entry :: entries) = entry :: entries :=
  dropWhile_cons_of_neg (by simp [hcreates])

theorem laterRuns_other (hcreates : creates entry.action = false) :
    laterRuns (entry :: entries) = laterRuns entries :=
  dropWhile_cons_of_pos (by simp [hcreates])

variable {hasSquash : Bool}

theorem runEnd_mem {lastFold : Option CommitId}
    (hend : runEnd lastFold hasSquash entries = some id) :
    lastFold = some id ∨ id ∈ ids (ownRun entries) := by
  induction entries generalizing lastFold hasSquash with
  | nil =>
    rw [runEnd] at hend
    split_ifs at hend
    exact .inl hend
  | cons entry entries ih =>
    rw [runEnd] at hend
    cases haction : entry.action with
    | pick | reword =>
      simp only [haction] at hend
      split_ifs at hend
      exact .inl hend
    | squash | fixup =>
      simp only [haction] at hend
      have hown : ownRun (entry :: entries) = entry :: ownRun entries :=
        takeWhile_cons_of_pos (by simp [haction, creates])
      rw [hown, ids_cons, mem_cons]
      rcases ih hend with hfold | hfold
      · exact .inr (.inl (some.inj hfold).symm)
      · exact .inr (.inr hfold)
    | drop =>
      simp only [haction] at hend
      have hown : ownRun (entry :: entries) = entry :: ownRun entries :=
        takeWhile_cons_of_pos (by simp [haction, creates])
      rw [hown, ids_cons, mem_cons]
      exact (ih hend).imp_right .inr

theorem fileKey_mem : fileKey entry entries = entry.commitId ∨
    fileKey entry entries ∈ ids (ownRun entries) := by
  rw [fileKey]
  cases hend : runEnd none false entries with
  | none => exact .inl rfl
  | some id => exact .inr ((runEnd_mem hend).resolve_left (some_ne_none id).symm)

theorem runEnd_some (id : CommitId) (hasSquash : Bool) (entries : List InteractiveRebaseEntry) :
    runEnd (some id) hasSquash entries = (runEnd none hasSquash entries).or
      (if hasSquash && finalFold (entries.map entryStep) then some id else none) := by
  induction entries generalizing hasSquash with
  | nil => cases hasSquash <;> rfl
  | cons entry entries ih =>
    rw [map_cons, entryStep, runEnd, runEnd]
    cases entry.action with
    | pick | reword => cases hasSquash <;> rfl
    | drop => exact ih hasSquash
    | squash | fixup => simp [finalFold]

theorem runEnd_squashed (id : CommitId) (entries : List InteractiveRebaseEntry) :
    runEnd (some id) true entries ≠ none := by
  induction entries generalizing id with
  | nil => exact some_ne_none id
  | cons entry entries ih =>
    rw [runEnd]
    cases entry.action with
    | pick | reword => exact some_ne_none id
    | squash | fixup => exact ih entry.commitId
    | drop => exact ih id

theorem runEnd_final (hfinal : finalFold (entries.map entryStep)) :
    runEnd none hasSquash entries = none := by
  induction entries with
  | nil => cases hasSquash <;> rfl
  | cons entry entries ih =>
    rw [map_cons, entryStep] at hfinal
    rw [runEnd]
    cases haction : entry.action with
    | pick | reword => cases hasSquash <;> rfl
    | drop => exact ih (by simpa only [haction, finalFold] using hfinal)
    | squash | fixup => simp [haction, finalFold] at hfinal

end

section

def lastWritten (files : List (CommitId × Chars)) (id : CommitId) : Option Chars :=
  (files.reverse.find? fun file => file.1 = id).map Prod.snd

theorem lastWritten_cons (file : CommitId × Chars) (files : List (CommitId × Chars))
    (id : CommitId) : lastWritten (file :: files) id =
      (lastWritten files id).or (if file.1 = id then some file.2 else none) := by
  rw [lastWritten, lastWritten, reverse_cons, find?_append, map_or]
  congr 1
  split_ifs with hid
  · rw [find?_cons_of_pos (by simpa using hid), map_some]
  · rw [find?_cons_of_neg (by simpa using hid), find?_nil, map_none]

theorem lastWritten_none {files : List (CommitId × Chars)}
    (hid : id ∉ files.map Prod.fst) : lastWritten files id = none := by
  rw [lastWritten, map_eq_none_iff, find?_eq_none]
  intro file hfile heq
  rw [mem_reverse] at hfile
  exact hid (mem_map.mpr ⟨file, hfile, of_decide_eq_true heq⟩)

variable {entry : InteractiveRebaseEntry} {entries : List InteractiveRebaseEntry}

theorem rewordMessage_none (hcreates : creates entry.action = false) : rewordMessage entry = none :=
  if_neg fun hreword => by simp [hreword, creates] at hcreates

theorem messageFiles_kept (hkept : rewordMessage entry = none) :
    messageFiles (entry :: entries) = messageFiles entries := by
  rw [messageFiles, hkept]
  rfl

theorem messageFiles_written {msg : Chars} (hmsg : rewordMessage entry = some msg) :
    messageFiles (entry :: entries) = (fileKey entry entries, msg) :: messageFiles entries := by
  rw [messageFiles, hmsg]
  rfl

theorem keys_subset (entries : List InteractiveRebaseEntry) :
    (messageFiles entries).map Prod.fst ⊆ ids (laterRuns entries) := by
  induction entries with
  | nil => exact Subset.refl _
  | cons entry entries ih =>
    have hlater : (messageFiles entries).map Prod.fst ⊆ ids entries := by
      rw [ids_runs]
      exact fun key hkey => mem_append_right _ (ih hkey)
    cases hcreates : creates entry.action with
    | false =>
      rw [laterRuns_other hcreates, messageFiles_kept (rewordMessage_none hcreates)]
      exact ih
    | true =>
      rw [laterRuns_creates hcreates, ids_cons]
      cases hmsg : rewordMessage entry with
      | none =>
        rw [messageFiles_kept hmsg]
        exact fun key hkey => mem_cons_of_mem _ (hlater hkey)
      | some msg =>
        rw [messageFiles_written hmsg, map_cons, cons_subset]
        refine ⟨?_, fun key hkey => mem_cons_of_mem _ (hlater hkey)⟩
        rw [mem_cons]
        refine fileKey_mem.imp_right fun hkey => ?_
        rw [ids_runs]
        exact mem_append_left _ hkey

theorem run_apart (hdistinct : (ids (entry :: entries)).Nodup)
    (hid : id = entry.commitId ∨ id ∈ ids (ownRun entries)) : id ∉ ids (laterRuns entries) := by
  rw [ids_cons, nodup_cons, ids_runs entries] at hdistinct
  rcases hid with rfl | hid
  · exact fun hlater => hdistinct.1 (mem_append_right _ hlater)
  · exact fun hlater => (nodup_append.mp hdistinct.2).2.2 _ hid _ hlater rfl

theorem keys_nodup (hdistinct : (ids entries).Nodup) :
    ((messageFiles entries).map Prod.fst).Nodup := by
  induction entries with
  | nil => exact nodup_nil
  | cons entry entries ih =>
    have hrest := ih (nodup_cons.mp hdistinct).2
    cases hmsg : rewordMessage entry with
    | none =>
      rw [messageFiles_kept hmsg]
      exact hrest
    | some msg =>
      rw [messageFiles_written hmsg, map_cons]
      exact nodup_cons.mpr
        ⟨fun hkey => run_apart hdistinct fileKey_mem (keys_subset entries hkey), hrest⟩

end

section

variable {files files' : CommitId → Option Chars} {entry : InteractiveRebaseEntry}
  {entries : List InteractiveRebaseEntry}

def Reached (files : CommitId → Option Chars) (entry : InteractiveRebaseEntry)
    (entries : List InteractiveRebaseEntry) : Prop :=
  match rewordMessage entry with
  | some msg => files (fileKey entry entries) = some msg
  | none => files entry.commitId = none ∧ ∀ id ∈ runEnd none false entries, files id = none

def Filed (files : CommitId → Option Chars) : List InteractiveRebaseEntry → Prop
  | [] => True
  | entry :: entries => (creates entry.action = true → Reached files entry entries) ∧
    Filed files entries

theorem reached_congr (hsame : ∀ id ∈ ids (entry :: entries), files id = files' id)
    (hreached : Reached files entry entries) : Reached files' entry entries := by
  rw [ids_cons] at hsame
  have hrun : ∀ id, id = entry.commitId ∨ id ∈ ids (ownRun entries) → files' id = files id := by
    intro id hid
    refine (hsame id (mem_cons.mpr (hid.imp_right fun hid => ?_))).symm
    rw [ids_runs]
    exact mem_append_left _ hid
  rw [Reached] at hreached ⊢
  split at hreached
  · rw [hrun _ fileKey_mem, hreached]
  · refine ⟨(hrun _ (.inl rfl)).trans hreached.1, fun id hid => ?_⟩
    have hown := (runEnd_mem hid).resolve_left (some_ne_none id).symm
    rw [hrun id (.inr hown), hreached.2 id hid]

theorem filed_congr (hsame : ∀ id ∈ ids (laterRuns entries), files id = files' id)
    (hfiled : Filed files entries) : Filed files' entries := by
  induction entries with
  | nil => trivial
  | cons entry entries ih =>
    cases hcreates : creates entry.action with
    | false =>
      rw [laterRuns_other hcreates] at hsame
      exact ⟨fun htrue => absurd (hcreates.symm.trans htrue) false_ne_true, ih hsame hfiled.2⟩
    | true =>
      rw [laterRuns_creates hcreates] at hsame
      refine ⟨fun _ => reached_congr hsame (hfiled.1 hcreates), ih (fun id hid => ?_) hfiled.2⟩
      refine hsame id ?_
      rw [ids_cons, ids_runs entries]
      exact mem_cons_of_mem _ (mem_append_right _ hid)

theorem reached_messageFiles (hdistinct : (ids (entry :: entries)).Nodup) :
    Reached (lastWritten (messageFiles (entry :: entries))) entry entries := by
  have hrun : ∀ id, id = entry.commitId ∨ id ∈ ids (ownRun entries) →
      lastWritten (messageFiles entries) id = none := fun id hid =>
    lastWritten_none fun hkey => run_apart hdistinct hid (keys_subset entries hkey)
  rw [Reached]
  cases hmsg : rewordMessage entry with
  | some msg =>
    rw [messageFiles_written hmsg]
    dsimp only
    rw [lastWritten_cons, hrun _ fileKey_mem, none_or, if_pos rfl]
  | none =>
    rw [messageFiles_kept hmsg]
    refine ⟨hrun _ (.inl rfl), fun id hid => hrun id (.inr ?_)⟩
    exact (runEnd_mem hid).resolve_left (some_ne_none id).symm

theorem filed_messageFiles (hdistinct : (ids entries).Nodup) :
    Filed (lastWritten (messageFiles entries)) entries := by
  induction entries with
  | nil => trivial
  | cons entry entries ih =>
    refine ⟨fun _ => reached_messageFiles hdistinct, filed_congr (fun id hid => ?_)
      (ih (nodup_cons.mp hdistinct).2)⟩
    cases hmsg : rewordMessage entry with
    | none => rw [messageFiles_kept hmsg]
    | some msg =>
      have hother : fileKey entry entries ≠ id := by
        rintro rfl
        exact run_apart hdistinct fileKey_mem hid
      rw [messageFiles_written hmsg, lastWritten_cons, if_neg hother, or_none]

end

section

variable (git : Git) {files : CommitId → Option Chars} {edit : CommitId → Chars → Chars}

structure Landing (files : CommitId → Option Chars) (wanted : Option Chars) (run plain : Run)
    (rest : List InteractiveRebaseEntry) : Prop where
  target : run.target = plain.target
  squashed : run.squashed = plain.squashed
  kept : wanted = none → run.message = plain.message ∧
    ∀ id ∈ runEnd none run.squashed rest, files id = none
  written : ∀ msg ∈ wanted, (∃ id ∈ runEnd none run.squashed rest, files id = some msg) ∨
    runEnd none run.squashed rest = none ∧ run.message = msg

theorem landing_start (hedit : ∀ id message, edit id message = (files id).getD message)
    {entry : InteractiveRebaseEntry} {entries : List InteractiveRebaseEntry}
    (hreached : Reached files entry entries) :
    Landing files (rewordMessage entry) (git.start edit entry.action entry.commitId)
      (git.start keepMessage entry.action entry.commitId) entries := by
  rw [Reached] at hreached
  refine ⟨rfl, rfl, fun hkept => ?_, fun msg hmsg => ?_⟩
  · rw [hkept] at hreached
    refine ⟨?_, hreached.2⟩
    rw [Git.start, Git.start]
    split_ifs
    · rw [hedit, hreached.1]
      rfl
    · rfl
  · rw [mem_def.mp hmsg] at hreached
    have hreword : entry.action = .reword := by
      by_contra hother
      rw [rewordMessage, if_neg hother] at hmsg
      cases hmsg
    cases hend : runEnd none false entries with
    | some id =>
      rw [fileKey, hend] at hreached
      exact .inl ⟨id, hend, hreached⟩
    | none =>
      rw [fileKey, hend] at hreached
      refine .inr ⟨hend, ?_⟩
      rw [Git.start, if_pos hreword, hedit]
      exact congrArg (Option.getD · _) hreached

theorem runEnd_fold {entry : InteractiveRebaseEntry} {rest : List InteractiveRebaseEntry}
    (hfold : entry.action = .squash ∨ entry.action = .fixup) (hasSquash : Bool) :
    runEnd none hasSquash (entry :: rest) =
      runEnd (some entry.commitId) (hasSquash || entry.action = .squash) rest := by
  rw [runEnd]
  rcases hfold with hfold | hfold <;> simp [hfold]

theorem runEnd_drop {entry : InteractiveRebaseEntry} {rest : List InteractiveRebaseEntry}
    (hdrop : entry.action = .drop) (hasSquash : Bool) :
    runEnd none hasSquash (entry :: rest) = runEnd none hasSquash rest := by
  rw [runEnd, hdrop]

namespace Landing

variable {wanted : Option Chars} {run plain : Run} {entry : InteractiveRebaseEntry}
  {rest : List InteractiveRebaseEntry}

theorem drop (hdrop : entry.action = .drop)
    (hland : Landing files wanted run plain (entry :: rest)) : Landing files wanted run plain rest := by
  have hend : runEnd none run.squashed (entry :: rest) = runEnd none run.squashed rest :=
    runEnd_drop hdrop run.squashed
  exact ⟨hland.target, hland.squashed, hend ▸ hland.kept, hend ▸ hland.written⟩

theorem foldMessage_eq (hsquashed : run.squashed = plain.squashed)
    (hmessage : run.message = plain.message) (action : InteractiveRebaseAction) (id : CommitId) :
    git.foldMessage run action id = git.foldMessage plain action id := by
  rw [Git.foldMessage, Git.foldMessage, hsquashed, hmessage]

theorem fold_final (hedit : ∀ id message, edit id message = (files id).getD message)
    (hfold : entry.action = .squash ∨ entry.action = .fixup)
    (hfinal : ((run.squashed || entry.action = .squash) && finalFold (rest.map entryStep)))
    (hland : Landing files wanted run plain (entry :: rest)) :
    Landing files wanted (git.fold edit run entry.action entry.commitId (rest.map entryStep))
      (git.fold keepMessage plain entry.action entry.commitId (rest.map entryStep)) rest := by
  have hnone : ∀ hasSquash, runEnd none hasSquash rest = none := fun hasSquash =>
    runEnd_final (and_eq_true_iff.mp hfinal).2
  have hend : runEnd none run.squashed (entry :: rest) = some entry.commitId := by
    rw [runEnd_fold hfold, runEnd_some, hnone, none_or, if_pos hfinal]
  have hplain := hfinal
  rw [hland.squashed] at hplain
  refine ⟨hland.target, ?_, fun hkept => ⟨?_, ?_⟩, fun msg hmsg => .inr ⟨hnone _, ?_⟩⟩
  · exact congrArg (· || decide (entry.action = .squash)) hland.squashed
  · obtain ⟨hmessage, hfile⟩ := hland.kept hkept
    simp only [Git.fold, hfinal, hplain, if_true, hedit, hfile _ hend, getD_none, keepMessage]
    exact foldMessage_eq git hland.squashed hmessage _ _
  · intro id hid
    rw [hnone] at hid
    cases hid
  · rcases hland.written msg hmsg with ⟨id, hid, hfile⟩ | ⟨hid, -⟩
    · rw [hend, mem_some_iff] at hid
      simp only [Git.fold, hfinal, if_true, hedit, hid, hfile, getD_some]
    · rw [hend] at hid
      cases hid

theorem fold_early (hfold : entry.action = .squash ∨ entry.action = .fixup)
    (hfinal : ((run.squashed || entry.action = .squash) && finalFold (rest.map entryStep)) = false)
    (hland : Landing files wanted run plain (entry :: rest)) :
    Landing files wanted (git.fold edit run entry.action entry.commitId (rest.map entryStep))
      (git.fold keepMessage plain entry.action entry.commitId (rest.map entryStep)) rest := by
  have hend : runEnd none run.squashed (entry :: rest) =
      runEnd none (run.squashed || entry.action = .squash) rest := by
    rw [runEnd_fold hfold, runEnd_some, hfinal, if_neg Bool.false_ne_true, or_none]
  have hplain := hfinal
  rw [hland.squashed] at hplain
  refine ⟨hland.target, ?_, fun hkept => ?_, fun msg hmsg => ?_⟩
  · exact congrArg (· || decide (entry.action = .squash)) hland.squashed
  · obtain ⟨hmessage, hfile⟩ := hland.kept hkept
    refine ⟨?_, hend ▸ hfile⟩
    simp only [Git.fold, hfinal, hplain, false_eq_true, if_false]
    exact foldMessage_eq git hland.squashed hmessage _ _
  · rcases hland.written msg hmsg with ⟨id, hid, hfile⟩ | ⟨hid, hmessage⟩
    · exact .inl ⟨id, hend ▸ hid, hfile⟩
    · refine .inr ⟨hend ▸ hid, ?_⟩
      have hsilent : (run.squashed || decide (entry.action = .squash)) = false := by
        rw [runEnd_fold hfold] at hid
        cases hsquash : run.squashed || decide (entry.action = .squash) with
        | false => rfl
        | true =>
          rw [hsquash] at hid
          exact absurd hid (runEnd_squashed _ rest)
      rw [or_eq_false_iff, decide_eq_false_iff_not] at hsilent
      simp only [Git.fold, hfinal, false_eq_true, if_false]
      rw [Git.foldMessage, if_neg hsilent.2, if_neg (by simp [hsilent.1]), hmessage]

theorem fold (hedit : ∀ id message, edit id message = (files id).getD message)
    (hfold : entry.action = .squash ∨ entry.action = .fixup)
    (hland : Landing files wanted run plain (entry :: rest)) :
    Landing files wanted (git.fold edit run entry.action entry.commitId (rest.map entryStep))
      (git.fold keepMessage plain entry.action entry.commitId (rest.map entryStep)) rest := by
  cases hfinal : (run.squashed || entry.action = .squash) && finalFold (rest.map entryStep) with
  | true => exact hland.fold_final git hedit hfold hfinal
  | false => exact hland.fold_early git hfold hfinal

end Landing

def land (planned : CommitId → Option Chars) (commit : CommitId × Chars) : CommitId × Chars :=
  (commit.1, (planned commit.1).getD commit.2)

variable {planned : CommitId → Option Chars}

theorem Landing.commit {run plain : Run}
    {rest : List InteractiveRebaseEntry} (hend : ∀ hasSquash, runEnd none hasSquash rest = none)
    (hland : Landing files (planned run.target) run plain rest) :
    (run.target, run.message) = land planned (plain.target, plain.message) := by
  rw [land, ← hland.target]
  cases hplanned : planned run.target with
  | none => rw [(hland.kept hplanned).1, getD_none]
  | some msg =>
    rcases hland.written msg hplanned with ⟨id, hid, -⟩ | ⟨-, hmessage⟩
    · rw [hend] at hid
      cases hid
    · rw [hmessage, getD_some]

theorem replay_land (hedit : ∀ id message, edit id message = (files id).getD message)
    {rest : List InteractiveRebaseEntry}
    (hplanned : ∀ entry ∈ rest, planned entry.commitId = rewordMessage entry)
    (hfiled : Filed files rest) {run plain : Run}
    (hland : Landing files (planned run.target) run plain rest) :
    git.replay edit (some run) (rest.map entryStep) =
      (git.replay keepMessage (some plain) (rest.map entryStep)).map (List.map (land planned)) := by
  induction rest generalizing run plain with
  | nil =>
    have hcommit := hland.commit fun hasSquash => by cases hasSquash <;> rfl
    simp only [map_nil, Git.replay, map_some, toList_some, map_cons, hcommit]
  | cons entry rest ih =>
    have hrest := fun entry hentry => hplanned entry (mem_cons_of_mem _ hentry)
    have hown := hplanned entry mem_cons_self
    have hfold := hland.fold git hedit
    have hcreate : creates entry.action →
        Landing files (planned entry.commitId) (git.start edit entry.action entry.commitId)
          (git.start keepMessage entry.action entry.commitId) rest := fun hcreates =>
      hown ▸ landing_start git hedit (hfiled.1 hcreates)
    have hcommit : creates entry.action →
        (run.target, run.message) = land planned (plain.target, plain.message) := fun hcreates =>
      hland.commit fun hasSquash => by
        rw [runEnd]
        cases haction : entry.action <;> simp [haction, creates] at hcreates ⊢
    rw [map_cons, entryStep]
    cases haction : entry.action with
    | drop => exact ih hrest hfiled.2 (hland.drop haction)
    | squash =>
      rw [haction] at hfold
      exact ih hrest hfiled.2 (hfold (.inl rfl))
    | fixup =>
      rw [haction] at hfold
      exact ih hrest hfiled.2 (hfold (.inr rfl))
    | pick =>
      rw [haction] at hcreate hcommit
      rw [Git.replay, Git.replay, ih hrest hfiled.2 (hcreate rfl), Option.map_map, Option.map_map]
      refine congrArg (Option.map · _) (funext fun commits => ?_)
      simp [hcommit rfl]
    | reword =>
      rw [haction] at hcreate hcommit
      rw [Git.replay, Git.replay, ih hrest hfiled.2 (hcreate rfl), Option.map_map, Option.map_map]
      refine congrArg (Option.map · _) (funext fun commits => ?_)
      simp [hcommit rfl]

end

end GitComet.Rebase
