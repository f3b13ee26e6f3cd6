import GitComet.Rebase.Messages
import Mathlib.Data.List.Find
import Mathlib.Data.List.Nodup

namespace GitComet.Rebase
open List Store Text Option

variable (git : Git)

def FirstCreates (entries : List InteractiveRebaseEntry) : Prop :=
  ∀ entry ∈ entries.find? fun entry => entry.action ≠ .drop, creates entry.action = true

variable {entry : InteractiveRebaseEntry} {entries : List InteractiveRebaseEntry}

theorem firstCreates_drop
    (hdrop : entry.action = .drop) (hfirst : FirstCreates (entry :: entries)) :
    FirstCreates entries := by
  rw [FirstCreates, find?_cons_of_neg (by simp [hdrop])] at hfirst
  exact hfirst

theorem firstCreates_fold (hfold : entry.action = .squash ∨ entry.action = .fixup) :
    ¬FirstCreates (entry :: entries) := by
  intro hfirst
  rw [FirstCreates, find?_cons_of_pos (by rcases hfold with h | h <;> simp [h])] at hfirst
  have hcreates := hfirst entry rfl
  rcases hfold with hfold | hfold <;> rw [hfold] at hcreates <;> cases hcreates

section

variable (edit : CommitId → Chars → Chars)

def created (entries : List InteractiveRebaseEntry) : List CommitId :=
  ids (entries.filter fun entry => creates entry.action)

theorem replay_targets (run : Run) (entries : List InteractiveRebaseEntry) :
    ∃ commits, git.replay edit (some run) (entries.map entryStep) = some commits ∧
      commits.map Prod.fst = run.target :: created entries := by
  induction entries generalizing run with
  | nil => exact ⟨_, rfl, rfl⟩
  | cons entry entries ih =>
    rw [map_cons, entryStep, created, filter_cons]
    cases haction : entry.action with
    | drop => exact ih run
    | squash | fixup => exact ih (git.fold edit run _ entry.commitId (entries.map entryStep))
    | pick | reword =>
      obtain ⟨commits, hcommits, htargets⟩ := ih (git.start edit entry.action entry.commitId)
      rw [haction] at hcommits
      refine ⟨_, by rw [Git.replay, hcommits, map_some], ?_⟩
      rw [map_append, htargets]
      rfl

theorem replay_fresh (hfirst : FirstCreates entries) :
    ∃ commits, git.replay edit none (entries.map entryStep) = some commits ∧
      commits.map Prod.fst = created entries := by
  induction entries with
  | nil => exact ⟨_, rfl, rfl⟩
  | cons entry entries ih =>
    rw [map_cons, entryStep, created, filter_cons]
    cases haction : entry.action with
    | drop => exact ih (firstCreates_drop haction hfirst)
    | squash => exact absurd hfirst (firstCreates_fold (.inl haction))
    | fixup => exact absurd hfirst (firstCreates_fold (.inr haction))
    | pick | reword =>
      obtain ⟨commits, hcommits, htargets⟩ :=
        replay_targets git edit (git.start edit entry.action entry.commitId) entries
      rw [haction] at hcommits
      refine ⟨_, by rw [Git.replay, hcommits, map_some], ?_⟩
      rw [map_append, htargets]
      rfl

theorem replay_unedited (hneeds : needsMsgEditor entries = false) {current : Option Run}
    (hcurrent : ∀ run ∈ current, run.squashed = false) :
    git.replay edit current (entries.map entryStep) =
      git.replay keepMessage current (entries.map entryStep) := by
  induction entries generalizing current with
  | nil => rfl
  | cons entry entries ih =>
    rw [needsMsgEditor, any_cons, Bool.or_eq_false_iff] at hneeds
    rw [map_cons, entryStep]
    cases haction : entry.action with
    | drop => exact ih hneeds.2 hcurrent
    | squash => simp [haction] at hneeds
    | reword => simp [haction] at hneeds
    | pick =>
      have hfresh : ∀ run ∈ some (git.start edit .pick entry.commitId), run.squashed = false :=
        fun run hrun => some.inj hrun ▸ rfl
      exact congrArg (Option.map _) (ih hneeds.2 hfresh)
    | fixup =>
      cases current with
      | none => rfl
      | some run =>
        have hsquashed : run.squashed = false := hcurrent run rfl
        have hsilent : ∀ edit, git.fold edit run .fixup entry.commitId (entries.map entryStep) =
            ⟨run.target, run.message, false⟩ := by
          intro edit
          simp [Git.fold, Git.foldMessage, hsquashed]
        rw [Git.replay, Git.replay, hsilent, hsilent]
        exact ih hneeds.2 fun run hrun => some.inj hrun ▸ rfl

theorem replay_fresh_land {files : CommitId → Option Chars}
    (hedit : ∀ id message, edit id message = (files id).getD message)
    {planned : CommitId → Option Chars}
    (hplanned : ∀ entry ∈ entries, planned entry.commitId = rewordMessage entry)
    (hfiled : Filed files entries) (hfirst : FirstCreates entries) :
    git.replay edit none (entries.map entryStep) =
      (git.replay keepMessage none (entries.map entryStep)).map (List.map (land planned)) := by
  induction entries with
  | nil => rfl
  | cons entry entries ih =>
    have hrest := fun entry hentry => hplanned entry (mem_cons_of_mem _ hentry)
    have hcreate : creates entry.action →
        git.replay edit (some (git.start edit entry.action entry.commitId))
            (entries.map entryStep) =
          (git.replay keepMessage (some (git.start keepMessage entry.action entry.commitId))
            (entries.map entryStep)).map (List.map (land planned)) := fun hcreates =>
      replay_land git hedit hrest hfiled.2
        ((hplanned entry mem_cons_self).symm ▸
          landing_start git hedit (hfiled.1 hcreates))
    rw [map_cons, entryStep]
    cases haction : entry.action with
    | drop => exact ih hrest hfiled.2 (firstCreates_drop haction hfirst)
    | squash => exact absurd hfirst (firstCreates_fold (.inl haction))
    | fixup => exact absurd hfirst (firstCreates_fold (.inr haction))
    | pick | reword =>
      rw [haction] at hcreate
      rw [Git.replay, Git.replay, hcreate rfl, Option.map_map, Option.map_map]
      rfl

end

def plannedMessage (entries : List InteractiveRebaseEntry) (id : CommitId) : Option Chars :=
  (entries.find? fun entry => entry.commitId = id).bind rewordMessage

theorem plannedMessage_of_mem (hdistinct : (ids entries).Nodup) (hentry : entry ∈ entries) :
    plannedMessage entries entry.commitId = rewordMessage entry := by
  induction entries with
  | nil => cases hentry
  | cons first entries ih =>
    rw [ids_cons, nodup_cons] at hdistinct
    rcases mem_cons.mp hentry with rfl | hentry
    · rw [plannedMessage, find?_cons_of_pos (by simp), bind_some]
    · have hother : first.commitId ≠ entry.commitId := fun heq =>
        hdistinct.1 (heq ▸ mem_map_of_mem hentry)
      rw [plannedMessage, find?_cons_of_neg (by simpa using hother)]
      exact ih hdistinct.2 hentry

structure MessagesLand (ownEditor : CommitId → Chars → Chars)
    (entries : List InteractiveRebaseEntry) (plain commits : List (CommitId × Chars)) : Prop where
  kept : git.runTodo keepMessage (RebaseScripts.create entries).todoContent = some plain
  edited : git.runTodo ((RebaseScripts.create entries).edit ownEditor)
    (RebaseScripts.create entries).todoContent = some commits
  targets : commits.map Prod.fst = created entries
  reworded : ∀ entry ∈ entries, entry.action = .reword → ∀ msg ∈ entry.newMessage,
    (entry.commitId, msg) ∈ commits
  others : ∀ commit ∈ commits,
    (∀ entry ∈ entries, entry.commitId = commit.1 → rewordMessage entry = none) → commit ∈ plain
  files : ((RebaseScripts.create entries).msgs.map Prod.fst).Nodup
  lines : (splitLines (RebaseScripts.create entries).todoContent).map
      (fun line => (todoLineRole line, todoLineCommitWord line)) =
    entries.map fun entry => (actionRole entry.action, some entry.commitId)

theorem edit_create (ownEditor : CommitId → Chars → Chars) (entries : List InteractiveRebaseEntry) :
    git.replay ((RebaseScripts.create entries).edit ownEditor) none (entries.map entryStep) =
      git.replay (fun id message => (lastWritten (messageFiles entries) id).getD message) none
        (entries.map entryStep) := by
  cases hneeds : needsMsgEditor entries with
  | false =>
    have hnone : ∀ run ∈ (none : Option Run), run.squashed = false :=
      fun _ hrun => absurd hrun (by simp)
    exact (replay_unedited git _ hneeds hnone).trans (replay_unedited git _ hneeds hnone).symm
  | true =>
    refine congrArg (git.replay · none _) (funext fun id => funext fun message => ?_)
    rw [RebaseScripts.edit, RebaseScripts.msgFile, create_msgs, RebaseScripts.create, hneeds,
      if_pos rfl, lastWritten]

section

variable {listing : List (CommitId × Chars)} {sha : CommitId}

theorem lookup_perm {files : List (CommitId × Chars)} (hperm : listing.Perm files)
    (hdistinct : (files.map Prod.fst).Nodup) (id : CommitId) :
    (listing.find? fun file => file.1 = id) = files.find? fun file => file.1 = id := by
  have hlisting : (listing.map Prod.fst).Nodup := (hperm.map Prod.fst).nodup_iff.mpr hdistinct
  refine find?_eq_find?_of_perm hperm fun file hfile other hother => ?_
  have hid : file.1 = other.1 :=
    (of_decide_eq_true hfile.2).trans (of_decide_eq_true hother.2).symm
  exact inj_on_of_nodup_map hlisting hfile.1 hother.1 hid

theorem msgEditorScript_copies
    (hdistinct : (ids entries).Nodup) (hlength : ∀ id ∈ ids entries, id.length = sha.length)
    (hperm : listing.Perm (RebaseScripts.create entries).msgs) (hne : sha ≠ [])
    (hlower : sha.all fun c => c.isDigit || "abcdef".toList.contains c) (message : Chars) :
    msgEditorScript listing sha message =
      ((RebaseScripts.create entries).msgFile sha).getD message := by
  rw [create_msgs] at hperm
  have hkey : ∀ file ∈ listing, sha.isPrefixOf file.1 = decide (file.1 = sha) := by
    intro file hfile
    have hmem : file.1 ∈ ids entries := by
      rw [ids_runs]
      exact mem_append_right _ (keys_subset entries (mem_map_of_mem (hperm.mem_iff.mp hfile)))
    rw [Bool.eq_iff_iff, isPrefixOf_iff_prefix, decide_eq_true_eq]
    refine ⟨fun hstart => (hstart.eq_of_length (hlength _ hmem).symm).symm, ?_⟩
    rintro rfl
    exact prefix_refl _
  have hlookup : (listing.find? fun file => sha.isPrefixOf file.1) =
      listing.find? fun file => decide (file.1 = sha) := find?_congr hkey
  have hreverse := lookup_perm (reverse_perm (messageFiles entries)) (keys_nodup hdistinct) sha
  rw [msgEditorScript, if_neg (not_or.mpr ⟨hne, not_not.mpr hlower⟩), hlookup,
    lookup_perm hperm (keys_nodup hdistinct), RebaseScripts.msgFile, create_msgs, hreverse]

end

theorem lines_parse_back (hids : ∀ entry ∈ entries, HexId entry.commitId) :
    (splitLines (buildTodoContent entries)).map
        (fun line => (todoLineRole line, todoLineCommitWord line)) =
      entries.map fun entry => (actionRole entry.action, some entry.commitId) := by
  rw [splitLines_todo hids, List.map_map]
  refine map_congr_left fun entry hentry => ?_
  rw [Function.comp_apply, todoLine_role (hids entry hentry),
    todoLine_commitWord (hids entry hentry)]

theorem reword_messages_land (ownEditor : CommitId → Chars → Chars)
    {entries : List InteractiveRebaseEntry} (hids : ∀ entry ∈ entries, HexId entry.commitId)
    (hdistinct : (entries.map (·.commitId)).Nodup) (hfirst : FirstCreates entries) :
    ∃ plain commits, MessagesLand git ownEditor entries plain commits := by
  obtain ⟨plain, hplain, htargets⟩ := replay_fresh git keepMessage hfirst
  have hplanned : ∀ entry ∈ entries, plannedMessage entries entry.commitId = rewordMessage entry :=
    fun entry hentry => plannedMessage_of_mem hdistinct hentry
  have hlanded := replay_fresh_land git
    (fun id message => (lastWritten (messageFiles entries) id).getD message) (fun _ _ => rfl)
    hplanned (filed_messageFiles hdistinct) hfirst
  have hsteps := gitSteps_todo hids
  rw [← edit_create git ownEditor, hplain, map_some] at hlanded
  refine ⟨plain, plain.map (land (plannedMessage entries)), ?_, ?_, ?_, ?_, ?_, ?_,
    lines_parse_back hids⟩
  · rw [Git.runTodo, RebaseScripts.create, hsteps, bind_some, hplain]
  · rw [Git.runTodo]
    change (gitSteps (buildTodoContent entries)).bind _ = _
    rw [hsteps, bind_some, hlanded]
  · rw [List.map_map, ← htargets]
    rfl
  · intro entry hentry hreword msg hmsg
    have hmem : entry.commitId ∈ plain.map Prod.fst := by
      rw [htargets, created]
      exact mem_map_of_mem (mem_filter.mpr ⟨hentry, by rw [hreword]; rfl⟩)
    obtain ⟨commit, hcommit, hid⟩ := mem_map.mp hmem
    refine mem_map.mpr ⟨commit, hcommit, ?_⟩
    rw [land, hid, hplanned entry hentry, rewordMessage, if_pos hreword, mem_def.mp hmsg,
      getD_some]
  · intro commit hcommit hkept
    obtain ⟨old, hold, rfl⟩ := mem_map.mp hcommit
    have hmem : old.1 ∈ created entries := htargets ▸ mem_map_of_mem hold
    obtain ⟨entry, hentry, hid⟩ := mem_map.mp hmem
    have hnone := hkept entry (mem_of_mem_filter hentry) hid
    have hown := hplanned entry (mem_of_mem_filter hentry)
    rw [hid, hnone] at hown
    rw [land, hown]
    exact hold
  · rw [create_msgs]
    exact keys_nodup hdistinct

def fullId (digit : Char) : CommitId := replicate 40 digit

def foldedReword : List InteractiveRebaseEntry :=
  [⟨.reword, fullId 'a', ['s'], [], some ['m']⟩, ⟨.squash, fullId 'b', [], [], none⟩,
    ⟨.drop, fullId 'c', [], [], none⟩, ⟨.fixup, fullId 'd', [], [], none⟩,
    ⟨.pick, fullId 'e', [], [], none⟩]

theorem reword_messages_land_folded :
    ∃ plain commits, MessagesLand ⟨id, (· ++ ·), (· ++ ·)⟩ keepMessage foldedReword plain
      commits := by
  refine reword_messages_land ⟨id, (· ++ ·), (· ++ ·)⟩ keepMessage ?_ (by decide) ?_
  · unfold HexId
    decide
  · intro entry hentry
    cases hentry
    rfl

theorem msgEditorScript_copies_folded :
    msgEditorScript (RebaseScripts.create foldedReword).msgs (fullId 'd') ['x'] =
      ((RebaseScripts.create foldedReword).msgFile (fullId 'd')).getD ['x'] :=
  msgEditorScript_copies (by decide) (by decide) (.refl _) (by decide) (by decide) ['x']

end GitComet.Rebase
