import GitComet.Rebase.Messages
import GitComet.Loading.State

namespace GitComet.Rebase
open List Store Option
open Loading (Loadable)
open Text

structure InteractiveCherryPickSetup where
  entries : List InteractiveRebaseEntry
  sourceColors : List (Chars × UInt8)
  fullMessages : Loadable Unit
  deriving DecidableEq

structure PickRepo where
  id : RepoId
  interactiveCherryPickSetup : Option InteractiveCherryPickSetup
  deriving DecidableEq

-- `collect::<FxHashMap<_, _>>`: of two entries of one commit the later one stays.
def insertById (entriesById : List InteractiveRebaseEntry) (entry : InteractiveRebaseEntry) :
    List InteractiveRebaseEntry :=
  entriesById.filter (fun other => other.commitId ≠ entry.commitId) ++ [entry]

def collectById (entries : List InteractiveRebaseEntry) : List InteractiveRebaseEntry :=
  entries.foldl insertById []

def removeById (entriesById : List InteractiveRebaseEntry) (id : CommitId) :
    Option (InteractiveRebaseEntry × List InteractiveRebaseEntry) :=
  (entriesById.find? fun entry => entry.commitId = id).map fun entry =>
    (entry, entriesById.filter fun other => other.commitId ≠ id)

def withMessage (entry : InteractiveRebaseEntry) (message : Chars) : InteractiveRebaseEntry :=
  { entry with
    summary := if entry.summary = [] then ((splitLines message).head?).getD [] else entry.summary
    message := message }

def orderEntries (entriesById orderedEntries : List InteractiveRebaseEntry) :
    List (CommitId × Chars) →
      Except CommitId (List InteractiveRebaseEntry × List InteractiveRebaseEntry)
  | [] => .ok (entriesById, orderedEntries)
  | (id, message) :: messages =>
    match removeById entriesById id with
    | none => .error id
    | some (entry, entriesById) =>
      orderEntries entriesById (orderedEntries ++ [withMessage entry message]) messages

def invalidSelection : String := "Repository returned an invalid ordered cherry-pick selection"

def unexpectedCommit (id : CommitId) : String :=
  "Commit ordering returned an unexpected commit " ++ String.ofList id

def missingCommit (id : CommitId) : String :=
  "Failed to load and order selected commit " ++ String.ofList id

def placeMessages (setup : InteractiveCherryPickSetup) (messages : List (CommitId × Chars)) :
    InteractiveCherryPickSetup :=
  match orderEntries (collectById setup.entries) [] messages with
  | .error id => { setup with entries := [], fullMessages := .error (unexpectedCommit id) }
  | .ok (missing :: _, _) =>
    { setup with entries := [], fullMessages := .error (missingCommit missing.commitId) }
  | .ok ([], orderedEntries) =>
    { setup with entries := orderedEntries, fullMessages := .ready () }

def refusesMessages (setup : InteractiveCherryPickSetup) (messages : List (CommitId × Chars)) :
    Bool :=
  let returnedIds := (messages.map Prod.fst).dedup
  decide (messages.length ≠ setup.entries.length) ||
    decide (returnedIds.length ≠ messages.length) ||
    !setup.entries.all fun entry => decide (entry.commitId ∈ returnedIds)

def setupMessagesLoaded (setup : InteractiveCherryPickSetup) (requestedIds : List CommitId)
    (result : Except String (List (CommitId × Chars))) : InteractiveCherryPickSetup :=
  if setup.entries.map (·.commitId) ≠ requestedIds then setup
  else match result with
    | .ok messages =>
      if refusesMessages setup messages then
        { setup with fullMessages := .error invalidSelection }
      else placeMessages setup messages
    | .error error => { setup with fullMessages := .error error }

def interactiveCherryPickMessagesLoaded (repoId : RepoId) (requestedIds : List CommitId)
    (result : Except String (List (CommitId × Chars))) : List PickRepo → List PickRepo
  | [] => []
  | repo :: repos =>
    if repo.id = repoId then
      { repo with
        interactiveCherryPickSetup := repo.interactiveCherryPickSetup.map fun setup =>
          setupMessagesLoaded setup requestedIds result } :: repos
    else repo :: interactiveCherryPickMessagesLoaded repoId requestedIds result repos

def openSetup (repos : List PickRepo) (repoId : RepoId) : Option InteractiveCherryPickSetup :=
  (repos.find? fun repo => repo.id = repoId).bind (·.interactiveCherryPickSetup)

structure Attached (message : CommitId × Chars) (before after : InteractiveRebaseEntry) : Prop where
  commit : before.commitId = message.1 ∧ after.commitId = message.1
  action : after.action = before.action
  newMessage : after.newMessage = before.newMessage
  text : after.message = message.2
  summary : before.summary ≠ [] → after.summary = before.summary

structure Accepted (setup after : InteractiveCherryPickSetup)
    (messages : List (CommitId × Chars)) : Prop where
  ready : after.fullMessages = .ready ()
  ordered : Forall₂ (fun message entry => ∃ before ∈ setup.entries,
    Attached message before entry) messages after.entries
  none_lost : (ids after.entries).Perm (ids setup.entries)

def RightReply (setup : InteractiveCherryPickSetup) (requestedIds : List CommitId)
    (messages : List (CommitId × Chars)) : Prop :=
  ids setup.entries = requestedIds ∧ (messages.map Prod.fst).Perm (ids setup.entries) ∧
    (messages.map Prod.fst).Nodup

structure AttachedOrUnchanged (setup after : InteractiveCherryPickSetup)
    (requestedIds : List CommitId) (result : Except String (List (CommitId × Chars))) : Prop where
  accepts : ∀ messages, result = .ok messages → RightReply setup requestedIds messages →
    Accepted setup after messages
  refuses : (∀ messages, result = .ok messages → ¬RightReply setup requestedIds messages) →
    after.entries = setup.entries ∧ after.sourceColors = setup.sourceColors ∧
      (after.fullMessages = .ready () → after = setup)

def DoubledSetup (setup : InteractiveCherryPickSetup) (requestedIds : List CommitId)
    (result : Except String (List (CommitId × Chars))) : Prop :=
  ids setup.entries = requestedIds ∧ ¬(ids setup.entries).Nodup ∧
    ∃ messages, result = .ok messages ∧ messages.length = setup.entries.length ∧
      (messages.map Prod.fst).Nodup ∧ ids setup.entries ⊆ messages.map Prod.fst

section
variable {entries entriesById : List InteractiveRebaseEntry} {entry : InteractiveRebaseEntry}

theorem collectById_eq (h : (ids entries).Nodup) : collectById entries = entries := by
  induction entries using reverseRecOn with
  | nil => rfl
  | append_singleton entries entry ih =>
    rw [ids, map_append, nodup_append] at h
    obtain ⟨hnodup, -, happart⟩ := h
    have hfilter : entries.filter (fun other => other.commitId ≠ entry.commitId) = entries := by
      refine filter_eq_self.mpr fun other hother => decide_eq_true ?_
      exact happart _ (mem_map_of_mem hother) _ (mem_singleton_self _)
    rw [collectById, foldl_append, foldl_cons, foldl_nil]
    have ih' : entries.foldl insertById [] = entries := ih hnodup
    rw [ih', insertById, hfilter]

theorem collectById_subset (entries : List InteractiveRebaseEntry) :
    collectById entries ⊆ entries := by
  induction entries using reverseRecOn with
  | nil => exact Subset.refl _
  | append_singleton entries entry ih =>
    rw [collectById, foldl_append, foldl_cons, foldl_nil]
    intro other hother
    rcases mem_append.mp hother with hother | hother
    · exact mem_append_left _ (ih (mem_of_mem_filter hother))
    · exact mem_append_right _ hother

theorem removeById_of_mem (h : entry ∈ entriesById) (hnodup : (ids entriesById).Nodup) :
    removeById entriesById entry.commitId =
      some (entry, entriesById.filter fun other => other.commitId ≠ entry.commitId) := by
  have hfind : entriesById.find? (fun other => other.commitId = entry.commitId) = some entry := by
    induction entriesById with
    | nil => cases h
    | cons first rest ih =>
      rw [ids_cons, nodup_cons] at hnodup
      rcases mem_cons.mp h with rfl | hrest
      · exact find?_cons_of_pos (decide_eq_true rfl)
      · have hne : first.commitId ≠ entry.commitId := fun heq =>
          hnodup.1 (heq ▸ mem_map_of_mem hrest)
        rw [find?_cons_of_neg (by simpa using hne)]
        exact ih hrest hnodup.2
  rw [removeById, hfind, map_some]

theorem removeById_none {id : CommitId} (h : id ∉ ids entriesById) :
    removeById entriesById id = none := by
  have hfind : entriesById.find? (fun entry => entry.commitId = id) = none :=
    find?_eq_none.mpr fun entry hentry heq =>
      h (of_decide_eq_true heq ▸ mem_map_of_mem hentry)
  rw [removeById, hfind, map_none]

theorem removeById_some {id : CommitId} {rest : List InteractiveRebaseEntry}
    (h : removeById entriesById id = some (entry, rest)) : rest ⊆ entriesById := by
  obtain ⟨found, -, hfound⟩ := map_eq_some_iff.mp h
  obtain rfl : entriesById.filter (fun other => other.commitId ≠ id) = rest :=
    congrArg Prod.snd hfound
  exact fun _ hmem => mem_of_mem_filter hmem

theorem ids_without (id : CommitId) (entries : List InteractiveRebaseEntry) :
    ids (entries.filter fun other => other.commitId ≠ id) = (ids entries).filter (· ≠ id) := by
  rw [ids, ids, List.filter_map]
  rfl

end

theorem withMessage_attached (entry : InteractiveRebaseEntry) (message : Chars) :
    Attached (entry.commitId, message) entry (withMessage entry message) where
  commit := ⟨rfl, rfl⟩
  action := rfl
  newMessage := rfl
  text := rfl
  summary h := if_neg h

section
variable {entriesById : List InteractiveRebaseEntry} {messages : List (CommitId × Chars)}

theorem orderEntries_all (orderedEntries : List InteractiveRebaseEntry)
    (hnodup : (ids entriesById).Nodup) (h : (messages.map Prod.fst).Perm (ids entriesById)) :
    ∃ placed,
      orderEntries entriesById orderedEntries messages = .ok ([], orderedEntries ++ placed) ∧
      Forall₂ (fun message entry => ∃ before ∈ entriesById, Attached message before entry)
        messages placed := by
  induction messages generalizing entriesById orderedEntries with
  | nil =>
    obtain rfl : entriesById = [] := map_eq_nil_iff.mp (nil_perm.mp h)
    exact ⟨[], by rw [append_nil]; rfl, .nil⟩
  | cons first messages ih =>
    obtain ⟨id, message⟩ := first
    rw [map_cons] at h
    obtain ⟨entry, hentry, rfl⟩ := mem_map.mp (h.subset mem_cons_self)
    have hrest := h.filter (· ≠ entry.commitId)
    have hfresh : entry.commitId ∉ messages.map Prod.fst :=
      (nodup_cons.mp (h.nodup_iff.mpr hnodup)).1
    have hkept : (messages.map Prod.fst).filter (· ≠ entry.commitId) = messages.map Prod.fst := by
      refine filter_eq_self.mpr fun id hid => decide_eq_true ?_
      rintro rfl
      exact hfresh hid
    rw [filter_cons_of_neg (by simp), ← ids_without, hkept] at hrest
    have hleft : (ids (entriesById.filter fun other => other.commitId ≠ entry.commitId)).Nodup := by
      rw [ids_without]
      exact hnodup.filter _
    obtain ⟨placed, hplaced, hattached⟩ :=
      ih (orderedEntries ++ [withMessage entry message]) hleft hrest
    refine ⟨withMessage entry message :: placed, ?_,
      .cons ⟨entry, hentry, withMessage_attached entry message⟩ ?_⟩
    · rw [orderEntries, removeById_of_mem hentry hnodup]
      simp only [hplaced, append_assoc, singleton_append]
    · exact hattached.imp fun _ _ ⟨before, hbefore, h⟩ =>
        ⟨before, mem_of_mem_filter hbefore, h⟩

theorem orderEntries_unexpected (orderedEntries : List InteractiveRebaseEntry) {id : CommitId}
    (hid : id ∈ messages.map Prod.fst) (h : id ∉ ids entriesById) :
    ∃ stray, orderEntries entriesById orderedEntries messages = .error stray := by
  induction messages generalizing entriesById orderedEntries with
  | nil => cases hid
  | cons first messages ih =>
    obtain ⟨first, message⟩ := first
    cases hremove : removeById entriesById first with
    | none => exact ⟨first, by rw [orderEntries, hremove]⟩
    | some found =>
      obtain ⟨entry, rest⟩ := found
      rw [orderEntries, hremove]
      rcases mem_cons.mp hid with rfl | hid
      · rw [removeById_none h] at hremove
        cases hremove
      · exact ih _ hid fun hmem => h (map_subset _ (removeById_some hremove) hmem)

theorem attached_ids {before after : List InteractiveRebaseEntry}
    (h : Forall₂ (fun message entry => ∃ source ∈ before, Attached message source entry)
      messages after) : ids after = messages.map Prod.fst := by
  induction h with
  | nil => rfl
  | cons hentry _ ih =>
    obtain ⟨source, -, hattached⟩ := hentry
    rw [ids_cons, map_cons, ih, hattached.commit.2]

end

section
variable {setup : InteractiveCherryPickSetup} {requestedIds : List CommitId}
  {messages : List (CommitId × Chars)}

theorem refusesMessages_iff : refusesMessages setup messages = false ↔
    messages.length = setup.entries.length ∧ (messages.map Prod.fst).Nodup ∧
      ids setup.entries ⊆ messages.map Prod.fst := by
  have hlen : (messages.map Prod.fst).dedup.length = messages.length ↔
      (messages.map Prod.fst).Nodup := by
    rw [← dedup_eq_self, ← length_map (f := Prod.fst)]
    exact ⟨fun h => (dedup_sublist _).eq_of_length h, fun h => by rw [h]⟩
  have hall : setup.entries.all (fun entry =>
      decide (entry.commitId ∈ (messages.map Prod.fst).dedup)) ↔
      ids setup.entries ⊆ messages.map Prod.fst := by
    simp only [List.all_eq_true, decide_eq_true_eq, mem_dedup]
    refine ⟨fun h id hid => ?_, fun h entry hentry => h (mem_map_of_mem hentry)⟩
    obtain ⟨entry, hentry, rfl⟩ := List.mem_map.mp hid
    exact h entry hentry
  rw [refusesMessages, Bool.or_eq_false_iff, Bool.or_eq_false_iff, Bool.not_eq_false', hall,
    decide_eq_false_iff_not, decide_eq_false_iff_not, not_not, not_not, hlen, and_assoc]

theorem perm_of_cover (hlen : messages.length = setup.entries.length)
    (hnodup : (ids setup.entries).Nodup) (hsub : ids setup.entries ⊆ messages.map Prod.fst) :
    (messages.map Prod.fst).Perm (ids setup.entries) := by
  refine ((subperm_of_subset hnodup hsub).perm_of_length_le ?_).symm
  rw [ids, length_map, length_map, hlen]

theorem setupMessagesLoaded_stale (h : ids setup.entries ≠ requestedIds)
    (result : Except String (List (CommitId × Chars))) :
    setupMessagesLoaded setup requestedIds result = setup := if_pos h

theorem setupMessagesLoaded_error (h : ids setup.entries = requestedIds) (error : String) :
    setupMessagesLoaded setup requestedIds (.error error) =
      { setup with fullMessages := .error error } := if_neg (not_not.mpr h)

theorem setupMessagesLoaded_ok (h : ids setup.entries = requestedIds) :
    setupMessagesLoaded setup requestedIds (.ok messages) =
      if refusesMessages setup messages then
        { setup with fullMessages := .error invalidSelection }
      else placeMessages setup messages := if_neg (not_not.mpr h)

theorem right_not_refused (h : RightReply setup requestedIds messages) :
    refusesMessages setup messages = false := by
  obtain ⟨-, hperm, hnodup⟩ := h
  refine refusesMessages_iff.mpr ⟨?_, hnodup, hperm.symm.subset⟩
  have hlen := hperm.length_eq
  rwa [ids, length_map, length_map] at hlen

theorem setupMessagesLoaded_right (h : RightReply setup requestedIds messages) :
    Accepted setup (setupMessagesLoaded setup requestedIds (.ok messages)) messages := by
  have hnodup : (ids setup.entries).Nodup := h.2.1.nodup_iff.mp h.2.2
  obtain ⟨placed, hplaced, hattached⟩ :=
    orderEntries_all [] hnodup h.2.1
  rw [setupMessagesLoaded_ok h.1, right_not_refused h, if_neg Bool.false_ne_true, placeMessages,
    collectById_eq hnodup, hplaced, nil_append]
  refine ⟨rfl, hattached, ?_⟩
  rw [attached_ids hattached]
  exact h.2.1

theorem doubled_emptied (hids : ids setup.entries = requestedIds)
    (hdoubled : ¬(ids setup.entries).Nodup) (hlen : messages.length = setup.entries.length)
    (hnodup : (messages.map Prod.fst).Nodup) (hsub : ids setup.entries ⊆ messages.map Prod.fst) :
    (setupMessagesLoaded setup requestedIds (.ok messages)).entries = [] := by
  have hstray : ∃ id ∈ messages.map Prod.fst, id ∉ ids setup.entries := by
    by_contra hnone
    have hback : messages.map Prod.fst ⊆ ids setup.entries := fun id hid =>
      not_not.mp fun hmem => hnone ⟨id, hid, hmem⟩
    have hperm := (subperm_of_subset hnodup hback).perm_of_length_le
      (by rw [ids, length_map, length_map, hlen])
    exact hdoubled (hperm.nodup_iff.mp hnodup)
  obtain ⟨id, hid, hmissing⟩ := hstray
  obtain ⟨stray, horder⟩ := orderEntries_unexpected [] hid
    fun hmem => hmissing (map_subset _ (collectById_subset setup.entries) hmem)
  rw [setupMessagesLoaded_ok hids, refusesMessages_iff.mpr ⟨hlen, hnodup, hsub⟩,
    if_neg Bool.false_ne_true, placeMessages, horder]

theorem attachedOrUnchanged_iff (result : Except String (List (CommitId × Chars))) :
    AttachedOrUnchanged setup (setupMessagesLoaded setup requestedIds result) requestedIds result ↔
      ¬DoubledSetup setup requestedIds result := by
  constructor
  · rintro h ⟨hids, hdoubled, messages, rfl, hlen, hnodup, hsub⟩
    have hkept := (h.refuses fun other hother hright => by
      cases hother
      exact hdoubled (hright.2.1.nodup_iff.mp hright.2.2)).1
    rw [doubled_emptied hids hdoubled hlen hnodup hsub] at hkept
    rw [← hkept] at hdoubled
    exact hdoubled nodup_nil
  · intro hsingle
    refine ⟨?_, fun hwrong => ?_⟩
    · rintro messages rfl hright
      exact setupMessagesLoaded_right hright
    · by_cases hids : ids setup.entries = requestedIds
      · cases result with
        | error error =>
          rw [setupMessagesLoaded_error hids]
          exact ⟨rfl, rfl, fun hready => by cases hready⟩
        | ok messages =>
          rw [setupMessagesLoaded_ok hids]
          by_cases hrefuses : refusesMessages setup messages
          · rw [if_pos hrefuses]
            exact ⟨rfl, rfl, fun hready => by cases hready⟩
          · obtain ⟨hlen, hnodup, hsub⟩ :=
              refusesMessages_iff.mp (Bool.eq_false_of_not_eq_true hrefuses)
            have hentries : (ids setup.entries).Nodup := not_not.mp fun hdoubled =>
              hsingle ⟨hids, hdoubled, messages, rfl, hlen, hnodup, hsub⟩
            exact absurd ⟨hids, perm_of_cover hlen hentries hsub, hnodup⟩ (hwrong messages rfl)
      · rw [setupMessagesLoaded_stale hids]
        exact ⟨rfl, rfl, fun _ => rfl⟩

end

section
variable {repos : List PickRepo} {repoId : RepoId} {requestedIds : List CommitId}
  {result : Except String (List (CommitId × Chars))}

theorem openSetup_first {repo : PickRepo} (h : repo.id = repoId) :
    openSetup (repo :: repos) repoId = repo.interactiveCherryPickSetup := by
  have hfind : (repo :: repos).find? (fun repo => decide (repo.id = repoId)) = some repo :=
    find?_cons_of_pos (decide_eq_true h)
  rw [openSetup, hfind, bind_some]

theorem openSetup_later {repo : PickRepo} (h : repo.id ≠ repoId) :
    openSetup (repo :: repos) repoId = openSetup repos repoId := by
  have hfind : (repo :: repos).find? (fun repo => decide (repo.id = repoId)) =
      repos.find? fun repo => decide (repo.id = repoId) :=
    find?_cons_of_neg (by simpa using h)
  rw [openSetup, hfind, openSetup]

theorem openSetup_loaded (repos : List PickRepo) :
    openSetup (interactiveCherryPickMessagesLoaded repoId requestedIds result repos) repoId =
      (openSetup repos repoId).map fun setup => setupMessagesLoaded setup requestedIds result := by
  induction repos with
  | nil => rfl
  | cons repo repos ih =>
    by_cases hid : repo.id = repoId
    · rw [interactiveCherryPickMessagesLoaded, if_pos hid, openSetup_first hid]
      exact openSetup_first hid
    · rw [interactiveCherryPickMessagesLoaded, if_neg hid, openSetup_later hid,
        openSetup_later hid, ih]

theorem openSetup_elsewhere {other : RepoId} (h : other ≠ repoId) (repos : List PickRepo) :
    openSetup (interactiveCherryPickMessagesLoaded repoId requestedIds result repos) other =
      openSetup repos other := by
  induction repos with
  | nil => rfl
  | cons repo repos ih =>
    by_cases hid : repo.id = repoId
    · have hne : repo.id ≠ other := fun heq => h (heq.symm.trans hid)
      rw [interactiveCherryPickMessagesLoaded, if_pos hid, openSetup_later hne]
      exact openSetup_later hne
    · rw [interactiveCherryPickMessagesLoaded, if_neg hid]
      by_cases hother : repo.id = other
      · rw [openSetup_first hother, openSetup_first hother]
      · rw [openSetup_later hother, openSetup_later hother, ih]

structure MessagesAttach (repos : List PickRepo) (repoId : RepoId) (requestedIds : List CommitId)
    (result : Except String (List (CommitId × Chars))) (after : List PickRepo) : Prop where
  here : ∀ setup, openSetup repos repoId = some setup →
    ∃ loaded, openSetup after repoId = some loaded ∧
      AttachedOrUnchanged setup loaded requestedIds result
  closed : openSetup repos repoId = none → openSetup after repoId = none
  elsewhere : ∀ other, other ≠ repoId → openSetup after other = openSetup repos other

end

def twiceSelected : InteractiveCherryPickSetup where
  entries := [⟨.pick, ['a'], ['s'], ['s'], none⟩, ⟨.drop, ['a'], ['s'], ['s'], none⟩]
  sourceColors := []
  fullMessages := .loading

end GitComet.Rebase
