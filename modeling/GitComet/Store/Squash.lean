import GitComet.Store.SequencerCount

variable {plan : SquashPlan}

namespace GitComet.Store
open List Option

structure Commit where
  id : CommitId
  parentIds : List CommitId
  deriving DecidableEq

def commitById (commits : List Commit) (id : CommitId) : Option Commit :=
  commits.reverse.find? fun commit => commit.id = id

def soleParent (commits : List Commit) (id : CommitId) : Option CommitId :=
  (commitById commits id).bind fun commit =>
    match commit.parentIds with
    | [parent] => some parent
    | _ => none

def squashWalk (commits : List Commit) (selected : List CommitId) (actualHead : CommitId) :
    ℕ → CommitId → List CommitId → Bool → Bool → Option SquashPlan
  | 0, _, _, _, _ => none
  | fuel + 1, current, orderedIds, insideSelection, gapWithinSelection =>
    (soleParent commits current).bind fun parent =>
      if selected.contains current then
        if gapWithinSelection then none
        else if (orderedIds ++ [current]).length = selected.length then
          some ⟨actualHead, orderedIds.headD current, current, parent, selected.length,
            orderedIds ++ [current]⟩
        else
          squashWalk commits selected actualHead fuel parent (orderedIds ++ [current]) true
            gapWithinSelection
      else
        squashWalk commits selected actualHead fuel parent orderedIds insideSelection
          (insideSelection || gapWithinSelection)

-- On a page with a cycle of parents the loop of the source may run for ever: a plan is produced
-- when some amount of fuel produces it.
def squashEligibility (fuel : ℕ) (commits : List Commit) (selected : List CommitId)
    (actualHead : CommitId) : Option SquashPlan :=
  if selected.length < 2 then none
  else if ¬selected.Nodup then none
  else if selected.any fun id => (commitById commits id).isNone then none
  else squashWalk commits selected actualHead fuel actualHead [] false false

def FirstParent (commits : List Commit) (child parent : CommitId) : Prop :=
  ∃ commit, commitById commits child = some commit ∧ commit.parentIds = [parent]

theorem firstParent_of_sole {commits : List Commit} {child parent : CommitId}
    (hparent : soleParent commits child = some parent) : FirstParent commits child parent := by
  obtain ⟨commit, hcommit, hsole⟩ := bind_eq_some_iff.mp hparent
  split at hsole
  · next hparents =>
    cases hsole
    exact ⟨commit, hcommit, hparents⟩
  · cases hsole

structure SquashPlan.InARow (plan : SquashPlan) (commits : List Commit)
    (selected : List CommitId) : Prop where
  head : plan.orderedIds.head? = some plan.head
  oldest : plan.orderedIds.getLast? = some plan.oldest
  count : plan.commitCount = plan.orderedIds.length
  chosen : ∀ id ∈ plan.orderedIds, id ∈ selected
  chain : IsChain (FirstParent commits) (plan.orderedIds ++ [plan.oldestParent])

structure WalkInARow (commits : List Commit) (selected orderedIds : List CommitId)
    (current : CommitId) (inside gap : Bool) : Prop where
  chosen : ∀ id ∈ orderedIds, id ∈ selected
  inside_iff : inside = !orderedIds.isEmpty
  chain : gap = false → IsChain (FirstParent commits) (orderedIds ++ [current])

namespace WalkInARow

variable {commits : List Commit} {selected orderedIds : List CommitId}
  {current parent : CommitId} {inside gap : Bool}

theorem start (current : CommitId) : WalkInARow commits selected [] current false false :=
  ⟨fun _ hid => absurd hid not_mem_nil, rfl, fun _ => isChain_singleton current⟩

theorem pass (hrow : WalkInARow commits selected orderedIds current inside gap) :
    WalkInARow commits selected orderedIds parent inside (inside || gap) := by
  refine ⟨hrow.chosen, hrow.inside_iff, fun hgap => ?_⟩
  have hinside : inside = false := (Bool.or_eq_false_iff.mp hgap).1
  have hempty : orderedIds = [] := by
    simpa [hinside] using hrow.inside_iff
  rw [hempty]
  exact isChain_singleton parent

theorem chain_collect (hrow : WalkInARow commits selected orderedIds current inside false)
    (hparent : FirstParent commits current parent) :
    IsChain (FirstParent commits) (orderedIds ++ [current] ++ [parent]) := by
  refine isChain_append.mpr ⟨hrow.chain rfl, isChain_singleton parent, ?_⟩
  intro x hx y hy
  rw [getLast?_concat, mem_some_iff] at hx
  rw [head?_cons, mem_some_iff] at hy
  rwa [← hx, ← hy]

theorem collect (hrow : WalkInARow commits selected orderedIds current inside false)
    (hselected : current ∈ selected) (hparent : FirstParent commits current parent) :
    WalkInARow commits selected (orderedIds ++ [current]) parent true false := by
  refine ⟨?_, by simp, fun _ => hrow.chain_collect hparent⟩
  intro id hid
  rcases mem_append.mp hid with hid | hid
  · exact hrow.chosen id hid
  · rwa [mem_singleton.mp hid]

end WalkInARow

variable {actualHead : CommitId} {fuel : ℕ}

theorem squashWalk_inARow {commits : List Commit} {selected : List CommitId} {current : CommitId}
    {orderedIds : List CommitId} {inside gap : Bool}
    (hrow : WalkInARow commits selected orderedIds current inside gap)
    (hplan : squashWalk commits selected actualHead fuel current orderedIds inside gap =
      some plan) :
    plan.InARow commits selected := by
  induction fuel generalizing current orderedIds inside gap with
  | zero => cases hplan
  | succ fuel ih =>
    rw [squashWalk, bind_eq_some_iff] at hplan
    obtain ⟨parent, hparent, hplan⟩ := hplan
    have hfirst := firstParent_of_sole hparent
    split_ifs at hplan with hselected hgap hlength
    · obtain rfl : gap = false := by simpa using hgap
      have hnext := hrow.collect (contains_iff_mem.mp hselected) hfirst
      cases hplan
      refine ⟨?_, getLast?_concat, hlength.symm, hnext.chosen, hnext.chain rfl⟩
      cases orderedIds <;> rfl
    · obtain rfl : gap = false := by simpa using hgap
      exact ih (hrow.collect (contains_iff_mem.mp hselected) hfirst) hplan
    · exact ih hrow.pass hplan

theorem squashEligibility_inARow {commits : List Commit} {selected : List CommitId}
    (hplan : squashEligibility fuel commits selected actualHead = some plan) :
    plan.InARow commits selected := by
  rw [squashEligibility] at hplan
  split_ifs at hplan
  exact squashWalk_inARow (.start actualHead) hplan

theorem SquashPlan.InARow.oldest_mem {commits : List Commit}
    {selected : List CommitId} (hrow : plan.InARow commits selected) :
    plan.oldest ∈ plan.orderedIds :=
  mem_of_getLast? hrow.oldest

end GitComet.Store

namespace GitComet.Store

variable {w : Surroundings}

inductive Squashed (plan : SquashPlan) (message : Chars) :
    InteractiveRebaseEntry → InteractiveRebaseEntry → Prop
  | unselected {entry : InteractiveRebaseEntry} (hid : entry.commitId ∉ plan.orderedIds) :
    Squashed plan message entry entry
  | anchor {entry : InteractiveRebaseEntry} (hid : entry.commitId = plan.oldest) :
    Squashed plan message entry { entry with action := .reword, newMessage := some message }
  | folded {entry : InteractiveRebaseEntry} (hid : entry.commitId ∈ plan.orderedIds)
    (hanchor : entry.commitId ≠ plan.oldest) :
    Squashed plan message entry { entry with action := .fixup }

structure SquashPlan.OneBlock (plan : SquashPlan) (live : List CommitId) : Prop where
  once : ∀ id ∈ plan.orderedIds, live.count id = 1
  block : ∃ older folded newer, live = older ++ plan.oldest :: folded ++ newer ∧
    (∀ id ∈ older, id ∉ plan.orderedIds) ∧ (∀ id ∈ folded, id ∈ plan.orderedIds) ∧
    ∀ id ∈ newer, id ∉ plan.orderedIds

structure TouchesOnlyConfirmed (plan : SquashPlan) (s : AppState w) (repoId : RepoId)
    (message : Chars) (entries : List InteractiveRebaseEntry)
    (reduced : AppState w × List (Effect w)) : Prop where
  started : reduced.2 ≠ [] →
    (entries.map (·.commitId)).getLast? = some plan.actualHead ∧
      plan.OneBlock (entries.map (·.commitId)) ∧
      ∃ todo, List.Forall₂ (Squashed plan message) entries todo ∧
        reduced = (beginLocalAction s repoId,
          [.interactiveRebase repoId plan.oldestParent todo false])
  refused : reduced.2 = [] →
    reduced.1 = s ∨ reduced.1 = s.pushNotification .warning squashCancelled

def SquashPlan.setupLoaded (plan : SquashPlan) (h : Handlers w) (s : AppState w)
    (repoId : RepoId) (message : Chars) (count : ℕ)
    (result : Except w.Error (List InteractiveRebaseEntry)) : AppState w × List (Effect w) :=
  squashRebaseSetupLoaded h s repoId plan.oldestParent plan.actualHead plan.orderedIds
    plan.oldest message count result

theorem squashTodo_squashed (plan : SquashPlan) (message : Chars)
    (entries : List InteractiveRebaseEntry) :
    List.Forall₂ (Squashed plan message) entries
      (entries.map (squashTodo plan.orderedIds plan.oldest message)) := by
  refine List.forall₂_map_right_iff.mpr (List.forall₂_same.mpr fun entry _ => ?_)
  rw [squashTodo]
  split_ifs with hanchor hselected
  · exact .anchor hanchor
  · exact .folded hselected hanchor
  · exact .unselected hselected

theorem squashReady_iff (holdest : plan.oldest ∈ plan.orderedIds) (count : ℕ)
    (entries : List InteractiveRebaseEntry) :
    squashReady plan.actualHead plan.orderedIds plan.oldest count entries ↔
      (entries.map (·.commitId)).getLast? = some plan.actualHead ∧
        plan.oldest ∈ entries.map (·.commitId) ∧
        (entries.map (·.commitId)).countP (· ∈ plan.orderedIds) = count := by
  have hcount : (entries.countP fun entry =>
      entry.commitId = plan.oldest ∨ entry.commitId ∈ plan.orderedIds) =
        (entries.map (·.commitId)).countP (· ∈ plan.orderedIds) := by
    rw [List.countP_map]
    refine List.countP_congr fun entry _ => ?_
    simp only [Function.comp_apply, decide_eq_true_eq]
    exact ⟨fun hid => hid.elim (fun hid => hid ▸ holdest) id, .inr⟩
  rw [squashReady, hcount]
  simp only [Bool.and_eq_true, decide_eq_true_eq, List.any_eq_true, Option.any_eq_true,
    List.getLast?_map, Option.map_eq_some_iff, List.mem_map, and_assoc]

variable {s : AppState w} {repoId : RepoId}

theorem setupLoaded_closed (h : Handlers w) (hclosed : (s.repo? repoId).isNone) (plan : SquashPlan)
    (message : Chars) (count : ℕ) (result : Except w.Error (List InteractiveRebaseEntry)) :
    plan.setupLoaded h s repoId message count result = (s, []) :=
  if_pos hclosed

theorem setupLoaded_open (h : Handlers w) (hopen : ¬(s.repo? repoId).isNone) (plan : SquashPlan)
    (message : Chars) (count : ℕ) (entries : List InteractiveRebaseEntry) :
    plan.setupLoaded h s repoId message count (.ok entries) =
      if squashReady plan.actualHead plan.orderedIds plan.oldest count entries then
        (beginLocalAction s repoId, [.interactiveRebase repoId plan.oldestParent
          (entries.map (squashTodo plan.orderedIds plan.oldest message)) false])
      else (s.pushNotification .warning squashCancelled, []) :=
  if_neg hopen

theorem squash_touches_only_confirmed_iff {fuel : ℕ} {commits : List Commit}
    {selected : List CommitId} {actualHead : CommitId} {plan : SquashPlan}
    (hplan : squashEligibility fuel commits selected actualHead = some plan) (h : Handlers w)
    (s : AppState w) (repoId : RepoId) (message : Chars) (count : ℕ)
    (entries : List InteractiveRebaseEntry) :
    TouchesOnlyConfirmed plan s repoId message entries
        (plan.setupLoaded h s repoId message count (.ok entries)) ↔
      ((s.repo? repoId).isSome → (entries.map (·.commitId)).getLast? = some plan.actualHead →
        plan.oldest ∈ entries.map (·.commitId) →
        (entries.map (·.commitId)).countP (· ∈ plan.orderedIds) = count →
        plan.OneBlock (entries.map (·.commitId))) := by
  have holdest : plan.oldest ∈ plan.orderedIds := (squashEligibility_inARow hplan).oldest_mem
  constructor
  · intro htouches hrepo hhead hanchor hcount
    have hopen : ¬(s.repo? repoId).isNone := by
      simpa [Option.isSome_iff_ne_none] using hrepo
    have hready := (squashReady_iff holdest count entries).mpr ⟨hhead, hanchor, hcount⟩
    rw [setupLoaded_open h hopen, if_pos hready] at htouches
    exact (htouches.started (List.cons_ne_nil _ _)).2.1
  · intro hblock
    by_cases hclosed : (s.repo? repoId).isNone
    · rw [setupLoaded_closed h hclosed]
      exact ⟨fun hne => absurd rfl hne, fun _ => .inl rfl⟩
    · rw [setupLoaded_open h hclosed]
      split_ifs with hready
      · have hrepo : (s.repo? repoId).isSome := by
          simpa [Option.isSome_iff_ne_none] using hclosed
        obtain ⟨hhead, hanchor, hcount⟩ := (squashReady_iff holdest count entries).mp hready
        refine ⟨fun _ => ⟨hhead, hblock hrepo hhead hanchor hcount, _,
          squashTodo_squashed plan message entries, rfl⟩, fun hnil => ?_⟩
        exact absurd hnil (List.cons_ne_nil _ _)
      · exact ⟨fun hne => absurd rfl hne, fun _ => .inr rfl⟩

def fourCommits : List Commit :=
  [⟨['d'], [['c']]⟩, ⟨['c'], [['b']]⟩, ⟨['b'], [['a']]⟩, ⟨['a'], [['r']]⟩]

def middleOfFour : SquashPlan := ⟨['d'], ['c'], ['b'], ['a'], 2, [['c'], ['b']]⟩

def picks (ids : List Char) : List InteractiveRebaseEntry :=
  ids.map fun id => ⟨.pick, [id], [], [], none⟩

def oneRepo : AppState signing := ⟨⟨none, true, [], ()⟩, [⟨⟨0, 0, ()⟩, 1, ['r'], 0⟩], 2⟩

theorem squash_touches_only_confirmed_middle :
    TouchesOnlyConfirmed middleOfFour oneRepo 1 ['m'] (picks ['b', 'c', 'd'])
      (middleOfFour.setupLoaded signingHandlers oneRepo 1 ['m'] 2
        (.ok (picks ['b', 'c', 'd']))) := by
  have hplan : squashEligibility 4 fourCommits [['b'], ['c']] ['d'] = some middleOfFour := by
    decide
  refine (squash_touches_only_confirmed_iff hplan signingHandlers oneRepo 1 ['m'] 2 _).mpr ?_
  intro _ _ _ _
  exact ⟨by decide, [], [['c']], [['d']], rfl, by decide, by decide, by decide⟩

theorem squash_folds_into_foreign_commit :
    squashEligibility 4 fourCommits [['b'], ['c']] ['d'] = some middleOfFour ∧
      ¬TouchesOnlyConfirmed middleOfFour oneRepo 1 ['m'] (picks ['b', 'x', 'c', 'd'])
        (middleOfFour.setupLoaded signingHandlers oneRepo 1 ['m'] middleOfFour.commitCount
          (.ok (picks ['b', 'x', 'c', 'd']))) := by
  refine ⟨by decide, fun htouches => ?_⟩
  obtain ⟨older, folded, newer, hlive, holder, hfolded, hnewer⟩ :=
    (htouches.started (List.cons_ne_nil _ _)).2.1.block
  cases older with
  | cons id older =>
    obtain rfl : ['b'] = id := (List.cons.inj hlive).1
    exact holder _ List.mem_cons_self (by decide)
  | nil =>
    have hrest : [['x'], ['c'], ['d']] = folded ++ newer := (List.cons.inj hlive).2
    cases folded with
    | cons id folded =>
      obtain rfl : ['x'] = id := (List.cons.inj hrest).1
      exact absurd (hfolded _ List.mem_cons_self) (by decide)
    | nil =>
      obtain rfl : [['x'], ['c'], ['d']] = newer := hrest
      exact hnewer ['c'] (by decide) (by decide)

end GitComet.Store
