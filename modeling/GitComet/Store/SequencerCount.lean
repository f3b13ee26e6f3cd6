import GitComet.Store.SequencerPasses

namespace GitComet.Store
open List Nat Text Option

variable {w : Surroundings} (h : Handlers w)

def owing (outstanding : List (Effect w)) (repoId : RepoId) : ℕ :=
  (outstanding.filterMap sequencerEffectRepo).count repoId

structure Counted (s : AppState w) (outstanding : List (Effect w)) : Prop where
  unique : s.ids.Nodup
  handed : ∀ repoId ∈ s.ids, repoId < s.nextRepoId
  owed : ∀ repoId ∈ outstanding.filterMap sequencerEffectRepo, repoId < s.nextRepoId
  exact : ∀ repoId ∈ s.ids, s.counter repoId = owing outstanding repoId

namespace Counted

variable {s s' : AppState w} {outstanding : List (Effect w)}

section
variable (hc : Counted s outstanding)
include hc

theorem quiet (hs : Shifted (fun _ => id) s s') : Counted s' outstanding := by
  refine ⟨hc.unique.sublist hs.ids, ?_, ?_, ?_⟩
  · intro repoId hid
    rw [hs.next]
    exact hc.handed repoId (hs.ids.subset hid)
  · rw [hs.next]
    exact hc.owed
  · intro repoId hid
    rw [hs.counter repoId hid]
    exact hc.exact repoId (hs.ids.subset hid)

theorem cleared : Counted { s with repos := [] } outstanding :=
  ⟨nodup_nil, fun _ hid => absurd hid not_mem_nil, hc.owed,
    fun _ hid => absurd hid not_mem_nil⟩

theorem pushRepo (workdir : Chars) (fields : RepoFields w) :
    Counted (s.pushRepo workdir fields) outstanding := by
  have hids : (s.pushRepo workdir fields).ids = s.ids ++ [s.nextRepoId] := by
    rw [AppState.ids, AppState.pushRepo, map_append]
    rfl
  have hfresh : s.nextRepoId ∉ s.ids := fun hid => absurd (hc.handed _ hid) (lt_irrefl _)
  refine ⟨?_, ?_, fun repoId hid => lt_succ_of_lt (hc.owed repoId hid), ?_⟩
  · rw [hids]
    exact Nodup.append hc.unique (nodup_singleton _) (disjoint_singleton.mpr hfresh)
  · intro repoId hid
    rw [hids, mem_append, mem_singleton] at hid
    rcases hid with hid | rfl
    · exact lt_succ_of_lt (hc.handed repoId hid)
    · exact lt_succ_self _
  · intro repoId hid
    rw [hids, mem_append, mem_singleton] at hid
    rw [AppState.counter, AppState.repo?, AppState.pushRepo, find?_append]
    rcases hid with hid | rfl
    · have hexact := hc.exact repoId hid
      rw [AppState.counter, AppState.repo?] at hexact
      obtain ⟨repo, hrepo, hro⟩ := mem_map.mp hid
      cases hfind : s.repos.find? fun repo => repo.id = repoId with
      | none => exact absurd hro (by simpa using find?_eq_none.mp hfind repo hrepo)
      | some found =>
        rw [hfind] at hexact
        exact hexact
    · have hnone : s.repos.find? (fun repo => repo.id = s.nextRepoId) = none := by
        refine find?_eq_none.mpr fun repo hrepo hsame => hfresh ?_
        exact mem_map.mpr ⟨repo, hrepo, of_decide_eq_true hsame⟩
      have hzero : owing outstanding s.nextRepoId = 0 :=
        count_eq_zero.mpr fun hid => absurd (hc.owed _ hid) (lt_irrefl _)
      rw [hnone, hzero]
      simp

theorem opened (message : Msg w) (hopens : message.opens) :
    Counted (reduce h s message).1 outstanding ∧
      (reduce h s message).2.filterMap sequencerEffectRepo = [] := by
  have htracked : ∀ {s' : AppState w} (effects : List w.Effect), Counted s' outstanding →
      Counted (track h (s', effects.map .other)).1 outstanding ∧
        (track h (s', effects.map .other)).2.filterMap sequencerEffectRepo = [] := by
    intro s' effects hc'
    have hpasses : Passes s' (track h (s', effects.map .other)) none none (0 + 1) :=
      (Passes.silent (.refl s') effects).track h
    exact ⟨hc'.quiet (hpasses.state.congr fun _ _ => by simp [moved]), hpasses.effects⟩
  cases message with
  | openRepo path =>
    rw [reduce, reduceInner]
    split_ifs
    · rw [openRepo]
      split_ifs
      · exact htracked _ (hc.quiet (shifted_absorb s _))
      · exact htracked _ ((hc.quiet (shifted_absorb s _)).pushRepo _ _)
    · exact htracked [] hc
  | restoreSession openRepos activeRepo =>
    rw [reduce, reduceInner]
    split_ifs
    · rw [restoreSession]
      refine htracked _ (Counted.quiet ?_ (shifted_absorb _ _))
      generalize (openRepos.eraseDups.map h.normalizeRepoPath).eraseDups = workdirs
      have hall : ∀ s' : AppState w, Counted s' outstanding →
          Counted (workdirs.foldl (fun s workdir => s.pushRepo workdir (h.newOpening workdir)) s')
            outstanding := by
        induction workdirs with
        | nil => exact fun _ hc' => hc'
        | cons workdir workdirs ih => exact fun s' hc' => ih _ (hc'.pushRepo workdir _)
      exact hall _ hc.cleared
    · exact htracked [] hc
  | _ => cases hopens

end

end Counted

def emitted (s : AppState w) (message : Msg w) : List (Effect w) :=
  (reduce h s message).2.filter fun effect =>
    (sequencerEffectRepo effect).any fun repoId => repoId ∈ (reduce h s message).1.ids

theorem filterMap_emitted (s : AppState w) (message : Msg w) :
    (emitted h s message).filterMap sequencerEffectRepo =
      ((reduce h s message).2.filterMap sequencerEffectRepo).filter
        fun repoId => repoId ∈ (reduce h s message).1.ids := by
  rw [emitted, filterMap_filter, filter_filterMap]
  refine filterMap_congr fun effect _ => ?_
  cases sequencerEffectRepo effect with
  | none => rfl
  | some repoId =>
    by_cases hid : repoId ∈ (reduce h s message).1.ids <;> simp [hid, Option.filter]

def CountedOnce (s : AppState w) (message : Msg w) : Prop :=
  ∀ repoId ∈ s.ids, startedBy h s message = some repoId →
    message.passes = 1 ∧ s.counter repoId < u32Max

theorem moved_started {start finish : Option RepoId} {passes n : ℕ} {repoId : RepoId}
    (honce : start = some repoId → passes = 1 ∧ n < u32Max) :
    moved start finish passes repoId n =
      (n - if finish = some repoId then 1 else 0) + if start = some repoId then 1 else 0 := by
  have hreleased : (if finish = some repoId then n - 1 else n) =
      n - if finish = some repoId then 1 else 0 := by split_ifs <;> rfl
  rw [moved, hreleased]
  by_cases hstart : start = some repoId
  · obtain ⟨rfl, hroom⟩ := honce hstart
    rw [if_pos hstart, Function.iterate_one, satSucc]
    exact min_eq_left (succ_le_of_lt (lt_of_le_of_lt (sub_le _ _) hroom))
  · rw [if_neg hstart, if_neg hstart, Function.iterate_zero, id, add_zero]

theorem Counted.reduce {s : AppState w} {outstanding left : List (Effect w)} {message : Msg w}
    (hc : Counted s outstanding) (honce : CountedOnce h s message)
    (howing : ∀ repoId ∈ s.ids, owing left repoId = owing outstanding repoId -
      if (finishedBy s message).map Prod.fst = some repoId then 1 else 0)
    (hleft : left ⊆ outstanding) :
    Counted (reduce h s message).1 (left ++ emitted h s message) := by
  cases hopens : message.opens with
  | true =>
    have hkept : Counted s left := by
      refine ⟨hc.unique, hc.handed, ?_, ?_⟩
      · intro repoId hid
        obtain ⟨effect, heffect, hrepo⟩ := mem_filterMap.mp hid
        exact hc.owed repoId (mem_filterMap.mpr ⟨effect, hleft heffect, hrepo⟩)
      · intro repoId hid
        have hfinish : finishedBy s message = none := by
          cases message with
          | internal message => cases hopens
          | _ => rfl
        rw [howing repoId hid, hfinish, hc.exact repoId hid]
        rfl
    obtain ⟨hopened, hnone⟩ := hkept.opened h message hopens
    have hsilent : (emitted h s message).filterMap sequencerEffectRepo = [] := by
      rw [filterMap_emitted, hnone, filter_nil]
    refine ⟨hopened.unique, hopened.handed, ?_, ?_⟩
    · rw [filterMap_append, hsilent, append_nil]
      exact hopened.owed
    · intro repoId hid
      rw [owing, filterMap_append, hsilent, append_nil]
      exact hopened.exact repoId hid
  | false =>
    have hpasses := passes_reduce h s message hopens
    refine ⟨hc.unique.sublist hpasses.state.ids, ?_, ?_, ?_⟩
    · intro repoId hid
      rw [hpasses.state.next]
      exact hc.handed repoId (hpasses.state.ids.subset hid)
    · intro repoId hid
      rw [hpasses.state.next]
      rw [filterMap_append, mem_append, filterMap_emitted, mem_filter] at hid
      rcases hid with hid | ⟨-, hid⟩
      · obtain ⟨effect, heffect, hrepo⟩ := mem_filterMap.mp hid
        exact hc.owed repoId (mem_filterMap.mpr ⟨effect, hleft heffect, hrepo⟩)
      · exact hc.handed repoId (hpasses.state.ids.subset (of_decide_eq_true hid))
    · intro repoId hid
      have hopen := hpasses.state.ids.subset hid
      have hcount : ((emitted h s message).filterMap sequencerEffectRepo).count repoId =
          if startedBy h s message = some repoId then 1 else 0 := by
        rw [filterMap_emitted, count_filter (by simpa using hid),
          hpasses.effects]
        cases startedBy h s message with
        | none => simp
        | some started => simp [count_singleton]
      rw [hpasses.state.counter repoId hid, moved_started (honce repoId hopen), owing,
        filterMap_append, count_append, hcount, ← owing, howing repoId hopen,
        hc.exact repoId hopen]

-- The states a run reaches with the sequencer effects that were emitted for an open repository
-- and whose completion has not been reduced. A completion answers one of them, or it names a
-- repository that is closed by then. `P` is what is asked of each step.
inductive Run (P : AppState w → Msg w → Prop) : AppState w → List (Effect w) → Prop where
  | start {s : AppState w} (hempty : s.repos = []) : Run P s []
  | message {s : AppState w} {outstanding : List (Effect w)} {message : Msg w}
      (hrun : Run P s outstanding) (hstep : P s message)
      (hclosed : ∀ finished ∈ finishedBy s message, finished.1 ∉ s.ids) :
      Run P (reduce h s message).1 (outstanding ++ emitted h s message)
  | completion {s : AppState w} {before after : List (Effect w)} {effect : Effect w}
      {message : Msg w} {finished : RepoId × RepoCommandKind w}
      (hrun : Run P s (before ++ effect :: after)) (hstep : P s message)
      (hfinished : finishedBy s message = some finished)
      (hanswers : effect.completion = some finished) :
      Run P (reduce h s message).1 (before ++ after ++ emitted h s message)

variable {h}

theorem Run.counted {s : AppState w} {outstanding : List (Effect w)}
    (hrun : Run h (CountedOnce h) s outstanding) : Counted s outstanding := by
  induction hrun with
  | start hempty =>
    rename_i s
    have hids : s.ids = [] := by rw [AppState.ids, hempty, map_nil]
    refine ⟨hids ▸ nodup_nil, ?_, fun _ hid => absurd hid not_mem_nil, ?_⟩
    · rw [hids]
      exact fun _ hid => absurd hid not_mem_nil
    · rw [hids]
      exact fun _ hid => absurd hid not_mem_nil
  | message hrun hstep hclosed ih =>
    refine ih.reduce h hstep (fun repoId hid => ?_) (Subset.refl _)
    rw [if_neg, Nat.sub_zero]
    intro hfinish
    obtain ⟨finished, hfinished, hrepo⟩ := map_eq_some_iff.mp hfinish
    exact hclosed finished hfinished (hrepo ▸ hid)
  | completion hrun hstep hfinished hanswers ih =>
    rename_i s before after effect message finished
    have hrepo : sequencerEffectRepo effect = some finished.1 := by
      rw [← completion_repo, hanswers, map_some]
    refine ih.reduce h hstep (fun repoId hid => ?_) ?_
    · rw [hfinished, map_some, owing, owing, filterMap_append, filterMap_append,
        filterMap_cons_some hrepo, count_append, count_append, count_cons]
      by_cases hsame : finished.1 = repoId
      · rw [if_pos (beq_iff_eq.mpr hsame), if_pos (congrArg some hsame)]
        omega
      · have hne : some finished.1 ≠ some repoId := fun heq => hsame (some.inj heq)
        rw [if_neg (fun heq => hsame (beq_iff_eq.mp heq)), if_neg hne]
        omega
    · intro other hother
      rcases mem_append.mp hother with hother | hother
      · exact mem_append_left _ hother
      · exact mem_append_right _ (mem_cons_of_mem _ hother)

def sequencerSteps (repoId : RepoId) : List (Request w) :=
  [.rebaseContinue repoId, .rebaseAbort repoId, .mergeAbort repoId]

theorem starts_sequencerStep {s : AppState w} {repoId : RepoId} {step : Request w}
    (hstep : step ∈ sequencerSteps repoId) (hgit : s.gitAvailable) :
    (reduce h s (.request step)).2.filterMap sequencerEffectRepo =
      if s.counter repoId = 0 then [repoId] else [] := by
  have hpasses := (passes_reduce h s (.request step) rfl).effects
  have havailable : availableStarts h s step = requestStarts h s step :=
    if_neg fun hmissing => absurd (hgit.symm.trans hmissing.2) (by decide)
  rw [hpasses, startedBy, havailable]
  simp only [sequencerSteps, mem_cons, not_mem_nil, or_false] at hstep
  rcases hstep with rfl | rfl | rfl <;> simp only [requestStarts] <;> split_ifs <;> rfl

theorem sequencer_actions_outstanding {s : AppState w} {outstanding : List (Effect w)}
    (hrun : Run h (CountedOnce h) s outstanding) :
    ∀ repo ∈ s.repos, repo.sequencerActionsInFlight = owing outstanding repo.id ∧
      ∀ step ∈ sequencerSteps repo.id, s.gitAvailable = true →
        ((reduce h s (.request step)).2.filterMap sequencerEffectRepo = [] ↔
          ∃ effect ∈ outstanding, sequencerEffectRepo effect = some repo.id) := by
  have hc := hrun.counted
  intro repo hrepo
  have hid : repo.id ∈ s.ids := mem_map.mpr ⟨repo, hrepo, rfl⟩
  have hexact := hc.exact repo.id hid
  have hidle : s.counter repo.id = 0 ↔
      ¬∃ effect ∈ outstanding, sequencerEffectRepo effect = some repo.id := by
    rw [hexact, owing, count_eq_zero, mem_filterMap]
  refine ⟨?_, fun step hstep hgit => ?_⟩
  · rw [← hexact, AppState.counter, AppState.repo?, find_of_unique hc.unique hrepo]
    rfl
  · rw [starts_sequencerStep hstep hgit]
    by_cases hzero : s.counter repo.id = 0
    · rw [if_pos hzero]
      exact iff_of_false (cons_ne_nil _ _) (hidle.mp hzero)
    · rw [if_neg hzero]
      exact iff_of_true rfl (not_not.mp (mt hidle.mpr hzero))

def signing : Surroundings := ⟨Unit, Unit, Empty, Empty, Empty, AuthPromptKind⟩

def AppState.unchanged (s : AppState signing) : Outcome signing :=
  ⟨s.toAppFields, fun repo => repo.toRepoFields, [], []⟩

def signingHandlers : Handlers signing where
  requiresAvailableGit := fun _ => false
  handle := fun _ s => s.unchanged
  tabs := fun _ s => s.unchanged
  commandFinished := fun _ _ _ s => s.unchanged
  operationFinished := fun _ _ _ _ s => s.unchanged
  diagnose := fun _ s => s.unchanged
  followAndFinalize := AppState.unchanged
  retryMsg := fun _ _ => none
  attachAuth := fun _ effect => effect
  clearHeadDependentCachedState := id
  squashPlan := fun _ => none
  newOpening := fun _ => ⟨0, 0, ()⟩
  normalizeRepoPath := id
  detectAuthPromptKind := some
  formatErrorForUser := fun _ => []

def signedRevert : List (Msg signing) :=
  [.openRepo ['r'], .request (.revertCommit 1 ['c'] true none []),
    .internal (.gitOperationFinished 1 7 .failed
      (.repoCommandFinished 1 (.revert ['c'] true none []) (.error .passphrase))),
    .submitAuthPrompt none ['p'],
    .internal (.gitOperationFinished 1 8 .succeeded
      (.repoCommandFinished 1 (.revert ['c'] true none []) (.ok ())))]

def afterMessages (count : ℕ) : AppState signing :=
  (signedRevert.take count).foldl (fun s message => (reduce signingHandlers s message).1)
    ⟨⟨none, true, [], ()⟩, [], 1⟩

def running (auth : Option StagedGitAuth) : Effect signing :=
  .revertCommit 1 ['c'] true none [] auth

theorem sequencer_actions_outstanding_reverting :
    ∃ repo ∈ (afterMessages 2).repos,
      repo.sequencerActionsInFlight = owing [running none] repo.id := by
  have hopened : Run signingHandlers (CountedOnce signingHandlers) (afterMessages 1) [] :=
    .message (.start rfl) (fun _ _ hstart => nomatch hstart) nofun
  have hroom : CountedOnce signingHandlers (afterMessages 1)
      (.request (.revertCommit 1 ['c'] true none [])) := by
    intro repoId _ hstart
    obtain rfl : 1 = repoId := some.inj hstart
    exact ⟨rfl, by decide⟩
  have hreverted : Run signingHandlers (CountedOnce signingHandlers) (afterMessages 2)
      [running none] := .message hopened hroom nofun
  exact ⟨_, mem_singleton.mpr rfl,
    (sequencer_actions_outstanding hreverted _ (mem_singleton.mpr rfl)).1⟩

theorem sequencer_actions_stuck :
    Run signingHandlers (fun _ _ => True) (afterMessages 5) [] ∧
      ((afterMessages 5).repos.map fun repo => (repo.id, repo.sequencerActionsInFlight)) =
        [(1, 1)] ∧
      (reduce signingHandlers (afterMessages 5) (.request (.rebaseAbort 1))).2 = [] := by
  refine ⟨?_, by decide +kernel, rfl⟩
  have hopened : Run signingHandlers (fun _ _ => True) (afterMessages 1) [] :=
    .message (.start rfl) trivial nofun
  have hreverted : Run signingHandlers (fun _ _ => True) (afterMessages 2)
      ([] ++ running none :: []) :=
    .message hopened trivial nofun
  have hfailed : Run signingHandlers (fun _ _ => True) (afterMessages 3) [] :=
    .completion hreverted trivial rfl rfl
  have hretried : Run signingHandlers (fun _ _ => True) (afterMessages 4)
      ([] ++ running (some ⟨.passphrase, none, ['p']⟩) :: []) :=
    .message hfailed trivial nofun
  exact .completion hretried trivial rfl rfl

end GitComet.Store
