import Mathlib.Data.List.Nodup
import GitComet.Store.Reduce
import Mathlib.Data.List.Range

namespace GitComet.Store
open List Text Function

variable {w : Surroundings}

namespace AppState

def ids (s : AppState w) : List RepoId := s.repos.map fun repo => repo.id

def counter (s : AppState w) (repoId : RepoId) : ℕ :=
  ((s.repo? repoId).map fun repo => repo.sequencerActionsInFlight).getD 0

end AppState

structure Shifted (f : RepoId → ℕ → ℕ) (s s' : AppState w) : Prop where
  next : s'.nextRepoId = s.nextRepoId
  ids : s'.ids.Sublist s.ids
  counter : ∀ repoId ∈ s'.ids, s'.counter repoId = f repoId (s.counter repoId)

namespace Shifted

variable {s s' s'' : AppState w} {f g : RepoId → ℕ → ℕ}

theorem refl (s : AppState w) : Shifted (fun _ => id) s s :=
  ⟨rfl, Sublist.refl _, fun _ _ => rfl⟩

theorem trans (h : Shifted f s s') (h' : Shifted g s' s'') :
    Shifted (fun repoId => g repoId ∘ f repoId) s s'' := by
  refine ⟨h'.next.trans h.next, h'.ids.trans h.ids, ?_⟩
  intro repoId hid
  rw [h'.counter repoId hid, h.counter repoId (h'.ids.subset hid), comp]

theorem congr (h : Shifted f s s') (hfg : ∀ repoId n, f repoId n = g repoId n) : Shifted g s s' :=
  ⟨h.next, h.ids, fun repoId hid => (h.counter repoId hid).trans (hfg _ _)⟩

theorem quiet (h : Shifted f s s') (h' : Shifted (fun _ => id) s' s'') : Shifted f s s'' :=
  (h.trans h').congr fun _ _ => rfl

end Shifted

theorem find_updateRepo {repoId : RepoId} {f : RepoState w → RepoState w}
    (hid : ∀ repo, (f repo).id = repo.id) (other : RepoId) (repos : List (RepoState w)) :
    (updateRepo repoId f repos).find? (fun repo => repo.id = other) =
      (repos.find? fun repo => repo.id = other).map
        fun repo => if other = repoId then f repo else repo := by
  induction repos with
  | nil => rfl
  | cons repo repos ih =>
    rw [updateRepo]
    by_cases hsame : repo.id = repoId
    · rw [if_pos hsame, find?_cons, find?_cons, hid]
      by_cases hother : repo.id = other
      · have heq : other = repoId := hother.symm.trans hsame
        simp only [hother, decide_true, Option.map_some, if_pos heq]
      · have hne : other ≠ repoId := fun heq => hother (hsame.trans heq.symm)
        simp only [hother, decide_false, if_neg hne, Option.map_id']
    · rw [if_neg hsame, find?_cons, find?_cons, ih]
      by_cases hother : repo.id = other
      · have hne : other ≠ repoId := fun heq => hsame (hother.trans heq)
        simp only [hother, decide_true, Option.map_some, if_neg hne]
      · simp only [hother, decide_false]

theorem ids_updateRepo {repoId : RepoId} {f : RepoState w → RepoState w}
    (hid : ∀ repo, (f repo).id = repo.id) (repos : List (RepoState w)) :
    (updateRepo repoId f repos).map (fun repo => repo.id) = repos.map fun repo => repo.id := by
  induction repos with
  | nil => rfl
  | cons repo repos ih =>
    rw [updateRepo]
    split_ifs with hsame
    · rw [map_cons, map_cons, hid]
    · rw [map_cons, map_cons, ih]

theorem find_of_unique {repos : List (RepoState w)} {repo : RepoState w}
    (hunique : (repos.map fun repo => repo.id).Nodup) (hrepo : repo ∈ repos) :
    repos.find? (fun other => other.id = repo.id) = some repo := by
  induction repos with
  | nil => cases hrepo
  | cons first repos ih =>
    rw [map_cons, nodup_cons] at hunique
    rw [find?_cons]
    rcases mem_cons.mp hrepo with rfl | hrest
    · rw [decide_eq_true rfl]
    · have hne : first.id ≠ repo.id := fun hsame =>
        hunique.1 (hsame ▸ mem_map.mpr ⟨repo, hrest, rfl⟩)
      rw [decide_eq_false hne]
      exact ih hunique.2 hrest

section

variable (s : AppState w)

theorem shifted_update {f : RepoState w → RepoState w} (shift : ℕ → ℕ) (repoId : RepoId)
    (hid : ∀ repo, (f repo).id = repo.id)
    (hcounter : ∀ repo, (f repo).sequencerActionsInFlight = shift repo.sequencerActionsInFlight) :
    Shifted (fun other => if other = repoId then shift else id) s (s.update repoId f) := by
  have hids : (s.update repoId f).ids = s.ids := ids_updateRepo hid s.repos
  refine ⟨rfl, hids ▸ Sublist.refl _, ?_⟩
  intro other hother
  rw [hids] at hother
  rw [AppState.counter, AppState.repo?, AppState.update, find_updateRepo hid, AppState.counter,
    AppState.repo?]
  obtain ⟨repo, hrepo, hro⟩ := mem_map.mp hother
  cases hfind : s.repos.find? fun repo => repo.id = other with
  | none =>
    have hne := find?_eq_none.mp hfind repo hrepo
    exact absurd hro (by simpa using hne)
  | some found =>
    simp only [Option.map_some, Option.getD_some]
    by_cases heq : other = repoId
    · rw [if_pos heq, if_pos heq, hcounter]
    · rw [if_neg heq, if_neg heq, id]

theorem shifted_absorb (outcome : Outcome w) : Shifted (fun _ => id) s (s.absorb outcome) := by
  have hids : (s.absorb outcome).ids = (s.repos.filter fun repo => repo.id ∉ outcome.closed).map
      fun repo => repo.id := by
    rw [AppState.ids, AppState.absorb, map_map]
    rfl
  refine ⟨rfl, ?_, ?_⟩
  · rw [hids]
    exact filter_sublist.map _
  · intro repoId hid
    rw [hids] at hid
    obtain ⟨repo, hrepo, rfl⟩ := mem_map.mp hid
    have hopen : repo.id ∉ outcome.closed := by simpa using (mem_filter.mp hrepo).2
    rw [AppState.counter, AppState.repo?, AppState.absorb, find?_map, find?_filter,
      Option.map_map, AppState.counter, AppState.repo?]
    congr 2
    refine congrFun (congrArg List.find? (funext fun other => ?_)) s.repos
    by_cases heq : other.id = repo.id
    · simp [heq, hopen]
    · simp [heq]

variable {s} in
theorem shifted_same {s' : AppState w} (hnext : s'.nextRepoId = s.nextRepoId)
    (hrepos : s'.repos = s.repos) : Shifted (fun _ => id) s s' := by
  refine ⟨hnext, ?_, fun repoId _ => ?_⟩
  · rw [AppState.ids, hrepos]
    exact Sublist.refl _
  · rw [AppState.counter, AppState.repo?, hrepos]
    rfl

theorem shifted_pushNotification (kind : AppNotificationKind) (message : Chars) :
    Shifted (fun _ => id) s (s.pushNotification kind message) := by
  apply shifted_same
  · simp only [AppState.pushNotification]
  · simp only [AppState.pushNotification]

theorem shifted_quiet_update {f : RepoState w → RepoState w} (repoId : RepoId)
    (hid : ∀ repo, (f repo).id = repo.id)
    (hcounter : ∀ repo, (f repo).sequencerActionsInFlight = repo.sequencerActionsInFlight) :
    Shifted (fun _ => id) s (s.update repoId f) :=
  (shifted_update s id repoId hid hcounter).congr fun _ _ => by split_ifs <;> rfl

theorem shifted_beginLocalAction (repoId : RepoId) :
    Shifted (fun _ => id) s (beginLocalAction s repoId) :=
  shifted_quiet_update s repoId (fun _ => rfl) fun _ => rfl

theorem shifted_beginHeadChangingLocalAction (h : Handlers w) (repoId : RepoId) :
    Shifted (fun _ => id) s (beginHeadChangingLocalAction h s repoId) :=
  shifted_quiet_update s repoId (fun _ => rfl) fun _ => rfl

end

variable (h : Handlers w)

def squashesAtHead (s : AppState w) (repoId : RepoId) (oldest expectedHead : CommitId)
    (message : Chars) : Bool :=
  ((s.repo? repoId).bind h.squashPlan).any fun plan =>
    (plan.oldest = oldest ∧ plan.head = expectedHead ∧ Text.isBlank message = false) ∧
      plan.head = plan.actualHead

def requestStarts (s : AppState w) : Request w → Option RepoId
  | .mergeRef repoId _
  | .squashRef repoId _
  | .reset repoId _ _
  | .rebase repoId _
  | .interactiveRebase repoId _ _
  | .interactiveCherryPick repoId _
  | .cherryPickCommit repoId _ _ _ _
  | .revertCommit repoId _ _ _ _ => some repoId
  | .squashCommits repoId oldest expectedHead message _ =>
    if squashesAtHead h s repoId oldest expectedHead message then some repoId else none
  | .rebaseContinue repoId
  | .rebaseAbort repoId
  | .mergeAbort repoId => if s.counter repoId = 0 then some repoId else none
  | .other _ => none

def availableStarts (s : AppState w) (message : Request w) : Option RepoId :=
  if msgRequiresAvailableGit h message ∧ s.gitAvailable = false then none
  else requestStarts h s message

def internalStarts (s : AppState w) : InternalMsg w → Option RepoId
  | .gitOperationFinished _ _ _ message => internalStarts s message
  | .repoLoadFinished repoId loadEpoch message =>
    if loadEpochCurrent s repoId loadEpoch then internalStarts s message else none
  | .squashRebaseSetupLoaded repoId _ actualHead selectedIds rewordId _ count (.ok entries) =>
    if (s.repo? repoId).isSome ∧ squashReady actualHead selectedIds rewordId count entries then
      some repoId
    else none
  | _ => none

def internalFinishes (s : AppState w) : InternalMsg w → Option (RepoId × RepoCommandKind w)
  | .gitOperationFinished _ _ _ message => internalFinishes s message
  | .repoLoadFinished repoId loadEpoch message =>
    if loadEpochCurrent s repoId loadEpoch then internalFinishes s message else none
  | .repoCommandFinished repoId command _ =>
    if commandTouchesSequencerState command then some (repoId, command) else none
  | _ => none

def InternalMsg.wraps : InternalMsg w → ℕ
  | .gitOperationFinished _ _ _ message => message.wraps + 1
  | .repoLoadFinished _ _ message => message.wraps + 1
  | _ => 0

def moved (start finish : Option RepoId) (passes : ℕ) (repoId : RepoId) (n : ℕ) : ℕ :=
  satSucc^[if start = some repoId then passes else 0] (if finish = some repoId then n - 1 else n)

structure Passes (s : AppState w) (reduced : AppState w × List (Effect w))
    (start finish : Option RepoId) (passes : ℕ) : Prop where
  state : Shifted (moved start finish passes) s reduced.1
  effects : reduced.2.filterMap sequencerEffectRepo = start.toList

theorem filterMap_other (effects : List w.Effect) :
    (effects.map Effect.other).filterMap sequencerEffectRepo = ([] : List RepoId) := by
  rw [filterMap_map, filterMap_eq_nil_iff]
  intro effect _
  rfl

namespace Passes

variable {s s' : AppState w} {reduced : AppState w × List (Effect w)}
  {start finish : Option RepoId} {passes : ℕ}

theorem started (h : Shifted (fun _ => id) s s') {effects : List (Effect w)}
    (heffects : effects.filterMap sequencerEffectRepo = start.toList) :
    Passes s (s', effects) start none 0 :=
  ⟨h.congr fun _ _ => by simp [moved], heffects⟩

theorem silent (h : Shifted (fun _ => id) s s') (effects : List w.Effect) :
    Passes s (s', effects.map .other) none none passes :=
  ⟨h.congr fun _ _ => by simp [moved], filterMap_other effects⟩

theorem absorb (hpasses : Passes s reduced start finish passes) (outcome : Outcome w) :
    Passes s (reduced.1.absorb outcome, reduced.2 ++ outcome.effects.map .other) start finish
      passes := by
  refine ⟨hpasses.state.quiet (shifted_absorb _ outcome), ?_⟩
  rw [filterMap_append, filterMap_other, append_nil]
  exact hpasses.effects

theorem track (hpasses : Passes s reduced start finish passes) :
    Passes s (track h reduced) start finish (passes + 1) := by
  refine ⟨Shifted.quiet ?_ (shifted_absorb _ _), ?_⟩
  · rw [trackSequencerEffects, hpasses.effects]
    cases start with
    | none =>
      refine hpasses.state.congr fun repoId n => ?_
      simp [moved]
    | some started =>
      have hcounted : Shifted (fun other => if other = started then satSucc else id) reduced.1
          (reduced.1.update started fun repo =>
            { repo with sequencerActionsInFlight := satSucc repo.sequencerActionsInFlight }) :=
        shifted_update reduced.1 satSucc started (fun _ => rfl) fun _ => rfl
      refine (hpasses.state.trans hcounted).congr fun repoId n => ?_
      rw [comp, moved, moved]
      by_cases heq : repoId = started
      · rw [if_pos heq, if_pos (congrArg some heq.symm), if_pos (congrArg some heq.symm),
          iterate_succ_apply']
      · have hne : some started ≠ some repoId := fun hsome => heq (Option.some.inj hsome).symm
        rw [if_neg heq, if_neg hne, if_neg hne, id]
  · exact (hpasses.absorb _).effects

end Passes

theorem sequencerStepBlocked_eq (s : AppState w) (repoId : RepoId) :
    (sequencerStepBlocked s repoId).2 = decide (s.counter repoId ≠ 0) := by
  rw [sequencerStepBlocked, AppState.counter]
  cases hrepo : s.repo? repoId with
  | none => rfl
  | some repo =>
    simp only [Option.any_some, Option.map_some, Option.getD_some]
    split_ifs with hbusy
    · exact (decide_eq_true (Nat.pos_iff_ne_zero.mp (of_decide_eq_true hbusy))).symm
    · have hzero : ¬0 < repo.sequencerActionsInFlight := fun h => hbusy (decide_eq_true h)
      exact (decide_eq_false (fun hne => hzero (Nat.pos_of_ne_zero hne))).symm

theorem passes_sequencerStep {s : AppState w} {repoId : RepoId} {effect : Effect w}
    (heffect : sequencerEffectRepo effect = some repoId) :
    Passes s (sequencerStep s repoId effect) (if s.counter repoId = 0 then some repoId else none)
      none 0 := by
  rw [sequencerStep, sequencerStepBlocked_eq]
  by_cases hzero : s.counter repoId = 0
  · rw [if_pos hzero, if_neg (by simpa using hzero)]
    exact .started (shifted_beginLocalAction s repoId) (by simp [heffect])
  · rw [if_neg hzero, if_pos (by simpa using hzero)]
    refine .started ?_ rfl
    rw [sequencerStepBlocked]
    split_ifs
    · exact shifted_pushNotification s _ _
    · exact .refl s

theorem passes_squashCommits (s : AppState w) (repoId : RepoId) (oldest expectedHead : CommitId)
    (message : Chars) (count : ℕ) :
    Passes s (squashCommits h s repoId oldest expectedHead message count)
      (if squashesAtHead h s repoId oldest expectedHead message then some repoId else none)
      none 0 := by
  rw [squashCommits, squashesAtHead]
  cases hplan : (s.repo? repoId).bind h.squashPlan with
  | none => exact .started (shifted_pushNotification s _ _) rfl
  | some plan =>
    simp only [Option.any_some]
    by_cases hvalid : plan.oldest = oldest ∧ plan.head = expectedHead ∧
        Text.isBlank message = false
    · rw [if_pos hvalid]
      by_cases hhead : plan.head = plan.actualHead
      · rw [if_pos hhead, if_pos (decide_eq_true ⟨hvalid, hhead⟩)]
        exact .started (shifted_beginLocalAction s repoId) rfl
      · rw [if_neg hhead, if_neg fun hsome => hhead (of_decide_eq_true hsome).2]
        exact .started (.refl s) rfl
    · rw [if_neg hvalid, if_neg fun hsome => hvalid (of_decide_eq_true hsome).1]
      exact .started (shifted_pushNotification s _ _) rfl

theorem passes_request (s : AppState w) (message : Request w) :
    Passes s (reduceRequest h s message) (requestStarts h s message) none 0 := by
  cases message with
  | mergeRef repoId reference => exact .started (shifted_beginLocalAction s repoId) rfl
  | squashRef repoId reference => exact .started (shifted_beginLocalAction s repoId) rfl
  | squashCommits repoId oldest expectedHead message count =>
    exact passes_squashCommits h s repoId oldest expectedHead message count
  | reset repoId target mode => exact .started (shifted_beginLocalAction s repoId) rfl
  | rebase repoId onto => exact .started (shifted_beginLocalAction s repoId) rfl
  | rebaseContinue repoId => exact passes_sequencerStep rfl
  | rebaseAbort repoId => exact passes_sequencerStep rfl
  | interactiveRebase repoId base entries =>
    exact .started (shifted_beginLocalAction s repoId) rfl
  | interactiveCherryPick repoId entries =>
    exact .started (shifted_beginHeadChangingLocalAction s h repoId) rfl
  | cherryPickCommit repoId commitId commit mainline summary =>
    exact .started (shifted_beginHeadChangingLocalAction s h repoId) rfl
  | revertCommit repoId commitId commit mainline summary =>
    exact .started (shifted_beginHeadChangingLocalAction s h repoId) rfl
  | mergeAbort repoId => exact passes_sequencerStep rfl
  | other message => exact .silent (shifted_absorb s _) _

theorem passes_available (s : AppState w) (message : Request w) :
    Passes s (reduceAvailable h s message) (availableStarts h s message) none 0 := by
  rw [reduceAvailable, availableStarts]
  split_ifs
  · exact .started (.refl s) rfl
  · exact passes_request h s message

theorem passes_squashRebaseSetupLoaded (s : AppState w) (repoId : RepoId) (base : Chars)
    (actualHead : CommitId) (selectedIds : List CommitId) (rewordId : CommitId) (message : Chars)
    (count : ℕ) (result : Except w.Error (List InteractiveRebaseEntry)) :
    Passes s (squashRebaseSetupLoaded h s repoId base actualHead selectedIds rewordId message count
        result)
      (internalStarts s (.squashRebaseSetupLoaded repoId base actualHead selectedIds rewordId
        message count result)) none 0 := by
  rw [squashRebaseSetupLoaded.eq_def]
  cases hrepo : s.repo? repoId with
  | none =>
    refine .started (.refl s) ?_
    cases result with
    | error error => rfl
    | ok entries => simp [internalStarts, hrepo]
  | some repo =>
    rw [if_neg (by simp)]
    cases result with
    | error error =>
      exact .started ((shifted_absorb s _).quiet (shifted_pushNotification _ _ _)) rfl
    | ok entries =>
      simp only [internalStarts, hrepo, Option.isSome_some, true_and]
      split_ifs
      · exact .started (shifted_beginLocalAction s repoId) rfl
      · exact .started (shifted_pushNotification s _ _) rfl

theorem passes_repoCommandFinished (s : AppState w) (repoId : RepoId)
    (command : RepoCommandKind w) (result : Except w.Error Unit) :
    Passes s (repoCommandFinished h s repoId command result) none
      (if commandTouchesSequencerState command then some repoId else none) 0 := by
  rw [repoCommandFinished]
  split_ifs with hclosed htouches htouches
  · refine ⟨⟨rfl, Sublist.refl _, ?_⟩, rfl⟩
    intro other hother
    have hne : repoId ≠ other := by
      rintro rfl
      obtain ⟨repo, hrepo, hro⟩ := mem_map.mp hother
      have hnone := find?_eq_none.mp (Option.isNone_iff_eq_none.mp hclosed) repo hrepo
      exact hnone (decide_eq_true hro)
    simp [moved, hne]
  · exact .started (.refl s) rfl
  · refine ⟨?_, filterMap_other _⟩
    have hreleased : Shifted (fun other => if other = repoId then (· - 1) else id) s
        (s.update repoId fun repo =>
          { repo with sequencerActionsInFlight := repo.sequencerActionsInFlight - 1 }) :=
      shifted_update s (· - 1) repoId (fun _ => rfl) fun _ => rfl
    refine (hreleased.quiet (shifted_absorb _ _)).congr fun other n => ?_
    by_cases heq : other = repoId
    · simp [moved, heq]
    · have hne : repoId ≠ other := Ne.symm heq
      simp [moved, heq, hne]
  · exact .silent (shifted_absorb s _) _

theorem passes_internal (s : AppState w) (message : InternalMsg w) :
    Passes s (reduceInternal h s message) (internalStarts s message)
      ((internalFinishes s message).map Prod.fst) message.wraps := by
  induction message with
  | gitOperationFinished repoId operationId outerOutcome message ih =>
    exact (ih.track h).absorb _
  | repoLoadFinished repoId loadEpoch message ih =>
    rw [reduceInternal, internalStarts, internalFinishes]
    split_ifs
    · exact ih.track h
    · exact ⟨(Shifted.refl s).congr fun _ _ => by simp [moved], rfl⟩
  | squashRebaseSetupLoaded repoId base actualHead selectedIds rewordId message count result =>
    exact passes_squashRebaseSetupLoaded h s repoId base actualHead selectedIds rewordId message
      count result
  | repoCommandFinished repoId command result =>
    have hfinished := passes_repoCommandFinished h s repoId command result
    have hfinish : ((internalFinishes s (.repoCommandFinished repoId command result)).map
        Prod.fst) = if commandTouchesSequencerState command then some repoId else none := by
      rw [internalFinishes]
      split_ifs <;> rfl
    rw [hfinish, reduceInternal.eq_def]
    dsimp only
    split
    · exact ⟨hfinished.state.quiet (shifted_same rfl rfl), hfinished.effects⟩
    · exact hfinished
  | other message => exact .silent (shifted_absorb s _) _

theorem availableStarts_prompt (s : AppState w) (prompt : Option (AuthPromptState w))
    (message : Request w) :
    availableStarts h { s with authPrompt := prompt } message = availableStarts h s message := by
  cases message <;> rfl

def retryStarts (s : AppState w) (username : Option Chars) (secret : Chars) : Option RepoId :=
  match s.authPrompt with
  | none => none
  | some prompt =>
    let username := (username.map Text.trim).filter fun name => !name.isEmpty
    match prepareStagedGitAuth prompt.kind username secret with
    | .error _ => none
    | .ok _ => (retryMsgForAuthOperation h prompt.operation).bind (availableStarts h s)

theorem effects_attachGitAuth (auth : StagedGitAuth) (effects : List (Effect w)) :
    (attachGitAuthToEffects h auth effects).filterMap sequencerEffectRepo =
      effects.filterMap sequencerEffectRepo := by
  cases effects with
  | nil => rfl
  | cons effect effects => cases effect <;> rfl

theorem passes_submitAuthPrompt (s : AppState w) (username : Option Chars) (secret : Chars) :
    Passes s (submitAuthPrompt h s username secret) (retryStarts h s username secret) none 1 := by
  rw [submitAuthPrompt, retryStarts]
  have hquiet : ∀ {s' : AppState w}, Shifted (fun _ => id) s s' → Passes s (s', []) none none 1 :=
    fun hshift => .silent hshift []
  cases hprompt : s.authPrompt with
  | none => exact hquiet (.refl s)
  | some prompt =>
    dsimp only
    cases prepareStagedGitAuth prompt.kind _ secret with
    | error error => exact hquiet ((shifted_absorb s _).quiet (shifted_same rfl rfl))
    | ok auth =>
      dsimp only
      cases retryMsgForAuthOperation h prompt.operation with
      | none => exact hquiet (shifted_same rfl rfl)
      | some message =>
        have htaken : Shifted (fun _ => id) s { s with authPrompt := none } :=
          shifted_same rfl rfl
        have hpasses := (passes_available h { s with authPrompt := none } message).track h
        rw [availableStarts_prompt] at hpasses
        refine ⟨(htaken.trans hpasses.state).congr fun _ _ => rfl, ?_⟩
        rw [effects_attachGitAuth]
        exact hpasses.effects

def startedBy (s : AppState w) : Msg w → Option RepoId
  | .submitAuthPrompt username secret => retryStarts h s username secret
  | .request message => availableStarts h s message
  | .internal message => internalStarts s message
  | _ => none

def finishedBy (s : AppState w) : Msg w → Option (RepoId × RepoCommandKind w)
  | .internal message => internalFinishes s message
  | _ => none

def Msg.passes : Msg w → ℕ
  | .submitAuthPrompt .. => 2
  | .internal message => message.wraps + 1
  | _ => 1

theorem shifted_closed (s : AppState w) (repoIds : List RepoId) :
    Shifted (fun _ => id) s
      { s with repos := s.repos.filter fun repo => repo.id ∉ repoIds } := by
  have hsame : s.repos.filter (fun repo => repo.id ∉ repoIds) =
      (s.absorb ⟨s.toAppFields, fun repo => repo.toRepoFields, repoIds, []⟩).repos :=
    (map_id _).symm
  exact (shifted_absorb s _).quiet (shifted_same rfl hsame)

def Msg.opens : Msg w → Bool
  | .openRepo _ => true
  | .restoreSession .. => true
  | _ => false

theorem passes_reduce (s : AppState w) (message : Msg w) (hopens : message.opens = false) :
    Passes s (reduce h s message) (startedBy h s message)
      ((finishedBy s message).map Prod.fst) message.passes := by
  cases message with
  | openRepo path => cases hopens
  | restoreSession openRepos activeRepo => cases hopens
  | closeRepo repoId =>
    exact (Passes.silent ((shifted_closed s [repoId]).quiet (shifted_absorb _ _)) _).track h
  | closeRepos repoIds activateAfter =>
    exact (Passes.silent ((shifted_closed s repoIds).quiet (shifted_absorb _ _)) _).track h
  | submitAuthPrompt username secret => exact (passes_submitAuthPrompt h s username secret).track h
  | cancelAuthPrompt =>
    have hcancelled : Shifted (fun _ => id) s { s with authPrompt := none } :=
      shifted_same rfl rfl
    exact (Passes.silent hcancelled []).track h
  | request message => exact (passes_available h s message).track h
  | internal message => exact (passes_internal h s message).track h

end GitComet.Store
