import GitComet.Selection.Views

namespace GitComet.Selection
open Loading
open Store (LogScope)

structure AppState where
  repos : List RepoState
  activeRepo : Option RepoId
  nextRepoId : RepoId

inductive FailedOpenActivation where
  | adjacentTab
  | previousActive (previous : Option RepoId)

structure OpenPreferences where
  scope : LogScope
  author : Option (List Char)

inductive Msg where
  | repo (repoId : RepoId) (message : RepoMsg)
  | openRepo (preferences : OpenPreferences)
  | restoreSession (opened : List OpenPreferences) (active : Option ℕ)
  | setActiveRepo (repoId : RepoId)
  | setActiveRepoInline (repoId : RepoId)
  | closeRepo (repoId : RepoId)
  | closeRepos (repoIds : List RepoId) (activateAfter : Option RepoId)
  | repoOpenFailed (repoId : RepoId) (activation : FailedOpenActivation)
  | reorderRepoTabs (repoId : RepoId) (insertBefore : Option RepoId)

def RepoMsg.isGlobalNav : RepoMsg → Bool
  | .globalNav _ => true
  | _ => false

def RepoMsg.isViewNavigation : RepoMsg → Bool
  | .selectDiff _ | .selectConflictDiff _ | .selectCommit _ | .selectWorktreeUncommitted _
  | .compareCommitRange _ _ _ _ | .compareWithMarked _ _ | .compareWithWorkingTree _ _
  | .openFileContent _ _ | .openFileEditor _ | .exitDiffEditMode | .commitRevealResolved _ _ => true
  | .elsewhere _ navigates => navigates
  | _ => false

namespace Msg

def isGlobalNav : Msg → Bool
  | .repo _ message => message.isGlobalNav
  | _ => false

def isViewNavigation : Msg → Bool
  | .repo _ message => message.isViewNavigation
  | _ => false

def isControl : Msg → Bool
  | .setActiveRepoInline _ => true
  | _ => false

end Msg

namespace AppState
variable (state : AppState) (planner : Planner)

def initial : AppState := ⟨[], none, 1⟩

def repo? (repoId : RepoId) : Option RepoState := state.repos.find? fun repo => repo.id = repoId

def onRepo (repoId : RepoId) (f : RepoState → RepoState) : AppState :=
  { state with
    repos := state.repos.replaceF fun repo => if repo.id = repoId then some (f repo) else none }

def onActive (f : RepoState → RepoState) : AppState :=
  match state.activeRepo with
  | none => state
  | some repoId => state.onRepo repoId f

def reconcileActiveNavHistory (push : Bool) : AppState :=
  state.onActive fun repo => repo.reconcileNavHistory push

def setActiveRepo (repoId : RepoId) : AppState :=
  if (state.repo? repoId).isNone || state.activeRepo = some repoId then state
  else
    { state.onActive RepoState.cancelLoads with activeRepo := some repoId }.onRepo repoId
      RepoState.activate

def opening (repoId : RepoId) (preferences : OpenPreferences) : RepoState :=
  { RepoState.newOpening repoId with
    historyScope := preferences.scope
    historyAuthorFilter := preferences.author }

def openRepo (preferences : OpenPreferences) : AppState :=
  let cancelled := state.onActive RepoState.cancelLoads
  { repos := cancelled.repos ++ [opening state.nextRepoId preferences]
    activeRepo := some state.nextRepoId
    nextRepoId := state.nextRepoId + 1 }

def restoreSession (opened : List OpenPreferences) (active : Option ℕ) : AppState :=
  let repos := opened.mapIdx fun ix preferences => opening (state.nextRepoId + ix) preferences
  { repos := repos
    activeRepo := ((active.bind fun ix => repos[ix]?).or repos.getLast?).map RepoState.id
    nextRepoId := state.nextRepoId + opened.length }

def activateNext : Option RepoId → AppState
  | none => { state with activeRepo := none }
  | some repoId => state.setActiveRepo repoId

def adjacentRepo (ix : ℕ) : Option RepoId :=
  (if 0 < ix then state.repos[ix - 1]? else state.repos[ix]?).map RepoState.id

def closeRepo (repoId : RepoId) : AppState :=
  match state.repos.findIdx? fun repo => repo.id = repoId with
  | none => state
  | some ix =>
    let left := { state with repos := state.repos.eraseIdx ix }
    if state.activeRepo = some repoId then left.activateNext (left.adjacentRepo ix) else left

def discardFailedRepoOpen (repoId : RepoId) (activation : FailedOpenActivation) : AppState :=
  match state.repos.findIdx? fun repo => repo.id = repoId with
  | none => state
  | some ix =>
    let left := { state with repos := state.repos.eraseIdx ix }
    if state.activeRepo = some repoId then
      match activation with
      | .adjacentTab => left.activateNext (left.adjacentRepo ix)
      | .previousActive none => left.activateNext none
      | .previousActive (some previous) =>
        left.activateNext (if (left.repo? previous).isSome then some previous
          else left.adjacentRepo ix)
    else left

def nearestKept (closed : List RepoId) (active : RepoId) : Option RepoId :=
  let order := state.repos.map RepoState.id
  match order.findIdx? (· = active) with
  | none => none
  | some ix =>
    ((order.take ix).reverse.find? fun id => !closed.contains id).or
      ((order.drop (ix + 1)).find? fun id => !closed.contains id)

def nextAfterClose (closed : List RepoId) (left : AppState) (activateAfter : Option RepoId) :
    Option RepoId :=
  let first := left.repos.head?.map RepoState.id
  match activateAfter.filter fun repoId => (left.repo? repoId).isSome with
  | some requested => some requested
  | none =>
    match state.activeRepo with
    | none => first
    | some active =>
      if closed.contains active then (state.nearestKept closed active).or first
      else ((some active).filter fun repoId => (left.repo? repoId).isSome).or first

def closeRepos (repoIds : List RepoId) (activateAfter : Option RepoId) : AppState :=
  let closed := repoIds.filter fun repoId => (state.repo? repoId).isSome
  if closed.isEmpty then state
  else
    let left := { state with repos := state.repos.filter fun repo => !closed.contains repo.id }
    left.activateNext (state.nextAfterClose closed left activateAfter)

def reorderRepoTabs (repoId : RepoId) (insertBefore : Option RepoId) : AppState :=
  match state.repos.findIdx? fun repo => repo.id = repoId with
  | none => state
  | some ix =>
    if insertBefore = some repoId then state
    else
      let rest := state.repos.eraseIdx ix
      let target := (insertBefore.bind fun before =>
        rest.findIdx? fun repo => repo.id = before).getD rest.length
      { state with repos := rest.take target ++ state.repos[ix]?.toList ++ rest.drop target }

def reduceInner : Msg → AppState
  | .repo repoId message =>
    state.onRepo repoId fun repo => repo.handle planner (state.activeRepo = some repoId) message
  | .openRepo preferences => state.openRepo preferences
  | .restoreSession opened active => state.restoreSession opened active
  | .setActiveRepo repoId | .setActiveRepoInline repoId => state.setActiveRepo repoId
  | .closeRepo repoId => state.closeRepo repoId
  | .closeRepos repoIds activateAfter => state.closeRepos repoIds activateAfter
  | .repoOpenFailed repoId activation => state.discardFailedRepoOpen repoId activation
  | .reorderRepoTabs repoId insertBefore => state.reorderRepoTabs repoId insertBefore

def reduce (message : Msg) : AppState :=
  if message.isGlobalNav then state.reduceInner planner message
  else
    let state := if message.isControl then state else state.reconcileActiveNavHistory false
    (state.reduceInner planner message).reconcileActiveNavHistory message.isViewNavigation

def run (messages : List Msg) : AppState :=
  messages.foldl (fun state message => state.reduce planner message) initial

end AppState

end GitComet.Selection

namespace GitComet.Selection
open Loading

namespace NavStack
variable {α : Type} {s : NavStack α} {entry other : α}

theorem mem_push (h : other ∈ (s.push entry).entries) : other ∈ s.entries ∨ other = entry := by
  rcases List.mem_append.mp (List.mem_of_mem_drop h) with hold | hnew
  · exact .inl (List.mem_of_mem_take hold)
  · exact .inr (List.mem_singleton.mp hnew)

theorem mem_replaceCurrent [DecidableEq α] (h : other ∈ (s.replaceCurrent entry).entries) :
    other ∈ s.entries ∨ other = entry := by
  rw [replaceCurrent] at h
  split_ifs at h
  · exact .inl h
  · exact .inr (List.mem_singleton.mp h)
  · exact .inl (List.mem_of_mem_eraseIdx h)
  · exact List.mem_or_eq_of_mem_set h

theorem mem_reconcile [DecidableEq α] {pushes : Bool}
    (h : other ∈ (s.reconcile entry pushes).entries) : other ∈ s.entries ∨ other = entry := by
  rw [reconcile] at h
  split_ifs at h
  · exact .inl h
  · exact .inr (List.mem_singleton.mp h)
  · exact mem_push h
  · exact .inl h
  · exact mem_replaceCurrent h

theorem step_entries (dir : ViewNavDir) : (s.step dir).1.entries = s.entries := by
  cases dir with
  | back =>
    rw [step]
    split_ifs <;> rfl
  | forward =>
    rw [step]
    split_ifs <;> rfl

theorem mem_of_step {dir : ViewNavDir} (h : (s.step dir).2 = some entry) : entry ∈ s.entries := by
  cases dir with
  | back =>
    rw [step] at h
    split_ifs at h
    exact List.mem_of_getElem? h
  | forward =>
    rw [step] at h
    split_ifs at h
    exact List.mem_of_getElem? h

end NavStack

structure RepoInvariant (planner : Planner) where
  Holds : RepoState → Prop
  Allows : Bool → RepoState → RepoMsg → Prop
  opening : ∀ id preferences, Holds (AppState.opening id preferences)
  activate : ∀ s, Holds s → Holds s.activate
  cancelLoads : ∀ s, Holds s → Holds s.cancelLoads
  reconcile : ∀ s push, Holds s → Holds (s.reconcileNavHistory push)
  handle : ∀ s active message, Holds s → Allows active s message →
    Holds (s.handle planner active message)
  recorded : ∀ s active history message, Allows active s message →
    Allows active { s with mainHistory := history } message

def Msg.AllowedBy (allows : Bool → RepoState → RepoMsg → Prop) (state : AppState) : Msg → Prop
  | .repo repoId message => ∀ repo ∈ state.repos, repo.id = repoId →
    allows (state.activeRepo = some repoId) repo message
  | _ => True

def AllowedAlong (planner : Planner) (allows : Bool → RepoState → RepoMsg → Prop) :
    AppState → List Msg → Prop
  | _, [] => True
  | state, message :: messages =>
    message.AllowedBy allows state ∧
      AllowedAlong planner allows (state.reduce planner message) messages

namespace AppState
variable {state : AppState} {Holds : RepoState → Prop}

theorem forall_replaceF {repos : List RepoState} {f : RepoState → Option RepoState}
    (h : ∀ repo ∈ repos, Holds repo)
    (hf : ∀ repo ∈ repos, ∀ after, f repo = some after → Holds after) :
    ∀ repo ∈ repos.replaceF f, Holds repo := by
  induction repos with
  | nil => exact h
  | cons head repos ih =>
    rw [List.forall_mem_cons] at h hf
    rw [List.replaceF_cons]
    cases hhead : f head with
    | none => exact List.forall_mem_cons.mpr ⟨h.1, ih h.2 hf.2⟩
    | some after => exact List.forall_mem_cons.mpr ⟨hf.1 after hhead, h.2⟩

variable {f : RepoState → RepoState}

theorem onRepo_holds (h : ∀ repo ∈ state.repos, Holds repo) {repoId : RepoId}
    (hf : ∀ repo ∈ state.repos, repo.id = repoId → Holds (f repo)) :
    ∀ repo ∈ (state.onRepo repoId f).repos, Holds repo := by
  refine forall_replaceF h fun repo hrepo after hafter => ?_
  split_ifs at hafter with hid
  cases hafter
  exact hf repo hrepo hid

theorem onActive_holds (h : ∀ repo ∈ state.repos, Holds repo)
    (hf : ∀ repo, Holds repo → Holds (f repo)) : ∀ repo ∈ (state.onActive f).repos, Holds repo := by
  rw [onActive]
  cases state.activeRepo with
  | none => exact h
  | some repoId => exact onRepo_holds h fun repo hrepo _ => hf repo (h repo hrepo)

theorem onActive_activeRepo (f : RepoState → RepoState) :
    (state.onActive f).activeRepo = state.activeRepo := by
  rw [onActive]
  cases hactive : state.activeRepo with
  | none => exact hactive
  | some repoId => exact hactive

end AppState

namespace RepoInvariant
variable {planner : Planner} (inv : RepoInvariant planner) {state : AppState}

def OnEach (state : AppState) : Prop := ∀ repo ∈ state.repos, inv.Holds repo

variable {inv}

theorem reconcileActiveNavHistory (h : inv.OnEach state) (push : Bool) :
    inv.OnEach (state.reconcileActiveNavHistory push) :=
  AppState.onActive_holds h fun repo hrepo => inv.reconcile repo push hrepo

theorem setActiveRepo (h : inv.OnEach state) (repoId : RepoId) :
    inv.OnEach (state.setActiveRepo repoId) := by
  rw [AppState.setActiveRepo]
  split_ifs
  · exact h
  · have hcancelled := AppState.onActive_holds h inv.cancelLoads
    exact AppState.onRepo_holds hcancelled fun repo hrepo _ =>
      inv.activate repo (hcancelled repo hrepo)

theorem activateNext (h : inv.OnEach state) (next : Option RepoId) :
    inv.OnEach (state.activateNext next) := by
  cases next with
  | none => exact h
  | some repoId => exact setActiveRepo h repoId

theorem openRepo (h : inv.OnEach state) (preferences : OpenPreferences) :
    inv.OnEach (state.openRepo preferences) := by
  intro repo hrepo
  rcases List.mem_append.mp hrepo with hold | hnew
  · exact AppState.onActive_holds h inv.cancelLoads repo hold
  · rw [List.mem_singleton.mp hnew]
    exact inv.opening _ _

theorem restoreSession (opened : List OpenPreferences) (active : Option ℕ) :
    inv.OnEach (state.restoreSession opened active) := by
  intro repo hrepo
  obtain ⟨ix, hix, rfl⟩ := List.mem_mapIdx.mp hrepo
  exact inv.opening _ _

theorem closeRepo (h : inv.OnEach state) (repoId : RepoId) :
    inv.OnEach (state.closeRepo repoId) := by
  rw [AppState.closeRepo]
  cases state.repos.findIdx? fun repo => repo.id = repoId with
  | none => exact h
  | some ix =>
    have hleft : inv.OnEach { state with repos := state.repos.eraseIdx ix } :=
      fun repo hrepo => h repo (List.mem_of_mem_eraseIdx hrepo)
    dsimp only
    split_ifs
    · exact activateNext hleft _
    · exact hleft

theorem discardFailedRepoOpen (h : inv.OnEach state) (repoId : RepoId)
    (activation : FailedOpenActivation) :
    inv.OnEach (state.discardFailedRepoOpen repoId activation) := by
  rw [AppState.discardFailedRepoOpen]
  cases state.repos.findIdx? fun repo => repo.id = repoId with
  | none => exact h
  | some ix =>
    have hleft : inv.OnEach { state with repos := state.repos.eraseIdx ix } :=
      fun repo hrepo => h repo (List.mem_of_mem_eraseIdx hrepo)
    dsimp only
    split
    · cases activation with
      | adjacentTab => exact activateNext hleft _
      | previousActive previous =>
        cases previous with
        | none => exact activateNext hleft _
        | some previous => exact activateNext hleft _
    · exact hleft

theorem closeRepos (h : inv.OnEach state) (repoIds : List RepoId) (activateAfter : Option RepoId) :
    inv.OnEach (state.closeRepos repoIds activateAfter) := by
  rw [AppState.closeRepos]
  dsimp only
  split
  · exact h
  · exact activateNext (fun repo hrepo => h repo (List.mem_filter.mp hrepo).1) _

theorem reorderRepoTabs (h : inv.OnEach state) (repoId : RepoId) (insertBefore : Option RepoId) :
    inv.OnEach (state.reorderRepoTabs repoId insertBefore) := by
  rw [AppState.reorderRepoTabs]
  cases state.repos.findIdx? fun repo => repo.id = repoId with
  | none => exact h
  | some ix =>
    dsimp only
    split
    · exact h
    · intro repo hrepo
      have hmem : repo ∈ state.repos := by
        rcases List.mem_append.mp hrepo with hfront | hafter
        · rcases List.mem_append.mp hfront with hbefore | hmoved
          · exact List.mem_of_mem_eraseIdx (List.mem_of_mem_take hbefore)
          · exact List.mem_of_getElem? (Option.mem_toList.mp hmoved)
        · exact List.mem_of_mem_eraseIdx (List.mem_of_mem_drop hafter)
      exact h repo hmem

variable {message : Msg}

theorem reduceInner (h : inv.OnEach state) (hallowed : message.AllowedBy inv.Allows state) :
    inv.OnEach (state.reduceInner planner message) := by
  cases message with
  | repo repoId message =>
    exact AppState.onRepo_holds h fun repo hrepo hid =>
      inv.handle repo _ message (h repo hrepo) (hallowed repo hrepo hid)
  | openRepo preferences => exact openRepo h preferences
  | restoreSession opened active => exact restoreSession opened active
  | setActiveRepo repoId => exact setActiveRepo h repoId
  | setActiveRepoInline repoId => exact setActiveRepo h repoId
  | closeRepo repoId => exact closeRepo h repoId
  | closeRepos repoIds activateAfter => exact closeRepos h repoIds activateAfter
  | repoOpenFailed repoId activation => exact discardFailedRepoOpen h repoId activation
  | reorderRepoTabs repoId insertBefore => exact reorderRepoTabs h repoId insertBefore

theorem allowed_reconciled (push : Bool) (hallowed : message.AllowedBy inv.Allows state) :
    message.AllowedBy inv.Allows (state.reconcileActiveNavHistory push) := by
  cases message with
  | repo repoId message =>
    have hactive : (state.reconcileActiveNavHistory push).activeRepo = state.activeRepo :=
      AppState.onActive_activeRepo _
    intro repo hrepo hid
    rw [hactive]
    have hrecorded : ∀ repo ∈ (state.reconcileActiveNavHistory push).repos, repo.id = repoId →
        inv.Allows (state.activeRepo = some repoId) repo message := by
      refine AppState.onActive_holds hallowed fun repo hold hid => ?_
      exact inv.recorded repo _ _ message (hold hid)
    exact hrecorded repo hrepo hid
  | openRepo | restoreSession | setActiveRepo | setActiveRepoInline | closeRepo | closeRepos |
    repoOpenFailed | reorderRepoTabs => trivial

theorem reduce (h : inv.OnEach state) (hallowed : message.AllowedBy inv.Allows state) :
    inv.OnEach (state.reduce planner message) := by
  rw [AppState.reduce]
  split
  · exact reduceInner h hallowed
  · refine reconcileActiveNavHistory ?_ _
    split
    · exact reduceInner h hallowed
    · exact reduceInner (reconcileActiveNavHistory h false) (allowed_reconciled false hallowed)

theorem run {messages : List Msg} (hallowed : AllowedAlong planner inv.Allows .initial messages) :
    inv.OnEach (AppState.run planner messages) := by
  have hinitial : inv.OnEach AppState.initial := by
    rintro _ ⟨⟩
  rw [AppState.run]
  generalize AppState.initial = state at hallowed hinitial
  induction messages generalizing state with
  | nil => exact hinitial
  | cons message messages ih => exact ih _ hallowed.2 (reduce hinitial hallowed.1)

end RepoInvariant

end GitComet.Selection
