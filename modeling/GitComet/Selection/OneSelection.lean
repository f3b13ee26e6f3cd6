import GitComet.Selection.ExclusiveSteps

namespace GitComet.Selection
open Loading List

structure OneSelection (repo : RepoState) : Prop where
  worktree : repo.worktreeSelection.isSome = true →
    repo.selectedCommit = none ∧ repo.multiSelection.commits = [] ∧ repo.rangeSelection = none
  multi : repo.multiSelection.commits ≠ [] →
    repo.multiSelection.commits.Nodup ∧
      (∀ id, id ∈ repo.selectedIds ↔ id ∈ repo.multiSelection.commits) ∧
      ∃ focus ∈ repo.multiSelection.commits, repo.selectedCommit = some focus
  range : repo.rangeSelection = none → repo.rangeFilesInFlight = false

namespace Exclusive
variable {repo : RepoState}

theorem no_commits (h : Exclusive repo) (hselected : repo.selectedCommit = none) :
    repo.multiSelection.commits = [] := by
  by_contra hne
  obtain ⟨focus, -, hfocus⟩ := h.focus hne
  rw [hselected] at hfocus
  cases hfocus

theorem oneSelection (h : Exclusive repo) : OneSelection repo where
  worktree hsome := by
    obtain ⟨hselected, hrange⟩ := h.alone hsome
    exact ⟨hselected, h.no_commits hselected, hrange⟩
  multi hne := by
    refine ⟨h.distinct, fun id => ?_, h.focus hne⟩
    rw [h.ids, mem_toFinset]
  range := h.range

end Exclusive

theorem opening_exclusive (id : Loading.RepoId) (preferences : OpenPreferences) :
    Exclusive (AppState.opening id preferences) where
  distinct := nodup_nil
  ids := rfl
  alone := by rintro ⟨⟩
  range _ := rfl
  recorded := by rintro _ ⟨⟩
  focus hne := absurd rfl hne

theorem Careful.recorded {active : Bool} {s : RepoState} {message : RepoMsg}
    (history : NavStack MainViewSnapshot) (h : Careful active s message) :
    Careful active { s with mainHistory := history } message := by
  cases message <;> exact h

def exclusiveSelection (planner : Planner) : RepoInvariant planner where
  Holds := Exclusive
  Allows := Careful
  opening := opening_exclusive
  activate _ h := RepoState.activate_exclusive h
  cancelLoads _ h := RepoState.cancelLoads_keeps.exclusive h
  reconcile _ push h := RepoState.reconcileNavHistory_exclusive h push
  handle _ active message h hcareful := RepoState.handle_exclusive planner h active message hcareful
  recorded _ _ history _ h := h.recorded history

theorem careful_runs_keep_one_selection (planner : Planner) {messages : List Msg}
    (hcareful : AllowedAlong planner Careful .initial messages) :
    ∀ repo ∈ (AppState.run planner messages).repos, OneSelection repo := by
  have hexclusive : (exclusiveSelection planner).OnEach (AppState.run planner messages) :=
    RepoInvariant.run hcareful
  exact fun repo hrepo => (hexclusive repo hrepo).oneSelection

def plainPlanner : Planner where
  verifiesSignatures _ := false
  requestsWorktreeDirty _ := true
  selectedConflictTarget _ _ := none
  selectedDiffLoadPlan _ _ := ⟨true, true, none, false, false⟩

def openedWith (messages : List RepoMsg) : List Msg :=
  .openRepo ⟨.fullReachable, none⟩ :: messages.map (.repo 1)

def clicksAndComparison : List RepoMsg :=
  [.selectCommit "a", .selectCommitMulti "c" .range none (some ["a", "b", "c"]),
    .compareWithWorkingTree "c" "c", .selectWorktreeUncommitted "linked"]

theorem careful_runs_keep_one_selection_through_clicks_and_a_comparison :
    ∃ repo, (AppState.run plainPlanner (openedWith clicksAndComparison)).repos = [repo] ∧
      OneSelection repo := by
  have hcareful : AllowedAlong plainPlanner Careful .initial (openedWith clicksAndComparison) := by
    refine ⟨trivial, fun _ _ _ => trivial, ?_, ?_, fun _ _ _ => trivial, trivial⟩
    · intro _ _ _
      show ["a", "b", "c"].Nodup
      decide
    · intro repo hrepo _
      rw [mem_singleton.mp hrepo]
      rfl
  exact ⟨_, rfl, careful_runs_keep_one_selection plainPlanner hcareful _
    (mem_singleton_self _)⟩

theorem explicit_comparison_keeps_the_worktree_row :
    ¬ ∀ messages, ∀ repo ∈ (AppState.run plainPlanner messages).repos, OneSelection repo := by
  intro h
  have hworktree := (h (openedWith [.selectWorktreeUncommitted "linked",
    .compareWithWorkingTree "c" "c"]) _ (mem_singleton_self _)).worktree rfl
  exact Option.some_ne_none _ hworktree.2.2

end GitComet.Selection
