import GitComet.Selection.Session

namespace GitComet.Selection
open List IndexedHistory Loading Option Bool

structure Selecting (s : RepoState) : Prop where
  distinct : s.multiSelection.commits.Nodup
  ids : s.selectedIds = s.multiSelection.commits.toFinset
  alone : s.worktreeSelection.isSome = true → s.selectedCommit = none ∧ s.rangeSelection = none
  range : s.rangeSelection = none → s.rangeFilesInFlight = false
  recorded : ∀ snapshot ∈ s.mainHistory.entries, snapshot.worktreeSelection.isSome = true →
    snapshot.selectedCommit = none ∧ snapshot.rangeSelection = none

structure Exclusive (s : RepoState) : Prop extends Selecting s where
  focus : s.multiSelection.commits ≠ [] →
    ∃ focus ∈ s.multiSelection.commits, s.selectedCommit = some focus

namespace KeepsSelection
variable {s mid after : RepoState}

theorem refl (s : RepoState) : KeepsSelection s s := ⟨rfl, rfl, rfl, rfl, rfl, rfl, rfl⟩

theorem trans (hmid : KeepsSelection s mid) (hafter : KeepsSelection mid after) :
    KeepsSelection s after where
  selectedCommit := hafter.selectedCommit.trans hmid.selectedCommit
  multiSelection := hafter.multiSelection.trans hmid.multiSelection
  selectedIds := hafter.selectedIds.trans hmid.selectedIds
  rangeSelection := hafter.rangeSelection.trans hmid.rangeSelection
  rangeFilesInFlight := hafter.rangeFilesInFlight.trans hmid.rangeFilesInFlight
  worktreeSelection := hafter.worktreeSelection.trans hmid.worktreeSelection
  mainHistory := hafter.mainHistory.trans hmid.mainHistory

theorem selecting (hkeeps : KeepsSelection s after) (h : Selecting s) : Selecting after where
  distinct := by
    rw [hkeeps.multiSelection]
    exact h.distinct
  ids := by rw [hkeeps.selectedIds, hkeeps.multiSelection, h.ids]
  alone := by
    rw [hkeeps.worktreeSelection, hkeeps.selectedCommit, hkeeps.rangeSelection]
    exact h.alone
  range := by
    rw [hkeeps.rangeSelection, hkeeps.rangeFilesInFlight]
    exact h.range
  recorded := by
    rw [hkeeps.mainHistory]
    exact h.recorded

theorem exclusive (hkeeps : KeepsSelection s after) (h : Exclusive s) : Exclusive after where
  toSelecting := hkeeps.selecting h.toSelecting
  focus := by
    rw [hkeeps.multiSelection, hkeeps.selectedCommit]
    exact h.focus

end KeepsSelection

namespace KeepsView
variable {s mid after : RepoState}

theorem refl (s : RepoState) : KeepsView s s := ⟨.refl s, rfl, rfl, rfl, rfl⟩

theorem trans (hmid : KeepsView s mid) (hafter : KeepsView mid after) : KeepsView s after where
  toKeepsSelection := hmid.toKeepsSelection.trans hafter.toKeepsSelection
  id := hafter.id.trans hmid.id
  diffTarget := hafter.diffTarget.trans hmid.diffTarget
  contentPreview := hafter.contentPreview.trans hmid.contentPreview
  editMode := hafter.editMode.trans hmid.editMode

end KeepsView

variable {focus : CommitId}

variable {shared : Bool}

namespace RepoState
variable {s : RepoState}

theorem clearRangeComparison_cleared :
    s.clearRangeComparison.1.rangeSelection = none ∧
      s.clearRangeComparison.1.rangeFilesInFlight = false := by
  rw [clearRangeComparison]
  split_ifs with h
  · simpa using h
  · exact ⟨rfl, rfl⟩

theorem clearRangeComparison_same :
    s.clearRangeComparison.1.selectedCommit = s.selectedCommit ∧
      s.clearRangeComparison.1.multiSelection = s.multiSelection ∧
      s.clearRangeComparison.1.selectedIds = s.selectedIds ∧
      s.clearRangeComparison.1.worktreeSelection = s.worktreeSelection ∧
      s.clearRangeComparison.1.mainHistory = s.mainHistory := by
  rw [clearRangeComparison]
  split_ifs <;> exact ⟨rfl, rfl, rfl, rfl, rfl⟩

theorem clearRangeComparison_selecting (h : Selecting s) : Selecting s.clearRangeComparison.1 := by
  obtain ⟨hcommit, hmulti, hids, hworktree, hhistory⟩ := s.clearRangeComparison_same
  obtain ⟨hrange, hflight⟩ := s.clearRangeComparison_cleared
  refine ⟨hmulti ▸ h.distinct, by rw [hids, hmulti, h.ids], fun hsome => ?_, fun _ => hflight,
    hhistory ▸ h.recorded⟩
  rw [hcommit]
  exact ⟨(h.alone (hworktree ▸ hsome)).1, hrange⟩

theorem clearRangeComparison_exclusive (h : Exclusive s) : Exclusive s.clearRangeComparison.1 := by
  obtain ⟨hcommit, hmulti, -⟩ := s.clearRangeComparison_same
  refine ⟨clearRangeComparison_selecting h.toSelecting, ?_⟩
  rw [hmulti, hcommit]
  exact h.focus

theorem setSelectedCommit_none_exclusive (h : Selecting s) :
    Exclusive (s.setSelectedCommit none) := by
  let cleared : RepoState := { s with
    worktreeSelection := none
    revealTarget := if s.revealTarget = none then s.revealTarget else none
    multiSelection := .default
    selectedIds := ∅ }
  obtain ⟨-, hmulti, hids, hworktree, hhistory⟩ := cleared.clearRangeComparison_same
  obtain ⟨hrange, hflight⟩ := cleared.clearRangeComparison_cleared
  refine { distinct := ?_, ids := ?_, alone := fun _ => ⟨rfl, hrange⟩, range := fun _ => hflight,
           recorded := ?_, focus := ?_ }
  · exact hmulti ▸ nodup_nil
  · exact hids.trans (congrArg (fun v => v.commits.toFinset) hmulti).symm
  · exact hhistory ▸ h.recorded
  · intro hne
    exact absurd (congrArg CommitMultiSelection.commits hmulti) hne

theorem clearCommitSelection_exclusive (h : Selecting s) : Exclusive s.clearCommitSelection := by
  have hkeeps : KeepsSelection (s.setSelectedCommit none) s.clearCommitSelection :=
    ⟨rfl, rfl, rfl, rfl, rfl, rfl, rfl⟩
  exact hkeeps.exclusive (setSelectedCommit_none_exclusive h)

theorem setSelectedCommit_some_selecting (h : Selecting s) (focus : CommitId) :
    Selecting (s.setSelectedCommit (some focus)) where
  distinct := h.distinct
  ids := h.ids
  alone := by rintro ⟨⟩
  range := h.range
  recorded := h.recorded

theorem setWorktreeSelection_exclusive (h : Exclusive s) (path : Option Path) :
    Exclusive (s.setWorktreeSelection path) := by
  rw [setWorktreeSelection]
  split_ifs with hsame hpath
  · exact h
  · have hcleared := setSelectedCommit_none_exclusive h.toSelecting
    have hrange : (s.setSelectedCommit none).rangeSelection = none :=
      clearRangeComparison_cleared.1
    exact ⟨⟨hcleared.distinct, hcleared.ids, fun _ => ⟨rfl, hrange⟩, hcleared.range,
      hcleared.recorded⟩, hcleared.focus⟩
  · refine ⟨⟨h.distinct, h.ids, fun hsome => absurd hsome hpath, h.range, h.recorded⟩, h.focus⟩

theorem setCommitMultiSelection_selecting (h : Selecting s) {v : CommitMultiSelection}
    (hdistinct : v.commits.Nodup) (hshared : shared → v.commits = s.multiSelection.commits) :
    Selecting (s.setCommitMultiSelection v shared) := by
  rw [setCommitMultiSelection]
  split_ifs with hsame hkept
  · exact h
  · exact ⟨hdistinct, h.ids.trans (by rw [← hshared hkept]), h.alone, h.range, h.recorded⟩
  · exact ⟨hdistinct, rfl, h.alone, h.range, h.recorded⟩

variable (s) in
theorem setCommitMultiSelection_same (v : CommitMultiSelection) (shared : Bool) :
    (s.setCommitMultiSelection v shared).worktreeSelection = s.worktreeSelection ∧
      (s.setCommitMultiSelection v shared).selectedCommit = s.selectedCommit := by
  rw [setCommitMultiSelection]
  split_ifs <;> exact ⟨rfl, rfl⟩

variable (s) in
theorem setCommitMultiSelection_multi (v : CommitMultiSelection) (shared : Bool) :
    (s.setCommitMultiSelection v shared).multiSelection = v := by
  rw [setCommitMultiSelection]
  split_ifs with hsame
  · exact hsame
  · rfl
  · rfl

theorem clearDiffSelection_keeps : KeepsSelection s s.clearDiffSelection :=
  ⟨rfl, rfl, rfl, rfl, rfl, rfl, rfl⟩

theorem commitDetails_keeps (details : Loading.Loadable CommitDetails) :
    KeepsView s { s with commitDetails := details } :=
  ⟨⟨rfl, rfl, rfl, rfl, rfl, rfl, rfl⟩, rfl, rfl, rfl, rfl⟩

variable (s) in
theorem reconcileSelectedCommitDetails_view : KeepsView s s.reconcileSelectedCommitDetails.1 := by
  rw [reconcileSelectedCommitDetails]
  split
  · exact .refl s
  · split_ifs
    · exact .refl s
    · exact commitDetails_keeps _

theorem beginComparison_selecting (h : Selecting s) (hworktree : s.worktreeSelection = none)
    (range : RangeSelection) :
    Selecting ({ s with rangeSelection := some range }).beginRangeFilesLoad.1 where
  distinct := h.distinct
  ids := h.ids
  alone hsome := by
    rw [show _ = none from hworktree] at hsome
    cases hsome
  range := by rintro ⟨⟩
  recorded := h.recorded

theorem compareRange_explicit (h : Selecting s) (hworktree : s.worktreeSelection = none)
    (fromId : CommitId) (toId : Option CommitId) (fromLabel toLabel : String) :
    Exclusive (s.compareRange fromId toId fromLabel toLabel .explicit).1 := by
  have hdropped := setCommitMultiSelection_selecting (v := .default) h nodup_nil
    (fun hshared : false = true => absurd hshared false_ne_true)
  have hrow := (s.setCommitMultiSelection_same .default false).1.trans hworktree
  have hnothing := s.setCommitMultiSelection_multi .default false
  have hbegun := beginComparison_selecting hdropped hrow ⟨fromId, toId, fromLabel, toLabel⟩
  refine clearDiffSelection_keeps.exclusive ⟨hbegun, fun hne => absurd ?_ hne⟩
  exact congrArg CommitMultiSelection.commits hnothing

theorem compareRange_multiSelection (h : Selecting s) (hworktree : s.worktreeSelection = none)
    (hfocus : s.selectedCommit = some focus) (hmem : focus ∈ s.multiSelection.commits)
    (fromId : CommitId) (toId : Option CommitId) (fromLabel toLabel : String) :
    Exclusive (s.compareRange fromId toId fromLabel toLabel .multiSelection).1 := by
  have hbegun := beginComparison_selecting h hworktree ⟨fromId, toId, fromLabel, toLabel⟩
  exact clearDiffSelection_keeps.exclusive ⟨hbegun, fun _ => ⟨focus, hmem, hfocus⟩⟩

theorem clearComparison_exclusive (h : Exclusive s) : Exclusive s.clearComparison.1 := by
  have hdropped := setCommitMultiSelection_selecting (v := .default) h.toSelecting nodup_nil
    (fun hshared : false = true => absurd hshared false_ne_true)
  have hnothing := s.setCommitMultiSelection_multi .default false
  have hempty : Exclusive (s.setCommitMultiSelection .default false) :=
    ⟨hdropped, fun hne => absurd (congrArg CommitMultiSelection.commits hnothing) hne⟩
  exact clearDiffSelection_keeps.exclusive
    ((reconcileSelectedCommitDetails_view _).exclusive (clearRangeComparison_exclusive hempty))

theorem selectCommitAndLoadDetails_selecting (h : Selecting s) (focus : CommitId) :
    Selecting (s.selectCommitAndLoadDetails focus).1 := by
  rw [selectCommitAndLoadDetails]
  split_ifs
  · exact h
  · have hselected := setSelectedCommit_some_selecting h focus
    dsimp only
    cases (s.setSelectedCommit (some focus)).detailsLoaded focus with
    | true => exact hselected
    | false =>
      exact ⟨hselected.distinct, hselected.ids, hselected.alone, hselected.range,
        hselected.recorded⟩

theorem selectCommitAndLoadDetails_focus (focus : CommitId) :
    (s.selectCommitAndLoadDetails focus).1.selectedCommit = some focus ∧
      (s.selectCommitAndLoadDetails focus).1.multiSelection = s.multiSelection := by
  rw [selectCommitAndLoadDetails]
  split_ifs with hsame
  · exact ⟨hsame, rfl⟩
  · dsimp only
    cases (s.setSelectedCommit (some focus)).detailsLoaded focus <;> exact ⟨rfl, rfl⟩

theorem focusSelection_exclusive (h : Selecting s)
    (hmem : focus ∈ s.multiSelection.commits) : Exclusive (s.focusSelection focus).1 := by
  rw [focusSelection]
  cases s.selectedPair with
  | some pair =>
    have hset := setSelectedCommit_some_selecting h focus
    exact compareRange_multiSelection hset rfl rfl hmem _ _ _ _
  | none =>
    have hleft := clearRangeComparison_selecting h
    obtain ⟨hfocus, hmulti⟩ := s.clearRangeComparison.1.selectCommitAndLoadDetails_focus focus
    have hselected : Exclusive (s.clearRangeComparison.1.selectCommitAndLoadDetails focus).1 := by
      refine ⟨selectCommitAndLoadDetails_selecting hleft focus, fun _ => ⟨focus, ?_, hfocus⟩⟩
      rw [hmulti, s.clearRangeComparison_same.2.1]
      exact hmem
    dsimp only
    split_ifs
    · exact (reconcileSelectedCommitDetails_view _).exclusive hselected
    · exact hselected

end RepoState

variable {entries : List CommitId} {commitId : CommitId}

section

variable {ix : ℕ}

theorem entryIndex_spec {target : CommitId} {hint : Option ℕ}
    (h : commitSelectionEntryIndex entries target hint = some ix) : entries[ix]? = some target := by
  rw [commitSelectionEntryIndex, or_eq_some_iff] at h
  rcases h with hhint | ⟨-, hfound⟩
  · obtain ⟨-, hentry⟩ := filter_eq_some_iff.mp hhint
    exact of_decide_eq_true hentry
  · obtain ⟨hlt, hentry, -⟩ := findIdx?_eq_some_iff_getElem.mp hfound
    rw [getElem?_eq_getElem hlt, of_decide_eq_true hentry]

theorem mem_between {first last : ℕ}
    (hentry : entries[ix]? = some commitId) (hfirst : first ≤ ix) (hlast : ix ≤ last) :
    commitId ∈ (entries.take (last + 1)).drop first := by
  have hslot : ((entries.take (last + 1)).drop first)[ix - first]? = some commitId := by
    rw [getElem?_drop, Nat.add_sub_cancel' hfirst, getElem?_take_of_lt (by omega), hentry]
  exact mem_of_getElem? hslot

end

namespace RepoState
variable {s : RepoState}

theorem rangeClick_spec (hrows : entries.Nodup) (commitId : CommitId) (clickedIndex : Option ℕ) :
    (s.rangeClick commitId clickedIndex entries).commits.Nodup ∧
      commitId ∈ (s.rangeClick commitId clickedIndex entries).commits := by
  rw [rangeClick]
  cases hclicked : commitSelectionEntryIndex entries commitId clickedIndex with
  | none => exact ⟨nodup_singleton _, mem_singleton_self _⟩
  | some clickedIx =>
    refine ⟨hrows.sublist ((drop_sublist _ _).trans (take_sublist _ _)), ?_⟩
    exact mem_between (entryIndex_spec hclicked) (Nat.min_le_right _ _) (Nat.le_max_right _ _)

structure Clicked (s : RepoState) (mode : CommitSelectMode) (commitId focus : CommitId)
    (clicked : CommitMultiSelection) : Prop where
  distinct : clicked.commits.Nodup
  mem : focus ∈ clicked.commits
  kept : s.keepsList mode commitId = true → clicked.commits = s.multiSelection.commits

variable {mode : CommitSelectMode} {clickedIndex : Option ℕ} {visibleOrder : Option (List CommitId)}

theorem clickedSelection_spec (h : Exclusive s)
    (hrows : mode = .range → (visibleOrder.getD []).Nodup)
    (hfocus : (s.clickedSelection commitId mode clickedIndex visibleOrder).2 = some focus) :
    Clicked s mode commitId focus
      (s.clickedSelection commitId mode clickedIndex visibleOrder).1 := by
  cases mode with
  | single =>
    cases hfocus
    exact ⟨nodup_singleton _, mem_singleton_self _, by rintro ⟨⟩⟩
  | range =>
    obtain rfl := some.inj hfocus
    obtain ⟨hdistinct, hmem⟩ := s.rangeClick_spec (hrows rfl) commitId clickedIndex
    exact ⟨hdistinct, hmem, by rintro ⟨⟩⟩
  | preserveIfSelected =>
    cases hfocus
    rw [clickedSelection]
    dsimp only
    split_ifs with hselected
    · exact ⟨h.distinct, by simpa using hselected, fun _ => rfl⟩
    · refine ⟨nodup_singleton _, mem_singleton_self _, fun hkept => ?_⟩
      rw [keepsList, and_eq_true] at hkept
      exact absurd hkept.2 hselected
  | toggle =>
    rw [clickedSelection] at hfocus ⊢
    dsimp only at hfocus ⊢
    cases hfound : s.multiSelection.commits.findIdx? (· = commitId) with
    | some ix =>
      rw [hfound] at hfocus
      exact ⟨h.distinct.sublist (eraseIdx_sublist _ _), mem_of_getLast? hfocus,
        by rintro ⟨⟩⟩
    | none =>
      rw [hfound] at hfocus
      obtain rfl := some.inj hfocus
      have hnew : commitId ∉ s.multiSelection.commits := by
        intro hmem
        have hnone := findIdx?_eq_none_iff.mp hfound commitId hmem
        simp at hnone
      refine ⟨?_, mem_append_right _ (mem_singleton_self _), by rintro ⟨⟩⟩
      exact nodup_append.mpr ⟨h.distinct, nodup_singleton _, fun a ha b hb heq =>
        hnew (mem_singleton.mp hb ▸ heq ▸ ha)⟩

theorem selectCommitMulti_exclusive (planner : Planner) (h : Exclusive s)
    (hrows : mode = .range → (visibleOrder.getD []).Nodup) :
    Exclusive (s.selectCommitMulti planner commitId mode clickedIndex visibleOrder).1 := by
  rw [selectCommitMulti]
  cases hfocus : (s.clickedSelection commitId mode clickedIndex visibleOrder).2 with
  | none => exact clearCommitSelection_exclusive h.toSelecting
  | some focus =>
    have hclicked := clickedSelection_spec h hrows hfocus
    refine focusSelection_exclusive
      (setCommitMultiSelection_selecting h.toSelecting hclicked.distinct hclicked.kept) ?_
    rw [setCommitMultiSelection_multi]
    exact hclicked.mem

theorem selectCommit_exclusive (planner : Planner) (h : Exclusive s) (commitId : CommitId) :
    Exclusive (s.selectCommit planner commitId).1 :=
  selectCommitMulti_exclusive planner h (by rintro ⟨⟩)

theorem reconcileSelection_exclusive (h : Exclusive s) {survives : CommitId → Bool}
    (hshared : shared → s.multiSelection.commits.all survives) :
    Exclusive (s.reconcileSelection survives shared).1 := by
  have hdistinct : (s.survivingSelection survives).commits.Nodup := h.distinct.filter _
  have hkept : shared →
      (s.survivingSelection survives).commits = s.multiSelection.commits := fun hs =>
    filter_eq_self.mpr fun id hid => all_eq_true.mp (hshared hs) id hid
  have hset := setCommitMultiSelection_selecting h.toSelecting hdistinct hkept
  have hmulti := s.setCommitMultiSelection_multi (s.survivingSelection survives) shared
  have hcommit := (s.setCommitMultiSelection_same (s.survivingSelection survives) shared).2
  rw [reconcileSelection]
  split_ifs with hgone
  · cases hlast : (s.survivingSelection survives).commits.getLast? with
    | none => exact clearCommitSelection_exclusive hset
    | some commitId =>
      obtain ⟨hfocus, hsame⟩ := (s.setCommitMultiSelection (s.survivingSelection survives)
        shared).selectCommitAndLoadDetails_focus commitId
      refine ⟨selectCommitAndLoadDetails_selecting hset commitId, fun _ => ⟨commitId, ?_, hfocus⟩⟩
      rw [hsame, hmulti]
      exact mem_of_getLast? hlast
  · refine ⟨hset, fun hne => ?_⟩
    rw [hmulti] at hne ⊢
    rw [hcommit]
    have hsome : s.multiSelection.commits ≠ [] := fun hnil => hne (by
      rw [survivingSelection, hnil]
      rfl)
    obtain ⟨focus, hmem, hselected⟩ := h.focus hsome
    rw [hselected, any_some, not_eq_true, not_eq_false'] at hgone
    exact ⟨focus, mem_filter.mpr ⟨hmem, hgone⟩, hselected⟩

end RepoState

end GitComet.Selection
