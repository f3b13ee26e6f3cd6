import GitComet.Graph.Positions
import GitComet.Graph.Restoration

namespace GitComet.Graph
open Slots List

def OracleGraphWalk.onLine (row : ℕ) (carriedIn : Bool) : OracleGraphWalk :=
  ⟨2, 1, [some ⟨1, 0, row, carriedIn⟩], some 1, some 0, row = 0⟩

namespace OracleGraphWalk

variable (row : ℕ) (carriedIn : Bool)

theorem arrive_onLine : (onLine row carriedIn).arrive row = ((onLine row true), [0], true) := by
  have hhits : columns (fun lane : LaneState => lane.targetIx = row) [some ⟨1, 0, row, true⟩] =
      [0] := by
    rw [columns]
    simp [slotAt, range_succ]
  rw [arrive]
  dsimp only
  have hcarried : (onLine row carriedIn).carryIn = onLine row true := rfl
  rw [hcarried]
  simp only [onLine, hhits, isEmpty_cons, Bool.false_eq_true, if_false]

theorem settle_onLine (parents : List ℕ) :
    (onLine row true).settleNode row [0] true parents false = (onLine row true, ⟨0, none, none⟩) :=
  rfl

theorem lanesNow_onLine : (onLine row true).lanesNow row none = [rowLane row] := by
  rw [lanesNow.eq_def]
  rcases Nat.eq_zero_or_pos row with rfl | hpos
  · rfl
  · have hlater : row ≠ 0 := Nat.ne_of_gt hpos
    simp [onLine, slotAt, range_succ, rowLane, hlater]

theorem fromNodeCols_nextLane : fromNodeColsOf [nextLane] = [] := by decide

theorem step_onLine :
    (onLine row carriedIn).step row [row + 1] false false =
      (onLine (row + 1) true, linearRow (rowLane row) [nextLane]) := by
  have hfront : swapToFront [0] 0 = [0] := rfl
  have hnext : ({ onLine row true with
      lanes := [some ⟨1, 0, row + 1, true⟩], seededMainLanePending := false } : OracleGraphWalk) =
        onLine (row + 1) true := rfl
  have hdepart : (onLine row true).depart [0] [row + 1] =
      ({ onLine row true with lanes := [some ⟨1, 0, row + 1, true⟩] }, []) := rfl
  rw [step, arrive_onLine]
  dsimp only
  rw [settle_onLine]
  dsimp only
  rw [lanesNow_onLine, hfront, hdepart]
  exact congrArg (fun cols => (onLine (row + 1) true,
    ({ linearRow (rowLane row) [nextLane] with fromNodeCols := cols } : GraphRow)))
      fromNodeCols_nextLane

theorem step_endOfLine :
    ((onLine row carriedIn).step row [] false false).2 = linearRow (rowLane row) [] := by
  have hfront : swapToFront [0] 0 = [0] := rfl
  have hdepart : (onLine row true).depart [0] [] =
      ({ onLine row true with lanes := [none] }, [0]) := rfl
  rw [step, arrive_onLine]
  dsimp only
  rw [settle_onLine]
  dsimp only
  rw [lanesNow_onLine, hfront, hdepart]
  rfl

end OracleGraphWalk

section

variable {commits : List Commit} (hids : (commits.map (·.id)).Nodup)
  (hbelow : ParentsBelow commits)
include hids hbelow

omit hids in
theorem parentIxs_last {last : Commit} {ix : ℕ} (hlast : commits.drop ix = [last]) :
    parentIxs commits last = [] := by
  have hcommit : commits[ix]? = some last := by
    rw [← head?_drop, hlast]
    rfl
  have hlen : commits.length = ix + 1 := by
    have hdrop := congrArg length hlast
    rw [length_drop, length_singleton] at hdrop
    omega
  refine eq_nil_iff_forall_not_mem.mpr fun parentIx hmem => ?_
  obtain ⟨parent, -, hposition⟩ := mem_filterMap.mp hmem
  have hlt := (findIdx?_eq_some_iff_getElem.mp hposition).1
  exact absurd (hbelow ix last hcommit parentIx hmem) (by omega)

omit hbelow in
theorem parentIxs_next {commit next : Commit} {rest : List Commit} {ix : ℕ}
    (hrest : commits.drop ix = commit :: next :: rest) (hparent : commit.parentIds = [next.id]) :
    parentIxs commits commit = [ix + 1] := by
  have hnext : commits[ix + 1]? = some next := by
    rw [← getElem?_drop, hrest]
    rfl
  rw [parentIxs, hparent, filterMap_cons, (position_eq_some hids).mpr ⟨next, hnext, rfl⟩]
  rfl

theorem linearRows_eq {rest : List Commit} {ix : ℕ} (hrest : commits.drop ix = rest)
    {graph : List GraphRow} (hlinear : linearRows ix rest = some graph) (carriedIn : Bool) :
    (OracleGraphWalk.onLine ix carriedIn).run ix ((rest.zipIdx ix).map fun commit =>
      ⟨parentIxs commits commit.1, isMergeAt commits commit.2, isHeadAt commits [] commit.2⟩) =
        graph := by
  have hhead : ∀ ix, isHeadAt commits [] ix = false := by
    intro ix
    rw [isHeadAt]
    cases commits[ix]? with
    | none => rfl
    | some commit => rfl
  have hmerge : ∀ {ix commit rest}, commits.drop ix = commit :: rest →
      isMergeAt commits ix = decide (1 < commit.parentIds.length) := by
    intro ix commit rest hrest
    rw [isMergeAt, ← head?_drop, hrest]
    rfl
  induction ix, rest using linearRows.induct generalizing graph carriedIn with
  | case1 ix =>
    cases hlinear
    rfl
  | case2 ix last hlast =>
    rw [linearRows, if_pos hlast] at hlinear
    cases hlinear
  | case3 ix last hlast =>
    rw [linearRows, if_neg hlast] at hlinear
    cases hlinear
    rw [zipIdx_singleton, map_singleton, OracleGraphWalk.run, OracleGraphWalk.run]
    dsimp only
    rw [parentIxs_last hbelow hrest, hmerge hrest, hhead, decide_eq_false hlast,
      OracleGraphWalk.step_endOfLine]
  | case4 ix commit next rest hparent ih =>
    rw [linearRows, if_pos hparent] at hlinear
    obtain ⟨graph', hgraph', rfl⟩ := Option.map_eq_some_iff.mp hlinear
    have hnext : commits.drop (ix + 1) = next :: rest := by
      rw [← tail_drop, hrest]
      rfl
    have hsingle : decide (1 < [next.id].length) = false := rfl
    rw [zipIdx_cons, map_cons, OracleGraphWalk.run]
    dsimp only
    rw [parentIxs_next hids hrest hparent, hmerge hrest, hhead, hparent, hsingle,
      OracleGraphWalk.step_onLine]
    exact congrArg (cons _) (ih hnext hgraph' true)
  | case5 ix commit next rest hparent =>
    rw [linearRows, if_neg hparent] at hlinear
    cases hlinear

theorem computeLinear_eq {branchHeads : List String} {activeHeadTarget : Option String}
    {graph : List GraphRow} (hlinear : computeLinearVisibleHistoryFastPath commits
      (!branchHeads.isEmpty) activeHeadTarget = some graph) :
    graph = (OracleGraphWalk.new (mainTargetOf commits activeHeadTarget)).run 0
      (rowInputs commits (isMergeAt commits) (isHeadAt commits branchHeads)) := by
  rw [computeLinearVisibleHistoryFastPath.eq_def] at hlinear
  cases commits with
  | nil =>
    cases hlinear
    rfl
  | cons first rest =>
    dsimp only at hlinear
    split_ifs at hlinear with hheads hactive
    have hnone : branchHeads = [] := by
      cases branchHeads with
      | nil => rfl
      | cons head heads => exact absurd rfl hheads
    have hmain : mainTargetOf (first :: rest) activeHeadTarget = some 0 := by
      rw [mainTargetOf]
      cases activeHeadTarget with
      | none => rfl
      | some id =>
        have hid : id = first.id := by
          by_contra hne
          exact hactive (decide_eq_true hne)
        rw [Option.bind_some, position_cons, if_pos hid.symm]
        rfl
    have hstart : OracleGraphWalk.new (some 0) = OracleGraphWalk.onLine 0 false := rfl
    rw [hmain, hstart, hnone, rowInputs]
    exact (linearRows_eq hids hbelow (drop_zero ..) hlinear false).symm

end

end GitComet.Graph

namespace GitComet.Graph

section

variable {row : ℕ} {w : GraphWalk} {o : OracleGraphWalk}

theorem Ready.run (h : Ready row w o) (haimed : w.Aimed) (restored : ℕ → Bool)
    {inputs : List RowInput} (hrows : row + inputs.length ≤ noLane)
    (hparents : ∀ input ∈ inputs, ∀ parent ∈ input.parents, parent < noLane) :
    w.run restored row inputs = o.run row inputs := by
  induction inputs generalizing row w o with
  | nil => rfl
  | cons input inputs ih =>
    obtain ⟨hinput, hrest⟩ := List.forall_mem_cons.mp hparents
    rw [List.length_cons] at hrows
    have hrow : row < noLane := by omega
    have hsame : Ready row (if restored row then w.checkpoint.restore else w) o ∧
        (if restored row then w.checkpoint.restore else w).Aimed := by
      split_ifs
      · exact ⟨h.restore haimed, haimed.restore⟩
      · exact ⟨h, haimed⟩
    obtain ⟨hready, haimed⟩ := hsame
    obtain ⟨hpaint, hnext⟩ := hready.step hrow hinput input.merge input.head
    rw [GraphWalk.run, OracleGraphWalk.run, hpaint, ih hnext (haimed.step hrow hinput _ _) (by omega) hrest]

end

section

variable {commits : List Commit}

theorem parentIxs_lt {commit : Commit} {parentIx : ℕ} (h : parentIx ∈ parentIxs commits commit) :
    parentIx < commits.length := by
  obtain ⟨parent, -, hposition⟩ := List.mem_filterMap.mp h
  exact (List.findIdx?_eq_some_iff_getElem.mp hposition).1

theorem mainTargetOf_lt {activeHeadTarget : Option String} {target : ℕ}
    (h : target ∈ mainTargetOf commits activeHeadTarget) : target < commits.length := by
  rw [mainTargetOf, Option.mem_def, Option.or_eq_some_iff] at h
  rcases h with hactive | ⟨-, hfirst⟩
  · obtain ⟨id, -, hposition⟩ := Option.bind_eq_some_iff.mp hactive
    exact (List.findIdx?_eq_some_iff_getElem.mp hposition).1
  · cases commits with
    | nil => cases hfirst
    | cons first rest =>
      cases hfirst
      exact Nat.succ_pos _

variable (hrows : commits.length ≤ noLane)
include hrows

theorem length_rowInputs (merge head : ℕ → Bool) :
    0 + (rowInputs commits merge head).length ≤ noLane := by
  rwa [rowInputs, List.length_map, List.length_zipIdx, Nat.zero_add]

theorem rowInputs_parents (merge head : ℕ → Bool) :
    ∀ input ∈ rowInputs commits merge head, ∀ parent ∈ input.parents, parent < noLane := by
  intro input hmem parent hparent
  obtain ⟨commit, -, rfl⟩ := List.mem_map.mp hmem
  exact Nat.lt_of_lt_of_le (parentIxs_lt hparent) hrows

theorem run_eq_oracle {mainTarget : Option ℕ} (hmain : ∀ target ∈ mainTarget, target < noLane)
    (merge head restored : ℕ → Bool) :
    (GraphWalk.new mainTarget).run restored 0 (rowInputs commits merge head) =
      (OracleGraphWalk.new mainTarget).run 0 (rowInputs commits merge head) :=
  (Ready.new hmain).run (GraphWalk.new_aimed hmain) restored (length_rowInputs hrows merge head)
    (rowInputs_parents hrows merge head)

theorem computeGraph_eq_run (hids : (commits.map (·.id)).Nodup) (hbelow : ParentsBelow commits)
    (branchHeads : List String) (activeHeadTarget : Option String) :
    computeGraph commits branchHeads activeHeadTarget =
      (GraphWalk.new (mainTargetOf commits activeHeadTarget)).run (fun _ => false) 0
        (rowInputs commits (isMergeAt commits) (isHeadAt commits branchHeads)) := by
  have hlookup : ∀ id ∈ requiredLookupIds commits branchHeads activeHeadTarget,
      idToIndex commits (requiredLookupIds commits branchHeads activeHeadTarget) id =
        position commits id := fun id hmem => idToIndex_eq hids hmem
  have hactive : (activeHeadTarget.bind
      (idToIndex commits (requiredLookupIds commits branchHeads activeHeadTarget))) =
        activeHeadTarget.bind (position commits) := by
    cases activeHeadTarget with
    | none => rfl
    | some id =>
      exact hlookup id (Finset.mem_union_left _ (Finset.mem_union_left _
        (Option.mem_toFinset.mpr rfl)))
  rw [computeGraph.eq_def]
  cases hlinear : computeLinearVisibleHistoryFastPath commits (!branchHeads.isEmpty)
      activeHeadTarget with
  | some graph =>
    rw [run_eq_oracle hrows fun target hmem => Nat.lt_of_lt_of_le (mainTargetOf_lt hmem) hrows]
    exact computeLinear_eq hids hbelow hlinear
  | none =>
    dsimp only
    rw [hactive, ← mainTargetOf]
    refine computeRows_eq hids (fun id hmem => hlookup id (Finset.mem_union_right _ hmem))
      (headMask_getD hids fun head hmem => hlookup head (Finset.mem_union_left _
        (Finset.mem_union_right _ (List.mem_toFinset.mpr hmem)))) hbelow _ (List.drop_zero ..)

end

def mergedHistory : List Commit :=
  [⟨"m", ["a", "b"]⟩, ⟨"b", ["r"]⟩, ⟨"a", ["r", "gone"]⟩, ⟨"r", []⟩]

end GitComet.Graph
