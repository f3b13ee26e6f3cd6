import Mathlib.Data.Finset.Option
import GitComet.Graph.Walk

namespace GitComet.Graph
open Nat

structure Commit where
  id : String
  parentIds : List String
  deriving DecidableEq

structure RowInput where
  parents : List ℕ
  merge : Bool
  head : Bool
  deriving DecidableEq

def GraphWalk.run (restored : ℕ → Bool) (w : GraphWalk) (row : ℕ) : List RowInput → List GraphRow
  | [] => []
  | input :: inputs =>
    let w := if restored row then w.checkpoint.restore else w
    let stepped := w.step row input.parents input.merge input.head
    stepped.2 :: stepped.1.run restored (row + 1) inputs

def OracleGraphWalk.run (o : OracleGraphWalk) (row : ℕ) : List RowInput → List GraphRow
  | [] => []
  | input :: inputs =>
    let stepped := o.step row input.parents input.merge input.head
    stepped.2 :: stepped.1.run (row + 1) inputs

def linearRow (lane : LanePaint) (next : List LanePaint) : GraphRow :=
  ⟨[lane], next, [], [], 0, 0, false, []⟩

def nextLane : LanePaint := .lane 0 false false

def rowLane (ix : ℕ) : LanePaint := .lane 0 (ix ≠ 0) false

def linearRows (ix : ℕ) : List Commit → Option (List GraphRow)
  | [] => some []
  | [last] => if last.parentIds.length > 1 then none else some [linearRow (rowLane ix) []]
  | commit :: next :: commits =>
    if commit.parentIds = [next.id] then
      (linearRows (ix + 1) (next :: commits)).map (linearRow (rowLane ix) [nextLane] :: ·)
    else none

def computeLinearVisibleHistoryFastPath (commits : List Commit) (hasBranchHeads : Bool)
    (activeHeadTarget : Option String) : Option (List GraphRow) :=
  match commits with
  | [] => some []
  | first :: _ =>
    if hasBranchHeads then none
    else if activeHeadTarget.any (· ≠ first.id) then none
    else linearRows 0 commits

section

abbrev IdToIndex := String → Option ℕ

def requiredByParents : List Commit → Finset String
  | [] => ∅
  | commit :: commits =>
    let first := match commit.parentIds.head? with
      | some parent => if commits.head?.any (·.id = parent) then ∅ else {parent}
      | none => ∅
    first ∪ (commit.parentIds.drop 1).toFinset ∪ requiredByParents commits

def requiredLookupIds (commits : List Commit) (branchHeads : List String)
    (activeHeadTarget : Option String) : Finset String :=
  activeHeadTarget.toFinset ∪ branchHeads.toFinset ∪ requiredByParents commits

def sparseIndex (required : Finset String) (ids : IdToIndex) (ix : ℕ) : List Commit → IdToIndex
  | [] => ids
  | commit :: commits =>
    if commit.id ∈ required then
      let ids := Function.update ids commit.id (some ix)
      let required := required.erase commit.id
      if required = ∅ then ids else sparseIndex required ids (ix + 1) commits
    else sparseIndex required ids (ix + 1) commits

def fullIndex (ids : IdToIndex) (ix : ℕ) : List Commit → IdToIndex
  | [] => ids
  | commit :: commits => fullIndex (Function.update ids commit.id (some ix)) (ix + 1) commits

def idToIndex (commits : List Commit) (required : Finset String) : IdToIndex :=
  if required = ∅ then fun _ => none
  else if Text.satMul required.card 2 < commits.length then
    sparseIndex required (fun _ => none) 0 commits
  else fullIndex (fun _ => none) 0 commits

def markHead (ids : IdToIndex) (mask : List Bool) (branchHead : String) : List Bool :=
  match ids branchHead with
  | some ix => mask.set ix true
  | none => mask

def branchHeadMask (ids : IdToIndex) (len : ℕ) (branchHeads : List String) : List Bool :=
  if branchHeads.isEmpty then []
  else branchHeads.foldl (markHead ids) (List.replicate len false)

def resolveFirstParentIx (commits : List Commit) (ids : IdToIndex) (commitIx : ℕ)
    (parentId : String) : Option ℕ :=
  if commits[commitIx + 1]?.any (·.id = parentId) then some (commitIx + 1) else ids parentId

def resolveParentIxs (commits : List Commit) (ids : IdToIndex) (commitIx : ℕ) (commit : Commit) :
    List ℕ :=
  commit.parentIds.zipIdx.filterMap fun parent =>
    let parentIx := if parent.2 = 0 then resolveFirstParentIx commits ids commitIx parent.1
      else ids parent.1
    parentIx.filter (commitIx < ·)

def computeRows (commits : List Commit) (ids : IdToIndex) (mask : List Bool) (w : GraphWalk)
    (commitIx : ℕ) : List Commit → List GraphRow
  | [] => []
  | commit :: rest =>
    let stepped := w.step commitIx (resolveParentIxs commits ids commitIx commit)
      (1 < commit.parentIds.length) ((mask[commitIx]?).getD false)
    stepped.2 :: computeRows commits ids mask stepped.1 (commitIx + 1) rest

def computeGraph (commits : List Commit) (branchHeads : List String)
    (activeHeadTarget : Option String) : List GraphRow :=
  match computeLinearVisibleHistoryFastPath commits (!branchHeads.isEmpty) activeHeadTarget with
  | some graph => graph
  | none =>
    let ids := idToIndex commits (requiredLookupIds commits branchHeads activeHeadTarget)
    let mainTargetIx := (activeHeadTarget.bind ids).or (if commits.isEmpty then none else some 0)
    let mask := branchHeadMask ids commits.length branchHeads
    computeRows commits ids mask (GraphWalk.new mainTargetIx) 0 commits

end

section

def position (commits : List Commit) (id : String) : Option ℕ := commits.findIdx? (·.id = id)

def parentIxs (commits : List Commit) (commit : Commit) : List ℕ :=
  commit.parentIds.filterMap (position commits)

def ParentsBelow (commits : List Commit) : Prop :=
  ∀ (ix : ℕ) (commit : Commit), commits[ix]? = some commit →
    ∀ parentIx ∈ parentIxs commits commit, ix < parentIx

instance (commits : List Commit) : Decidable (ParentsBelow commits) :=
  decidable_of_iff (∀ commit ∈ commits.zipIdx, ∀ parentIx ∈ parentIxs commits commit.1,
    commit.2 < parentIx)
    ⟨fun h ix commit hcommit => h (commit, ix) (List.mem_zipIdx_iff_getElem?.mpr hcommit),
      fun h commit hmem => h commit.2 commit.1 (List.mem_zipIdx_iff_getElem?.mp hmem)⟩

def mainTargetOf (commits : List Commit) (activeHeadTarget : Option String) : Option ℕ :=
  (activeHeadTarget.bind (position commits)).or (if commits.isEmpty then none else some 0)

def rowInputs (commits : List Commit) (merge head : ℕ → Bool) : List RowInput :=
  commits.zipIdx.map fun commit =>
    ⟨parentIxs commits commit.1, merge commit.2, head commit.2⟩

def isMergeAt (commits : List Commit) (ix : ℕ) : Bool :=
  commits[ix]?.any fun commit => 1 < commit.parentIds.length

def isHeadAt (commits : List Commit) (branchHeads : List String) (ix : ℕ) : Bool :=
  commits[ix]?.any fun commit => commit.id ∈ branchHeads

end

end GitComet.Graph

namespace GitComet.Graph

theorem position_cons (commit : Commit) (commits : List Commit) (id : String) :
    position (commit :: commits) id =
      if commit.id = id then some 0 else (position commits id).map (· + 1) := by
  rw [position, List.findIdx?_cons, position]
  simp only [decide_eq_true_eq]

variable {id : String}

theorem position_eq_none {commits : List Commit} (h : id ∉ commits.map (·.id)) :
    position commits id = none := by
  rw [position, List.findIdx?_eq_none_iff]
  intro commit hmem
  rw [decide_eq_false_iff_not]
  rintro rfl
  exact h (List.mem_map_of_mem hmem)

theorem sparseIndex_eq (commits : List Commit) (required : Finset String) (ids : IdToIndex)
    (ix : ℕ) (id : String) :
    sparseIndex required ids ix commits id =
      if id ∈ required then ((position commits id).map (· + ix)).or (ids id) else ids id := by
  induction commits generalizing required ids ix with
  | nil =>
    rw [sparseIndex, position, List.findIdx?_nil, Option.map_none, Option.none_or, ite_self]
  | cons commit commits ih =>
    have hshift : ((position commits id).map (· + 1)).map (· + ix) =
        (position commits id).map (· + (ix + 1)) := by
      rw [Option.map_map]
      congr 1
      funext n
      exact add_right_comm n 1 ix
    rw [sparseIndex, position_cons]
    dsimp only
    by_cases hsame : commit.id = id
    · subst hsame
      rw [if_pos rfl, Option.map_some, zero_add, Option.some_or]
      split_ifs with hmem hlast
      · rw [Function.update_self]
      · rw [ih, if_neg (Finset.notMem_erase _ _), Function.update_self]
      · rw [ih, if_neg hmem]
    · rw [if_neg hsame, hshift]
      have hother : Function.update ids commit.id (some ix) id = ids id :=
        Function.update_of_ne (Ne.symm hsame) _ _
      have herase : id ∈ required.erase commit.id ↔ id ∈ required := by
        rw [Finset.mem_erase]
        exact and_iff_right (Ne.symm hsame)
      split_ifs with hmem hlast hrequired hrequired
      · exact absurd (herase.mpr hrequired) (hlast ▸ Finset.notMem_empty _)
      · exact hother
      · rw [ih, if_pos (herase.mpr hrequired), hother]
      · rw [ih, if_neg (mt herase.mp hrequired), hother]
      · rw [ih, if_pos (by assumption)]
      · rw [ih, if_neg (by assumption)]

variable {ix : ℕ}

section

variable {commits : List Commit} (hids : (commits.map (·.id)).Nodup)
include hids

theorem position_eq_some :
    position commits id = some ix ↔ ∃ commit, commits[ix]? = some commit ∧ commit.id = id := by
  rw [position, List.findIdx?_eq_some_iff_getElem]
  constructor
  · rintro ⟨hlt, hid, -⟩
    exact ⟨commits[ix], List.getElem?_eq_getElem hlt, of_decide_eq_true hid⟩
  · rintro ⟨commit, hcommit, rfl⟩
    obtain ⟨hlt, rfl⟩ := List.getElem?_eq_some_iff.mp hcommit
    refine ⟨hlt, decide_eq_true rfl, fun other hother hsame => ?_⟩
    have hlt' : other < (commits.map (·.id)).length := by
      rw [List.length_map]
      exact lt_trans hother hlt
    refine absurd ((List.getElem?_inj hlt' hids).mp ?_) (ne_of_lt hother)
    rw [List.getElem?_map, List.getElem?_map, hcommit,
      List.getElem?_eq_getElem (lt_trans hother hlt)]
    exact congrArg some (of_decide_eq_true hsame)

theorem fullIndex_eq (ids : IdToIndex) (ix : ℕ) (id : String) :
    fullIndex ids ix commits id = ((position commits id).map (· + ix)).or (ids id) := by
  induction commits generalizing ids ix with
  | nil => rfl
  | cons commit commits ih =>
    obtain ⟨hnew, hrest⟩ := List.nodup_cons.mp hids
    rw [fullIndex, ih hrest, position_cons]
    split_ifs with hsame
    · rw [← hsame, position_eq_none hnew, Function.update_self]
      exact congrArg some (zero_add ix).symm
    · rw [Function.update_of_ne (Ne.symm hsame), Option.map_map]
      congr 2
      funext n
      exact (add_right_comm n 1 ix).symm

theorem idToIndex_eq {required : Finset String} (h : id ∈ required) :
    idToIndex commits required id = position commits id := by
  have hshift : ∀ found : Option ℕ, (found.map (· + 0)).or none = found := by
    intro found
    cases found <;> rfl
  rw [idToIndex, if_neg (Finset.ne_empty_of_mem h)]
  split_ifs
  · rw [sparseIndex_eq, if_pos h, hshift]
  · rw [fullIndex_eq hids, hshift]

end

variable {commit : Commit} {parent : String}

theorem mem_requiredByParents {commits : List Commit} (hcommit : commits[ix]? = some commit)
    {pos : ℕ} (hparent : commit.parentIds[pos]? = some parent) :
    parent ∈ requiredByParents commits ∨ pos = 0 ∧ commits[ix + 1]?.any (·.id = parent) := by
  induction commits generalizing ix with
  | nil => cases hcommit
  | cons first commits ih =>
    cases ix with
    | succ ix => exact (ih hcommit).imp_left fun hmem => Finset.mem_union_right _ hmem
    | zero =>
      obtain rfl : first = commit := Option.some.inj hcommit
      cases pos with
      | succ pos =>
        refine .inl (Finset.mem_union_left _ (Finset.mem_union_right _ ?_))
        rw [List.mem_toFinset]
        refine List.mem_of_getElem? (i := pos) ?_
        rw [List.getElem?_drop, add_comm]
        exact hparent
      | zero =>
        rw [requiredByParents, List.head?_eq_getElem?, hparent, List.head?_eq_getElem?]
        dsimp only
        cases hnext : commits[0]?.any (·.id = parent) with
        | true => exact .inr ⟨rfl, hnext⟩
        | false =>
          refine .inl (Finset.mem_union_left _ (Finset.mem_union_left _ ?_))
          rw [if_neg Bool.false_ne_true]
          exact Finset.mem_singleton_self parent

section

variable {commits : List Commit} (hids : (commits.map (·.id)).Nodup) {ids : IdToIndex}
include hids

theorem resolveFirstParentIx_eq
    (h : commits[ix + 1]?.any (·.id = parent) ∨ ids parent = position commits parent) :
    resolveFirstParentIx commits ids ix parent = position commits parent := by
  rw [resolveFirstParentIx]
  split_ifs with hnext
  · obtain ⟨next, hcommit, hid⟩ := (Option.any_eq_true _ _).mp hnext
    exact ((position_eq_some hids).mpr ⟨next, hcommit, of_decide_eq_true hid⟩).symm
  · exact h.resolve_left hnext

theorem resolveParentIxs_eq (hcommit : commits[ix]? = some commit)
    (hlookup : ∀ id ∈ requiredByParents commits, ids id = position commits id)
    (hbelow : ∀ parentIx ∈ parentIxs commits commit, ix < parentIx) :
    resolveParentIxs commits ids ix commit = parentIxs commits commit := by
  have hfirst : commit.parentIds.zipIdx.map Prod.fst = commit.parentIds :=
    List.zipIdx_map_fst 0 commit.parentIds
  calc resolveParentIxs commits ids ix commit
      = commit.parentIds.zipIdx.filterMap (position commits ∘ Prod.fst) := ?_
    _ = (commit.parentIds.zipIdx.map Prod.fst).filterMap (position commits) :=
        List.filterMap_map.symm
    _ = parentIxs commits commit := by rw [hfirst, parentIxs]
  refine List.filterMap_congr fun parent hmem => ?_
  obtain ⟨parent, pos⟩ := parent
  have hparent : commit.parentIds[pos]? = some parent := List.mem_zipIdx_iff_getElem?.mp hmem
  have hrequired := mem_requiredByParents hcommit hparent
  have hfound : (if pos = 0 then resolveFirstParentIx commits ids ix parent else ids parent) =
      position commits parent := by
    split_ifs with hpos
    · exact resolveFirstParentIx_eq hids (hrequired.symm.imp And.right (hlookup parent))
    · exact hlookup parent (hrequired.resolve_right fun hnext => hpos hnext.1)
  dsimp only
  rw [hfound, Function.comp]
  cases hposition : position commits parent with
  | none => rfl
  | some parentIx =>
    refine Option.filter_some_pos (decide_eq_true (hbelow parentIx ?_))
    exact List.mem_filterMap.mpr ⟨parent, List.mem_of_getElem? hparent, hposition⟩

omit hids in
theorem length_markHead (mask : List Bool) (head : String) :
    (markHead ids mask head).length = mask.length := by
  rw [markHead.eq_def]
  cases ids head with
  | none => rfl
  | some found => exact List.length_set ..

omit hids in
theorem length_mask (branchHeads : List String) (mask : List Bool) :
    (branchHeads.foldl (markHead ids) mask).length = mask.length := by
  induction branchHeads generalizing mask with
  | nil => rfl
  | cons head branchHeads ih => rw [List.foldl_cons, ih, length_markHead]

omit hids in
theorem getD_markHead {mask : List Bool} {ix : ℕ} (hix : ix < mask.length) (head : String) :
    ((markHead ids mask head)[ix]?).getD false =
      ((mask[ix]?).getD false || decide (ids head = some ix)) := by
  rw [markHead.eq_def]
  cases ids head with
  | none =>
    rw [decide_eq_false (Option.some_ne_none ix).symm, Bool.or_false]
  | some found =>
    dsimp only
    rw [List.getElem?_set]
    by_cases hsame : found = ix
    · rw [if_pos hsame, if_pos (hsame ▸ hix), hsame, decide_eq_true rfl, Bool.or_true]
      rfl
    · rw [if_neg hsame, decide_eq_false fun hfound => hsame (Option.some.inj hfound), Bool.or_false]

omit hids in
theorem getD_mask (branchHeads : List String) {mask : List Bool} {ix : ℕ}
    (hix : ix < mask.length) :
    ((branchHeads.foldl (markHead ids) mask)[ix]?).getD false =
      ((mask[ix]?).getD false || branchHeads.any fun head => ids head = some ix) := by
  induction branchHeads generalizing mask with
  | nil => rw [List.foldl_nil, List.any_nil, Bool.or_false]
  | cons head branchHeads ih =>
    rw [List.foldl_cons, List.any_cons, ih (hix.trans_eq (length_markHead mask head).symm),
      getD_markHead hix, Bool.or_assoc]

variable {branchHeads : List String}

theorem headMask_getD (hlookup : ∀ head ∈ branchHeads, ids head = position commits head) (ix : ℕ) :
    ((branchHeadMask ids commits.length branchHeads)[ix]?).getD false =
      isHeadAt commits branchHeads ix := by
  rw [branchHeadMask.eq_def, isHeadAt]
  rcases Nat.lt_or_ge ix commits.length with hlt | hge
  · have hcommit := List.getElem?_eq_getElem hlt
    have hheads : (branchHeads.any fun head => ids head = some ix) =
        decide (commits[ix].id ∈ branchHeads) := by
      rw [Bool.eq_iff_iff, List.any_eq_true, decide_eq_true_iff]
      constructor
      · rintro ⟨head, hmem, hfound⟩
        rw [decide_eq_true_iff, hlookup head hmem, position_eq_some hids, hcommit] at hfound
        obtain ⟨commit, hsome, rfl⟩ := hfound
        rwa [Option.some.inj hsome]
      · intro hmem
        refine ⟨_, hmem, decide_eq_true ?_⟩
        rw [hlookup _ hmem, position_eq_some hids]
        exact ⟨_, hcommit, rfl⟩
    rw [hcommit, Option.any_some, ← hheads]
    split_ifs with hempty
    · rw [List.isEmpty_iff.mp hempty]
      rfl
    · rw [getD_mask branchHeads (by rwa [List.length_replicate]), List.getElem?_replicate]
      split_ifs
      exact Bool.false_or _
  · rw [List.getElem?_eq_none hge]
    split_ifs
    · rfl
    · rw [List.getElem?_eq_none]
      · rfl
      · rwa [length_mask, List.length_replicate]

theorem computeRows_eq {mask : List Bool}
    (hlookup : ∀ id ∈ requiredByParents commits, ids id = position commits id)
    (hmask : ∀ ix, (mask[ix]?).getD false = isHeadAt commits branchHeads ix)
    (hbelow : ParentsBelow commits) (w : GraphWalk) {rest : List Commit}
    (hrest : commits.drop ix = rest) :
    computeRows commits ids mask w ix rest =
      w.run (fun _ => false) ix ((rest.zipIdx ix).map fun commit =>
        ⟨parentIxs commits commit.1, isMergeAt commits commit.2,
          isHeadAt commits branchHeads commit.2⟩) := by
  induction rest generalizing ix w with
  | nil => rfl
  | cons commit rest ih =>
    have hcommit : commits[ix]? = some commit := by
      rw [← List.head?_drop, hrest]
      rfl
    have hnext : commits.drop (ix + 1) = rest := by
      rw [← List.tail_drop, hrest]
      rfl
    have hmerge : isMergeAt commits ix = decide (1 < commit.parentIds.length) := by
      rw [isMergeAt, hcommit]
      rfl
    rw [computeRows, List.zipIdx_cons, List.map_cons, GraphWalk.run, hmask,
      resolveParentIxs_eq hids hcommit hlookup (hbelow ix commit hcommit), hmerge]
    dsimp only
    rw [ih _ hnext]
    rfl

end

end GitComet.Graph
