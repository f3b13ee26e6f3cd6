import Mathlib.Order.MinMax
import GitComet.Basis.Numbering
import GitComet.Merge.AncestorRange

namespace GitComet.Merge
open Slice Numbering

inductive AlignedRunKind where
  | unchanged
  | oursChanged
  | theirsChanged
  | bothSame
  | conflict
  deriving DecidableEq

inductive RunSide where
  | base
  | ours
  | theirs
  deriving DecidableEq

structure AlignedRun where
  base : LineRange
  ours : LineRange
  theirs : LineRange
  kind : AlignedRunKind
  deriving DecidableEq

def LineRange.len (range : LineRange) : ℕ := range.stop - range.start

def AlignedRun.range (run : AlignedRun) : RunSide → LineRange
  | .base => run.base
  | .ours => run.ours
  | .theirs => run.theirs

def AlignedRun.visualRows (run : AlignedRun) : ℕ :=
  max (max run.base.len run.ours.len) run.theirs.len

def alignedRowKind (row : AlignedRow) (threeWay : Bool) : AlignedRunKind :=
  if !threeWay then
    match row.a, row.b with
    | some _, some _ => if row.equalAb then .unchanged else .conflict
    | some _, none => .oursChanged
    | none, some _ => .theirsChanged
    | none, none => .unchanged
  else
    match row.a, row.b, row.c with
    | some _, some _, some _ =>
      if row.equalAb && row.equalAc then .unchanged
      else if row.equalAb then .theirsChanged
      else if row.equalAc then .oursChanged
      else if row.equalBc then .bothSame
      else .conflict
    | some _, some _, none => if row.equalAb then .theirsChanged else .conflict
    | some _, none, some _ => if row.equalAc then .oursChanged else .conflict
    | none, some _, some _ => if row.equalBc then .bothSame else .conflict
    | none, some _, none => .oursChanged
    | none, none, some _ => .theirsChanged
    | some _, none, none => .bothSame
    | none, none, none => .conflict

structure Presence where
  base : Bool
  ours : Bool
  theirs : Bool
  deriving DecidableEq

def Presence.at (presence : Presence) : RunSide → Bool
  | .base => presence.base
  | .ours => presence.ours
  | .theirs => presence.theirs

def AlignedRow.presence (row : AlignedRow) (threeWay : Bool) : Presence :=
  if threeWay then ⟨row.a.isSome, row.b.isSome, row.c.isSome⟩
  else ⟨false, row.a.isSome, row.b.isSome⟩

structure RunEntry where
  presence : Presence
  kind : AlignedRunKind
  forced : Bool

def runEntry (threeWay : Bool) (forcedConflict : List Bool) (row : AlignedRow × ℕ) : RunEntry :=
  let forced := (forcedConflict[row.2]?).getD false
  { presence := row.1.presence threeWay
    kind := if forced then .conflict else alignedRowKind row.1 threeWay
    forced := forced }

structure RunState where
  runs : List AlignedRun
  a : ℕ
  b : ℕ
  c : ℕ

def nextRun (st : RunState) (entry : RunEntry) : AlignedRun :=
  { base := ⟨st.a, st.a + entry.presence.base.toNat⟩
    ours := ⟨st.b, st.b + entry.presence.ours.toNat⟩
    theirs := ⟨st.c, st.c + entry.presence.theirs.toNat⟩
    kind := entry.kind }

def fullPresence (previous : AlignedRun) : Presence :=
  { base := decide (previous.base.len = previous.visualRows)
    ours := decide (previous.ours.len = previous.visualRows)
    theirs := decide (previous.theirs.len = previous.visualRows) }

def combinedRows (previous next : AlignedRun) : ℕ :=
  max (next.base.stop - previous.base.start)
    (max (next.ours.stop - previous.ours.start) (next.theirs.stop - previous.theirs.start))

def coalesces (previous next : AlignedRun) (entry : RunEntry) : Bool :=
  decide (previous.kind = next.kind) &&
    (decide (combinedRows previous next = previous.visualRows + 1) &&
      (decide (fullPresence previous = entry.presence) || entry.forced))

def AlignedRun.extend (previous next : AlignedRun) : AlignedRun :=
  { base := ⟨previous.base.start, next.base.stop⟩
    ours := ⟨previous.ours.start, next.ours.stop⟩
    theirs := ⟨previous.theirs.start, next.theirs.stop⟩
    kind := previous.kind }

def pushRun (runs : List AlignedRun) (next : AlignedRun) (entry : RunEntry) : List AlignedRun :=
  match runs.getLast? with
  | some previous =>
    if coalesces previous next entry then runs.dropLast ++ [previous.extend next]
    else runs ++ [next]
  | none => runs ++ [next]

def stepRow (st : RunState) (entry : RunEntry) : RunState :=
  let next := nextRun st entry
  ⟨pushRun st.runs next entry, next.base.stop, next.ours.stop, next.theirs.stop⟩

def runEntries (rows : List AlignedRow) (threeWay : Bool) (forcedConflict : List Bool) :
    List RunEntry :=
  rows.zipIdx.map (runEntry threeWay forcedConflict)

def alignedRowsToRuns (rows : List AlignedRow) (threeWay : Bool) (forcedConflict : List Bool) :
    List AlignedRun :=
  ((runEntries rows threeWay forcedConflict).foldl stepRow ⟨[], 0, 0, 0⟩).runs

def containsReplacement (rows : List AlignedRow) : Bool :=
  rows.any fun row => row.a.isSome && row.b.isSome && !row.equalAb

def fillTrue (flags : List Bool) (range : LineRange) : List Bool :=
  flags.take range.start ++ (List.replicate range.len true ++ flags.drop range.stop)

def forceBlocks (rows : List AlignedRow) : List MergeBlock → List Bool → Option (List Bool)
  | [], forcedConflict => some forcedConflict
  | block :: blocks, forcedConflict => do
    let own ← sliceOf rows block.rows.start block.rows.stop
    forceBlocks rows blocks
      (if block.originalConflict && containsReplacement own then fillTrue forcedConflict block.rows
      else forcedConflict)

def forcedConflictRows (plan : MergePlan) : Option (List Bool) :=
  if plan.hasBase then some []
  else forceBlocks plan.rows plan.blocks (List.replicate plan.rows.length false)

def alignedPlanToRuns (plan : MergePlan) : Option (List AlignedRun) := do
  let forced ← forcedConflictRows plan
  some (alignedRowsToRuns plan.rows plan.hasBase forced)

def alignMergePlan (plan : MergePlan) : Option (List AlignedRun) := alignedPlanToRuns plan

def alignThreeWay (base ours theirs : List Char) (algorithm : DiffAlgorithm) :
    Option (List AlignedRun) := do
  let plan ← buildMergePlanWithOptionalBase (some base) ours theirs
    { MergeOptions.default with diffAlgorithm := algorithm }
  alignedPlanToRuns plan

def alignTwoWay (ours theirs : List Char) (algorithm : DiffAlgorithm) :
    Option (List AlignedRun) := do
  let plan ← buildMergePlanWithOptionalBase none ours theirs
    { MergeOptions.default with diffAlgorithm := algorithm }
  alignedPlanToRuns plan

end GitComet.Merge

namespace GitComet.Merge
open Slice Numbering

def taken (side : RunSide) (entries : List RunEntry) : List Bool :=
  entries.map fun entry => entry.presence.at side

def present (side : RunSide) (entries : List RunEntry) : ℕ := (taken side entries).count true

theorem present_append (side : RunSide) (entries entries' : List RunEntry) :
    present side (entries ++ entries') = present side entries + present side entries' := by
  rw [present, taken, List.map_append, List.count_append]
  rfl

theorem present_le (side : RunSide) (entries : List RunEntry) :
    present side entries ≤ entries.length := by
  have := List.count_le_length (a := true) (l := taken side entries)
  rwa [taken, List.length_map] at this

theorem present_singleton (side : RunSide) (entry : RunEntry) :
    present side [entry] = (entry.presence.at side).toNat := by
  simp only [present, taken, List.map_cons, List.map_nil]
  cases entry.presence.at side <;> rfl

structure RunOf (pos : RunSide → ℕ) (run : AlignedRun) (group : List RunEntry) : Prop where
  range : ∀ side, run.range side = ⟨pos side, pos side + present side group⟩
  rows : run.visualRows = group.length
  kind : ∀ entry ∈ group, entry.kind = run.kind
  nonempty : group ≠ []

inductive Grouped : List AlignedRun → List (List RunEntry) → Prop where
  | nil : Grouped [] []
  | snoc {runs groups run group} : Grouped runs groups →
      RunOf (fun side => present side groups.flatten) run group →
      Grouped (runs ++ [run]) (groups ++ [group])

def GroupAligned (group : List RunEntry) : Prop := ∀ side, TopAligned (taken side group)

structure Resumes (upper lower : RunEntry) : Prop where
  kind : upper.kind = lower.kind
  forced : lower.forced = true
  shared : ∃ side, upper.presence.at side = true ∧ lower.presence.at side = true
  gap : ∃ side, upper.presence.at side = false ∧ lower.presence.at side = true

def RowsResume (entries : List RunEntry) : Prop :=
  ¬entries.IsChain fun upper lower => ¬Resumes upper lower

structure RunInvariant (entries : List RunEntry) (st : RunState) : Prop where
  a : st.a = present .base entries
  b : st.b = present .ours entries
  c : st.c = present .theirs entries
  grouped : ∃ groups, Grouped st.runs groups ∧ groups.flatten = entries ∧
    ((∀ group ∈ groups, GroupAligned group) ↔
      entries.IsChain fun upper lower => ¬Resumes upper lower)

theorem visualRows_iff {run : AlignedRun} {n : ℕ} :
    run.visualRows = n ↔ (∀ side, (run.range side).len ≤ n) ∧ ∃ side, (run.range side).len = n := by
  constructor
  · rintro rfl
    refine ⟨fun side => ?_, ?_⟩
    · cases side <;> simp [AlignedRun.visualRows, AlignedRun.range]
    · rw [AlignedRun.visualRows]
      rcases max_choice (max run.base.len run.ours.len) run.theirs.len with h | h
      · rcases max_choice run.base.len run.ours.len with h' | h'
        · exact ⟨.base, (h.trans h').symm⟩
        · exact ⟨.ours, (h.trans h').symm⟩
      · exact ⟨.theirs, h.symm⟩
  · rintro ⟨hle, side, hside⟩
    have hb := hle .base
    have ho := hle .ours
    have ht := hle .theirs
    simp only [AlignedRun.range] at hb ho ht
    refine Nat.le_antisymm (by simp [AlignedRun.visualRows, hb, ho, ht]) ?_
    rw [← hside]
    cases side <;> simp [AlignedRun.visualRows, AlignedRun.range]

theorem fullPresence_at (run : AlignedRun) (side : RunSide) :
    (fullPresence run).at side = decide ((run.range side).len = run.visualRows) := by
  cases side <;> rfl

theorem presence_ext {presence presence' : Presence}
    (h : ∀ side, presence.at side = presence'.at side) : presence = presence' := by
  obtain ⟨b, o, t⟩ := presence
  have hb := h .base
  have ho := h .ours
  have ht := h .theirs
  simp only [Presence.at] at hb ho ht
  rw [hb, ho, ht]

variable {pos : RunSide → ℕ}

theorem runOf_len {run : AlignedRun} {group : List RunEntry}
    (h : RunOf pos run group) (side : RunSide) : (run.range side).len = present side group := by
  rw [h.range, LineRange.len]
  exact Nat.add_sub_cancel_left _ _

section
variable {st : RunState} {entries : List RunEntry} {entry : RunEntry}

variable (entry) in
theorem nextRun_range (h : RunInvariant entries st) (side : RunSide) :
    (nextRun st entry).range side =
      ⟨present side entries, present side entries + (entry.presence.at side).toNat⟩ := by
  cases side
  · rw [← h.a]; rfl
  · rw [← h.b]; rfl
  · rw [← h.c]; rfl

variable {previous next : AlignedRun}

theorem combinedRows_iff {n : ℕ} :
    combinedRows previous next = n ↔
      (∀ side, (next.range side).stop - (previous.range side).start ≤ n) ∧
        ∃ side, (next.range side).stop - (previous.range side).start = n := by
  have h := @visualRows_iff
    { base := ⟨previous.base.start, next.base.stop⟩
      ours := ⟨previous.ours.start, next.ours.stop⟩
      theirs := ⟨previous.theirs.start, next.theirs.stop⟩
      kind := previous.kind } n
  rw [AlignedRun.visualRows, max_assoc] at h
  refine h.trans (and_congr ?_ ?_)
  · exact forall_congr' fun side => by cases side <;> rfl
  · exact exists_congr fun side => by cases side <;> rfl

-- The row joins the last run: it is of its kind, makes it one row longer, and is either present
-- where the run is full or forced.
structure Joins (kind : AlignedRunKind) (group : List RunEntry) (entry : RunEntry) : Prop where
  kind : kind = entry.kind
  longer : ∃ side, present side group = group.length ∧ entry.presence.at side = true
  fits : (∀ side, entry.presence.at side = decide (present side group = group.length)) ∨
    entry.forced = true

theorem coalesces_iff {group : List RunEntry} (hrun : RunOf pos previous group)
    (hnext : ∀ side, next.range side = ⟨pos side + present side group,
      pos side + present side group + (entry.presence.at side).toNat⟩)
    (hkind : next.kind = entry.kind) :
    coalesces previous next entry ↔ Joins previous.kind group entry := by
  have hspan : ∀ side, (next.range side).stop - (previous.range side).start =
      present side group + (entry.presence.at side).toNat := by
    intro side
    rw [hnext, hrun.range]
    simp only
    omega
  have hcombined : combinedRows previous next = previous.visualRows + 1 ↔
      ∃ side, present side group = group.length ∧ entry.presence.at side := by
    rw [combinedRows_iff, hrun.rows]
    simp only [hspan]
    have hone : ∀ side, (entry.presence.at side).toNat ≤ 1 := fun side => Bool.toNat_le _
    constructor
    · rintro ⟨-, side, hside⟩
      have := hone side
      have := present_le side group
      exact ⟨side, by omega, Bool.toNat_eq_one.mp (by omega)⟩
    · rintro ⟨side, hfull, hpresent⟩
      refine ⟨fun other => Nat.add_le_add (present_le other group) (hone other), side, ?_⟩
      rw [hfull, hpresent]
      rfl
  have hpresence : fullPresence previous = entry.presence ↔
      ∀ side, entry.presence.at side = decide (present side group = group.length) := by
    constructor
    · intro h side
      rw [← h, fullPresence_at, runOf_len hrun, hrun.rows]
    · intro h
      exact presence_ext fun side => by rw [h, fullPresence_at, runOf_len hrun, hrun.rows]
  simp only [coalesces, Bool.and_eq_true, Bool.or_eq_true, decide_eq_true_eq, hcombined, hpresence,
    hkind]
  exact ⟨fun h => ⟨h.1, h.2.1, h.2.2⟩, fun h => ⟨h.kind, h.longer, h.fits⟩⟩

theorem runOf_extend {group : List RunEntry} (hrun : RunOf pos previous group)
    (hnext : ∀ side, next.range side = ⟨pos side + present side group,
      pos side + present side group + (entry.presence.at side).toNat⟩)
    (h : Joins previous.kind group entry) :
    RunOf pos (previous.extend next) (group ++ [entry]) := by
  have hrange : ∀ side, (previous.extend next).range side =
      ⟨pos side, pos side + present side (group ++ [entry])⟩ := by
    intro side
    have hown : (previous.extend next).range side =
        ⟨(previous.range side).start, (next.range side).stop⟩ := by cases side <;> rfl
    rw [hown, hrun.range, hnext, present_append, present_singleton, Nat.add_assoc]
  refine ⟨hrange, ?_, ?_, by simp⟩
  · rw [visualRows_iff]
    simp only [hrange, LineRange.len, Nat.add_sub_cancel_left]
    obtain ⟨side, hfull, hpresent⟩ := h.longer
    refine ⟨fun other => present_le other _, side, ?_⟩
    rw [present_append, present_singleton, hfull, hpresent, List.length_append]
    rfl
  · intro e he
    rcases List.mem_append.mp he with he | he
    · exact hrun.kind e he
    · rw [List.mem_singleton.mp he]
      exact h.kind.symm

theorem runOf_next
    (hnext : ∀ side, next.range side = ⟨pos side, pos side + (entry.presence.at side).toNat⟩)
    (hkind : next.kind = entry.kind) (hoccupied : ∃ side, entry.presence.at side) :
    RunOf pos next [entry] := by
  refine ⟨fun side => by rw [hnext, present_singleton], ?_, ?_, by simp⟩
  · rw [visualRows_iff]
    simp only [hnext, LineRange.len, Nat.add_sub_cancel_left]
    obtain ⟨side, hside⟩ := hoccupied
    exact ⟨fun side => Bool.toNat_le _, side, by rw [hside]; rfl⟩
  · intro e he
    rw [List.mem_singleton.mp he, hkind]

theorem taken_snoc (side : RunSide) (entries : List RunEntry) (entry : RunEntry) :
    taken side (entries ++ [entry]) = taken side entries ++ [entry.presence.at side] := by
  simp [taken]

theorem groupAligned_snoc {group : List RunEntry} :
    GroupAligned (group ++ [entry]) ↔ GroupAligned group ∧
      ∀ side, entry.presence.at side → present side group = group.length := by
  have hlen : ∀ side, (taken side group).length = group.length := fun side => by simp [taken]
  simp only [GroupAligned, taken_snoc, topAligned_snoc, present, hlen]
  exact forall_and

section
variable {group : List RunEntry} {upper : RunEntry} (haligned : GroupAligned group)
  (hlast : group.getLast? = some upper)
include haligned hlast

theorem full_iff_last (side : RunSide) :
    present side group = group.length ↔ upper.presence.at side := by
  have hplace : (taken side group).getLast? = some (upper.presence.at side) := by
    rw [taken, List.getLast?_map, hlast]
    rfl
  have hlen : (taken side group).length = group.length := by simp [taken]
  rw [present, ← hlen]
  exact full_of_last (haligned side) hplace

theorem joins_of_resumes (h : Resumes upper entry) : Joins upper.kind group entry := by
  obtain ⟨side, hupper, hlower⟩ := h.shared
  exact ⟨h.kind, ⟨side, (full_iff_last haligned hlast side).mpr hupper, hlower⟩, Or.inr h.forced⟩

theorem aligned_join_iff (h : Joins upper.kind group entry) :
    GroupAligned (group ++ [entry]) ↔ ¬Resumes upper entry := by
  rw [groupAligned_snoc]
  constructor
  · rintro ⟨-, hfull⟩ hresumes
    obtain ⟨side, hupper, hlower⟩ := hresumes.gap
    rw [(full_iff_last haligned hlast side).mp (hfull side hlower)] at hupper
    cases hupper
  · refine fun hno => ⟨haligned, fun side hside => ?_⟩
    rcases h.fits with hfits | hforced
    · rw [hfits] at hside
      exact of_decide_eq_true hside
    · by_contra hpart
      rw [full_iff_last haligned hlast, Bool.not_eq_true] at hpart
      obtain ⟨shared, hfull, hlower⟩ := h.longer
      exact hno ⟨h.kind, hforced, ⟨shared, (full_iff_last haligned hlast shared).mp hfull, hlower⟩,
        ⟨side, hpart, hside⟩⟩

end

theorem groupAligned_singleton (entry : RunEntry) : GroupAligned [entry] :=
  fun _ => List.pairwise_singleton _ _

theorem forall_mem_snoc {α : Type*} {P : α → Prop} {xs : List α} {x : α} :
    (∀ y ∈ xs ++ [x], P y) ↔ (∀ y ∈ xs, P y) ∧ P x := by
  simp [or_imp, forall_and]

theorem pushRun_grouped {runs : List AlignedRun} {groups : List (List RunEntry)}
    (h : Grouped runs groups) (hnext : ∀ side, next.range side = ⟨present side groups.flatten,
      present side groups.flatten + (entry.presence.at side).toNat⟩)
    (hkind : next.kind = entry.kind) (hoccupied : ∃ side, entry.presence.at side) :
    ∃ groups', Grouped (pushRun runs next entry) groups' ∧
      groups'.flatten = groups.flatten ++ [entry] ∧
      ((∀ group ∈ groups', GroupAligned group) ↔ (∀ group ∈ groups, GroupAligned group) ∧
        ∀ upper ∈ groups.flatten.getLast?, ¬Resumes upper entry) := by
  have hfresh : Grouped (runs ++ [next]) (groups ++ [[entry]]) :=
    .snoc h (runOf_next hnext hkind hoccupied)
  have hflat : (groups ++ [[entry]]).flatten = groups.flatten ++ [entry] := by simp
  cases h with
  | nil =>
    refine ⟨_, hfresh, hflat, ?_⟩
    simp [groupAligned_singleton]
  | @snoc runs groups run group hgrouped hrun =>
    obtain ⟨upper, hlast⟩ : ∃ upper, group.getLast? = some upper :=
      Option.isSome_iff_exists.mp (List.getLast?_isSome.mpr hrun.nonempty)
    have hupper : upper.kind = run.kind := hrun.kind upper (List.mem_of_getLast? hlast)
    have hend : (groups ++ [group]).flatten.getLast? = some upper := by
      rw [List.flatten_append, List.flatten_singleton, List.getLast?_append, hlast]
      rfl
    have hspan : ∀ side, present side (groups ++ [group]).flatten =
        present side groups.flatten + present side group := by
      intro side
      rw [List.flatten_append, List.flatten_singleton, present_append]
    simp only [hspan] at hnext
    have hjoins := coalesces_iff hrun hnext hkind
    rw [← hupper] at hjoins
    simp only [pushRun, List.getLast?_concat, List.dropLast_concat, hend, Option.mem_some_iff,
      forall_eq']
    by_cases hjoin : coalesces run next entry
    · rw [if_pos hjoin]
      have hextended := runOf_extend hrun hnext (hupper ▸ hjoins.mp hjoin)
      refine ⟨groups ++ [group ++ [entry]], .snoc hgrouped hextended, by simp, ?_⟩
      rw [forall_mem_snoc, forall_mem_snoc, and_assoc]
      refine and_congr_right fun _ => ⟨fun haligned => ?_, fun haligned => ?_⟩
      · have hown := (groupAligned_snoc.mp haligned).1
        exact ⟨hown, (aligned_join_iff hown hlast (hjoins.mp hjoin)).mp haligned⟩
      · exact (aligned_join_iff haligned.1 hlast (hjoins.mp hjoin)).mpr haligned.2
    · rw [if_neg hjoin]
      refine ⟨_, hfresh, hflat, ?_⟩
      rw [forall_mem_snoc, and_iff_left (groupAligned_singleton entry)]
      refine (and_iff_left_of_imp fun hall hresumes => hjoin (hjoins.mpr ?_)).symm
      exact joins_of_resumes (hall group (by simp)) hlast hresumes

theorem stepRow_invariant (h : RunInvariant entries st)
    (hoccupied : ∃ side, entry.presence.at side) :
    RunInvariant (entries ++ [entry]) (stepRow st entry) := by
  obtain ⟨groups, hgrouped, hflat, haligned⟩ := h.grouped
  have hnext := nextRun_range entry h
  obtain ⟨groups', hgrouped', hflat', haligned'⟩ := pushRun_grouped hgrouped
    (by rw [hflat]; exact hnext) rfl hoccupied
  have hadvance : ∀ side, ((nextRun st entry).range side).stop =
      present side (entries ++ [entry]) := by
    intro side
    rw [hnext, present_append, present_singleton]
  refine ⟨hadvance .base, hadvance .ours, hadvance .theirs, groups', hgrouped', ?_, ?_⟩
  · rw [hflat', hflat]
  · rw [haligned', haligned, hflat, List.isChain_append]
    simp

theorem runRows_invariant (hoccupied : ∀ entry ∈ entries, ∃ side, entry.presence.at side) :
    RunInvariant entries (entries.foldl stepRow ⟨[], 0, 0, 0⟩) := by
  induction entries using List.reverseRecOn with
  | nil => exact ⟨rfl, rfl, rfl, [], .nil, rfl, by simp⟩
  | append_singleton entries entry ih =>
    rw [List.foldl_append]
    exact stepRow_invariant (ih fun e he => hoccupied e (List.mem_append_left _ he))
      (hoccupied entry (by simp))

end

end GitComet.Merge
