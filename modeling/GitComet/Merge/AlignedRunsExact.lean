import GitComet.Merge.AlignedRuns

namespace GitComet.Merge
open Slice Text Numbering List Option Nat

def AlignedRun.expand (side : RunSide) (run : AlignedRun) : List (Option ℕ) :=
  topFilled (run.range side).start (run.range side).len run.visualRows

def Contiguous : List LineRange → ℕ → ℕ → Prop
  | [], start, stop => start = stop
  | range :: ranges, start, stop =>
    range.start = start ∧ range.start ≤ range.stop ∧ Contiguous ranges range.stop stop

def AlignedRow.runCell (threeWay : Bool) (side : RunSide) (row : AlignedRow) : Option ℕ :=
  match threeWay, side with
  | true, .base => row.a
  | true, .ours => row.b
  | true, .theirs => row.c
  | false, .base => none
  | false, .ours => row.a
  | false, .theirs => row.b

def MergePlan.sideLines (plan : MergePlan) : RunSide → List Line
  | .base => plan.base.elim [] splitLines
  | .ours => splitLines plan.ours
  | .theirs => splitLines plan.theirs

structure RunsReproduce (plan : MergePlan) (runs : List AlignedRun) : Prop where
  partition : ∀ side, Contiguous (runs.map (·.range side)) 0 (plan.sideLines side).length
  rows : (runs.map AlignedRun.visualRows).sum = plan.rows.length
  cells : ∀ side, runs.flatMap (AlignedRun.expand side) =
    plan.rows.map (AlignedRow.runCell plan.hasBase side)

def LinesInOrder (plan : MergePlan) : Prop :=
  ∀ side, plan.rows.filterMap (AlignedRow.runCell plan.hasBase side) =
    List.range (plan.sideLines side).length

section
variable {runs : List AlignedRun} {groups : List (List RunEntry)}

variable {ranges : List LineRange}

theorem contiguous_append {ranges' : List LineRange} : ∀ {start mid stop : ℕ},
    Contiguous ranges start mid → Contiguous ranges' mid stop →
      Contiguous (ranges ++ ranges') start stop := by
  induction ranges with
  | nil =>
    rintro start mid stop rfl h
    exact h
  | cons range ranges ih => exact fun ⟨hstart, hle, hrest⟩ h => ⟨hstart, hle, ih hrest h⟩

theorem contiguous_stop : ∀ {start stop stop' : ℕ},
    Contiguous ranges start stop → Contiguous ranges start stop' → stop = stop' := by
  induction ranges with
  | nil => exact fun h h' => h.symm.trans h'
  | cons range ranges ih => exact fun h h' => ih h.2.2 h'.2.2

theorem contiguous_le : ∀ {start stop : ℕ}, Contiguous ranges start stop → start ≤ stop := by
  induction ranges with
  | nil => exact fun h => le_of_eq h
  | cons range ranges ih => exact fun ⟨hstart, hle, hrest⟩ => hstart ▸ hle.trans (ih hrest)

theorem grouped_contiguous (h : Grouped runs groups) (side : RunSide) :
    Contiguous (runs.map (·.range side)) 0 (present side groups.flatten) := by
  induction h with
  | nil => rfl
  | snoc hgrouped hrun ih =>
    rw [map_append, flatten_append, flatten_singleton, present_append]
    refine contiguous_append ih ?_
    rw [map_singleton, hrun.range]
    exact ⟨rfl, le_add_right _ _, rfl⟩

theorem grouped_rows (h : Grouped runs groups) :
    (runs.map AlignedRun.visualRows).sum = groups.flatten.length := by
  induction h with
  | nil => rfl
  | snoc hgrouped hrun ih =>
    rw [map_append, List.sum_append, ih, flatten_append, flatten_singleton,
      length_append, map_singleton, sum_singleton, hrun.rows]

theorem expand_eq {pos : RunSide → ℕ} {run : AlignedRun} {group : List RunEntry}
    (h : RunOf pos run group) (side : RunSide) :
    run.expand side = topFilled (pos side) (present side group) (taken side group).length := by
  rw [AlignedRun.expand, runOf_len h, h.range, h.rows, taken, length_map]

theorem grouped_expand_length (h : Grouped runs groups) (side : RunSide) :
    (runs.flatMap (AlignedRun.expand side)).length = (taken side groups.flatten).length := by
  induction h with
  | nil => rfl
  | snoc hgrouped hrun ih =>
    rw [flatMap_append, length_append, ih, flatMap_singleton, expand_eq hrun,
      topFilled_length, flatten_append, flatten_singleton, taken, taken, taken,
      map_append, length_append]

theorem grouped_expand (h : Grouped runs groups) (side : RunSide)
    (haligned : ∀ group ∈ groups, TopAligned (taken side group)) :
    runs.flatMap (AlignedRun.expand side) = numberFrom (taken side groups.flatten) 0 := by
  induction h with
  | nil => rfl
  | @snoc runs groups run group hgrouped hrun ih =>
    obtain ⟨hinit, hlast⟩ := forall_mem_snoc.mp haligned
    have hsplit : taken side (groups ++ [group]).flatten =
        taken side groups.flatten ++ taken side group := by simp [taken]
    rw [flatMap_append, ih hinit, flatMap_singleton, expand_eq hrun, hsplit,
      numberFrom_append, zero_add]
    exact congrArg _ (numberFrom_topFilled.mpr hlast).symm

theorem grouped_taken (h : Grouped runs groups) (side : RunSide)
    (hshown : (runs.flatMap (AlignedRun.expand side)).map Option.isSome =
      taken side groups.flatten) : ∀ group ∈ groups, TopAligned (taken side group) := by
  induction h with
  | nil => simp
  | @snoc runs groups run group hgrouped hrun ih =>
    have hsplit : taken side (groups ++ [group]).flatten =
        taken side groups.flatten ++ taken side group := by simp [taken]
    rw [flatMap_append, map_append, flatMap_singleton, hsplit] at hshown
    obtain ⟨hinit, hlast⟩ := append_inj hshown (by
      rw [length_map, grouped_expand_length hgrouped])
    rw [forall_mem_snoc]
    refine ⟨ih hinit, ?_⟩
    rw [← hlast, expand_eq hrun]
    exact topFilled_aligned _ _ _

end

theorem presence_at (row : AlignedRow) (threeWay : Bool) (side : RunSide) :
    (row.presence threeWay).at side = (row.runCell threeWay side).isSome := by
  cases threeWay <;> cases side <;> rfl

theorem taken_runEntries (rows : List AlignedRow) (threeWay : Bool) (forced : List Bool)
    (side : RunSide) : taken side (runEntries rows threeWay forced) =
      (rows.map (AlignedRow.runCell threeWay side)).map Option.isSome := by
  rw [taken, runEntries, List.map_map, List.map_map]
  conv_rhs => rw [← zipIdx_map_fst 0 rows, List.map_map]
  exact map_congr_left fun entry _ => presence_at entry.1 threeWay side

variable {rows : List AlignedRow}

theorem runEntries_occupied {threeWay : Bool} (forced : List Bool)
    (hoccupied : ∀ row ∈ rows, ∃ side, (row.runCell threeWay side).isSome) :
    ∀ entry ∈ runEntries rows threeWay forced, ∃ side, entry.presence.at side := by
  intro entry hentry
  obtain ⟨⟨row, index⟩, hmem, rfl⟩ := List.mem_map.mp hentry
  obtain ⟨side, hside⟩ := hoccupied row (fst_mem_of_mem_zipIdx hmem)
  exact ⟨side, (presence_at row threeWay side).trans hside⟩

variable {plan : MergePlan}

variable {forced : List Bool}

theorem runs_reproduce_iff
    (hoccupied : ∀ row ∈ plan.rows, ∃ side, (row.runCell plan.hasBase side).isSome) :
    RunsReproduce plan (alignedRowsToRuns plan.rows plan.hasBase forced) ↔
      LinesInOrder plan ∧ ¬RowsResume (runEntries plan.rows plan.hasBase forced) := by
  obtain ⟨-, -, -, groups, hgrouped, hflat, haligned⟩ :=
    runRows_invariant (runEntries_occupied forced hoccupied)
  have htaken : ∀ side, taken side groups.flatten =
      (plan.rows.map (AlignedRow.runCell plan.hasBase side)).map Option.isSome := by
    intro side
    rw [hflat, taken_runEntries]
  rw [RowsResume, not_not, ← haligned]
  change RunsReproduce plan
    ((runEntries plan.rows plan.hasBase forced).foldl stepRow ⟨[], 0, 0, 0⟩).runs ↔ _
  generalize ((runEntries plan.rows plan.hasBase forced).foldl stepRow ⟨[], 0, 0, 0⟩).runs =
    runs at *
  have hcontiguous := grouped_contiguous hgrouped
  constructor
  · rintro ⟨hpartition, -, hcells⟩
    have hall : ∀ side, ∀ group ∈ groups, TopAligned (taken side group) := fun side =>
      grouped_taken hgrouped side (by rw [hcells, htaken])
    refine ⟨fun side => ?_, fun group hgroup side => hall side group hgroup⟩
    have hnumbered := grouped_expand hgrouped side (hall side)
    rw [hcells] at hnumbered
    have hlen := contiguous_stop (hcontiguous side) (hpartition side)
    have hid := filterMap_numberFrom (taken side groups.flatten) 0
    rw [← hnumbered, filterMap_map, Function.id_comp] at hid
    rw [hid, range_eq_range', ← hlen]
    rfl
  · rintro ⟨horder, hall⟩
    have hnumbered : ∀ side, plan.rows.map (AlignedRow.runCell plan.hasBase side) =
        numberFrom (taken side groups.flatten) 0 ∧
          present side groups.flatten = (plan.sideLines side).length := by
      intro side
      rw [present, htaken]
      refine numberFrom_of_filterMap ?_
      rw [filterMap_map, Function.id_comp, horder, range_eq_range']
    refine ⟨fun side => ?_, ?_, fun side => ?_⟩
    · rw [← (hnumbered side).2]
      exact hcontiguous side
    · rw [grouped_rows hgrouped, hflat, runEntries, length_map, length_zipIdx]
    · rw [grouped_expand hgrouped side fun group hgroup => hall group hgroup side,
        (hnumbered side).1]

def replacesAt (rows : List AlignedRow) (index : ℕ) (block : MergeBlock) : Bool :=
  decide (block.rows.start ≤ index) && decide (index < block.rows.stop) &&
    (block.originalConflict && containsReplacement (slice rows block.rows.start block.rows.stop))

def inReplacement (plan : MergePlan) (index : ℕ) : Bool :=
  plan.blocks.any (replacesAt plan.rows index)

structure PairsAfterGap (plan : MergePlan) (index : ℕ) (upper lower : AlignedRow) : Prop where
  upperRow : plan.rows[index]? = some upper
  lowerRow : plan.rows[index + 1]? = some lower
  single : upper.a.isSome ≠ upper.b.isSome
  pair : lower.a.isSome = true ∧ lower.b.isSome = true
  upperForced : inReplacement plan index = true
  lowerForced : inReplacement plan (index + 1) = true

def ResumesPairing (plan : MergePlan) : Prop :=
  plan.hasBase = false ∧ ∃ index upper lower, PairsAfterGap plan index upper lower

variable {flags : List Bool}

section

variable {range : LineRange}

theorem fillTrue_length (hle : range.start ≤ range.stop)
    (h : range.stop ≤ flags.length) : (fillTrue flags range).length = flags.length := by
  simp only [fillTrue, LineRange.len, length_append, length_take, length_replicate, length_drop]
  omega

theorem fillTrue_getElem? (hle : range.start ≤ range.stop)
    (h : range.stop ≤ flags.length) (index : ℕ) :
    ((fillTrue flags range)[index]?).getD false = ((flags[index]?).getD false ||
      (decide (range.start ≤ index) && decide (index < range.stop))) := by
  have htake : (flags.take range.start).length = range.start := by
    rw [length_take]
    omega
  by_cases hlow : index < range.start
  · rw [fillTrue, getElem?_append_left (by omega), getElem?_take_of_lt hlow]
    simp [hlow]
  by_cases hhigh : index < range.stop
  · rw [fillTrue, getElem?_append_right (by omega), htake, getElem?_append_left (by
      rw [length_replicate, LineRange.len]; omega), getElem?_replicate_of_lt (by
      rw [LineRange.len]; omega)]
    simp [hhigh, Nat.le_of_not_lt hlow]
  · rw [fillTrue, getElem?_append_right (by omega), htake, getElem?_append_right (by
      rw [length_replicate, LineRange.len]; omega), length_replicate, LineRange.len,
      getElem?_drop]
    have hindex : range.stop + (index - range.start - (range.stop - range.start)) = index := by
      omega
    rw [hindex]
    simp [hhigh]

theorem forceBlocks_spec {blocks : List MergeBlock}
    (h : ∀ block ∈ blocks, block.rows.start ≤ block.rows.stop ∧ block.rows.stop ≤ rows.length) :
    ∀ {flags : List Bool}, flags.length = rows.length →
      ∃ forced, forceBlocks rows blocks flags = some forced ∧
        ∀ index, (forced[index]?).getD false = ((flags[index]?).getD false ||
          blocks.any (replacesAt rows index)) := by
  induction blocks with
  | nil => exact fun {flags} _ => ⟨flags, rfl, by simp⟩
  | cons block blocks ih =>
    intro flags hlength
    obtain ⟨hle, hstop⟩ := h block mem_cons_self
    have htail : ∀ b ∈ blocks, b.rows.start ≤ b.rows.stop ∧ b.rows.stop ≤ rows.length :=
      fun b hb => h b (mem_cons_of_mem _ hb)
    simp only [forceBlocks, sliceOf_eq hle hstop, bind_eq_bind, bind_some]
    split
    · rename_i hforced
      have hfill : (fillTrue flags block.rows).length = flags.length :=
        fillTrue_length hle (hlength ▸ hstop)
      obtain ⟨forced, hrun, hflags⟩ := ih htail (hfill.trans hlength)
      refine ⟨forced, hrun, fun index => ?_⟩
      rw [hflags, fillTrue_getElem? hle (hlength ▸ hstop), any_cons, replacesAt, hforced,
        Bool.and_true, Bool.or_assoc]
    · rename_i hfree
      obtain ⟨forced, hrun, hflags⟩ := ih htail hlength
      refine ⟨forced, hrun, fun index => ?_⟩
      rw [hflags, any_cons, replacesAt, Bool.eq_false_iff.mpr hfree, Bool.and_false, Bool.false_or]

end

theorem forcedConflictRows_spec
    (htiles : Tiles (plan.blocks.map MergeBlock.rows) 0 plan.rows.length) :
    ∃ forced, forcedConflictRows plan = some forced ∧
      ∀ index, (forced[index]?).getD false = (!plan.hasBase && inReplacement plan index) := by
  unfold forcedConflictRows
  split
  · rename_i hbase
    exact ⟨[], rfl, fun index => by simp [hbase]⟩
  · rename_i hbase
    have hbounds : ∀ block ∈ plan.blocks, block.rows.start ≤ block.rows.stop ∧
        block.rows.stop ≤ plan.rows.length := by
      intro block hblock
      obtain ⟨-, hlt, hle⟩ := tiles_mem htiles block.rows (mem_map_of_mem hblock)
      exact ⟨le_of_lt hlt, hle⟩
    obtain ⟨forced, hrun, hflags⟩ := forceBlocks_spec hbounds
      (length_replicate (n := plan.rows.length) (a := false))
    refine ⟨forced, hrun, fun index => ?_⟩
    have hnone : ((replicate plan.rows.length false)[index]?).getD false = false := by
      rw [getElem?_replicate]
      split <;> rfl
    rw [hflags, hnone, Bool.false_or, Bool.eq_false_iff.mpr hbase]
    rfl

theorem rowsResume_iff {entries : List RunEntry} : RowsResume entries ↔
    ∃ index upper lower, entries[index]? = some upper ∧ entries[index + 1]? = some lower ∧
      Resumes upper lower := by
  rw [RowsResume, isChain_iff_getElem]
  constructor
  · intro h
    simp only [not_forall, not_not] at h
    obtain ⟨index, hlt, hresumes⟩ := h
    exact ⟨index, _, _, getElem?_eq_getElem (by omega), getElem?_eq_getElem hlt, hresumes⟩
  · rintro ⟨index, upper, lower, hupper, hlower, hresumes⟩ hchain
    obtain ⟨hlt, rfl⟩ := List.getElem?_eq_some_iff.mp hlower
    obtain ⟨_, rfl⟩ := List.getElem?_eq_some_iff.mp hupper
    exact hchain index hlt hresumes

variable {row : AlignedRow}

theorem single_kind (h : row.a.isSome ≠ row.b.isSome) : alignedRowKind row false ≠ .conflict := by
  unfold alignedRowKind
  cases ha : row.a <;> cases hb : row.b <;> simp_all

theorem resumes_iff {upper lower : AlignedRow} {forced forced' : Bool} {i j : ℕ}
    (hupper : (flags[i]?).getD false = forced) (hlower : (flags[j]?).getD false = forced') :
    Resumes (runEntry false flags (upper, i)) (runEntry false flags (lower, j)) ↔
      upper.a.isSome ≠ upper.b.isSome ∧ (lower.a.isSome ∧ lower.b.isSome) ∧
        forced ∧ forced' := by
  have hpresence : ∀ (row : AlignedRow) n side, (runEntry false flags (row, n)).presence.at side =
      (row.runCell false side).isSome := fun row n side => presence_at row false side
  constructor
  · rintro ⟨hkind, hforced, ⟨s, hs, hs'⟩, ⟨t, ht, ht'⟩⟩
    simp only [hpresence] at hs hs' ht ht'
    have hpair : upper.a.isSome ≠ upper.b.isSome ∧
        (lower.a.isSome ∧ lower.b.isSome) := by
      cases s <;> cases t <;> simp_all [AlignedRow.runCell]
    have hforced' : forced' := hlower.symm.trans hforced
    refine ⟨hpair.1, hpair.2, ?_, hforced'⟩
    by_contra hfree
    rw [Bool.not_eq_true] at hfree
    simp only [runEntry, hupper, hlower, hfree, hforced', Bool.false_eq_true, if_false, if_true]
      at hkind
    exact single_kind hpair.1 hkind
  · rintro ⟨hsingle, ⟨ha, hb⟩, rfl, rfl⟩
    refine ⟨by simp only [runEntry, hupper, hlower, if_true], hlower, ?_, ?_⟩
    · cases hours : upper.a.isSome with
      | true => exact ⟨.ours, by rw [hpresence]; exact hours, by rw [hpresence]; exact ha⟩
      | false =>
        rw [hours] at hsingle
        refine ⟨.theirs, ?_, by rw [hpresence]; exact hb⟩
        rw [hpresence]
        exact (Bool.eq_not.mpr (Ne.symm hsingle)).trans rfl
    · cases hours : upper.a.isSome with
      | false => exact ⟨.ours, by rw [hpresence]; exact hours, by rw [hpresence]; exact ha⟩
      | true =>
        rw [hours] at hsingle
        refine ⟨.theirs, ?_, by rw [hpresence]; exact hb⟩
        rw [hpresence]
        exact (Bool.eq_not.mpr (Ne.symm hsingle)).trans rfl

theorem rowsResume_plan
    (hforced : ∀ index, (forced[index]?).getD false = (!plan.hasBase && inReplacement plan index)) :
    RowsResume (runEntries plan.rows plan.hasBase forced) ↔ ResumesPairing plan := by
  rw [rowsResume_iff, ResumesPairing]
  have hentry : ∀ index entry, (runEntries plan.rows plan.hasBase forced)[index]? = some entry ↔
      ∃ row, plan.rows[index]? = some row ∧ runEntry plan.hasBase forced (row, index) = entry := by
    intro index entry
    rw [runEntries, getElem?_map, getElem?_zipIdx, zero_add]
    cases plan.rows[index]? <;> simp
  simp only [hentry]
  cases hbase : plan.hasBase with
  | true =>
    refine iff_of_false ?_ (by simp)
    rintro ⟨index, _, _, -, ⟨lower, -, rfl⟩, hresumes⟩
    have hflag : (forced[index + 1]?).getD false := hresumes.forced
    rw [hforced, hbase] at hflag
    cases hflag
  | false =>
    simp only [hbase, Bool.not_false, Bool.true_and] at hforced
    rw [and_iff_right rfl]
    constructor
    · rintro ⟨index, _, _, ⟨upper, hupper, rfl⟩, ⟨lower, hlower, rfl⟩, hresumes⟩
      obtain ⟨hsingle, hpair, hu, hl⟩ := (resumes_iff (hforced _) (hforced _)).mp hresumes
      exact ⟨index, upper, lower, hupper, hlower, hsingle, hpair, hu, hl⟩
    · rintro ⟨index, upper, lower, h⟩
      exact ⟨index, _, _, ⟨upper, h.upperRow, rfl⟩, ⟨lower, h.lowerRow, rfl⟩,
        (resumes_iff (hforced _) (hforced _)).mpr
          ⟨h.single, h.pair, h.upperForced, h.lowerForced⟩⟩

theorem runCell_occupied (threeWay : Bool) (h : row.occupied)
    (hthird : threeWay = false → row.c = none) :
    ∃ side, (row.runCell threeWay side).isSome := by
  obtain ⟨source, line, hline⟩ := occupied_iff.mp h
  cases threeWay with
  | true =>
    cases source with
    | a => exact ⟨.base, isSome_iff_exists.mpr ⟨line, hline⟩⟩
    | b => exact ⟨.ours, isSome_iff_exists.mpr ⟨line, hline⟩⟩
    | c => exact ⟨.theirs, isSome_iff_exists.mpr ⟨line, hline⟩⟩
  | false =>
    cases source with
    | a => exact ⟨.ours, isSome_iff_exists.mpr ⟨line, hline⟩⟩
    | b => exact ⟨.theirs, isSome_iff_exists.mpr ⟨line, hline⟩⟩
    | c =>
      rw [AlignedRow.line, hthird rfl] at hline
      cases hline

variable {base : Option (List Char)} {ours theirs : List Char}

variable {options : MergeOptions} {alignments : ManualAlignmentList}

theorem built_occupied
    (h : buildMergePlanWithAlignments base ours theirs options alignments = some plan) :
    ∀ row ∈ plan.rows, ∃ side, (row.runCell plan.hasBase side).isSome := by
  obtain ⟨rows, hrows, h⟩ := bind_eq_some_iff.mp h
  obtain ⟨blocks, -, h⟩ := bind_eq_some_iff.mp h
  cases h
  intro row hrow
  refine runCell_occupied _ ((planRows_tidy hrows).occupied row hrow) fun hway => ?_
  obtain ⟨cs, rfl, -⟩ := planRows_twoInput hway hrows
  exact abBase_third _ cs row hrow

theorem built_reproduce_iff
    (hplan : buildMergePlanWithAlignments base ours theirs options alignments = some plan) :
    ∃ runs, alignedPlanToRuns plan = some runs ∧
      (RunsReproduce plan runs ↔ LinesInOrder plan ∧ ¬ResumesPairing plan) := by
  obtain ⟨forced, hrun, hforced⟩ := forcedConflictRows_spec (built_tiles hplan)
  refine ⟨_, by rw [alignedPlanToRuns, hrun]; rfl, ?_⟩
  rw [runs_reproduce_iff (built_occupied hplan), rowsResume_plan hforced]

theorem open_lines_in_order (h : OpenPlan base ours theirs plan) : LinesInOrder plan := by
  intro side
  have hcolumns := h.wellFormed.columns
  simp only [MergePlan.hasBase, MergePlan.sideLines, h.baseText, h.oursText, h.theirsText]
  cases base with
  | none =>
    cases side with
    | base => simp [AlignedRow.runCell]
    | ours => exact hcolumns .a
    | theirs => exact hcolumns .b
  | some base =>
    cases side with
    | base => exact hcolumns .a
    | ours => exact hcolumns .b
    | theirs => exact hcolumns .c

theorem plain_reproduce_iff (base : Option (List Char)) (ours theirs : List Char)
    (options : MergeOptions) : ∃ plan runs,
      buildMergePlanWithOptionalBase base ours theirs options = some plan ∧
      alignedPlanToRuns plan = some runs ∧ plan.base = base ∧
      (RunsReproduce plan runs ↔ ¬ResumesPairing plan) := by
  obtain ⟨plan, hplan, hopen⟩ := openPlan_exists base ours theirs options
  obtain ⟨runs, hruns, hiff⟩ := built_reproduce_iff hplan
  exact ⟨plan, runs, hplan, hruns, hopen.baseText, by
    rw [hiff, and_iff_right (open_lines_in_order hopen)]⟩

theorem two_way_reproduce_iff (ours theirs : List Char) (algorithm : DiffAlgorithm) :
    ∃ plan runs, buildMergePlanWithOptionalBase none ours theirs
        { MergeOptions.default with diffAlgorithm := algorithm } = some plan ∧
      alignTwoWay ours theirs algorithm = some runs ∧
      (RunsReproduce plan runs ↔ ¬ResumesPairing plan) := by
  obtain ⟨plan, runs, hplan, hruns, -, hiff⟩ := plain_reproduce_iff none ours theirs
    { MergeOptions.default with diffAlgorithm := algorithm }
  exact ⟨plan, runs, hplan, by rw [alignTwoWay, hplan, ← hruns]; rfl, hiff⟩

theorem three_way_reproduce (base ours theirs : List Char) (algorithm : DiffAlgorithm) :
    ∃ plan runs, buildMergePlanWithOptionalBase (some base) ours theirs
        { MergeOptions.default with diffAlgorithm := algorithm } = some plan ∧
      alignThreeWay base ours theirs algorithm = some runs ∧ RunsReproduce plan runs := by
  obtain ⟨plan, runs, hplan, hruns, hbase, hiff⟩ := plain_reproduce_iff (some base) ours theirs
    { MergeOptions.default with diffAlgorithm := algorithm }
  refine ⟨plan, runs, hplan, by rw [alignThreeWay, hplan, ← hruns]; rfl, hiff.mpr fun h => ?_⟩
  have hnone := h.1
  rw [MergePlan.hasBase, hbase] at hnone
  cases hnone

theorem aligned_runs_reproduce_the_plan {base : Option (List Char)} {ours theirs : List Char}
    {options : MergeOptions} {alignments : ManualAlignmentList} {plan : MergePlan}
    (hplan : buildMergePlanWithAlignments base ours theirs options alignments = some plan)
    (text : List Char) (algorithm : DiffAlgorithm) :
    (∃ runs, alignMergePlan plan = some runs ∧
      (RunsReproduce plan runs ↔ LinesInOrder plan ∧ ¬ResumesPairing plan)) ∧
    (∃ plan runs, buildMergePlanWithOptionalBase none ours theirs
        { MergeOptions.default with diffAlgorithm := algorithm } = some plan ∧
      alignTwoWay ours theirs algorithm = some runs ∧
      (RunsReproduce plan runs ↔ ¬ResumesPairing plan)) ∧
    ∃ plan runs, buildMergePlanWithOptionalBase (some text) ours theirs
        { MergeOptions.default with diffAlgorithm := algorithm } = some plan ∧
      alignThreeWay text ours theirs algorithm = some runs ∧ RunsReproduce plan runs :=
  ⟨built_reproduce_iff hplan, two_way_reproduce_iff ours theirs algorithm,
    three_way_reproduce text ours theirs algorithm⟩

theorem pinned_runs_reproduce_the_plan : ∃ plan,
    buildMergePlanWithAlignments none "p\nq\n".toList "x\nq\n".toList .default
        [.new .empty ⟨0, 1⟩ ⟨1, 2⟩] = some plan ∧ (∃ runs, alignMergePlan plan = some runs ∧
        (RunsReproduce plan runs ↔ LinesInOrder plan ∧ ¬ResumesPairing plan)) := by
  have hsome : (buildMergePlanWithAlignments none "p\nq\n".toList "x\nq\n".toList .default
      [.new .empty ⟨0, 1⟩ ⟨1, 2⟩]).isSome = true := by decide +kernel
  obtain ⟨plan, hplan⟩ := isSome_iff_exists.mp hsome
  exact ⟨plan, hplan, (aligned_runs_reproduce_the_plan hplan [] .myers).1⟩

theorem gap_before_a_pair_is_closed : ∃ plan runs,
    buildMergePlanWithOptionalBase none "p\nq\n w\n".toList "x\nw\n".toList
        { MergeOptions.default with diffAlgorithm := .myers } = some plan ∧
      alignTwoWay "p\nq\n w\n".toList "x\nw\n".toList .myers = some runs ∧
      plan.rows.map (AlignedRow.runCell plan.hasBase .theirs) = [some 0, none, some 1] ∧
      runs.flatMap (AlignedRun.expand .theirs) = [some 0, some 1, none] ∧
      ¬RunsReproduce plan runs := by
  have hcells : (buildMergePlanWithOptionalBase none "p\nq\n w\n".toList "x\nw\n".toList
      { MergeOptions.default with diffAlgorithm := .myers }).map (fun plan =>
        plan.rows.map (AlignedRow.runCell plan.hasBase .theirs)) =
      some [some 0, none, some 1] := by decide +kernel
  have hexpanded : (alignTwoWay "p\nq\n w\n".toList "x\nw\n".toList .myers).map
      (fun runs => runs.flatMap (AlignedRun.expand .theirs)) =
      some [some 0, some 1, none] := by decide +kernel
  obtain ⟨plan, hplan, hrows⟩ := map_eq_some_iff.mp hcells
  obtain ⟨runs, hruns, hshown⟩ := map_eq_some_iff.mp hexpanded
  refine ⟨plan, runs, hplan, hruns, hrows, hshown, fun h => ?_⟩
  have hsame := h.cells .theirs
  rw [hrows, hshown] at hsame
  revert hsame
  decide

end GitComet.Merge
