import GitComet.Merge.Plan

namespace GitComet.Merge
open LinkedArena Text Columns Option List Nat

def Sources.len (texts : Sources) (source : MergeSource) : ℕ := (texts.lines source).length

def CompleteRows (texts : Sources) (rows : List AlignedRow) : Prop :=
  ∀ s, CoversLine s rows 0 (texts.len s)

structure RowsOk (texts : Sources) (rows : List AlignedRow) : Prop where
  tidy : TidyRows texts rows
  complete : CompleteRows texts rows

variable {rows : List AlignedRow}

variable {s : MergeSource} {lo hi : ℕ}

theorem coversLine_recompute {t : Sources} :
    CoversLine s (rows.map (recomputeRowMetadata t)) lo hi ↔ CoversLine s rows lo hi :=
  covers_map fun row => line_recompute t row s

variable {list : RowList} {ids : List ℕ}

theorem covers_rowsAt :
    Covers (cellAt list s) ids lo hi ↔ CoversLine s (rowsAt list ids) lo hi := by
  have heq : (rowsAt list ids).filterMap (fun row => row.line s) =
      ids.filterMap (cellAt list s) := by
    rw [rowsAt, filterMap_filterMap]
    rfl
  exact ⟨fun h => ⟨h.le, heq.trans h.eq⟩, fun h => ⟨h.le, heq.symm.trans h.eq⟩⟩

theorem holds_intoRows (h : Holds list ids) : list.intoRows = some (rowsAt list ids) := by
  have hrep : Represents list none (rowsAt list ids) [] :=
    ⟨ids, [], by simpa using h, rfl, rfl, rfl⟩
  simpa using represents_intoRows hrep

variable {texts : Sources}

theorem map_computed (h : Computed texts rows) : rows.map (recomputeRowMetadata texts) = rows :=
  (map_congr_left h).trans (map_id rows)

section
variable {input : PlanInput}

variable (input) in
theorem chunks_spec (hordered : ∀ entry ∈ input.entries, entry.Ordered) (s t : MergeSource) :
    ∃ cs, input.chunks s t = some cs ∧
      Aligned SameWords (input.texts.lines s) (input.texts.lines t) cs :=
  diffChunksSegmented_aligned input.algorithm (input.texts.lines s) (input.texts.lines t) hordered
    input.threeWay s t

def abBase (texts : Sources) (cs : List PairChunk) : List AlignedRow :=
  (abRows cs 0 0).map (recomputeRowMetadata texts)

variable {cs : List PairChunk}

theorem twoInputList_spec (hcs : input.chunks .a .b = some cs) :
    ∃ list, twoInputList input = some list ∧ Represents list none (abBase input.texts cs) [] := by
  obtain ⟨list, hbuild, hrep⟩ := buildAb_spec cs (a := 0) (b := 0) represents_empty
  refine ⟨list.recomputeRows input.texts, ?_, by
    simpa [abBase] using represents_recompute input.texts hrep⟩
  simp only [twoInputList, hcs, hbuild, bind_eq_bind, bind_some]

theorem abBase_third (texts : Sources) (cs : List PairChunk) :
    ∀ row ∈ abBase texts cs, row.line .c = none := by
  obtain ⟨-, -, hc⟩ := covers_abRows cs 0 0
  intro row hrow
  obtain ⟨row, hmem, rfl⟩ := mem_map.mp hrow
  rw [line_recompute]
  exact hc row hmem

theorem covers_abBase (hcs : Aligned SameWords input.texts.a input.texts.b cs) :
    CoversLine .a (abBase input.texts cs) 0 input.texts.a.length ∧
      CoversLine .b (abBase input.texts cs) 0 input.texts.b.length ∧
      ∀ row ∈ abBase input.texts cs, row.line .c = none := by
  obtain ⟨ha, hb, -⟩ := covers_abRows cs 0 0
  rw [hcs.leftSpan, zero_add] at ha
  rw [hcs.rightSpan, zero_add] at hb
  exact ⟨coversLine_recompute.mpr ha, coversLine_recompute.mpr hb, abBase_third input.texts cs⟩

structure BaseAligned (input : PlanInput) (cs cs' : List PairChunk) (out : List AlignedRow) :
    Prop where
  zip : zipAc cs' 0 0 [] (abBase input.texts cs) = some out
  run : baseAlignedRows input = some (out.map (recomputeRowMetadata input.texts))
  complete : CompleteRows input.texts (out.map (recomputeRowMetadata input.texts))

variable {cs' : List PairChunk}

theorem baseAlignedRows_spec (hcs : input.chunks .a .b = some cs)
    (hcs' : input.chunks .a .c = some cs') (hab : Aligned SameWords input.texts.a input.texts.b cs)
    (hac : Aligned SameWords input.texts.a input.texts.c cs') :
    ∃ out, BaseAligned input cs cs' out := by
  obtain ⟨list, hlist, hrep⟩ := twoInputList_spec hcs
  obtain ⟨ha, hb, hc⟩ := covers_abBase hab
  have hinv : AcInvariant input.texts.a.length input.texts.b.length 0 0 []
      (abBase input.texts cs) :=
    ⟨⟨0, le_refl _, covers_nil _ 0, ha⟩, hb, covers_nil _ 0, hc⟩
  obtain ⟨out, hzip, hoa, hob, hoc⟩ := zipAc_spec cs' hinv (by rw [hac.leftSpan, zero_add])
  rw [hac.rightSpan, zero_add] at hoc
  obtain ⟨list', cursor, done, rest, hint, hrep', hout⟩ := integrateAc_refines cs'
    (represents_first hrep) hzip
  refine ⟨out, hzip, ?_, fun s => coversLine_recompute.mpr ?_⟩
  · have hrows := represents_intoRows (represents_recompute input.texts hrep')
    rw [← map_append, hout] at hrows
    simp only [baseAlignedRows, hlist, hcs', hint, bind_eq_bind, bind_some]
    exact hrows
  · cases s with
    | a => exact hoa
    | b => exact hob
    | c => exact hoc

theorem baselineList_spec {first : List AlignedRow} (hrows : baseAlignedRows input = some rows)
    (hfirst : trimRows input.texts input.barriers rows = some first)
    (hcomputed : Computed input.texts first) :
    ∃ list ids, baselineList input = some list ∧ Holds list ids ∧ rowsAt list ids = first := by
  obtain ⟨list, hfrom, hrep⟩ := fromRows_spec first represents_empty
  rw [nil_append] at hrep
  obtain ⟨l, r, hh, hcursor, hl, hr⟩ := represents_recompute input.texts hrep
  obtain rfl : r = [] := head?_eq_none_iff.mp hcursor.symm
  rw [append_nil] at hh
  refine ⟨_, l, ?_, hh, hl.trans (map_computed hcomputed)⟩
  simp only [baselineList, hrows, hfirst, hfrom, bind_eq_bind, bind_some]

theorem integrated_spec
    (h : Holds list ids) (hcs : Aligned SameWords input.texts.b input.texts.c cs)
    (hb : CoversLine .b (rowsAt list ids) 0 input.texts.b.length)
    (hc : CoversLine .c (rowsAt list ids) 0 input.texts.c.length) :
    ∃ list' rows, integrateBc input.texts cs list = some list' ∧
      (list'.recomputeRows input.texts).intoRows = some rows := by
  obtain ⟨list', ids', hint, hh⟩ := integrateBc_spec input.texts (u := cs) h
    (by rw [hcs.leftSpan]; exact covers_rowsAt.mpr hb)
    (by rw [hcs.rightSpan]; exact covers_rowsAt.mpr hc)
  exact ⟨list', _, hint, holds_intoRows (mapAlive_spec _ hh).holds⟩

theorem candidateRows_open (hordered : ∀ entry ∈ input.entries, entry.Ordered)
    (hopen : input.barriers.isEmpty) (h : Holds list ids)
    (hcomplete : CompleteRows input.texts (rowsAt list ids)) :
    ∃ candidate, candidateRows input list = some candidate ∧ TidyRows input.texts candidate := by
  obtain ⟨cs, hcs, haligned⟩ := chunks_spec input hordered .b .c
  obtain ⟨list', rows, hint, hrows⟩ := integrated_spec h haligned (hcomplete .b) (hcomplete .c)
  obtain ⟨candidate, htrim, htidy⟩ := trimRows_defined input.texts hopen rows
  refine ⟨candidate, ?_, htidy⟩
  simp only [candidateRows, hcs, hint, hrows, bind_eq_bind, bind_some]
  exact htrim

variable {candidate : List AlignedRow}

theorem complete_of_accept {baseline : List AlignedRow}
    (h : acceptCandidate input baseline candidate) :
    CompleteRows input.texts candidate := by
  simp only [acceptCandidate, contributorAlignmentPreservesBaseAnchors, Bool.and_eq_true,
    sourceIndicesAreCompleteAndOrdered, decide_eq_true_iff, range_eq_range'] at h
  intro s
  refine ⟨zero_le _, ?_⟩
  cases s with
  | a => exact h.1.1.1.1.1
  | b => exact h.1.1.1.1.2
  | c => exact h.1.1.1.2

theorem alignedRows_ok (h : Holds list ids) (hbaseline : RowsOk input.texts (rowsAt list ids))
    (hcandidate : candidateRows input list = some candidate)
    (htidy : TidyRows input.texts candidate) :
    ∃ rows, alignedRows input list = some rows ∧ RowsOk input.texts rows := by
  simp only [alignedRows, holds_intoRows h, hcandidate, bind_eq_bind, bind_some]
  refine ⟨_, rfl, ?_⟩
  split
  · rename_i haccept
    exact ⟨htidy, complete_of_accept haccept⟩
  · exact hbaseline

theorem occupied_abRows (cs : List PairChunk) : ∀ a b : ℕ,
    ∀ row ∈ abRows cs a b, row.occupied := by
  have hpair : ∀ count a b, ∀ row ∈ pairRun count a b, row.occupied := by
    intro count a b row hrow
    obtain ⟨i, -, rfl⟩ := mem_map.mp hrow
    rfl
  have hsingle : ∀ s count line, ∀ row ∈ singleRun s count line, row.occupied := by
    intro s count line row hrow
    obtain ⟨i, -, rfl⟩ := mem_map.mp hrow
    cases s <;> rfl
  induction cs with
  | nil => simp [abRows]
  | cons chunk cs ih =>
    intro a b row hrow
    simp only [abRows, chunkGroup, mem_append] at hrow
    rcases hrow with (hrow | (hrow | hrow) | hrow) | hrow
    · exact hpair _ _ _ row hrow
    · exact hpair _ _ _ row hrow
    · exact hsingle _ _ _ row hrow
    · exact hsingle _ _ _ row hrow
    · exact ih _ _ row hrow

theorem twoInput_tidy
    (hrep : Represents list none (abBase input.texts cs) []) (hrows : list.intoRows = some rows) :
    rows = abBase input.texts cs ∧ TidyRows input.texts rows := by
  rw [represents_intoRows hrep, append_nil] at hrows
  cases hrows
  refine ⟨rfl, ?_, ?_⟩
  · intro row hrow
    obtain ⟨row, -, rfl⟩ := mem_map.mp hrow
    exact recompute_idem _ _
  · intro row hrow
    obtain ⟨row, hmem, rfl⟩ := mem_map.mp hrow
    rw [occupied_recompute]
    exact occupied_abRows cs 0 0 row hmem

theorem twoInput_ok (hcs : Aligned SameWords input.texts.a input.texts.b cs)
    (hc : input.texts.c = []) (hrep : Represents list none (abBase input.texts cs) []) :
    ∃ rows, list.intoRows = some rows ∧ RowsOk input.texts rows := by
  obtain ⟨ha, hb, hnone⟩ := covers_abBase hcs
  have hrows := represents_intoRows hrep
  obtain ⟨heq, htidy⟩ := twoInput_tidy hrep hrows
  refine ⟨_, hrows, htidy, fun s => ?_⟩
  rw [heq]
  cases s with
  | a => exact ha
  | b => exact hb
  | c =>
    have hlen : input.texts.len .c = 0 := by rw [Sources.len, Sources.lines, hc]; rfl
    rw [hlen]
    exact covers_none hnone 0

theorem baselineList_tidy (h : baselineList input = some list) (hrows : list.intoRows = some rows) :
    TidyRows input.texts rows := by
  have hrun := h
  obtain ⟨base, hbase, h⟩ := bind_eq_some_iff.mp h
  obtain ⟨first, hfirst, -⟩ := bind_eq_some_iff.mp h
  have htidy := trimRows_tidy hfirst
  obtain ⟨list', ids, hlist, hh, hids⟩ := baselineList_spec hbase hfirst htidy.computed
  obtain rfl := some.inj (hlist.symm.trans hrun)
  rw [holds_intoRows hh, hids] at hrows
  exact some.inj hrows ▸ htidy

variable {align : Bool}

theorem planRows_twoInput (hway : input.threeWay = false) (h : planRows input align = some rows) :
    ∃ cs, rows = abBase input.texts cs ∧ TidyRows input.texts rows := by
  rw [planRows, hway] at h
  obtain ⟨list, hlist, hrows⟩ := bind_eq_some_iff.mp h
  have hrun := hlist
  obtain ⟨cs, hcs, -⟩ := bind_eq_some_iff.mp hlist
  obtain ⟨list', hlist', hrep⟩ := twoInputList_spec hcs
  obtain rfl := some.inj (hlist'.symm.trans hrun)
  exact ⟨cs, twoInput_tidy hrep hrows⟩

theorem planRows_tidy (h : planRows input align = some rows) : TidyRows input.texts rows := by
  cases hway : input.threeWay with
  | false =>
    obtain ⟨cs, -, htidy⟩ := planRows_twoInput hway h
    exact htidy
  | true =>
    rw [planRows, if_pos hway] at h
    obtain ⟨list, hlist, h⟩ := bind_eq_some_iff.mp h
    split at h
    · obtain ⟨baseline, hbaseline, h⟩ := bind_eq_some_iff.mp h
      obtain ⟨candidate, hcandidate, h⟩ := bind_eq_some_iff.mp h
      cases h
      split
      · obtain ⟨_, -, hcandidate⟩ := bind_eq_some_iff.mp hcandidate
        obtain ⟨_, -, hcandidate⟩ := bind_eq_some_iff.mp hcandidate
        obtain ⟨_, -, hcandidate⟩ := bind_eq_some_iff.mp hcandidate
        exact trimRows_tidy hcandidate
      · exact baselineList_tidy hlist hbaseline
    · exact baselineList_tidy hlist h

theorem firstTrim_open {out : List AlignedRow}
    (hopen : input.barriers.isEmpty) (h : BaseAligned input cs cs' out) :
    ∃ first, trimRows input.texts input.barriers
        (out.map (recomputeRowMetadata input.texts)) = some first ∧ RowsOk input.texts first := by
  obtain ⟨st, hrun, -, hcovers⟩ := trimRows_rule (t := input.texts) hopen
    (openRule_covers input.texts.len) fun s => covers_occupied (h.complete s)
  exact ⟨_, hrun, tidy_occupiedRows _ _, fun s => covers_occupied (hcovers s)⟩

theorem planRows_twoInput_ok (hordered : ∀ entry ∈ input.entries, entry.Ordered)
    (hway : input.threeWay = false) (hc : input.texts.c = []) (alignContributors : Bool) :
    ∃ rows, planRows input alignContributors = some rows ∧ RowsOk input.texts rows := by
  obtain ⟨cs, hcs, hab⟩ := chunks_spec input hordered .a .b
  obtain ⟨list, hlist, hrep⟩ := twoInputList_spec hcs
  simp only [planRows, hway, hlist, Bool.false_eq_true, if_false, bind_eq_bind, bind_some]
  exact twoInput_ok hab hc hrep

variable (input) in
theorem planRows_open (hordered : ∀ entry ∈ input.entries, entry.Ordered)
    (hopen : input.barriers.isEmpty) (hc : input.threeWay = false → input.texts.c = [])
    (alignContributors : Bool) :
    ∃ rows, planRows input alignContributors = some rows ∧ RowsOk input.texts rows := by
  cases hway : input.threeWay with
  | false => exact planRows_twoInput_ok hordered hway (hc hway) alignContributors
  | true =>
    obtain ⟨cs, hcs, hab⟩ := chunks_spec input hordered .a .b
    obtain ⟨cs', hcs', hac⟩ := chunks_spec input hordered .a .c
    obtain ⟨out, hbase⟩ := baseAlignedRows_spec hcs hcs' hab hac
    obtain ⟨first, hfirst, hok⟩ := firstTrim_open hopen hbase
    obtain ⟨list, ids, hlist, hh, hrows⟩ := baselineList_spec hbase.run hfirst hok.tidy.computed
    rw [← hrows] at hok
    simp only [planRows, hway, hlist, if_true, bind_eq_bind, bind_some]
    split
    · obtain ⟨candidate, hcandidate, htidy⟩ := candidateRows_open hordered hopen hh hok.complete
      exact alignedRows_ok hh hok hcandidate htidy
    · exact ⟨_, holds_intoRows hh, hok⟩

end

structure PlanWellFormed (texts : Sources) (plan : MergePlan) : Prop where
  columns : ∀ s, plan.rows.filterMap (fun row => row.line s) = range (texts.lines s).length
  occupied : ∀ row ∈ plan.rows, ∃ s line, row.line s = some line
  equal : ∀ row ∈ plan.rows, ∀ s t, s ≠ t → (row.equal s t = true ↔
    ∃ line, row.text texts s = some line ∧ row.text texts t = some line)
  whitespaceEqual : ∀ row ∈ plan.rows, ∀ s t, s ≠ t → (row.whitespaceEqual s t = true ↔
    ∃ x y, row.text texts s = some x ∧ row.text texts t = some y ∧
      normalizedWithoutWhitespace x = normalizedWithoutWhitespace y)
  tiles : Tiles (plan.blocks.map MergeBlock.rows) 0 plan.rows.length
  sorted : plan.unresolvedBlocks.Pairwise (· < ·)
  unresolved : ∀ index, index ∈ plan.unresolvedBlocks ↔
    ∃ block, plan.blocks[index]? = some block ∧ block.manualContent = none ∧
      block.selection.sources = []

theorem isResolved_false {block : MergeBlock} :
    block.isResolved = false ↔ block.manualContent = none ∧ block.selection.sources = [] := by
  simp [MergeBlock.isResolved, OrderedSelection.isEmpty]

theorem planWellFormed {plan : MergePlan} {threeWay : Bool} (hrows : RowsOk texts plan.rows)
    (hblocks : buildBlocks texts threeWay plan.rows = some plan.blocks)
    (hunresolved : plan.unresolvedBlocks = unresolvedBlocks plan.blocks) :
    PlanWellFormed texts plan := by
  obtain ⟨blocks, runs, hbuild, hflat, hruns, hof⟩ := buildBlocks_spec texts threeWay plan.rows
  obtain rfl := some.inj (hblocks.symm.trans hbuild)
  refine ⟨fun s => ?_, fun row hrow => ?_, ?_, ?_, ?_, ?_, fun index => ?_⟩
  · rw [(hrows.complete s).eq, range_eq_range']
    rfl
  · exact occupied_iff.mp (hrows.tidy.occupied row hrow)
  · intro row hrow s t hst
    rw [← hrows.tidy.computed row hrow, equal_recompute texts row hst, pairMetadata_equal,
      text_recompute, text_recompute]
  · intro row hrow s t hst
    rw [← hrows.tidy.computed row hrow, whitespaceEqual_recompute texts row hst,
      pairMetadata_whitespaceEqual, text_recompute, text_recompute]
  · have h := hof.tiles hruns
    rwa [hflat, zero_add] at h
  · rw [hunresolved]
    exact unresolvedBlocks_sorted _
  · rw [hunresolved, mem_unresolvedBlocks]
    simp only [isResolved_false]

variable {ours theirs : List Char}

theorem buildPlan_of_rows {b : Option (List Char)} {o : MergeOptions} {a : ManualAlignmentList}
    (hrows : planRows ⟨(planTexts b ours theirs).sources, b.isSome, o.diffAlgorithm,
      a⟩ (o.alignContributors && (planTexts b ours theirs).differ) = some rows) :
    ∃ plan, buildMergePlanWithAlignments b ours theirs o a = some plan ∧
      plan.base = b ∧ plan.ours = ours ∧ plan.theirs = theirs ∧ plan.rows = rows ∧
      buildBlocks (planTexts b ours theirs).sources b.isSome rows = some plan.blocks ∧
      plan.unresolvedBlocks = unresolvedBlocks plan.blocks ∧
      plan.lineEnding = detectLineEnding b ours theirs := by
  obtain ⟨blocks, -, hblocks, -⟩ := buildBlocks_spec (planTexts b ours theirs).sources b.isSome rows
  refine ⟨⟨b, ours, theirs, rows, blocks, unresolvedBlocks blocks,
    detectLineEnding b ours theirs⟩, ?_, rfl, rfl, rfl, rfl, hblocks, rfl, rfl⟩
  simp only [buildMergePlanWithAlignments, hrows, hblocks, bind_eq_bind, bind_some]

theorem planTexts_c {base : Option (List Char)}
    (h : base.isSome = false) : (planTexts base ours theirs).sources.c = [] := by
  cases base with
  | none => rfl
  | some _ => cases h

structure OpenPlan (base : Option (List Char)) (ours theirs : List Char) (plan : MergePlan) :
    Prop where
  baseText : plan.base = base
  oursText : plan.ours = ours
  theirsText : plan.theirs = theirs
  wellFormed : PlanWellFormed (planTexts base ours theirs).sources plan
  blocks : buildBlocks (planTexts base ours theirs).sources base.isSome plan.rows =
    some plan.blocks
  lineEnding : plan.lineEnding = detectLineEnding base ours theirs

theorem openPlan_exists (base : Option (List Char)) (ours theirs : List Char)
    (options : MergeOptions) :
    ∃ plan, buildMergePlanWithOptionalBase base ours theirs options = some plan ∧
      OpenPlan base ours theirs plan := by
  obtain ⟨rows, hrows, hok⟩ := planRows_open
    ⟨(planTexts base ours theirs).sources, base.isSome, options.diffAlgorithm, []⟩
    (by simp) rfl planTexts_c (options.alignContributors && (planTexts base ours theirs).differ)
  obtain ⟨plan, hplan, hbase, hours, htheirs, rfl, hblocks, hunresolved, hending⟩ :=
    buildPlan_of_rows hrows
  exact ⟨plan, hplan, hbase, hours, htheirs, planWellFormed hok hblocks hunresolved, hblocks,
    hending⟩

theorem merge_plan_complete (base : Option (List Char)) (ours theirs : List Char)
    (options : MergeOptions) :
    ∃ plan, buildMergePlanWithOptionalBase base ours theirs options = some plan ∧
      PlanWellFormed (planTexts base ours theirs).sources plan := by
  obtain ⟨plan, hplan, hopen⟩ := openPlan_exists base ours theirs options
  exact ⟨plan, hplan, hopen.wellFormed⟩

end GitComet.Merge
