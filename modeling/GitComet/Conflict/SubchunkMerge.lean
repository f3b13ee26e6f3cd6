import GitComet.Conflict.SubchunkTiles

namespace GitComet.Conflict
open Slice Text FileDiff List Option Nat

section

def PlainLine (line : Line) : Prop := '\n' ∉ line ∧ '\r' ∉ line

theorem splitLines_linesToText {lines : List Line} (h : ∀ line ∈ lines, PlainLine line) :
    splitLines (linesToText lines ['\n']) = lines := by
  have hfull : ∀ full ∈ lines.map (· ++ ['\n']), FullLine full := by
    intro full hfull
    obtain ⟨line, hline, rfl⟩ := List.mem_map.mp hfull
    exact ⟨line, rfl, (h line hline).1⟩
  rw [splitLines, linesToText, splitInclusive_lines hfull, List.map_map]
  exact (map_congr_left fun line hline => stripLineEnding_full (h line hline).2).trans
    (map_id _)

theorem linesToText_injective {lines lines' : List Line} (h : ∀ line ∈ lines, PlainLine line)
    (h' : ∀ line ∈ lines', PlainLine line)
    (heq : linesToText lines ['\n'] = linesToText lines' ['\n']) : lines = lines' := by
  rw [← splitLines_linesToText h, heq, splitLines_linesToText h']

theorem splitLines_plain {text : List Char} (h : '\r' ∉ text) :
    ∀ line ∈ splitLines text, PlainLine line := fun line hline =>
  ⟨splitLines_unbroken text line hline, fun hr => h (splitLines_subset hline hr)⟩

end

section
variable {base : List Line} {start stop : ℕ} {taken rest : List LineHunk}

structure MergeSide (base : List Line) (pos : ℕ) (hunks : List LineHunk) : Prop where
  side : SideHunks base pos hunks
  plain : ∀ line ∈ rebuild base pos hunks, PlainLine line

theorem MergeSide.later (h : MergeSide base start (taken ++ rest))
    (hregion : RegionHunks base start stop taken rest) : MergeSide base stop rest := by
  refine ⟨sideHunks_rest h.side hregion, fun line hline => h.plain line ?_⟩
  rw [rebuild_region hregion]
  exact mem_append_right _ hline

theorem MergeSide.regionLines (h : MergeSide base start (taken ++ rest))
    (hregion : RegionHunks base start stop taken rest) :
    ∀ line ∈ reconstructSide base start stop taken, PlainLine line := by
  intro line hline
  refine h.plain line ?_
  rw [rebuild_region hregion]
  exact mem_append_left _ hline

end

section
variable {base : List Line} {start : ℕ} {ours theirs : List LineHunk} {region : Region}

theorem RegionOf.oursHunks (h : RegionOf base.length start ours theirs region)
    (hclosed : RegionClosed region) (hours : MergeSide base start ours) :
    RegionHunks base start region.regionEnd region.oursTaken region.oursRest :=
  ⟨h.ours ▸ hours.side.sorted, h.oursWithin, hclosed.ours, h.start_le, h.stop_le⟩

theorem RegionOf.theirsHunks (h : RegionOf base.length start ours theirs region)
    (hclosed : RegionClosed region) (htheirs : MergeSide base start theirs) :
    RegionHunks base start region.regionEnd region.theirsTaken region.theirsRest :=
  ⟨h.theirs ▸ htheirs.side.sorted, h.theirsWithin, hclosed.theirs, h.start_le, h.stop_le⟩

def regionTile (base : List Line) (start : ℕ) (region : Region) : Tile where
  base := slice base start region.regionEnd
  ours := reconstructSide base start region.regionEnd region.oursTaken
  theirs := reconstructSide base start region.regionEnd region.theirsTaken

theorem involved_tiled (h : RegionOf base.length start ours theirs region)
    (hclosed : RegionClosed region) (hbase : ∀ line ∈ base, PlainLine line)
    (hours : MergeSide base start ours) (htheirs : MergeSide base start theirs)
    (hown : region.oursTaken ≠ []) (hother : region.theirsTaken ≠ []) :
    ∃ chunks, regionSubchunks base start region ['\n'] = some chunks ∧
      Tiled (regionTile base start region).base (regionTile base start region).ours
        (regionTile base start region).theirs chunks := by
  have hoursHunks := h.oursHunks hclosed hours
  have htheirsHunks := h.theirsHunks hclosed htheirs
  obtain ⟨hoursSplit, htheirsSplit⟩ := And.intro h.ours h.theirs
  rw [← hoursSplit] at hours
  rw [← htheirsSplit] at htheirs
  have hplainBase : ∀ line ∈ slice base start region.regionEnd, PlainLine line :=
    fun line hline => hbase line (mem_of_mem_drop (mem_of_mem_take hline))
  have hplainOurs := hours.regionLines hoursHunks
  have hplainTheirs := htheirs.regionLines htheirsHunks
  have hslice : sliceOf base start (min region.regionEnd base.length) =
      some (slice base start region.regionEnd) := by
    rw [min_eq_left h.stop_le, sliceOf_eq h.start_le h.stop_le]
  simp only [regionSubchunks, List.isEmpty_eq_false_iff.mpr hown,
    List.isEmpty_eq_false_iff.mpr hother, Bool.not_false, Bool.and_self, if_true, hslice,
    bind_eq_bind, bind_some, sideContent, splitLines_linesToText hplainBase,
    splitLines_linesToText hplainOurs, splitLines_linesToText hplainTheirs]
  split
  · rename_i hsame
    exact ⟨_, rfl, tiled_single (regionTile base start region)
      (.resolved (.agreed (linesToText_injective hplainOurs hplainTheirs hsame)))⟩
  · rename_i hdiffer
    split
    · rename_i hlengths
      exact ⟨_, rfl, perLineMerge_tiled hlengths.1 hlengths.2⟩
    · exact ⟨_, rfl, tiled_single (regionTile base start region)
        (.conflict (region_differs hours.side hoursHunks hown).symm
          (region_differs htheirs.side htheirsHunks hother).symm
          fun hsame => hdiffer (congrArg (linesToText · ['\n']) hsame))⟩

theorem region_tiled (h : RegionOf base.length start ours theirs region)
    (hclosed : RegionClosed region) (hbase : ∀ line ∈ base, PlainLine line)
    (hours : MergeSide base start ours) (htheirs : MergeSide base start theirs)
    (htaken : region.oursTaken ≠ [] ∨ region.theirsTaken ≠ []) :
    ∃ chunks, regionSubchunks base start region ['\n'] = some chunks ∧
      Tiled (regionTile base start region).base (regionTile base start region).ours
        (regionTile base start region).theirs chunks := by
  by_cases hown : region.oursTaken = []
  · have hother := htaken.resolve_left fun hne => hne hown
    refine ⟨[.resolved (linesToText (regionTile base start region).theirs ['\n'])], ?_, ?_⟩
    · simp [regionSubchunks, hown, hother, sideContent, regionTile]
    · refine tiled_single (regionTile base start region) (.resolved (.theirs ?_))
      rw [regionTile, hown]
      exact reconstructSide_nil h.start_le h.stop_le
  · by_cases hother : region.theirsTaken = []
    · refine ⟨[.resolved (linesToText (regionTile base start region).ours ['\n'])], ?_, ?_⟩
      · simp [regionSubchunks, hown, hother, sideContent, regionTile]
      · refine tiled_single (regionTile base start region) (.resolved (.ours ?_))
        rw [regionTile, hother]
        exact reconstructSide_nil h.start_le h.stop_le
    · exact involved_tiled h hclosed hbase hours htheirs hown hother

end

section
variable {base : List Line} {pos : ℕ} {ours theirs : List LineHunk}

variable {hunks : List LineHunk}

theorem hunkStart_bounds {len : ℕ} (h : Sorted len pos hunks) :
    hunks = [] ∧ hunkStart hunks = usizeMax ∨
      hunks ≠ [] ∧ pos ≤ hunkStart hunks ∧ hunkStart hunks ≤ len := by
  cases hunks with
  | nil => exact .inl ⟨rfl, rfl⟩
  | cons hunk hunks =>
    exact .inr ⟨cons_ne_nil _ _, h.1, le_trans h.2.1 (sorted_le h.2.2)⟩

variable {changeStart : ℕ}

theorem le_hunkStart
    (h : changeStart ≤ hunkStart hunks) : ∀ hunk ∈ hunks.head?, changeStart ≤ hunk.baseStart := by
  intro hunk hhunk
  rwa [hunkStart, mem_def.mp hhunk] at h

structure NextChange (len pos : ℕ) (ours theirs : List LineHunk) (changeStart : ℕ) : Prop where
  after : pos ≤ changeStart
  inside : changeStart ≤ len
  oursStart : changeStart ≤ hunkStart ours
  theirsStart : changeStart ≤ hunkStart theirs
  trigger : ours ≠ [] ∧ hunkStart ours = changeStart ∨ theirs ≠ [] ∧ hunkStart theirs = changeStart

theorem nextChange {len : ℕ} (hours : Sorted len pos ours) (htheirs : Sorted len pos theirs)
    (hlen : len < usizeMax) (h : ¬(hunkStart ours = usizeMax ∧ hunkStart theirs = usizeMax)) :
    NextChange len pos ours theirs (min (hunkStart ours) (hunkStart theirs)) := by
  rcases hunkStart_bounds hours with ⟨-, hown⟩ | ⟨hown, hownAfter, hownInside⟩
  · rcases hunkStart_bounds htheirs with ⟨-, hother⟩ | ⟨hother, hafter, hinside⟩
    · exact absurd ⟨hown, hother⟩ h
    · have hle : hunkStart theirs ≤ hunkStart ours := by omega
      rw [min_eq_right hle]
      exact ⟨hafter, hinside, hle, le_rfl, .inr ⟨hother, rfl⟩⟩
  · rcases le_total (hunkStart ours) (hunkStart theirs) with hle | hle
    · rw [min_eq_left hle]
      exact ⟨hownAfter, hownInside, le_rfl, hle, .inl ⟨hown, rfl⟩⟩
    · rcases hunkStart_bounds htheirs with ⟨-, hother⟩ | ⟨hother, hafter, hinside⟩
      · omega
      · rw [min_eq_right hle]
        exact ⟨hafter, hinside, hle, le_rfl, .inr ⟨hother, rfl⟩⟩

theorem contextEnd_eq (hle : pos ≤ changeStart)
    (hlen : changeStart ≤ base.length) : contextEnd base pos changeStart = changeStart := by
  unfold contextEnd
  split <;> omega

theorem consumeAt_left (regionEnd : ℕ) (hne : hunks ≠ []) (hstart : hunkStart hunks = changeStart) :
    (consumeAt changeStart hunks regionEnd).rest.length < hunks.length := by
  obtain ⟨hunk, hunks, rfl⟩ := exists_cons_of_ne_nil hne
  obtain rfl : hunk.baseStart = changeStart := hstart
  have hsum := (consumeAt_spec hunk.baseStart (hunk :: hunks) regionEnd).rest_le
  have htakes := length_pos_of_ne_nil (consumeAt_takes hunk hunks regionEnd)
  omega

theorem openRegion_spec (h : NextChange base.length pos ours theirs changeStart)
    (hours : ∀ hunk ∈ ours, hunk.baseEnd ≤ base.length)
    (htheirs : ∀ hunk ∈ theirs, hunk.baseEnd ≤ base.length) :
    RegionOf base.length changeStart ours theirs (openRegion changeStart changeStart ours theirs) ∧
      (openRegion changeStart changeStart ours theirs).left < ours.length + theirs.length := by
  have hfresh : RegionOf base.length changeStart ours theirs ⟨[], ours, [], theirs, changeStart⟩ :=
    ⟨rfl, rfl, by simp, by simp, le_rfl, h.inside⟩
  have hown := consumeAt_spec changeStart ours changeStart
  have hother := consumeAt_spec changeStart theirs
    (consumeAt changeStart ours changeStart).regionEnd
  refine ⟨extend_region hfresh hours htheirs hown hother, ?_⟩
  have hownLeft := hown.rest_le
  have hotherLeft := hother.rest_le
  simp only [openRegion, Region.left]
  rcases h.trigger with ⟨hne, hstart⟩ | ⟨hne, hstart⟩
  · have hless := consumeAt_left changeStart hne hstart
    omega
  · have hless := consumeAt_left (consumeAt changeStart ours changeStart).regionEnd hne hstart
    omega

structure RegionRound (base : List Line) (start : ℕ) (ours theirs : List LineHunk)
    (region : Region) (own : List Subchunk) : Prop where
  subchunks : regionSubchunks base start region ['\n'] = some own
  oursLater : MergeSide base region.regionEnd region.oursRest
  theirsLater : MergeSide base region.regionEnd region.theirsRest
  fewer : region.left < ours.length + theirs.length
  tiled : ∀ {rest : List Subchunk}, Tiled (base.drop region.regionEnd)
    (rebuild base region.regionEnd region.oursRest)
    (rebuild base region.regionEnd region.theirsRest) rest →
      Tiled (base.drop start) (rebuild base start ours) (rebuild base start theirs) (own ++ rest)

theorem region_round (h : NextChange base.length pos ours theirs changeStart)
    (hbase : ∀ line ∈ base, PlainLine line) (hours : MergeSide base changeStart ours)
    (htheirs : MergeSide base changeStart theirs) :
    ∃ region own, expandRegion (ours.length + theirs.length + 1)
        (openRegion changeStart changeStart ours theirs) = some region ∧
      RegionRound base changeStart ours theirs region own := by
  have hoursStops := sorted_stops hours.side.sorted
  have htheirsStops := sorted_stops htheirs.side.sorted
  obtain ⟨hopened, hopenedLeft⟩ := openRegion_spec h hoursStops htheirsStops
  obtain ⟨region, hregion, hof, hclosed, hleft⟩ := expandRegion_spec hoursStops htheirsStops
    (ours.length + theirs.length + 1) hopened (by omega)
  have hfewer : region.left < ours.length + theirs.length := by omega
  have htaken : region.oursTaken ≠ [] ∨ region.theirsTaken ≠ [] := by
    rw [← not_and_or]
    rintro ⟨hown, hother⟩
    have hownRest := hof.ours
    have hotherRest := hof.theirs
    rw [hown, nil_append] at hownRest
    rw [hother, nil_append] at hotherRest
    rw [Region.left, hownRest, hotherRest] at hfewer
    omega
  obtain ⟨own, hown, htiled⟩ := region_tiled hof hclosed hbase hours htheirs htaken
  have hoursHunks := hof.oursHunks hclosed hours
  have htheirsHunks := hof.theirsHunks hclosed htheirs
  rw [← hof.ours] at hours
  rw [← hof.theirs] at htheirs
  refine ⟨region, own, hregion, hown, hours.later hoursHunks, htheirs.later htheirsHunks, hfewer,
    fun {rest} hrest => ?_⟩
  have hdrop : base.drop changeStart =
      slice base changeStart region.regionEnd ++ base.drop region.regionEnd := by
    rw [← slice_to_end base region.regionEnd, slice_append _ hof.start_le hof.stop_le, slice_to_end]
  rw [hdrop, ← hof.ours, ← hof.theirs, rebuild_region hoursHunks, rebuild_region htheirsHunks]
  exact tiled_append htiled hrest

theorem context_side (h : MergeSide base pos hunks)
    (hle : pos ≤ changeStart) (hlen : changeStart ≤ base.length)
    (hstart : changeStart ≤ hunkStart hunks) : MergeSide base changeStart hunks ∧
      rebuild base pos hunks = slice base pos changeStart ++ rebuild base changeStart hunks := by
  have hregion : RegionHunks base pos changeStart [] hunks :=
    ⟨h.side.sorted, by simp, le_hunkStart hstart, hle, hlen⟩
  have hside : MergeSide base pos ([] ++ hunks) := h
  exact ⟨hside.later hregion, rebuild_before hregion.rest_sorted hle⟩

theorem contextSubchunks_tiled (hle : pos ≤ changeStart) (hlen : changeStart ≤ base.length) :
    ∃ chunks, contextSubchunks base pos changeStart ['\n'] = some chunks ∧
      Tiled (slice base pos changeStart) (slice base pos changeStart)
        (slice base pos changeStart) chunks := by
  unfold contextSubchunks
  split
  · rw [min_eq_left hlen, sliceOf_eq hle hlen]
    exact ⟨_, rfl, context_tiled _⟩
  · obtain rfl : pos = changeStart := by omega
    rw [slice_self]
    exact ⟨[], rfl, tiled_nil⟩

theorem mergeHunks_done (hours : MergeSide base pos ours) (htheirs : MergeSide base pos theirs)
    (hlen : base.length < usizeMax) (h : hunkStart ours = usizeMax ∧ hunkStart theirs = usizeMax) :
    ∃ chunks, (if pos < base.length then
        some [Subchunk.resolved (linesToText (base.drop pos) ['\n'])] else some []) = some chunks ∧
      Tiled (base.drop pos) (rebuild base pos ours) (rebuild base pos theirs) chunks := by
  have hnil : ∀ {hunks : List LineHunk}, MergeSide base pos hunks → hunkStart hunks = usizeMax →
      hunks = [] := by
    intro hunks hside hstart
    rcases hunkStart_bounds hside.side.sorted with ⟨hnil, -⟩ | ⟨-, -, hle⟩
    · exact hnil
    · omega
  obtain rfl := hnil hours h.1
  obtain rfl := hnil htheirs h.2
  split
  · exact ⟨_, rfl, context_tiled _⟩
  · rename_i hend
    refine ⟨[], rfl, ?_⟩
    rw [rebuild, drop_of_length_le (Nat.le_of_not_lt hend)]
    exact tiled_nil

theorem mergeHunks_tiled (hbase : ∀ line ∈ base, PlainLine line) (hlen : base.length < usizeMax) :
    ∀ (fuel : ℕ) {pos : ℕ} {ours theirs : List LineHunk}, MergeSide base pos ours →
      MergeSide base pos theirs → ours.length + theirs.length < fuel →
        ∃ chunks, mergeHunks base ['\n'] fuel pos ours theirs = some chunks ∧
          Tiled (base.drop pos) (rebuild base pos ours) (rebuild base pos theirs) chunks := by
  intro fuel
  induction fuel with
  | zero => exact fun _ _ hfuel => absurd hfuel (not_lt_zero _)
  | succ fuel ih =>
    intro pos ours theirs hours htheirs hfuel
    rw [mergeHunks]
    split
    · rename_i hdone
      exact mergeHunks_done hours htheirs hlen hdone
    · rename_i hmore
      have hnext := nextChange hours.side.sorted htheirs.side.sorted hlen hmore
      dsimp only
      generalize min (hunkStart ours) (hunkStart theirs) = changeStart at hnext ⊢
      obtain ⟨context, hcontext, hcontextTiled⟩ := contextSubchunks_tiled hnext.after hnext.inside
      obtain ⟨hours', hoursSplit⟩ := context_side hours hnext.after hnext.inside hnext.oursStart
      obtain ⟨htheirs', htheirsSplit⟩ :=
        context_side htheirs hnext.after hnext.inside hnext.theirsStart
      obtain ⟨region, own, hregion, hround⟩ := region_round hnext hbase hours' htheirs'
      have hfewer := hround.fewer
      obtain ⟨rest, hrest, hrestTiled⟩ := ih hround.oursLater hround.theirsLater (by
        rw [Region.left] at hfewer
        omega)
      refine ⟨context ++ (own ++ rest), ?_, ?_⟩
      · simp only [hcontext, contextEnd_eq hnext.after hnext.inside, hregion, hround.subchunks,
          hrest, bind_eq_bind, bind_some]
      · rw [hoursSplit, htheirsSplit, ← slice_to_end, ← slice_append base hnext.after hnext.inside,
          slice_to_end]
        exact tiled_append hcontextTiled (hround.tiled hrestTiled)

end

section
variable {base ours theirs : List Char}

variable (base) in
theorem editsToHunks_side {side : List Char} (hside : '\r' ∉ side)
    (h : (splitLines base).length + (splitLines side).length ≤ u32Max) :
    ∃ edits, myersEdits (splitLines base) (splitLines side) = some edits ∧
      MergeSide (splitLines base) 0 (editsToHunks edits) ∧
      rebuild (splitLines base) 0 (editsToHunks edits) = splitLines side := by
  obtain ⟨edits, hedits, hscript, hleast⟩ := myersEdits_least _ _ h
  obtain ⟨hhunks, hrebuilt⟩ := editsToHunks_least hscript hleast
  exact ⟨edits, hedits, ⟨hhunks, hrebuilt ▸ splitLines_plain hside⟩, hrebuilt⟩

theorem mergedSubchunks_tiled (hbase : '\r' ∉ base) (hours : '\r' ∉ ours)
    (htheirs : '\r' ∉ theirs) (hbaseLen : (splitLines base).length ≤ subchunkMaxLines)
    (hoursLen : (splitLines ours).length ≤ subchunkMaxLines)
    (htheirsLen : (splitLines theirs).length ≤ subchunkMaxLines) :
    ∃ chunks, mergedSubchunks (splitLines base) (splitLines ours) (splitLines theirs) ['\n'] =
        some chunks ∧ Tiled (splitLines base) (splitLines ours) (splitLines theirs) chunks := by
  rw [mergedSubchunks]
  split
  · rename_i hlengths
    exact ⟨_, rfl, perLineMerge_tiled hlengths.1 hlengths.2⟩
  · have hsmall : subchunkMaxLines + subchunkMaxLines ≤ u32Max ∧ subchunkMaxLines < usizeMax := by
      decide
    obtain ⟨editsOurs, heditsOurs, hoursSide, hoursRebuilt⟩ :=
      editsToHunks_side base hours (by omega)
    obtain ⟨editsTheirs, heditsTheirs, htheirsSide, htheirsRebuilt⟩ :=
      editsToHunks_side base htheirs (by omega)
    obtain ⟨chunks, hchunks, htiled⟩ := mergeHunks_tiled (splitLines_plain hbase) (by omega) _
      hoursSide htheirsSide (lt_succ_self _)
    rw [hoursRebuilt, htheirsRebuilt, drop_zero] at htiled
    refine ⟨chunks, ?_, htiled⟩
    rw [heditsOurs, heditsTheirs]
    exact hchunks

theorem subchunks_are_a_three_way_merge (hbase : '\r' ∉ base) (hours : '\r' ∉ ours)
    (htheirs : '\r' ∉ theirs) :
    ∃ result, splitConflictIntoSubchunks base ours theirs = some result ∧
      ∀ subchunks, result = some subchunks →
        Tiled (splitLines base) (splitLines ours) (splitLines theirs) subchunks := by
  rw [splitConflictIntoSubchunks]
  split
  · exact ⟨none, rfl, by simp⟩
  · dsimp only
    split
    · exact ⟨none, rfl, by simp⟩
    · rename_i hlimit
      obtain ⟨chunks, hchunks, htiled⟩ := mergedSubchunks_tiled hbase hours htheirs
        (by omega) (by omega) (by omega)
      rw [Merge.lfOnly_lineEnding hbase hours htheirs]
      refine ⟨_, by rw [hchunks]; rfl, fun subchunks heq => ?_⟩
      split at heq
      · cases heq
        exact htiled
      · cases heq

theorem inserted_lines_are_a_three_way_merge :
    ∃ result, splitConflictIntoSubchunks "a\nb\nc\n".toList "a\nx\nb\nc\n".toList
        "a\nb\ny\n".toList = some result ∧ ∀ subchunks, result = some subchunks →
        Tiled (splitLines "a\nb\nc\n".toList) (splitLines "a\nx\nb\nc\n".toList)
          (splitLines "a\nb\ny\n".toList) subchunks :=
  subchunks_are_a_three_way_merge (by decide) (by decide) (by decide)

end

end GitComet.Conflict
