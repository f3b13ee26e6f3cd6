import GitComet.Resolver.ProjectionBuild

namespace GitComet.Resolver
open Text Kit Conflict Conflict.Output List Option Nat

section
variable {spans : List ResolvedOutputSpan} {first last line : ℕ}

theorem findSpan_tiled (h : SpansTile first spans last) (hfirst : first ≤ line)
    (hlast : line < last) :
    ∀ spanIx, ∃ k span, findSpan line spanIx spans = some (spanIx + k) ∧
      spans[k]? = some span ∧ span.visibleStart ≤ line ∧ line < span.visibleEnd ∧
        SpansTile span.visibleStart (spans.drop k) last := by
  induction spans generalizing first with
  | nil =>
    rw [SpansTile] at h
    omega
  | cons span spans ih =>
    intro spanIx
    obtain ⟨rfl, hlen, hrest⟩ := h
    rw [findSpan]
    split
    · rename_i hinside
      exact ⟨0, span, rfl, rfl, hfirst, hinside, rfl, hlen, hrest⟩
    · rename_i hpast
      obtain ⟨k, found, hfind, hget, hbounds⟩ := ih hrest (Nat.le_of_not_lt hpast) (spanIx + 1)
      exact ⟨k + 1, found, by rw [hfind, add_assoc, add_comm 1], hget, hbounds⟩

def StartsBefore (spans : List ResolvedOutputSpan) (last line spanIx : ℕ) : Prop :=
  ∃ first, SpansTile first (spans.drop spanIx) last ∧ first ≤ line

theorem passSpans_tiled (spans : List ResolvedOutputSpan) : ∀ {first} (spanIx : ℕ),
    SpansTile first spans last → first ≤ line → ∃ k first', passSpans line spanIx spans = spanIx + k ∧
      SpansTile first' (spans.drop k) last ∧ first' ≤ line := by
  induction spans with
  | nil => exact fun spanIx h hfirst => ⟨0, _, rfl, h, hfirst⟩
  | cons span spans ih =>
    intro first spanIx h hfirst
    cases spans with
    | nil => exact ⟨0, first, rfl, h, hfirst⟩
    | cons next spans =>
      rw [passSpans]
      split
      · rename_i hpast
        obtain ⟨k, first', hpass, hrest⟩ := ih (spanIx + 1) h.2.2 hpast
        exact ⟨k + 1, first', by rw [hpass, add_assoc, add_comm 1], hrest⟩
      · exact ⟨0, first, rfl, h, hfirst⟩

theorem spanCheckpoints_tiled (spans : List ResolvedOutputSpan) (last count : ℕ) : ∀ n spanIx,
    StartsBefore spans last (n * 256) spanIx → ∀ i < count, ∃ found,
      (spanCheckpointsFrom spans spanIx (range' n count))[i]? = some found ∧
        StartsBefore spans last ((n + i) * 256) found := by
  induction count with
  | zero => exact fun _ _ _ i hi => absurd hi (not_lt_zero i)
  | succ count ih =>
    rintro n spanIx ⟨first, htiled, hfirst⟩ i hi
    obtain ⟨k, first', hpass, htiled', hfirst'⟩ := passSpans_tiled _ spanIx htiled hfirst
    rw [drop_drop] at htiled'
    rw [range'_succ, spanCheckpointsFrom]
    simp only [resolvedOutputSpanCheckpointStride, hpass]
    cases i with
    | zero => exact ⟨spanIx + k, rfl, first', htiled', hfirst'⟩
    | succ i =>
      obtain ⟨found, hfound, hstarts⟩ := ih (n + 1) (spanIx + k)
        ⟨first', htiled', hfirst'.trans (by omega)⟩ i (lt_of_succ_lt_succ hi)
      refine ⟨found, hfound, ?_⟩
      rwa [add_assoc, add_comm 1] at hstarts

end

namespace ResolvedOutputProjection

structure Shows (projection : ResolvedOutputProjection) (segments : List ConflictSegment)
    (rows : List (List Char)) : Prop where
  spans : SpansShow segments projection.fragments projection.spans rows
  count : projection.lineCount = rows.length
  checkpoints : projection.spanCheckpoints =
    buildSpanCheckpoints projection.spans projection.lineCount

section
variable {projection : ResolvedOutputProjection} {segments : List ConflictSegment}
  {rows : List (List Char)} {line : ℕ}

theorem Shows.spanIx (h : projection.Shows segments rows) (hline : line < rows.length) :
    ∃ spanIx span, projection.spanIxForVisibleLine line = some spanIx ∧
      projection.spans[spanIx]? = some span ∧ span.visibleStart ≤ line ∧ line < span.visibleEnd ∧
        SpansTile span.visibleStart (projection.spans.drop spanIx) rows.length := by
  have hne : projection.spans ≠ [] := by
    intro hnil
    have htiled := h.spans.tiled
    rw [hnil, SpansTile] at htiled
    omega
  have hempty : ¬projection.spans.isEmpty := by rwa [List.isEmpty_iff]
  obtain ⟨found, hfound, first, htiled, hfirst⟩ :=
    spanCheckpoints_tiled projection.spans rows.length ((rows.length + (256 - 1)) / 256) 0 0
      ⟨0, h.spans.tiled, le_refl _⟩ (line / 256) (by omega)
  have hcheckpoint : projection.spanCheckpoints[line / resolvedOutputSpanCheckpointStride]? =
      some found := by
    rw [h.checkpoints, buildSpanCheckpoints, h.count, if_neg (by
      rintro (hnil | hzero)
      · exact hempty hnil
      · omega)]
    simp only [range_eq_range']
    exact hfound
  rw [zero_add] at hfirst
  obtain ⟨k, span, hfind, hget, hstart, hend, hrest⟩ :=
    findSpan_tiled htiled (hfirst.trans (div_mul_le_self line 256)) hline found
  rw [getElem?_drop] at hget
  rw [drop_drop] at hrest
  refine ⟨found + k, span, ?_, hget, hstart, hend, hrest⟩
  rw [spanIxForVisibleLine, if_neg (by
    rintro (hnil | hpast)
    · exact hempty hnil
    · rw [h.count] at hpast
      omega)]
  rw [hcheckpoint]
  exact hfind

theorem Shows.lineText (h : projection.Shows segments rows) (line : ℕ) :
    projection.lineText segments line = rows[line]? := by
  by_cases hline : line < rows.length
  · obtain ⟨spanIx, span, hspanIx, hget, hstart, hend, -⟩ := h.spanIx hline
    have hshows := h.spans.each span (mem_of_getElem? hget)
    rw [ResolvedOutputProjection.lineText, hspanIx, bind_eq_bind, bind_some, hget,
      bind_eq_bind, bind_some, if_neg (Nat.not_le_of_lt hend)]
    cases span with
    | sourceLines visibleStart len fragmentIx fragmentLineStart =>
      have hin : line - visibleStart < len := by
        simp only [ResolvedOutputSpan.visibleEnd, ResolvedOutputSpan.visibleStart,
          ResolvedOutputSpan.len] at hstart hend
        omega
      obtain ⟨row, hfragment, hrow⟩ := hshows _ hin
      have hshown : visibleStart + (line - visibleStart) = line := Nat.add_sub_cancel' hstart
      rw [hshown] at hrow
      rw [hrow]
      exact hfragment.lineText
    | mergedLine visibleIndex text =>
      obtain rfl : visibleIndex = line := by
        simp only [ResolvedOutputSpan.visibleEnd, ResolvedOutputSpan.visibleStart,
          ResolvedOutputSpan.len] at hstart hend
        omega
      exact hshows.symm
  · rw [getElem?_eq_none (Nat.le_of_not_lt hline), ResolvedOutputProjection.lineText,
      spanIxForVisibleLine, if_pos (.inr (by rw [h.count]; omega))]
    rfl

theorem linesIn_shift {text : List (List Char)} {base : ℕ} (start : ℕ) {n : ℕ} (f : ℕ → ℕ)
    (hf : ∀ i < n, f (base + i) = start + i) (hrows : ∀ i < n, text[base + i]? = rows[start + i]?) :
    (linesIn text base (base + n)).map (fun line => (f line.1, line.2)) =
      linesIn rows start (start + n) := by
  rw [linesIn, linesIn, Nat.add_sub_cancel_left, Nat.add_sub_cancel_left, map_filterMap,
    range'_eq_map_range, range'_eq_map_range, filterMap_map, filterMap_map]
  refine filterMap_congr fun i hi => ?_
  rw [mem_range] at hi
  simp only [Function.comp_apply, Option.map_map, hrows i hi]
  congr 1
  funext row
  exact congrArg (·, row) (hf i hi)

theorem Shows.visitSpan {span : ResolvedOutputSpan} {stop : ℕ}
    (hshows : span.Shows segments projection.fragments rows) (hstart : span.visibleStart ≤ line)
    (hlt : line < stop) (hstop : stop ≤ span.visibleEnd) :
    projection.visitSpan segments line stop span = some (linesIn rows line stop) := by
  cases span with
  | mergedLine visibleIndex text =>
    obtain ⟨rfl, rfl⟩ : visibleIndex = line ∧ stop = line + 1 := by
      simp only [ResolvedOutputSpan.visibleEnd, ResolvedOutputSpan.visibleStart,
        ResolvedOutputSpan.len] at hstart hstop
      omega
    rw [ResolvedOutputProjection.visitSpan, if_pos rfl, linesIn_one hshows]
  | sourceLines visibleStart len fragmentIx fragmentLineStart =>
    simp only [ResolvedOutputSpan.visibleEnd, ResolvedOutputSpan.visibleStart,
      ResolvedOutputSpan.len] at hstart hstop
    obtain ⟨row, ⟨fragment, text, hat, hlast, -⟩, -⟩ := hshows (stop - 1 - visibleStart) (by omega)
    have hsame : ∀ i < len, (rowsIn text)[fragmentLineStart + i]? = rows[visibleStart + i]? := by
      intro i hi
      obtain ⟨row, ⟨fragment', text', hat', -, hrow⟩, hshown⟩ := hshows i hi
      obtain rfl := some.inj (hat.get.symm.trans hat'.get)
      obtain rfl := some.inj (hat.source.symm.trans hat'.source)
      rw [hrow, hshown]
    have htotal : fragmentLineStart + (line - visibleStart) + (stop - line) ≤
        lineTotal (rowsIn text) := by omega
    have hbegin : fragmentLineStart + (line - visibleStart) < lineTotal (rowsIn text) := by omega
    have hlines : fragment.forEachLineText segments (fragmentLineStart + (line - visibleStart))
        (fragmentLineStart + (line - visibleStart) + (stop - line)) =
          linesIn (rowsIn text) (fragmentLineStart + (line - visibleStart))
            (fragmentLineStart + (line - visibleStart) + (stop - line)) := by
      rw [ResolvedOutputFragment.forEachLineText, hat.source]
      simp only [hat.reads.count, min_eq_left htotal, min_eq_left hbegin.le]
      rw [if_neg (by omega), hat.reads.each _ _ htotal]
    have hcut : line + (stop - line) = stop := by omega
    simp only [ResolvedOutputProjection.visitSpan, hat.get, map_some, hlines]
    have hshift : ∀ i < stop - line, visibleStart +
        (fragmentLineStart + (line - visibleStart) + i - fragmentLineStart) = line + i := by
      intro i hi
      omega
    rw [linesIn_shift line (fun ix => visibleStart + (ix - fragmentLineStart)) hshift ?_, hcut]
    intro i hi
    have hrow := hsame (line - visibleStart + i) (by omega)
    have hshown : visibleStart + (line - visibleStart + i) = line + i := by omega
    rwa [hshown, ← add_assoc] at hrow

theorem Shows.visitSpans (spans : List ResolvedOutputSpan) {stop : ℕ}
    (hstop : stop ≤ rows.length) : ∀ {first line}, SpansTile first spans rows.length →
      (∀ span ∈ spans, span.Shows segments projection.fragments rows) → first ≤ line →
      line ≤ stop → (∀ span ∈ spans.head?, line < stop → line < span.visibleEnd) →
        projection.visitSpans segments stop line spans = linesIn rows line stop := by
  induction spans with
  | nil =>
    intro first line htiled _ hfirst hline _
    rw [SpansTile] at htiled
    rw [ResolvedOutputProjection.visitSpans, linesIn_empty (by omega)]
  | cons span spans ih =>
    rintro first line ⟨rfl, hlen, htiled⟩ hshows hfirst hline hhead
    rw [forall_mem_cons] at hshows
    rw [ResolvedOutputProjection.visitSpans]
    split
    · rename_i hlt
      have hend := hhead span rfl hlt
      have hvisit := Shows.visitSpan hshows.1 hfirst (Nat.lt_min.mpr ⟨hlt, hend⟩)
        (min_le_right stop _)
      simp only [Nat.max_eq_left hfirst, if_neg (Nat.not_le_of_lt hlt), hvisit]
      by_cases hwhole : stop ≤ span.visibleEnd
      · have hrest : projection.visitSpans segments stop stop spans = [] := by
          cases spans <;> simp [ResolvedOutputProjection.visitSpans]
        rw [min_eq_left hwhole, hrest, append_nil]
      · have hmin : min stop span.visibleEnd = span.visibleEnd := by omega
        rw [hmin, ih htiled hshows.2 (le_refl _) (by omega) ?_,
          ← linesIn_append hend.le (by omega)]
        intro next hnext _
        cases spans with
        | nil => cases hnext
        | cons other spans =>
          cases hnext
          obtain ⟨hstart, hpos, -⟩ := htiled
          rw [← hstart, ResolvedOutputSpan.visibleEnd]
          omega
    · rw [linesIn_empty (by omega)]

theorem linesIn_past {start : ℕ} (h : rows.length ≤ start) (stop : ℕ) :
    linesIn rows start stop = [] := by
  refine List.filterMap_eq_nil_iff.mpr fun ix hix => ?_
  rw [mem_range'_1] at hix
  rw [getElem?_eq_none (h.trans hix.1)]
  rfl

theorem linesIn_min (start stop : ℕ) :
    linesIn rows start (min stop rows.length) = linesIn rows start stop := by
  rcases le_total stop rows.length with hle | hle
  · rw [min_eq_left hle]
  · rw [min_eq_right hle]
    by_cases hstart : start ≤ rows.length
    · rw [linesIn_append hstart hle, linesIn_past (le_refl _), append_nil]
    · rw [linesIn_past (by omega), linesIn_past (by omega)]

theorem Shows.forEachLineText (h : projection.Shows segments rows) (start stop : ℕ) :
    projection.forEachLineTextInRange segments start stop = linesIn rows start stop := by
  rw [forEachLineTextInRange]
  by_cases hempty : start ≥ stop
  · rw [if_pos (.inl hempty), linesIn_empty hempty]
  by_cases hpast : start ≥ projection.lineCount
  · rw [if_pos (.inr (.inl hpast)), linesIn_past (h.count ▸ hpast)]
  have hline : start < rows.length := by
    rw [← h.count]
    omega
  obtain ⟨spanIx, span, hspanIx, hget, hstart, hend, htiled⟩ := h.spanIx hline
  have hspans : ¬projection.spans.isEmpty := by
    rw [List.isEmpty_iff]
    exact ne_nil_of_mem (mem_of_getElem? hget)
  rw [if_neg fun hout => hout.elim hempty fun hout => hout.elim hpast hspans, hspanIx]
  dsimp only
  rw [h.count, Shows.visitSpans _ (min_le_right stop _) htiled
    (fun other hother => h.spans.each other (mem_of_mem_drop hother)) hstart (by omega) ?_,
    linesIn_min]
  intro other hother _
  rw [head?_drop] at hother
  obtain rfl := some.inj (hget.symm.trans hother)
  exact hend

end

end ResolvedOutputProjection

structure Projects (segments : List ConflictSegment) : Prop where
  line : ∀ ix, (ResolvedOutputProjection.fromSegments segments).lineText segments ix =
    (rowsIn (generateResolvedText segments))[ix]?
  range : ∀ start stop,
    (ResolvedOutputProjection.fromSegments segments).forEachLineTextInRange segments start stop =
      linesIn (rowsIn (generateResolvedText segments)) start stop
  conflicts : ∀ k < conflictCount segments, ∃ range,
    (ResolvedOutputProjection.fromSegments segments).conflictLineRanges[k]? = some range ∧
      ∀ row, InRange range row ↔ HoldsText (marked 0 segments) k row
  widest : ∃ widest, (rowsIn (generateResolvedText segments))[
      (ResolvedOutputProjection.fromSegments segments).widestLineIx]? = some widest ∧
    ∀ row ∈ rowsIn (generateResolvedText segments), byteLen row ≤ byteLen widest

theorem built_shows {segments : List ConflictSegment} (hreadable : OutputReadable segments) :
    ∃ (build : ProjectionBuild) (anchors : ℕ → ℕ), ProjectionBuild.Shows segments build
        ⟨(OutputRows.start.write (marked 0 segments)).all, [], none⟩ ∧
      Measured build.widest (rowsIn (generateResolvedText segments)) 0 ∧
      ResolvedOutputProjection.fromSegments segments =
        ⟨build.fragments, build.spans, buildSpanCheckpoints build.spans (max build.visibleLine 1),
          build.conflictRanges.mapIdx fun conflictIx range =>
            range.getD ⟨anchors conflictIx, anchors conflictIx⟩,
          max build.visibleLine 1, build.widest.ix⟩ := by
  have hcount : (replicate (conflictCount segments) (none : Option TextRange)).length =
      conflictCount segments := length_replicate
  have hstart : ProjectionBuild.Fits segments
      ⟨[], [], .empty, 0, replicate (conflictCount segments) none, ⟨0, 0⟩⟩
      OutputRows.start := by
    refine ⟨⟨rfl, ⟨rfl, rfl⟩, ⟨rfl, fun span hspan => (by cases hspan)⟩, hcount,
      fun k slot hslot => ?_⟩, fun row hrow => (by cases hrow), .inl rfl⟩
    obtain ⟨-, rfl⟩ := List.getElem?_eq_some_iff.mp hslot
    rw [getElem_replicate]
    rintro r ⟨row, hrow⟩
    cases hrow
  have hfits := walk_fits hreadable segments [] rfl
    ⟨_, 0, replicate (conflictCount segments) 0⟩ OutputRows.start hstart
  have htexts := OutputRows.texts_write (marked 0 segments)
  rw [marked_texts] at htexts
  refine ⟨_, _, ProjectionBuild.finalizePendingLine_shows hfits.1, ?_, rfl⟩
  have hmeasured := ProjectionBuild.finalizePendingLine_measured hfits.1 hfits.2
  rw [htexts] at hmeasured
  exact hmeasured

theorem projects_iff (segments : List ConflictSegment) (hreadable : OutputReadable segments) :
    Projects segments ↔ RowsApart (marked 0 segments) := by
  obtain ⟨build, anchors, hshows, hmeasured, heq⟩ := built_shows hreadable
  have htexts := OutputRows.texts_write (marked 0 segments)
  rw [marked_texts] at htexts
  have hpos := rowsIn_pos (generateResolvedText segments)
  have hlength : (OutputRows.start.write (marked 0 segments)).all.length =
      (rowsIn (generateResolvedText segments)).length := by rw [← htexts, length_map]
  have hprojection : (ResolvedOutputProjection.fromSegments segments).Shows segments
      (rowsIn (generateResolvedText segments)) := by
    have hvisible := hshows.visibleLine
    rw [heq]
    refine ⟨htexts ▸ hshows.spans, ?_, rfl⟩
    dsimp only at hvisible ⊢
    omega
  have hranges : ∀ k, (ResolvedOutputProjection.fromSegments segments).conflictLineRanges[k]? =
      build.conflictRanges[k]?.map fun (slot : Option TextRange) =>
        slot.getD ⟨anchors k, anchors k⟩ := by
    intro k
    rw [heq, getElem?_mapIdx]
  have hhull : ∀ k < conflictCount segments, Hull (Leads (marked 0 segments) k)
      (build.conflictRanges[k]?.join) := by
    intro k hk
    rw [← hshows.ranges.count] at hk
    have hslot := getElem?_eq_getElem hk
    have hhull := hshows.ranges.hull k _ hslot
    have hleads : MarkedRow (OutputRows.start.write (marked 0 segments)).all k =
        Leads (marked 0 segments) k := by
      funext r
      refine propext ⟨fun ⟨row, hrow⟩ =>
        (OutputRows.mark_iff (marked_order segments 0) hrow).mp rfl, fun hlead => ?_⟩
      have hr : r < (OutputRows.start.write (marked 0 segments)).all.length := by
        have hle := hlead.holds.le
        have hfed := (OutputRows.marks_write (marked_order segments 0)).fed
        rw [OutputRows.all, length_append, length_singleton]
        omega
      have hrow := getElem?_eq_getElem hr
      refine ⟨_, hrow.trans (congrArg some (Prod.ext rfl ?_))⟩
      exact (OutputRows.mark_iff (marked_order segments 0) hrow).mpr hlead
    rw [hslot, join_some]
    exact hleads ▸ hhull
  have hconflicts : (∀ k < conflictCount segments, ∃ range,
      (ResolvedOutputProjection.fromSegments segments).conflictLineRanges[k]? = some range ∧
        ∀ row, InRange range row ↔ HoldsText (marked 0 segments) k row) ↔
          RowsApart (marked 0 segments) := by
    rw [← @hulls_exact_iff segments _ anchors hhull]
    refine forall₂_congr fun k hk => ?_
    rw [← hshows.ranges.count] at hk
    rw [hranges k, getElem?_eq_getElem hk]
    simp
  refine ⟨fun h => hconflicts.mp h.conflicts, fun hapart =>
    ⟨hprojection.lineText, hprojection.forEachLineText, hconflicts.mpr hapart, ?_⟩⟩
  rw [heq]
  rcases hmeasured.names with hzero | ⟨widest, hwidest, hlen⟩
  · refine ⟨_, getElem?_eq_getElem (by rw [hzero]; exact hpos), fun row hrow => ?_⟩
    have hbound := hmeasured.bound row hrow
    rw [hzero] at hbound
    exact hbound.trans (zero_le _)
  · refine ⟨widest, hwidest, fun row hrow => ?_⟩
    rw [hlen]
    exact (hmeasured.bound row hrow).trans (by omega)

def resolvedAs (text : String) : ConflictBlock :=
  ⟨none, text.toList, [], ⟨[.ours], nodup_singleton _⟩, true, false⟩

def blockBehindText : List ConflictSegment :=
  [.text "a".toList, .block (resolvedAs "b\n"), .text "c".toList]

theorem block_behind_text_projects :
    Projects blockBehindText ↔ RowsApart (marked 0 blockBehindText) :=
  projects_iff blockBehindText (by
    have hshort : ∀ segment ∈ blockBehindText, ∀ text ∈ outputTexts segment,
        lineTotal (rowsIn text) < 20000 := by decide
    intro segment hsegment text htext hlong
    exact absurd (hshort segment hsegment text htext) (Nat.not_lt_of_le hlong))

def blocksInOneRow : List ConflictSegment := [.block (resolvedAs "a"), .block (resolvedAs "b\n")]

theorem second_block_of_a_row_is_lost : ¬Projects blocksInOneRow := by
  intro h
  obtain ⟨range, hrange, hrows⟩ := h.conflicts 1 (by decide)
  have hranges : (ResolvedOutputProjection.fromSegments blocksInOneRow).conflictLineRanges =
      [⟨0, 1⟩, ⟨0, 0⟩] := by decide
  rw [hranges] at hrange
  cases hrange
  have hholds : HoldsText (marked 0 blocksInOneRow) 1 0 :=
    ⟨[(some 0, 'a')], 'b', [(some 1, '\n')], by decide, by decide⟩
  exact absurd ((hrows 0).mpr hholds).2 (lt_irrefl 0)

end GitComet.Resolver
