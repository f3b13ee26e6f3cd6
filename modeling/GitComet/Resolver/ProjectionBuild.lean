import GitComet.Resolver.OutputProjection

namespace GitComet.Resolver
open Text Kit Conflict Conflict.Output List Nat Option

structure FragmentAt (segments : List ConflictSegment) (fragments : List ResolvedOutputFragment)
    (fragmentIx : ℕ) (fragment : ResolvedOutputFragment) (text : List Char) : Prop where
  get : fragments[fragmentIx]? = some fragment
  source : fragment.source.sourceText segments = some text
  reads : fragment.Reads text

def FragmentLine (segments : List ConflictSegment) (fragments : List ResolvedOutputFragment)
    (fragmentIx lineIx : ℕ) (row : List Char) : Prop :=
  ∃ fragment text, FragmentAt segments fragments fragmentIx fragment text ∧
    lineIx < lineTotal (rowsIn text) ∧ (rowsIn text)[lineIx]? = some row

def ResolvedOutputSpan.Shows (segments : List ConflictSegment)
    (fragments : List ResolvedOutputFragment) (rows : List (List Char)) :
    ResolvedOutputSpan → Prop
  | .sourceLines visibleStart len fragmentIx fragmentLineStart => ∀ i < len, ∃ row,
      FragmentLine segments fragments fragmentIx (fragmentLineStart + i) row ∧
        rows[visibleStart + i]? = some row
  | .mergedLine visibleIndex text => rows[visibleIndex]? = some text

def SpansTile : ℕ → List ResolvedOutputSpan → ℕ → Prop
  | first, [], last => first = last
  | first, span :: spans, last =>
    span.visibleStart = first ∧ 0 < span.len ∧ SpansTile span.visibleEnd spans last

structure SpansShow (segments : List ConflictSegment) (fragments : List ResolvedOutputFragment)
    (spans : List ResolvedOutputSpan) (rows : List (List Char)) : Prop where
  tiled : SpansTile 0 spans rows.length
  each : ∀ span ∈ spans, span.Shows segments fragments rows

section
variable {segments : List ConflictSegment} {fragments : List ResolvedOutputFragment}
  {spans : List ResolvedOutputSpan} {rows : List (List Char)} {row text : List Char}
  {fragmentIx lineIx : ℕ}

theorem tiled_append {front back : List ResolvedOutputSpan} {first last : ℕ} :
    SpansTile first (front ++ back) last ↔ ∃ middle, SpansTile first front middle ∧
      SpansTile middle back last := by
  induction front generalizing first with
  | nil => exact ⟨fun h => ⟨first, rfl, h⟩, fun ⟨_, he, h⟩ => he ▸ h⟩
  | cons span front ih =>
    rw [cons_append, SpansTile, ih]
    exact ⟨fun ⟨hstart, hlen, middle, hfront, hback⟩ => ⟨middle, ⟨hstart, hlen, hfront⟩, hback⟩,
      fun ⟨middle, ⟨hstart, hlen, hfront⟩, hback⟩ => ⟨hstart, hlen, middle, hfront, hback⟩⟩

variable {span : ResolvedOutputSpan}

theorem tiled_singleton {first last : ℕ} :
    SpansTile first [span] last ↔ span.visibleStart = first ∧ 0 < span.len ∧ span.visibleEnd = last :=
  Iff.rfl

theorem FragmentLine.push (h : FragmentLine segments fragments fragmentIx lineIx row)
    (fragment : ResolvedOutputFragment) :
    FragmentLine segments (fragments ++ [fragment]) fragmentIx lineIx row := by
  obtain ⟨found, text, ⟨hget, hsource, hreads⟩, hline⟩ := h
  have hlt := (List.getElem?_eq_some_iff.mp hget).1
  exact ⟨found, text, ⟨by rw [getElem?_append_left hlt, hget], hsource, hreads⟩, hline⟩

theorem FragmentLine.lineText (h : FragmentLine segments fragments fragmentIx lineIx row) :
    (fragments[fragmentIx]?.bind fun fragment => fragment.lineText segments lineIx) = some row := by
  obtain ⟨fragment, text, ⟨hget, hsource, hreads⟩, hlt, hrow⟩ := h
  rw [hget, bind_some, ResolvedOutputFragment.lineText, hsource, bind_eq_bind,
    bind_some, hreads.count, if_pos hlt, hreads.line _ hlt, hrow]

theorem ResolvedOutputSpan.Shows.push
    (h : span.Shows segments fragments rows) (fragment : ResolvedOutputFragment) :
    span.Shows segments (fragments ++ [fragment]) rows := by
  cases span with
  | sourceLines visibleStart len fragmentIx fragmentLineStart =>
    intro i hi
    obtain ⟨row, hline, hrow⟩ := h i hi
    exact ⟨row, hline.push fragment, hrow⟩
  | mergedLine visibleIndex text => exact h

theorem ResolvedOutputSpan.Shows.append
    (h : span.Shows segments fragments rows) (more : List (List Char)) :
    span.Shows segments fragments (rows ++ more) := by
  have hkeep : ∀ {i row}, rows[i]? = some row → (rows ++ more)[i]? = some row := fun hget => by
    rw [getElem?_append_left (getElem?_eq_some_iff.mp hget).1, hget]
  cases span with
  | sourceLines visibleStart len fragmentIx fragmentLineStart =>
    intro i hi
    obtain ⟨row, hline, hrow⟩ := h i hi
    exact ⟨row, hline, hkeep hrow⟩
  | mergedLine visibleIndex text => exact hkeep h

section
variable (h : SpansShow segments fragments spans rows)
include h

theorem SpansShow.push (fragment : ResolvedOutputFragment) :
    SpansShow segments (fragments ++ [fragment]) spans rows :=
  ⟨h.tiled, fun span hspan => (h.each span hspan).push fragment⟩

theorem SpansShow.concat {more : List (List Char)}
    (hstart : span.visibleStart = rows.length) (hlen : span.len = more.length) (hne : more ≠ [])
    (hshows : span.Shows segments fragments (rows ++ more)) :
    SpansShow segments fragments (spans ++ [span]) (rows ++ more) := by
  refine ⟨tiled_append.mpr ⟨rows.length, h.tiled, tiled_singleton.mpr ⟨hstart, ?_, ?_⟩⟩, ?_⟩
  · rw [hlen]
    exact length_pos_iff.mpr hne
  · rw [ResolvedOutputSpan.visibleEnd, hstart, hlen, length_append]
  · intro other hother
    rcases mem_append.mp hother with hold | hnew
    · exact (h.each other hold).append more
    · exact mem_singleton.mp hnew ▸ hshows

theorem SpansShow.mergedLine (text : List Char) :
    SpansShow segments fragments (spans ++ [.mergedLine rows.length text]) (rows ++ [text]) := by
  refine h.concat rfl rfl (cons_ne_nil text []) ?_
  exact getElem?_concat_length

end

theorem pushSourceSpan_cases (spans : List ResolvedOutputSpan)
    (visibleStart fragmentIx fragmentLineStart : ℕ) {len : ℕ} (hlen : len ≠ 0) :
    pushSourceSpan spans visibleStart fragmentIx fragmentLineStart len =
        spans ++ [.sourceLines visibleStart len fragmentIx fragmentLineStart] ∨
      ∃ front prevLen prevStart prevLine,
        spans = front ++ [.sourceLines prevStart prevLen fragmentIx prevLine] ∧
        prevStart + prevLen = visibleStart ∧ prevLine + prevLen = fragmentLineStart ∧
        pushSourceSpan spans visibleStart fragmentIx fragmentLineStart len =
          front ++ [.sourceLines prevStart (prevLen + len) fragmentIx prevLine] := by
  simp only [pushSourceSpan, if_neg hlen]
  split
  · rename_i prevStart prevLen prevFragment prevLine hlast
    split
    · rename_i hmeet
      obtain ⟨rfl, hstart, hline⟩ := hmeet
      exact .inr ⟨spans.dropLast, prevLen, prevStart, prevLine,
        (dropLast_append_getLast? _ hlast).symm, hstart, hline, rfl⟩
    · exact .inl rfl
  · exact .inl rfl

theorem SpansShow.sourceLines (h : SpansShow segments fragments spans rows)
    {lines : List (List Char)} {fragmentLineStart : ℕ} (hlines : ∀ i row, lines[i]? = some row →
      FragmentLine segments fragments fragmentIx (fragmentLineStart + i) row) :
    SpansShow segments fragments
      (pushSourceSpan spans rows.length fragmentIx fragmentLineStart lines.length)
      (rows ++ lines) := by
  by_cases hne : lines = []
  · rw [hne, append_nil]
    exact h
  have hnew : ∀ i < lines.length, ∃ row,
      FragmentLine segments fragments fragmentIx (fragmentLineStart + i) row ∧
        (rows ++ lines)[rows.length + i]? = some row := by
    intro i hi
    have hget := getElem?_eq_getElem hi
    refine ⟨lines[i], hlines i _ hget, ?_⟩
    rw [getElem?_append_right (le_add_right _ _), Nat.add_sub_cancel_left, hget]
  rcases pushSourceSpan_cases spans rows.length fragmentIx fragmentLineStart
    (mt length_eq_zero_iff.mp hne) with
    heq | ⟨front, prevLen, prevStart, prevLine, rfl, hstart, hline, heq⟩
  · rw [heq]
    exact h.concat rfl rfl hne hnew
  · rw [heq]
    obtain ⟨middle, hfront, hprev⟩ := tiled_append.mp h.tiled
    obtain ⟨rfl, hpos, -⟩ := tiled_singleton.mp hprev
    refine ⟨tiled_append.mpr ⟨_, hfront, tiled_singleton.mpr ⟨rfl, ?_, ?_⟩⟩, ?_⟩
    · exact lt_of_lt_of_le hpos (le_add_right _ _)
    · rw [length_append]
      show prevStart + (prevLen + lines.length) = _
      omega
    · intro span hspan
      rcases mem_append.mp hspan with hold | hlast
      · exact (h.each span (mem_append_left _ hold)).append lines
      · rw [mem_singleton.mp hlast]
        have hkept := (h.each _ (mem_append_right _ (mem_singleton_self _))).append lines
        intro i hi
        by_cases hin : i < prevLen
        · exact hkept i hin
        · obtain ⟨row, hfound, hrow⟩ := hnew (i - prevLen) (by omega)
          have hix : fragmentLineStart + (i - prevLen) = prevLine + i := by omega
          have hvisible : rows.length + (i - prevLen) = prevStart + i := by omega
          exact ⟨row, hix ▸ hfound, hvisible ▸ hrow⟩

end

def MarkedRow (closed : List (List Char × Option ℕ)) (k r : ℕ) : Prop :=
  ∃ row, closed[r]? = some (row, some k)

structure RangesShow (total : ℕ) (ranges : List (Option TextRange))
    (closed : List (List Char × Option ℕ)) : Prop where
  count : ranges.length = total
  hull : ∀ (k : ℕ) slot, ranges[k]? = some slot → Hull (MarkedRow closed k) slot

structure Measured (widest : WidestLine) (rows : List (List Char)) (slack : ℕ) : Prop where
  bound : ∀ row ∈ rows, byteLen row ≤ max widest.len slack
  names : widest = ⟨0, 0⟩ ∨ ∃ row, rows[widest.ix]? = some row ∧ byteLen row = widest.len

def PendingLine.Shows (segments : List ConflictSegment) (fragments : List ResolvedOutputFragment)
    (rows : OutputRows) : PendingLine → Prop
  | .empty => rows.row = [] ∧ rows.mark = none
  | .source fragmentIx lineIx conflictIx => rows.row ≠ [] ∧ rows.mark = conflictIx ∧
      FragmentLine segments fragments fragmentIx lineIx rows.row
  | .composed text conflictIx => rows.row ≠ [] ∧ rows.mark = conflictIx ∧ rows.row = text

namespace ProjectionBuild

structure Shows (segments : List ConflictSegment) (build : ProjectionBuild) (rows : OutputRows) :
    Prop where
  visibleLine : build.visibleLine = rows.closed.length
  pending : build.pending.Shows segments build.fragments rows
  spans : SpansShow segments build.fragments build.spans (rows.closed.map Prod.fst)
  ranges : RangesShow (conflictCount segments) build.conflictRanges rows.closed

end ProjectionBuild

section
variable {total : ℕ} {ranges : List (Option TextRange)} {closed : List (List Char × Option ℕ)}

theorem Hull.extend {rows rows' : ℕ → Prop} {slot : Option TextRange} {line : ℕ}
    (h : Hull rows slot) (hrows : ∀ row, rows' row ↔ rows row ∨ row = line) :
    Hull rows' (extendRange line slot) := by
  cases slot with
  | none =>
    have hline := (hrows line).mpr (.inr rfl)
    refine ⟨hline, ⟨line, hline, rfl⟩, fun row hrow => ?_⟩
    obtain rfl := ((hrows row).mp hrow).resolve_left (h row)
    exact ⟨le_refl _, lt_succ_self _⟩
  | some range =>
    obtain ⟨hfirst, ⟨last, hlast, hstop⟩, hall⟩ := h
    refine ⟨?_, ?_, fun row hrow => ?_⟩
    · rcases le_total range.start line with hle | hle
      · rw [min_eq_left hle]
        exact (hrows _).mpr (.inl hfirst)
      · rw [min_eq_right hle]
        exact (hrows _).mpr (.inr rfl)
    · rcases le_total range.stop (line + 1) with hle | hle
      · exact ⟨line, (hrows _).mpr (.inr rfl), max_eq_right hle⟩
      · exact ⟨last, (hrows _).mpr (.inl hlast), by rw [← hstop]; exact max_eq_left hle⟩
    · rcases (hrows row).mp hrow with hold | rfl
      · have := hall row hold
        exact ⟨(min_le_left _ _).trans this.1, lt_of_lt_of_le this.2 (le_max_left _ _)⟩
      · exact ⟨min_le_right _ _, lt_of_lt_of_le (lt_succ_self _) (le_max_right _ _)⟩

theorem getElem?_concat {α : Type} {xs : List α} {x y : α} {r : ℕ} :
    (xs ++ [x])[r]? = some y ↔ xs[r]? = some y ∨ r = xs.length ∧ x = y := by
  rcases lt_trichotomy r xs.length with hlt | rfl | hgt
  · rw [getElem?_append_left hlt]
    exact ⟨.inl, fun h => h.resolve_right fun he => absurd he.1 (Nat.ne_of_lt hlt)⟩
  · simp
  · rw [getElem?_eq_none (by rw [length_append, length_singleton]; omega),
      getElem?_eq_none hgt.le]
    simp [ne_of_gt hgt]

theorem RangesShow.close (h : RangesShow total ranges closed) (row : List Char) (mark : Option ℕ) :
    RangesShow total (extendConflictLineRange ranges mark closed.length)
      (closed ++ [(row, mark)]) := by
  have hrows : ∀ k r, MarkedRow (closed ++ [(row, mark)]) k r ↔
      MarkedRow closed k r ∨ r = closed.length ∧ mark = some k := by
    intro k r
    simp only [MarkedRow, getElem?_concat, Prod.mk.injEq, exists_or]
    exact or_congr_right ⟨fun ⟨_, hr, _, hmark⟩ => ⟨hr, hmark⟩,
      fun ⟨hr, hmark⟩ => ⟨row, hr, rfl, hmark⟩⟩
  have hkeep : ∀ {k}, mark ≠ some k → MarkedRow (closed ++ [(row, mark)]) k = MarkedRow closed k :=
    fun hmark => funext fun r => propext ((hrows _ r).trans (or_iff_left fun he => hmark he.2))
  refine ⟨?_, fun k slot hslot => ?_⟩
  · cases mark with
    | none => exact h.count
    | some j => rw [extendConflictLineRange, List.length_modify, h.count]
  cases mark with
  | none =>
    rw [hkeep (some_ne_none k).symm]
    exact h.hull k slot hslot
  | some j =>
    rw [extendConflictLineRange, getElem?_modify] at hslot
    obtain ⟨old, hold, rfl⟩ := map_eq_some_iff.mp hslot
    by_cases hj : j = k
    · subst hj
      rw [if_pos rfl]
      refine (h.hull j old hold).extend fun r => ?_
      rw [hrows j r, and_iff_left rfl]
    · rw [if_neg hj, hkeep fun he => hj (some.inj he)]
      exact h.hull k old hold

theorem RangesShow.closeLines (h : RangesShow total ranges closed) (mark : Option ℕ)
    {visibleLine : ℕ} (hvisible : visibleLine = closed.length) (lines : List (List Char)) :
    RangesShow total ((range lines.length).foldl (fun ranges offset =>
      extendConflictLineRange ranges mark (visibleLine + offset)) ranges)
      (closed ++ lines.map (·, mark)) := by
  induction lines using reverseRecOn with
  | nil => rwa [map_nil, append_nil]
  | append_singleton lines line ih =>
    have hline : visibleLine + lines.length = (closed ++ lines.map (·, mark)).length := by
      rw [length_append, length_map, hvisible]
    rw [length_append, length_singleton, range_succ, foldl_append,
      foldl_cons, foldl_nil, hline, map_append, ← append_assoc]
    exact ih.close line mark

end

section
variable {widest : WidestLine} {rows : List (List Char)} {slack : ℕ}

theorem le_see (widest : WidestLine) (ix len : ℕ) :
    widest.len ≤ (widest.see ix len).len ∧ len ≤ (widest.see ix len).len := by
  unfold WidestLine.see
  split
  · rename_i hwide
    exact ⟨le_of_lt hwide, le_refl _⟩
  · rename_i hnarrow
    exact ⟨le_refl _, Nat.le_of_not_lt hnarrow⟩

theorem Measured.see (h : Measured widest rows slack) {row : List Char} {ix : ℕ}
    (more : List (List Char)) (hrow : (rows ++ more)[ix]? = some row) (slack' : ℕ)
    (hbound : ∀ other ∈ rows ++ more,
      byteLen other ≤ max (widest.see ix (byteLen row)).len slack') :
    Measured (widest.see ix (byteLen row)) (rows ++ more) slack' := by
  refine ⟨hbound, ?_⟩
  unfold WidestLine.see
  split
  · exact .inr ⟨row, hrow, rfl⟩
  · refine h.names.imp_right fun ⟨found, hfound, hlen⟩ => ⟨found, ?_, hlen⟩
    rw [getElem?_append_left (List.getElem?_eq_some_iff.mp hfound).1, hfound]

theorem Measured.close {row : List Char} (h : Measured widest rows (byteLen row)) :
    Measured (widest.see rows.length (byteLen row)) (rows ++ [row]) 0 := by
  obtain ⟨hold, hnew⟩ := le_see widest rows.length (byteLen row)
  refine h.see [row] getElem?_concat_length 0 fun other hother => ?_
  rcases mem_append.mp hother with hin | hin
  · have := h.bound other hin
    omega
  · rw [mem_singleton.mp hin]
    omega

theorem Measured.widen (h : Measured widest rows slack) {slack' : ℕ} (hle : slack ≤ slack') :
    Measured widest rows slack' :=
  ⟨fun row hrow => (h.bound row hrow).trans (by omega), h.names⟩

end

theorem mergeConflictIx_eq (current next : Option ℕ) :
    mergeConflictIx current next = current.or next := by
  cases current <;> cases next <;> rfl

namespace ProjectionBuild

variable {segments : List ConflictSegment} {build : ProjectionBuild} {rows : OutputRows}
  {fragment : ResolvedOutputFragment} {fragmentIx lineIx : ℕ} {mark : Option ℕ}
  {row text : List Char}

theorem fragmentLineText_eq (h : FragmentLine segments build.fragments fragmentIx lineIx row) :
    build.fragmentLineText segments fragmentIx lineIx = some row := h.lineText

section
variable (h : build.Shows segments rows)
include h

theorem pendingLen_eq : build.pendingLen segments = byteLen rows.row := by
  have hpending := h.pending
  unfold pendingLen
  cases hp : build.pending with
  | empty =>
    rw [hp] at hpending
    rw [hpending.1]
    rfl
  | source fragmentIx lineIx conflictIx =>
    rw [hp] at hpending
    dsimp only
    rw [fragmentLineText_eq hpending.2.2]
    rfl
  | composed text conflictIx =>
    rw [hp] at hpending
    rw [hpending.2.2]

theorem isPending_iff : build.isPending ↔ rows.row ≠ [] := by
  have hpending := h.pending
  unfold isPending
  cases hp : build.pending with
  | empty =>
    rw [hp] at hpending
    exact iff_of_false Bool.false_ne_true fun hne => hne hpending.1
  | source fragmentIx lineIx conflictIx =>
    rw [hp] at hpending
    exact iff_of_true rfl hpending.1
  | composed text conflictIx =>
    rw [hp] at hpending
    exact iff_of_true rfl hpending.1

theorem pending_mark : build.pending.conflictIx = rows.mark := by
  have hpending := h.pending
  cases hp : build.pending with
  | empty =>
    rw [hp] at hpending
    exact hpending.2.symm
  | source fragmentIx lineIx conflictIx =>
    rw [hp] at hpending
    exact hpending.2.1.symm
  | composed text conflictIx =>
    rw [hp] at hpending
    exact hpending.2.1.symm

theorem appendSourcePiece_shows
    (hline : FragmentLine segments build.fragments fragmentIx lineIx row)
    (hne : rows.row ++ row ≠ []) (mark : Option ℕ) :
    (build.appendSourcePiece segments fragmentIx lineIx mark).Shows segments
      ⟨rows.closed, rows.row ++ row, rows.mark.or mark⟩ ∧
    (build.appendSourcePiece segments fragmentIx lineIx mark).widest = build.widest ∧
    (build.appendSourcePiece segments fragmentIx lineIx mark).fragments = build.fragments := by
  have hpending := h.pending
  unfold appendSourcePiece
  rw [fragmentLineText_eq hline, getD_some]
  cases hp : build.pending with
  | empty =>
    rw [hp] at hpending
    obtain ⟨hrow, hmark⟩ := hpending
    rw [hrow, nil_append] at hne
    dsimp only
    rw [if_neg (by rwa [List.isEmpty_iff]), hrow, hmark, nil_append, none_or]
    exact ⟨⟨h.visibleLine, ⟨hne, rfl, hline⟩, h.spans, h.ranges⟩, rfl, rfl⟩
  | source existingIx existingLine existingConflict =>
    rw [hp] at hpending
    obtain ⟨hrow, hmark, hold⟩ := hpending
    dsimp only
    rw [fragmentLineText_eq hold, getD_some, mergeConflictIx_eq, hmark]
    exact ⟨⟨h.visibleLine, ⟨hne, rfl, rfl⟩, h.spans, h.ranges⟩, rfl, rfl⟩
  | composed text existingConflict =>
    rw [hp] at hpending
    obtain ⟨hrow, hmark, htext⟩ := hpending
    dsimp only
    rw [mergeConflictIx_eq, hmark]
    exact ⟨⟨h.visibleLine, ⟨hne, rfl, by rw [htext]⟩, h.spans, h.ranges⟩, rfl, rfl⟩

theorem finalizePendingLine_shows :
    (build.finalizePendingLine segments).Shows segments
      ⟨rows.closed ++ [(rows.row, rows.mark)], [], none⟩ := by
  have hlen : build.visibleLine = (rows.closed.map Prod.fst).length := by
    rw [length_map, h.visibleLine]
  refine ⟨?_, ⟨rfl, rfl⟩, ?_, ?_⟩
  · rw [length_append, ← h.visibleLine]
    rfl
  · have hpending := h.pending
    rw [map_append]
    unfold finalizePendingLine
    dsimp only
    rw [hlen]
    cases hp : build.pending with
    | empty =>
      rw [hp] at hpending
      rw [map_singleton, hpending.1]
      exact h.spans.mergedLine []
    | source fragmentIx lineIx conflictIx =>
      rw [hp] at hpending
      refine SpansShow.sourceLines h.spans fun i row (hget : [rows.row][i]? = some row) => ?_
      obtain ⟨hi, hrow⟩ := List.getElem?_eq_some_iff.mp hget
      obtain rfl := lt_one_iff.mp hi
      exact hrow ▸ hpending.2.2
    | composed text conflictIx =>
      rw [hp] at hpending
      rw [map_singleton, hpending.2.2]
      exact h.spans.mergedLine text
  · show RangesShow _ (extendConflictLineRange build.conflictRanges build.pending.conflictIx
      build.visibleLine) _
    rw [pending_mark h, h.visibleLine]
    exact h.ranges.close rows.row rows.mark

theorem finalizePendingLine_measured
    (hmeasured : Measured build.widest (rows.closed.map Prod.fst) (byteLen rows.row)) :
    Measured (build.finalizePendingLine segments).widest (rows.all.map Prod.fst) 0 := by
  have hclose := hmeasured.close
  have hwidest : (build.finalizePendingLine segments).widest =
      build.widest.see (rows.closed.map Prod.fst).length (byteLen rows.row) := by
    show build.widest.see build.visibleLine (build.pendingLen segments) = _
    rw [pendingLen_eq h, h.visibleLine, length_map]
  rw [hwidest, OutputRows.all, map_append]
  exact hclose

theorem pushLines_shows (hempty : rows.row = []) {start : ℕ}
    (lines : List (List Char)) (hlines : ∀ (i : ℕ) line, lines[i]? = some line →
      FragmentLine segments build.fragments fragmentIx (start + i) line) (mark : Option ℕ) :
    (build.pushLines fragmentIx start lines.length mark).Shows segments
      ⟨rows.closed ++ lines.map (·, mark), [], none⟩ := by
  have hlen : build.visibleLine = (rows.closed.map Prod.fst).length := by
    rw [length_map, h.visibleLine]
  have hpending := h.pending
  refine ⟨?_, ?_, ?_, ?_⟩
  · rw [length_append, length_map, ← h.visibleLine]
    rfl
  · show PendingLine.Shows segments build.fragments _ build.pending
    cases hp : build.pending with
    | empty => exact ⟨rfl, rfl⟩
    | source fragmentIx lineIx conflictIx =>
      rw [hp] at hpending
      exact absurd hempty hpending.1
    | composed text conflictIx =>
      rw [hp] at hpending
      exact absurd hempty hpending.1
  · have hspans := h.spans.sourceLines hlines
    rw [← hlen] at hspans
    rw [map_append, List.map_map]
    have hsame : lines.map (Prod.fst ∘ fun line : List Char => (line, mark)) = lines :=
      map_id _
    rw [hsame]
    exact hspans
  · exact h.ranges.closeLines mark h.visibleLine lines

end

theorem widest_row (h : fragment.Reads text) :
    (∀ other ∈ rowsIn text, byteLen other ≤ fragment.widest.len) ∧
      ∃ row, (rowsIn text)[fragment.widest.ix]? = some row ∧ byteLen row = fragment.widest.len := by
  have hall : ∀ other ∈ rowsIn text, byteLen other ≤ fragment.widest.len := by
    intro other hother
    rw [← take_append_drop (lineTotal (rowsIn text)) (rowsIn text)] at hother
    rcases mem_append.mp hother with hin | hin
    · exact h.widest.bound other hin
    · unfold lineTotal at hin
      split at hin
      · rename_i hlast
        obtain ⟨front, hfront⟩ := getLast?_eq_some_iff.mp hlast
        rw [hfront, length_append, length_singleton, Nat.add_sub_cancel, drop_left] at hin
        rw [mem_singleton.mp hin, byteLen_nil]
        exact zero_le _
      · rw [drop_length] at hin
        cases hin
  refine ⟨hall, ?_⟩
  rcases h.widest.names with hzero | ⟨row, hrow, hlen⟩
  · obtain ⟨first, more, hrows⟩ := exists_cons_of_ne_nil (rowsIn_ne_nil text)
    rw [hzero, hrows] at hall ⊢
    exact ⟨first, rfl, le_zero.mp (hall first mem_cons_self)⟩
  · rw [getElem?_take] at hrow
    split at hrow
    · exact ⟨row, hrow, hlen⟩
    · cases hrow

theorem pushLines_measured (hat : FragmentAt segments build.fragments fragmentIx fragment text)
    (hne : text ≠ []) {closed : List (List Char)} (hvisible : build.visibleLine = closed.length)
    (hmeasured : Measured build.widest closed 0) {start : ℕ} {lines : List (List Char)}
    {last : List Char} (hrows : (rowsIn text).drop start = lines ++ [last])
    (hhead : ∀ i < start, ∀ row, (rowsIn text)[i]? = some row → byteLen row ≤ build.widest.len) :
    Measured (build.updateWidestFromSourceSpan fragmentIx start lines.length) (closed ++ lines)
      (byteLen last) := by
  obtain ⟨hall, row, hrow, hlen⟩ := widest_row hat.reads
  have hmem : ∀ line ∈ lines, byteLen line ≤ fragment.widest.len := fun line hline =>
    hall line (mem_of_mem_drop (hrows ▸ mem_append_left [last] hline))
  have hcount : fragment.lineCount > 0 := by
    rw [hat.reads.count]
    have := (rowStart_inside (rowsIn_pos text)).mp (byteLen_pos.mpr hne)
    exact this
  have hdropped : ∀ {ix}, start ≤ ix → (lines ++ [last])[ix - start]? = (rowsIn text)[ix]? := by
    intro ix hix
    rw [← hrows, getElem?_drop, Nat.add_sub_cancel' hix]
  have hold : fragment.widest.len ≤ max build.widest.len (byteLen last) →
      Measured build.widest (closed ++ lines) (byteLen last) := by
    intro hwide
    refine ⟨fun other hother => ?_, hmeasured.names.imp_right fun ⟨found, hfound, hsame⟩ =>
      ⟨found, ?_, hsame⟩⟩
    · rcases List.mem_append.mp hother with hin | hin
      · have := hmeasured.bound other hin
        omega
      · exact (hmem other hin).trans hwide
    · rw [getElem?_append_left (List.getElem?_eq_some_iff.mp hfound).1, hfound]
  unfold updateWidestFromSourceSpan
  rw [hat.get, bind_some, ResolvedOutputFragment.widestLine, if_pos hcount]
  dsimp only
  split
  · rename_i houtside
    refine hold ?_
    by_cases hbefore : fragment.widest.ix < start
    · have := hhead _ hbefore row hrow
      omega
    · have hbehind := houtside.resolve_left hbefore
      have hlast := hdropped (Nat.le_of_not_lt hbefore)
      rw [hrow, getElem?_append_right (by omega)] at hlast
      obtain ⟨hix, hget⟩ := List.getElem?_eq_some_iff.mp hlast
      rw [getElem_singleton] at hget
      rw [← hlen, hget]
      exact le_max_right _ _
  · rename_i hinside
    rw [not_or, not_lt, ge_iff_le, not_le] at hinside
    have hline := hdropped hinside.1
    rw [hrow, getElem?_append_left (by omega)] at hline
    obtain ⟨hseen, hwide⟩ := le_see build.widest
      (build.visibleLine + (fragment.widest.ix - start)) (byteLen row)
    rw [← hlen]
    refine hmeasured.see lines ?_ (byteLen last) fun other hother => ?_
    · rw [hvisible, getElem?_append_right (le_add_right _ _), Nat.add_sub_cancel_left, hline]
    · rcases List.mem_append.mp hother with hin | hin
      · have := hmeasured.bound other hin
        omega
      · have := hmem other hin
        omega

def Fits (segments : List ConflictSegment) (build : ProjectionBuild) (rows : OutputRows) : Prop :=
  build.Shows segments rows ∧
    Measured build.widest (rows.closed.map Prod.fst) (byteLen rows.row)

theorem pushWholeLines_shows (h : build.Fits segments rows)
    (hat : FragmentAt segments build.fragments fragmentIx fragment text) (hne : text ≠ [])
    {first last : List Char} {middle : List (List Char)}
    (htext : rowsIn text = first :: (middle ++ [last])) (mark : Option ℕ) :
    (build.pushWholeLines segments fragmentIx (middle.length + 1) mark).Shows segments
      ⟨rows.closed ++ (rows.row ++ first, rows.mark.or mark) :: middle.map (·, mark), [], none⟩ ∧
    Measured (build.pushWholeLines segments fragmentIx (middle.length + 1) mark).widest
      (rows.closed.map Prod.fst ++ (rows.row ++ first) :: middle) (byteLen last) ∧
    (build.pushWholeLines segments fragmentIx (middle.length + 1) mark).fragments =
      build.fragments := by
  obtain ⟨hshows, hmeasured⟩ := h
  have hbounds := lineTotal_bounds text
  have hlength : (rowsIn text).length = middle.length + 2 := by
    rw [htext, length_cons, length_append, length_singleton]
  have hline : ∀ {i row}, i ≤ middle.length → (rowsIn text)[i]? = some row →
      FragmentLine segments build.fragments fragmentIx i row := fun hi hget =>
    ⟨fragment, text, hat, by omega, hget⟩
  have hfirst : (rowsIn text)[0]? = some first := by rw [htext]; rfl
  have hmiddle : ∀ (i : ℕ) line, middle[i]? = some line → (rowsIn text)[1 + i]? = some line := by
    intro i line hget
    rw [htext, add_comm, getElem?_cons_succ,
      getElem?_append_left (List.getElem?_eq_some_iff.mp hget).1, hget]
  unfold pushWholeLines
  by_cases hrow : rows.row = []
  · have hmark : rows.mark = none := by
      have hpending := hshows.pending
      cases hp : build.pending with
      | empty =>
        rw [hp] at hpending
        exact hpending.2
      | source fragmentIx lineIx conflictIx =>
        rw [hp] at hpending
        exact absurd hrow hpending.1
      | composed text conflictIx =>
        rw [hp] at hpending
        exact absurd hrow hpending.1
    rw [if_neg (mt (isPending_iff hshows).mp (not_not_intro hrow)), hrow, hmark]
    rw [hrow] at hmeasured
    have hlines : ∀ (i : ℕ) line, (first :: middle)[i]? = some line →
        FragmentLine segments build.fragments fragmentIx (0 + i) line := by
      intro i line hget
      have hi := (List.getElem?_eq_some_iff.mp hget).1
      rw [length_cons] at hi
      rw [zero_add]
      refine hline (by omega) ?_
      rw [htext, ← cons_append, getElem?_append_left (by simpa using hi), hget]
    refine ⟨pushLines_shows hshows hrow (first :: middle) hlines mark, ?_, rfl⟩
    have hdrop : (rowsIn text).drop 0 = (first :: middle) ++ [last] := by rw [htext]; rfl
    exact pushLines_measured hat hne (by rw [length_map, hshows.visibleLine]) hmeasured hdrop
      fun i hi => absurd hi (not_lt_zero i)
  · have hopen : rows.row ++ first ≠ [] := append_ne_nil_of_left_ne_nil hrow first
    obtain ⟨happend, hwidest, hfragments⟩ :=
      appendSourcePiece_shows hshows (hline (zero_le _) hfirst) hopen mark
    rw [if_pos ((isPending_iff hshows).mpr hrow)]
    have hclosed := finalizePendingLine_shows happend
    set appended := build.appendSourcePiece segments fragmentIx 0 mark
    have hgrows : byteLen rows.row ≤ byteLen (rows.row ++ first) := by
      rw [byteLen_append]
      exact le_add_right _ _
    have hclose : Measured (appended.finalizePendingLine segments).widest
        (rows.closed.map Prod.fst ++ [rows.row ++ first]) 0 := by
      have hall := finalizePendingLine_measured happend (hwidest ▸ hmeasured.widen hgrows)
      rwa [OutputRows.all, map_append] at hall
    have hkept : (appended.finalizePendingLine segments).fragments = build.fragments := hfragments
    have hjoin : ∀ {α : Type} (xs : List α) (x : α) (ys : List α),
        xs ++ [x] ++ ys = xs ++ x :: ys := fun xs x ys => by simp
    dsimp only
    split
    · have hlines : ∀ (i : ℕ) line, middle[i]? = some line → FragmentLine segments
          (appended.finalizePendingLine segments).fragments fragmentIx (1 + i) line := by
        intro i line hget
        have hi := (List.getElem?_eq_some_iff.mp hget).1
        rw [hkept]
        exact hline (by omega) (hmiddle i line hget)
      have hpush := pushLines_shows hclosed rfl middle hlines mark
      dsimp only at hpush
      rw [hjoin] at hpush
      have hat' : FragmentAt segments (appended.finalizePendingLine segments).fragments fragmentIx
          fragment text := by rwa [hkept]
      have hdrop : (rowsIn text).drop 1 = middle ++ [last] := by rw [htext]; rfl
      have hpushed := pushLines_measured hat' hne
        (by rw [hclosed.visibleLine]; simp) hclose hdrop ?_
      · rw [hjoin] at hpushed
        exact ⟨hpush, hpushed, hkept⟩
      · intro i hi row hget
        obtain rfl := lt_one_iff.mp hi
        obtain rfl := some.inj (hfirst.symm.trans hget)
        have hwide := hclose.bound (rows.row ++ first) (mem_append_right _ (mem_singleton_self _))
        rw [byteLen_append, max_zero] at hwide
        omega
    · rename_i hone
      obtain rfl : middle = [] := length_eq_zero_iff.mp (by omega)
      exact ⟨hclosed, hclose.widen (zero_le _), hkept⟩

theorem pushFragmentLines_fits (h : build.Fits segments rows)
    (hat : FragmentAt segments build.fragments fragmentIx fragment text) (hne : text ≠ [])
    (mark : Option ℕ) :
    (build.pushFragmentLines segments fragmentIx fragment mark).Fits segments
      (rows.write (text.map (mark, ·))) := by
  have hcount := hat.reads.newlines
  have hbounds := lineTotal_bounds text
  obtain ⟨first, tail, htext⟩ := exists_cons_of_ne_nil (rowsIn_ne_nil text)
  unfold pushFragmentLines
  rcases eq_nil_or_concat tail with rfl | ⟨middle, last, rfl⟩
  · obtain ⟨hsolid, ⟨-, rfl⟩ | ⟨rest, -, hrest⟩⟩ := rowsIn_head htext
    · have htotal := (rowStart_inside (rowsIn_pos text)).mp (byteLen_pos.mpr hne)
      have hline : FragmentLine segments build.fragments fragmentIx 0 text :=
        ⟨fragment, text, hat, htotal, by rw [htext]; rfl⟩
      obtain ⟨happend, hwidest, -⟩ := appendSourcePiece_shows h.1 hline
        (append_ne_nil_of_right_ne_nil rows.row hne) mark
      rw [if_pos (by rw [hcount, htext]; rfl), OutputRows.write_row hsolid hne]
      refine ⟨happend, ?_⟩
      rw [hwidest]
      exact h.2.widen (by rw [byteLen_append]; exact le_add_right _ _)
    · exact absurd hrest (rowsIn_ne_nil rest)
  · rw [concat_eq_append] at htext
    have hnewlines : fragment.newlineCount = middle.length + 1 := by
      rw [hcount, htext, length_cons, length_append, length_singleton]
      rfl
    have hends : fragment.endsWithNewline ↔ last = [] := by
      rw [hat.reads.ends, htext, ← cons_append, getLast?_concat, some_inj]
    obtain ⟨hwhole, hmeasured, hfragments⟩ := pushWholeLines_shows h hat hne htext mark
    rw [hnewlines, if_neg (succ_ne_zero _), OutputRows.write_text htext]
    have hrows : (rows.closed ++ (rows.row ++ first, rows.mark.or mark) ::
        middle.map (·, mark)).map Prod.fst =
          rows.closed.map Prod.fst ++ (rows.row ++ first) :: middle := by
      simp [Function.comp_def]
    dsimp only
    by_cases hempty : last = []
    · rw [if_pos (hends.mpr hempty), if_pos hempty]
      refine ⟨?_, ?_⟩
      · rw [hempty]
        exact hwhole
      · rw [hrows]
        exact hmeasured
    · rw [if_neg (mt hends.mp hempty), if_neg hempty]
      have hlast : (rowsIn text)[middle.length + 1]? = some last := by
        rw [htext, getElem?_cons_succ, getElem?_concat_length]
      have htotal : middle.length + 1 < lineTotal (rowsIn text) := by
        have hlen : (rowsIn text).length - 1 = middle.length + 1 := hcount ▸ hnewlines
        have hlast' := hlast
        rw [← hlen] at hlast'
        have hpos := rowsIn_pos text
        rw [lineTotal_last hlast', if_neg hempty]
        omega
      refine ⟨⟨hwhole.visibleLine, ⟨hempty, rfl, ?_⟩, hwhole.spans, hwhole.ranges⟩, ?_⟩
      · rw [hfragments]
        exact ⟨fragment, text, hat, htotal, hlast⟩
      · rw [hrows]
        exact hmeasured

theorem pushSource_fits (h : build.Fits segments rows) {source : FragmentSource}
    (hsource : source.sourceText segments = some text) (hreadable : Readable text)
    (mark : Option ℕ) :
    (build.pushSource segments mark source text).Fits segments
      (rows.write (text.map (mark, ·))) := by
  unfold pushSource
  split
  · rename_i hempty
    rw [List.isEmpty_iff.mp hempty]
    exact h
  · rename_i hempty
    rw [List.isEmpty_iff] at hempty
    obtain ⟨hshows, hmeasured⟩ := h
    have hpushed : (build.pushFragment source text).Fits segments rows := by
      refine ⟨⟨hshows.visibleLine, ?_, hshows.spans.push _, hshows.ranges⟩, hmeasured⟩
      have hpending := hshows.pending
      show PendingLine.Shows segments (build.fragments ++ [fragmentOf source text]) rows
        build.pending
      cases hp : build.pending with
      | empty =>
        rw [hp] at hpending
        exact hpending
      | source fragmentIx lineIx conflictIx =>
        rw [hp] at hpending
        exact ⟨hpending.1, hpending.2.1, hpending.2.2.push _⟩
      | composed text conflictIx =>
        rw [hp] at hpending
        exact hpending
    exact pushFragmentLines_fits hpushed
      ⟨getElem?_concat_length, hsource, fragmentOf_reads source hempty hreadable⟩ hempty mark

theorem pushSources_fits (mark : Option ℕ) (sources : List (FragmentSource × List Char))
    (hsources : ∀ piece ∈ sources, piece.1.sourceText segments = some piece.2 ∧ Readable piece.2)
    (h : build.Fits segments rows) :
    (sources.foldl (fun build piece => build.pushSource segments mark piece.1 piece.2) build).Fits
      segments (rows.write ((sources.flatMap Prod.snd).map (mark, ·))) := by
  induction sources generalizing build rows with
  | nil => exact h
  | cons piece sources ih =>
    rw [forall_mem_cons] at hsources
    rw [flatMap_cons, map_append, OutputRows.write_append]
    exact ih hsources.2 (pushSource_fits h hsources.1.1 hsources.1.2 mark)

end ProjectionBuild

def outputTexts : ConflictSegment → List (List Char)
  | .text content => [content]
  | .block block => (fragmentSources 0 block).map Prod.snd

def OutputReadable (segments : List ConflictSegment) : Prop :=
  ∀ segment ∈ segments, ∀ text ∈ outputTexts segment, Readable text

section
variable {segments : List ConflictSegment} {block : ConflictBlock}

theorem fragmentSources_texts (segmentIx : ℕ) (block : ConflictBlock) :
    (fragmentSources segmentIx block).flatMap Prod.snd = block.generated ∧
      (fragmentSources segmentIx block).map Prod.snd = (fragmentSources 0 block).map Prod.snd := by
  unfold fragmentSources ConflictBlock.generated
  split
  · exact ⟨flatMap_singleton _ _, rfl⟩
  · rw [ConflictBlock.pickedText]
    induction block.choice.sources with
    | nil => exact ⟨rfl, rfl⟩
    | cons source sources ih =>
      rw [filterMap_cons, filterMap_cons, flatMap_cons, ← ih.1]
      cases source with
      | ours => exact ⟨rfl, congrArg (cons block.ours) ih.2⟩
      | theirs => exact ⟨rfl, congrArg (cons block.theirs) ih.2⟩
      | base =>
        cases hbase : block.base with
        | none =>
          simp [resolvedOutputBlockSourceFragment, sourceText, ConflictBlock.sides, hbase, ih.2]
        | some base =>
          simp [resolvedOutputBlockSourceFragment, sourceText, ConflictBlock.sides, hbase, ih.2]

theorem fragmentSources_read {segmentIx : ℕ} (hat : segments[segmentIx]? = some (.block block)) :
    ∀ piece ∈ fragmentSources segmentIx block, piece.1.sourceText segments = some piece.2 := by
  intro piece hpiece
  unfold fragmentSources at hpiece
  split at hpiece
  · rw [mem_singleton.mp hpiece]
    rfl
  · obtain ⟨source, -, hsource⟩ := mem_filterMap.mp hpiece
    cases source with
    | base =>
      obtain ⟨base, hbase, rfl⟩ := map_eq_some_iff.mp hsource
      simp only [FragmentSource.sourceText, hat, hbase, getD_some]
    | ours =>
      cases hsource
      simp only [FragmentSource.sourceText, hat]
    | theirs =>
      cases hsource
      simp only [FragmentSource.sourceText, hat]

theorem walk_fits (hreadable : OutputReadable segments) (back : List ConflictSegment) :
    ∀ (front : List ConflictSegment), segments = front ++ back → ∀ (walk : SegmentWalk) rows,
      walk.build.Fits segments rows →
        ((back.zipIdx front.length).foldl (SegmentWalk.push segments) walk).build.Fits segments
          (rows.write (marked walk.blockIx back)) := by
  induction back with
  | nil => exact fun _ _ _ _ h => h
  | cons segment back ih =>
    intro front hsegments walk rows hfits
    have hat : segments[front.length]? = some segment := by
      rw [hsegments, getElem?_append_right (le_refl _), Nat.sub_self]
      rfl
    have hread := hreadable segment (hsegments ▸ mem_append_right _ mem_cons_self)
    have hnext := ih (front ++ [segment]) (by rw [hsegments]; simp)
    rw [length_append, length_singleton] at hnext
    rw [zipIdx_cons, foldl_cons]
    cases segment with
    | text content =>
      rw [marked, OutputRows.write_append]
      refine hnext _ _ (ProjectionBuild.pushSource_fits hfits ?_ ?_ none)
      · simp only [FragmentSource.sourceText, hat]
      · exact hread content (mem_singleton_self _)
    | block block =>
      obtain ⟨hgenerated, htexts⟩ := fragmentSources_texts front.length block
      rw [marked, OutputRows.write_append, ← hgenerated]
      refine hnext ⟨_, walk.blockIx + 1, _⟩ _ (ProjectionBuild.pushSources_fits _ _
        (fun piece hpiece => ⟨fragmentSources_read hat piece hpiece, hread piece.2 ?_⟩) hfits)
      rw [outputTexts, ← htexts]
      exact mem_map_of_mem hpiece

end

end GitComet.Resolver
