import GitComet.TextInput.HighlightRuns

namespace GitComet.TextInput
open List Option Nat ByteOrder Kit Slice HighlightCursor

variable {Style Paint : Type}

structure LineShown (paint : Option Style → Paint) (highlights : List (Highlight Style))
    (lineStart len : ℕ) (runs : List (TextRun Paint)) : Prop where
  total : (runs.map TextRun.len).sum = len
  nonempty : ∀ run ∈ runs, 0 < run.len
  styles : ∀ byte < len, paintAt runs byte =
    some (paint ((lastListed highlights (lineStart + byte)).map Highlight.style))

def WindowShown (paint : Option Style → Paint) (text : Bytes) (visible : Range)
    (highlights : List (Highlight Style)) : Prop :=
  let starts := computeLineStarts text
  ∀ lineIx, visible.start ≤ lineIx → lineIx < visible.stop →
    let capped := cappedLineText text starts lineIx
    let lineStart := (starts[lineIx]?).getD 0
    capped ≠ [] →
      (∃ runs, (buildStreamedHighlightRunsForVisibleWindow paint text starts visible
          highlights)[lineIx - visible.start]? = some runs ∧
        LineShown paint highlights lineStart capped.length runs) ∧
      LineShown paint highlights lineStart capped.length
        (runsForLine paint lineStart capped (some highlights))

def coldTop (highlights : List (Highlight Style)) (offset x : ℕ) : Option (Highlight Style) :=
  ((highlights.filter (·.startsBefore offset)).rtakeWhile (·.endsAfter offset)).find?
    (·.endsAfter x)

def ColdStartHolds (paint : Option Style → Paint) (highlights : List (Highlight Style))
    (offset x : ℕ) : Prop :=
  (∀ highlight ∈ highlights, offset ≤ highlight.range.start → highlight.covers x = false) →
    paint ((coldTop highlights offset x).map Highlight.style) =
      paint ((lastListed highlights x).map Highlight.style)

section
variable {paint : Option Style → Paint} {highlights : List (Highlight Style)} {offset x : ℕ}

theorem passed_start {highlight : Highlight Style}
    (h : highlight ∈ highlights.takeWhile (·.startsBefore offset)) :
    highlight.range.start < offset :=
  of_decide_eq_true (mem_takeWhile_imp (p := Highlight.startsBefore offset) h)

section
variable (h : SortedByStart highlights)
include h

theorem newAtOffset_ahead (offset : ℕ) :
    ∀ next ∈ (newAtOffset highlights offset).upcoming, offset ≤ next.range.start := by
  refine start_le_of_head (h.sublist (dropWhile_sublist _)) fun next hhead => ?_
  have hstart := head?_dropWhile_not (Highlight.startsBefore offset) highlights
  have hfirst : (highlights.dropWhile (Highlight.startsBefore offset)).head? = some next := hhead
  rw [hfirst] at hstart
  exact not_lt.mp (of_decide_eq_false hstart)

theorem newAtOffset_at (offset : ℕ) : (newAtOffset highlights offset).At offset :=
  ⟨h.sublist (dropWhile_sublist _), fun _ hmem =>
    of_decide_eq_true (mem_takeWhile_imp (p := Highlight.endsAfter offset) hmem)⟩

theorem takeWhile_startsBefore (offset : ℕ) :
    highlights.takeWhile (·.startsBefore offset) = highlights.filter (·.startsBefore offset) := by
  have hsplit : highlights.takeWhile (·.startsBefore offset) ++
      highlights.dropWhile (·.startsBefore offset) = highlights := takeWhile_append_dropWhile
  have hbefore : (highlights.takeWhile (·.startsBefore offset)).filter (·.startsBefore offset) =
      highlights.takeWhile (·.startsBefore offset) :=
    filter_eq_self.mpr fun _ hmem => mem_takeWhile_imp hmem
  have hlate : (highlights.dropWhile (·.startsBefore offset)).filter (·.startsBefore offset) = [] :=
    filter_eq_nil_iff.mpr fun next hmem hbefore =>
      absurd (of_decide_eq_true hbefore) (not_lt.mpr (newAtOffset_ahead h offset next hmem))
  calc highlights.takeWhile (·.startsBefore offset)
      = (highlights.takeWhile (·.startsBefore offset)).filter (·.startsBefore offset) ++
          (highlights.dropWhile (·.startsBefore offset)).filter (·.startsBefore offset) := by
        rw [hbefore, hlate, append_nil]
    _ = highlights.filter (·.startsBefore offset) := by rw [← filter_append, hsplit]

theorem cold_active (offset x : ℕ) :
    ((newAtOffset highlights offset).active.filter (·.endsAfter x)).getLast? =
      coldTop highlights offset x := by
  rw [newAtOffset, coldTop, ← takeWhile_startsBefore h, List.rtakeWhile, getLast?_filter]

end

theorem cold_lastListed (hx : offset ≤ x) :
    lastListed highlights x =
      ((newAtOffset highlights offset).upcoming.filter (·.covers x)).getLast?.or
        ((highlights.takeWhile (·.startsBefore offset)).filter (·.endsAfter x)).getLast? := by
  have hcovers : (highlights.takeWhile (·.startsBefore offset)).filter (·.covers x) =
      (highlights.takeWhile (·.startsBefore offset)).filter (·.endsAfter x) :=
    filter_congr fun highlight hmem => covers_of_begun ((passed_start hmem).le.trans hx)
  rw [lastListed, ← hcovers, newAtOffset, ← getLast?_append, ← filter_append,
    takeWhile_append_dropWhile]

theorem cold_shown (h : SortedByStart highlights) (offset x : ℕ) :
    (newAtOffset highlights offset).shown x =
      ((newAtOffset highlights offset).upcoming.filter (·.covers x)).getLast?.or
        (coldTop highlights offset x) := by
  rw [shown, getLast?_append, cold_active h]

theorem coldStart_iff (h : SortedByStart highlights) (hx : offset ≤ x) :
    (newAtOffset highlights offset).paintShown paint x =
        paint ((lastListed highlights x).map Highlight.style) ↔
      ColdStartHolds paint highlights offset x := by
  cases hlater : ((newAtOffset highlights offset).upcoming.filter (·.covers x)).getLast? with
  | some later =>
    have hmem := mem_filter.mp (mem_of_getLast? hlater)
    have hin : later ∈ highlights := (dropWhile_sublist _).subset hmem.1
    refine ⟨fun _ hnone => ?_, fun _ => ?_⟩
    · have hcovers := hnone later hin (newAtOffset_ahead h offset later hmem.1)
      exact absurd (hcovers.symm.trans hmem.2) Bool.false_ne_true
    · rw [paintShown, cold_shown h, cold_lastListed hx, hlater]
      rfl
  | none =>
    have hnone : ∀ highlight ∈ highlights, offset ≤ highlight.range.start →
        highlight.covers x = false := by
      intro highlight hmem hstart
      rw [← takeWhile_append_dropWhile (p := Highlight.startsBefore offset) (l := highlights)]
        at hmem
      rcases mem_append.mp hmem with hpassed | hahead
      · exact absurd hstart (not_le.mpr (passed_start hpassed))
      · exact Bool.eq_false_iff.mpr (filter_eq_nil_iff.mp
          (getLast?_eq_none_iff.mp hlater) highlight hahead)
    rw [paintShown, cold_shown h, hlater, none_or]
    exact ⟨fun heq _ => heq, fun hholds => hholds hnone⟩

end

theorem lineShown_iff {paint : Option Style → Paint} {highlights : List (Highlight Style)}
    {expected : ℕ → Paint} {lineStart len : ℕ} {runs : List (TextRun Paint)}
    (h : Paints expected (lineStart + len) lineStart runs) :
    LineShown paint highlights lineStart len runs ↔ ∀ byte < len, expected (lineStart + byte) =
        paint ((lastListed highlights (lineStart + byte)).map Highlight.style) := by
  constructor
  · intro hshown byte hbyte
    have hat := hshown.styles byte hbyte
    rw [paints_at h (Nat.add_lt_add_left hbyte lineStart), some.injEq] at hat
    exact hat
  · intro hsame
    refine ⟨add_left_cancel (paints_total h), paints_nonempty h, fun byte hbyte => ?_⟩
    rw [paints_at h (Nat.add_lt_add_left hbyte lineStart), hsame byte hbyte]

section
variable {text : Bytes} {lineIx laterIx start next : ℕ}

theorem lt_laterLineStarts {ix : ℕ} : ∀ start ∈ laterLineStarts ix text, ix < start := by
  induction text generalizing ix with
  | nil => exact fun _ hmem => absurd hmem not_mem_nil
  | cons byte text ih =>
    rw [laterLineStarts]
    split_ifs
    · intro start hmem
      rcases mem_cons.mp hmem with rfl | hmem
      · exact lt_succ_self ix
      · exact lt_of_succ_lt (ih start hmem)
    · exact fun start hmem => lt_of_succ_lt (ih start hmem)

theorem laterLineStarts_sorted {ix : ℕ} : (laterLineStarts ix text).Pairwise (· < ·) := by
  induction text generalizing ix with
  | nil => exact .nil
  | cons byte text ih =>
    rw [laterLineStarts]
    split_ifs
    · exact .cons lt_laterLineStarts ih
    · exact ih

theorem computeLineStarts_le (h : lineIx ≤ laterIx) (hstart : (computeLineStarts text)[lineIx]? =
    some start) (hnext : (computeLineStarts text)[laterIx]? = some next) : start ≤ next := by
  have hsorted : (computeLineStarts text).Pairwise (· < ·) :=
    .cons lt_laterLineStarts laterLineStarts_sorted
  rcases lt_or_eq_of_le h with hlt | rfl
  · obtain ⟨hix, rfl⟩ := List.getElem?_eq_some_iff.mp hstart
    obtain ⟨hlater, rfl⟩ := List.getElem?_eq_some_iff.mp hnext
    exact (List.pairwise_iff_getElem.mp hsorted lineIx laterIx hix hlater hlt).le
  · rw [hstart, some.injEq] at hnext
    exact hnext.le

theorem length_withoutTerminator_le (line : Bytes) :
    (withoutTerminator line).length ≤ line.length := by
  rw [withoutTerminator]
  split_ifs
  · rw [length_dropLast, length_dropLast]
    omega
  · rw [length_dropLast]
    omega
  · exact le_refl _

theorem charBoundaryAtOrBefore_le (line : Bytes) (stop : ℕ) :
    charBoundaryAtOrBefore line stop ≤ stop := by
  induction stop with
  | zero => exact le_refl _
  | succ stop ih =>
    rw [charBoundaryAtOrBefore]
    split_ifs
    · exact ih.trans (le_succ _)
    · exact le_refl _

theorem length_buildShapingLineSlice_le (line : Bytes) :
    (buildShapingLineSlice line textInputMaxLineShapeBytes).length ≤ line.length := by
  rw [buildShapingLineSlice]
  split_ifs with hfits
  · exact le_refl _
  · have hboundary := charBoundaryAtOrBefore_le line
      (min (textInputMaxLineShapeBytes - textInputTruncationSuffix.length) line.length)
    have hsuffix : textInputTruncationSuffix.length = 3 := rfl
    have hmax : textInputMaxLineShapeBytes = 4096 := rfl
    rw [length_append, length_take]
    omega

theorem capped_nil_of_none {starts : List ℕ} (h : starts[lineIx]? = none) :
    cappedLineText text starts lineIx = [] := by
  rw [cappedLineText, lineTextForIndex, h]
  rfl

theorem capped_within {starts : List ℕ} (hstart : starts[lineIx]? = some start)
    (hnext : starts[lineIx + 1]? = some next) (hle : start ≤ next) :
    start + (cappedLineText text starts lineIx).length ≤ next := by
  have hcapped := length_buildShapingLineSlice_le (lineTextForIndex text starts lineIx)
  have hline : (lineTextForIndex text starts lineIx).length ≤ next - start := by
    rw [lineTextForIndex, hstart, hnext, getD_some]
    dsimp only
    split_ifs
    · exact zero_le _
    · refine (length_withoutTerminator_le _).trans ?_
      rw [slice]
      exact (length_take_le _ _).trans (Nat.sub_le_sub_right (min_le_left _ _) _)
  rw [cappedLineText]
  omega

theorem lines_apart (h : lineIx < laterIx)
    (hline : cappedLineText text (computeLineStarts text) laterIx ≠ []) :
    ((computeLineStarts text)[lineIx]?).getD 0 +
        (cappedLineText text (computeLineStarts text) lineIx).length ≤
      ((computeLineStarts text)[laterIx]?).getD 0 := by
  cases hlater : (computeLineStarts text)[laterIx]? with
  | none => exact absurd (capped_nil_of_none hlater) hline
  | some later =>
    obtain ⟨hlength, -⟩ := List.getElem?_eq_some_iff.mp hlater
    have hstart := getElem?_eq_getElem (h.trans hlength)
    have hnext := getElem?_eq_getElem (lt_of_le_of_lt h hlength)
    rw [hstart, getD_some, getD_some]
    exact (capped_within hstart hnext (computeLineStarts_le (le_succ _) hstart hnext)).trans
      (computeLineStarts_le h hnext hlater)

end

section
variable {paint : Option Style → Paint} {text : Bytes} {starts lines : List ℕ}
  {cursor : HighlightCursor Style} {expected : ℕ → Option (Highlight Style)} {bound : ℕ}

theorem runsForLines_paints (hsorted : SortedByStart cursor.upcoming)
    (hordered : ∀ next ∈ cursor.upcoming, next.range.start ≤ next.range.stop)
    (hshown : ∀ x, bound ≤ x → cursor.shown x = expected x)
    (hahead : ∀ lineIx ∈ lines, cappedLineText text starts lineIx ≠ [] →
      bound ≤ (starts[lineIx]?).getD 0)
    (hapart : lines.Pairwise fun lineIx laterIx => cappedLineText text starts laterIx ≠ [] →
      (starts[lineIx]?).getD 0 + (cappedLineText text starts lineIx).length ≤
        (starts[laterIx]?).getD 0) {ix lineIx : ℕ} (hix : lines[ix]? = some lineIx)
    (hline : cappedLineText text starts lineIx ≠ []) :
    ∃ runs, (runsForLines paint text starts lines cursor)[ix]? = some runs ∧
      Paints (fun x => paint ((expected x).map Highlight.style))
        ((starts[lineIx]?).getD 0 + (cappedLineText text starts lineIx).length)
        ((starts[lineIx]?).getD 0) runs := by
  induction lines generalizing cursor bound ix with
  | nil => cases hix
  | cons first lines ih =>
    obtain ⟨hfirst, hrest⟩ := pairwise_cons.mp hapart
    have hlater : ∀ laterIx ∈ lines, cappedLineText text starts laterIx ≠ [] →
        bound ≤ (starts[laterIx]?).getD 0 :=
      fun laterIx hmem => hahead laterIx (mem_cons_of_mem _ hmem)
    rw [runsForLines]
    dsimp only
    by_cases hempty : cappedLineText text starts first = []
    · rw [hempty]
      cases ix with
      | zero =>
        cases hix
        exact absurd hempty hline
      | succ ix => exact ih hsorted hordered hshown hlater hrest hix
    · have hpos : 0 < (cappedLineText text starts first).length := length_pos_iff.mpr hempty
      have hnotEmpty : ¬(cappedLineText text starts first).isEmpty :=
        fun hnil => hempty (List.isEmpty_iff.mp hnil)
      have hbound := hahead first mem_cons_self hempty
      rw [if_neg hnotEmpty]
      generalize hstart : (starts[first]?).getD 0 = lineStart at hbound ⊢
      generalize hend : lineStart + (cappedLineText text starts first).length = lineEnd
      have hlt : lineStart < lineEnd := hend ▸ Nat.lt_add_of_pos_right hpos
      have hafter : ∀ laterIx ∈ lines, cappedLineText text starts laterIx ≠ [] →
          lineEnd ≤ (starts[laterIx]?).getD 0 := by
        intro laterIx hmem hcapped
        have happart := hfirst laterIx hmem hcapped
        rw [hstart, hend] at happart
        exact happart
      have hat : (cursor.advanceToLineStart lineStart).At lineStart := advance_at hsorted
      have hsuffix : (cursor.advanceToLineStart lineStart).upcoming <:+ cursor.upcoming :=
        absorb_suffix
      have hwhole : ∀ next ∈ (cursor.advanceToLineStart lineStart).upcoming,
          next.range.start ≤ next.range.stop := fun next hmem => hordered next (hsuffix.subset hmem)
      have hsame : ∀ x, lineStart ≤ x →
          (cursor.advanceToLineStart lineStart).shown x = expected x :=
        fun x hx => (advance_shown hx).trans (hshown x (hbound.trans hx))
      have hpaint : ∀ x, lineStart ≤ x → (cursor.advanceToLineStart lineStart).paintShown paint x =
            paint ((expected x).map Highlight.style) :=
        fun x hx => congrArg (fun top => paint (Option.map Highlight.style top)) (hsame x hx)
      cases hsimple : (cursor.advanceToLineStart lineStart).appendSimpleRunsForLine paint
        lineStart lineEnd with
      | some runs =>
        cases ix with
        | zero =>
          cases hix
          rw [hstart, hend]
          exact ⟨runs, rfl, paints_congr
            (simpleRuns_paints hat (advance_ahead hsorted) hwhole hlt hsimple) hpaint⟩
        | succ ix =>
          exact ih hat.sorted hwhole (fun x hx => hsame x (hlt.le.trans hx)) hafter hrest hix
      | none =>
        obtain ⟨hpaints, hcontinues⟩ := appendRuns_paints paint hat hlt.le
        cases ix with
        | zero =>
          cases hix
          rw [hstart, hend]
          exact ⟨_, rfl, paints_congr hpaints hpaint⟩
        | succ ix =>
          exact ih (hat.sorted.sublist hcontinues.suffix.sublist)
            (fun next hmem => hwhole next (hcontinues.suffix.subset hmem))
            (fun x hx => (hcontinues.shown x hx).trans (hsame x (hlt.le.trans hx))) hafter hrest hix

theorem runsForLine_paints {highlights : List (Highlight Style)} {lineText : Bytes} {lineStart : ℕ}
    (hsorted : SortedByStart highlights)
    (hordered : ∀ highlight ∈ highlights, highlight.range.start ≤ highlight.range.stop)
    (hline : lineText ≠ []) :
    Paints ((newAtOffset highlights lineStart).paintShown paint) (lineStart + lineText.length)
      lineStart (runsForLine paint lineStart lineText (some highlights)) := by
  have hpos : 0 < lineText.length := length_pos_iff.mpr hline
  have hlt : lineStart < lineStart + lineText.length := Nat.lt_add_of_pos_right hpos
  have hnotEmpty : ¬lineText.isEmpty := fun hnil => hline (List.isEmpty_iff.mp hnil)
  have hat := newAtOffset_at hsorted lineStart
  have hwhole : ∀ next ∈ (newAtOffset highlights lineStart).upcoming,
      next.range.start ≤ next.range.stop :=
    fun next hmem => hordered next ((dropWhile_sublist _).subset hmem)
  rw [runsForLine, if_neg hnotEmpty]
  dsimp only
  cases hsimple : (newAtOffset highlights lineStart).appendSimpleRunsForLine paint lineStart
    (lineStart + lineText.length) with
  | some runs =>
    exact simpleRuns_paints hat (newAtOffset_ahead hsorted lineStart) hwhole hlt hsimple
  | none =>
    refine paints_congr (appendRuns_paints paint (advance_at hat.sorted) hlt.le).1 fun x hx => ?_
    rw [paintShown, advance_shown hx]
    rfl

end

def ColdStartsHold (paint : Option Style → Paint) (text : Bytes) (visible : Range)
    (highlights : List (Highlight Style)) : Prop :=
  let starts := computeLineStarts text
  ∀ lineIx, visible.start ≤ lineIx → lineIx < visible.stop →
    let lineStart := (starts[lineIx]?).getD 0
    ∀ byte < (cappedLineText text starts lineIx).length,
      ColdStartHolds paint highlights ((starts[visible.start]?).getD 0) (lineStart + byte) ∧
        ColdStartHolds paint highlights lineStart (lineStart + byte)

section
variable {paint : Option Style → Paint} {text : Bytes} {visible : Range}
  {highlights : List (Highlight Style)} {lineIx : ℕ}

theorem firstStart_le (hfirst : visible.start ≤ lineIx)
    (hcapped : cappedLineText text (computeLineStarts text) lineIx ≠ []) :
    ((computeLineStarts text)[visible.start]?).getD 0 ≤
      ((computeLineStarts text)[lineIx]?).getD 0 := by
  rcases lt_or_eq_of_le hfirst with hlt | rfl
  · exact (le_add_right _ _).trans (lines_apart hlt hcapped)
  · exact le_refl _

theorem window_line_paints (hsorted : SortedByStart highlights)
    (hordered : ∀ highlight ∈ highlights, highlight.range.start ≤ highlight.range.stop)
    (hfirst : visible.start ≤ lineIx) (hlast : lineIx < visible.stop)
    (hcapped : cappedLineText text (computeLineStarts text) lineIx ≠ []) :
    ∃ runs, (buildStreamedHighlightRunsForVisibleWindow paint text (computeLineStarts text)
        visible highlights)[lineIx - visible.start]? = some runs ∧ Paints ((newAtOffset highlights
          (((computeLineStarts text)[visible.start]?).getD 0)).paintShown paint)
        (((computeLineStarts text)[lineIx]?).getD 0 +
          (cappedLineText text (computeLineStarts text) lineIx).length)
        (((computeLineStarts text)[lineIx]?).getD 0) runs := by
  have hvisible : ¬visible.stop ≤ visible.start := by omega
  have hix : (range' visible.start (visible.stop - visible.start))[lineIx - visible.start]? =
      some lineIx := by
    rw [getElem?_range' (by omega), one_mul, Nat.add_sub_cancel' hfirst]
  have hahead : ∀ laterIx ∈ range' visible.start (visible.stop - visible.start),
      cappedLineText text (computeLineStarts text) laterIx ≠ [] →
        ((computeLineStarts text)[visible.start]?).getD 0 ≤
          ((computeLineStarts text)[laterIx]?).getD 0 :=
    fun laterIx hmem hlater => firstStart_le (mem_range'_1.mp hmem).1 hlater
  have hapart : (range' visible.start (visible.stop - visible.start)).Pairwise
      fun lineIx laterIx => cappedLineText text (computeLineStarts text) laterIx ≠ [] →
        ((computeLineStarts text)[lineIx]?).getD 0 +
            (cappedLineText text (computeLineStarts text) lineIx).length ≤
          ((computeLineStarts text)[laterIx]?).getD 0 :=
    (pairwise_lt_range' 1 one_pos).imp fun hlt => lines_apart hlt
  rw [buildStreamedHighlightRunsForVisibleWindow, if_neg hvisible]
  exact runsForLines_paints (newAtOffset_at hsorted _).sorted
    (fun next hmem => hordered next ((dropWhile_sublist _).subset hmem))
    (fun _ _ => rfl) hahead hapart hix hcapped

end

theorem window_shown_iff (paint : Option Style → Paint) (text : Bytes) (visible : Range)
    (highlights : List (Highlight Style)) (hsorted : SortedByStart highlights)
    (hordered : ∀ highlight ∈ highlights, highlight.range.start ≤ highlight.range.stop) :
    WindowShown paint text visible highlights ↔ ColdStartsHold paint text visible highlights := by
  constructor
  · intro hshown lineIx hfirst hlast lineStart byte hbyte
    have hcapped : cappedLineText text (computeLineStarts text) lineIx ≠ [] :=
      length_pos_iff.mp (zero_lt_of_lt hbyte)
    obtain ⟨runs, hruns, hpaints⟩ := window_line_paints hsorted hordered hfirst hlast hcapped
    obtain ⟨⟨runs', hruns', hstreamed⟩, hown⟩ := hshown lineIx hfirst hlast hcapped
    rw [hruns, some.injEq] at hruns'
    subst hruns'
    have hbound := (firstStart_le hfirst hcapped).trans (le_add_right _ byte)
    exact ⟨(coldStart_iff hsorted hbound).mp ((lineShown_iff hpaints).mp hstreamed byte hbyte),
      (coldStart_iff hsorted (le_add_right _ _)).mp
        ((lineShown_iff (runsForLine_paints hsorted hordered hcapped)).mp hown byte hbyte)⟩
  · intro hholds lineIx hfirst hlast capped lineStart hcapped
    obtain ⟨runs, hruns, hpaints⟩ := window_line_paints hsorted hordered hfirst hlast hcapped
    refine ⟨⟨runs, hruns, (lineShown_iff hpaints).mpr fun byte hbyte => ?_⟩,
      (lineShown_iff (runsForLine_paints hsorted hordered hcapped)).mpr fun byte hbyte => ?_⟩
    · exact (coldStart_iff hsorted ((firstStart_le hfirst hcapped).trans
        (le_add_right _ byte))).mpr (hholds lineIx hfirst hlast byte hbyte).1
    · exact (coldStart_iff hsorted (le_add_right _ _)).mpr
        (hholds lineIx hfirst hlast byte hbyte).2

def nestedHighlights : List (Highlight ℕ) := [⟨⟨0, 5⟩, 1⟩, ⟨⟨0, 1⟩, 2⟩]

def twoLines : Bytes := [97, 97, 10, 97, 97]

theorem nested_cold_start :
    SortedByStart nestedHighlights ∧
    (∀ highlight ∈ nestedHighlights, highlight.range.start ≤ highlight.range.stop) ∧
    (WindowShown id twoLines ⟨0, 1⟩ nestedHighlights ↔
      ColdStartsHold id twoLines ⟨0, 1⟩ nestedHighlights) := by
  have hsorted : SortedByStart nestedHighlights := by
    rw [SortedByStart, nestedHighlights]
    decide
  exact ⟨hsorted, by decide,
    window_shown_iff id twoLines ⟨0, 1⟩ nestedHighlights hsorted (by decide)⟩

theorem cold_start_loses_the_outer_highlight :
    ¬∀ highlights : List (Highlight ℕ), SortedByStart highlights →
      (∀ highlight ∈ highlights, highlight.range.start ≤ highlight.range.stop) →
        ∀ text visible, WindowShown id text visible highlights := by
  intro hshown
  have hsorted : SortedByStart nestedHighlights := by
    rw [SortedByStart, nestedHighlights]
    decide
  have hline := hshown nestedHighlights hsorted (by decide) twoLines ⟨1, 2⟩ 1 (le_refl _)
    (by decide) (by decide)
  have hstyle := hline.2.styles 0 (by decide)
  exact absurd hstyle (by decide)

end GitComet.TextInput
