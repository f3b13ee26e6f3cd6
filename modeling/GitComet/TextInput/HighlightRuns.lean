import GitComet.Basis.ByteOrder
import GitComet.Basis.Slice
import GitComet.Kit.Rope
import Mathlib.Data.List.DropRight

namespace GitComet.TextInput
open List Nat ByteOrder Kit Slice Option Bool

structure Highlight (Style : Type) where
  range : Range
  style : Style
  deriving DecidableEq

namespace Highlight
variable {Style : Type}

def covers (x : ℕ) (highlight : Highlight Style) : Bool :=
  decide (highlight.range.start ≤ x) && decide (x < highlight.range.stop)

def startsBefore (offset : ℕ) (highlight : Highlight Style) : Bool :=
  decide (highlight.range.start < offset)

def endsAfter (offset : ℕ) (highlight : Highlight Style) : Bool :=
  decide (offset < highlight.range.stop)

end Highlight

structure TextRun (Paint : Type) where
  len : ℕ
  paint : Paint
  deriving DecidableEq

structure HighlightCursor (Style : Type) where
  upcoming : List (Highlight Style)
  active : List (Highlight Style)

section
variable {Style Paint : Type} (paint : Option Style → Paint)

namespace HighlightCursor

def newAtOffset (highlights : List (Highlight Style)) (offset : ℕ) : HighlightCursor Style :=
  let passed := highlights.takeWhile (·.startsBefore offset)
  ⟨highlights.dropWhile (·.startsBefore offset), passed.reverse.takeWhile (·.endsAfter offset)⟩

def absorb (offset : ℕ) (takes : Highlight Style → Bool) :
    List (Highlight Style) → List (Highlight Style) → HighlightCursor Style
  | [], active => ⟨[], active⟩
  | next :: upcoming, active =>
    if next.range.stop ≤ offset then absorb offset takes upcoming active
    else if takes next then absorb offset takes upcoming (active ++ [next])
    else ⟨next :: upcoming, active⟩

def advanceToLineStart (cursor : HighlightCursor Style) (lineStart : ℕ) : HighlightCursor Style :=
  absorb lineStart (·.startsBefore lineStart) cursor.upcoming
    (cursor.active.filter (·.endsAfter lineStart))

def spanRun (start stop : ℕ) (style : Option Style) : List (TextRun Paint) :=
  if start < stop then [⟨stop - start, paint style⟩] else []

def appendSimpleRunsForLine (cursor : HighlightCursor Style) (lineStart lineEnd : ℕ) :
    Option (List (TextRun Paint)) :=
  match cursor.active, cursor.upcoming.head?.filter (·.startsBefore lineEnd) with
  | [], none => some [⟨lineEnd - lineStart, paint none⟩]
  | [], some next =>
    if (cursor.upcoming[1]?).all (fun later => decide (lineEnd ≤ later.range.start)) then
      let styledEnd := min next.range.stop lineEnd
      some (spanRun paint lineStart next.range.start none ++
        spanRun paint next.range.start styledEnd (some next.style) ++
        spanRun paint styledEnd lineEnd none)
    else none
  | [top], none =>
    let styledEnd := min top.range.stop lineEnd
    some (⟨styledEnd - lineStart, paint (some top.style)⟩ ::
      spanRun paint styledEnd lineEnd none)
  | _, _ => none

def reach (cursor : HighlightCursor Style) (lineEnd offset : ℕ) : HighlightCursor Style :=
  absorb offset (fun next => decide (next.range.start ≤ offset) && next.startsBefore lineEnd)
    cursor.upcoming cursor.active

def nextBoundary (cursor : HighlightCursor Style) (lineEnd offset : ℕ) : ℕ :=
  let beforeNext := match cursor.upcoming.head? with
    | some next => if next.range.start < lineEnd then min lineEnd next.range.start else lineEnd
    | none => lineEnd
  let beforeEnd := match cursor.active.getLast? with
    | some top => min beforeNext top.range.stop
    | none => beforeNext
  if beforeEnd ≤ offset then min (offset + 1) lineEnd else beforeEnd

theorem lt_nextBoundary (cursor : HighlightCursor Style) {lineEnd offset : ℕ}
    (h : offset < lineEnd) : offset < cursor.nextBoundary lineEnd offset := by
  rw [nextBoundary]
  split_ifs with hle
  · exact Nat.lt_min.mpr ⟨lt_succ_self offset, h⟩
  · exact not_le.mp hle

def appendRunsForCurrentLine (lineEnd offset : ℕ) (cursor : HighlightCursor Style) :
    List (TextRun Paint) × HighlightCursor Style :=
  if _h : offset < lineEnd then
    let cursor := cursor.reach lineEnd offset
    let boundary := cursor.nextBoundary lineEnd offset
    let style := cursor.active.getLast?.map Highlight.style
    let (runs, next) := appendRunsForCurrentLine lineEnd boundary
      ⟨cursor.upcoming, cursor.active.filter (·.endsAfter boundary)⟩
    (⟨boundary - offset, paint style⟩ :: runs, next)
  else ([], cursor)
termination_by lineEnd - offset
decreasing_by
  exact Nat.sub_lt_sub_left ‹_› (lt_nextBoundary _ ‹_›)

end HighlightCursor
open HighlightCursor

def runsForLine (lineStart : ℕ) (lineText : Bytes) (highlights : Option (List (Highlight Style))) :
    List (TextRun Paint) :=
  if lineText.isEmpty then []
  else match highlights with
    | none => [⟨lineText.length, paint none⟩]
    | some highlights =>
      let lineEnd := lineStart + lineText.length
      let cursor := newAtOffset highlights lineStart
      match cursor.appendSimpleRunsForLine paint lineStart lineEnd with
      | some runs => runs
      | none =>
        (appendRunsForCurrentLine paint lineEnd lineStart (cursor.advanceToLineStart lineStart)).1

def lineFeedByte : UInt8 := 10
def carriageReturnByte : UInt8 := 13

def laterLineStarts (ix : ℕ) : Bytes → List ℕ
  | [] => []
  | byte :: text =>
    if byte = lineFeedByte then (ix + 1) :: laterLineStarts (ix + 1) text
    else laterLineStarts (ix + 1) text

def computeLineStarts (text : Bytes) : List ℕ := 0 :: laterLineStarts 0 text

def withoutTerminator (line : Bytes) : Bytes :=
  if line.getLast? = some lineFeedByte then
    if line.dropLast.getLast? = some carriageReturnByte then line.dropLast.dropLast
    else line.dropLast
  else line

def lineTextForIndex (text : Bytes) (starts : List ℕ) (lineIx : ℕ) : Bytes :=
  match starts[lineIx]? with
  | none => []
  | some start =>
    if text.length ≤ start then []
    else
      let stop := min ((starts[lineIx + 1]?).getD text.length) text.length
      withoutTerminator (slice text start stop)

def textInputTruncationSuffix : Bytes := [0xE2, 0x80, 0xA6]
def textInputMaxLineShapeBytes : ℕ := 4 * 1024

def isContinuationByte (byte : UInt8) : Bool := decide (0x80 ≤ byte) && decide (byte < 0xC0)

def charBoundaryAtOrBefore (text : Bytes) : ℕ → ℕ
  | 0 => 0
  | stop + 1 =>
    if (text[stop + 1]?).any isContinuationByte then charBoundaryAtOrBefore text stop else stop + 1

def buildShapingLineSlice (lineText : Bytes) (maxBytes : ℕ) : Bytes :=
  if lineText.length ≤ maxBytes then lineText
  else
    let stop := min (maxBytes - textInputTruncationSuffix.length) lineText.length
    lineText.take (charBoundaryAtOrBefore lineText stop) ++ textInputTruncationSuffix

def cappedLineText (text : Bytes) (starts : List ℕ) (lineIx : ℕ) : Bytes :=
  buildShapingLineSlice (lineTextForIndex text starts lineIx) textInputMaxLineShapeBytes

def runsForLines (text : Bytes) (starts : List ℕ) :
    List ℕ → HighlightCursor Style → List (List (TextRun Paint))
  | [], _ => []
  | lineIx :: lines, cursor =>
    let lineStart := (starts[lineIx]?).getD 0
    let capped := cappedLineText text starts lineIx
    if capped.isEmpty then [] :: runsForLines text starts lines cursor
    else
      let lineEnd := lineStart + capped.length
      let cursor := cursor.advanceToLineStart lineStart
      match cursor.appendSimpleRunsForLine paint lineStart lineEnd with
      | some runs => runs :: runsForLines text starts lines cursor
      | none =>
        let (runs, next) := appendRunsForCurrentLine paint lineEnd lineStart cursor
        runs :: runsForLines text starts lines next

def buildStreamedHighlightRunsForVisibleWindow (text : Bytes) (starts : List ℕ) (visible : Range)
    (highlights : List (Highlight Style)) : List (List (TextRun Paint)) :=
  if visible.stop ≤ visible.start then []
  else runsForLines paint text starts (range' visible.start (visible.stop - visible.start))
    (newAtOffset highlights ((starts[visible.start]?).getD 0))

def lastListed (highlights : List (Highlight Style)) (x : ℕ) : Option (Highlight Style) :=
  (highlights.filter (·.covers x)).getLast?

def HighlightCursor.shown (cursor : HighlightCursor Style) (x : ℕ) : Option (Highlight Style) :=
  (cursor.active.filter (·.endsAfter x) ++ cursor.upcoming.filter (·.covers x)).getLast?

def SortedByStart (highlights : List (Highlight Style)) : Prop :=
  highlights.Pairwise fun highlight later => highlight.range.start ≤ later.range.start

section
variable {offset x : ℕ} {takes : Highlight Style → Bool} {highlight : Highlight Style}
  {upcoming active : List (Highlight Style)}

theorem covers_of_begun (h : highlight.range.start ≤ x) :
    highlight.covers x = highlight.endsAfter x := by
  rw [Highlight.covers, decide_eq_true h, Bool.true_and, Highlight.endsAfter]

theorem covers_of_over (h : highlight.range.stop ≤ x) : highlight.covers x = false := by
  rw [Highlight.covers, decide_eq_false (not_lt.mpr h), Bool.and_false]

theorem covers_of_ahead (h : x < highlight.range.start) : highlight.covers x = false := by
  rw [Highlight.covers, decide_eq_false (not_le.mpr h), Bool.false_and]

theorem shown_absorb (htakes : ∀ next, takes next → next.range.start ≤ offset)
    (hx : offset ≤ x) :
    (absorb offset takes upcoming active).shown x = shown ⟨upcoming, active⟩ x := by
  induction upcoming generalizing active with
  | nil => rfl
  | cons next upcoming ih =>
    rw [absorb]
    split_ifs with hover htake
    · have hcovers : ¬next.covers x :=
        eq_false_iff.mp (covers_of_over (hover.trans hx))
      rw [ih, shown, shown, filter_cons_of_neg hcovers]
    · have hcovers := covers_of_begun ((htakes next htake).trans hx)
      have hsplit : [next].filter (·.endsAfter x) ++ upcoming.filter (·.covers x) =
          (next :: upcoming).filter (·.covers x) := by
        cases hends : next.endsAfter x with
        | true =>
          rw [filter_cons_of_pos hends, filter_cons_of_pos (hcovers.trans hends)]
          rfl
        | false =>
          rw [filter_cons_of_neg (eq_false_iff.mp hends),
            filter_cons_of_neg (eq_false_iff.mp (hcovers.trans hends))]
          rfl
      rw [ih, shown, shown, filter_append, append_assoc, hsplit]
    · rfl

theorem absorb_suffix : (absorb offset takes upcoming active).upcoming <:+ upcoming := by
  induction upcoming generalizing active with
  | nil => exact suffix_refl _
  | cons next upcoming ih =>
    rw [absorb]
    split_ifs
    · exact ih.trans (suffix_cons _ _)
    · exact ih.trans (suffix_cons _ _)
    · exact suffix_refl _

theorem absorb_active (h : ∀ highlight ∈ active, offset < highlight.range.stop) :
    ∀ highlight ∈ (absorb offset takes upcoming active).active, offset < highlight.range.stop := by
  induction upcoming generalizing active with
  | nil => exact h
  | cons next upcoming ih =>
    rw [absorb]
    split_ifs with hover htake
    · exact ih h
    · refine ih fun highlight hmem => ?_
      rcases mem_append.mp hmem with hmem | hmem
      · exact h highlight hmem
      · rw [mem_singleton.mp hmem]
        exact not_le.mp hover
    · exact h

theorem absorb_head {next : Highlight Style}
    (h : (absorb offset takes upcoming active).upcoming.head? = some next) :
    takes next = false := by
  induction upcoming generalizing active with
  | nil => cases h
  | cons first upcoming ih =>
    rw [absorb] at h
    split_ifs at h with hover htake
    · exact ih h
    · exact ih h
    · cases h
      exact eq_false_iff.mpr htake

theorem start_le_of_head (hsorted : SortedByStart upcoming) {bound : ℕ}
    (h : ∀ next, upcoming.head? = some next → bound ≤ next.range.start) :
    ∀ next ∈ upcoming, bound ≤ next.range.start := by
  cases upcoming with
  | nil => exact fun _ hmem => absurd hmem not_mem_nil
  | cons first upcoming =>
    have hfirst := h first rfl
    intro next hmem
    rcases mem_cons.mp hmem with rfl | hmem
    · exact hfirst
    · exact hfirst.trans (rel_of_pairwise_cons hsorted hmem)

theorem filter_ahead (h : ∀ next ∈ upcoming, x < next.range.start) :
    upcoming.filter (·.covers x) = [] :=
  filter_eq_nil_iff.mpr fun next hmem =>
    eq_false_iff.mp (covers_of_ahead (h next hmem))

end

def Paints (expected : ℕ → Paint) (stop : ℕ) : ℕ → List (TextRun Paint) → Prop
  | start, [] => start = stop
  | start, run :: runs => 0 < run.len ∧
    (∀ x, start ≤ x → x < start + run.len → run.paint = expected x) ∧
      Paints expected stop (start + run.len) runs

def paintAt : List (TextRun Paint) → ℕ → Option Paint
  | [], _ => none
  | run :: runs, byte => if byte < run.len then some run.paint else paintAt runs (byte - run.len)

section
variable {paint : Option Style → Paint} {expected : ℕ → Paint} {start middle stop : ℕ}
  {runs later : List (TextRun Paint)} {style : Option Style}

theorem paints_append (h : Paints expected middle start runs)
    (hlater : Paints expected stop middle later) : Paints expected stop start (runs ++ later) := by
  induction runs generalizing start with
  | nil =>
    have hmiddle : start = middle := h
    rw [hmiddle]
    exact hlater
  | cons run runs ih => exact ⟨h.1, h.2.1, ih h.2.2⟩

theorem paints_congr {expected' : ℕ → Paint} (h : Paints expected stop start runs)
    (hsame : ∀ x, start ≤ x → expected x = expected' x) : Paints expected' stop start runs := by
  induction runs generalizing start with
  | nil => exact h
  | cons run runs ih =>
    refine ⟨h.1, fun x hx hlt => (h.2.1 x hx hlt).trans (hsame x hx), ih h.2.2 fun x hx => ?_⟩
    exact hsame x ((le_add_right _ _).trans hx)

theorem paints_one (hle : start < stop) (h : ∀ x, start ≤ x → x < stop → paint style = expected x) :
    Paints expected stop start [⟨stop - start, paint style⟩] := by
  have hstop : start + (stop - start) = stop := Nat.add_sub_cancel' hle.le
  exact ⟨Nat.sub_pos_of_lt hle, fun x hx hlt => h x hx (hstop ▸ hlt), hstop⟩

theorem paints_span (hle : start ≤ stop)
    (h : ∀ x, start ≤ x → x < stop → paint style = expected x) :
    Paints expected stop start (spanRun paint start stop style) := by
  rw [spanRun]
  split_ifs with hlt
  · exact paints_one hlt h
  · exact le_antisymm hle (not_lt.mp hlt)

section
variable (h : Paints expected stop start runs)
include h

theorem paints_total : start + (runs.map TextRun.len).sum = stop := by
  induction runs generalizing start with
  | nil => exact h
  | cons run runs ih =>
    rw [map_cons, sum_cons, ← add_assoc]
    exact ih h.2.2

theorem paints_nonempty : ∀ run ∈ runs, 0 < run.len := by
  induction runs generalizing start with
  | nil => exact fun _ hmem => absurd hmem not_mem_nil
  | cons run runs ih =>
    intro other hmem
    rcases mem_cons.mp hmem with rfl | hmem
    · exact h.1
    · exact ih h.2.2 other hmem

theorem paints_at {byte : ℕ} (hbyte : start + byte < stop) :
    paintAt runs byte = some (expected (start + byte)) := by
  induction runs generalizing start byte with
  | nil =>
    have hend : start = stop := h
    exact absurd hbyte (not_lt.mpr (hend ▸ le_add_right start byte))
  | cons run runs ih =>
    rw [paintAt]
    split_ifs with hlt
    · rw [h.2.1 _ (le_add_right start byte) (Nat.add_lt_add_left hlt start)]
    · have hsplit : start + run.len + (byte - run.len) = start + byte := by omega
      rw [ih h.2.2 (hsplit.symm ▸ hbyte), hsplit]

end

end

section
variable {paint : Option Style → Paint} {cursor : HighlightCursor Style} {lineStart lineEnd : ℕ}
  {runs : List (TextRun Paint)}

structure HighlightCursor.At (cursor : HighlightCursor Style) (offset : ℕ) : Prop where
  sorted : SortedByStart cursor.upcoming
  active : ∀ highlight ∈ cursor.active, offset < highlight.range.stop

def HighlightCursor.paintShown (paint : Option Style → Paint) (cursor : HighlightCursor Style)
    (x : ℕ) : Paint := paint ((cursor.shown x).map Highlight.style)

theorem shown_of_active {x : ℕ} (h : ∀ next ∈ cursor.upcoming, x < next.range.start) :
    cursor.shown x = (cursor.active.filter (·.endsAfter x)).getLast? := by
  rw [shown, filter_ahead h, append_nil]

theorem advance_at (h : SortedByStart cursor.upcoming) :
    (cursor.advanceToLineStart lineStart).At lineStart :=
  ⟨h.sublist absorb_suffix.sublist, absorb_active fun _ hmem =>
    of_decide_eq_true (mem_filter.mp hmem).2⟩

theorem advance_ahead (h : SortedByStart cursor.upcoming) :
    ∀ next ∈ (cursor.advanceToLineStart lineStart).upcoming, lineStart ≤ next.range.start :=
  start_le_of_head (advance_at h).sorted fun _ hhead =>
    not_lt.mp (of_decide_eq_false (absorb_head hhead))

theorem filter_endsAfter {x offset : ℕ} (hx : offset ≤ x) (active : List (Highlight Style)) :
    (active.filter (·.endsAfter offset)).filter (·.endsAfter x) =
      active.filter (·.endsAfter x) := by
  rw [List.filter_filter]
  refine filter_congr fun highlight _ => ?_
  rw [and_eq_left_iff_imp]
  intro hends
  exact decide_eq_true (lt_of_le_of_lt hx (of_decide_eq_true hends))

theorem advance_shown {x : ℕ} (hx : lineStart ≤ x) :
    (cursor.advanceToLineStart lineStart).shown x = cursor.shown x := by
  rw [advanceToLineStart, shown_absorb (fun _ htakes => (of_decide_eq_true htakes).le) hx, shown,
    filter_endsAfter hx]
  rfl

theorem reach_at {offset : ℕ} (h : cursor.At offset) : (cursor.reach lineEnd offset).At offset :=
  ⟨h.sorted.sublist absorb_suffix.sublist, absorb_active h.active⟩

theorem reach_shown {x offset : ℕ} (hx : offset ≤ x) :
    (cursor.reach lineEnd offset).shown x = cursor.shown x := by
  refine shown_absorb (fun next htakes => ?_) hx
  rw [and_eq_true] at htakes
  exact of_decide_eq_true htakes.1

theorem reach_ahead {offset : ℕ} (h : cursor.At offset) (hoffset : offset < lineEnd) :
    ∀ next ∈ (cursor.reach lineEnd offset).upcoming, offset < next.range.start := by
  refine start_le_of_head (reach_at h).sorted fun next hhead => ?_
  rcases and_eq_false_iff.mp (absorb_head hhead) with hstart | hend
  · exact not_le.mp (of_decide_eq_false hstart)
  · exact lt_of_lt_of_le hoffset (not_lt.mp (of_decide_eq_false hend))

structure HighlightCursor.Steady (cursor : HighlightCursor Style) (lineEnd offset boundary : ℕ) :
    Prop where
  advances : offset < boundary
  within : boundary ≤ lineEnd
  ahead : ∀ next ∈ cursor.upcoming, boundary ≤ next.range.start
  top : ∀ top, cursor.active.getLast? = some top → boundary ≤ top.range.stop

theorem steady_nextBoundary {offset : ℕ} (h : cursor.At offset) (hoffset : offset < lineEnd)
    (hahead : ∀ next ∈ cursor.upcoming, offset < next.range.start) :
    cursor.Steady lineEnd offset (cursor.nextBoundary lineEnd offset) := by
  have hnext : ∃ beforeNext, (match cursor.upcoming.head? with
      | some next => if next.range.start < lineEnd then min lineEnd next.range.start else lineEnd
      | none => lineEnd) = beforeNext ∧ offset < beforeNext ∧ beforeNext ≤ lineEnd ∧
        ∀ next ∈ cursor.upcoming, beforeNext ≤ next.range.start := by
    cases hhead : cursor.upcoming.head? with
    | none =>
      rw [head?_eq_none_iff.mp hhead]
      exact ⟨lineEnd, rfl, hoffset, le_refl _, fun _ hmem => absurd hmem not_mem_nil⟩
    | some next =>
      have hstart := hahead next (mem_of_head? hhead)
      dsimp only
      split_ifs with hlt
      · rw [min_eq_right hlt.le]
        exact ⟨_, rfl, hstart, hlt.le, start_le_of_head h.sorted fun other hother => by
          rw [hhead, some.injEq] at hother
          rw [hother]⟩
      · exact ⟨_, rfl, hoffset, le_refl _, start_le_of_head h.sorted fun other hother => by
          rw [hhead, some.injEq] at hother
          rw [← hother]
          exact not_lt.mp hlt⟩
  obtain ⟨beforeNext, heq, hadvance, hwithin, hbefore⟩ := hnext
  rw [nextBoundary, heq]
  cases htop : cursor.active.getLast? with
  | none =>
    dsimp only
    rw [if_neg (not_le.mpr hadvance)]
    refine ⟨hadvance, hwithin, hbefore, fun top hlast => ?_⟩
    rw [htop] at hlast
    cases hlast
  | some top =>
    have hends := h.active top (mem_of_getLast? htop)
    dsimp only
    rw [if_neg (not_le.mpr (Nat.lt_min.mpr ⟨hadvance, hends⟩))]
    refine ⟨Nat.lt_min.mpr ⟨hadvance, hends⟩, (min_le_left _ _).trans hwithin,
      fun next hmem => (min_le_left _ _).trans (hbefore next hmem), fun other hlast => ?_⟩
    rw [htop, some.injEq] at hlast
    rw [← hlast]
    exact min_le_right _ _

theorem HighlightCursor.Steady.shown_top {offset boundary x : ℕ}
    (h : cursor.Steady lineEnd offset boundary) (hx : x < boundary) :
    cursor.shown x = cursor.active.getLast? := by
  rw [shown_of_active fun next hmem => lt_of_lt_of_le hx (h.ahead next hmem)]
  rcases eq_nil_or_concat' cursor.active with hnil | ⟨before, top, hconcat⟩
  · rw [hnil]
    rfl
  · have hlast : cursor.active.getLast? = some top := by rw [hconcat, getLast?_concat]
    have hends : top.endsAfter x :=
      decide_eq_true (lt_of_lt_of_le hx (h.top top hlast))
    rw [hlast, hconcat, filter_append, filter_cons_of_pos hends, filter_nil, getLast?_concat]

theorem appendRuns_step {offset : ℕ} (h : offset < lineEnd) :
    appendRunsForCurrentLine paint lineEnd offset cursor =
      let reached := cursor.reach lineEnd offset
      let boundary := reached.nextBoundary lineEnd offset
      let rest := appendRunsForCurrentLine paint lineEnd boundary
        ⟨reached.upcoming, reached.active.filter (·.endsAfter boundary)⟩
      (⟨boundary - offset, paint (reached.active.getLast?.map Highlight.style)⟩ :: rest.1,
        rest.2) := by
  rw [appendRunsForCurrentLine, dif_pos h]

structure Continues (cursor next : HighlightCursor Style) (lineEnd : ℕ) : Prop where
  suffix : next.upcoming <:+ cursor.upcoming
  shown : ∀ x, lineEnd ≤ x → next.shown x = cursor.shown x

theorem appendRuns_paints (paint : Option Style → Paint) {offset : ℕ} (h : cursor.At offset)
    (hle : offset ≤ lineEnd) :
    Paints (cursor.paintShown paint) lineEnd offset
        (appendRunsForCurrentLine paint lineEnd offset cursor).1 ∧
      Continues cursor (appendRunsForCurrentLine paint lineEnd offset cursor).2 lineEnd := by
  induction hcount : lineEnd - offset using Nat.strong_induction_on generalizing offset cursor with
  | _ count ih =>
    rcases lt_or_eq_of_le hle with hlt | rfl
    · have hreached : (cursor.reach lineEnd offset).At offset := reach_at h
      have hsteady := steady_nextBoundary hreached hlt (reach_ahead h hlt)
      rw [appendRuns_step hlt]
      dsimp only
      generalize hboundary : (cursor.reach lineEnd offset).nextBoundary lineEnd offset = boundary
      rw [hboundary] at hsteady
      let next : HighlightCursor Style := ⟨(cursor.reach lineEnd offset).upcoming,
        (cursor.reach lineEnd offset).active.filter (·.endsAfter boundary)⟩
      have hnext : next.At boundary :=
        ⟨hreached.sorted, fun _ hmem => of_decide_eq_true (mem_filter.mp hmem).2⟩
      have hshown : ∀ x, boundary ≤ x → next.shown x = cursor.shown x := by
        intro x hx
        rw [HighlightCursor.shown, filter_endsAfter hx]
        exact reach_shown (hsteady.advances.le.trans hx)
      have hless : lineEnd - boundary < count := by
        rw [← hcount]
        exact Nat.sub_lt_sub_left hlt hsteady.advances
      obtain ⟨hpaints, hcontinues⟩ := ih _ hless hnext hsteady.within rfl
      have hlen : offset + (boundary - offset) = boundary :=
        Nat.add_sub_cancel' hsteady.advances.le
      refine ⟨⟨Nat.sub_pos_of_lt hsteady.advances, fun x hx hbefore => ?_, ?_⟩,
        hcontinues.suffix.trans absorb_suffix, fun x hx => ?_⟩
      · have hlate : x < boundary := hlen ▸ hbefore
        rw [paintShown, ← reach_shown hx, hsteady.shown_top hlate]
      · dsimp only
        rw [hlen]
        exact paints_congr hpaints fun x hx =>
          congrArg (fun top => paint (Option.map Highlight.style top)) (hshown x hx)
      · exact (hcontinues.shown x hx).trans (hshown x (hsteady.within.trans hx))
    · rw [appendRunsForCurrentLine, dif_neg (lt_irrefl _)]
      exact ⟨rfl, suffix_refl _, fun _ _ => rfl⟩

theorem head_filter_none (hnone : cursor.upcoming.head?.filter (·.startsBefore lineEnd) = none)
    (hsorted : SortedByStart cursor.upcoming) :
    ∀ next ∈ cursor.upcoming, lineEnd ≤ next.range.start :=
  start_le_of_head hsorted fun next hhead => by
    rw [hhead, filter_some] at hnone
    split_ifs at hnone with hbefore
    exact not_lt.mp fun hlt => hbefore (decide_eq_true hlt)

theorem shown_nil {x : ℕ} (hactive : cursor.active = []) :
    cursor.shown x = lastListed cursor.upcoming x := by
  rw [shown, hactive]
  rfl

theorem simpleRuns_paints (h : cursor.At lineStart)
    (hahead : ∀ next ∈ cursor.upcoming, lineStart ≤ next.range.start)
    (hordered : ∀ next ∈ cursor.upcoming, next.range.start ≤ next.range.stop)
    (hline : lineStart < lineEnd)
    (hruns : cursor.appendSimpleRunsForLine paint lineStart lineEnd = some runs) :
    Paints (cursor.paintShown paint) lineEnd lineStart runs := by
  rw [appendSimpleRunsForLine] at hruns
  cases hactive : cursor.active with
  | nil =>
    cases hnext : cursor.upcoming.head?.filter (·.startsBefore lineEnd) with
    | none =>
      rw [hactive, hnext] at hruns
      cases hruns
      have hlate := head_filter_none hnext h.sorted
      refine paints_one hline fun x _ hx => ?_
      rw [paintShown, shown_of_active fun next hmem => lt_of_lt_of_le hx (hlate next hmem),
        hactive]
      rfl
    | some next =>
      rw [hactive, hnext] at hruns
      dsimp only at hruns
      split_ifs at hruns with hlater
      cases hruns
      cases hupcoming : cursor.upcoming with
      | nil =>
        rw [hupcoming] at hnext
        cases hnext
      | cons first rest =>
        rw [hupcoming, head?_cons, filter_some] at hnext
        split_ifs at hnext with hbefore
        cases hnext
        have hstart : next.range.start < lineEnd := of_decide_eq_true hbefore
        have hrest : ∀ later ∈ rest, lineEnd ≤ later.range.start := by
          rw [hupcoming] at hlater
          refine start_le_of_head (Pairwise.of_cons (hupcoming ▸ h.sorted)) ?_
          intro later hlast
          rw [getElem?_cons_succ, ← head?_eq_getElem?, hlast] at hlater
          exact of_decide_eq_true hlater
        have hshown : ∀ x, x < lineEnd → cursor.shown x =
            if next.covers x then some next else none := by
          intro x hx
          rw [shown_nil hactive, lastListed, hupcoming, filter_cons, filter_ahead
            fun later hmem => lt_of_lt_of_le hx (hrest later hmem)]
          split_ifs <;> rfl
        have hfirst := hahead next (hupcoming ▸ mem_cons_self)
        have hwhole := hordered next (hupcoming ▸ mem_cons_self)
        have hstyled : next.range.start ≤ min next.range.stop lineEnd :=
          Nat.le_min.mpr ⟨hwhole, hstart.le⟩
        refine paints_append (paints_append (paints_span hfirst fun x _ hx => ?_)
          (paints_span hstyled fun x hx hlt => ?_))
          (paints_span (min_le_right _ _) fun x hx hlt => ?_)
        · rw [paintShown, hshown x (hx.trans hstart), covers_of_ahead hx]
          rfl
        · have hends : next.endsAfter x :=
            decide_eq_true (lt_of_lt_of_le hlt (min_le_left _ _))
          rw [paintShown, hshown x (lt_of_lt_of_le hlt (min_le_right _ _)),
            covers_of_begun hx, hends]
          rfl
        · have hover : next.range.stop ≤ x := by omega
          rw [paintShown, hshown x hlt, covers_of_over hover]
          rfl
  | cons top active =>
    cases hnext : cursor.upcoming.head?.filter (·.startsBefore lineEnd) with
    | some next =>
      rw [hactive, hnext] at hruns
      cases active <;> cases hruns
    | none =>
      rw [hactive, hnext] at hruns
      cases active with
      | cons other active => cases hruns
      | nil =>
        cases hruns
        have hlate := head_filter_none hnext h.sorted
        have hends := h.active top (hactive ▸ mem_singleton_self top)
        have hshown : ∀ x, x < lineEnd → cursor.shown x =
            if top.endsAfter x then some top else none := by
          intro x hx
          rw [shown_of_active fun next hmem => lt_of_lt_of_le hx (hlate next hmem), hactive,
            filter_cons, filter_nil]
          split_ifs <;> rfl
        have hfirst : lineStart < min top.range.stop lineEnd := Nat.lt_min.mpr ⟨hends, hline⟩
        refine paints_append (paints_one hfirst fun x _ hx => ?_)
          (paints_span (min_le_right _ _) fun x hx hlt => ?_)
        · have hopen : top.endsAfter x :=
            decide_eq_true (lt_of_lt_of_le hx (min_le_left _ _))
          rw [paintShown, hshown x (lt_of_lt_of_le hx (min_le_right _ _)), hopen]
          rfl
        · have hover : top.endsAfter x = false := decide_eq_false (by omega)
          rw [paintShown, hshown x hlt, hover]
          rfl

end

end

end GitComet.TextInput
