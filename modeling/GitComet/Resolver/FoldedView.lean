import GitComet.Basis.BinarySearch
import GitComet.Merge.AlignedRunsExact

namespace GitComet.Resolver
open Merge BinarySearch List Option Nat

inductive ThreeWayVisibleItem where
  | line (lineIx : ℕ)
  | collapsedBlock (conflictIx : ℕ)
  | collapsedContext (sourceLineStart len foldId : ℕ)
  deriving DecidableEq

inductive ThreeWayVisibleSpan where
  | lines (visibleStart sourceLineStart len : ℕ)
  | collapsedResolvedBlock (visibleIndex conflictIx : ℕ)
  | collapsedContext (visibleIndex sourceLineStart len foldId : ℕ)
  deriving DecidableEq

namespace ThreeWayVisibleSpan

def visibleStart : ThreeWayVisibleSpan → ℕ
  | .lines start _ _ => start
  | .collapsedResolvedBlock index _ => index
  | .collapsedContext index _ _ _ => index

def visibleLen : ThreeWayVisibleSpan → ℕ
  | .lines _ _ len => len
  | .collapsedResolvedBlock _ _ => 1
  | .collapsedContext _ _ _ _ => 1

def visible (span : ThreeWayVisibleSpan) : LineRange :=
  ⟨span.visibleStart, span.visibleStart + span.visibleLen⟩

def itemAt (visibleIx : ℕ) : ThreeWayVisibleSpan → Option ThreeWayVisibleItem
  | .lines visibleStart sourceLineStart len =>
    if visibleIx < visibleStart then none
    else if len ≤ visibleIx - visibleStart then none
    else some (.line (sourceLineStart + (visibleIx - visibleStart)))
  | .collapsedResolvedBlock visibleIndex conflictIx =>
    if visibleIx ≠ visibleIndex then none else some (.collapsedBlock conflictIx)
  | .collapsedContext visibleIndex sourceLineStart len foldId =>
    if visibleIx ≠ visibleIndex then none
    else some (.collapsedContext sourceLineStart len foldId)

def indexForLine (line : ℕ) : ThreeWayVisibleSpan → Option ℕ
  | .lines visibleStart sourceLineStart len =>
    if sourceLineStart ≤ line ∧ line < sourceLineStart + len then
      some (visibleStart + (line - sourceLineStart))
    else none
  | .collapsedContext visibleIndex sourceLineStart len _ =>
    if sourceLineStart ≤ line ∧ line < sourceLineStart + len then some visibleIndex else none
  | .collapsedResolvedBlock _ _ => none

end ThreeWayVisibleSpan

structure ThreeWayVisibleProjection where
  spans : List ThreeWayVisibleSpan
  visibleLen : ℕ
  deriving DecidableEq

namespace ThreeWayVisibleProjection

def default : ThreeWayVisibleProjection := ⟨[], 0⟩

def get (p : ThreeWayVisibleProjection) (visibleIx : ℕ) : Option ThreeWayVisibleItem :=
  if p.visibleLen ≤ visibleIx then none
  else
    (p.spans[partitionPoint (fun span =>
      decide (span.visibleStart + span.visibleLen ≤ visibleIx)) p.spans]?).bind
      (·.itemAt visibleIx)

def visibleIndexForSourceLine (p : ThreeWayVisibleProjection) (line : ℕ) : Option ℕ :=
  p.spans.findSome? (·.indexForLine line)

def pushLines (p : ThreeWayVisibleProjection) (start len : ℕ) : ThreeWayVisibleProjection :=
  if len = 0 then p else ⟨p.spans ++ [.lines p.visibleLen start len], p.visibleLen + len⟩

def pushBlock (p : ThreeWayVisibleProjection) (conflictIx : ℕ) : ThreeWayVisibleProjection :=
  ⟨p.spans ++ [.collapsedResolvedBlock p.visibleLen conflictIx], p.visibleLen + 1⟩

def pushFold (p : ThreeWayVisibleProjection) (start len foldId : ℕ) : ThreeWayVisibleProjection :=
  ⟨p.spans ++ [.collapsedContext p.visibleLen start len foldId], p.visibleLen + 1⟩

end ThreeWayVisibleProjection

inductive ThreeWayVisibleRun where
  | lines (start stop : ℕ)
  | collapsed (conflictIx : ℕ)
  deriving DecidableEq

def gapRun (start stop : ℕ) : List ThreeWayVisibleRun :=
  if start < stop then [.lines start stop] else []

def visibleRunsFrom (totalLines : ℕ) (resolved : List Bool) (rangeIx lineIx : ℕ) :
    List LineRange → List ThreeWayVisibleRun
  | [] => gapRun lineIx totalLines
  | range :: ranges =>
    if totalLines ≤ lineIx then []
    else
      let rangeStart := min range.start totalLines
      let rangeEnd := min range.stop totalLines
      let gap := gapRun lineIx rangeStart
      let lineIx := max lineIx rangeStart
      if resolved[rangeIx]?.getD false = true ∧ rangeStart < rangeEnd ∧ lineIx < rangeEnd then
        gap ++ .collapsed rangeIx ::
          visibleRunsFrom totalLines resolved (rangeIx + 1) rangeEnd ranges
      else
        gap ++ gapRun lineIx rangeEnd ++
          visibleRunsFrom totalLines resolved (rangeIx + 1) (max lineIx rangeEnd) ranges

def threeWayVisibleRuns (totalLines : ℕ) (ranges : List LineRange) (resolved : List Bool)
    (hideResolved : Bool) : List ThreeWayVisibleRun :=
  if totalLines = 0 then []
  else if hideResolved = false then [.lines 0 totalLines]
  else visibleRunsFrom totalLines resolved 0 0 ranges

def pushRun (p : ThreeWayVisibleProjection) : ThreeWayVisibleRun → ThreeWayVisibleProjection
  | .lines start stop => p.pushLines start (stop - start)
  | .collapsed conflictIx => p.pushBlock conflictIx

def buildWithResolvedFlags (totalLines : ℕ) (ranges : List LineRange) (resolved : List Bool)
    (hideResolved : Bool) : ThreeWayVisibleProjection :=
  if totalLines = 0 then .default
  else if hideResolved = false then ⟨[.lines 0 0 totalLines], totalLines⟩
  else (threeWayVisibleRuns totalLines ranges resolved true).foldl pushRun .default

def conflictCollapsedContextLines : ℕ := 3
def minContextFoldLines : ℕ := 2

structure ConflictFoldReveal where
  top : ℕ
  bottom : ℕ
  expandAll : Bool
  deriving DecidableEq

structure ThreeWayVisibleOptions where
  hideResolved : Bool
  collapseContext : Bool
  contextFoldReveals : Option (ℕ → Option ConflictFoldReveal)

def ThreeWayVisibleOptions.foldReveal (options : ThreeWayVisibleOptions) (foldId : ℕ) :
    ConflictFoldReveal :=
  (options.contextFoldReveals.bind fun reveals => reveals foldId).getD ⟨0, 0, false⟩

def pushGap (options : ThreeWayVisibleOptions) (p : ThreeWayVisibleProjection)
    (start stop leadingKeep trailingKeep : ℕ) : ThreeWayVisibleProjection :=
  let len := stop - start
  if len = 0 then p
  else
    let foldLen := len - (leadingKeep + trailingKeep)
    let foldStart := start + leadingKeep
    let reveal := options.foldReveal foldStart
    let revealedTop := min reveal.top foldLen
    let revealedBottom := min reveal.bottom (foldLen - revealedTop)
    let remaining := foldLen - revealedTop - revealedBottom
    if reveal.expandAll = true ∨ foldLen < minContextFoldLines ∨
        remaining < minContextFoldLines then
      p.pushLines start len
    else
      ((p.pushLines start (leadingKeep + revealedTop)).pushFold (foldStart + revealedTop)
        remaining foldStart).pushLines (foldStart + revealedTop + remaining)
        (revealedBottom + trailingKeep)

def pushRanges (totalLines : ℕ) (resolved : List Bool) (options : ThreeWayVisibleOptions)
    (rangeIx lineIx : ℕ) (p : ThreeWayVisibleProjection) :
    List LineRange → ThreeWayVisibleProjection
  | [] =>
    if lineIx < totalLines then
      pushGap options p lineIx totalLines conflictCollapsedContextLines 0
    else p
  | range :: ranges =>
    if totalLines ≤ lineIx then p
    else
      let rangeStart := max (min range.start totalLines) lineIx
      let rangeEnd := max (min range.stop totalLines) rangeStart
      let leadingKeep := if rangeIx = 0 then 0 else conflictCollapsedContextLines
      let p := pushGap options p lineIx rangeStart leadingKeep conflictCollapsedContextLines
      let p :=
        if options.hideResolved = true ∧ resolved[rangeIx]?.getD false = true ∧
            rangeStart < rangeEnd then p.pushBlock rangeIx
        else p.pushLines rangeStart (rangeEnd - rangeStart)
      pushRanges totalLines resolved options (rangeIx + 1) rangeEnd p ranges

def buildThreeWayVisibleProjectionWithOptions (totalLines : ℕ) (ranges : List LineRange)
    (resolved : List Bool) (options : ThreeWayVisibleOptions) : ThreeWayVisibleProjection :=
  if options.collapseContext = false ∨ ranges = [] then
    buildWithResolvedFlags totalLines ranges resolved options.hideResolved
  else if totalLines = 0 then .default
  else pushRanges totalLines resolved options 0 0 .default ranges

def LineRange.Has (range : LineRange) (line : ℕ) : Prop := range.start ≤ line ∧ line < range.stop

section
variable {ranges : List LineRange} {start stop : ℕ}

theorem contiguous_bounds (h : Contiguous ranges start stop) :
    ∀ range ∈ ranges, start ≤ range.start ∧ range.start ≤ range.stop ∧ range.stop ≤ stop := by
  induction ranges generalizing start with
  | nil => simp
  | cons range ranges ih =>
    obtain ⟨hstart, hle, hrest⟩ := h
    have hend := contiguous_le hrest
    refine forall_mem_cons.mpr ⟨⟨by omega, hle, hend⟩, fun other hother => ?_⟩
    have := ih hrest other hother
    omega

theorem contiguous_ordered (h : Contiguous ranges start stop) :
    ranges.Pairwise fun range later => range.stop ≤ later.start := by
  induction ranges generalizing start with
  | nil => exact .nil
  | cons range ranges ih =>
    obtain ⟨-, -, hrest⟩ := h
    exact .cons (fun later hlater => (contiguous_bounds hrest later hlater).1) (ih hrest)

theorem contiguous_covers (h : Contiguous ranges start stop) {line : ℕ} (hstart : start ≤ line)
    (hstop : line < stop) : ∃ range ∈ ranges, LineRange.Has range line := by
  induction ranges generalizing start with
  | nil =>
    have hend : start = stop := h
    omega
  | cons range ranges ih =>
    obtain ⟨hfirst, -, hrest⟩ := h
    by_cases hline : line < range.stop
    · exact ⟨range, mem_cons_self, by omega, hline⟩
    · obtain ⟨found, hfound, hhas⟩ := ih hrest (by omega)
      exact ⟨found, mem_cons_of_mem _ hfound, hhas⟩

end

theorem same_of_shared {α : Type} {f : α → LineRange} {xs : List α} {start stop : ℕ}
    (h : Contiguous (xs.map f) start stop) {x y : α} (hx : x ∈ xs) (hy : y ∈ xs) {line : ℕ}
    (hxline : LineRange.Has (f x) line) (hyline : LineRange.Has (f y) line) : x = y := by
  by_contra hne
  have hordered := pairwise_map.mp (contiguous_ordered h)
  have hapart := hordered.imp (S := fun x y => x ≠ y → ∀ line, LineRange.Has (f x) line →
      LineRange.Has (f y) line → False) fun hle _ line hx hy => by
    unfold LineRange.Has at hx hy
    omega
  have hsym : Std.Symm fun x y : α => x ≠ y → ∀ line, LineRange.Has (f x) line →
      LineRange.Has (f y) line → False :=
    ⟨fun x y hxy hne line hx hy => hxy hne.symm line hy hx⟩
  exact hapart.forall_of_forall (fun x _ hne => absurd rfl hne) hx hy hne line hxline hyline

def clippedRange (totalLines : ℕ) (ranges : List LineRange) (conflictIx : ℕ) : LineRange :=
  match ranges[conflictIx]? with
  | some range => ⟨min range.start totalLines, min range.stop totalLines⟩
  | none => LineRange.empty

def ThreeWayVisibleSpan.source (hidden : ℕ → LineRange) : ThreeWayVisibleSpan → LineRange
  | .lines _ start len => ⟨start, start + len⟩
  | .collapsedResolvedBlock _ conflictIx => hidden conflictIx
  | .collapsedContext _ start len _ => ⟨start, start + len⟩

structure Tiled (hidden : ℕ → LineRange) (p : ThreeWayVisibleProjection) (line : ℕ) : Prop where
  visible : Contiguous (p.spans.map (·.visible)) 0 p.visibleLen
  source : Contiguous (p.spans.map (·.source hidden)) 0 line
  solid : ∀ span ∈ p.spans, span.visible.start < span.visible.stop ∧
    (span.source hidden).start < (span.source hidden).stop

structure Ordered (ranges : List LineRange) : Prop where
  each : ∀ range ∈ ranges, range.start ≤ range.stop
  apart : ranges.Pairwise fun range later => range.stop ≤ later.start

variable {len conflictIx : ℕ}

section
variable {hidden : ℕ → LineRange} {p : ThreeWayVisibleProjection} {line : ℕ}

theorem Tiled.of_eq {other : ℕ} (h : Tiled hidden p line) (heq : line = other) :
    Tiled hidden p other := heq ▸ h

theorem tiled_default : Tiled hidden .default 0 := ⟨rfl, rfl, fun _ h => by cases h⟩

theorem tiled_push (span : ThreeWayVisibleSpan) (h : Tiled hidden p line)
    (hstart : span.visibleStart = p.visibleLen) (hlen : 0 < span.visibleLen)
    (hline : (span.source hidden).start = line)
    (hsource : (span.source hidden).start < (span.source hidden).stop) :
    Tiled hidden ⟨p.spans ++ [span], p.visibleLen + span.visibleLen⟩ (span.source hidden).stop := by
  refine ⟨?_, ?_, forall_mem_append.mpr ⟨h.solid, forall_mem_singleton.mpr ⟨?_, hsource⟩⟩⟩
  · rw [map_append]
    refine contiguous_append h.visible ⟨hstart, ?_, ?_⟩
    · simp only [ThreeWayVisibleSpan.visible]
      omega
    · simp only [ThreeWayVisibleSpan.visible, hstart]
      rfl
  · rw [map_append]
    exact contiguous_append h.source ⟨hline, le_of_lt hsource, rfl⟩
  · simp only [ThreeWayVisibleSpan.visible]
    omega

theorem tiled_lines (h : Tiled hidden p line) (len : ℕ) :
    Tiled hidden (p.pushLines line len) (line + len) := by
  unfold ThreeWayVisibleProjection.pushLines
  split
  · rename_i hzero
    rwa [hzero, add_zero]
  · exact tiled_push (.lines p.visibleLen line len) h rfl (Nat.pos_of_ne_zero ‹_›) rfl
      (by simp only [ThreeWayVisibleSpan.source]; omega)

theorem tiled_fold (h : Tiled hidden p line) (hlen : 0 < len) (foldId : ℕ) :
    Tiled hidden (p.pushFold line len foldId) (line + len) :=
  tiled_push (.collapsedContext p.visibleLen line len foldId) h rfl one_pos rfl
    (by simp only [ThreeWayVisibleSpan.source]; omega)

theorem tiled_block (h : Tiled hidden p (hidden conflictIx).start)
    (hsome : (hidden conflictIx).start < (hidden conflictIx).stop) :
    Tiled hidden (p.pushBlock conflictIx) (hidden conflictIx).stop :=
  tiled_push (.collapsedResolvedBlock p.visibleLen conflictIx) h rfl one_pos rfl hsome

theorem tiled_gap (options : ThreeWayVisibleOptions) (h : Tiled hidden p line) {stop : ℕ}
    (hle : line ≤ stop) (leadingKeep trailingKeep : ℕ) :
    Tiled hidden (pushGap options p line stop leadingKeep trailingKeep) stop := by
  simp only [pushGap]
  split
  · exact h.of_eq (by omega)
  split
  · exact (tiled_lines h (stop - line)).of_eq (Nat.add_sub_cancel' hle)
  · rename_i hshort
    simp only [minContextFoldLines, not_or] at hshort
    generalize (options.foldReveal (line + leadingKeep)).top = top at *
    generalize (options.foldReveal (line + leadingKeep)).bottom = bottom at *
    generalize hfold : stop - line - (leadingKeep + trailingKeep) = foldLen at *
    have hfront := tiled_lines h (leadingKeep + min top foldLen)
    rw [← add_assoc] at hfront
    have hhidden := tiled_fold hfront
      (Nat.lt_of_lt_of_le (by decide) (Nat.le_of_not_lt hshort.2.2)) (line + leadingKeep)
    exact (tiled_lines hhidden (min bottom (foldLen - min top foldLen) + trailingKeep)).of_eq
      (by omega)

variable {range : LineRange} {later : List LineRange}

theorem ordered_cons (h : Ordered (range :: later)) :
    Ordered later ∧ ∀ next ∈ later, range.stop ≤ next.start := by
  obtain ⟨hfirst, hrest⟩ := pairwise_cons.mp h.apart
  exact ⟨⟨fun other hmem => h.each other (mem_cons_of_mem _ hmem), hrest⟩, hfirst⟩

variable {rangeIx : ℕ}

theorem clipped_drop (totalLines : ℕ) {ranges : List LineRange}
    (h : ranges.drop rangeIx = range :: later) :
    clippedRange totalLines ranges rangeIx =
      ⟨min range.start totalLines, min range.stop totalLines⟩ := by
  have hget : ranges[rangeIx]? = some range := by
    have hfirst : (ranges.drop rangeIx)[0]? = some range := by rw [h]; rfl
    rwa [getElem?_drop, add_zero] at hfirst
  rw [clippedRange, hget]

variable {totalLines : ℕ}

theorem tiled_ranges {ranges : List LineRange} (resolved : List Bool)
    (options : ThreeWayVisibleOptions) (later : List LineRange)
    (hlater : ranges.drop rangeIx = later) (hordered : Ordered later) (hline : line ≤ totalLines)
    (hbelow : ∀ range ∈ later, line ≤ range.start)
    (h : Tiled (clippedRange totalLines ranges) p line) :
    Tiled (clippedRange totalLines ranges)
      (pushRanges totalLines resolved options rangeIx line p later) totalLines := by
  induction later generalizing rangeIx line p with
  | nil =>
    rw [pushRanges]
    split
    · exact tiled_gap options h hline _ _
    · exact h.of_eq (by omega)
  | cons range later ih =>
    rw [pushRanges]
    split
    · exact h.of_eq (by omega)
    · have hstart : max (min range.start totalLines) line = min range.start totalLines := by
        have := hbelow range mem_cons_self
        omega
      have hstop : max (min range.stop totalLines) (min range.start totalLines) =
          min range.stop totalLines := by
        have := hordered.each range mem_cons_self
        omega
      obtain ⟨hrest, happart⟩ := ordered_cons hordered
      have hclipped := clipped_drop totalLines hlater
      have hle : line ≤ min range.start totalLines := by omega
      have hnext : ranges.drop (rangeIx + 1) = later := by
        rw [← drop_drop, hlater, drop_one, tail_cons]
      have hgap := tiled_gap options h hle
        (if rangeIx = 0 then 0 else conflictCollapsedContextLines) conflictCollapsedContextLines
      simp only [hstart, hstop]
      refine ih hnext hrest (min_le_right ..) (fun later hmem => ?_) ?_
      · have := happart later hmem
        omega
      · split
        · rename_i hhide
          have hblock := tiled_block (hgap.of_eq (by rw [hclipped]))
            (by rw [hclipped]; exact hhide.2.2)
          exact hblock.of_eq (by rw [hclipped])
        · exact (tiled_lines hgap _).of_eq (by omega)

theorem tiled_gapRun (h : Tiled hidden p line) (stop : ℕ) :
    Tiled hidden ((gapRun line stop).foldl pushRun p) (max line stop) := by
  unfold gapRun
  split
  · exact (tiled_lines h (stop - line)).of_eq (by omega)
  · exact h.of_eq (by omega)

theorem tiled_runs {ranges : List LineRange} (resolved : List Bool) (later : List LineRange)
    (hlater : ranges.drop rangeIx = later) (hordered : Ordered later) (hline : line ≤ totalLines)
    (hbelow : ∀ range ∈ later, line ≤ range.start)
    (h : Tiled (clippedRange totalLines ranges) p line) :
    Tiled (clippedRange totalLines ranges)
      ((visibleRunsFrom totalLines resolved rangeIx line later).foldl pushRun p) totalLines := by
  induction later generalizing rangeIx line p with
  | nil => exact (tiled_gapRun h totalLines).of_eq (by omega)
  | cons range later ih =>
    rw [visibleRunsFrom]
    split
    · exact h.of_eq (by omega)
    · have hstart : max line (min range.start totalLines) = min range.start totalLines := by
        have := hbelow range mem_cons_self
        omega
      have hstop : max (min range.start totalLines) (min range.stop totalLines) =
          min range.stop totalLines := by
        have := hordered.each range mem_cons_self
        omega
      obtain ⟨hrest, happart⟩ := ordered_cons hordered
      have hclipped := clipped_drop totalLines hlater
      have hnext : ranges.drop (rangeIx + 1) = later := by
        rw [← drop_drop, hlater, drop_one, tail_cons]
      have hbehind : ∀ next ∈ later, min range.stop totalLines ≤ next.start := by
        intro next hmem
        have := happart next hmem
        omega
      have hgap := (tiled_gapRun h (min range.start totalLines)).of_eq hstart
      simp only [hstart, hstop]
      split
      · rename_i hhide
        rw [foldl_append, foldl_cons]
        have hblock := tiled_block (hgap.of_eq (by rw [hclipped])) (by
          rw [hclipped]
          exact hhide.2.1)
        exact ih hnext hrest (min_le_right ..) hbehind (hblock.of_eq (by rw [hclipped]))
      · rw [foldl_append, foldl_append]
        exact ih hnext hrest (min_le_right ..) hbehind ((tiled_gapRun hgap _).of_eq hstop)

theorem build_tiled {ranges : List LineRange} (h : Ordered ranges)
    (resolved : List Bool) (options : ThreeWayVisibleOptions) :
    Tiled (clippedRange totalLines ranges)
      (buildThreeWayVisibleProjectionWithOptions totalLines ranges resolved options)
      totalLines := by
  unfold buildThreeWayVisibleProjectionWithOptions
  split
  · unfold buildWithResolvedFlags
    split
    · exact tiled_default.of_eq (by omega)
    split
    · rename_i hsome _
      have hall : Tiled (clippedRange totalLines ranges) _ (0 + totalLines) :=
        tiled_lines tiled_default totalLines
      rw [ThreeWayVisibleProjection.pushLines, if_neg hsome] at hall
      simpa [ThreeWayVisibleProjection.default] using hall
    · rename_i hsome hhide
      rw [threeWayVisibleRuns, if_neg hsome, if_neg (by decide)]
      exact tiled_runs resolved ranges rfl h (zero_le _) (fun _ _ => zero_le _)
        tiled_default
  · split
    · exact tiled_default.of_eq (by omega)
    · exact tiled_ranges resolved options ranges rfl h (zero_le _) (fun _ _ => zero_le _)
        tiled_default

end

def ThreeWayVisibleItem.source (hidden : ℕ → LineRange) : ThreeWayVisibleItem → LineRange
  | .line lineIx => ⟨lineIx, lineIx + 1⟩
  | .collapsedBlock conflictIx => hidden conflictIx
  | .collapsedContext start len _ => ⟨start, start + len⟩

section
variable {hidden : ℕ → LineRange} {p : ThreeWayVisibleProjection} {total ix line : ℕ}
  {span : ThreeWayVisibleSpan} {item : ThreeWayVisibleItem}

theorem itemAt_isSome : (span.itemAt ix).isSome ↔ LineRange.Has span.visible ix := by
  cases span <;> simp only [ThreeWayVisibleSpan.itemAt, ThreeWayVisibleSpan.visible,
    ThreeWayVisibleSpan.visibleStart, ThreeWayVisibleSpan.visibleLen, LineRange.Has]
  case lines start source len =>
    split
    · simp only [isSome_none, Bool.false_eq_true, false_iff]
      omega
    split
    · simp only [isSome_none, Bool.false_eq_true, false_iff]
      omega
    · simp only [isSome_some, true_iff]
      omega
  case collapsedResolvedBlock index conflictIx =>
    split
    · simp only [isSome_none, Bool.false_eq_true, false_iff]
      omega
    · simp only [isSome_some, true_iff]
      omega
  case collapsedContext index source len foldId =>
    split
    · simp only [isSome_none, Bool.false_eq_true, false_iff]
      omega
    · simp only [isSome_some, true_iff]
      omega

theorem itemAt_has (h : span.itemAt ix = some item) : LineRange.Has span.visible ix :=
  itemAt_isSome.mp (by rw [h]; rfl)

theorem get_iff (h : Tiled hidden p total) :
    p.get ix = some item ↔ ∃ span ∈ p.spans, span.itemAt ix = some item := by
  have hordered := pairwise_map.mp (contiguous_ordered h.visible)
  have hsearch : p.spans.Pairwise fun span later =>
      decide (later.visibleStart + later.visibleLen ≤ ix) →
        decide (span.visibleStart + span.visibleLen ≤ ix) := by
    refine hordered.imp fun hle hlater => ?_
    simp only [ThreeWayVisibleSpan.visible, decide_eq_true_eq] at hle hlater ⊢
    omega
  rw [ThreeWayVisibleProjection.get, getElem?_partitionPoint hsearch]
  constructor
  · intro hget
    split at hget
    · cases hget
    · obtain ⟨span, hspan, hitem⟩ := bind_eq_some_iff.mp hget
      exact ⟨span, mem_of_find?_eq_some hspan, hitem⟩
  · rintro ⟨span, hspan, hitem⟩
    have hhas := itemAt_has hitem
    have hbounds := contiguous_bounds h.visible _ (mem_map_of_mem hspan)
    have hlt : ¬ p.visibleLen ≤ ix := by
      unfold LineRange.Has at hhas
      omega
    have hstop : ix < span.visibleStart + span.visibleLen := hhas.2
    rw [if_neg hlt]
    cases hfind : p.spans.find? fun span =>
        !decide (span.visibleStart + span.visibleLen ≤ ix) with
    | none =>
      have hnone := find?_eq_none.mp hfind span hspan
      simp only [Bool.not_eq_true', decide_eq_false_iff_not, not_not] at hnone
      omega
    | some first =>
      obtain ⟨hfirst, front, back, hsplit, hfront⟩ := find?_eq_some_iff_append.mp hfind
      have hsame : first = span := by
        rw [hsplit, mem_append, mem_cons] at hspan
        rcases hspan with hspan | rfl | hspan
        · have hbefore := hfront span hspan
          simp only [Bool.not_not, decide_eq_true_eq] at hbefore
          omega
        · rfl
        · rw [hsplit] at hordered
          have hlater := (pairwise_cons.mp (pairwise_append.mp hordered).2.1).1 span hspan
          simp only [Bool.not_eq_true', decide_eq_false_iff_not] at hfirst
          simp only [ThreeWayVisibleSpan.visible, LineRange.Has] at hlater hhas
          omega
      rw [hsame]
      exact hitem

variable (hidden) in
theorem indexForLine_has (h : span.indexForLine line = some ix) :
    LineRange.Has (span.source hidden) line ∧ LineRange.Has span.visible ix := by
  cases span <;> simp only [ThreeWayVisibleSpan.indexForLine] at h
  case lines start source len =>
    split at h
    · rename_i hline
      cases h
      simp only [LineRange.Has, ThreeWayVisibleSpan.source, ThreeWayVisibleSpan.visible,
        ThreeWayVisibleSpan.visibleStart, ThreeWayVisibleSpan.visibleLen]
      omega
    · cases h
  case collapsedResolvedBlock => cases h
  case collapsedContext index source len foldId =>
    split at h
    · rename_i hline
      cases h
      simp only [LineRange.Has, ThreeWayVisibleSpan.source, ThreeWayVisibleSpan.visible,
        ThreeWayVisibleSpan.visibleStart, ThreeWayVisibleSpan.visibleLen]
      omega
    · cases h

theorem visibleIndex_iff (h : Tiled hidden p total) :
    p.visibleIndexForSourceLine line = some ix ↔
      ∃ span ∈ p.spans, span.indexForLine line = some ix := by
  unfold ThreeWayVisibleProjection.visibleIndexForSourceLine
  constructor
  · intro hfound
    obtain ⟨span, hspan, hindex⟩ := exists_of_findSome?_eq_some hfound
    exact ⟨span, hspan, hindex⟩
  · rintro ⟨span, hspan, hindex⟩
    cases hfound : p.spans.findSome? (·.indexForLine line) with
    | none =>
      rw [findSome?_eq_none_iff.mp hfound span hspan] at hindex
      cases hindex
    | some found =>
      obtain ⟨first, hfirst, hother⟩ := exists_of_findSome?_eq_some hfound
      have hsame := same_of_shared h.source hfirst hspan (indexForLine_has hidden hother).1
        (indexForLine_has hidden hindex).1
      rw [hsame, hindex] at hother
      exact hother.symm

theorem itemAt_lines {start source : ℕ} :
    (ThreeWayVisibleSpan.lines start source len).itemAt ix = some item ↔
      LineRange.Has ⟨start, start + len⟩ ix ∧ item = .line (source + (ix - start)) := by
  simp only [ThreeWayVisibleSpan.itemAt, LineRange.Has]
  split
  · exact ⟨fun h => (by cases h), fun h => (by omega)⟩
  split
  · exact ⟨fun h => (by cases h), fun h => (by omega)⟩
  · exact ⟨fun h => ⟨by omega, (some.inj h).symm⟩, fun h => by rw [h.2]⟩

variable {index : ℕ}

theorem itemAt_block :
    (ThreeWayVisibleSpan.collapsedResolvedBlock index conflictIx).itemAt ix = some item ↔
      ix = index ∧ item = .collapsedBlock conflictIx := by
  simp only [ThreeWayVisibleSpan.itemAt]
  split
  · rename_i hne
    exact ⟨fun h => (by cases h), fun h => absurd h.1 hne⟩
  · rename_i heq
    exact ⟨fun h => ⟨not_not.mp heq, (some.inj h).symm⟩, fun h => by rw [h.2]⟩

theorem itemAt_fold {start foldId : ℕ} :
    (ThreeWayVisibleSpan.collapsedContext index start len foldId).itemAt ix = some item ↔
      ix = index ∧ item = .collapsedContext start len foldId := by
  simp only [ThreeWayVisibleSpan.itemAt]
  split
  · rename_i hne
    exact ⟨fun h => (by cases h), fun h => absurd h.1 hne⟩
  · rename_i heq
    exact ⟨fun h => ⟨not_not.mp heq, (some.inj h).symm⟩, fun h => by rw [h.2]⟩

theorem item_within (h : span.itemAt ix = some item)
    (hline : LineRange.Has (item.source hidden) line) :
    LineRange.Has (span.source hidden) line := by
  cases span with
  | lines start source len =>
    obtain ⟨hhas, rfl⟩ := itemAt_lines.mp h
    simp only [LineRange.Has, ThreeWayVisibleItem.source, ThreeWayVisibleSpan.source] at *
    omega
  | collapsedResolvedBlock index conflictIx =>
    obtain ⟨-, rfl⟩ := itemAt_block.mp h
    exact hline
  | collapsedContext index start len foldId =>
    obtain ⟨-, rfl⟩ := itemAt_fold.mp h
    exact hline

theorem span_shows (hsolid : span.visible.start < span.visible.stop)
    (hline : LineRange.Has (span.source hidden) line) :
    ∃! ix, ∃ item, span.itemAt ix = some item ∧ LineRange.Has (item.source hidden) line := by
  cases span with
  | lines start source len =>
    simp only [LineRange.Has, ThreeWayVisibleSpan.source] at hline
    refine ⟨start + (line - source), ⟨.line line, itemAt_lines.mpr ⟨?_, ?_⟩, ?_⟩, ?_⟩
    · simp only [LineRange.Has]
      omega
    · congr 1
      omega
    · simp only [LineRange.Has, ThreeWayVisibleItem.source]
      omega
    · rintro ix ⟨item, hitem, hhas⟩
      obtain ⟨hix, rfl⟩ := itemAt_lines.mp hitem
      simp only [LineRange.Has, ThreeWayVisibleItem.source] at hix hhas
      omega
  | collapsedResolvedBlock index conflictIx =>
    refine ⟨index, ⟨_, itemAt_block.mpr ⟨rfl, rfl⟩, hline⟩, ?_⟩
    rintro ix ⟨item, hitem, -⟩
    exact (itemAt_block.mp hitem).1
  | collapsedContext index start len foldId =>
    refine ⟨index, ⟨_, itemAt_fold.mpr ⟨rfl, rfl⟩, hline⟩, ?_⟩
    rintro ix ⟨item, hitem, -⟩
    exact (itemAt_fold.mp hitem).1

end

structure FoldedView (hidden : ℕ → LineRange) (p : ThreeWayVisibleProjection) (total : ℕ) :
    Prop where
  tiled : Tiled hidden p total
  defined : ∀ ix, (p.get ix).isSome = true ↔ ix < p.visibleLen
  once : ∀ line < total, ∃! ix, ∃ item, p.get ix = some item ∧
    LineRange.Has (item.source hidden) line
  shown : ∀ ix line, p.get ix = some (.line line) → p.visibleIndexForSourceLine line = some ix
  found : ∀ ix line, p.visibleIndexForSourceLine line = some ix →
    p.get ix = some (.line line) ∨ ∃ start len foldId,
      p.get ix = some (.collapsedContext start len foldId) ∧ start ≤ line ∧ line < start + len
  folded : ∀ ix start len foldId, p.get ix = some (.collapsedContext start len foldId) →
    ∀ line, start ≤ line → line < start + len → p.visibleIndexForSourceLine line = some ix
  collapsed : ∀ ix conflictIx, p.get ix = some (.collapsedBlock conflictIx) →
    ∀ line, LineRange.Has (hidden conflictIx) line → p.visibleIndexForSourceLine line = none

theorem Tiled.foldedView {hidden : ℕ → LineRange} {p : ThreeWayVisibleProjection} {total : ℕ}
    (h : Tiled hidden p total) : FoldedView hidden p total where
  tiled := h
  defined ix := by
    constructor
    · intro hsome
      by_contra hout
      rw [ThreeWayVisibleProjection.get, if_pos (Nat.le_of_not_lt hout)] at hsome
      cases hsome
    · intro hlt
      obtain ⟨range, hrange, hhas⟩ := contiguous_covers h.visible (zero_le ix) hlt
      obtain ⟨span, hspan, rfl⟩ := mem_map.mp hrange
      obtain ⟨item, hitem⟩ := isSome_iff_exists.mp (itemAt_isSome.mpr hhas)
      rw [(get_iff h).mpr ⟨span, hspan, hitem⟩]
      rfl
  once line hlt := by
    obtain ⟨range, hrange, hhas⟩ := contiguous_covers h.source (zero_le line) hlt
    obtain ⟨span, hspan, rfl⟩ := mem_map.mp hrange
    obtain ⟨ix, ⟨item, hitem, hline⟩, hunique⟩ := span_shows (h.solid span hspan).1 hhas
    refine ⟨ix, ⟨item, (get_iff h).mpr ⟨span, hspan, hitem⟩, hline⟩, ?_⟩
    rintro other ⟨shown, hget, hshown⟩
    obtain ⟨found, hfound, hother⟩ := (get_iff h).mp hget
    obtain rfl := same_of_shared h.source hfound hspan (item_within hother hshown) hhas
    exact hunique other ⟨shown, hother, hshown⟩
  shown ix line hget := by
    obtain ⟨span, hspan, hitem⟩ := (get_iff h).mp hget
    refine (visibleIndex_iff h).mpr ⟨span, hspan, ?_⟩
    cases span with
    | lines start source len =>
      obtain ⟨hhas, heq⟩ := itemAt_lines.mp hitem
      obtain rfl := ThreeWayVisibleItem.line.inj heq
      simp only [LineRange.Has] at hhas
      rw [ThreeWayVisibleSpan.indexForLine, if_pos (by omega)]
      congr 1
      omega
    | collapsedResolvedBlock index conflictIx => cases (itemAt_block.mp hitem).2
    | collapsedContext index start len foldId => cases (itemAt_fold.mp hitem).2
  found ix line hindex := by
    obtain ⟨span, hspan, hfound⟩ := (visibleIndex_iff h).mp hindex
    have hhas := (indexForLine_has hidden hfound).2
    cases span with
    | lines start source len =>
      left
      refine (get_iff h).mpr ⟨_, hspan, itemAt_lines.mpr ⟨hhas, ?_⟩⟩
      rw [ThreeWayVisibleSpan.indexForLine] at hfound
      split at hfound
      · cases hfound
        congr 1
        omega
      · cases hfound
    | collapsedResolvedBlock index conflictIx => cases hfound
    | collapsedContext index start len foldId =>
      right
      rw [ThreeWayVisibleSpan.indexForLine] at hfound
      split at hfound
      · rename_i hline
        cases hfound
        exact ⟨start, len, foldId, (get_iff h).mpr ⟨_, hspan, itemAt_fold.mpr ⟨rfl, rfl⟩⟩, hline⟩
      · cases hfound
  folded ix start len foldId hget line hstart hstop := by
    obtain ⟨span, hspan, hitem⟩ := (get_iff h).mp hget
    refine (visibleIndex_iff h).mpr ⟨span, hspan, ?_⟩
    cases span with
    | lines first source count => cases (itemAt_lines.mp hitem).2
    | collapsedResolvedBlock index conflictIx => cases (itemAt_block.mp hitem).2
    | collapsedContext index first count fold =>
      obtain ⟨rfl, heq⟩ := itemAt_fold.mp hitem
      obtain ⟨rfl, rfl, rfl⟩ := ThreeWayVisibleItem.collapsedContext.inj heq
      rw [ThreeWayVisibleSpan.indexForLine, if_pos ⟨hstart, hstop⟩]
  collapsed ix conflictIx hget line hline := by
    obtain ⟨span, hspan, hitem⟩ := (get_iff h).mp hget
    cases hindex : p.visibleIndexForSourceLine line with
    | none => rfl
    | some other =>
      obtain ⟨found, hfound, hother⟩ := (visibleIndex_iff h).mp hindex
      have hsame := same_of_shared h.source hfound hspan (indexForLine_has hidden hother).1
        (item_within hitem hline)
      cases span with
      | lines first source count => cases (itemAt_lines.mp hitem).2
      | collapsedResolvedBlock index conflictIx =>
        rw [hsame] at hother
        cases hother
      | collapsedContext index first count fold => cases (itemAt_fold.mp hitem).2

theorem folded_view_partition (totalLines : ℕ) {ranges : List LineRange} (h : Ordered ranges)
    (resolved : List Bool) (options : ThreeWayVisibleOptions) :
    FoldedView (clippedRange totalLines ranges)
      (buildThreeWayVisibleProjectionWithOptions totalLines ranges resolved options) totalLines :=
  (build_tiled h resolved options).foldedView

def revealedOptions : ThreeWayVisibleOptions :=
  ⟨true, true, some fun foldId => if foldId = 9 then some ⟨1, 1, false⟩ else none⟩

theorem resolved_block_between_folds :
    FoldedView (clippedRange 30 [⟨4, 6⟩, ⟨20, 20⟩, ⟨25, 40⟩])
      (buildThreeWayVisibleProjectionWithOptions 30 [⟨4, 6⟩, ⟨20, 20⟩, ⟨25, 40⟩]
        [true, false, false] revealedOptions) 30 :=
  folded_view_partition 30 ⟨by decide, by decide⟩ [true, false, false] revealedOptions

example : (buildThreeWayVisibleProjectionWithOptions 30 [⟨4, 6⟩, ⟨20, 20⟩, ⟨25, 40⟩]
    [true, false, false] revealedOptions).visibleIndexForSourceLine 12 = some 9 := by decide

end GitComet.Resolver
