import GitComet.Merge.Chunks
import GitComet.Basis.LinkedArena

namespace GitComet.Merge
open Slice Text Nat

structure LineRange where
  start : ℕ
  stop : ℕ
  deriving DecidableEq

def LineRange.isEmpty (range : LineRange) : Bool := !decide (range.start < range.stop)

def LineRange.empty : LineRange := ⟨0, 0⟩

def normalizeRange (range : LineRange) : LineRange :=
  if range.start ≤ range.stop then range else ⟨range.start, range.start⟩

structure ManualAlignment where
  baseRange : LineRange
  localRange : LineRange
  remoteRange : LineRange
  deriving DecidableEq

def ManualAlignment.new (baseRange localRange remoteRange : LineRange) : ManualAlignment :=
  ⟨normalizeRange baseRange, normalizeRange localRange, normalizeRange remoteRange⟩

def ManualAlignment.sourceRange (entry : ManualAlignment) (source : MergeSource)
    (threeWay : Bool) : LineRange :=
  match threeWay, source with
  | true, .a => entry.baseRange
  | true, .b => entry.localRange
  | true, .c => entry.remoteRange
  | false, .a => entry.localRange
  | false, .b => entry.remoteRange
  | false, .c => .empty

def ManualAlignment.isEmpty (entry : ManualAlignment) : Bool :=
  entry.baseRange.isEmpty && entry.localRange.isEmpty && entry.remoteRange.isEmpty

def ManualAlignment.strictlyPrecedes (entry other : ManualAlignment) : Bool :=
  let pairs := [(entry.baseRange, other.baseRange), (entry.localRange, other.localRange),
    (entry.remoteRange, other.remoteRange)]
  pairs.all (fun pair => decide (pair.1.stop ≤ pair.2.start)) &&
    pairs.any (fun pair => decide (pair.1.stop < pair.2.start))

abbrev ManualAlignmentList := List ManualAlignment

def ManualAlignmentList.insert (entries : ManualAlignmentList) (entry : ManualAlignment) :
    ManualAlignmentList × Bool :=
  if entry.isEmpty then (entries, false)
  else
    let before := entries.takeWhile fun existing => existing.strictlyPrecedes entry
    let after := entries.drop before.length
    if after.any fun existing => !entry.strictlyPrecedes existing then (entries, false)
    else (before ++ entry :: after, true)

abbrev Segment := LineRange × LineRange

def pushSegment (segments : List Segment) (left right : LineRange) : List Segment :=
  if !left.isEmpty || !right.isEmpty then segments ++ [(left, right)] else segments

structure SegmentCursor where
  segments : List Segment
  left : ℕ
  right : ℕ

def pinSegments (threeWay : Bool) (left right : MergeSource) (leftLen rightLen : ℕ) :
    ManualAlignmentList → SegmentCursor → SegmentCursor
  | [], st => st
  | entry :: entries, st =>
    let pinnedLeft := entry.sourceRange left threeWay
    let pinnedRight := entry.sourceRange right threeWay
    if leftLen < pinnedLeft.stop ∨ rightLen < pinnedRight.stop ∨ pinnedLeft.start < st.left ∨
        pinnedRight.start < st.right then
      pinSegments threeWay left right leftLen rightLen entries st
    else
      let segments := pushSegment st.segments ⟨st.left, pinnedLeft.start⟩
        ⟨st.right, pinnedRight.start⟩
      pinSegments threeWay left right leftLen rightLen entries
        ⟨pushSegment segments pinnedLeft pinnedRight, pinnedLeft.stop, pinnedRight.stop⟩

def alignmentSegments (entries : ManualAlignmentList) (threeWay : Bool) (left : MergeSource)
    (leftLen : ℕ) (right : MergeSource) (rightLen : ℕ) : List Segment :=
  let st := pinSegments threeWay left right leftLen rightLen entries ⟨[], 0, 0⟩
  if st.segments = [] then []
  else pushSegment st.segments ⟨st.left, leftLen⟩ ⟨st.right, rightLen⟩

def diffSegments (algorithm : DiffAlgorithm) (left right : List Line) :
    List Segment → Option (List PairChunk)
  | [] => some []
  | (leftRange, rightRange) :: segments => do
    let leftLines ← sliceOf left leftRange.start leftRange.stop
    let rightLines ← sliceOf right rightRange.start rightRange.stop
    let chunks ← diffChunks algorithm leftLines rightLines
    let rest ← diffSegments algorithm left right segments
    some (chunks ++ rest)

def diffChunksSegmented (algorithm : DiffAlgorithm) (left right : List Line)
    (segments : List Segment) : Option (List PairChunk) :=
  if segments = [] then diffChunks algorithm left right
  else diffSegments algorithm left right segments

structure AlignmentBarriers where
  a : List ℕ
  b : List ℕ
  c : List ℕ
  deriving DecidableEq

def barrierBounds (entries : ManualAlignmentList) (threeWay : Bool) (source : MergeSource) :
    List ℕ :=
  entries.flatMap fun entry =>
    [(entry.sourceRange source threeWay).start, (entry.sourceRange source threeWay).stop]

def AlignmentBarriers.new (entries : ManualAlignmentList) (threeWay : Bool) : AlignmentBarriers :=
  ⟨barrierBounds entries threeWay .a, barrierBounds entries threeWay .b,
    barrierBounds entries threeWay .c⟩

def AlignmentBarriers.isEmpty (barriers : AlignmentBarriers) : Bool :=
  decide (barriers.a = []) && decide (barriers.b = []) && decide (barriers.c = [])

def AlignmentBarriers.bounds (barriers : AlignmentBarriers) : MergeSource → List ℕ
  | .a => barriers.a
  | .b => barriers.b
  | .c => barriers.c

def AlignmentBarriers.segment (barriers : AlignmentBarriers) (source : MergeSource) (line : ℕ) :
    ℕ :=
  ((barriers.bounds source).takeWhile fun bound => decide (bound ≤ line)).length

def AlignmentBarriers.rowSegment (barriers : AlignmentBarriers) (row : AlignedRow) : ℕ :=
  let present := [MergeSource.a, .b, .c].filterMap fun source =>
    (row.line source).map (barriers.segment source)
  present.min?.getD 0

def LineRange.Ordered (range : LineRange) : Prop := range.start ≤ range.stop

theorem normalizeRange_ordered (range : LineRange) : (normalizeRange range).Ordered := by
  unfold normalizeRange LineRange.Ordered
  split
  · assumption
  · exact le_refl _

structure ManualAlignment.Ordered (entry : ManualAlignment) : Prop where
  base : entry.baseRange.Ordered
  ours : entry.localRange.Ordered
  theirs : entry.remoteRange.Ordered

theorem new_ordered (base ours theirs : LineRange) :
    (ManualAlignment.new base ours theirs).Ordered :=
  ⟨normalizeRange_ordered _, normalizeRange_ordered _, normalizeRange_ordered _⟩

theorem ManualAlignment.Ordered.sourceRange {entry : ManualAlignment} (h : entry.Ordered)
    (source : MergeSource) (threeWay : Bool) : (entry.sourceRange source threeWay).Ordered := by
  cases threeWay <;> cases source
  · exact h.ours
  · exact h.theirs
  · exact le_refl _
  · exact h.base
  · exact h.ours
  · exact h.theirs

inductive SegmentTiles : List Segment → ℕ → ℕ → ℕ → ℕ → Prop
  | nil (l r : ℕ) : SegmentTiles [] l r l r
  | cons {segments l r l' r' l'' r''} : l ≤ l' → r ≤ r' → SegmentTiles segments l' r' l'' r'' →
      SegmentTiles ((⟨l, l'⟩, ⟨r, r'⟩) :: segments) l r l'' r''

variable {segments : List Segment} {l r l' r' : ℕ}

section
variable (h : SegmentTiles segments l r l' r')
include h

theorem SegmentTiles.append {segments' : List Segment} {l'' r'' : ℕ}
    (h' : SegmentTiles segments' l' r' l'' r'') :
    SegmentTiles (segments ++ segments') l r l'' r'' := by
  induction h with
  | nil => exact h'
  | cons hl hr _ ih => exact .cons hl hr (ih h')

theorem SegmentTiles.le : l ≤ l' ∧ r ≤ r' := by
  induction h with
  | nil => exact ⟨le_refl _, le_refl _⟩
  | cons hl hr _ ih => exact ⟨le_trans hl ih.1, le_trans hr ih.2⟩

theorem pushSegment_tiles {l'' r'' : ℕ} (hl : l' ≤ l'') (hr : r' ≤ r'') :
    SegmentTiles (pushSegment segments ⟨l', l''⟩ ⟨r', r''⟩) l r l'' r'' := by
  unfold pushSegment LineRange.isEmpty
  split
  · exact h.append (.cons hl hr (.nil _ _))
  · rename_i hempty
    simp only [Bool.not_not, Bool.or_eq_true, decide_eq_true_eq, not_or, not_lt] at hempty
    obtain rfl := le_antisymm hl hempty.1
    obtain rfl := le_antisymm hr hempty.2
    exact h

end

theorem pinSegments_tiles (threeWay : Bool) (left right : MergeSource) (leftLen rightLen : ℕ)
    (entries : ManualAlignmentList) : ∀ {s : SegmentCursor}, (∀ entry ∈ entries, entry.Ordered) →
      s.left ≤ leftLen → s.right ≤ rightLen → SegmentTiles s.segments 0 0 s.left s.right →
      let final := pinSegments threeWay left right leftLen rightLen entries s
      final.left ≤ leftLen ∧ final.right ≤ rightLen ∧
        SegmentTiles final.segments 0 0 final.left final.right := by
  induction entries with
  | nil => exact fun _ hl hr h => ⟨hl, hr, h⟩
  | cons entry entries ih =>
    intro s hordered hl hr h
    have hrest : ∀ e ∈ entries, e.Ordered := fun e he => hordered e (List.mem_cons_of_mem _ he)
    have hentry := hordered entry List.mem_cons_self
    simp only [pinSegments]
    split
    · exact ih hrest hl hr h
    · rename_i hpinned
      simp only [not_or, not_lt] at hpinned
      obtain ⟨hls, hrs, hlc, hrc⟩ := hpinned
      refine ih hrest hls hrs ?_
      exact pushSegment_tiles (pushSegment_tiles h hlc hrc) (hentry.sourceRange left threeWay)
        (hentry.sourceRange right threeWay)

theorem alignmentSegments_tiles {entries : ManualAlignmentList}
    (hordered : ∀ entry ∈ entries, entry.Ordered) (threeWay : Bool) (left : MergeSource)
    (leftLen : ℕ) (right : MergeSource) (rightLen : ℕ) :
    alignmentSegments entries threeWay left leftLen right rightLen = [] ∨
      SegmentTiles (alignmentSegments entries threeWay left leftLen right rightLen) 0 0 leftLen
        rightLen := by
  obtain ⟨hl, hr, h⟩ := pinSegments_tiles threeWay left right leftLen rightLen entries
    (s := ⟨[], 0, 0⟩) hordered (Nat.zero_le _) (Nat.zero_le _) (.nil 0 0)
  unfold alignmentSegments
  simp only
  split
  · exact Or.inl rfl
  · exact Or.inr (pushSegment_tiles h hl hr)

theorem diffSegments_aligned (algorithm : DiffAlgorithm) {left right : List Line}
    (h : SegmentTiles segments l r left.length right.length) :
    ∃ cs, diffSegments algorithm left right segments = some cs ∧
      Aligned SameWords (slice left l left.length) (slice right r right.length) cs := by
  generalize hl : left.length = l' at h
  generalize hr : right.length = r' at h
  induction h with
  | nil l r => exact ⟨[], rfl, by rw [slice_self, slice_self]; exact .nil⟩
  | @cons segments l r l' r' l'' r'' hle hre htail ih =>
    obtain ⟨cs, hcs, haligned⟩ := ih hl hr
    have hbound := htail.le
    obtain ⟨chunks, hchunks, hhead⟩ := diffChunks_aligned algorithm (slice left l l')
      (slice right r r')
    refine ⟨chunks ++ cs, ?_, ?_⟩
    · simp only [diffSegments, sliceOf_eq hle (hl ▸ hbound.1), sliceOf_eq hre (hr ▸ hbound.2),
        hchunks, hcs, Option.bind_eq_bind, Option.bind_some]
    · rw [← slice_append left hle hbound.1, ← slice_append right hre hbound.2]
      exact hhead.append haligned

theorem diffChunksSegmented_aligned (algorithm : DiffAlgorithm) (left right : List Line)
    {entries : ManualAlignmentList} (hordered : ∀ entry ∈ entries, entry.Ordered)
    (threeWay : Bool) (s t : MergeSource) :
    ∃ cs, diffChunksSegmented algorithm left right
        (alignmentSegments entries threeWay s left.length t right.length) = some cs ∧
      Aligned SameWords left right cs := by
  unfold diffChunksSegmented
  split
  · exact diffChunks_aligned algorithm left right
  · rename_i hne
    have htiles := (alignmentSegments_tiles hordered threeWay s left.length t
      right.length).resolve_left hne
    have h := diffSegments_aligned algorithm htiles
    rwa [slice_full, slice_full] at h

end GitComet.Merge

namespace GitComet.Merge
open LinkedArena Text

abbrev RowList := Arena AlignedRow

def rowWith (source : MergeSource) (line : ℕ) : AlignedRow :=
  (AlignedRow.ofCells none none none).setLine source (some line)

def pairRow (a b : ℕ) : AlignedRow := .ofCells (some a) (some b) none

def pushPairs : ℕ → ℕ → ℕ → RowList → Option RowList
  | 0, _, _, rows => some rows
  | count + 1, a, b, rows => do
    let (rows, _) ← rows.pushBack (pairRow a b)
    pushPairs count (a + 1) (b + 1) rows

def pushSingles (source : MergeSource) : ℕ → ℕ → RowList → Option RowList
  | 0, _, rows => some rows
  | count + 1, line, rows => do
    let (rows, _) ← rows.pushBack (rowWith source line)
    pushSingles source count (line + 1) rows

def buildAb : List PairChunk → ℕ → ℕ → RowList → Option RowList
  | [], _, _, rows => some rows
  | chunk :: chunks, a, b, rows => do
    let rows ← pushPairs chunk.equal a b rows
    let a := a + chunk.equal
    let b := b + chunk.equal
    let paired := min chunk.left chunk.right
    let rows ← pushPairs paired a b rows
    let rows ← pushSingles .a (chunk.left - paired) (a + paired) rows
    let rows ← pushSingles .b (chunk.right - paired) (b + paired) rows
    buildAb chunks (a + chunk.left) (b + chunk.right) rows

def RowList.findFrom (rows : RowList) (cursor : Option ℕ) (source : MergeSource) (line : ℕ) :
    Option (Option ℕ) :=
  Arena.findFrom rows (fun row => decide (row.line source = some line)) rows.nodes.length cursor

def attachEqual : ℕ → ℕ → ℕ → RowList → Option ℕ → Option (RowList × Option ℕ)
  | 0, _, _, rows, cursor => some (rows, cursor)
  | count + 1, a, c, rows, cursor => do
    let result ← rows.findFrom cursor .a a
    let found ← result
    let rows ← rows.setValue found fun row => row.setLine .c (some c)
    attachEqual count (a + 1) (c + 1) rows (rows.next found)

def insertSingles (source : MergeSource) : ℕ → ℕ → RowList → Option ℕ → Option RowList
  | 0, _, rows, _ => some rows
  | count + 1, line, rows, cursor => do
    let (rows, _) ← rows.insertBefore cursor (rowWith source line)
    insertSingles source count (line + 1) rows cursor

def integrateAc : List PairChunk → ℕ → ℕ → RowList → Option ℕ → Option RowList
  | [], _, _, rows, _ => some rows
  | chunk :: chunks, a, c, rows, cursor => do
    let (rows, cursor) ← attachEqual chunk.equal a c rows cursor
    let a := a + chunk.equal
    let c := c + chunk.equal
    let paired := min chunk.left chunk.right
    let rows ← insertSingles .c paired c rows cursor
    let rows ← insertSingles .c (chunk.right - paired) (c + paired) rows cursor
    integrateAc chunks (a + chunk.left) (c + chunk.right) rows cursor

def RowList.recomputeRows (texts : Sources) (rows : RowList) : RowList :=
  rows.mapAlive (recomputeRowMetadata texts)

def RowList.intoRows (rows : RowList) : Option (List AlignedRow) :=
  Arena.collect rows rows.nodes.length rows.first

def RowList.fromRows : List AlignedRow → RowList → Option RowList
  | [], list => some list
  | row :: rows, list => do
    let (list, _) ← list.pushBack row
    fromRows rows list

def rowsAt (list : RowList) (ids : List ℕ) : List AlignedRow := ids.filterMap list.valueAt

def Represents (list : RowList) (cursor : Option ℕ) (done rest : List AlignedRow) : Prop :=
  ∃ l r, Holds list (l ++ r) ∧ cursor = r.head? ∧ rowsAt list l = done ∧ rowsAt list r = rest

theorem rowsAt_append (list : RowList) (l r : List ℕ) :
    rowsAt list (l ++ r) = rowsAt list l ++ rowsAt list r :=
  List.filterMap_append

theorem rowsAt_congr {l list' : RowList} {i : List ℕ}
    (h : ∀ id ∈ i, list'.valueAt id = l.valueAt id) : rowsAt list' i = rowsAt l i :=
  List.filterMap_congr h

theorem represents_empty : Represents .empty none [] [] := ⟨[], [], empty_holds, rfl, rfl, rfl⟩

variable {list : RowList} {cursor : Option ℕ} {done rest : List AlignedRow}

theorem represents_insert (h : Represents list cursor done rest) (row : AlignedRow) :
    ∃ list' id, list.insertBefore cursor row = some (list', id) ∧
      Represents list' cursor (done ++ [row]) rest := by
  obtain ⟨l, r, hh, rfl, rfl, rfl⟩ := h
  obtain ⟨list', hrun, hi⟩ := insertBefore_spec hh row
  have hfresh := holds_fresh hh
  simp only [List.mem_append, not_or] at hfresh
  refine ⟨list', _, hrun, l ++ [list.nodes.length], r, ?_, rfl, ?_, ?_⟩
  · simpa using hi.holds
  · rw [rowsAt_append, rowsAt_congr fun id hid => hi.old id fun he => hfresh.1 (he ▸ hid)]
    simp [rowsAt, hi.new]
  · exact rowsAt_congr fun id hid => hi.old id fun he => hfresh.2 (he ▸ hid)

theorem represents_push (h : Represents list none done []) (row : AlignedRow) :
    ∃ list' id, list.pushBack row = some (list', id) ∧ Represents list' none (done ++ [row]) [] :=
  represents_insert h row

theorem rowsAt_split {ids : List ℕ} (hh : ∀ id ∈ ids, ∃ v, list.valueAt id = some v) :
    ∀ {pre : List AlignedRow} {row : AlignedRow} {post : List AlignedRow},
      rowsAt list ids = pre ++ row :: post →
      ∃ l id r, ids = l ++ id :: r ∧ rowsAt list l = pre ∧ list.valueAt id = some row ∧
        rowsAt list r = post := by
  induction ids with
  | nil =>
    intro pre row post h
    simp [rowsAt] at h
  | cons id ids ih =>
    intro pre row post h
    obtain ⟨v, hv⟩ := hh id List.mem_cons_self
    simp only [rowsAt, List.filterMap_cons, hv] at h
    cases pre with
    | nil =>
      rw [List.nil_append] at h
      obtain ⟨rfl, hpost⟩ := List.cons.inj h
      exact ⟨[], id, ids, rfl, rfl, hv, hpost⟩
    | cons p pre =>
      rw [List.cons_append] at h
      obtain ⟨rfl, hrest⟩ := List.cons.inj h
      obtain ⟨l, j, r, rfl, hl, hj, hr⟩ := ih (fun k hk => hh k (List.mem_cons_of_mem _ hk)) hrest
      exact ⟨id :: l, j, r, rfl, by simp only [rowsAt, List.filterMap_cons, hv] at hl ⊢; rw [hl],
        hj, hr⟩

theorem represents_attach {pre post : List AlignedRow} {row : AlignedRow} {source : MergeSource}
    {line : ℕ} (h : Represents list cursor done (pre ++ row :: post))
    (hpre : ∀ r ∈ pre, r.line source ≠ some line) (hrow : row.line source = some line)
    (f : AlignedRow → AlignedRow) :
    ∃ id list', list.findFrom cursor source line = some (some id) ∧
      list.setValue id f = some list' ∧
      Represents list' (list'.next id) (done ++ pre ++ [f row]) post := by
  obtain ⟨l, r, hh, rfl, rfl, hr⟩ := h
  have hvals : ∀ id ∈ r, ∃ v, list.valueAt id = some v := fun id hid =>
    valueAt_isSome hh (List.mem_append_right _ hid)
  obtain ⟨lp, id, rp, rfl, hlp, hid, hrp⟩ := rowsAt_split hvals hr
  have hlinked := (linked_append.mp hh.linked).2
  have hfind := findFrom_spec (p := fun row => decide (row.line source = some line))
    (lp ++ id :: rp) hlinked (n := list.nodes.length)
    (by rw [← hh.size]; simp)
  have hnone : ∀ j ∈ lp, ¬(list.valueAt j).any (fun row => decide (row.line source = some line)) =
      true := by
    intro j hj
    obtain ⟨v, hv⟩ := hvals j (List.mem_append_left _ hj)
    have hmem : v ∈ rowsAt list lp := List.mem_filterMap.mpr ⟨j, hj, hv⟩
    rw [hlp] at hmem
    simpa [hv] using hpre v hmem
  rw [List.find?_append, List.find?_eq_none.mpr hnone, Option.none_or, List.find?_cons, hid] at hfind
  simp only [Option.any_some, hrow, decide_true] at hfind
  have hmem : id ∈ l ++ (lp ++ id :: rp) := by simp
  obtain ⟨list', hset, hu⟩ := setValue_spec hh hmem f
  have hnodup := hh.nodup
  rw [← List.append_assoc] at hnodup
  have hnotin : id ∉ l ++ lp ∧ id ∉ rp := by
    rw [List.nodup_middle, List.nodup_cons, List.mem_append, not_or] at hnodup
    exact hnodup.1
  have hholds : Holds list' ((l ++ lp ++ [id]) ++ rp) := by simpa using hu.holds
  have hnext := next_spec (i := list') (l := l ++ lp) (r := rp) (d := id) (by
    simpa using hu.holds)
  refine ⟨id, list', hfind, hset, l ++ lp ++ [id], rp, hholds, hnext, ?_, ?_⟩
  · rw [rowsAt_append, rowsAt_congr (l := list) (i := l ++ lp) fun j hj => hu.other j fun he =>
      hnotin.1 (he ▸ hj), rowsAt_append, hlp]
    simp [rowsAt, hu.here, hid]
  · rw [rowsAt_congr (l := list) fun j hj => hu.other j fun he => hnotin.2 (he ▸ hj), hrp]

theorem represents_first {rows : List AlignedRow}
    (h : Represents list none rows []) : Represents list list.first [] rows := by
  obtain ⟨l, r, hh, hc, hl, hr⟩ := h
  obtain rfl : r = [] := List.head?_eq_none_iff.mp hc.symm
  rw [List.append_nil] at hh
  exact ⟨[], l, hh, hh.first, rfl, hl⟩

theorem represents_intoRows
    (h : Represents list cursor done rest) : list.intoRows = some (done ++ rest) := by
  obtain ⟨l, r, hh, -, rfl, rfl⟩ := h
  have hcollect := collect_spec (l ++ r) hh.linked (n := list.nodes.length)
    (by rw [← hh.size])
  rw [RowList.intoRows, hh.first, hcollect, ← rowsAt_append]
  rfl

theorem represents_recompute (texts : Sources) (h : Represents list cursor done rest) :
    Represents (list.recomputeRows texts) cursor (done.map (recomputeRowMetadata texts))
      (rest.map (recomputeRowMetadata texts)) := by
  obtain ⟨l, r, hh, rfl, rfl, rfl⟩ := h
  have hm := mapAlive_spec (recomputeRowMetadata texts) hh
  have hrows : ∀ ids, (∀ id ∈ ids, id ∈ l ++ r) →
      rowsAt (list.recomputeRows texts) ids = (rowsAt list ids).map (recomputeRowMetadata texts) := by
    intro ids hids
    rw [rowsAt, rowsAt, List.map_filterMap]
    exact List.filterMap_congr fun id hid => hm.value id (hids id hid)
  exact ⟨l, r, hm.holds, rfl, hrows l fun id hid => List.mem_append_left _ hid,
    hrows r fun id hid => List.mem_append_right _ hid⟩

theorem fromRows_spec (rows : List AlignedRow) : ∀ {list : RowList} {done : List AlignedRow},
    Represents list none done [] →
      ∃ list', RowList.fromRows rows list = some list' ∧ Represents list' none (done ++ rows) [] := by
  induction rows with
  | nil =>
    intro list done h
    exact ⟨list, rfl, by simpa using h⟩
  | cons row rows ih =>
    intro list done h
    obtain ⟨list', id, hpush, hrep⟩ := represents_push h row
    obtain ⟨final, hfinal, hrep'⟩ := ih hrep
    refine ⟨final, ?_, by simpa using hrep'⟩
    simp only [RowList.fromRows, hpush, Option.bind_eq_bind, Option.bind_some]
    exact hfinal

end GitComet.Merge
