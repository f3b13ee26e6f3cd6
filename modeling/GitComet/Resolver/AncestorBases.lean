import GitComet.Resolver.Blocks

namespace GitComet.Resolver
open Conflict List Option

-- `str::find`, its offset counted in characters.
def findText (needle : List Char) : List Char → Option ℕ
  | [] => if needle = [] then some 0 else none
  | c :: text =>
    if needle.isPrefixOf (c :: text) then some 0 else (findText needle text).map (· + 1)

def needsBase : ConflictSegment → Bool
  | .text _ => false
  | .block block => block.base.isNone

def textRanges (ancestorText : List Char) : ℕ → List ConflictSegment → Option (List TextRange)
  | _, [] => some []
  | cursor, .block _ :: segments => textRanges ancestorText cursor segments
  | cursor, .text content :: segments => do
    let rel ← findText content (ancestorText.drop cursor)
    let start := cursor + rel
    let stop := start + content.length
    let ranges ← textRanges ancestorText stop segments
    some (⟨start, stop⟩ :: ranges)

def nextStart (ancestorText : List Char) (ranges : List TextRange) : ℕ :=
  (ranges.head?.map TextRange.start).getD ancestorText.length

def sliceText (text : List Char) (range : TextRange) : List Char :=
  (text.take range.stop).drop range.start

def fillBases (ancestorText : List Char) :
    List TextRange → ℕ → List ConflictSegment → List ConflictSegment
  | _, _, [] => []
  | ranges, prevEnd, .text content :: segments =>
    .text content :: fillBases ancestorText ranges.tail
      ((ranges.head?.map TextRange.stop).getD prevEnd) segments
  | ranges, prevEnd, .block block :: segments =>
    if block.base.isSome then .block block :: fillBases ancestorText ranges prevEnd segments
    else
      let base := sliceText ancestorText ⟨prevEnd, nextStart ancestorText ranges⟩
      .block { block with base := some base } :: fillBases ancestorText ranges prevEnd segments

def assignedBy (ancestorText : List Char) (segments : List ConflictSegment) :
    Option (List TextRange) :=
  if ancestorText = [] then none
  else if segments.any needsBase then textRanges ancestorText 0 segments
  else none

def populateBlockBasesFromAncestor (segments : List ConflictSegment) (ancestorText : List Char) :
    List ConflictSegment :=
  match assignedBy ancestorText segments with
  | none => segments
  | some ranges => fillBases ancestorText ranges 0 segments

structure Piece where
  range : TextRange
  isBase : Bool
  deriving DecidableEq

def pieces (ancestorText : List Char) : List TextRange → ℕ → List ConflictSegment → List Piece
  | _, _, [] => []
  | ranges, prevEnd, .text _ :: segments =>
    let stop := (ranges.head?.map TextRange.stop).getD prevEnd
    ⟨⟨nextStart ancestorText ranges, stop⟩, false⟩ ::
      pieces ancestorText ranges.tail stop segments
  | ranges, prevEnd, .block block :: segments =>
    if block.base.isSome then pieces ancestorText ranges prevEnd segments
    else ⟨⟨prevEnd, nextStart ancestorText ranges⟩, true⟩ ::
      pieces ancestorText ranges prevEnd segments

def pieceTexts : List ConflictSegment → List ConflictSegment → List (List Char)
  | .text content :: before, _ :: after => content :: pieceTexts before after
  | .block block :: before, .block filled :: after =>
    if block.base.isSome then pieceTexts before after
    else filled.base.getD [] :: pieceTexts before after
  | _, _ => []

def Touches (a b : Piece) : Prop := a.isBase ∨ b.isBase → a.range.stop = b.range.start

structure TilesAncestor (ancestorText : List Char) (spans : List Piece) (texts : List (List Char)) :
    Prop where
  slices : texts = spans.map fun piece => sliceText ancestorText piece.range
  inside : ∀ piece ∈ spans,
    piece.range.start ≤ piece.range.stop ∧ piece.range.stop ≤ ancestorText.length
  ordered : spans.Pairwise fun a b => a.range.stop ≤ b.range.start
  touching : spans.IsChain Touches

def stretches (ancestorText : List Char) :
    ℕ → List TextRange → ℕ → List ConflictSegment → List (ℕ × TextRange)
  | count, ranges, prevEnd, [] => [(count, ⟨prevEnd, nextStart ancestorText ranges⟩)]
  | count, ranges, prevEnd, .text _ :: segments =>
    (count, ⟨prevEnd, nextStart ancestorText ranges⟩) ::
      stretches ancestorText 0 ranges.tail ((ranges.head?.map TextRange.stop).getD prevEnd) segments
  | count, ranges, prevEnd, .block block :: segments =>
    stretches ancestorText (if block.base.isSome then count else count + 1) ranges prevEnd segments

def OneOrEmpty (stretch : ℕ × TextRange) : Prop :=
  stretch.1 ≤ 1 ∨ stretch.2.start = stretch.2.stop

instance decidableOneOrEmpty (stretch : ℕ × TextRange) : Decidable (OneOrEmpty stretch) :=
  inferInstanceAs (Decidable (_ ∨ _))

theorem findText_some {needle text : List Char} {n : ℕ} (h : findText needle text = some n) :
    (text.drop n).take needle.length = needle ∧ n + needle.length ≤ text.length := by
  induction text generalizing n with
  | nil =>
    rw [findText] at h
    split_ifs at h with hempty
    cases h
    rw [hempty]
    exact ⟨rfl, Nat.le_refl _⟩
  | cons c text ih =>
    rw [findText] at h
    split_ifs at h with hprefix
    · cases h
      rw [ isPrefixOf_iff_prefix] at hprefix
      refine ⟨(prefix_iff_eq_take.mp hprefix).symm, ?_⟩
      rw [Nat.zero_add]
      exact hprefix.length_le
    · obtain ⟨k, hk, rfl⟩ := map_eq_some_iff.mp h
      obtain ⟨htake, hlen⟩ := ih hk
      refine ⟨by rw [drop_succ_cons]; exact htake, ?_⟩
      rw [length_cons]
      omega

section
variable {ancestorText content : List Char} {ranges : List TextRange} {prevEnd count : ℕ}
  {segments : List ConflictSegment}

structure LocatedText (ancestorText content : List Char) (prevEnd : ℕ)
    (segments : List ConflictSegment) (ranges : List TextRange) (start stop : ℕ)
    (rest : List TextRange) : Prop where
  behind : prevEnd ≤ start
  forward : start ≤ stop
  inside : stop ≤ ancestorText.length
  text : sliceText ancestorText ⟨start, stop⟩ = content
  ranges_eq : ranges = ⟨start, stop⟩ :: rest
  later : textRanges ancestorText stop segments = some rest

section
variable (hend : prevEnd ≤ ancestorText.length)
include hend

theorem textRanges_text
    (h : textRanges ancestorText prevEnd (.text content :: segments) = some ranges) :
    ∃ start stop rest,
      LocatedText ancestorText content prevEnd segments ranges start stop rest := by
  rw [textRanges] at h
  obtain ⟨rel, hrel, h⟩ := bind_eq_some_iff.mp h
  obtain ⟨rest, hrest, h⟩ := bind_eq_some_iff.mp h
  obtain ⟨htake, hlen⟩ := findText_some hrel
  rw [length_drop] at hlen
  refine ⟨prevEnd + rel, prevEnd + rel + content.length, rest, Nat.le_add_right _ _,
    Nat.le_add_right _ _, by omega, ?_, (some.inj h).symm, hrest⟩
  rw [sliceText, drop_take, Nat.add_sub_cancel_left, ← drop_drop]
  exact htake

theorem nextStart_bounds (h : textRanges ancestorText prevEnd segments = some ranges) :
    prevEnd ≤ nextStart ancestorText ranges ∧
      nextStart ancestorText ranges ≤ ancestorText.length := by
  induction segments with
  | nil =>
    cases h
    exact ⟨hend, Nat.le_refl _⟩
  | cons segment segments ih =>
    cases segment with
    | text content =>
      obtain ⟨start, stop, rest, hlocated⟩ := textRanges_text hend h
      rw [hlocated.ranges_eq]
      exact ⟨hlocated.behind, hlocated.forward.trans hlocated.inside⟩
    | block block => exact ih h

theorem pieces_bounds (h : textRanges ancestorText prevEnd segments = some ranges) :
    ∀ piece ∈ pieces ancestorText ranges prevEnd segments,
      prevEnd ≤ piece.range.start ∧ piece.range.start ≤ piece.range.stop ∧
        piece.range.stop ≤ ancestorText.length := by
  induction segments generalizing ranges prevEnd with
  | nil =>
    intro piece hpiece
    cases hpiece
  | cons segment segments ih =>
    cases segment with
    | text content =>
      obtain ⟨start, stop, rest, hlocated⟩ := textRanges_text hend h
      rw [hlocated.ranges_eq]
      refine forall_mem_cons.mpr
        ⟨⟨hlocated.behind, hlocated.forward, hlocated.inside⟩, fun piece hpiece => ?_⟩
      obtain ⟨hstart, hpiece⟩ := ih hlocated.inside hlocated.later piece hpiece
      exact ⟨(hlocated.behind.trans hlocated.forward).trans hstart, hpiece⟩
    | block block =>
      rw [pieces]
      split_ifs
      · exact ih hend h
      · obtain ⟨hbehind, hinside⟩ := nextStart_bounds hend h
        exact forall_mem_cons.mpr ⟨⟨Nat.le_refl _, hbehind, hinside⟩, ih hend h⟩

theorem pieceTexts_fillBases (h : textRanges ancestorText prevEnd segments = some ranges) :
    pieceTexts segments (fillBases ancestorText ranges prevEnd segments) =
      (pieces ancestorText ranges prevEnd segments).map fun piece =>
        sliceText ancestorText piece.range := by
  induction segments generalizing ranges prevEnd with
  | nil => rfl
  | cons segment segments ih =>
    cases segment with
    | text content =>
      obtain ⟨start, stop, rest, hlocated⟩ := textRanges_text hend h
      have hrest := ih hlocated.inside hlocated.later
      rw [hlocated.ranges_eq, fillBases, pieceTexts, pieces, map_cons]
      exact congrArg₂ cons hlocated.text.symm hrest
    | block block =>
      rw [fillBases, pieces]
      split_ifs with hbase
      · rw [pieceTexts, if_pos hbase]
        exact ih hend h
      · rw [pieceTexts, if_neg hbase, map_cons]
        exact congrArg₂ cons rfl (ih hend h)

end

def gapPieces (ancestorText : List Char) (count : ℕ) (ranges : List TextRange) (prevEnd : ℕ) :
    List Piece :=
  replicate count ⟨⟨prevEnd, nextStart ancestorText ranges⟩, true⟩

theorem gapPieces_ordered (hend : prevEnd ≤ nextStart ancestorText ranges) :
    (gapPieces ancestorText count ranges prevEnd).Pairwise
        (fun a b => a.range.stop ≤ b.range.start) ↔
      OneOrEmpty (count, ⟨prevEnd, nextStart ancestorText ranges⟩) := by
  rw [gapPieces, pairwise_replicate, OneOrEmpty]
  exact or_congr_right ⟨hend.antisymm, fun h => h.symm.le⟩

theorem gapPieces_touching (h : OneOrEmpty (count, ⟨prevEnd, nextStart ancestorText ranges⟩)) :
    (gapPieces ancestorText count ranges prevEnd).IsChain Touches := by
  refine (pairwise_replicate.mpr ?_).isChain
  exact h.imp_right fun heq _ => heq.symm

theorem gapPieces_block {block : ConflictBlock} (hbase : ¬block.base.isSome) :
    gapPieces ancestorText count ranges prevEnd ++
        pieces ancestorText ranges prevEnd (.block block :: segments) =
      gapPieces ancestorText (count + 1) ranges prevEnd ++
        pieces ancestorText ranges prevEnd segments := by
  rw [pieces, if_neg hbase, gapPieces, gapPieces, replicate_succ', append_assoc, singleton_append]

theorem pieces_ordered_iff (count : ℕ) (hend : prevEnd ≤ ancestorText.length)
    (h : textRanges ancestorText prevEnd segments = some ranges) :
    (gapPieces ancestorText count ranges prevEnd ++
        pieces ancestorText ranges prevEnd segments).Pairwise
        (fun a b => a.range.stop ≤ b.range.start) ↔
      ∀ stretch ∈ stretches ancestorText count ranges prevEnd segments, OneOrEmpty stretch := by
  have hnext := (nextStart_bounds hend h).1
  induction segments generalizing ranges prevEnd count with
  | nil =>
    rw [pieces, append_nil, stretches, forall_mem_singleton]
    exact gapPieces_ordered hnext
  | cons segment segments ih =>
    cases segment with
    | text content =>
      obtain ⟨start, stop, rest, hlocated⟩ := textRanges_text hend h
      obtain rfl := hlocated.ranges_eq
      have hbounds := pieces_bounds hlocated.inside hlocated.later
      have hrest := ih 0 hlocated.inside hlocated.later
        (nextStart_bounds hlocated.inside hlocated.later).1
      have hbehind : ∀ piece ∈ pieces ancestorText rest stop segments, stop ≤ piece.range.start :=
        fun piece hpiece => (hbounds piece hpiece).1
      have hcross : ∀ gap ∈ gapPieces ancestorText count (⟨start, stop⟩ :: rest) prevEnd,
          ∀ piece ∈ (⟨⟨start, stop⟩, false⟩ : Piece) :: pieces ancestorText rest stop segments,
          gap.range.stop ≤ piece.range.start := by
        intro gap hgap piece hpiece
        rw [(mem_replicate.mp hgap).2]
        rcases mem_cons.mp hpiece with rfl | hpiece
        · exact Nat.le_refl _
        · exact hlocated.forward.trans (hbehind piece hpiece)
      have hpieces : pieces ancestorText (⟨start, stop⟩ :: rest) prevEnd
          (.text content :: segments) =
          ⟨⟨start, stop⟩, false⟩ :: pieces ancestorText rest stop segments := rfl
      have hgaps : stretches ancestorText count (⟨start, stop⟩ :: rest) prevEnd
          (.text content :: segments) =
          (count, ⟨prevEnd, nextStart ancestorText (⟨start, stop⟩ :: rest)⟩) ::
            stretches ancestorText 0 rest stop segments := rfl
      rw [hgaps, hpieces, forall_mem_cons, ← gapPieces_ordered hnext, pairwise_append,
        pairwise_cons]
      exact ⟨fun h => ⟨h.1, hrest.mp h.2.1.2⟩, fun h => ⟨h.1, ⟨hbehind, hrest.mpr h.2⟩, hcross⟩⟩
    | block block =>
      rw [stretches]
      split_ifs with hbase
      · rw [pieces, if_pos hbase]
        exact ih count hend h hnext
      · rw [gapPieces_block hbase]
        exact ih (count + 1) hend h hnext

theorem gap_touches_text {start stop : ℕ} {rest : List TextRange} {later : List Piece}
    (h : OneOrEmpty (count, ⟨prevEnd, start⟩))
    (hlater : ((⟨⟨start, stop⟩, false⟩ : Piece) :: later).IsChain Touches) :
    (gapPieces ancestorText count (⟨start, stop⟩ :: rest) prevEnd ++
      (⟨⟨start, stop⟩, false⟩ : Piece) :: later).IsChain Touches := by
  refine isChain_append.mpr ⟨gapPieces_touching h, hlater, fun gap hgap piece hpiece => ?_⟩
  have hgap : gap ∈ gapPieces ancestorText count (⟨start, stop⟩ :: rest) prevEnd :=
    mem_of_mem_getLast? hgap
  rw [(mem_replicate.mp hgap).2, ← some.inj hpiece]
  exact fun _ => rfl

theorem text_touches {start stop : ℕ}
    (hlater : (pieces ancestorText ranges stop segments).IsChain Touches) :
    ((⟨⟨start, stop⟩, false⟩ : Piece) :: pieces ancestorText ranges stop segments).IsChain
      Touches := by
  induction segments with
  | nil => exact .singleton _
  | cons segment segments ih =>
    cases segment with
    | text content =>
      refine isChain_cons_cons.mpr ⟨fun hbase => ?_, hlater⟩
      rcases hbase with hbase | hbase
      · cases hbase
      · cases hbase
    | block block =>
      rw [pieces] at hlater ⊢
      split_ifs at hlater ⊢
      · exact ih hlater
      · exact isChain_cons_cons.mpr ⟨fun _ => rfl, hlater⟩

theorem pieces_touching (count : ℕ) (hend : prevEnd ≤ ancestorText.length)
    (h : textRanges ancestorText prevEnd segments = some ranges)
    (hstretches : ∀ stretch ∈ stretches ancestorText count ranges prevEnd segments,
      OneOrEmpty stretch) :
    (gapPieces ancestorText count ranges prevEnd ++
      pieces ancestorText ranges prevEnd segments).IsChain Touches := by
  induction segments generalizing ranges prevEnd count with
  | nil =>
    rw [stretches, forall_mem_singleton] at hstretches
    rw [pieces, append_nil]
    exact gapPieces_touching hstretches
  | cons segment segments ih =>
    cases segment with
    | text content =>
      obtain ⟨start, stop, rest, hlocated⟩ := textRanges_text hend h
      obtain rfl := hlocated.ranges_eq
      rw [stretches, forall_mem_cons] at hstretches
      exact gap_touches_text hstretches.1
        (text_touches (ih 0 hlocated.inside hlocated.later hstretches.2))
    | block block =>
      rw [stretches] at hstretches
      split_ifs at hstretches with hbase
      · rw [pieces, if_pos hbase]
        exact ih count hend h hstretches
      · rw [gapPieces_block hbase]
        exact ih (count + 1) hend h hstretches

end

theorem recovered_bases_tile_iff (segments : List ConflictSegment) (ancestorText : List Char) :
    (∀ ranges, assignedBy ancestorText segments = some ranges →
      TilesAncestor ancestorText (pieces ancestorText ranges 0 segments)
        (pieceTexts segments (populateBlockBasesFromAncestor segments ancestorText))) ↔
      ∀ ranges, assignedBy ancestorText segments = some ranges →
        ∀ stretch ∈ stretches ancestorText 0 ranges 0 segments, OneOrEmpty stretch := by
  refine forall₂_congr fun ranges hassigned => ?_
  have hranges : textRanges ancestorText 0 segments = some ranges := by
    rw [assignedBy] at hassigned
    split_ifs at hassigned
    exact hassigned
  have hzero := Nat.zero_le ancestorText.length
  rw [populateBlockBasesFromAncestor, hassigned]
  constructor
  · intro h
    exact (pieces_ordered_iff 0 hzero hranges).mp h.ordered
  · intro h
    have hbounds := pieces_bounds hzero hranges
    exact ⟨pieceTexts_fillBases hzero hranges, fun piece hpiece => (hbounds piece hpiece).2,
      (pieces_ordered_iff 0 hzero hranges).mpr h, pieces_touching 0 hzero hranges h⟩

def neighbourBlock : ConflictSegment :=
  .block ⟨none, ['o'], ['t'], ⟨[], nodup_nil⟩, false, false⟩

theorem neighbours_share_the_ancestor :
    ¬∀ ranges, assignedBy ['x'] [neighbourBlock, neighbourBlock] = some ranges →
      TilesAncestor ['x'] (pieces ['x'] ranges 0 [neighbourBlock, neighbourBlock])
        (pieceTexts [neighbourBlock, neighbourBlock]
          (populateBlockBasesFromAncestor [neighbourBlock, neighbourBlock] ['x'])) := by
  intro h
  have hordered := (h [] (by decide)).ordered
  exact absurd hordered (by decide)

end GitComet.Resolver
