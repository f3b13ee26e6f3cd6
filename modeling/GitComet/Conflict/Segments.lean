import GitComet.Conflict.Document

variable {tail : List Line}

namespace GitComet.Conflict
open Text Nat Option List

def ParsedConflictSegment.oursPart : ParsedConflictSegment → List Char
  | .text content => content
  | .conflict block => block.ours

def ParsedConflictSegment.theirsPart : ParsedConflictSegment → List Char
  | .text content => content
  | .conflict block => block.theirs

def contextSegments (context : List Line) : List ParsedConflictSegment :=
  if context.flatten = [] then [] else [.text context.flatten]

def partSegments (part : DocumentPart) : List ParsedConflictSegment :=
  contextSegments part.1 ++ [.conflict part.2.block]

def tailSegments (tail : List Line) : List ParsedConflictSegment :=
  contextSegments (tail.takeWhile insideContext) ++ contextSegments (tail.dropWhile insideContext)

def Document.segments (doc : Document) : List ParsedConflictSegment :=
  doc.parts.flatMap partSegments ++ tailSegments doc.tail

theorem segmentTexts_append {text : List Char} {ranges ranges' : List ParsedConflictSegmentRanges}
    {parts parts' : List ParsedConflictSegment} (h : segmentTexts text ranges = some parts)
    (h' : segmentTexts text ranges' = some parts') :
    segmentTexts text (ranges ++ ranges') = some (parts ++ parts') := by
  induction ranges generalizing parts with
  | nil =>
    cases h
    exact h'
  | cons range ranges ih =>
    obtain ⟨segment, hsegment, hrest⟩ := bind_eq_some_iff.mp h
    obtain ⟨segments, hsegments, heq⟩ := bind_eq_some_iff.mp hrest
    cases heq
    simp only [cons_append, segmentTexts, hsegment, ih hsegments, bind_eq_bind,
      bind_some]

theorem segmentTexts_context {t r p : List Char} {context : List Line}
    (h : t = r ++ (context.flatten ++ p)) :
    segmentTexts t (contextRange (byteLen r) (byteLen r + byteLen context.flatten)) =
      some (contextSegments context) := by
  unfold contextRange contextSegments
  by_cases hempty : context.flatten = []
  · rw [if_neg (by simp [hempty]), if_pos hempty]
    rfl
  · have hpos := byteLen_pos.mpr hempty
    rw [if_pos (by omega), if_neg hempty]
    simp only [segmentTexts, segmentText, textForRange_middle h, map_some,
      bind_eq_bind, bind_some]

theorem ConflictLines.blockText_ranges {t p post : List Char} (c : ConflictLines)
    (h : t = p ++ (c.lines.flatten ++ post)) :
    blockText t (c.ranges (byteLen p)) = some c.block := by
  simp only [lines, body, flatten_cons, flatten_append, flatten_nil,
    append_nil, append_assoc] at h
  have hours := textForRange_middle (t := t) (p := p ++ c.opening)
    (m := c.ours.flatten) (by simpa only [append_assoc] using h)
  have htheirs := textForRange_middle (t := t)
    (p := p ++ c.opening ++ c.ours.flatten ++ c.baseLines.flatten ++ c.separator)
    (m := c.theirs.flatten) (by simpa only [append_assoc] using h)
  have hbase : baseText t (c.ranges (byteLen p)).base = some c.block.base := by
    simp only [ranges, block]
    cases hpart : c.base with
    | none => rfl
    | some part =>
      have hmid := textForRange_middle (t := t)
        (p := p ++ c.opening ++ c.ours.flatten ++ part.1) (m := part.2.flatten)
        (by simpa [baseLines, hpart] using h)
      simp only [byteLen_append] at hmid
      simp only [map_some, baseText, hmid]
  simp only [byteLen_append] at hours htheirs
  simp only [blockText, hbase, bind_eq_bind, bind_some]
  simp only [ranges, hours, htheirs, bind_some]
  rfl

theorem segmentTexts_tail {text pre : List Char} (h : text = pre ++ tail.flatten) :
    segmentTexts text (tailRanges (byteLen pre) tail) = some (tailSegments tail) := by
  have hsplit := takeWhile_flatten insideContext tail
  rw [← hsplit] at h
  have hbroken := segmentTexts_context (t := text) (p := [])
    (r := pre ++ (tail.takeWhile insideContext).flatten) (by simpa using h)
  rw [byteLen_append] at hbroken
  refine segmentTexts_append (segmentTexts_context h) ?_
  rwa [← hsplit, byteLen_append, ← add_assoc]

theorem segmentTexts_document (parts : List DocumentPart) :
    ∀ {t p : List Char}, t = p ++ (parts.flatMap partLines ++ tail).flatten →
      segmentTexts t (documentRanges (byteLen p) parts tail) =
        some (parts.flatMap partSegments ++ tailSegments tail) := by
  induction parts with
  | nil => exact fun h => segmentTexts_tail h
  | cons part parts ih =>
    intro t p h
    simp only [flatMap_cons, partLines, flatten_append, append_assoc] at h
    have hcontext := segmentTexts_context h
    have hblock := part.2.blockText_ranges (p := p ++ part.1.flatten) (t := t)
      (by simpa only [append_assoc] using h)
    have hrest := ih (t := t) (p := p ++ part.1.flatten ++ part.2.lines.flatten)
      (by simpa only [append_assoc, flatten_append, partLines] using h)
    rw [byteLen_append] at hblock
    rw [byteLen_append, byteLen_append] at hrest
    simp only [documentRanges, flatMap_cons, partSegments, append_assoc]
    refine segmentTexts_append hcontext ?_
    simp only [segmentTexts, segmentText, hblock, hrest, map_some, bind_eq_bind,
      bind_some, singleton_append]

theorem parse_segments {text : List Char} {d : Document} (h : splitInclusive text = d.lines) :
    parseConflictMarkerSegments text = some d.segments := by
  rw [parseConflictMarkerSegments, parse_document h]
  exact segmentTexts_document d.parts (p := []) (by
    rw [nil_append, ← Document.lines, ← h, splitInclusive_flatten])

theorem sides_segments {text : List Char} {ranges : List ParsedConflictSegmentRanges} :
    ∀ {segments : List ParsedConflictSegment}, segmentTexts text ranges = some segments →
      sides text ranges = some (segments.flatMap (·.oursPart), segments.flatMap (·.theirsPart)) := by
  induction ranges with
  | nil =>
    intro segments h
    cases h
    rfl
  | cons range ranges ih =>
    intro segments h
    obtain ⟨segment, hsegment, hrest⟩ := bind_eq_some_iff.mp h
    obtain ⟨rest, hsegments, heq⟩ := bind_eq_some_iff.mp hrest
    cases heq
    cases range with
    | text range =>
      obtain ⟨content, hcontent, rfl⟩ := map_eq_some_iff.mp hsegment
      simp only [sides, hcontent, ih hsegments, bind_eq_bind, bind_some]
      rfl
    | conflict range =>
      obtain ⟨block, hblock, rfl⟩ := map_eq_some_iff.mp hsegment
      obtain ⟨base, -, hblock⟩ := bind_eq_some_iff.mp hblock
      obtain ⟨ours, hours, hblock⟩ := bind_eq_some_iff.mp hblock
      obtain ⟨theirs, htheirs, heq⟩ := bind_eq_some_iff.mp hblock
      cases heq
      simp only [sides, hours, htheirs, ih hsegments, bind_eq_bind, bind_some]
      rfl

end GitComet.Conflict

namespace GitComet.Conflict
open Text

def ParsedConflictSegmentRanges.range : ParsedConflictSegmentRanges → TextRange
  | .text range => range
  | .conflict block => ⟨block.markerStart, block.markerEnd⟩

def ParsedConflictBlockRanges.boundaries (block : ParsedConflictBlockRanges) : List ℕ :=
  [block.markerStart, block.ours.start, block.ours.stop, block.theirs.start, block.theirs.stop,
    block.markerEnd] ++ block.base.elim [] fun base => [base.start, base.stop]

def ParsedConflictSegmentRanges.boundaries : ParsedConflictSegmentRanges → List ℕ
  | .text range => [range.start, range.stop]
  | .conflict block => block.boundaries

inductive Covers : List TextRange → ℕ → ℕ → Prop
  | nil (n : ℕ) : Covers [] n n
  | cons {range : TextRange} {ranges : List TextRange} {stop : ℕ} : range.start < range.stop →
      Covers ranges range.stop stop → Covers (range :: ranges) range.start stop

def LineBoundary (text : List Char) (offset : ℕ) : Prop :=
  ∃ before after, splitInclusive text = before ++ after ∧ byteLen before.flatten = offset

def BlockLayout (text : List Char) (block : ParsedConflictBlockRanges) : Prop :=
  ∃ (before after : List Line) (c : ConflictLines),
    splitInclusive text = before ++ (c.lines ++ after) ∧
      block = c.ranges (byteLen before.flatten)

structure BlockOrdered (block : ParsedConflictBlockRanges) : Prop where
  opening : block.markerStart < block.ours.start
  ours : block.ours.start ≤ block.ours.stop
  separator : block.ours.stop < block.theirs.start
  base : ∀ base ∈ block.base, block.ours.stop < base.start ∧ base.start ≤ base.stop ∧
    base.stop < block.theirs.start
  theirs : block.theirs.start ≤ block.theirs.stop
  closing : block.theirs.stop < block.markerEnd

def wholeText (text : List Char) : List ParsedConflictSegmentRanges → Option (List Char)
  | [] => some []
  | segment :: segments => do
    let piece ← textForRange text segment.range
    let rest ← wholeText text segments
    some (piece ++ rest)

structure MarkerTiling (text : List Char) (segments : List ParsedConflictSegmentRanges)
    (start : ℕ) (content : List Char) : Prop where
  covers : Covers (segments.map (·.range)) start (start + byteLen content)
  boundaries : ∀ segment ∈ segments, ∀ offset ∈ segment.boundaries, LineBoundary text offset
  layout : ∀ block, .conflict block ∈ segments → BlockLayout text block ∧ BlockOrdered block
  reassembles : wholeText text segments = some content

section
variable {text : List Char} {segments : List ParsedConflictSegmentRanges} {content : List Char}

theorem startsWith_pos {marker : Char} {line : Line} (h : startsWith marker line) :
    0 < byteLen line := by
  rw [byteLen_pos]
  rintro rfl
  simp [startsWith] at h

theorem tiling_nil (text : List Char) (start : ℕ) : MarkerTiling text [] start [] :=
  ⟨.nil _, by simp, by simp, rfl⟩

variable {before after : List Line}

theorem boundary_at (h : splitInclusive text = before ++ after) :
    LineBoundary text (byteLen before.flatten) := ⟨before, after, h, rfl⟩

theorem split_text (h : splitInclusive text = before ++ after) :
    text = before.flatten ++ after.flatten := by
  rw [← List.flatten_append, ← h, splitInclusive_flatten]

theorem tiling_context {b c a : List Line} (hsplit : splitInclusive text = b ++ (c ++ a))
    (h : MarkerTiling text segments (byteLen (b ++ c).flatten) content) :
    MarkerTiling text (contextRange (byteLen b.flatten)
        (byteLen b.flatten + byteLen c.flatten) ++ segments)
      (byteLen b.flatten) (c.flatten ++ content) := by
  have hstop : byteLen b.flatten + byteLen c.flatten =
      byteLen (b ++ c).flatten := by rw [List.flatten_append, byteLen_append]
  have htext := split_text hsplit
  rw [List.flatten_append] at htext
  rw [hstop]
  unfold contextRange
  split
  · rename_i hlt
    refine ⟨?_, ?_, ?_, ?_⟩
    · rw [byteLen_append, ← add_assoc, hstop]
      exact .cons hlt h.covers
    · intro segment hsegment offset hoffset
      rcases List.mem_cons.mp hsegment with rfl | hsegment
      · simp only [ParsedConflictSegmentRanges.boundaries, List.mem_cons, List.not_mem_nil,
          or_false] at hoffset
        rcases hoffset with rfl | rfl
        · exact boundary_at hsplit
        · exact boundary_at (by rw [hsplit, List.append_assoc])
      · exact h.boundaries segment hsegment offset hoffset
    · intro block hblock
      rcases List.mem_cons.mp hblock with hblock | hblock
      · cases hblock
      · exact h.layout block hblock
    · have hpiece := textForRange_middle htext
      rw [hstop] at hpiece
      simp only [List.singleton_append, wholeText, ParsedConflictSegmentRanges.range, hpiece,
        h.reassembles, Option.bind_eq_bind, Option.bind_some]
  · rename_i hlt
    have hempty : c.flatten = [] := byteLen_eq_zero.mp (by omega)
    have hstart : byteLen (b ++ c).flatten = byteLen b.flatten := by
      rw [← hstop, hempty]
      rfl
    rw [hempty]
    rw [hstart] at h
    exact h

theorem blockOrdered_ranges (c : ConflictLines) (offset : ℕ) : BlockOrdered (c.ranges offset) := by
  have hopening := startsWith_pos c.opens
  have hseparator := startsWith_pos c.separates
  have hclosing := startsWith_pos c.closes
  refine ⟨?_, ?_, ?_, fun base hbase => ?_, ?_, ?_⟩
  all_goals simp only [ConflictLines.ranges] at *
  · omega
  · omega
  · omega
  · obtain ⟨part, hpart, rfl⟩ := Option.map_eq_some_iff.mp hbase
    have hintro := startsWith_pos (c.introduces part (by rw [hpart]; rfl))
    simp only [ConflictLines.baseLines, hpart, Option.elim_some, List.flatten_cons, byteLen_append]
    omega
  · omega
  · omega

theorem boundaries_ranges {c : ConflictLines}
    (hsplit : splitInclusive text = before ++ (c.lines ++ after)) :
    ∀ offset ∈ (c.ranges (byteLen before.flatten)).boundaries, LineBoundary text offset := by
  have hat : ∀ {f b : List Line} {offset : ℕ}, c.lines = f ++ b →
      offset = byteLen before.flatten + byteLen f.flatten → LineBoundary text offset := by
    intro front back offset hlines hoffset
    refine ⟨before ++ front, back ++ after, by rw [hsplit, hlines]; simp, ?_⟩
    rw [hoffset, List.flatten_append, byteLen_append]
  intro offset hoffset
  rcases List.mem_append.mp hoffset with hoffset | hoffset
  · simp only [ConflictLines.ranges, List.mem_cons, List.not_mem_nil, or_false] at hoffset
    rcases hoffset with rfl | rfl | rfl | rfl | rfl | rfl
    · exact hat (f := []) rfl (by simp)
    · exact hat (f := [c.opening]) rfl (by simp)
    · exact hat (f := c.opening :: c.ours) rfl (by simp [add_assoc])
    · exact hat (f := c.opening :: (c.ours ++ (c.baseLines ++ [c.separator])))
        (b := c.theirs ++ [c.closing])
        (by simp [ConflictLines.lines, ConflictLines.body]) (by simp [add_assoc])
    · exact hat (f := c.opening :: (c.ours ++ (c.baseLines ++ c.separator :: c.theirs)))
        (b := [c.closing]) (by simp [ConflictLines.lines, ConflictLines.body])
        (by simp [add_assoc])
    · exact hat (f := c.lines) (List.append_nil _).symm (by
        simp [ConflictLines.lines, ConflictLines.body, add_assoc])
  · simp only [ConflictLines.ranges] at hoffset
    cases hpart : c.base with
    | none => simp [hpart] at hoffset
    | some part =>
      simp only [hpart, Option.map_some, Option.elim_some, List.mem_cons, List.not_mem_nil,
        or_false] at hoffset
      rcases hoffset with rfl | rfl
      · exact hat (f := c.opening :: (c.ours ++ [part.1]))
          (b := part.2 ++ c.separator :: (c.theirs ++ [c.closing]))
          (by simp [ConflictLines.lines, ConflictLines.body, ConflictLines.baseLines, hpart])
          (by simp [add_assoc])
      · exact hat (f := c.opening :: (c.ours ++ part.1 :: part.2))
          (b := c.separator :: (c.theirs ++ [c.closing]))
          (by simp [ConflictLines.lines, ConflictLines.body, ConflictLines.baseLines, hpart])
          (by simp [add_assoc])

theorem tiling_conflict {b : List Line} {c : ConflictLines}
    (hsplit : splitInclusive text = b ++ (c.lines ++ after))
    (h : MarkerTiling text segments (byteLen (b ++ c.lines).flatten) content) :
    MarkerTiling text (.conflict (c.ranges (byteLen b.flatten)) :: segments)
      (byteLen b.flatten) (c.lines.flatten ++ content) := by
  have hend : (c.ranges (byteLen b.flatten)).markerEnd =
      byteLen (b ++ c.lines).flatten := by
    rw [c.markerEnd_ranges, List.flatten_append, byteLen_append]
  have htext := split_text hsplit
  rw [List.flatten_append] at htext
  refine ⟨?_, ?_, ?_, ?_⟩
  · have hcovers := h.covers
    rw [byteLen_append, ← add_assoc, ← byteLen_append, ← List.flatten_append, ← hend]
    rw [← hend] at hcovers
    refine .cons ?_ hcovers
    have hopening := startsWith_pos c.opens
    have hlen := c.markerEnd_ranges (byteLen b.flatten)
    rw [ConflictLines.lines, List.flatten_cons, byteLen_append] at hlen
    show byteLen b.flatten < (c.ranges (byteLen b.flatten)).markerEnd
    omega
  · intro segment hsegment
    rcases List.mem_cons.mp hsegment with rfl | hsegment
    · exact boundaries_ranges hsplit
    · exact h.boundaries segment hsegment
  · intro block hblock
    rcases List.mem_cons.mp hblock with hblock | hblock
    · obtain rfl := ParsedConflictSegmentRanges.conflict.inj hblock
      exact ⟨⟨b, after, c, hsplit, rfl⟩, blockOrdered_ranges c _⟩
    · exact h.layout block hblock
  · have hpiece := textForRange_middle htext
    rw [← byteLen_append, ← List.flatten_append, ← hend] at hpiece
    have hrange : (ParsedConflictSegmentRanges.conflict (c.ranges (byteLen b.flatten))).range =
          ⟨byteLen b.flatten, (c.ranges (byteLen b.flatten)).markerEnd⟩ := rfl
    simp only [wholeText, hrange, hpiece, h.reassembles, Option.bind_eq_bind, Option.bind_some]

theorem tiling_tail (hsplit : splitInclusive text = before ++ tail) :
    MarkerTiling text (tailRanges (byteLen before.flatten) tail) (byteLen before.flatten)
      tail.flatten := by
  have hparts := List.takeWhile_append_dropWhile (p := insideContext) (l := tail)
  have hflat := takeWhile_flatten insideContext tail
  have hlast := tiling_context (b := before ++ tail.takeWhile insideContext)
    (c := tail.dropWhile insideContext) (a := [])
    (by rw [List.append_nil, List.append_assoc, hparts, hsplit]) (tiling_nil _ _)
  have h := tiling_context (b := before) (c := tail.takeWhile insideContext)
    (by rw [hparts, hsplit]) hlast
  rw [List.append_nil, List.append_nil, hflat] at h
  rw [tailRanges, ← hflat, byteLen_append, ← add_assoc]
  rw [List.flatten_append, byteLen_append] at h
  rw [hflat]
  exact h

theorem tiling_document (parts : List DocumentPart) : ∀ {b : List Line},
    splitInclusive text = b ++ (parts.flatMap partLines ++ tail) →
    MarkerTiling text (documentRanges (byteLen b.flatten) parts tail)
      (byteLen b.flatten) (parts.flatMap partLines ++ tail).flatten := by
  induction parts with
  | nil => exact fun hsplit => tiling_tail hsplit
  | cons part parts ih =>
    intro b hsplit
    simp only [List.flatMap_cons, partLines, List.append_assoc] at hsplit
    have hrest := ih (b := b ++ part.1 ++ part.2.lines)
      (by simpa only [List.append_assoc, partLines] using hsplit)
    have hconflict := tiling_conflict (b := b ++ part.1) (c := part.2)
      (by simpa only [List.append_assoc] using hsplit) hrest
    have h := tiling_context hsplit hconflict
    simp only [List.flatten_append, byteLen_append] at h
    simpa only [documentRanges, List.flatMap_cons, partLines, List.append_assoc,
      List.flatten_append] using h

end

theorem marker_ranges_tile (text : List Char) :
    MarkerTiling text (parseConflictMarkerRanges text) 0 text := by
  obtain ⟨doc, hdoc⟩ := document_exists (splitInclusive text)
  have h := tiling_document doc.parts (b := []) hdoc.symm
  rw [← Document.lines, hdoc, splitInclusive_flatten] at h
  rw [parse_document hdoc.symm]
  exact h

end GitComet.Conflict
