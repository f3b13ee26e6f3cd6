import GitComet.Conflict.OutputDrift

namespace GitComet.Conflict.Output
open Text RegionEdit List Option

def sideBreaks (block : ParsedConflictBlock) : ℕ :=
  block.ours.count '\n' + (block.base.getD []).count '\n' + block.theirs.count '\n'

theorem closedSide_breaks (side : List Char) :
    (closedSide side ['\r']).count '\n' = side.count '\n' := by
  unfold closedSide
  split <;> simp

theorem marker_breaks {c : Char} {label : List Char} (hch : '\n' ≠ c) (hlabel : '\n' ∉ label) :
    (markerWithLabel c label).count '\n' = 0 :=
  count_eq_zero.mpr (markerWithLabel_free hch hlabel)

variable {block : ParsedConflictBlock}

theorem rendered_breaks {labels : ConflictMarkerLabels}
    (hlabels : FreeLabels labels) (h : detectConflictBlockLineEnding block = ['\r']) :
    (renderUnresolvedMarkerBlock block labels).count '\n' = sideBreaks block := by
  have hlocal := marker_breaks (c := '<') (by decide) hlabels.1
  have hremote := marker_breaks (c := '>') (by decide) hlabels.2.1
  have hbase := marker_breaks (c := '|') (by decide) hlabels.2.2
  have hsep : (replicate 7 '=').count '\n' = 0 := count_eq_zero.mpr (by simp)
  rw [renderUnresolvedMarkerBlock, h, sideBreaks]
  cases block.base <;>
    simp only [count_append, closedSide_breaks, hlocal, hremote, hbase, hsep,
      elim_none, elim_some, getD_none, getD_some, count_nil,
      count_cons] <;> simp; omega

theorem fullLine_breaks {line : Line} (h : FullLine line) : 0 < line.count '\n' := by
  obtain ⟨body, rfl, -⟩ := h
  simp

theorem block_breaks {c : ConflictLines} (h : FullBlock c) :
    sideBreaks c.block < c.lines.flatten.count '\n' := by
  have hopening := fullLine_breaks h.opening
  cases hbase : c.base <;>
    simp [sideBreaks, ConflictLines.block, ConflictLines.lines, ConflictLines.body,
      ConflictLines.baseLines, hbase] <;> omega

section
variable {c found : ConflictLines} {labels : ConflictMarkerLabels} {front back : List Char}

variable (front) in
theorem rendered_cr_no_block (hlabels : FreeLabels labels) (hfound : FullBlock found)
    (hblock : found.block = c.block) (h : detectConflictBlockLineEnding c.block = ['\r'])
    (heq : renderUnresolvedMarkerBlock c.block labels =
      front ++ (found.lines.flatten ++ back)) : False := by
  have hcount := rendered_breaks hlabels h
  have hlt := block_breaks hfound
  rw [heq, count_append, count_append] at hcount
  rw [hblock] at hlt
  omega

theorem written_no_block (hlabels : FreeLabels labels) (hfull : FullBlock c)
    (hfound : FullBlock found) (hblock : found.block = c.block) (hfront : Closed front)
    (hne : front ≠ []) (heq : renderUnresolvedMarkerBlock c.block labels =
      front ++ (found.lines.flatten ++ back)) : False := by
  rcases detect_cases c.block with hdetect | ⟨hdetect, -⟩
  · rw [← renderedLines_text hdetect rfl] at heq
    exact rendered_no_block hdetect hlabels hfull hfound hblock hfront hne heq
  · exact rendered_cr_no_block _ hlabels hfound hblock hdetect heq

end

structure SamePart (part found : DocumentPart) : Prop where
  context : found.1.flatten = part.1.flatten
  block : found.2.block = part.2.block

def foundText (parts : List DocumentPart) (tail : List Line) : List Char :=
  (parts.flatMap partLines ++ tail).flatten

theorem foundText_cons (part : DocumentPart) (parts : List DocumentPart) (tail : List Line) :
    foundText (part :: parts) tail =
      part.1.flatten ++ (part.2.lines.flatten ++ foundText parts tail) := by
  simp [foundText, partLines]

theorem outText_cons (labels : ConflictMarkerLabels) (part : DocumentPart)
    (parts : List DocumentPart) (tail : List Line) :
    outText labels (part :: parts) tail = part.1.flatten ++
      (renderUnresolvedMarkerBlock part.2.block labels ++ outText labels parts tail) := by
  simp [outText]

theorem cut_compare {α : Type} {left right left' right' : List α}
    (h : left ++ right = left' ++ right') :
    (∃ late, late ≠ [] ∧ left' = left ++ late ∧ right = late ++ right') ∨
      ∃ early, left = left' ++ early ∧ right' = early ++ right := by
  rcases append_eq_append_iff.mp h with ⟨late, hleft, hright⟩ | hearly
  · by_cases hnil : late = []
    · exact Or.inr ⟨[], by simpa [hnil] using hleft.symm, by simpa [hnil] using hright.symm⟩
    · exact Or.inl ⟨late, hnil, hleft, hright⟩
  · exact Or.inr hearly

variable {tail tail' : List Line} {text : List Char} {parts : List DocumentPart}

theorem ahead {labels : ConflictMarkerLabels} (hlabels : FreeLabels labels)
    (htail : tail'.flatten = tail.flatten)
    {found : List DocumentPart} (hsame : Forall₂ SamePart parts found) :
    ∀ {f : List Line} {late : List Char}, (∀ part ∈ parts, FullBlock part.2) →
      splitInclusive text = f ++ (found.flatMap partLines ++ tail') → late <:+ f.flatten →
      late ≠ [] → outText labels parts tail ≠ late ++ foundText found tail' := by
  induction hsame with
  | nil =>
    intro front late _ _ _ hne heq
    simp only [outText, foundText, flatMap_nil, nil_append, htail] at heq
    exact hne (append_left_eq_self.mp heq.symm)
  | @cons part found parts rest hpart _ ih =>
    intro front late hfull hsplit hlate hne heq
    have hlines : splitInclusive text = (front ++ found.1) ++ (found.2.lines ++
        (rest.flatMap partLines ++ tail')) := by
      rw [hsplit]
      simp [partLines]
    have hfound := fullBlock_of_split hlines
    have hclosed : Closed (late ++ found.1.flatten) := by
      obtain ⟨early, hearly⟩ := hlate
      refine closed_suffix (f := early) ?_
      rw [← append_assoc, hearly, ← flatten_append]
      exact closed_flatten (splitInclusive_front hlines)
    rw [outText_cons, foundText_cons, ← hpart.context, ← append_assoc,
      ← append_assoc late, ← append_assoc (late ++ found.1.flatten)] at heq
    rcases cut_compare heq with ⟨later, hlater, hread, hrest⟩ | ⟨back, hread, -⟩
    · refine ih (f := front ++ partLines found) (fun p hp => hfull p (mem_cons_of_mem _ hp))
        (by rw [hsplit]; simp) ?_ hlater hrest
      have hsuffix : later <:+ late ++ found.1.flatten ++ found.2.lines.flatten :=
        ⟨_, hread.symm⟩
      refine hsuffix.trans ?_
      obtain ⟨early, hearly⟩ := hlate
      exact ⟨early, by rw [flatten_append, ← hearly]; simp [partLines]⟩
    · rw [append_assoc (late ++ found.1.flatten)] at hread
      rcases cut_compare hread with ⟨gap, hgap, hlast, hblock⟩ | ⟨early, hearly, -⟩
      · exact written_no_block hlabels (hfull part mem_cons_self) hfound hpart.block
          (closed_suffix (hlast ▸ hclosed)) hgap hblock
      · have hlength := congrArg length hearly
        have := length_pos_of_ne_nil hne
        simp only [length_append] at hlength
        omega

theorem ends_of_found {labels : ConflictMarkerLabels} (hlabels : FreeLabels labels)
    (htail : tail'.flatten = tail.flatten)
    {found : List DocumentPart} (hsame : Forall₂ SamePart parts found) :
    ∀ {f : List Line}, (∀ part ∈ parts, FullBlock part.2) →
      splitInclusive text = f ++ (found.flatMap partLines ++ tail') →
      outText labels parts tail = foundText found tail' →
      ∀ part ∈ parts, EndsAsDetected part.2.block := by
  induction hsame with
  | nil => simp
  | @cons part found parts rest hpart hsame ih =>
    intro front hfull hsplit heq
    have hlines : splitInclusive text = (front ++ found.1) ++ (found.2.lines ++
        (rest.flatMap partLines ++ tail')) := by
      rw [hsplit]
      simp [partLines]
    have hfullRest : ∀ p ∈ parts, FullBlock p.2 := fun p hp => hfull p (mem_cons_of_mem _ hp)
    have hnext : splitInclusive text = (front ++ partLines found) ++
        (rest.flatMap partLines ++ tail') := by
      rw [hsplit]
      simp
    rw [outText_cons, foundText_cons, ← hpart.context] at heq
    replace heq := append_cancel_left heq
    rcases detect_cases part.2.block with hdetect | ⟨hdetect, -⟩
    · have hread := splitInclusive_append
        (renderedLines_full hdetect hlabels (hfull part mem_cons_self))
        (outText labels parts tail)
      rw [renderedLines_text hdetect rfl, heq, foundText, ← flatten_append,
        splitInclusive_back hlines] at hread
      rw [ConflictLines.lines, ConflictLines.lines, cons_append, cons_append] at hread
      obtain ⟨-, hbody⟩ := cons.inj hread
      have hblock := ConflictLines.readBlock_body found.2 (rest.flatMap partLines ++ tail')
      have hwritten := ConflictLines.readBlock_body (renderedLines part.2 labels _ hdetect)
        (splitInclusive (outText labels parts tail))
      rw [hbody, hwritten] at hblock
      obtain ⟨hends, hrest⟩ := Prod.mk.inj (some.inj hblock)
      rw [hpart.block, renderedLines_block _ hdetect rfl] at hends
      intro p hp
      rcases mem_cons.mp hp with rfl | hp
      · exact hends
      · refine ih hfullRest hnext ?_ p hp
        rw [foundText, ← hrest, splitInclusive_flatten]
    · exfalso
      rcases cut_compare heq with ⟨late, hlate, hread, hrest⟩ | ⟨back, hread, -⟩
      · refine ahead hlabels htail hsame hfullRest hnext ?_ hlate hrest
        refine List.IsSuffix.trans ⟨_, hread.symm⟩ ⟨front.flatten ++ found.1.flatten, ?_⟩
        simp [partLines]
      · exact rendered_cr_no_block [] hlabels (fullBlock_of_split hlines) hpart.block hdetect hread

theorem context_inj {context context' : List Line} {block' : ParsedConflictBlock}
    {rest rest' : List ParsedConflictSegment}
    (h : contextSegments context ++ .conflict block :: rest =
      contextSegments context' ++ .conflict block' :: rest') :
    context'.flatten = context.flatten ∧ block' = block ∧ rest = rest' := by
  unfold contextSegments at h
  by_cases hempty : context.flatten = [] <;> by_cases hempty' : context'.flatten = []
  · simp only [if_pos hempty, if_pos hempty', nil_append, cons.injEq,
      ParsedConflictSegment.conflict.injEq] at h
    exact ⟨hempty'.trans hempty.symm, h.1.symm, h.2⟩
  · simp only [if_pos hempty, if_neg hempty', nil_append, cons_append, cons.injEq,
      reduceCtorEq, false_and] at h
  · simp only [if_neg hempty, if_pos hempty', nil_append, cons_append, cons.injEq,
      reduceCtorEq, false_and] at h
  · simp only [if_neg hempty, if_neg hempty', cons_append, nil_append, cons.injEq,
      ParsedConflictSegment.text.injEq, ParsedConflictSegment.conflict.injEq] at h
    exact ⟨h.1.symm, h.2.1.symm, h.2.2⟩

theorem no_conflict_tail (tail : List Line) (block : ParsedConflictBlock) :
    .conflict block ∉ tailSegments tail := by
  intro h
  simp only [tailSegments, contextSegments, mem_append] at h
  rcases h with h | h <;> split at h <;> simp at h

theorem tail_text (tail : List Line) : (tailSegments tail).flatMap (·.oursPart) = tail.flatten := by
  have hcontext : ∀ context : List Line,
      (contextSegments context).flatMap (·.oursPart) = context.flatten := by
    intro context
    unfold contextSegments
    split
    · rename_i h
      rw [h]
      rfl
    · simp [ParsedConflictSegment.oursPart]
  rw [tailSegments, flatMap_append, hcontext, hcontext, takeWhile_flatten]

theorem segments_inj :
    ∀ {found : List DocumentPart}, parts.flatMap partSegments ++ tailSegments tail =
        found.flatMap partSegments ++ tailSegments tail' →
      Forall₂ SamePart parts found ∧ tail'.flatten = tail.flatten := by
  induction parts with
  | nil =>
    intro found h
    cases found with
    | nil => exact ⟨.nil, by rw [← tail_text tail, ← tail_text tail']; exact congrArg _ h.symm⟩
    | cons part found =>
      refine absurd ?_ (no_conflict_tail tail part.2.block)
      rw [show tailSegments tail = _ from h]
      simp [partSegments]
  | cons part parts ih =>
    intro found h
    cases found with
    | nil =>
      refine absurd ?_ (no_conflict_tail tail' part.2.block)
      rw [← show _ = tailSegments tail' from h]
      simp [partSegments]
    | cons other found =>
      simp only [flatMap_cons, partSegments, append_assoc, singleton_append] at h
      obtain ⟨hcontext, hblock, hrest⟩ := context_inj h
      obtain ⟨hsame, htail⟩ := ih hrest
      exact ⟨.cons ⟨hcontext, hblock⟩ hsame, htail⟩

theorem document_blocks (doc : Document) (block : ParsedConflictBlock) :
    .conflict block ∈ doc.segments ↔ ∃ part ∈ doc.parts, part.2.block = block := by
  have htail := no_conflict_tail doc.tail block
  have hpart : ∀ part : DocumentPart,
      ParsedConflictSegment.conflict block ∈ partSegments part ↔ part.2.block = block := by
    intro part
    simp only [partSegments, contextSegments, mem_append]
    split <;> simp [eq_comm]
  simp only [Document.segments, mem_append, htail, or_false, mem_flatMap, hpart]

theorem output_round_trips_iff (choice : ConflictOutputChoice) (labels : ConflictMarkerLabels)
    (hlabels : FreeLabels labels) (text : List Char) :
    RoundTrips choice labels text ↔ ∀ segments, parseConflictMarkerSegments text = some segments →
        ∀ block, .conflict block ∈ segments → EndsAsDetected block := by
  obtain ⟨doc, hdoc⟩ := document_exists (splitInclusive text)
  have hparse := parse_segments hdoc.symm
  have hends : (∀ segments, parseConflictMarkerSegments text = some segments →
      ∀ block, .conflict block ∈ segments → EndsAsDetected block) ↔
      ∀ part ∈ doc.parts, EndsAsDetected part.2.block := by
    simp only [hparse, some.injEq, forall_eq', document_blocks]
    exact ⟨fun h part hpart => h _ ⟨part, hpart, rfl⟩,
      fun h block ⟨part, hpart, heq⟩ => heq ▸ h part hpart⟩
  have htrips : RoundTrips choice labels text ↔
      parseConflictMarkerSegments (outText labels doc.parts doc.tail) = some doc.segments := by
    simp only [RoundTrips, hparse, some.injEq, exists_eq_left', regenerate_document]
  rw [hends, htrips]
  refine ⟨fun h => ?_, roundTrips_of_ends hlabels hdoc.symm⟩
  obtain ⟨found, hfound⟩ := document_exists (splitInclusive (outText labels doc.parts doc.tail))
  rw [parse_segments hfound.symm] at h
  obtain ⟨hsame, htail⟩ := segments_inj (some.inj h).symm
  refine ends_of_found hlabels htail hsame (f := [])
    (fun part hpart => (fullParts hdoc.symm part hpart).block) hfound.symm ?_
  rw [foundText, ← Document.lines, hfound, splitInclusive_flatten]

def remoteCrlfText : List Char :=
  "<<<<<<< a\nx\n=======\ny\r\n>>>>>>> b\n".toList

theorem mixed_sides_do_not_round_trip :
    ¬ RoundTrips ⟨[.ours], by decide⟩ ⟨['a'], ['b'], ['c']⟩ remoteCrlfText := by
  rintro ⟨segments, hparse, hback⟩
  have hsegments : parseConflictMarkerSegments remoteCrlfText =
      some [.conflict ⟨none, "x\n".toList, "y\r\n".toList⟩] := by decide +kernel
  obtain rfl := some.inj (hsegments.symm.trans hparse)
  revert hback
  decide +kernel

theorem equal_endings_round_trip :
    FreeLabels ⟨['a'], ['b'], ['c']⟩ ∧
      RoundTrips ⟨[.ours], by decide⟩ ⟨['a'], ['b'], ['c']⟩
        "k\n<<<<<<< a\nx\n=======\ny\n>>>>>>> b".toList := by
  have hlabels : FreeLabels ⟨['a'], ['b'], ['c']⟩ := ⟨by decide, by decide, by decide⟩
  refine ⟨hlabels, (output_round_trips_iff _ _ hlabels _).mpr fun segments hparse block hmem => ?_⟩
  have hsegments : parseConflictMarkerSegments "k\n<<<<<<< a\nx\n=======\ny\n>>>>>>> b".toList =
      some [.text "k\n".toList, .conflict ⟨none, "x\n".toList, "y\n".toList⟩] := by decide +kernel
  obtain rfl := some.inj (hsegments.symm.trans hparse)
  obtain rfl : block = ⟨none, "x\n".toList, "y\n".toList⟩ := by simpa using hmem
  unfold EndsAsDetected
  decide

end GitComet.Conflict.Output
