import GitComet.Conflict.RegionSplit

namespace GitComet.Conflict.Output
open Text

inductive ConflictOutputSource where
  | base
  | ours
  | theirs
  deriving DecidableEq

structure ConflictOutputChoice where
  sources : List ConflictOutputSource
  distinct : sources.Nodup

structure ConflictOutputBlock where
  block : ParsedConflictBlock
  choice : ConflictOutputChoice
  resolved : Bool

inductive ConflictOutputSegment where
  | text (content : List Char)
  | block (block : ConflictOutputBlock)

structure ConflictMarkerLabels where
  localSide : List Char
  remoteSide : List Char
  base : List Char

inductive UnresolvedConflictMode where
  | collapseToChoice
  | preserveMarkers
  deriving DecidableEq

structure GenerateResolvedTextOptions where
  unresolvedMode : UnresolvedConflictMode
  labels : Option ConflictMarkerLabels

def hasCrlf (text : List Char) : Bool :=
  (text.zip text.tail).any fun pair => decide (pair = ('\r', '\n'))

def detectByPresence (texts : List (List Char)) : List Char :=
  if texts.any hasCrlf then ['\r', '\n']
  else if texts.any fun text => decide ('\r' ∈ text) then ['\r'] else ['\n']

def detectConflictBlockLineEnding (block : ParsedConflictBlock) : List Char :=
  detectByPresence [block.ours, block.theirs, block.base.getD []]

def closedSide (side newline : List Char) : List Char :=
  side ++ if !side.isEmpty && !newline.isSuffixOf side then newline else []

def markerWithLabel (ch : Char) (label : List Char) : List Char :=
  List.replicate 7 ch ++ ' ' :: label

def renderUnresolvedMarkerBlock (block : ParsedConflictBlock) (labels : ConflictMarkerLabels) :
    List Char :=
  let newline := detectConflictBlockLineEnding block
  markerWithLabel '<' labels.localSide ++ newline ++ closedSide block.ours newline ++
    (block.base.elim [] (fun base =>
        markerWithLabel '|' labels.base ++ newline ++ closedSide base newline) ++
      (List.replicate 7 '=' ++ newline ++ closedSide block.theirs newline ++
        (markerWithLabel '>' labels.remoteSide ++ newline)))

def sourceText (block : ParsedConflictBlock) : ConflictOutputSource → List Char
  | .base => block.base.getD []
  | .ours => block.ours
  | .theirs => block.theirs

def chosenBlockText (block : ConflictOutputBlock) : List Char :=
  block.choice.sources.flatMap (sourceText block.block)

def segmentOutput (options : GenerateResolvedTextOptions) : ConflictOutputSegment → List Char
  | .text content => content
  | .block block =>
    if block.resolved || decide (options.unresolvedMode = .collapseToChoice) then
      chosenBlockText block
    else match options.labels with
      | none => chosenBlockText block
      | some labels => renderUnresolvedMarkerBlock block.block labels

def generateResolvedText (segments : List ConflictOutputSegment)
    (options : GenerateResolvedTextOptions) : List Char :=
  segments.flatMap (segmentOutput options)

def unresolvedSegment (choice : ConflictOutputChoice) :
    ParsedConflictSegment → ConflictOutputSegment
  | .text content => .text content
  | .conflict block => .block ⟨block, choice, false⟩

def regenerate (choice : ConflictOutputChoice) (labels : ConflictMarkerLabels)
    (segments : List ParsedConflictSegment) : List Char :=
  generateResolvedText (segments.map (unresolvedSegment choice)) ⟨.preserveMarkers, some labels⟩

def RoundTrips (choice : ConflictOutputChoice) (labels : ConflictMarkerLabels)
    (text : List Char) : Prop :=
  ∃ segments, parseConflictMarkerSegments text = some segments ∧
    parseConflictMarkerSegments (regenerate choice labels segments) = some segments

def EndsAsDetected (block : ParsedConflictBlock) : Prop :=
  ∀ side ∈ [block.ours, block.theirs, block.base.getD []], side = [] ∨
    (detectConflictBlockLineEnding block).isSuffixOf side = true

end GitComet.Conflict.Output

namespace GitComet.Conflict.Output
open Text RegionEdit

theorem startsWith_full {newline : List Char} (h : newline = ['\n'] ∨ newline = ['\r', '\n'])
    (c : Char) (hn : '\n' ≠ c) (hr : '\r' ≠ c) : startsWith c newline = false := by
  rcases h with rfl | rfl
  · have h := startsWith_append hn [] []
    rw [List.nil_append] at h
    rw [h]
    rfl
  · have h := startsWith_append hr [] ['\n']
    rw [List.nil_append] at h
    rw [h]
    rfl

theorem fullLine_newline {newline : List Char} (h : newline = ['\n'] ∨ newline = ['\r', '\n'])
    {t : List Char} (htext : '\n' ∉ t) : FullLine (t ++ newline) := by
  rcases h with rfl | rfl
  · exact ⟨t, rfl, htext⟩
  · exact ⟨t ++ ['\r'], by simp, by simpa using htext⟩

def closedLines (lines : List Line) (newline : List Char) : List Line :=
  lines ++ if !lines.flatten.isEmpty && !newline.isSuffixOf lines.flatten then [newline] else []

theorem closedLines_text (lines : List Line) (newline : List Char) :
    (closedLines lines newline).flatten = closedSide lines.flatten newline := by
  unfold closedLines closedSide
  split <;> simp

theorem closedLines_all {P : Line → Prop} {lines : List Line} {newline : List Char}
    (h : ∀ line ∈ lines, P line) (hnewline : P newline) :
    ∀ line ∈ closedLines lines newline, P line := by
  intro line hline
  rcases List.mem_append.mp hline with hline | hline
  · exact h line hline
  · split at hline
    · exact List.mem_singleton.mp hline ▸ hnewline
    · cases hline

theorem closedLines_same {l : List Line} {newline : List Char} (hne : newline ≠ []) :
    (closedLines l newline).flatten = l.flatten ↔
      l.flatten = [] ∨ newline.isSuffixOf l.flatten := by
  rw [closedLines_text, closedSide]
  split
  · rename_i h
    simp only [Bool.and_eq_true, Bool.not_eq_true', List.isEmpty_eq_false_iff] at h
    simp [hne, h.1, h.2]
  · rename_i h
    simp only [Bool.and_eq_true, Bool.not_eq_true', List.isEmpty_eq_false_iff, not_and,
      Bool.not_eq_false] at h
    simp only [List.append_nil, true_iff]
    by_cases hempty : l.flatten = []
    · exact Or.inl hempty
    · exact Or.inr (h hempty)

def FreeLabels (labels : ConflictMarkerLabels) : Prop :=
  '\n' ∉ labels.localSide ∧ '\n' ∉ labels.remoteSide ∧ '\n' ∉ labels.base

theorem markerWithLabel_free {ch : Char} (hch : '\n' ≠ ch) {label : List Char}
    (h : '\n' ∉ label) : '\n' ∉ markerWithLabel ch label := by
  simp [markerWithLabel, hch, h]

theorem markerWithLabel_starts (ch : Char) (label rest : List Char) :
    startsWith ch (markerWithLabel ch label ++ rest) := by
  rw [markerWithLabel, List.append_assoc]
  exact startsWith_replicate (Nat.le_refl 7) _

def renderedLines (c : ConflictLines) (labels : ConflictMarkerLabels) (newline : List Char)
    (h : newline = ['\n'] ∨ newline = ['\r', '\n']) : ConflictLines where
  opening := markerWithLabel '<' labels.localSide ++ newline
  ours := closedLines c.ours newline
  base := c.base.map fun part =>
    (markerWithLabel '|' labels.base ++ newline, closedLines part.2 newline)
  separator := List.replicate 7 '=' ++ newline
  theirs := closedLines c.theirs newline
  closing := markerWithLabel '>' labels.remoteSide ++ newline
  opens := markerWithLabel_starts _ _ _
  separates := startsWith_replicate (Nat.le_refl 7) _
  closes := markerWithLabel_starts _ _ _
  inOurs := closedLines_all c.inOurs (by
    rw [insideOurs, startsWith_full h '=' (by decide) (by decide),
      startsWith_full h '|' (by decide) (by decide)]
    rfl)
  introduces part hpart := by
    obtain ⟨found, -, rfl⟩ := Option.map_eq_some_iff.mp hpart
    exact markerWithLabel_starts _ _ _
  inBase part hpart := by
    obtain ⟨found, hfound, rfl⟩ := Option.map_eq_some_iff.mp hpart
    exact closedLines_all (c.inBase found hfound) (startsWith_full h '=' (by decide) (by decide))
  inTheirs := closedLines_all c.inTheirs (startsWith_full h '>' (by decide) (by decide))

section
variable {c : ConflictLines} {labels : ConflictMarkerLabels} {newline : List Char}
  (h : newline = ['\n'] ∨ newline = ['\r', '\n'])

theorem renderedLines_text (hnewline : detectConflictBlockLineEnding c.block = newline) :
    (renderedLines c labels newline h).lines.flatten =
      renderUnresolvedMarkerBlock c.block labels := by
  rw [renderUnresolvedMarkerBlock, hnewline]
  cases hbase : c.base with
  | none =>
    simp [renderedLines, ConflictLines.lines, ConflictLines.body, ConflictLines.baseLines,
      ConflictLines.block, hbase, closedLines_text]
  | some part =>
    simp [renderedLines, ConflictLines.lines, ConflictLines.body, ConflictLines.baseLines,
      ConflictLines.block, hbase, closedLines_text]

theorem renderedLines_full (hlabels : FreeLabels labels) (hfull : FullBlock c) :
    ∀ line ∈ (renderedLines c labels newline h).lines, FullLine line := by
  have hnewline : FullLine newline := by simpa using fullLine_newline h (t := []) (by simp)
  have hseparator : '\n' ∉ List.replicate 7 '=' := by simp
  intro line hline
  simp only [ConflictLines.lines, ConflictLines.body, renderedLines, List.mem_cons,
    List.mem_append, List.not_mem_nil, or_false] at hline
  rcases hline with rfl | hline | hline | rfl | hline | rfl
  · exact fullLine_newline h (markerWithLabel_free (by decide) hlabels.1)
  · exact closedLines_all hfull.ours hnewline line hline
  · cases hbase : c.base with
    | none => simp [ConflictLines.baseLines, hbase] at hline
    | some part =>
      simp only [ConflictLines.baseLines, hbase, Option.map_some, Option.elim_some,
        List.mem_cons] at hline
      rcases hline with rfl | hline
      · exact fullLine_newline h (markerWithLabel_free (by decide) hlabels.2.2)
      · exact closedLines_all (hfull.base part hbase).2 hnewline line hline
  · exact fullLine_newline h hseparator
  · exact closedLines_all hfull.theirs hnewline line hline
  · exact fullLine_newline h (markerWithLabel_free (by decide) hlabels.2.1)

variable (labels) in
theorem renderedLines_block (hnewline : detectConflictBlockLineEnding c.block = newline) :
    (renderedLines c labels newline h).block = c.block ↔ EndsAsDetected c.block := by
  have hne : newline ≠ [] := by rcases h with rfl | rfl <;> simp
  have hours := closedLines_same (l := c.ours) hne
  have htheirs := closedLines_same (l := c.theirs) hne
  simp only [EndsAsDetected, hnewline, List.mem_cons, List.not_mem_nil, or_false, forall_eq_or_imp,
    forall_eq]
  simp only [ConflictLines.block, renderedLines, ParsedConflictBlock.mk.injEq]
  rw [hours, htheirs]
  cases hbase : c.base with
  | none => simp
  | some part =>
    have hpart := closedLines_same (l := part.2) hne
    simp only [Option.map_some, Option.some.injEq, Option.getD_some, hpart]
    constructor
    · rintro ⟨hb, ho, ht⟩
      exact ⟨ho, ht, hb⟩
    · rintro ⟨ho, ht, hb⟩
      exact ⟨hb, ho, ht⟩

end

end GitComet.Conflict.Output

namespace GitComet.Conflict.Output
open Text RegionEdit

def outText (labels : ConflictMarkerLabels) (parts : List DocumentPart) (tail : List Line) :
    List Char :=
  parts.flatMap (fun part =>
    part.1.flatten ++ renderUnresolvedMarkerBlock part.2.block labels) ++ tail.flatten

theorem output_context (choice : ConflictOutputChoice) (labels : ConflictMarkerLabels)
    (context : List Line) :
    regenerate choice labels (contextSegments context) = context.flatten := by
  unfold contextSegments
  split
  · rename_i h
    rw [h]
    rfl
  · simp [regenerate, generateResolvedText, unresolvedSegment, segmentOutput]

theorem regenerate_append (choice : ConflictOutputChoice) (labels : ConflictMarkerLabels)
    (segments rest : List ParsedConflictSegment) :
    regenerate choice labels (segments ++ rest) =
      regenerate choice labels segments ++ regenerate choice labels rest := by
  simp [regenerate, generateResolvedText]

theorem regenerate_document (choice : ConflictOutputChoice) (labels : ConflictMarkerLabels)
    (doc : Document) :
    regenerate choice labels doc.segments = outText labels doc.parts doc.tail := by
  obtain ⟨parts, tail, hcontext, hrest⟩ := doc
  have htail : regenerate choice labels (tailSegments tail) = tail.flatten := by
    rw [tailSegments, regenerate_append, output_context, output_context, takeWhile_flatten]
  rw [Document.segments, regenerate_append, htail, outText]
  congr 1
  induction parts with
  | nil => rfl
  | cons part parts ih =>
    rw [List.flatMap_cons, List.flatMap_cons, regenerate_append,
      ih fun p hp => hcontext p (List.mem_cons_of_mem _ hp), partSegments, regenerate_append,
      output_context]
    simp [regenerate, generateResolvedText, unresolvedSegment, segmentOutput]

structure FullPart (part : DocumentPart) : Prop where
  context : ∀ line ∈ part.1, FullLine line
  block : FullBlock part.2

theorem fullParts {text : List Char} {doc : Document} (h : splitInclusive text = doc.lines) :
    ∀ part ∈ doc.parts, FullPart part := by
  intro part hpart
  obtain ⟨before, after, hparts⟩ := List.append_of_mem hpart
  have hlines : splitInclusive text = (before.flatMap partLines ++ part.1) ++
      (part.2.lines ++ (after.flatMap partLines ++ doc.tail)) := by
    rw [h, Document.lines, hparts]
    simp [partLines]
  exact ⟨fun line hline => splitInclusive_front hlines line (List.mem_append_right _ hline),
    fullBlock_of_split hlines⟩

theorem detect_cases (block : ParsedConflictBlock) :
    (detectConflictBlockLineEnding block = ['\n'] ∨
        detectConflictBlockLineEnding block = ['\r', '\n']) ∨
      detectConflictBlockLineEnding block = ['\r'] ∧
        ∃ side ∈ [block.ours, block.theirs, block.base.getD []], '\r' ∈ side := by
  unfold detectConflictBlockLineEnding detectByPresence
  split
  · exact Or.inl (Or.inr rfl)
  · split
    · rename_i h
      obtain ⟨side, hside, hmem⟩ := List.any_eq_true.mp h
      exact Or.inr ⟨rfl, side, hside, by simpa using hmem⟩
    · exact Or.inl (Or.inl rfl)

theorem full_not_cr {lines : List Line} (h : ∀ line ∈ lines, FullLine line) :
    ['\r'].isSuffixOf lines.flatten = false := by
  rw [Bool.eq_false_iff]
  intro hsuffix
  obtain ⟨front, hfront⟩ := List.isSuffixOf_iff_suffix.mp hsuffix
  rcases List.eq_nil_or_concat lines with rfl | ⟨lines, last, rfl⟩
  · simp at hfront
  · obtain ⟨body, rfl, -⟩ := h last (by simp)
    have := congrArg List.getLast? hfront
    simp at this

theorem sides_full {c : ConflictLines} (h : FullBlock c) :
    ∀ side ∈ [c.block.ours, c.block.theirs, c.block.base.getD []],
      ∃ lines : List Line, side = lines.flatten ∧ ∀ line ∈ lines, FullLine line := by
  intro side hside
  simp only [ConflictLines.block, List.mem_cons, List.not_mem_nil, or_false] at hside
  rcases hside with rfl | rfl | rfl
  · exact ⟨_, rfl, h.ours⟩
  · exact ⟨_, rfl, h.theirs⟩
  · cases hbase : c.base with
    | none => exact ⟨[], rfl, by simp⟩
    | some part => exact ⟨part.2, rfl, (h.base part hbase).2⟩

theorem detect_of_ends {c : ConflictLines} (hfull : FullBlock c) (h : EndsAsDetected c.block) :
    detectConflictBlockLineEnding c.block = ['\n'] ∨
      detectConflictBlockLineEnding c.block = ['\r', '\n'] := by
  rcases detect_cases c.block with hdetect | ⟨hdetect, side, hside, hmem⟩
  · exact hdetect
  · obtain ⟨lines, rfl, hlines⟩ := sides_full hfull side hside
    rcases h _ hside with hempty | hsuffix
    · rw [hempty] at hmem
      cases hmem
    · rw [hdetect, full_not_cr hlines] at hsuffix
      cases hsuffix

theorem written_parts {labels : ConflictMarkerLabels} (hlabels : FreeLabels labels)
    (parts : List DocumentPart) (hfull : ∀ part ∈ parts, FullPart part)
    (hends : ∀ part ∈ parts, EndsAsDetected part.2.block)
    (hcontext : ∀ part ∈ parts, ∀ line ∈ part.1, startsWith '<' line = false) :
    ∃ written : List DocumentPart, written.flatMap partSegments = parts.flatMap partSegments ∧
      (∀ part ∈ written, ∀ line ∈ part.1, startsWith '<' line = false) ∧
      (∀ line ∈ written.flatMap partLines, FullLine line) ∧
      (written.flatMap partLines).flatten = parts.flatMap fun part =>
        part.1.flatten ++ renderUnresolvedMarkerBlock part.2.block labels := by
  induction parts with
  | nil => exact ⟨[], rfl, by simp, by simp, rfl⟩
  | cons part parts ih =>
    obtain ⟨written, hsegments, hfree, hlines, htext⟩ := ih
      (fun p hp => hfull p (List.mem_cons_of_mem _ hp))
      (fun p hp => hends p (List.mem_cons_of_mem _ hp))
      (fun p hp => hcontext p (List.mem_cons_of_mem _ hp))
    have hpart := hfull part List.mem_cons_self
    have hend := hends part List.mem_cons_self
    have hdetect := detect_of_ends hpart.block hend
    have hblock := (renderedLines_block labels hdetect rfl).mpr hend
    refine ⟨(part.1, renderedLines part.2 labels _ hdetect) :: written, ?_, ?_, ?_, ?_⟩
    · rw [List.flatMap_cons, List.flatMap_cons, hsegments, partSegments, partSegments, hblock]
    · intro found hfound
      rcases List.mem_cons.mp hfound with rfl | hfound
      · exact hcontext part List.mem_cons_self
      · exact hfree found hfound
    · intro line hline
      simp only [List.flatMap_cons, partLines, List.mem_append] at hline
      rcases hline with (hline | hline) | hline
      · exact hpart.context line hline
      · exact renderedLines_full hdetect hlabels hpart.block line hline
      · exact hlines line hline
    · rw [List.flatMap_cons, List.flatMap_cons, List.flatten_append, htext, partLines,
        List.flatten_append, renderedLines_text hdetect rfl]

theorem roundTrips_of_ends {labels : ConflictMarkerLabels} (hlabels : FreeLabels labels)
    {text : List Char} {doc : Document} (h : splitInclusive text = doc.lines)
    (hends : ∀ part ∈ doc.parts, EndsAsDetected part.2.block) :
    parseConflictMarkerSegments (outText labels doc.parts doc.tail) = some doc.segments := by
  obtain ⟨written, hsegments, hfree, hlines, htext⟩ := written_parts hlabels doc.parts
    (fullParts h) hends doc.context
  have hsplit := splitInclusive_append hlines doc.tail.flatten
  rw [splitInclusive_back (h.trans rfl), htext] at hsplit
  have hparse := parse_segments (d := ⟨written, doc.tail, hfree, doc.rest⟩) hsplit
  rw [Document.segments, hsegments] at hparse
  exact hparse

end GitComet.Conflict.Output
