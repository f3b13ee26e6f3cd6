import GitComet.Conflict.RegionSplit

namespace GitComet.Conflict.RegionEdit
open Text Slice List Option

def Unmarkerish (lines : List Line) : Prop :=
  ∀ line ∈ lines, startsWith '<' line = false ∧ startsWith '=' line = false ∧
    startsWith '>' line = false ∧ startsWith '|' line = false

theorem startsWith_strip {c : Char} (hr : '\r' ≠ c) (hn : '\n' ≠ c) (line : Line) :
    startsWith c (stripLineEnding line) = startsWith c line := by
  obtain ⟨ending, hline, hending⟩ := stripLineEnding_spec line
  generalize stripLineEnding line = body at hline
  subst hline
  rcases hending with ⟨rfl, -⟩ | rfl | rfl
  · rw [append_nil]
  · exact (startsWith_append hn body []).symm
  · exact (startsWith_append hr body ['\n']).symm

theorem isMarkerish_false {lines : List Line} (hfull : ∀ line ∈ lines, FullLine line) :
    isMarkerish lines.flatten = false ↔ Unmarkerish lines := by
  have hstrip : ∀ line, (startsWith '<' (stripLineEnding line) ||
      startsWith '=' (stripLineEnding line) || startsWith '>' (stripLineEnding line) ||
      startsWith '|' (stripLineEnding line)) = (startsWith '<' line || startsWith '=' line ||
      startsWith '>' line || startsWith '|' line) := by
    intro line
    rw [startsWith_strip (by decide) (by decide), startsWith_strip (by decide) (by decide),
      startsWith_strip (by decide) (by decide), startsWith_strip (by decide) (by decide)]
  simp only [isMarkerish, splitLines, splitInclusive_lines hfull, List.any_map,
    Function.comp_def, hstrip, List.any_eq_false, Unmarkerish, Bool.or_eq_true, not_or,
    Bool.not_eq_true, and_assoc]

def joinBase (between : List Line) : Option (Line × List Line) → Option (Line × List Line) →
    Option (Line × List Line)
  | none, none => none
  | some first, second =>
    some (first.1, first.2 ++ (between ++ (second.map Prod.snd).getD []))
  | none, some second => some (second.1, between ++ second.2)

variable {first second : Option (Line × List Line)}

theorem joinBase_mem {between : List Line}
    {part : Line × List Line} (h : part ∈ joinBase between first second) :
    ((∃ found ∈ first, part.1 = found.1) ∨ ∃ found ∈ second, part.1 = found.1) ∧
      ∀ line ∈ part.2, (∃ found ∈ first, line ∈ found.2) ∨ line ∈ between ∨
        ∃ found ∈ second, line ∈ found.2 := by
  cases first with
  | none =>
    cases second with
    | none => cases h
    | some second =>
      cases h
      refine ⟨Or.inr ⟨second, rfl, rfl⟩, fun line hline => ?_⟩
      rcases mem_append.mp hline with hline | hline
      · exact Or.inr (Or.inl hline)
      · exact Or.inr (Or.inr ⟨second, rfl, hline⟩)
  | some first =>
    cases h
    refine ⟨Or.inl ⟨first, rfl, rfl⟩, fun line hline => ?_⟩
    rcases mem_append.mp hline with hline | hline
    · exact Or.inl ⟨first, rfl, hline⟩
    rcases mem_append.mp hline with hline | hline
    · exact Or.inr (Or.inl hline)
    · cases second with
      | none => cases hline
      | some second => exact Or.inr (Or.inr ⟨second, rfl, hline⟩)

def joinLines (c d : ConflictLines) (between : List Line) (h : Unmarkerish between) :
    ConflictLines where
  opening := c.opening
  ours := c.ours ++ (between ++ d.ours)
  base := joinBase between c.base d.base
  separator := c.separator
  theirs := c.theirs ++ (between ++ d.theirs)
  closing := d.closing
  opens := c.opens
  separates := c.separates
  closes := d.closes
  inOurs line hline := by
    rcases mem_append.mp hline with hline | hline
    · exact c.inOurs line hline
    rcases mem_append.mp hline with hline | hline
    · obtain ⟨-, hsep, -, hbase⟩ := h line hline
      rw [insideOurs, hsep, hbase]
      rfl
    · exact d.inOurs line hline
  introduces part hpart := by
    rcases (joinBase_mem hpart).1 with ⟨found, hfound, heq⟩ | ⟨found, hfound, heq⟩
    · exact heq ▸ c.introduces found hfound
    · exact heq ▸ d.introduces found hfound
  inBase part hpart line hline := by
    rcases (joinBase_mem hpart).2 line hline with ⟨found, hfound, hin⟩ | hin | ⟨found, hfound, hin⟩
    · exact c.inBase found hfound line hin
    · exact (h line hin).2.1
    · exact d.inBase found hfound line hin
  inTheirs line hline := by
    rcases mem_append.mp hline with hline | hline
    · exact c.inTheirs line hline
    rcases mem_append.mp hline with hline | hline
    · exact (h line hline).2.2.1
    · exact d.inTheirs line hline

theorem joinLines_text (c d : ConflictLines) (between : List Line) (h : Unmarkerish between) :
    renderBlock ⟨c.opening, (c.base.map Prod.fst).or (d.base.map Prod.fst), c.separator, d.closing⟩
      ⟨c.ours.flatten ++ (between.flatten ++ d.ours.flatten),
        joinedBase between.flatten (c.base.map fun part => part.2.flatten)
          (d.base.map fun part => part.2.flatten),
        c.theirs.flatten ++ (between.flatten ++ d.theirs.flatten)⟩ =
      (joinLines c d between h).lines.flatten := by
  cases hc : c.base <;> cases hd : d.base <;>
    simp [joinLines, ConflictLines.lines, ConflictLines.body, ConflictLines.baseLines,
      renderBlock, joinedBase, joinBase, baseSection, hc, hd]

theorem joinLines_full {c d : ConflictLines} {between : List Line} (h : Unmarkerish between)
    (hc : FullBlock c) (hd : FullBlock d) (hbetween : ∀ line ∈ between, FullLine line) :
    ∃ lines, (joinLines c d between h).lines = lines ++ [d.closing] ∧
      ∀ line ∈ lines, FullLine line := by
  refine ⟨c.opening :: (c.ours ++ (between ++ d.ours) ++ ((joinLines c d between h).baseLines ++
    c.separator :: (c.theirs ++ (between ++ d.theirs)))),
    by simp [ConflictLines.lines, ConflictLines.body, joinLines], fun line hline => ?_⟩
  simp only [mem_cons, mem_append] at hline
  rcases hline with rfl | (hline | hline | hline) | hline | rfl | hline | hline | hline
  · exact hc.opening
  · exact hc.ours line hline
  · exact hbetween line hline
  · exact hd.ours line hline
  · cases hbase : (joinLines c d between h).base with
    | none => simp [ConflictLines.baseLines, hbase] at hline
    | some part =>
      obtain ⟨hintro, hlines⟩ := joinBase_mem (mem_def.mpr hbase)
      simp only [ConflictLines.baseLines, hbase, elim_some, mem_cons] at hline
      rcases hline with rfl | hline
      · rcases hintro with ⟨found, hfound, heq⟩ | ⟨found, hfound, heq⟩
        · exact heq ▸ (hc.base found hfound).1
        · exact heq ▸ (hd.base found hfound).1
      · rcases hlines line hline with ⟨found, hfound, hin⟩ | hin | ⟨found, hfound, hin⟩
        · exact (hc.base found hfound).2 line hin
        · exact hbetween line hin
        · exact (hd.base found hfound).2 line hin
  · exact hc.separator
  · exact hc.theirs line hline
  · exact hbetween line hline
  · exact hd.theirs line hline

section
variable {text : List Char} {index : ℕ} {doc : Document} {before after : List DocumentPart}
  {context between : List Line} {c d : ConflictLines}

section
variable (h : BlockAt text index doc before context c ((between, d) :: after))
include h

theorem BlockAt.next : BlockAt text (index + 1) doc (before ++ [(context, c)]) between d after :=
  ⟨h.split, by rw [h.parts]; simp, by rw [length_append, h.index]; rfl⟩

theorem BlockAt.between_full : ∀ line ∈ between, FullLine line := by
  have hsplit : splitInclusive text = (frontLines (before ++ [(context, c)]) between) ++
      d.opening :: (d.body ++ backLines after doc.tail) := by
    rw [h.next.lines]
    rfl
  intro line hline
  exact splitInclusive_front hsplit line (by simp [frontLines, hline])

theorem joinConflictRegionsText_at :
    joinConflictRegionsText text index = if isMarkerish between.flatten then some none
      else some (some ⟨(frontLines before context).flatten ++ (renderBlock
        ⟨c.opening, (c.base.map Prod.fst).or (d.base.map Prod.fst), c.separator, d.closing⟩
        ⟨c.ours.flatten ++ (between.flatten ++ d.ours.flatten),
          joinedBase between.flatten (c.base.map fun part => part.2.flatten)
            (d.base.map fun part => part.2.flatten),
          c.theirs.flatten ++ (between.flatten ++ d.theirs.flatten)⟩ ++
        (backLines after doc.tail).flatten), 1⟩) := by
  obtain ⟨hours, htheirs, hbase⟩ := sideTexts_ranges c h.whole
  obtain ⟨hours', htheirs', hbase'⟩ := sideTexts_ranges d h.next.whole
  have hmarkers := markerLines_ranges c h.whole
  have hmarkers' := markerLines_ranges d h.next.whole
  have hwhole := h.next.whole
  have hfront : (frontLines (before ++ [(context, c)]) between).flatten =
      (frontLines before context).flatten ++ c.lines.flatten ++ between.flatten := by
    simp [frontLines, partLines]
  have hcontext : byteSlice text (c.ranges (byteLen (frontLines before context).flatten)).markerEnd
      (d.ranges (byteLen (frontLines (before ++ [(context, c)]) between).flatten)).markerStart =
        some between.flatten :=
    byteSlice_of (p := (frontLines before context).flatten ++ c.lines.flatten)
      (o := d.lines.flatten ++ (backLines after doc.tail).flatten)
      (by rw [hfront] at hwhole; simpa only [append_assoc] using hwhole)
      (by rw [c.markerEnd_ranges, byteLen_append])
      (by
        show byteLen (frontLines (before ++ [(context, c)]) between).flatten = _
        rw [hfront, byteLen_append])
  have hhead : byteSlice text 0 (c.ranges (byteLen (frontLines before context).flatten)).markerStart
      = some (frontLines before context).flatten :=
    byteSlice_of (p := []) h.whole rfl (Nat.zero_add _).symm
  have htail : byteSlice text
      (d.ranges (byteLen (frontLines (before ++ [(context, c)]) between).flatten)).markerEnd
      (byteLen text) = some (backLines after doc.tail).flatten :=
    byteSlice_of (p := (frontLines (before ++ [(context, c)]) between).flatten ++
        d.lines.flatten) (o := [])
      (by rw [append_nil, append_assoc]; exact hwhole)
      (by rw [d.markerEnd_ranges, byteLen_append])
      (by rw [← byteLen_append, append_assoc, ← hwhole])
  simp only [joinConflictRegionsText, h.range, h.next.range, hcontext, hmarkers, hmarkers', hours,
    hours', htheirs, htheirs', hbase, hbase', hhead, htail, bind_eq_bind, bind_some,
    lineMarkers]

theorem join_document (hclean : Unmarkerish between) :
    ∃ newText doc', joinConflictRegionsText text index = some (some ⟨newText, 1⟩) ∧
      BlockAt newText index doc' before context (joinLines c d between hclean) after ∧
      doc'.tail = doc.tail := by
  have hbetween := h.between_full
  have hjoin := joinConflictRegionsText_at h
  rw [if_neg (by rw [(isMarkerish_false hbetween).mpr hclean]; simp),
    joinLines_text c d between hclean] at hjoin
  have hcontext : ∀ part ∈ before ++ (context, joinLines c d between hclean) :: after,
      ∀ line ∈ part.1, startsWith '<' line = false := by
    have hdoc := doc.context
    rw [h.parts] at hdoc
    intro part hpart
    rcases mem_append.mp hpart with hpart | hpart
    · exact hdoc part (mem_append_left _ hpart)
    rcases mem_cons.mp hpart with rfl | hpart
    · exact hdoc (context, c) (by simp)
    · exact hdoc part (by simp [hpart])
  refine ⟨_, ⟨before ++ (context, joinLines c d between hclean) :: after, doc.tail, hcontext,
    doc.rest⟩, hjoin, ⟨?_, rfl, h.index⟩, rfl⟩
  have hfull := fullBlock_of_split h.lines
  have hfull' := fullBlock_of_split h.next.lines
  obtain ⟨lines, hlines, hlinesFull⟩ := joinLines_full hclean hfull hfull' hbetween
  have hsplit : splitInclusive text = (frontLines (before ++ [(context, c)]) between ++
      d.opening :: (d.ours ++ (d.baseLines ++ d.separator :: d.theirs))) ++
        d.closing :: backLines after doc.tail := by
    rw [h.next.lines]
    simp [ConflictLines.lines, ConflictLines.body]
  have hback := splitInclusive_back hsplit
  have hfront : ∀ line ∈ frontLines before context ++ lines, FullLine line := by
    intro line hline
    rcases mem_append.mp hline with hline | hline
    · have hmem : line ∈ frontLines (before ++ [(context, c)]) between := by
        simp only [frontLines, flatMap_append, mem_append] at hline ⊢
        rcases hline with hline | hline
        · exact Or.inl (Or.inl hline)
        · exact Or.inl (Or.inr (by simp [partLines, hline]))
      exact splitInclusive_front hsplit line (mem_append_left _ hmem)
    · exact hlinesFull line hline
  have hwhole := splitInclusive_append hfront (d.closing :: backLines after doc.tail).flatten
  rw [hback] at hwhole
  have hflat : (joinLines c d between hclean).lines.flatten =
      lines.flatten ++ d.closing := by rw [hlines]; simp
  rw [hflat]
  simp only [Document.lines, flatMap_append, flatMap_cons, partLines, hlines]
  simpa [frontLines, backLines] using hwhole

end

theorem joinConflictRegionsText_some {outcome : ConflictRegionEditOutcome}
    (h : joinConflictRegionsText text index = some (some outcome)) :
    ∃ doc before context c between d after, ∃ hclean : Unmarkerish between,
      BlockAt text index doc before context c ((between, d) :: after) ∧
      ∃ doc', BlockAt outcome.newText index doc' before context
        (joinLines c d between hclean) after ∧ doc'.tail = doc.tail := by
  cases hfirst : (conflictBlocks text)[index]? with
  | none => simp [joinConflictRegionsText, hfirst] at h
  | some first =>
    obtain ⟨doc, before, context, c, after, hat⟩ := blockAt_exists hfirst
    cases after with
    | nil =>
      have hlen : (conflictBlocks text)[index + 1]? = none := by
        rw [conflictBlocks_document hat.split, getElem?_eq_none_iff, length_blockRanges,
          hat.parts, length_append, hat.index]
        rfl
      simp [joinConflictRegionsText, hfirst, hlen] at h
    | cons part after =>
      obtain ⟨between, d⟩ := part
      have hbetween := hat.between_full
      cases hmark : isMarkerish between.flatten with
      | true =>
        rw [joinConflictRegionsText_at hat, if_pos hmark] at h
        cases h
      | false =>
        have hclean := (isMarkerish_false hbetween).mp hmark
        obtain ⟨newText, doc', hjoin, hat', htail⟩ := join_document hat hclean
        obtain rfl := some.inj (some.inj (hjoin.symm.trans h))
        exact ⟨doc, before, context, c, between, d, after, hclean, hat, doc', hat', htail⟩

def joinTimes : ℕ → List Char → ℕ → Option (List Char)
  | 0, text, _ => some text
  | n + 1, text, index =>
    match joinConflictRegionsText text index with
    | some (some outcome) => joinTimes n outcome.newText index
    | _ => none

structure JoinOf (all : List ConflictLines) (intro : Option Line) (joined : ConflictLines) :
    Prop where
  opening : ∀ first ∈ all.head?, joined.opening = first.opening
  separator : ∀ first ∈ all.head?, joined.separator = first.separator
  ours : joined.ours = all.flatMap (·.ours)
  theirs : joined.theirs = all.flatMap (·.theirs)
  intro : joined.base.map Prod.fst = intro
  base : (joined.base.map Prod.snd).getD [] = all.flatMap fun c => (c.base.map Prod.snd).getD []
  closing : ∀ last ∈ all.getLast?, joined.closing = last.closing

variable {intro : Option Line}

theorem joinBase_nil (hfirst : first.map Prod.fst = intro) (hsecond : second.map Prod.fst = intro) :
    (joinBase [] first second).map Prod.fst = intro ∧
      ((joinBase [] first second).map Prod.snd).getD [] =
        (first.map Prod.snd).getD [] ++ (second.map Prod.snd).getD [] := by
  cases first with
  | none =>
    cases second with
    | none => exact ⟨hfirst, rfl⟩
    | some second =>
      rw [← hfirst] at hsecond
      cases hsecond
  | some first => exact ⟨hfirst, rfl⟩

theorem joinTimes_pieces (pieces : List ConflictLines) :
    ∀ {text : List Char} {doc : Document} {c : ConflictLines},
      BlockAt text index doc before context c (pieces.map (fun piece => ([], piece)) ++ after) →
      (∀ piece ∈ c :: pieces, piece.base.map Prod.fst = intro) →
      ∃ text' doc' joined, joinTimes pieces.length text index = some text' ∧
        BlockAt text' index doc' before context joined after ∧ doc'.tail = doc.tail ∧
        JoinOf (c :: pieces) intro joined := by
  induction pieces with
  | nil =>
    intro text doc c h hintro
    refine ⟨text, doc, c, rfl, h, rfl, ⟨?_, ?_, by simp, by simp, hintro c (by simp), by simp, ?_⟩⟩
    all_goals simp
  | cons piece pieces ih =>
    intro text doc c h hintro
    have hclean : Unmarkerish [] := by simp [Unmarkerish]
    obtain ⟨newText, doc', hjoin, hat, htail⟩ := join_document h hclean
    have hc := hintro c (by simp)
    obtain ⟨hbaseIntro, hbaseLines⟩ := joinBase_nil hc (hintro piece (by simp))
    obtain ⟨text', doc'', joined, hrest, hat', htail', hof⟩ := ih hat (by
      intro found hfound
      rcases mem_cons.mp hfound with rfl | hfound
      · exact hbaseIntro
      · exact hintro found (by simp [hfound]))
    refine ⟨text', doc'', joined, ?_, hat', htail'.trans htail, ⟨?_, ?_, ?_, ?_, hof.intro, ?_, ?_⟩⟩
    · rw [length_cons, joinTimes, hjoin]
      exact hrest
    · rintro first ⟨⟩
      exact hof.opening (joinLines c piece [] hclean) rfl
    · rintro first ⟨⟩
      exact hof.separator (joinLines c piece [] hclean) rfl
    · rw [hof.ours, flatMap_cons, flatMap_cons, flatMap_cons, ← append_assoc]
      rfl
    · rw [hof.theirs, flatMap_cons, flatMap_cons, flatMap_cons, ← append_assoc]
      rfl
    · rw [hof.base, flatMap_cons, flatMap_cons, flatMap_cons, ← append_assoc, ← hbaseLines]
      rfl
    · intro last hlast
      cases pieces with
      | nil =>
        obtain rfl : piece = last := by simpa using hlast
        exact hof.closing (joinLines c piece [] hclean) rfl
      | cons next pieces =>
        exact hof.closing last (by simpa using hlast)

theorem flatten_flatMap {α β : Type} (f : α → List (List β)) (xs : List α) :
    (xs.flatMap f).flatten = xs.flatMap fun x => (f x).flatten := by
  induction xs with
  | nil => rfl
  | cons x xs ih => rw [flatMap_cons, flatten_append, ih, flatMap_cons]

variable {pieces : List ConflictLines}

theorem Pieces.last_closing {all : List LineParts}
    (h : Pieces c all pieces) : ∀ last ∈ pieces.getLast?, last.closing = c.closing := by
  induction h with
  | last _ hclosing =>
    rintro last ⟨⟩
    exact hclosing
  | @cons parts next rest piece pieces _ _ hrest ih =>
    intro last hlast
    cases pieces with
    | nil => cases hrest
    | cons found pieces => exact ih last (by simpa using hlast)

theorem joined_lines {joined : ConflictLines}
    {boundaries : ConflictRegionSplitBoundaries} (hbase : c.base.isSome = boundaries.base.isSome)
    (hpieces : Pieces c (emittedLines c boundaries) pieces)
    (h : JoinOf pieces (c.base.map Prod.fst) joined) : joined.lines.flatten = c.lines.flatten := by
  obtain ⟨hours, htheirs, hbases, -⟩ := hpieces.content
  obtain ⟨hours', htheirs', hbases'⟩ := emitted_content hbase
  have hlabels := hpieces.labels
  obtain ⟨first, rest, rfl⟩ := exists_cons_of_ne_nil hpieces.ne_nil
  have hfirst := (hlabels first mem_cons_self).1
  have hopening : joined.opening = c.opening := (h.opening first rfl).trans hfirst.opening
  have hseparator : joined.separator = c.separator :=
    (h.separator first rfl).trans hfirst.separator
  have hclosing : joined.closing = c.closing := by
    obtain ⟨last, hlast⟩ := isSome_iff_exists.mp (getLast?_isSome.mpr hpieces.ne_nil)
    exact (h.closing last hlast).trans (hpieces.last_closing last hlast)
  have hjoinedOurs : joined.ours.flatten = c.ours.flatten := by
    rw [h.ours, flatten_flatMap]
    exact hours.trans hours'
  have hjoinedTheirs : joined.theirs.flatten = c.theirs.flatten := by
    rw [h.theirs, flatten_flatMap]
    exact htheirs.trans htheirs'
  have hjoinedBase : joined.baseLines.flatten = c.baseLines.flatten := by
    have hcontent : ((joined.base.map Prod.snd).getD []).flatten =
        (c.base.map fun part => part.2.flatten).getD [] := by
      rw [h.base, flatten_flatMap, ← hbases', ← hbases]
      congr 1
      funext piece
      simp only [ConflictLines.block]
      cases piece.base <;> rfl
    have hintro := h.intro
    unfold ConflictLines.baseLines
    cases hc : c.base with
    | none =>
      rw [hc] at hintro
      rw [map_eq_none_iff.mp hintro]
    | some part =>
      rw [hc] at hintro hcontent
      obtain ⟨found, hfound, heq⟩ := map_eq_some_iff.mp hintro
      rw [hfound] at hcontent ⊢
      simp only [map_some, getD_some] at hcontent
      simp only [elim_some, flatten_cons, heq, hcontent]
  simp only [ConflictLines.lines, ConflictLines.body, flatten_cons, flatten_append,
    hopening, hseparator, hclosing, hjoinedOurs, hjoinedTheirs, hjoinedBase]

end

theorem join_restores_split (text : List Char) (index : ℕ)
    (boundaries : ConflictRegionSplitBoundaries) (outcome : ConflictRegionEditOutcome)
    (h : splitConflictRegionText text index boundaries = some (some outcome)) :
    joinTimes (outcome.parts - 1) outcome.newText index = some text := by
  obtain ⟨doc, before, context, c, after, hat, hbase, htwo, hcount, hnew⟩ :=
    splitConflictRegionText_some h
  have hparts : ∀ parts ∈ emittedLines c boundaries, PartOf c parts :=
    fun parts hp => lineParts_of hbase parts (mem_filter.mp hp).1
  have hne : emittedLines c boundaries ≠ [] := by
    intro hnil
    rw [hnil] at htwo
    simp at htwo
  obtain ⟨pieces, hpieces, hrender⟩ := pieces_exist hne hparts
  obtain ⟨doc', hdocParts, hdocTail, hsplit⟩ := pieces_document hat hparts hpieces
  rw [← hrender, ← hnew] at hsplit
  have hlength := hpieces.content.2.2.2
  have hlabels := hpieces.labels
  obtain ⟨first, rest, rfl⟩ := exists_cons_of_ne_nil hpieces.ne_nil
  have hfirst : BlockAt outcome.newText index doc' before context first
      (rest.map (fun piece => ([], piece)) ++ after) := ⟨hsplit, hdocParts, hat.index⟩
  obtain ⟨text', doc'', joined, hjoin, hat', htail, hof⟩ := joinTimes_pieces rest hfirst
    fun piece hpiece => (hlabels piece hpiece).1.baseIntro
  have htext : text' = text := by
    rw [hat'.whole, joined_lines hbase hpieces hof, htail, hdocTail]
    exact hat.whole.symm
  rw [hcount, ← hlength, length_cons, Nat.add_sub_cancel, hjoin, htext]

structure JoinedInto (text newText : List Char) (before after : List ParsedConflictSegment)
    (first second joined : ParsedConflictBlock) (between : List Char) : Prop where
  parsed : ∃ context, (context = [.text between] ∨ context = [] ∧ between = []) ∧
    parseConflictMarkerSegments text =
      some (before ++ .conflict first :: (context ++ .conflict second :: after))
  reparsed : parseConflictMarkerSegments newText = some (before ++ .conflict joined :: after)
  ours : joined.ours = first.ours ++ (between ++ second.ours)
  theirs : joined.theirs = first.theirs ++ (between ++ second.theirs)

theorem join_replaces_two_blocks (text : List Char) (index : ℕ)
    (outcome : ConflictRegionEditOutcome)
    (h : joinConflictRegionsText text index = some (some outcome)) :
    ∃ before after first second joined between,
      JoinedInto text outcome.newText before after first second joined between ∧
      (before.filterMap (·.block?)).length = index := by
  obtain ⟨doc, before, context, c, between, d, after, hclean, hat, doc', hat', htail⟩ :=
    joinConflictRegionsText_some h
  have hparse := parse_segments hat.split
  have hreparse := parse_segments hat'.split
  simp only [Document.segments, hat.parts, hat'.parts, htail, flatMap_append,
    flatMap_cons, partSegments, append_assoc, singleton_append] at hparse hreparse
  refine ⟨before.flatMap partSegments ++ contextSegments context,
    after.flatMap partSegments ++ tailSegments doc.tail, c.block, d.block,
    (joinLines c d between hclean).block, between.flatten,
    ⟨⟨contextSegments between, ?_, ?_⟩, ?_, ?_, ?_⟩, ?_⟩
  · unfold contextSegments
    split
    · rename_i hempty
      exact Or.inr ⟨rfl, hempty⟩
    · exact Or.inl rfl
  · rw [hparse]
    simp
  · rw [hreparse]
    simp
  · simp [ConflictLines.block, joinLines]
  · simp [ConflictLines.block, joinLines]
  · rw [filterMap_append, block?_parts, block?_context, append_nil, length_map, hat.index]

theorem joining_undoes_splitting :
    (∀ (text : List Char) (index : ℕ) (boundaries : ConflictRegionSplitBoundaries)
      (outcome : ConflictRegionEditOutcome),
      splitConflictRegionText text index boundaries = some (some outcome) →
      joinTimes (outcome.parts - 1) outcome.newText index = some text) ∧
    ∀ (text : List Char) (index : ℕ) (outcome : ConflictRegionEditOutcome),
      joinConflictRegionsText text index = some (some outcome) →
      ∃ before after first second joined between,
        JoinedInto text outcome.newText before after first second joined between ∧
        (before.filterMap (·.block?)).length = index :=
  ⟨join_restores_split, join_replaces_two_blocks⟩

theorem joining_undoes_splitting_of_two_lines :
    joinTimes (2 - 1) ("<<<<<<<\na\n=======\n>>>>>>>\n".toList ++
        "<<<<<<<\nb\n=======\n>>>>>>>".toList) 0 = some "<<<<<<<\na\nb\n=======\n>>>>>>>".toList ∧
    ∃ before after first second joined between,
      JoinedInto "<<<<<<<\n=======\n>>>>>>>\nx\n<<<<<<<\n=======\n>>>>>>>\n".toList
        "<<<<<<<\nx\n=======\nx\n>>>>>>>\n".toList before after first second joined between ∧
      (before.filterMap (·.block?)).length = 0 :=
  ⟨joining_undoes_splitting.1 "<<<<<<<\na\nb\n=======\n>>>>>>>".toList 0 ⟨(1, 2), (0, 0), none⟩
    ⟨_, 2⟩ (by decide +kernel), joining_undoes_splitting.2 _ 0 ⟨_, 1⟩ (by decide +kernel)⟩

end GitComet.Conflict.RegionEdit
