import GitComet.Conflict.RegionEdit

namespace GitComet.Conflict.RegionEdit
open Text Slice List Nat

theorem findLineFeed_line {body : List Char} (h : '\n' ∉ body) (rest : List Char) :
    findLineFeed (body ++ '\n' :: rest) = some (byteLen body) := by
  induction body with
  | nil => rfl
  | cons c body ih =>
    simp only [mem_cons, not_or] at h
    rw [cons_append, findLineFeed, if_neg (Ne.symm h.1), ih h.2, Option.map_some, byteLen_cons]

theorem nthLineStart_lines {side : List Char} (n : ℕ) : ∀ {d i : List Line},
    side = (d ++ i).flatten → (∀ line ∈ i, FullLine line) →
    nthLineStartFrom side n (byteLen d.flatten) = some (byteLen (d ++ i.take n).flatten) := by
  induction n with
  | zero =>
    intro d i _ _
    rw [take_zero, append_nil]
    rfl
  | succ n ih =>
    intro d i hside hlines
    rw [flatten_append] at hside
    have htail : byteSlice side (byteLen d.flatten) (byteLen side) = some i.flatten :=
      byteSlice_of (p := d.flatten) (o := []) (by simpa using hside) rfl
        (by rw [hside, byteLen_append])
    simp only [nthLineStartFrom, htail, Option.bind_eq_bind, Option.bind_some]
    cases i with
    | nil =>
      rw [hside]
      simp [findLineFeed]
    | cons line i =>
      obtain ⟨body, rfl, hbody⟩ := hlines line mem_cons_self
      have hfeed : findLineFeed ((body ++ ['\n']) :: i).flatten = some (byteLen body) := by
        simpa using findLineFeed_line hbody i.flatten
      have hstart : byteLen d.flatten + (byteLen body + 1) =
          byteLen (d ++ [body ++ ['\n']]).flatten := by
        have hone : Char.utf8Size '\n' = 1 := rfl
        simp [hone]
      rw [hfeed]
      dsimp only
      rw [hstart, ih (d := d ++ [body ++ ['\n']]) (i := i) (by simp [hside])
        fun l hl => hlines l (mem_cons_of_mem _ hl), append_assoc, take_succ_cons,
        singleton_append]

def cutLines (lines : List Line) (bounds : ℕ × ℕ) : List Line × List Line × List Line :=
  (lines.take bounds.1, (lines.drop bounds.1).take (max bounds.1 bounds.2 - bounds.1),
    lines.drop (max bounds.1 bounds.2))

theorem cutLines_append (lines : List Line) (bounds : ℕ × ℕ) :
    (cutLines lines bounds).1 ++ ((cutLines lines bounds).2.1 ++ (cutLines lines bounds).2.2) =
      lines := by
  have hdrop : (lines.drop bounds.1).drop (max bounds.1 bounds.2 - bounds.1) =
      lines.drop (max bounds.1 bounds.2) := by
    rw [drop_drop]
    congr 1
    omega
  simp only [cutLines]
  rw [← hdrop, take_append_drop, take_append_drop]

theorem sideSlices_lines {lines : List Line} (h : ∀ line ∈ lines, FullLine line) (bounds : ℕ × ℕ) :
    sideSlices lines.flatten bounds = some ((cutLines lines bounds).1.flatten,
      (cutLines lines bounds).2.1.flatten, (cutLines lines bounds).2.2.flatten) := by
  have hcut : ∀ n, nthLineStart lines.flatten n = some (byteLen (lines.take n).flatten) :=
    fun n => nthLineStart_lines (d := []) n rfl h
  have htake : lines.take (max bounds.1 bounds.2) =
      (cutLines lines bounds).1 ++ (cutLines lines bounds).2.1 := by
    obtain ⟨more, hmore⟩ := Nat.exists_eq_add_of_le (Nat.le_max_left bounds.1 bounds.2)
    simp only [cutLines]
    rw [hmore, Nat.add_sub_cancel_left, take_add]
  have hfirst : lines.take bounds.1 = (cutLines lines bounds).1 := rfl
  have hwhole := congrArg flatten (cutLines_append lines bounds)
  simp only [flatten_append] at hwhole
  simp only [sideSlices, hcut, Option.bind_eq_bind, Option.bind_some, htake, hfirst,
    flatten_append, byteLen_append]
  generalize (cutLines lines bounds).1.flatten = first at hwhole ⊢
  generalize (cutLines lines bounds).2.1.flatten = second at hwhole ⊢
  generalize (cutLines lines bounds).2.2.flatten = third at hwhole ⊢
  have hfirst : byteSlice (first ++ (second ++ third)) 0 (byteLen first) = some first :=
    byteSlice_of (p := []) rfl rfl (zero_add _).symm
  have hsecond : byteSlice (first ++ (second ++ third)) (byteLen first)
      (byteLen first + byteLen second) = some second := byteSlice_of rfl rfl rfl
  have hthird : byteSlice (first ++ (second ++ third)) (byteLen first + byteLen second)
      (byteLen (first ++ (second ++ third))) = some third :=
    byteSlice_of (p := first ++ second) (o := []) (by simp) (byteLen_append _ _).symm
      (by simp [add_assoc])
  rw [max_eq_left (le_add_right _ _), ← hwhole, hfirst, hsecond, hthird]
  rfl

structure LineParts where
  ours : List Line
  base : Option (List Line)
  theirs : List Line

def LineParts.text (parts : LineParts) : BlockParts :=
  ⟨parts.ours.flatten, parts.base.map flatten, parts.theirs.flatten⟩

structure PieceOf (c : ConflictLines) (parts : LineParts) (piece : ConflictLines) : Prop where
  opening : piece.opening = c.opening
  intro : piece.base.map Prod.fst = c.base.map Prod.fst
  separator : piece.separator = c.separator
  ours : piece.ours = parts.ours
  base : piece.base.map Prod.snd = parts.base
  theirs : piece.theirs = parts.theirs

structure PartOf (c : ConflictLines) (parts : LineParts) : Prop where
  ours : parts.ours ⊆ c.ours
  theirs : parts.theirs ⊆ c.theirs
  absent : c.base = none → parts.base = none
  present : ∀ part ∈ c.base, ∃ lines, parts.base = some lines ∧ lines ⊆ part.2

variable {parts : LineParts}

theorem piece_exists {c : ConflictLines} (h : PartOf c parts) {closing : Line}
    (hclosing : startsWith '>' closing) :
    ∃ piece, PieceOf c parts piece ∧ piece.closing = closing ∧
      piece.lines.flatten = renderBlock ⟨c.opening, c.base.map Prod.fst, c.separator, closing⟩
        parts.text := by
  have hours : ∀ line ∈ parts.ours, insideOurs line := fun l hl => c.inOurs l (h.ours hl)
  have htheirs : ∀ line ∈ parts.theirs, startsWith '>' line = false :=
    fun l hl => c.inTheirs l (h.theirs hl)
  cases hbase : c.base with
  | none =>
    have hparts := h.absent hbase
    refine ⟨⟨c.opening, parts.ours, none, c.separator, parts.theirs, closing, c.opens, hours,
      by simp, by simp, c.separates, htheirs, hclosing⟩, ⟨rfl, by rw [hbase], rfl, rfl,
      hparts.symm, rfl⟩, rfl, ?_⟩
    simp [ConflictLines.lines, ConflictLines.body, ConflictLines.baseLines, renderBlock,
      LineParts.text, hparts, baseSection]
  | some part =>
    obtain ⟨lines, hparts, hsub⟩ := h.present part hbase
    have hintro := c.introduces part hbase
    have hin := c.inBase part hbase
    refine ⟨⟨c.opening, parts.ours, some (part.1, lines), c.separator, parts.theirs, closing,
      c.opens, hours, ?_, ?_, c.separates, htheirs, hclosing⟩, ⟨rfl, by rw [hbase]; rfl, rfl, rfl,
      hparts.symm, rfl⟩, rfl, ?_⟩
    · rintro found ⟨⟩
      exact hintro
    · rintro found ⟨⟩
      exact fun line hline => hin line (hsub hline)
    · simp [ConflictLines.lines, ConflictLines.body, ConflictLines.baseLines, renderBlock,
        LineParts.text, hparts, baseSection]

inductive Pieces (c : ConflictLines) : List LineParts → List ConflictLines → Prop
  | last {parts : LineParts} {piece : ConflictLines} : PieceOf c parts piece →
      piece.closing = c.closing → Pieces c [parts] [piece]
  | cons {parts next : LineParts} {rest : List LineParts} {piece : ConflictLines}
      {pieces : List ConflictLines} : PieceOf c parts piece →
      piece.closing = c.closing ++ closingBreak (lineMarkers c) →
      Pieces c (next :: rest) pieces → Pieces c (parts :: next :: rest) (piece :: pieces)

variable {all : List LineParts}

theorem pieces_exist {c : ConflictLines} (hne : all ≠ []) (h : ∀ parts ∈ all, PartOf c parts) :
    ∃ pieces, Pieces c all pieces ∧ renderParts (lineMarkers c) (all.map LineParts.text) =
      (pieces.flatMap ConflictLines.lines).flatten := by
  induction all with
  | nil => exact absurd rfl hne
  | cons parts rest ih =>
    have hparts := h parts mem_cons_self
    cases rest with
    | nil =>
      obtain ⟨piece, hpiece, hclosing, htext⟩ := piece_exists hparts c.closes
      refine ⟨[piece], .last hpiece hclosing, ?_⟩
      simp only [map_cons, map_nil, renderParts, flatMap_cons, flatMap_nil, append_nil]
      exact htext.symm
    | cons next rest =>
      obtain ⟨pieces, hpieces, hrest⟩ := ih (by simp) fun p hp => h p (mem_cons_of_mem _ hp)
      have hcloses : startsWith '>' (c.closing ++ closingBreak (lineMarkers c)) := by
        obtain ⟨tail, htail⟩ := isPrefixOf_iff_prefix.mp c.closes
        rw [startsWith, isPrefixOf_iff_prefix, ← htail, append_assoc]
        exact prefix_append _ _
      obtain ⟨piece, hpiece, hclosing, htext⟩ := piece_exists hparts hcloses
      refine ⟨piece :: pieces, .cons hpiece hclosing hpieces, ?_⟩
      rw [map_cons, map_cons, renderParts, ← map_cons, hrest, flatMap_cons, flatten_append, htext]
      swap
      · simp
      simp [renderBlock, lineMarkers]

def baseCut (c : ConflictLines) (boundaries : ConflictRegionSplitBoundaries) :
    Option (List Line × List Line × List Line) :=
  match c.base, boundaries.base with
  | some part, some bounds => some (cutLines part.2 bounds)
  | _, _ => none

def lineParts (c : ConflictLines) (boundaries : ConflictRegionSplitBoundaries) : List LineParts :=
  let ours := cutLines c.ours boundaries.ours
  let theirs := cutLines c.theirs boundaries.theirs
  let base := baseCut c boundaries
  [⟨ours.1, base.map (·.1), theirs.1⟩, ⟨ours.2.1, base.map (·.2.1), theirs.2.1⟩,
    ⟨ours.2.2, base.map (·.2.2), theirs.2.2⟩]

def emittedLines (c : ConflictLines) (boundaries : ConflictRegionSplitBoundaries) :
    List LineParts :=
  (lineParts c boundaries).filter fun parts => !parts.text.isEmpty

theorem cutLines_subset (lines : List Line) (bounds : ℕ × ℕ) :
    (cutLines lines bounds).1 ⊆ lines ∧ (cutLines lines bounds).2.1 ⊆ lines ∧
      (cutLines lines bounds).2.2 ⊆ lines := by
  have h := cutLines_append lines bounds
  refine ⟨fun l hl => ?_, fun l hl => ?_, fun l hl => ?_⟩ <;> rw [← h]
  · exact mem_append_left _ hl
  · exact mem_append_right _ (mem_append_left _ hl)
  · exact mem_append_right _ (mem_append_right _ hl)

theorem lineParts_of {c : ConflictLines} {boundaries : ConflictRegionSplitBoundaries}
    (h : c.base.isSome = boundaries.base.isSome) :
    ∀ parts ∈ lineParts c boundaries, PartOf c parts := by
  obtain ⟨hours, hours', hours''⟩ := cutLines_subset c.ours boundaries.ours
  obtain ⟨htheirs, htheirs', htheirs''⟩ := cutLines_subset c.theirs boundaries.theirs
  have habsent : c.base = none → baseCut c boundaries = none := by
    intro hbase
    simp [baseCut, hbase]
  have hpresent : ∀ part ∈ c.base, ∃ cut, baseCut c boundaries = some cut ∧ cut.1 ⊆ part.2 ∧
      cut.2.1 ⊆ part.2 ∧ cut.2.2 ⊆ part.2 := by
    intro part hpart
    rw [Option.mem_def] at hpart
    rw [hpart] at h
    obtain ⟨bounds, hbounds⟩ := Option.isSome_iff_exists.mp h.symm
    exact ⟨_, by simp only [baseCut, hpart, hbounds], cutLines_subset part.2 bounds⟩
  intro parts hparts
  simp only [lineParts, mem_cons, not_mem_nil, or_false] at hparts
  rcases hparts with rfl | rfl | rfl
  · refine ⟨hours, htheirs, fun hb => by rw [habsent hb]; rfl, fun part hpart => ?_⟩
    obtain ⟨cut, hcut, hsub, -, -⟩ := hpresent part hpart
    exact ⟨_, by rw [hcut]; rfl, hsub⟩
  · refine ⟨hours', htheirs', fun hb => by rw [habsent hb]; rfl, fun part hpart => ?_⟩
    obtain ⟨cut, hcut, -, hsub, -⟩ := hpresent part hpart
    exact ⟨_, by rw [hcut]; rfl, hsub⟩
  · refine ⟨hours'', htheirs'', fun hb => by rw [habsent hb]; rfl, fun part hpart => ?_⟩
    obtain ⟨cut, hcut, -, -, hsub⟩ := hpresent part hpart
    exact ⟨_, by rw [hcut]; rfl, hsub⟩

theorem flatMap_filter {α β : Type} {p : α → Bool} {f : α → List β} (xs : List α)
    (h : ∀ x, p x = false → f x = []) : (xs.filter p).flatMap f = xs.flatMap f := by
  induction xs with
  | nil => rfl
  | cons x xs ih =>
    cases hx : p x with
    | true => rw [filter_cons_of_pos hx, flatMap_cons, flatMap_cons, ih]
    | false =>
      rw [filter_cons_of_neg (by simp [hx]), flatMap_cons, ih, h x hx, nil_append]

theorem isEmpty_parts (h : (!parts.text.isEmpty) = false) :
    parts.ours.flatten = [] ∧ parts.theirs.flatten = [] ∧
      (parts.base.map flatten).getD [] = [] := by
  simpa [BlockParts.isEmpty, LineParts.text, and_assoc] using h

theorem emitted_content {c : ConflictLines} {boundaries : ConflictRegionSplitBoundaries}
    (h : c.base.isSome = boundaries.base.isSome) :
    (emittedLines c boundaries).flatMap (·.ours.flatten) = c.ours.flatten ∧
      (emittedLines c boundaries).flatMap (·.theirs.flatten) = c.theirs.flatten ∧
      (emittedLines c boundaries).flatMap (fun parts => (parts.base.map flatten).getD []) =
        (c.base.map fun part => part.2.flatten).getD [] := by
  have hours := congrArg flatten (cutLines_append c.ours boundaries.ours)
  have htheirs := congrArg flatten (cutLines_append c.theirs boundaries.theirs)
  simp only [flatten_append] at hours htheirs
  refine ⟨?_, ?_, ?_⟩
  · rw [emittedLines, flatMap_filter _ fun parts hp => (isEmpty_parts hp).1]
    simpa [lineParts] using hours
  · rw [emittedLines, flatMap_filter _ fun parts hp => (isEmpty_parts hp).2.1]
    simpa [lineParts] using htheirs
  · rw [emittedLines, flatMap_filter _ fun parts hp => (isEmpty_parts hp).2.2]
    cases hbase : c.base with
    | none => simp [lineParts, baseCut, hbase]
    | some part =>
      rw [hbase] at h
      obtain ⟨bounds, hbounds⟩ := Option.isSome_iff_exists.mp h.symm
      have hcut := congrArg flatten (cutLines_append part.2 bounds)
      simp only [flatten_append] at hcut
      simpa [lineParts, baseCut, hbase, hbounds] using hcut

theorem emittedParts_lines (c : ConflictLines) (boundaries : ConflictRegionSplitBoundaries) :
    emittedParts ((cutLines c.ours boundaries.ours).1.flatten,
        (cutLines c.ours boundaries.ours).2.1.flatten, (cutLines c.ours boundaries.ours).2.2.flatten)
      ((cutLines c.theirs boundaries.theirs).1.flatten,
        (cutLines c.theirs boundaries.theirs).2.1.flatten,
        (cutLines c.theirs boundaries.theirs).2.2.flatten)
      ((baseCut c boundaries).map fun cut => (cut.1.flatten, cut.2.1.flatten, cut.2.2.flatten)) =
      (emittedLines c boundaries).map LineParts.text := by
  have hmap : ∀ xs : List LineParts, (xs.filter fun parts => !parts.text.isEmpty).map
      LineParts.text = (xs.map LineParts.text).filter fun parts => !parts.isEmpty := by
    intro xs
    rw [filter_map]
    rfl
  rw [emittedLines, hmap, emittedParts]
  congr 1
  simp only [lineParts]
  cases baseCut c boundaries <;> rfl

structure FullBlock (c : ConflictLines) : Prop where
  opening : FullLine c.opening
  ours : ∀ line ∈ c.ours, FullLine line
  base : ∀ part ∈ c.base, FullLine part.1 ∧ ∀ line ∈ part.2, FullLine line
  separator : FullLine c.separator
  theirs : ∀ line ∈ c.theirs, FullLine line
  closing : FullLine c.closing ∨ '\n' ∉ c.closing

theorem fullBlock_of_split {text : List Char} {front back : List Line} {c : ConflictLines}
    (h : splitInclusive text = front ++ (c.lines ++ back)) : FullBlock c := by
  have hsplit : splitInclusive text = (front ++ c.opening :: (c.ours ++ (c.baseLines ++
      c.separator :: c.theirs))) ++ c.closing :: back := by
    rw [h]
    simp [ConflictLines.lines, ConflictLines.body]
  have hfull := splitInclusive_front hsplit
  refine ⟨hfull _ (by simp), fun l hl => hfull l (by simp [hl]), fun part hpart => ?_,
    hfull _ (by simp), fun l hl => hfull l (by simp [hl]), ?_⟩
  · have hlines : c.baseLines = part.1 :: part.2 := by
      rw [ConflictLines.baseLines, Option.mem_def.mp hpart]
      rfl
    rw [hlines] at hfull
    exact ⟨hfull _ (by simp), fun l hl => hfull l (by simp [hl])⟩
  · rcases (splitInclusive_cons (splitInclusive_back hsplit)).2 with hclosing | ⟨-, hfree⟩
    · exact Or.inl hclosing
    · exact Or.inr hfree

theorem fullLine_newline {line : Line} (h : FullLine line) : endsWithNewline line := by
  obtain ⟨body, rfl, -⟩ := h
  simp [endsWithNewline]

theorem closingBreak_full {c : ConflictLines} (h : FullBlock c) :
    FullLine (c.closing ++ closingBreak (lineMarkers c)) := by
  rcases h.closing with hfull | hfree
  · have hnone : closingBreak (lineMarkers c) = [] := by
      rw [closingBreak, if_pos]
      exact fullLine_newline hfull
    rwa [hnone, append_nil]
  · have hend : endsWithNewline (lineMarkers c).closing = false := by
      rw [endsWithNewline, decide_eq_false_iff_not]
      exact fun hlast => hfree (mem_of_getLast? hlast)
    rw [closingBreak, hend, if_neg (by simp)]
    split
    · exact ⟨c.closing ++ ['\r'], by simp, by simpa using hfree⟩
    · exact ⟨c.closing, rfl, hfree⟩

theorem piece_full {c piece : ConflictLines} (h : FullBlock c)
    (hpart : PartOf c parts) (hpiece : PieceOf c parts piece) :
    ∃ lines, piece.lines = lines ++ [piece.closing] ∧ ∀ line ∈ lines, FullLine line := by
  refine ⟨piece.opening :: (piece.ours ++ (piece.baseLines ++ piece.separator :: piece.theirs)),
    by simp [ConflictLines.lines, ConflictLines.body], ?_⟩
  intro line hline
  simp only [mem_cons, mem_append] at hline
  rcases hline with rfl | hline | hline | rfl | hline
  · exact hpiece.opening ▸ h.opening
  · exact h.ours line (hpart.ours (hpiece.ours ▸ hline))
  · cases hbase : piece.base with
    | none => simp [ConflictLines.baseLines, hbase] at hline
    | some found =>
      have hintro := hpiece.intro
      have hlines := hpiece.base
      rw [hbase] at hintro hlines
      obtain ⟨part, hcbase, hfst⟩ := Option.map_eq_some_iff.mp hintro.symm
      obtain ⟨lines, hsome, hsub⟩ := hpart.present part hcbase
      obtain rfl : found.2 = lines := Option.some.inj (hlines.trans hsome)
      obtain ⟨hfull, hfulls⟩ := h.base part hcbase
      simp only [ConflictLines.baseLines, hbase, Option.elim_some, mem_cons] at hline
      rcases hline with rfl | hline
      · exact hfst ▸ hfull
      · exact hfulls line (hsub hline)
  · exact hpiece.separator ▸ h.separator
  · exact h.theirs line (hpart.theirs (hpiece.theirs ▸ hline))

variable {pieces : List ConflictLines}

theorem pieces_full {c : ConflictLines}
    (h : FullBlock c) (hparts : ∀ parts ∈ all, PartOf c parts) (hpieces : Pieces c all pieces) :
    ∃ lines, pieces.flatMap ConflictLines.lines = lines ++ [c.closing] ∧
      ∀ line ∈ lines, FullLine line := by
  induction hpieces with
  | @last parts piece hpiece hclosing =>
    obtain ⟨lines, hlines, hfull⟩ := piece_full h (hparts parts (by simp)) hpiece
    exact ⟨lines, by simp [hlines, hclosing], hfull⟩
  | @cons parts next rest piece pieces hpiece hclosing _ ih =>
    obtain ⟨lines, hlines, hfull⟩ := piece_full h (hparts parts (by simp)) hpiece
    obtain ⟨lines', hlines', hfull'⟩ := ih fun p hp => hparts p (mem_cons_of_mem _ hp)
    have hbreak := closingBreak_full h
    refine ⟨lines ++ (piece.closing :: lines'), by simp [hlines, hlines'], fun l hl => ?_⟩
    simp only [mem_append, mem_cons] at hl
    rcases hl with hl | rfl | hl
    · exact hfull l hl
    · rwa [hclosing]
    · exact hfull' l hl

section
variable {text : List Char} {index : ℕ} {doc : Document} {before after : List DocumentPart}
  {context : List Line} {c : ConflictLines} {boundaries : ConflictRegionSplitBoundaries}

theorem baseSlices_lines (hfull : FullBlock c) (hbase : c.base.isSome = boundaries.base.isSome) :
    baseSlices (c.base.map fun part => part.2.flatten) boundaries.base =
      some ((baseCut c boundaries).map fun cut =>
        (cut.1.flatten, cut.2.1.flatten, cut.2.2.flatten)) := by
  cases hpart : c.base with
  | none => simp [baseSlices, baseCut, hpart]
  | some part =>
    rw [hpart] at hbase
    obtain ⟨bounds, hbounds⟩ := Option.isSome_iff_exists.mp hbase.symm
    rw [hbounds, Option.map_some, baseSlices, sideSlices_lines (hfull.base part hpart).2]
    simp only [baseCut, hpart, hbounds, Option.map_some]

theorem splitConflictRegionText_at (h : BlockAt text index doc before context c after)
    (hbase : c.base.isSome = boundaries.base.isSome) :
    splitConflictRegionText text index boundaries =
      if (emittedLines c boundaries).length < 2 then some none
      else some (some ⟨(frontLines before context).flatten ++ (renderParts (lineMarkers c)
        ((emittedLines c boundaries).map LineParts.text) ++ (backLines after doc.tail).flatten),
        (emittedLines c boundaries).length⟩) := by
  have hfull := fullBlock_of_split h.lines
  obtain ⟨hours, htheirs, hbaseText⟩ := sideTexts_ranges c h.whole
  have hhead : byteSlice text 0 (byteLen (frontLines before context).flatten) =
      some (frontLines before context).flatten :=
    byteSlice_of (p := []) h.whole rfl (zero_add _).symm
  have hmarkerEnd := c.markerEnd_ranges (byteLen (frontLines before context).flatten)
  have htail : byteSlice text (c.ranges (byteLen (frontLines before context).flatten)).markerEnd
      (byteLen text) = some (backLines after doc.tail).flatten :=
    byteSlice_of (p := (frontLines before context).flatten ++ c.lines.flatten) (o := [])
      (by rw [append_nil, append_assoc]; exact h.whole)
      (by rw [hmarkerEnd, byteLen_append])
      (by rw [← byteLen_append, append_assoc, ← h.whole])
  have hsome : (c.ranges (byteLen (frontLines before context).flatten)).base.isSome =
      boundaries.base.isSome := by
    rw [← hbase]
    simp [ConflictLines.ranges]
  have hparts := emittedParts_lines c boundaries
  have hlen : ((emittedLines c boundaries).map LineParts.text).length =
      (emittedLines c boundaries).length := length_map _
  simp only [splitConflictRegionText, h.range, hsome, ne_eq, not_true_eq_false, if_false,
    markerLines_ranges c h.whole, hours, htheirs, hbaseText, sideSlices_lines hfull.ours,
    sideSlices_lines hfull.theirs, baseSlices_lines hfull hbase, htail, Option.bind_eq_bind,
    Option.bind_some, hparts, hlen]
  have hstart : (c.ranges (byteLen (frontLines before context).flatten)).markerStart =
      byteLen (frontLines before context).flatten := rfl
  simp only [hstart, hhead, Option.bind_some]

theorem splitConflictRegionText_some {outcome : ConflictRegionEditOutcome}
    (h : splitConflictRegionText text index boundaries = some (some outcome)) :
    ∃ doc before context c after, BlockAt text index doc before context c after ∧
      c.base.isSome = boundaries.base.isSome ∧ 2 ≤ (emittedLines c boundaries).length ∧
      outcome.parts = (emittedLines c boundaries).length ∧
      outcome.newText = (frontLines before context).flatten ++ (renderParts (lineMarkers c)
        ((emittedLines c boundaries).map LineParts.text) ++ (backLines after doc.tail).flatten) := by
  cases hrange : (conflictBlocks text)[index]? with
  | none => simp [splitConflictRegionText, hrange] at h
  | some range =>
    obtain ⟨doc, before, context, c, after, hat⟩ := blockAt_exists hrange
    by_cases hbase : c.base.isSome = boundaries.base.isSome
    · rw [splitConflictRegionText_at hat hbase] at h
      split at h
      · cases h
      · rename_i hlen
        obtain rfl := Option.some.inj (Option.some.inj h)
        exact ⟨doc, before, context, c, after, hat, hbase, Nat.le_of_not_lt hlen, rfl, rfl⟩
    · have hsome : (c.ranges (byteLen (frontLines before context).flatten)).base.isSome ≠
          boundaries.base.isSome := by simpa [ConflictLines.ranges] using hbase
      rw [splitConflictRegionText, hat.range] at h
      dsimp only at h
      rw [if_pos hsome] at h
      cases h

def pieceParts (context : List Line) : List ConflictLines → List DocumentPart
  | [] => []
  | piece :: pieces => (context, piece) :: pieces.map fun piece => ([], piece)

theorem pieceParts_lines (context : List Line) (h : pieces ≠ []) :
    (pieceParts context pieces).flatMap partLines =
      context ++ pieces.flatMap ConflictLines.lines := by
  cases pieces with
  | nil => exact absurd rfl h
  | cons piece pieces =>
    simp only [pieceParts, flatMap_cons, flatMap_map, partLines, nil_append, append_assoc]

theorem pieceParts_segments (context : List Line) (h : pieces ≠ []) :
    (pieceParts context pieces).flatMap partSegments =
      contextSegments context ++ pieces.map fun piece => .conflict piece.block := by
  cases pieces with
  | nil => exact absurd rfl h
  | cons piece pieces =>
    have hempty : contextSegments [] = [] := rfl
    simp only [pieceParts, flatMap_cons, flatMap_map, partSegments, hempty,
      nil_append, append_assoc, map_cons, singleton_append]
    congr 2
    exact map_eq_flatMap.symm

theorem Pieces.ne_nil (h : Pieces c all pieces) : pieces ≠ [] := by
  cases h <;> simp

theorem pieces_document (h : BlockAt text index doc before context c after)
    (hparts : ∀ parts ∈ all, PartOf c parts) (hpieces : Pieces c all pieces) :
    ∃ doc' : Document, doc'.parts = before ++ (pieceParts context pieces ++ after) ∧
      doc'.tail = doc.tail ∧ splitInclusive ((frontLines before context).flatten ++
        ((pieces.flatMap ConflictLines.lines).flatten ++ (backLines after doc.tail).flatten)) =
          doc'.lines := by
  have hcontext : ∀ part ∈ before ++ (pieceParts context pieces ++ after), ∀ line ∈ part.1,
      startsWith '<' line = false := by
    intro part hpart
    have hdoc := doc.context
    rw [h.parts] at hdoc
    rcases mem_append.mp hpart with hpart | hpart
    · exact hdoc part (mem_append_left _ hpart)
    rcases mem_append.mp hpart with hpart | hpart
    · cases pieces with
      | nil => cases hpart
      | cons piece pieces =>
        rcases mem_cons.mp hpart with rfl | hpart
        · exact hdoc (context, c) (by simp)
        · obtain ⟨piece', -, rfl⟩ := mem_map.mp hpart
          simp
    · exact hdoc part (by simp [hpart])
  refine ⟨⟨before ++ (pieceParts context pieces ++ after), doc.tail, hcontext, doc.rest⟩, rfl, rfl,
    ?_⟩
  have hfull := fullBlock_of_split h.lines
  obtain ⟨lines, hlines, hlinesFull⟩ := pieces_full hfull hparts hpieces
  have hsplit : splitInclusive text = (frontLines before context ++ c.opening :: (c.ours ++
      (c.baseLines ++ c.separator :: c.theirs))) ++ c.closing :: backLines after doc.tail := by
    rw [h.lines]
    simp [ConflictLines.lines, ConflictLines.body]
  have hback := splitInclusive_back hsplit
  have hfront : ∀ line ∈ frontLines before context ++ lines, FullLine line := by
    intro line hline
    rcases mem_append.mp hline with hline | hline
    · exact splitInclusive_front hsplit line (mem_append_left _ hline)
    · exact hlinesFull line hline
  have hwhole := splitInclusive_append hfront (c.closing :: backLines after doc.tail).flatten
  rw [hback] at hwhole
  simp only [Document.lines, flatMap_append, pieceParts_lines context hpieces.ne_nil]
  rw [hlines]
  simpa [frontLines, backLines] using hwhole

theorem Pieces.content (h : Pieces c all pieces) :
    pieces.flatMap (·.block.ours) = all.flatMap (·.ours.flatten) ∧
      pieces.flatMap (·.block.theirs) = all.flatMap (·.theirs.flatten) ∧
      pieces.flatMap (·.block.base.getD []) =
        all.flatMap (fun parts => (parts.base.map flatten).getD []) ∧
      pieces.length = all.length := by
  have hpiece : ∀ {parts piece}, PieceOf c parts piece →
      piece.block.ours = parts.ours.flatten ∧ piece.block.theirs = parts.theirs.flatten ∧
        piece.block.base = parts.base.map flatten := by
    intro parts piece hp
    refine ⟨by rw [← hp.ours]; rfl, by rw [← hp.theirs]; rfl, ?_⟩
    rw [← hp.base, Option.map_map]
    rfl
  induction h with
  | last hp =>
    obtain ⟨hours, htheirs, hbase⟩ := hpiece hp
    simp [hours, htheirs, hbase]
  | cons hp _ _ ih =>
    obtain ⟨hours, htheirs, hbase⟩ := hpiece hp
    obtain ⟨ihours, ihtheirs, ihbase, ihlength⟩ := ih
    refine ⟨?_, ?_, ?_, ?_⟩
    · rw [flatMap_cons, ihours, hours]
      rfl
    · rw [flatMap_cons, ihtheirs, htheirs]
      rfl
    · rw [flatMap_cons, ihbase, hbase]
      rfl
    · rw [length_cons, ihlength]
      rfl

structure SameLabels (markers piece : MarkerLines) : Prop where
  opening : piece.opening = markers.opening
  baseIntro : piece.baseIntro = markers.baseIntro
  separator : piece.separator = markers.separator
  closing : piece.closing = markers.closing ∨ endsWithNewline markers.closing = false ∧
    (piece.closing = markers.closing ++ ['\n'] ∨ piece.closing = markers.closing ++ ['\r', '\n'])

theorem Pieces.labels (h : Pieces c all pieces) :
    ∀ piece ∈ pieces, SameLabels (lineMarkers c) (lineMarkers piece) ∧
      piece.block.base.isSome = c.block.base.isSome := by
  have hpiece : ∀ {parts piece}, PieceOf c parts piece →
      (piece.closing = c.closing ∨ piece.closing = c.closing ++ closingBreak (lineMarkers c)) →
      SameLabels (lineMarkers c) (lineMarkers piece) ∧
        piece.block.base.isSome = c.block.base.isSome := by
    intro parts piece hp hclosing
    refine ⟨⟨hp.opening, hp.intro, hp.separator, ?_⟩, ?_⟩
    · rcases hclosing with hclosing | hclosing
      · exact Or.inl hclosing
      · have hline : (lineMarkers piece).closing =
            (lineMarkers c).closing ++ closingBreak (lineMarkers c) := hclosing
        rw [hline]
        unfold closingBreak
        cases hend : endsWithNewline (lineMarkers c).closing with
        | true => exact Or.inl (by simp)
        | false =>
          refine Or.inr ⟨rfl, ?_⟩
          rw [if_neg (by simp)]
          split
          · exact Or.inr rfl
          · exact Or.inl rfl
    · have := congrArg Option.isSome hp.intro
      simpa [ConflictLines.block] using this
  induction h with
  | last hp hclosing =>
    intro piece hmem
    obtain rfl := mem_singleton.mp hmem
    exact hpiece hp (Or.inl hclosing)
  | cons hp hclosing _ ih =>
    intro piece hmem
    rcases mem_cons.mp hmem with rfl | hmem
    · exact hpiece hp (Or.inr hclosing)
    · exact ih piece hmem

end

structure SplitInto (text newText : List Char) (before after : List ParsedConflictSegment)
    (block : ParsedConflictBlock) (pieces : List ParsedConflictBlock) : Prop where
  parsed : parseConflictMarkerSegments text = some (before ++ .conflict block :: after)
  reparsed : parseConflictMarkerSegments newText =
    some (before ++ (pieces.map .conflict ++ after))
  ours : pieces.flatMap (·.ours) = block.ours
  theirs : pieces.flatMap (·.theirs) = block.theirs
  base : pieces.flatMap (·.base.getD []) = block.base.getD []
  sections : ∀ piece ∈ pieces, piece.base.isSome = block.base.isSome
  labels : ∃ first markers last pieceMarkers,
    blockMarkers text = some (first ++ markers :: last) ∧
      blockMarkers newText = some (first ++ (pieceMarkers ++ last)) ∧
      first.length = (before.filterMap (·.block?)).length ∧
      pieceMarkers.length = pieces.length ∧ ∀ piece ∈ pieceMarkers, SameLabels markers piece

theorem block?_context (context : List Line) :
    (contextSegments context).filterMap (·.block?) = [] := by
  unfold contextSegments
  split <;> rfl

theorem block?_parts (parts : List DocumentPart) :
    (parts.flatMap partSegments).filterMap (·.block?) = parts.map (·.2.block) := by
  induction parts with
  | nil => rfl
  | cons part parts ih =>
    simp only [flatMap_cons, partSegments, filterMap_append, block?_context, ih,
      nil_append, map_cons]
    rfl

theorem split_keeps_content (text : List Char) (index : ℕ)
    (boundaries : ConflictRegionSplitBoundaries) (outcome : ConflictRegionEditOutcome)
    (h : splitConflictRegionText text index boundaries = some (some outcome)) :
    ∃ before after block pieces, SplitInto text outcome.newText before after block pieces ∧
      (before.filterMap (·.block?)).length = index ∧ pieces.length = outcome.parts ∧
      2 ≤ outcome.parts ∧ outcome.parts ≤ 3 := by
  obtain ⟨doc, before, context, c, after, hat, hbase, htwo, hcount, hnew⟩ :=
    splitConflictRegionText_some h
  have hparts : ∀ parts ∈ emittedLines c boundaries, PartOf c parts :=
    fun parts hp => lineParts_of hbase parts (mem_filter.mp hp).1
  have hne : emittedLines c boundaries ≠ [] := by
    intro hnil
    rw [hnil] at htwo
    simp at htwo
  obtain ⟨pieces, hpieces, hrender⟩ := pieces_exist hne hparts
  obtain ⟨doc', hdocParts, hdocTail, hsplit⟩ := pieces_document hat hparts hpieces
  obtain ⟨hours, htheirs, hbaseText, hlength⟩ := hpieces.content
  obtain ⟨hours', htheirs', hbaseText'⟩ := emitted_content hbase
  rw [← hrender, ← hnew] at hsplit
  have hold := parse_segments hat.split
  have hreparse := parse_segments hsplit
  simp only [Document.segments, hat.parts, hdocParts, hdocTail, flatMap_append,
    flatMap_cons, pieceParts_segments context hpieces.ne_nil, partSegments,
    append_assoc, singleton_append] at hold hreparse
  have hindex : ((before.flatMap partSegments ++ contextSegments context).filterMap
      (·.block?)).length = index := by
    rw [filterMap_append, block?_context, append_nil, block?_parts, length_map, hat.index]
  refine ⟨before.flatMap partSegments ++ contextSegments context,
    after.flatMap partSegments ++ tailSegments doc.tail, c.block,
    pieces.map ConflictLines.block, ⟨?_, ?_, ?_, ?_, ?_, ?_, ?_⟩, hindex, ?_, ?_, ?_⟩
  · rw [hold]
    simp
  · rw [hreparse]
    simp
  · rw [flatMap_map, hours, hours']
    rfl
  · rw [flatMap_map, htheirs, htheirs']
    rfl
  · rw [flatMap_map, hbaseText, hbaseText']
    rfl
  · intro piece hpiece
    obtain ⟨piece, hmem, rfl⟩ := mem_map.mp hpiece
    exact (hpieces.labels piece hmem).2
  · have hmarkers := blockMarkers_document hat.split
    have hmarkers' := blockMarkers_document hsplit
    rw [hat.parts, map_append, map_cons] at hmarkers
    rw [hdocParts, map_append, map_append] at hmarkers'
    refine ⟨_, _, _, _, hmarkers, hmarkers', ?_, ?_, ?_⟩
    · rw [hindex, length_map, hat.index]
    · cases pieces with
      | nil => exact absurd rfl hpieces.ne_nil
      | cons piece pieces => simp [pieceParts]
    · intro markers hmem
      obtain ⟨part, hpart, rfl⟩ := mem_map.mp hmem
      have hin : part.2 ∈ pieces := by
        cases pieces with
        | nil => cases hpart
        | cons piece pieces =>
          rcases mem_cons.mp hpart with rfl | hpart
          · exact mem_cons_self
          · obtain ⟨piece', hmem', rfl⟩ := mem_map.mp hpart
            exact mem_cons_of_mem _ hmem'
      exact (hpieces.labels part.2 hin).1
  · rw [length_map, hlength, hcount]
  · rw [hcount]
    exact htwo
  · rw [hcount]
    exact length_filter_le _ _

theorem split_keeps_a_last_line_without_newline :
    ∃ before after block pieces, SplitInto "<<<<<<< HEAD\no1\no2\n=======\nt1\nt2\n>>>>>>> x".toList
      ("<<<<<<< HEAD\no1\n=======\nt1\n>>>>>>> x\n".toList ++
        "<<<<<<< HEAD\no2\n=======\nt2\n>>>>>>> x".toList) before after block pieces ∧
      (before.filterMap (·.block?)).length = 0 ∧ pieces.length = 2 ∧ 2 ≤ 2 ∧ 2 ≤ 3 :=
  split_keeps_content _ 0 ⟨(1, 2), (1, 2), none⟩ ⟨_, 2⟩ (by decide +kernel)

end GitComet.Conflict.RegionEdit
