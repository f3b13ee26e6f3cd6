import GitComet.Conflict.MarkerParse

namespace GitComet.Conflict
open Text List Option Nat

structure ConflictLines where
  opening : Line
  ours : List Line
  base : Option (Line × List Line)
  separator : Line
  theirs : List Line
  closing : Line
  opens : startsWith '<' opening = true
  inOurs : ∀ line ∈ ours, insideOurs line = true
  introduces : ∀ part ∈ base, startsWith '|' part.1 = true
  inBase : ∀ part ∈ base, ∀ line ∈ part.2, startsWith '=' line = false
  separates : startsWith '=' separator = true
  inTheirs : ∀ line ∈ theirs, startsWith '>' line = false
  closes : startsWith '>' closing = true

namespace ConflictLines

def baseLines (c : ConflictLines) : List Line := c.base.elim [] fun part => part.1 :: part.2

def body (c : ConflictLines) : List Line :=
  c.ours ++ (c.baseLines ++ c.separator :: (c.theirs ++ [c.closing]))

def lines (c : ConflictLines) : List Line := c.opening :: c.body

def block (c : ConflictLines) : ParsedConflictBlock :=
  ⟨c.base.map fun part => part.2.flatten, c.ours.flatten, c.theirs.flatten⟩

def ranges (c : ConflictLines) (offset : ℕ) : ParsedConflictBlockRanges :=
  let oursStart := offset + byteLen c.opening
  let oursEnd := oursStart + byteLen c.ours.flatten
  let theirsStart := oursEnd + byteLen c.baseLines.flatten + byteLen c.separator
  let theirsEnd := theirsStart + byteLen c.theirs.flatten
  { markerStart := offset
    markerEnd := theirsEnd + byteLen c.closing
    base := c.base.map fun part =>
      ⟨oursEnd + byteLen part.1, oursEnd + byteLen part.1 + byteLen part.2.flatten⟩
    ours := ⟨oursStart, oursEnd⟩
    theirs := ⟨theirsStart, theirsEnd⟩ }

theorem markerEnd_ranges (c : ConflictLines) (offset : ℕ) :
    (c.ranges offset).markerEnd = offset + byteLen c.lines.flatten := by
  simp only [ranges, lines, body, flatten_cons, flatten_append, flatten_nil,
    append_nil, byteLen_append]
  omega

end ConflictLines

theorem startsWith_exclusive {c d : Char} (hne : c ≠ d) {line : Line}
    (h : startsWith c line) : startsWith d line = false := by
  cases line with
  | nil => simp [startsWith] at h
  | cons x line =>
    simp only [startsWith, replicate_succ, isPrefixOf, Bool.and_eq_true, beq_iff_eq] at h
    obtain ⟨rfl, -⟩ := h
    simp [startsWith, replicate_succ, isPrefixOf, Ne.symm hne]

theorem dropWhile_split {p : Line → Bool} {lines rest : List Line} {mark : Line}
    (h : lines.dropWhile p = mark :: rest) :
    lines = lines.takeWhile p ++ mark :: rest ∧ p mark = false := by
  refine ⟨by rw [← h, takeWhile_append_dropWhile], ?_⟩
  have := head?_dropWhile_not p lines
  rw [h] at this
  simpa using this

theorem readTheirs_shape {lines rest : List Line} {theirs : List Char}
    (h : readTheirs lines = some (theirs, rest)) :
    ∃ body closing, lines = body ++ closing :: rest ∧ body.flatten = theirs ∧
      (∀ line ∈ body, startsWith '>' line = false) ∧ startsWith '>' closing := by
  unfold readTheirs at h
  split at h
  · cases h
  · rename_i closing rest' hdrop
    obtain ⟨rfl, rfl⟩ := Prod.mk.inj (some.inj h)
    obtain ⟨hlines, hclosing⟩ := dropWhile_split hdrop
    refine ⟨_, closing, hlines, rfl, fun line hline => ?_, by simpa using hclosing⟩
    simpa using mem_takeWhile_imp hline

theorem readBlock_shape {opening : Line} {lines rest : List Line} {b : ParsedConflictBlock}
    (hopen : startsWith '<' opening) (h : readBlock lines = some (b, rest)) :
    ∃ c : ConflictLines, c.opening = opening ∧ lines = c.body ++ rest ∧ c.block = b := by
  unfold readBlock at h
  split at h
  · cases h
  · rename_i mark after hdrop
    obtain ⟨hlines, hmark⟩ := dropWhile_split hdrop
    have hours : ∀ line ∈ lines.takeWhile insideOurs, insideOurs line :=
      fun line hline => mem_takeWhile_imp hline
    generalize lines.takeWhile insideOurs = ours at hlines hours h
    split at h
    · rename_i hsep
      obtain ⟨⟨theirs, rest'⟩, htheirs, hblock⟩ := map_eq_some_iff.mp h
      obtain ⟨rfl, rfl⟩ := Prod.mk.inj hblock
      obtain ⟨body, closing, rfl, hflat, hbody, hclosing⟩ := readTheirs_shape htheirs
      exact ⟨⟨opening, ours, none, mark, body, closing, hopen, hours, by simp, by simp, hsep, hbody,
        hclosing⟩, rfl, by simp [ConflictLines.body, ConflictLines.baseLines, hlines],
        by simp [ConflictLines.block, hflat]⟩
    · rename_i hsep
      have hintro : startsWith '|' mark := by
        rw [Bool.not_eq_true] at hsep
        simpa [insideOurs, hsep] using hmark
      split at h
      · cases h
      · rename_i separator body' hbase
        obtain ⟨⟨theirs, rest'⟩, htheirs, hblock⟩ := map_eq_some_iff.mp h
        obtain ⟨rfl, rfl⟩ := Prod.mk.inj hblock
        obtain ⟨hafter, hseparator⟩ := dropWhile_split hbase
        obtain ⟨body, closing, rfl, hflat, hbody, hclosing⟩ := readTheirs_shape htheirs
        have hin : ∀ line ∈ after.takeWhile fun line => !startsWith '=' line,
            startsWith '=' line = false := fun line hline => by
          simpa using mem_takeWhile_imp hline
        generalize (after.takeWhile fun line => !startsWith '=' line) = base at hafter hin ⊢
        refine ⟨⟨opening, ours, some (mark, base), separator, body, closing, hopen, hours, ?_, ?_,
          by simpa using hseparator, hbody, hclosing⟩, rfl, ?_, by simp [ConflictLines.block, hflat]⟩
        · rintro part ⟨⟩
          exact hintro
        · rintro part ⟨⟩
          exact hin
        · simp [ConflictLines.body, ConflictLines.baseLines, hlines, hafter]

namespace ConflictLines
variable (c : ConflictLines) (offset : ℕ) (rest : List Line)

theorem theirs_stop :
    (c.theirs ++ c.closing :: rest).takeWhile (fun line => !startsWith '>' line) = c.theirs ∧
      (c.theirs ++ c.closing :: rest).dropWhile (fun line => !startsWith '>' line) =
        c.closing :: rest :=
  takeWhile_stop (fun line hline => by rw [c.inTheirs line hline]; rfl) (by rw [c.closes]; rfl)

theorem ours_stop_plain (hbase : c.base = none) :
    (c.body ++ rest).takeWhile insideOurs = c.ours ∧
      (c.body ++ rest).dropWhile insideOurs = c.separator :: (c.theirs ++ c.closing :: rest) := by
  have hbody : c.body ++ rest = c.ours ++ c.separator :: (c.theirs ++ c.closing :: rest) := by
    simp [body, baseLines, hbase]
  rw [hbody]
  exact takeWhile_stop c.inOurs (by simp [insideOurs, c.separates])

theorem ours_stop_based (hbase : c.base = some part) :
    startsWith '=' part.1 = false ∧ (c.body ++ rest).takeWhile insideOurs = c.ours ∧
      ∃ after, (c.body ++ rest).dropWhile insideOurs = part.1 :: after ∧
        after.takeWhile (fun line => !startsWith '=' line) = part.2 ∧
        after.dropWhile (fun line => !startsWith '=' line) =
          c.separator :: (c.theirs ++ c.closing :: rest) := by
  have hintro := c.introduces part (by rw [hbase]; rfl)
  have hbody : c.body ++ rest =
      c.ours ++ part.1 :: (part.2 ++ c.separator :: (c.theirs ++ c.closing :: rest)) := by
    simp [body, baseLines, hbase]
  rw [hbody]
  obtain ⟨htake, hdrop⟩ := takeWhile_stop (m := part.1)
    (r := part.2 ++ c.separator :: (c.theirs ++ c.closing :: rest)) c.inOurs
    (by simp [insideOurs, hintro])
  exact ⟨startsWith_exclusive (by decide) hintro, htake, _, hdrop, takeWhile_stop
    (fun line hline => by rw [c.inBase part (by rw [hbase]; rfl) line hline]; rfl)
    (by rw [c.separates]; rfl)⟩

theorem scanTheirs_body :
    scanTheirs offset (lineCursor offset (c.theirs ++ c.closing :: rest)) =
      (offset + byteLen c.theirs.flatten,
        some (offset + byteLen c.theirs.flatten + byteLen c.closing),
        lineCursor (offset + byteLen c.theirs.flatten + byteLen c.closing) rest) := by
  obtain ⟨htake, hdrop⟩ := c.theirs_stop rest
  simp only [scanTheirs_spec, htake, hdrop]

theorem scanOurs_body :
    let oursEnd := offset + byteLen c.ours.flatten
    let separatorStart := oursEnd + byteLen c.baseLines.flatten
    let scan := scanOurs offset (lineCursor offset (c.body ++ rest))
    scan.oursEnd = oursEnd ∧
      scan.base = (c.base.map fun part =>
        ⟨oursEnd + byteLen part.1, oursEnd + byteLen part.1 + byteLen part.2.flatten⟩) ∧
      scan.separator = some ⟨separatorStart, separatorStart + byteLen c.separator⟩ ∧
      scan.rest = lineCursor (separatorStart + byteLen c.separator)
        (c.theirs ++ c.closing :: rest) := by
  cases hbase : c.base with
  | none =>
    obtain ⟨htake, hdrop⟩ := c.ours_stop_plain rest hbase
    simp only [scanOurs_spec, htake, hdrop, c.separates, if_true, baseLines, hbase,
      elim_none, flatten_nil, byteLen_nil, add_zero, map_none, and_self]
  | some part =>
    obtain ⟨hsep, htake, after, hdrop, htakeBase, hdropBase⟩ := c.ours_stop_based rest hbase
    simp only [scanOurs_spec, scanBase_spec, htake, hdrop, htakeBase, hdropBase, hsep,
      Bool.false_eq_true, if_false, baseLines, hbase, elim_some, flatten_cons,
      byteLen_append, add_assoc, map_some, and_self]

theorem readTheirs_body : readTheirs (c.theirs ++ c.closing :: rest) =
    some (c.theirs.flatten, rest) := by
  obtain ⟨htake, hdrop⟩ := c.theirs_stop rest
  simp only [readTheirs, htake, hdrop]

theorem readBlock_body : readBlock (c.body ++ rest) = some (c.block, rest) := by
  have htheirs := c.readTheirs_body rest
  cases hbase : c.base with
  | none =>
    obtain ⟨htake, hdrop⟩ := c.ours_stop_plain rest hbase
    simp only [readBlock, htake, hdrop, c.separates, if_true, htheirs, map_some,
      block, hbase, map_none]
  | some part =>
    obtain ⟨hsep, htake, after, hdrop, htakeBase, hdropBase⟩ := c.ours_stop_based rest hbase
    simp only [readBlock, htake, hdrop, htakeBase, hdropBase, hsep, Bool.false_eq_true,
      if_false, htheirs, map_some, block, hbase]

theorem parseLoop_lines (fuel start : ℕ) :
    parseLoop (fuel + 1) start (lineCursor offset (c.lines ++ rest)) =
      let markerEnd := offset + byteLen c.lines.flatten
      let parsed := parseLoop fuel markerEnd (lineCursor markerEnd rest)
      (contextRange start offset ++ .conflict (c.ranges offset) :: parsed.1, parsed.2) := by
  obtain ⟨hours, hbase, hsep, hrest⟩ := c.scanOurs_body (offset + byteLen c.opening) rest
  have htheirs := c.scanTheirs_body (offset + byteLen c.opening + byteLen c.ours.flatten +
    byteLen c.baseLines.flatten + byteLen c.separator) rest
  simp only [← c.markerEnd_ranges offset]
  simp only [lines, cons_append, lineCursor, parseLoop, c.opens, Bool.not_true,
    Bool.false_eq_true, if_false, hours, hbase, hsep, hrest, htheirs, ranges]

end ConflictLines

abbrev DocumentPart := List Line × ConflictLines

def partLines (part : DocumentPart) : List Line := part.1 ++ part.2.lines

structure Document where
  parts : List DocumentPart
  tail : List Line
  context : ∀ part ∈ parts, ∀ line ∈ part.1, startsWith '<' line = false
  rest : firstBlock tail = none

def Document.lines (doc : Document) : List Line := doc.parts.flatMap partLines ++ doc.tail

def insideContext (line : Line) : Bool := !startsWith '<' line

def tailRanges (offset : ℕ) (tail : List Line) : List ParsedConflictSegmentRanges :=
  let broken := offset + byteLen (tail.takeWhile insideContext).flatten
  contextRange offset broken ++ contextRange broken (offset + byteLen tail.flatten)

def documentRanges : ℕ → List DocumentPart → List Line → List ParsedConflictSegmentRanges
  | offset, [], tail => tailRanges offset tail
  | offset, part :: parts, tail =>
    let opening := offset + byteLen part.1.flatten
    contextRange offset opening ++ .conflict (part.2.ranges opening) ::
      documentRanges (opening + byteLen part.2.lines.flatten) parts tail

theorem document_exists (lines : List Line) : ∃ doc : Document, doc.lines = lines := by
  induction hlen : lines.length using Nat.strongRecOn generalizing lines with
  | _ n ih =>
    cases lines with
    | nil => exact ⟨⟨[], [], by simp, rfl⟩, rfl⟩
    | cons line body =>
      rw [length_cons] at hlen
      by_cases hopen : startsWith '<' line
      · cases hblock : readBlock body with
        | none => exact ⟨⟨[], line :: body, by simp, by rw [firstBlock, if_pos hopen, hblock]⟩, rfl⟩
        | some found =>
          obtain ⟨c, rfl, rfl, -⟩ := readBlock_shape (b := found.1) hopen hblock
          rw [length_append] at hlen
          obtain ⟨doc, hdoc⟩ := ih found.2.length (by omega) found.2 rfl
          refine ⟨⟨([], c) :: doc.parts, doc.tail, ?_, doc.rest⟩, ?_⟩
          · intro part hpart
            rcases mem_cons.mp hpart with rfl | hpart
            · simp
            · exact doc.context part hpart
          · simp [Document.lines, partLines, ConflictLines.lines, ← hdoc]
      · obtain ⟨doc, rfl⟩ := ih body.length (by omega) body rfl
        rw [Bool.not_eq_true] at hopen
        obtain ⟨parts, tail, hcontext, hrest⟩ := doc
        cases parts with
        | nil =>
          exact ⟨⟨[], line :: tail, by simp, by rw [firstBlock, hopen]; exact hrest⟩, rfl⟩
        | cons part parts =>
          refine ⟨⟨(line :: part.1, part.2) :: parts, tail, ?_, hrest⟩, rfl⟩
          intro found hfound
          rcases mem_cons.mp hfound with rfl | hfound
          · intro l hl
            rcases mem_cons.mp hl with rfl | hl
            · exact hopen
            · exact hcontext part mem_cons_self l hl
          · exact hcontext found (mem_cons_of_mem _ hfound)

theorem parseLoop_skip {context : List Line} (h : ∀ line ∈ context, startsWith '<' line = false)
    (fuel start : ℕ) (lines : List Line) : ∀ offset,
    parseLoop (context.length + fuel) start (lineCursor offset (context ++ lines)) =
      parseLoop fuel start (lineCursor (offset + byteLen context.flatten) lines) := by
  induction context with
  | nil => simp
  | cons line context ih =>
    intro offset
    rw [length_cons, Nat.add_right_comm, cons_append, parseLoop_context (h line mem_cons_self),
      ih fun l hl => h l (mem_cons_of_mem _ hl), flatten_cons, byteLen_append,
      add_assoc]

theorem firstBlock_skip {context : List Line}
    (h : ∀ line ∈ context, startsWith '<' line = false) (lines : List Line) :
    firstBlock (context ++ lines) = firstBlock lines := by
  induction context with
  | nil => rfl
  | cons line context ih =>
    rw [cons_append, firstBlock, h line mem_cons_self]
    exact ih fun l hl => h l (mem_cons_of_mem _ hl)

theorem parseLoop_tail {tail : List Line} (h : firstBlock tail = none) {fuel : ℕ}
    (hfuel : tail.length ≤ fuel) (offset : ℕ) :
    let parsed := parseLoop fuel offset (lineCursor offset tail)
    parsed.1 ++ contextRange parsed.2 (offset + byteLen tail.flatten) = tailRanges offset tail := by
  have hsplit := takeWhile_append_dropWhile (p := insideContext) (l := tail)
  have hcontext : ∀ line ∈ tail.takeWhile insideContext, startsWith '<' line = false :=
    fun line hline => by simpa [insideContext] using mem_takeWhile_imp hline
  have hlength := congrArg length hsplit
  obtain ⟨more, rfl⟩ : ∃ more, fuel = (tail.takeWhile insideContext).length + more :=
    Nat.exists_eq_add_of_le (by rw [length_append] at hlength; omega)
  have hskip := parseLoop_skip hcontext more offset (tail.dropWhile insideContext) offset
  rw [hsplit] at hskip
  rw [tailRanges, hskip]
  rw [← hsplit, firstBlock_skip hcontext] at h
  cases hdrop : tail.dropWhile insideContext with
  | nil =>
    rw [hdrop, append_nil] at hsplit
    simp [hsplit, lineCursor, parseLoop_nil, contextRange]
  | cons line body =>
    obtain ⟨-, hopen⟩ := dropWhile_split hdrop
    replace hopen : startsWith '<' line := by simpa [insideContext] using hopen
    rw [hdrop, firstBlock, if_pos hopen] at h
    rw [hdrop, length_append, length_cons] at hlength
    obtain ⟨more, rfl⟩ : ∃ k, more = k + 1 := exists_eq_succ_of_ne_zero (by omega)
    rw [parseLoop_broken hopen h]

theorem parseLoop_document {parts : List DocumentPart} {tail : List Line}
    (htail : firstBlock tail = none) : ∀ {f : ℕ} (offset : ℕ),
      (∀ part ∈ parts, ∀ line ∈ part.1, startsWith '<' line = false) →
      (parts.flatMap partLines ++ tail).length ≤ f →
      let lines := parts.flatMap partLines ++ tail
      let parsed := parseLoop f offset (lineCursor offset lines)
      parsed.1 ++ contextRange parsed.2 (offset + byteLen lines.flatten) =
        documentRanges offset parts tail := by
  induction parts with
  | nil => exact fun offset _ hfuel => parseLoop_tail htail hfuel offset
  | cons part parts ih =>
    intro f offset hcontext hfuel
    have hlines : (part :: parts).flatMap partLines ++ tail =
        part.1 ++ (part.2.lines ++ (parts.flatMap partLines ++ tail)) := by
      simp [partLines]
    rw [hlines] at hfuel ⊢
    obtain ⟨more, rfl⟩ : ∃ more, f = part.1.length + (more + 1) :=
      ⟨f - part.1.length - 1, by
        simp only [length_append, ConflictLines.lines, length_cons] at hfuel
        omega⟩
    have hrest := ih (f := more) (offset + byteLen part.1.flatten + byteLen part.2.lines.flatten)
      (fun p hp => hcontext p (mem_cons_of_mem _ hp)) (by
        simp only [length_append, ConflictLines.lines, length_cons] at hfuel ⊢
        omega)
    dsimp only at hrest ⊢
    rw [parseLoop_skip (hcontext part mem_cons_self), ConflictLines.parseLoop_lines]
    simp only [documentRanges, flatten_append, byteLen_append, ← add_assoc,
      append_assoc, cons_append] at hrest ⊢
    rw [hrest]

theorem parse_document {text : List Char} {doc : Document} (h : splitInclusive text = doc.lines) :
    parseConflictMarkerRanges text = documentRanges 0 doc.parts doc.tail := by
  have hparse := parseLoop_document doc.rest (f := doc.lines.length) 0 doc.context (le_refl _)
  have hlen : byteLen text = 0 + byteLen (doc.parts.flatMap partLines ++ doc.tail).flatten := by
    rw [zero_add, ← Document.lines, ← h, splitInclusive_flatten]
  rw [parseConflictMarkerRanges, h, hlen]
  exact hparse

end GitComet.Conflict
