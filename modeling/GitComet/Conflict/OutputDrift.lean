import GitComet.Conflict.Output

namespace GitComet.Conflict.Output
open Text RegionEdit List Option

def Closed (text : List Char) : Prop := ∀ c ∈ text.getLast?, c = '\n'

theorem closed_nil : Closed [] := by simp [Closed]

variable {back : List Char}

theorem closed_suffix {f : List Char} (h : Closed (f ++ back)) : Closed back := by
  intro c hc
  refine h c ?_
  rw [getLast?_append, mem_def.mp hc]
  rfl

variable {front : List Char}

theorem closed_append (hfront : Closed front) (hback : Closed back) : Closed (front ++ back) := by
  intro c hc
  rw [getLast?_append] at hc
  cases hlast : back.getLast? with
  | none =>
    rw [hlast] at hc
    exact hfront c hc
  | some last =>
    rw [hlast] at hc
    obtain rfl := some.inj hc
    exact hback last hlast

variable {lines : List Line}

theorem closed_flatten (h : ∀ line ∈ lines, FullLine line) : Closed lines.flatten := by
  induction lines with
  | nil => exact closed_nil
  | cons line lines ih =>
    obtain ⟨body, rfl, -⟩ := h line mem_cons_self
    rw [flatten_cons]
    refine closed_append (fun c hc => ?_) (ih fun l hl => h l (mem_cons_of_mem _ hl))
    simpa [eq_comm] using hc

variable {text : List Char}

theorem closed_lines (h : Closed text) : ∀ line ∈ splitInclusive text, FullLine line := by
  intro line hline
  obtain ⟨before, after, hsplit⟩ := append_of_mem hline
  have hne := splitInclusive_ne_nil text line hline
  rcases (splitInclusive_cons (splitInclusive_back hsplit)).2 with hfull | ⟨rfl, hfree⟩
  · exact hfull
  · have htext : text = before.flatten ++ line := by
      rw [← splitInclusive_flatten text, hsplit]
      simp
    rw [htext] at h
    have hlast := closed_suffix h _ (getLast?_eq_some_getLast hne)
    exact absurd (hlast ▸ getLast_mem hne) hfree

theorem splitInclusive_closed (h : Closed front) (back : List Char) :
    splitInclusive (front ++ back) = splitInclusive front ++ splitInclusive back := by
  have hsplit := splitInclusive_append (closed_lines h) back
  rwa [splitInclusive_flatten] at hsplit

theorem splitInclusive_fronted (hfront : '\n' ∉ front) {first : List Char}
    (h : splitInclusive text = first :: lines) :
    splitInclusive (front ++ text) = (front ++ first) :: lines := by
  induction front with
  | nil => exact h
  | cons c front ih =>
    simp only [mem_cons, not_or] at hfront
    rw [cons_append, splitInclusive, if_neg (Ne.symm hfront.1), ih hfront.2]
    rfl

section
variable {c : ConflictLines} {labels : ConflictMarkerLabels}

def openLines (c : ConflictLines) : List Line :=
  c.opening :: (c.ours ++ (c.baseLines ++ c.separator :: c.theirs))

theorem lines_open (c : ConflictLines) : c.lines = openLines c ++ [c.closing] := by
  simp [ConflictLines.lines, ConflictLines.body, openLines]

theorem openLines_full (h : FullBlock c) : ∀ line ∈ openLines c, FullLine line := by
  intro line hline
  simp only [openLines, mem_cons, mem_append] at hline
  rcases hline with rfl | hline | hline | rfl | hline
  · exact h.opening
  · exact h.ours line hline
  · cases hbase : c.base with
    | none => simp [ConflictLines.baseLines, hbase] at hline
    | some part =>
      simp only [ConflictLines.baseLines, hbase, elim_some, mem_cons] at hline
      rcases hline with rfl | hline
      · exact (h.base part hbase).1
      · exact (h.base part hbase).2 line hline
  · exact h.separator
  · exact h.theirs line hline

theorem splitInclusive_starts {line r : List Char} {c : Char} (h : startsWith c line)
    (hc : '\n' ≠ c) : ∃ first lines, splitInclusive (line ++ r) = first :: lines ∧
      startsWith c first := by
  obtain ⟨body, rfl⟩ := isPrefixOf_iff_prefix.mp h
  have hmarker : '\n' ∉ replicate 7 c := by simp [hc]
  have hne : splitInclusive (body ++ r) = [] ∨
      ∃ first lines, splitInclusive (body ++ r) = first :: lines := by
    cases splitInclusive (body ++ r) with
    | nil => exact Or.inl rfl
    | cons first lines => exact Or.inr ⟨first, lines, rfl⟩
  rw [append_assoc]
  rcases hne with hnil | ⟨first, lines, hsplit⟩
  · have hempty : body ++ r = [] := by rw [← splitInclusive_flatten (body ++ r), hnil]; rfl
    rw [hempty, append_nil]
    refine ⟨replicate 7 c, [], ?_, ?_⟩
    · rw [splitInclusive_body hmarker, if_neg (by simp)]
    · simpa using startsWith_replicate (c := c) (Nat.le_refl 7) []
  · exact ⟨_, _, splitInclusive_fronted hmarker hsplit, startsWith_replicate (Nat.le_refl 7) _⟩

theorem inside_lines (hfront : Closed front) (hfull : FullBlock c)
    (h : text = front ++ (c.lines.flatten ++ back)) :
    ∃ closing rest, splitInclusive text = splitInclusive front ++ (openLines c ++ closing :: rest) ∧
      startsWith '>' closing := by
  obtain ⟨closing, rest, hclosing, hstarts⟩ := splitInclusive_starts (r := back) c.closes
    (by decide)
  refine ⟨closing, rest, ?_, hstarts⟩
  rw [h, splitInclusive_closed hfront, lines_open, flatten_append, append_assoc,
    splitInclusive_append (openLines_full hfull)]
  simp only [flatten_cons, flatten_nil, append_nil, hclosing]

theorem append_cons_split {α : Type} {left right front back : List α} {x : α}
    (h : left ++ right = front ++ x :: back) :
    (∃ rest, left = front ++ x :: rest ∧ back = rest ++ right) ∨
      ∃ gap, front = left ++ gap ∧ right = gap ++ x :: back := by
  rcases append_eq_append_iff.mp h with ⟨gap, hfront, hright⟩ | ⟨gap, hleft, hback⟩
  · exact Or.inr ⟨gap, hfront, hright⟩
  · cases gap with
    | nil => exact Or.inr ⟨[], by simpa using hleft.symm, by simpa using hback.symm⟩
    | cons y gap =>
      obtain ⟨rfl, rfl⟩ := cons.inj hback
      exact Or.inl ⟨gap, hleft, rfl⟩

variable {line : Line}

theorem startsWith_ne {marker other : Char} (hne : marker ≠ other) {line' : Line}
    (h : startsWith marker line) (h' : startsWith other line') : line ≠ line' := by
  rintro rfl
  rw [startsWith_exclusive hne h] at h'
  cases h'

variable {d : ConflictLines}

theorem opening_inside {front back : List Line}
    (hopen : startsWith '<' line) (h : d.body = front ++ line :: back) :
    (∃ ours, d.ours = front ++ line :: ours ∧
        back = ours ++ (d.baseLines ++ d.separator :: (d.theirs ++ [d.closing]))) ∨
      (∃ part gap base, d.base = some part ∧ part.2 = gap ++ line :: base ∧
        back = base ++ d.separator :: (d.theirs ++ [d.closing])) ∨
      ∃ gap theirs, d.theirs = gap ++ line :: theirs ∧ back = theirs ++ [d.closing] := by
  rcases append_cons_split h with ⟨ours, hours, hback⟩ | ⟨past, -, h⟩
  · exact Or.inl ⟨ours, hours, hback⟩
  rcases append_cons_split h with ⟨lines, hlines, hback⟩ | ⟨past, -, h⟩
  · cases hbase : d.base with
    | none => simp [ConflictLines.baseLines, hbase] at hlines
    | some part =>
      simp only [ConflictLines.baseLines, hbase, elim_some] at hlines
      cases past with
      | nil =>
        obtain ⟨heq, -⟩ := cons.inj hlines
        exact absurd heq (startsWith_ne (by decide) (d.introduces part hbase) hopen)
      | cons first gap =>
        obtain ⟨-, hpart⟩ := cons.inj hlines
        exact Or.inr (Or.inl ⟨part, gap, lines, rfl, hpart, hback⟩)
  cases past with
  | nil =>
    obtain ⟨heq, -⟩ := cons.inj h
    exact absurd heq (startsWith_ne (by decide) d.separates hopen)
  | cons first gap =>
    obtain ⟨-, h⟩ := cons.inj h
    rcases append_cons_split h with ⟨theirs, htheirs, hback⟩ | ⟨past, -, h⟩
    · exact Or.inr (Or.inr ⟨gap, theirs, htheirs, hback⟩)
    · cases past with
      | nil =>
        obtain ⟨heq, -⟩ := cons.inj h
        exact absurd heq (startsWith_ne (by decide) d.closes hopen)
      | cons first past => simp at h

theorem closedLines_length (lines : List Line) (newline : List Char) :
    (closedLines lines newline).length ≤ lines.length + 1 := by
  unfold closedLines
  split <;> simp

theorem closedLines_shorter {front : List Line} {newline : List Char}
    (h : closedLines lines newline = front ++ line :: lines) : False := by
  have hlength := congrArg length h
  have hle := closedLines_length lines newline
  simp only [length_append, length_cons] at hlength
  have hfront : front = [] := eq_nil_of_length_eq_zero (by omega)
  rw [hfront, nil_append, closedLines] at h
  split at h
  · rename_i hopen
    simp only [Bool.and_eq_true, Bool.not_eq_true'] at hopen
    rcases eq_nil_or_concat lines with rfl | ⟨init, last, rfl⟩
    · simp at hopen
    · rw [concat_eq_append, ← cons_append] at h
      obtain ⟨-, hlast⟩ := append_inj' h rfl
      obtain rfl := (cons.inj hlast).1
      have hsuffix : newline.isSuffixOf (init.concat newline).flatten := by
        rw [isSuffixOf_iff_suffix, concat_eq_append, flatten_append]
        exact ⟨init.flatten, by simp⟩
      rw [hsuffix] at hopen
      exact absurd hopen.2 (by simp)
  · have := congrArg length h
    simp at this

theorem full_unique {lines' : List Line} (h : ∀ line ∈ lines, FullLine line)
    (h' : ∀ line ∈ lines', FullLine line) (heq : lines.flatten = lines'.flatten) :
    lines = lines' := by
  rw [← splitInclusive_lines h, heq, splitInclusive_lines h']

structure SameSides (c found : ConflictLines) : Prop where
  ours : found.ours = c.ours
  theirs : found.theirs = c.theirs
  base : found.base.map (·.2) = c.base.map (·.2)

theorem sameSides_of_block {found : ConflictLines} (hfull : FullBlock c) (hfound : FullBlock found)
    (h : found.block = c.block) : SameSides c found := by
  simp only [ConflictLines.block, ParsedConflictBlock.mk.injEq] at h
  obtain ⟨hbase, hours, htheirs⟩ := h
  refine ⟨full_unique hfound.ours hfull.ours hours, full_unique hfound.theirs hfull.theirs htheirs, ?_⟩
  cases hpart : c.base with
  | none => simpa [hpart] using hbase
  | some part =>
    rw [hpart] at hbase
    obtain ⟨other, hother, heq⟩ := map_eq_some_iff.mp hbase
    rw [hother, map_some, map_some,
      full_unique (hfound.base other hother).2 (hfull.base part hpart).2 heq]

variable {read : ConflictLines} {rest : List Line}

theorem drift_ours {front ours : List Line} (hours : d.ours = front ++ line :: ours)
    (h : read.body ++ rest = ours ++ (d.baseLines ++ d.separator :: (d.theirs ++ [d.closing]))) :
    read.ours.flatten = ours.flatten := by
  have hin : ∀ l ∈ ours, insideOurs l := fun l hl => d.inOurs l (by
    rw [hours]
    exact mem_append_right _ (mem_cons_of_mem _ hl))
  have hshort := ConflictLines.readBlock_body { d with ours, inOurs := hin } []
  have hread := read.readBlock_body rest
  rw [h] at hread
  rw [append_nil] at hshort
  have hblock := (Prod.mk.inj (some.inj (hread.symm.trans hshort))).1
  exact congrArg ParsedConflictBlock.ours hblock

theorem drift_base {gap base : List Line}
    {part : Line × List Line} (hpart : d.base = some part) (hbase : part.2 = gap ++ line :: base)
    (h : read.body ++ rest = base ++ d.separator :: (d.theirs ++ [d.closing])) :
    base = read.ours ++ read.baseLines := by
  have hin : ∀ l ∈ base, (!startsWith '=' l) := fun l hl => by
    rw [d.inBase part hpart l (by simp [hbase, hl])]
    rfl
  have hread : ∀ l ∈ read.ours ++ read.baseLines, (!startsWith '=' l) := by
    intro l hl
    rcases mem_append.mp hl with hl | hl
    · have := read.inOurs l hl
      rw [insideOurs, Bool.and_eq_true] at this
      exact this.1
    · cases hb : read.base with
      | none => simp [ConflictLines.baseLines, hb] at hl
      | some other =>
        simp only [ConflictLines.baseLines, hb, elim_some, mem_cons] at hl
        rcases hl with rfl | hl
        · rw [startsWith_exclusive (by decide) (read.introduces other hb)]
          rfl
        · rw [read.inBase other hb l hl]
          rfl
  have htake := (takeWhile_stop (r := d.theirs ++ [d.closing]) hin (m := d.separator)
    (by rw [d.separates]; rfl)).1
  have htake' := (takeWhile_stop (r := read.theirs ++ read.closing :: rest) hread
    (m := read.separator) (by rw [read.separates]; rfl)).1
  rw [← htake, ← h, ← htake']
  congr 1
  simp [ConflictLines.body]

theorem drift_theirs {gap theirs : List Line} (htheirs : d.theirs = gap ++ line :: theirs)
    (h : read.body ++ rest = theirs ++ [d.closing]) : read.theirs.length < theirs.length := by
  have hlines : theirs ++ [d.closing] = (read.ours ++ (read.baseLines ++
      read.separator :: read.theirs)) ++ read.closing :: rest := by
    rw [← h]
    simp [ConflictLines.body]
  rcases append_cons_split hlines with ⟨past, hpast, -⟩ | ⟨past, hpast, hlast⟩
  · have hclosing := d.inTheirs read.closing (by rw [htheirs, hpast]; simp)
    rw [read.closes] at hclosing
    cases hclosing
  · have hlength := congrArg length hlast
    have hlengths := congrArg length hpast
    simp only [length_append, length_cons, length_nil] at hlength hlengths
    omega

theorem rendered_no_block {found : ConflictLines} {newline : List Char}
    (h : newline = ['\n'] ∨ newline = ['\r', '\n']) (hlabels : FreeLabels labels)
    (hfull : FullBlock c) (hfound : FullBlock found) (hblock : found.block = c.block)
    (hfront : Closed front) (hne : front ≠ [])
    (heq : (renderedLines c labels newline h).lines.flatten =
      front ++ (found.lines.flatten ++ back)) : False := by
  have hsame := sameSides_of_block hfull hfound hblock
  obtain ⟨closing, rest, hlines, hclosing⟩ := inside_lines hfront hfound heq
  have hrendered := renderedLines_full h hlabels hfull
  rw [splitInclusive_lines hrendered] at hlines
  have hfrontLines : splitInclusive front ≠ [] := fun hnil => hne (by
    rw [← splitInclusive_flatten front, hnil]
    rfl)
  obtain ⟨first, past, hpast⟩ := exists_cons_of_ne_nil hfrontLines
  rw [hpast, ConflictLines.lines] at hlines
  obtain ⟨-, hbody⟩ := cons.inj hlines
  obtain ⟨read, hread⟩ : ∃ read : ConflictLines, read = { found with closing, closes := hclosing } :=
    ⟨_, rfl⟩
  have hrest : found.ours ++ (found.baseLines ++ found.separator :: (found.theirs ++
      closing :: rest)) = read.body ++ rest := by
    rw [hread]
    simp [ConflictLines.body, ConflictLines.baseLines]
  have hinside : (renderedLines c labels newline h).body =
      past ++ found.opening :: (read.body ++ rest) := by
    rw [hbody, ← hrest]
    simp [openLines]
  rcases opening_inside found.opens hinside with
    ⟨ours, hours, hback⟩ | ⟨part, gap, base, hpart, hbase, hback⟩ | ⟨gap, theirs, htheirs, hback⟩
  · have hflat := drift_ours hours hback
    have hlines : ours = c.ours := by
      refine full_unique (fun l hl => hrendered l ?_) hfull.ours ?_
      · simp [ConflictLines.lines, ConflictLines.body, hours, hl]
      · rw [← hflat, hread, hsame.ours]
    rw [hlines] at hours
    exact closedLines_shorter hours
  · obtain ⟨own, hown, rfl⟩ := map_eq_some_iff.mp hpart
    have hlines := drift_base hpart hbase hback
    have hlength := closedLines_length own.2 newline
    rw [show closedLines own.2 newline = gap ++ found.opening :: base from hbase, hlines] at hlength
    have hother := hsame.base
    rw [hown] at hother
    obtain ⟨other, hother, heq⟩ := map_eq_some_iff.mp hother
    have hbaseLines : read.baseLines = other.1 :: own.2 := by
      rw [hread, ConflictLines.baseLines]
      simp [hother, heq]
    simp only [hbaseLines, length_append, length_cons] at hlength
    omega
  · have hlength := drift_theirs htheirs hback
    have hclosed := closedLines_length c.theirs newline
    rw [show closedLines c.theirs newline = gap ++ found.opening :: theirs from htheirs] at hclosed
    simp only [hread, hsame.theirs, length_append, length_cons] at hlength hclosed
    omega

end

end GitComet.Conflict.Output
