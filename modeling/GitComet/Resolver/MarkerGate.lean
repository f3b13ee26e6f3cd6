import GitComet.Basis.Succession
import GitComet.Conflict.Document

namespace GitComet.Resolver
open Text Conflict Succession List Option

inductive MarkerState where
  | outside | ours | theirs
  deriving DecidableEq

def MarkerState.scan : MarkerState → List Line → Bool
  | _, [] => false
  | state, line :: lines =>
    if startsWith '<' line then scan .ours lines
    else match state with
      | .outside => scan .outside lines
      | .ours => if startsWith '=' line then scan .theirs lines else scan .ours lines
      | .theirs => if startsWith '>' line then true else scan .theirs lines

def textContainsConflictMarkers (text : List Char) : Bool :=
  MarkerState.outside.scan (splitLines text)

def isConflict : ParsedConflictSegmentRanges → Bool
  | .text _ => false
  | .conflict _ => true

def textHasConflictMarkers (text : List Char) : Bool :=
  (parseConflictMarkerRanges text).any isConflict

structure MarkerRun where
  before : List Line
  opening : Line
  ours : List Line
  separator : Line
  theirs : List Line
  closing : Line
  after : List Line
  opens : startsWith '<' opening = true
  separates : startsWith '=' separator = true
  closes : startsWith '>' closing = true

namespace MarkerRun

def lines (run : MarkerRun) : List Line :=
  run.before ++ run.opening :: (run.ours ++ run.separator :: (run.theirs ++ run.closing :: run.after))

def Nested (run : MarkerRun) : Prop := ∃ line ∈ run.ours ++ run.theirs, startsWith '<' line = true

end MarkerRun

def Buried (text : List Char) : Prop :=
  (∃ run : MarkerRun, run.lines = splitInclusive text) ∧
    ∀ run : MarkerRun, run.lines = splitInclusive text → run.Nested

section
variable {line : Line} {lines : List Line}

def Opens (line : Line) : Prop := startsWith '<' line = true
def Separates (line : Line) : Prop := startsWith '=' line = true
def Closes (line : Line) : Prop := startsWith '>' line = true

theorem not_opens_of_separates (h : Separates line) : ¬Opens line := by
  rw [Opens, startsWith_exclusive (by decide) h]
  decide

theorem not_opens_of_closes (h : Closes line) : ¬Opens line := by
  rw [Opens, startsWith_exclusive (by decide) h]
  decide

def ClosesFlat : List Line → Prop := Reaches (¬Opens ·) Closes fun _ => True
def SeparatesFlat : List Line → Prop := Reaches (¬Opens ·) Separates ClosesFlat
def OpensFlat : List Line → Prop := Reaches (fun _ => True) Opens SeparatesFlat

theorem closesFlat_of_separatesFlat (h : SeparatesFlat lines) : ClosesFlat lines :=
  reaches_past (fun _ => not_opens_of_separates) h

def MarkerState.Accepts : MarkerState → List Line → Prop
  | .outside, lines => OpensFlat lines
  | .ours, lines => SeparatesFlat lines ∨ OpensFlat lines
  | .theirs, lines => ClosesFlat lines ∨ OpensFlat lines

theorem accepts_opening (h : Opens line) (state : MarkerState) :
    state.Accepts (line :: lines) ↔ MarkerState.ours.Accepts lines := by
  have hsep : ¬Separates line := fun hs => not_opens_of_separates hs h
  have hclose : ¬Closes line := fun hs => not_opens_of_closes hs h
  cases state <;>
    simp only [MarkerState.Accepts, OpensFlat, SeparatesFlat, ClosesFlat, reaches_cons, h, hsep,
      hclose, true_and, false_and, false_or, not_true_eq_false]

theorem scan_iff (lines : List Line) : ∀ state : MarkerState,
    state.scan lines ↔ state.Accepts lines := by
  induction lines with
  | nil =>
    intro state
    cases state <;>
      simp [MarkerState.scan, MarkerState.Accepts, OpensFlat, SeparatesFlat, ClosesFlat]
  | cons line lines ih =>
    intro state
    rw [MarkerState.scan.eq_def]
    dsimp only
    split
    · rename_i hopen
      rw [ih, accepts_opening hopen]
    · rename_i hopen
      have hflat : OpensFlat (line :: lines) ↔ OpensFlat lines := by
        simp only [OpensFlat, reaches_cons, Opens, hopen, Bool.false_eq_true,
          false_and, false_or, true_and]
      cases state with
      | outside => rw [ih, MarkerState.Accepts, MarkerState.Accepts, hflat]
      | ours =>
        dsimp only
        split
        · rename_i hsep
          rw [ih, MarkerState.Accepts, MarkerState.Accepts, hflat]
          refine or_congr_left ?_
          rw [SeparatesFlat, reaches_cons]
          exact ⟨fun h => .inl ⟨hsep, h⟩, fun h => h.elim (fun h => h.2) fun h =>
            closesFlat_of_separatesFlat h.2⟩
        · rename_i hsep
          rw [ih, MarkerState.Accepts, MarkerState.Accepts, hflat]
          simp only [SeparatesFlat, reaches_cons, Separates, Opens, hsep, hopen,
            Bool.false_eq_true, false_and, false_or, not_false_eq_true, true_and]
      | theirs =>
        dsimp only
        split
        · rename_i hclose
          simp only [MarkerState.Accepts, ClosesFlat, reaches_cons, Closes, hclose, true_and, true_or]
        · rename_i hclose
          rw [ih, MarkerState.Accepts, MarkerState.Accepts, hflat]
          simp only [ClosesFlat, reaches_cons, Closes, Opens, hclose, hopen,
            Bool.false_eq_true, false_and, false_or, not_false_eq_true, true_and]

theorem startsWith_cut {c : Char} (h : '\n' ≠ c) (h' : '\r' ≠ c) (line : Line) :
    startsWith c (stripLineEnding line) = startsWith c line := by
  have hcut : ∀ {x : Char} {front : Line}, x ≠ c → ∀ whole, stripSuffix x whole = some front →
      startsWith c front = startsWith c whole := by
    intro x front hx whole hstrip
    obtain ⟨hlast, hfront⟩ := Option.ite_none_right_eq_some.mp hstrip
    cases hfront
    obtain ⟨init, rfl⟩ := List.getLast?_eq_some_iff.mp hlast
    rw [startsWith_append hx, dropLast_concat]
  unfold stripLineEnding
  split
  · rfl
  · rename_i body hbody
    split
    · exact hcut h _ hbody
    · rename_i front hfront
      exact (hcut h' _ hfront).trans (hcut h _ hbody)

theorem scan_strip (lines : List Line) : ∀ state : MarkerState,
    state.scan (lines.map stripLineEnding) = state.scan lines := by
  induction lines with
  | nil => exact fun _ => rfl
  | cons line lines ih =>
    intro state
    rw [map_cons, MarkerState.scan.eq_def, MarkerState.scan.eq_def]
    simp only [startsWith_cut (c := '<') (by decide) (by decide),
      startsWith_cut (c := '=') (by decide) (by decide),
      startsWith_cut (c := '>') (by decide) (by decide), ih]

theorem gate_iff (text : List Char) :
    textContainsConflictMarkers text ↔ OpensFlat (splitInclusive text) := by
  rw [textContainsConflictMarkers, splitLines, scan_strip, scan_iff]
  rfl

def SomeCloses : List Line → Prop := Reaches (fun _ => True) Closes fun _ => True
def SomeSeparates : List Line → Prop := Reaches (fun _ => True) Separates SomeCloses
def SomeOpens : List Line → Prop := Reaches (fun _ => True) Opens SomeSeparates

theorem readTheirs_iff (lines : List Line) :
    (readTheirs lines).isSome ↔ SomeCloses lines := by
  induction lines with
  | nil => simp [readTheirs, SomeCloses]
  | cons line lines ih =>
    rw [SomeCloses, reaches_cons, ← SomeCloses, ← ih, Closes, and_true, true_and, readTheirs,
      dropWhile_cons, takeWhile_cons]
    cases hclose : startsWith '>' line with
    | true => simp
    | false =>
      simp only [Bool.not_false, if_true, Bool.false_eq_true, false_or, readTheirs]
      split <;> simp

theorem someCloses_of_someSeparates (h : SomeSeparates lines) : SomeCloses lines :=
  reaches_past (fun _ _ => trivial) h

theorem someSeparates_of_someOpens (h : SomeOpens lines) : SomeSeparates lines :=
  reaches_past (fun _ _ => trivial) h

theorem readBase_iff (lines : List Line) :
    (match lines.dropWhile fun line => !startsWith '=' line with
      | [] => false
      | _ :: body => (readTheirs body).isSome) = true ↔ SomeSeparates lines := by
  induction lines with
  | nil => simp [SomeSeparates]
  | cons line lines ih =>
    rw [SomeSeparates, reaches_cons, ← SomeSeparates, true_and, dropWhile_cons]
    cases hsep : startsWith '=' line with
    | true =>
      simp only [Separates, hsep, Bool.not_true, Bool.false_eq_true, if_false, true_and,
        readTheirs_iff]
      exact ⟨.inl, fun h => h.elim id someCloses_of_someSeparates⟩
    | false =>
      simp only [Separates, hsep, Bool.not_false, if_true, Bool.false_eq_true, false_and, false_or]
      exact ih

theorem readBlock_iff (lines : List Line) :
    (readBlock lines).isSome = true ↔ SomeSeparates lines := by
  induction lines with
  | nil => simp [readBlock, SomeSeparates]
  | cons line lines ih =>
    rw [readBlock, dropWhile_cons]
    cases hinside : insideOurs line with
    | true =>
      obtain ⟨hsep, -⟩ : startsWith '=' line = false ∧ startsWith '|' line = false := by
        simpa [insideOurs] using hinside
      rw [SomeSeparates, reaches_cons, ← SomeSeparates, Separates, hsep, true_and, ← ih, readBlock,
        takeWhile_cons, hinside]
      simp only [if_true, Bool.false_eq_true, false_and, false_or]
      split
      · rfl
      · split
        · simp only [isSome_map]
        · split <;> simp only [isSome_map, isSome_none, Bool.false_eq_true]
    | false =>
      rw [if_neg Bool.false_ne_true]
      dsimp only
      cases hsep : startsWith '=' line with
      | true =>
        rw [if_pos rfl, isSome_map, readTheirs_iff, SomeSeparates, reaches_cons,
          ← SomeSeparates, Separates, hsep]
        exact ⟨fun h => .inl ⟨rfl, h⟩, fun h => h.elim (fun h => h.2) fun h =>
          someCloses_of_someSeparates h.2⟩
      | false =>
        rw [if_neg Bool.false_ne_true, SomeSeparates, reaches_cons, ← SomeSeparates, Separates, hsep,
          true_and, ← readBase_iff]
        simp only [Bool.false_eq_true, false_and, false_or]
        cases lines.dropWhile fun line => !startsWith '=' line with
        | nil => rfl
        | cons mark body => simp only [isSome_map]

theorem firstBlock_iff (lines : List Line) :
    (firstBlock lines).isSome ↔ SomeOpens lines := by
  induction lines with
  | nil => simp [firstBlock, SomeOpens]
  | cons line lines ih =>
    rw [firstBlock, SomeOpens, reaches_cons, ← SomeOpens, true_and, Opens]
    split
    · rename_i hopen
      rw [readBlock_iff]
      exact ⟨fun h => .inl ⟨hopen, h⟩, fun h => h.elim (fun h => h.2) someSeparates_of_someOpens⟩
    · rename_i hopen
      rw [ih]
      exact ⟨.inr, fun h => h.resolve_left fun h => hopen h.1⟩

theorem tailRanges_plain (offset : ℕ) (tail : List Line) :
    (tailRanges offset tail).any isConflict = false := by
  have hplain : ∀ start stop, (contextRange start stop).any isConflict = false := by
    intro start stop
    unfold contextRange
    split <;> rfl
  rw [tailRanges, any_append, hplain, hplain, Bool.or_self]

theorem parser_iff (text : List Char) :
    textHasConflictMarkers text ↔ SomeOpens (splitInclusive text) := by
  obtain ⟨doc, hdoc⟩ := document_exists (splitInclusive text)
  rw [textHasConflictMarkers, parse_document hdoc.symm, ← firstBlock_iff, ← hdoc, Document.lines]
  obtain ⟨parts, tail, hcontext, hrest⟩ := doc
  cases parts with
  | nil =>
    rw [documentRanges, tailRanges_plain, flatMap_nil, nil_append, hrest]
    simp
  | cons part parts =>
    rw [flatMap_cons, partLines, append_assoc, append_assoc,
      firstBlock_skip (hcontext part mem_cons_self), ConflictLines.lines, cons_append,
      firstBlock, if_pos part.2.opens, ConflictLines.readBlock_body]
    simp [documentRanges, isConflict]

theorem someOpens_iff : SomeOpens lines ↔ ∃ run : MarkerRun, run.lines = lines := by
  constructor
  · rintro ⟨before, opening, rest, rfl, -, hopen, ours, separator, more, rfl, -, hsep, theirs,
      closing, after, rfl, -, hclose, -⟩
    exact ⟨⟨before, opening, ours, separator, theirs, closing, after, hopen, hsep, hclose⟩, rfl⟩
  · rintro ⟨run, rfl⟩
    exact ⟨run.before, run.opening, _, rfl, fun _ _ => trivial, run.opens, run.ours, run.separator,
      _, rfl, fun _ _ => trivial, run.separates, run.theirs, run.closing, run.after, rfl,
      fun _ _ => trivial, run.closes, trivial⟩

theorem opensFlat_iff : OpensFlat lines ↔ ∃ run : MarkerRun, run.lines = lines ∧ ¬run.Nested := by
  constructor
  · rintro ⟨before, opening, rest, rfl, -, hopen, ours, separator, more, rfl, hours, hsep, theirs,
      closing, after, rfl, htheirs, hclose, -⟩
    refine ⟨⟨before, opening, ours, separator, theirs, closing, after, hopen, hsep, hclose⟩, rfl, ?_⟩
    rintro ⟨line, hline, hnested⟩
    rcases List.mem_append.mp hline with hline | hline
    · exact hours line hline hnested
    · exact htheirs line hline hnested
  · rintro ⟨run, rfl, hflat⟩
    exact ⟨run.before, run.opening, _, rfl, fun _ _ => trivial, run.opens, run.ours, run.separator,
      _, rfl, fun line hline hopen => hflat ⟨line, mem_append_left _ hline, hopen⟩,
      run.separates, run.theirs, run.closing, run.after, rfl,
      fun line hline hopen => hflat ⟨line, mem_append_right _ hline, hopen⟩, run.closes, trivial⟩

end

theorem marker_gate_agrees_iff (text : List Char) :
    (textContainsConflictMarkers text = true ↔ textHasConflictMarkers text = true) ↔
      ¬Buried text := by
  rw [gate_iff, parser_iff, someOpens_iff, opensFlat_iff]
  constructor
  · rintro hagree ⟨hrun, hnested⟩
    obtain ⟨run, hlines, hflat⟩ := hagree.mpr hrun
    exact hflat (hnested run hlines)
  · intro hburied
    refine ⟨fun ⟨run, hlines, _⟩ => ⟨run, hlines⟩, fun hrun => ?_⟩
    by_contra hflat
    exact hburied ⟨hrun, fun run hlines => not_not.mp fun h => hflat ⟨run, hlines, h⟩⟩

def openerInTheirs : List Char :=
  "<<<<<<<\nours\n=======\n<<<<<<<\ntheirs\n>>>>>>>\n".toList

theorem opener_in_theirs_passes_the_gate :
    ¬(textContainsConflictMarkers openerInTheirs = true ↔
      textHasConflictMarkers openerInTheirs = true) := by
  have hparser : textHasConflictMarkers openerInTheirs = true := by decide +kernel
  have hgate : textContainsConflictMarkers openerInTheirs = false := by decide +kernel
  intro h
  rw [hparser, hgate] at h
  exact Bool.false_ne_true (h.mpr rfl)

end GitComet.Resolver
