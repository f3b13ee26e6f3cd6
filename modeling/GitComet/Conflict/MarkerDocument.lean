import GitComet.Conflict.Segments
import GitComet.Merge.Render

namespace GitComet.Conflict
open Slice CommonPrefix Text Merge List Option Nat

inductive Marked : List Line → List ParsedConflictBlock → List Char → List Char → Prop
  | tail {lines : List Line} : firstBlock lines = none →
      Marked lines [] lines.flatten lines.flatten
  | context {line : Line} {lines : List Line} {blocks : List ParsedConflictBlock}
      {ours theirs : List Char} : startsWith '<' line = false → Marked lines blocks ours theirs →
      Marked (line :: lines) blocks (line ++ ours) (line ++ theirs)
  | conflict {line : Line} {body lines : List Line} {block : ParsedConflictBlock}
      {blocks : List ParsedConflictBlock} {ours theirs : List Char} :
      startsWith '<' line = true → readBlock body = some (block, lines) →
      Marked lines blocks ours theirs →
      Marked (line :: body) (block :: blocks) (block.ours ++ ours) (block.theirs ++ theirs)

theorem contextSegments_parts (context : List Line) :
    (contextSegments context).filterMap (·.block?) = [] ∧
      (contextSegments context).flatMap (·.oursPart) = context.flatten ∧
      (contextSegments context).flatMap (·.theirsPart) = context.flatten := by
  unfold contextSegments
  split
  · rename_i h
    simp [h]
  · simp [ParsedConflictSegment.block?, ParsedConflictSegment.oursPart,
      ParsedConflictSegment.theirsPart]

theorem tailSegments_parts (tail : List Line) :
    (tailSegments tail).filterMap (·.block?) = [] ∧
      (tailSegments tail).flatMap (·.oursPart) = tail.flatten ∧
      (tailSegments tail).flatMap (·.theirsPart) = tail.flatten := by
  obtain ⟨hb, ho, ht⟩ := contextSegments_parts (tail.takeWhile insideContext)
  obtain ⟨hb', ho', ht'⟩ := contextSegments_parts (tail.dropWhile insideContext)
  simp only [tailSegments, filterMap_append, flatMap_append, hb, hb', ho, ho', ht, ht',
    takeWhile_flatten, append_nil, and_self]

variable {blocks : List ParsedConflictBlock}

theorem marked_document {lines : List Line}
    {ours theirs : List Char} (h : Marked lines blocks ours theirs) :
    ∃ doc : Document, doc.lines = lines ∧ doc.segments.filterMap (·.block?) = blocks ∧
      doc.segments.flatMap (·.oursPart) = ours ∧ doc.segments.flatMap (·.theirsPart) = theirs := by
  induction h with
  | @tail lines hnone =>
    exact ⟨⟨[], lines, by simp, hnone⟩, rfl, tailSegments_parts lines⟩
  | @context line lines blocks ours theirs hopen _ ih =>
    obtain ⟨⟨parts, tail, hcontext, hrest⟩, rfl, rfl, rfl, rfl⟩ := ih
    cases parts with
    | nil =>
      refine ⟨⟨[], line :: tail, by simp, by rw [firstBlock, hopen]; exact hrest⟩, rfl, ?_⟩
      obtain ⟨hb, ho, ht⟩ := tailSegments_parts tail
      obtain ⟨hb', ho', ht'⟩ := tailSegments_parts (line :: tail)
      simp only [Document.segments, flatMap_nil, nil_append, hb, ho, ht, hb', ho', ht',
        flatten_cons, and_self]
    | cons part parts =>
      refine ⟨⟨(line :: part.1, part.2) :: parts, tail, ?_, hrest⟩, rfl, ?_⟩
      · intro found hfound
        rcases mem_cons.mp hfound with rfl | hfound
        · intro l hl
          rcases mem_cons.mp hl with rfl | hl
          · exact hopen
          · exact hcontext part mem_cons_self l hl
        · exact hcontext found (mem_cons_of_mem _ hfound)
      · obtain ⟨hb, ho, ht⟩ := contextSegments_parts part.1
        obtain ⟨hb', ho', ht'⟩ := contextSegments_parts (line :: part.1)
        simp only [Document.segments, flatMap_cons, partSegments, filterMap_append,
          flatMap_append, hb, ho, ht, hb', ho', ht', flatten_cons, append_assoc,
          and_self]
  | @conflict line body lines block blocks ours theirs hopen hblock _ ih =>
    obtain ⟨doc, rfl, rfl, rfl, rfl⟩ := ih
    obtain ⟨c, rfl, rfl, rfl⟩ := readBlock_shape hopen hblock
    refine ⟨⟨([], c) :: doc.parts, doc.tail, ?_, doc.rest⟩, ?_, ?_, ?_, ?_⟩
    · intro part hpart
      rcases mem_cons.mp hpart with rfl | hpart
      · simp
      · exact doc.context part hpart
    · simp [Document.lines, partLines, ConflictLines.lines]
    all_goals rfl

theorem marked_parse {text : List Char}
    {ours theirs : List Char} (h : Marked (splitInclusive text) blocks ours theirs) :
    (∃ segments, parseConflictMarkerSegments text = some segments ∧
        segments.filterMap (·.block?) = blocks) ∧
      reconstructConflictMarkerSides text = some (ours, theirs) := by
  obtain ⟨doc, hdoc, hblocks, rfl, rfl⟩ := marked_document h
  have hparse := parse_segments hdoc.symm
  exact ⟨⟨_, hparse, hblocks⟩, sides_segments hparse⟩

def markerChars : List Char := ['<', '|', '=', '>']

variable {c : Char}

theorem startsWith_other {d : Char} (h : c ≠ d) {size : ℕ} (hsize : 7 ≤ size)
    (rest : List Char) : startsWith c (replicate size d ++ rest) = false := by
  obtain ⟨k, rfl⟩ := Nat.exists_eq_add_of_le (Nat.le_trans (by decide : 1 ≤ 7) hsize)
  simp [startsWith, add_comm 1 k, replicate_succ, isPrefixOf, h]

inductive LastCut (ending : List Char) : List Line → List Line → Prop
  | gone : LastCut ending [ending] []
  | last {body : Line} : body ≠ [] → LastCut ending [body ++ ending] [body]
  | cons (line : Line) {lines lines' : List Line} : LastCut ending lines lines' →
      LastCut ending (line :: lines) (line :: lines')

section
variable {ending : List Char} {lines lines' : List Line}

theorem LastCut.flatten (h : LastCut ending lines lines') :
    lines.flatten = lines'.flatten ++ ending := by
  induction h with
  | gone => simp
  | last => simp
  | cons line _ ih => simp [ih]

theorem flatten_ne_nil {line : Line} (h : ∀ l ∈ line :: lines, FullLine l) :
    (line :: lines).flatten ≠ [] := by
  obtain ⟨body, rfl, -⟩ := h line mem_cons_self
  simp

theorem suffix_of_line {line rest : List Char} (hline : FullLine line) (hrest : rest ≠ [])
    (hending : ending = ['\n'] ∨ ending = ['\r', '\n']) (h : ending <:+ line ++ rest) :
    ending <:+ rest := by
  rcases suffix_or_suffix_of_suffix h (suffix_append line rest) with hs | hs
  · exact hs
  · obtain ⟨body, rfl, -⟩ := hline
    obtain ⟨pre, rfl⟩ := hs
    rcases hending with he | he
    · cases pre with
      | nil => simp
      | cons c pre =>
        have hlen := congrArg length he
        have hpos := length_pos_of_ne_nil hrest
        simp only [length_append, length_cons, length_nil] at hlen
        omega
    · match pre with
      | [] => simp
      | [c] =>
        obtain ⟨rfl, rfl⟩ : c = '\r' ∧ rest = ['\n'] := by simpa using he
        obtain ⟨front, hfront⟩ := h
        have := congrArg (fun l => l.reverse[1]?) hfront
        simp at this
      | c :: d :: pre =>
        have hlen := congrArg length he
        have hpos := length_pos_of_ne_nil hrest
        simp only [length_append, length_cons, length_nil] at hlen
        omega

theorem lastCut_exists (h : ending.isSuffixOf lines.flatten)
    (hlines : ∀ line ∈ lines, FullLine line) (hending : ending = ['\n'] ∨ ending = ['\r', '\n']) :
    ∃ lines', LastCut ending lines lines' := by
  induction lines with
  | nil => rcases hending with rfl | rfl <;> simp [List.isSuffixOf] at h
  | cons line lines ih =>
    cases lines with
    | nil =>
      obtain ⟨body, hbody⟩ := isSuffixOf_iff_suffix.mp h
      rw [flatten_cons, flatten_nil, append_nil] at hbody
      subst hbody
      by_cases hempty : body = []
      · subst hempty
        exact ⟨[], .gone⟩
      · exact ⟨[body], .last hempty⟩
    | cons next lines =>
      have hrest : ending.isSuffixOf (next :: lines).flatten := by
        rw [isSuffixOf_iff_suffix] at h ⊢
        exact suffix_of_line (hlines line mem_cons_self)
          (flatten_ne_nil fun l hl => hlines l (mem_cons_of_mem _ hl)) hending h
      obtain ⟨lines', hcut⟩ := ih hrest fun l hl => hlines l (mem_cons_of_mem _ hl)
      exact ⟨line :: lines', .cons line hcut⟩

theorem lastCut_split (h : LastCut ending lines lines') (hlines : ∀ line ∈ lines, FullLine line)
    (hending : ending = ['\n'] ∨ ending = ['\r', '\n']) :
    splitInclusive lines'.flatten = lines' := by
  induction h with
  | gone => rfl
  | @last body hne =>
    obtain ⟨front, hfront, hfree⟩ := hlines (body ++ ending) mem_cons_self
    have hbody : '\n' ∉ body := by
      rcases hending with rfl | rfl
      · rw [← append_cancel_right hfront] at hfree
        exact hfree
      · have heq : body ++ ['\r'] = front := append_cancel_right (by simpa using hfront)
        intro hmem
        exact hfree (heq ▸ mem_append_left _ hmem)
    rw [flatten_cons, flatten_nil, append_nil, splitInclusive_body hbody, if_neg hne]
  | @cons line lines lines' hcut ih =>
    obtain ⟨front, rfl, hfree⟩ := hlines line mem_cons_self
    rw [flatten_cons, splitInclusive_line hfree, ih fun l hl => hlines l (mem_cons_of_mem _ hl)]

structure SameLine (line line' : Line) : Prop where
  starts : ∀ c ∈ markerChars, startsWith c line' = startsWith c line

theorem ending_marker (hending : ending = ['\n'] ∨ ending = ['\r', '\n']) (body : Line) :
    SameLine (body ++ ending) body := by
  refine ⟨fun c hc => ?_⟩
  rcases hending with rfl | rfl
  · exact (startsWith_append (by rintro rfl; simp [markerChars] at hc) body []).symm
  · exact (startsWith_append (by rintro rfl; simp [markerChars] at hc) body ['\n']).symm

theorem ending_plain (hending : ending = ['\n'] ∨ ending = ['\r', '\n'])
    (hc : c ∈ markerChars) : startsWith c ending = false := by
  have h := (ending_marker hending []).starts c hc
  rw [nil_append] at h
  rw [← h]
  rfl

structure ScanPredicate (p : Line → Bool) : Prop where
  same : ∀ {line line'}, SameLine line line' → p line' = p line
  plain : ∀ {line}, (∀ c ∈ markerChars, startsWith c line = false) → p line = true

theorem scanPredicate_not (hc : c ∈ markerChars) : ScanPredicate fun line => !startsWith c line :=
  ⟨fun h => by rw [h.starts c hc], fun h => by rw [h c hc]; rfl⟩

theorem scanPredicate_ours : ScanPredicate insideOurs :=
  ⟨fun h => by rw [insideOurs, insideOurs, h.starts '=' (by decide), h.starts '|' (by decide)],
    fun h => by rw [insideOurs, h '=' (by decide), h '|' (by decide)]; rfl⟩

def TailCut (ending : List Char) (lines lines' : List Line) : Prop :=
  lines = [] ∧ lines' = [] ∨ LastCut ending lines lines'

theorem lastCut_scan {p : Line → Bool} (hp : ScanPredicate p)
    (hending : ending = ['\n'] ∨ ending = ['\r', '\n']) (h : LastCut ending lines lines') :
    (lines.dropWhile p = [] ∧ lines'.dropWhile p = []) ∨
      ∃ mark mark' rest rest', lines.dropWhile p = mark :: rest ∧
        lines'.dropWhile p = mark' :: rest' ∧ lines'.takeWhile p = lines.takeWhile p ∧
        SameLine mark mark' ∧ TailCut ending rest rest' := by
  induction h with
  | gone =>
    have hplain := hp.plain fun c hc => ending_plain hending hc
    exact Or.inl ⟨by simp [hplain], rfl⟩
  | @last body hne =>
    have hsame := ending_marker hending body
    have hpbody := hp.same hsame
    by_cases hbody : p body
    · exact Or.inl ⟨by simp [← hpbody, hbody], by simp [hbody]⟩
    · refine Or.inr ⟨body ++ ending, body, [], [], ?_, ?_, ?_, hsame, Or.inl ⟨rfl, rfl⟩⟩
      · simp [← hpbody, hbody]
      · simp [hbody]
      · simp [← hpbody, hbody]
  | @cons line lines lines' hcut ih =>
    by_cases hline : p line
    · rcases ih with ⟨hd, hd'⟩ | ⟨mark, mark', rest, rest', hd, hd', ht, hsame, hrest⟩
      · exact Or.inl ⟨by simp [hline, hd], by simp [hline, hd']⟩
      · exact Or.inr ⟨mark, mark', rest, rest', by simp [hline, hd], by simp [hline, hd'],
          by simp [hline, ht], hsame, hrest⟩
    · exact Or.inr ⟨line, line, lines, lines', by simp [hline], by simp [hline], by simp [hline],
        ⟨fun _ _ => rfl⟩, Or.inr hcut⟩

section
variable (hending : ending = ['\n'] ∨ ending = ['\r', '\n'])
include hending

theorem readTheirs_cut (h : TailCut ending lines lines') :
    (readTheirs lines = none ∧ readTheirs lines' = none) ∨
      ∃ theirs rest rest', readTheirs lines = some (theirs, rest) ∧
        readTheirs lines' = some (theirs, rest') ∧ TailCut ending rest rest' := by
  rcases h with ⟨rfl, rfl⟩ | h
  · exact Or.inl ⟨rfl, rfl⟩
  · rcases lastCut_scan (scanPredicate_not (c := '>') (by decide)) hending h with
      ⟨hd, hd'⟩ | ⟨mark, mark', rest, rest', hd, hd', ht, -, hrest⟩
    · exact Or.inl ⟨by simp only [readTheirs, hd], by simp only [readTheirs, hd']⟩
    · simp only [readTheirs, hd, hd', ht]
      exact Or.inr ⟨_, rest, rest', rfl, rfl, hrest⟩

theorem readBlock_cut (h : TailCut ending lines lines') :
    (readBlock lines = none ∧ readBlock lines' = none) ∨
      ∃ block rest rest', readBlock lines = some (block, rest) ∧
        readBlock lines' = some (block, rest') ∧ TailCut ending rest rest' := by
  rcases h with ⟨rfl, rfl⟩ | h
  · exact Or.inl ⟨rfl, rfl⟩
  rcases lastCut_scan scanPredicate_ours hending h with
    ⟨hd, hd'⟩ | ⟨mark, mark', after, after', hd, hd', hours, hmark, hafter⟩
  · exact Or.inl ⟨by simp only [readBlock, hd], by simp only [readBlock, hd']⟩
  simp only [readBlock, hd, hd', hours, hmark.starts '=' (by decide)]
  by_cases hsep : startsWith '=' mark
  · simp only [hsep, if_true]
    rcases readTheirs_cut hending hafter with ⟨ht, ht'⟩ | ⟨theirs, rest, rest', ht, ht', hrest⟩
    · exact Or.inl ⟨by rw [ht]; rfl, by rw [ht']; rfl⟩
    · exact Or.inr ⟨_, rest, rest', by rw [ht]; rfl, by rw [ht']; rfl, hrest⟩
  · simp only [hsep, Bool.false_eq_true, if_false]
    rcases hafter with ⟨rfl, rfl⟩ | hafter
    · exact Or.inl ⟨rfl, rfl⟩
    rcases lastCut_scan (scanPredicate_not (c := '=') (by decide)) hending hafter with
      ⟨hb, hb'⟩ | ⟨close, close', body, body', hb, hb', hbase, -, hbody⟩
    · exact Or.inl ⟨by rw [hb], by rw [hb']⟩
    · simp only [hb, hb', hbase]
      rcases readTheirs_cut hending hbody with ⟨ht, ht'⟩ | ⟨theirs, rest, rest', ht, ht', hrest⟩
      · exact Or.inl ⟨by rw [ht]; rfl, by rw [ht']; rfl⟩
      · exact Or.inr ⟨_, rest, rest', by rw [ht]; rfl, by rw [ht']; rfl, hrest⟩

theorem firstBlock_cut (h : LastCut ending lines lines') (hnone : firstBlock lines = none) :
    firstBlock lines' = none := by
  induction h with
  | gone => rfl
  | @last body _ =>
    rw [firstBlock, (ending_marker hending body).starts '<' (by decide)]
    split <;> rfl
  | cons line hcut ih =>
    rw [firstBlock] at hnone ⊢
    split at hnone
    · rename_i hopen
      rw [if_pos hopen]
      rcases readBlock_cut hending (Or.inr hcut) with ⟨-, h'⟩ | ⟨_, _, _, h, -⟩
      · exact h'
      · rw [hnone] at h
        cases h
    · rename_i hopen
      rw [if_neg hopen]
      exact ih hnone

end

def EndsWith (ending text text' : List Char) : Prop := text = text' ∨ text = text' ++ ending

theorem EndsWith.prepend {text text' : List Char} (h : EndsWith ending text text')
    (front : List Char) : EndsWith ending (front ++ text) (front ++ text') := by
  rcases h with rfl | rfl
  · exact Or.inl rfl
  · exact Or.inr (append_assoc _ _ _).symm

theorem marked_cut {ours theirs : List Char} (hending : ending = ['\n'] ∨ ending = ['\r', '\n'])
    (h : Marked lines blocks ours theirs) (hcut : TailCut ending lines lines') :
    ∃ ours' theirs', Marked lines' blocks ours' theirs' ∧ EndsWith ending ours ours' ∧
      EndsWith ending theirs theirs' := by
  induction h generalizing lines' with
  | @tail lines hnone =>
    rcases hcut with ⟨rfl, rfl⟩ | hcut
    · exact ⟨_, _, .tail rfl, Or.inl rfl, Or.inl rfl⟩
    · exact ⟨_, _, .tail (firstBlock_cut hending hcut hnone), Or.inr hcut.flatten,
        Or.inr hcut.flatten⟩
  | @context line lines blocks ours theirs hopen h ih =>
    rcases hcut with ⟨hnil, -⟩ | hcut
    · cases hnil
    · cases hcut with
      | gone =>
        obtain ⟨ours', theirs', h', hours, htheirs⟩ := ih (Or.inl ⟨rfl, rfl⟩)
        cases h with
        | tail _ => exact ⟨[], [], .tail rfl, Or.inr (by simp), Or.inr (by simp)⟩
      | @last body hne =>
        cases h with
        | tail _ =>
          have hbody := (ending_marker hending body).starts '<' (by decide)
          rw [hopen] at hbody
          exact ⟨_, _, .context hbody (.tail rfl), Or.inr (by simp), Or.inr (by simp)⟩
      | cons _ hcut =>
        obtain ⟨ours', theirs', h', hours, htheirs⟩ := ih (Or.inr hcut)
        exact ⟨_, _, .context hopen h', hours.prepend line, htheirs.prepend line⟩
  | @conflict line body lines block blocks ours theirs hopen hblock _ ih =>
    rcases hcut with ⟨hnil, -⟩ | hcut
    · cases hnil
    · cases hcut with
      | gone => cases hblock
      | last _ => cases hblock
      | @cons _ _ body' hcut =>
        rcases readBlock_cut hending (Or.inr hcut) with ⟨hnone, -⟩ | ⟨b, rest, rest', hb, hb', hrest⟩
        · rw [hblock] at hnone
          cases hnone
        · rw [hblock] at hb
          obtain ⟨rfl, rfl⟩ := Prod.mk.inj (some.inj hb)
          obtain ⟨ours', theirs', h', hours, htheirs⟩ := ih hrest
          exact ⟨_, _, .conflict hopen hb' h', hours.prepend _, htheirs.prepend _⟩

end

structure Fragment (out : List Char) (blocks : List ParsedConflictBlock) (ours theirs : List Char) :
    Prop where
  lines : ∃ lines : List Line, out = lines.flatten ∧ (∀ line ∈ lines, FullLine line) ∧
    ∀ {rest blocks' ours' theirs'}, Marked rest blocks' ours' theirs' →
      Marked (lines ++ rest) (blocks ++ blocks') (ours ++ ours') (theirs ++ theirs')

theorem fragment_nil : Fragment [] [] [] [] := ⟨⟨[], rfl, by simp, fun h => h⟩⟩

theorem Fragment.append {out out' ours ours' theirs theirs' : List Char}
    {blocks' : List ParsedConflictBlock} (h : Fragment out blocks ours theirs)
    (h' : Fragment out' blocks' ours' theirs') :
    Fragment (out ++ out') (blocks ++ blocks') (ours ++ ours') (theirs ++ theirs') := by
  obtain ⟨lines, rfl, hlines, hmarked⟩ := h.lines
  obtain ⟨lines', rfl, hlines', hmarked'⟩ := h'.lines
  refine ⟨⟨lines ++ lines', flatten_append.symm, fun line hline => ?_, fun hrest => ?_⟩⟩
  · rcases mem_append.mp hline with hline | hline
    · exact hlines line hline
    · exact hlines' line hline
  · have := hmarked (hmarked' hrest)
    simpa only [append_assoc] using this

structure Emits (lineEnding : List Char) (size : ℕ) (labels : MergeLabels) : Prop where
  ending : lineEnding = ['\n'] ∨ lineEnding = ['\r', '\n']
  size : 7 ≤ size
  labels : ∀ label ∈ [labels.ours, labels.base, labels.theirs], ∀ text ∈ label, '\n' ∉ text

def Unbroken (lines : List Line) : Prop := ∀ line ∈ lines, '\n' ∉ line

section
variable {options : MergeOptions} {lineEnding : List Char} {ours theirs base : List Line}

theorem fullLine_ending (h : lineEnding = ['\n'] ∨ lineEnding = ['\r', '\n']) {body : Line}
    (hbody : '\n' ∉ body) : FullLine (body ++ lineEnding) := by
  rcases h with rfl | rfl
  · exact ⟨body, rfl, hbody⟩
  · exact ⟨body ++ ['\r'], by simp, by simpa using hbody⟩

theorem fullLine_lines (h : lineEnding = ['\n'] ∨ lineEnding = ['\r', '\n'])
    {lines : List Line} (hlines : Unbroken lines) :
    ∀ line ∈ lines.map (· ++ lineEnding), FullLine line := by
  intro line hline
  obtain ⟨body, hbody, rfl⟩ := mem_map.mp hline
  exact fullLine_ending h (hlines body hbody)

theorem emitMarker_line (h : Emits lineEnding options.markerSize options.labels) {a : Char}
    (hch : a ∈ markerChars) {l : Option (List Char)} (hlabel : ∀ text ∈ l, '\n' ∉ text) :
    FullLine (emitMarker a options.markerSize l lineEnding) ∧
      ∀ c, startsWith c (emitMarker a options.markerSize l lineEnding) = decide (c = a) := by
  refine ⟨fullLine_ending h.ending ?_, fun c => ?_⟩
  · have hne : '\n' ≠ a := by
      rintro rfl
      simp [markerChars] at hch
    cases l with
    | none => simp [hne]
    | some text => simpa [hne] using hlabel text rfl
  · rw [emitMarker, append_assoc]
    by_cases hc : c = a
    · subst hc
      simp [startsWith_replicate h.size]
    · simp [startsWith_other hc h.size, hc]

theorem emitLines_starts (h : lineEnding = ['\n'] ∨ lineEnding = ['\r', '\n']) {lines : List Line}
    (hc : c ∈ markerChars) (hlines : ∀ line ∈ lines, startsWith c line = false) :
    ∀ line ∈ lines.map (· ++ lineEnding), startsWith c line = false := by
  intro line hline
  obtain ⟨body, hbody, rfl⟩ := mem_map.mp hline
  rw [← (ending_marker h body).starts c hc]
  exact hlines body hbody

theorem fragment_context (h : lineEnding = ['\n'] ∨ lineEnding = ['\r', '\n'])
    {lines : List Line} (hfree : Unbroken lines)
    (hclean : ∀ line ∈ lines, startsWith '<' line = false) :
    Fragment (emitLines lines lineEnding) [] (emitLines lines lineEnding)
      (emitLines lines lineEnding) := by
  refine ⟨⟨_, rfl, fullLine_lines h hfree, fun {rest blocks' ours' theirs'} hrest => ?_⟩⟩
  have hstart := emitLines_starts h (by decide) hclean
  rw [emitLines]
  generalize lines.map (· ++ lineEnding) = full at hstart
  induction full with
  | nil => exact hrest
  | cons line full ih =>
    have := ih fun l hl => hstart l (mem_cons_of_mem _ hl)
    simp only [flatten_cons, append_assoc, cons_append]
    exact .context (hstart line mem_cons_self) this

theorem readTheirs_lines {body rest : List Line} {close : Line}
    (hbody : ∀ line ∈ body, startsWith '>' line = false) (hclose : startsWith '>' close) :
    readTheirs (body ++ close :: rest) = some (body.flatten, rest) := by
  obtain ⟨ht, hd⟩ := takeWhile_stop (p := fun line => !startsWith '>' line) (r := rest)
    (fun line hline => by rw [hbody line hline]; rfl) (by rw [hclose]; rfl)
  rw [readTheirs, hd, ht]

structure BlockLines (ours theirs : List Line) : Prop where
  insideOurs : ∀ line ∈ ours, startsWith '=' line = false ∧ startsWith '|' line = false
  insideTheirs : ∀ line ∈ theirs, startsWith '>' line = false
  oursUnbroken : Unbroken ours
  theirsUnbroken : Unbroken theirs

theorem insideOurs_lines (h : lineEnding = ['\n'] ∨ lineEnding = ['\r', '\n'])
    (hours : ∀ line ∈ ours, startsWith '=' line = false ∧ startsWith '|' line = false) :
    ∀ line ∈ ours.map (· ++ lineEnding), insideOurs line := by
  intro line hline
  rw [insideOurs, emitLines_starts h (by decide) (fun l hl => (hours l hl).1) line hline,
    emitLines_starts h (by decide) (fun l hl => (hours l hl).2) line hline]
  rfl

theorem fragment_merge (h : Emits lineEnding options.markerSize options.labels)
    (hlines : BlockLines ours theirs) :
    Fragment (emitMergeMarkers ours theirs options lineEnding)
      [⟨none, emitLines ours lineEnding, emitLines theirs lineEnding⟩]
      (emitLines ours lineEnding) (emitLines theirs lineEnding) := by
  obtain ⟨hopenFull, hopen⟩ := emitMarker_line h (a := '<') (by decide)
    (h.labels options.labels.ours (by simp))
  obtain ⟨hsepFull, hsep⟩ := emitMarker_line h (a := '=') (by decide) (l := none) (by simp)
  obtain ⟨hcloseFull, hclose⟩ := emitMarker_line h (a := '>') (by decide)
    (h.labels options.labels.theirs (by simp))
  rw [emitMergeMarkers]
  generalize emitMarker '<' options.markerSize options.labels.ours lineEnding = opening at *
  generalize emitMarker '=' options.markerSize none lineEnding = separator at *
  generalize emitMarker '>' options.markerSize options.labels.theirs lineEnding = closing at *
  refine ⟨⟨opening :: (ours.map (· ++ lineEnding) ++ separator ::
    (theirs.map (· ++ lineEnding) ++ [closing])), by simp [emitLines], ?_, fun hrest => ?_⟩⟩
  · intro line hline
    simp only [mem_cons, mem_append, not_mem_nil, or_false] at hline
    rcases hline with rfl | hline | rfl | hline | rfl
    · exact hopenFull
    · exact fullLine_lines h.ending hlines.oursUnbroken line hline
    · exact hsepFull
    · exact fullLine_lines h.ending hlines.theirsUnbroken line hline
    · exact hcloseFull
  · simp only [cons_append, append_assoc, nil_append]
    refine .conflict (by simp [hopen]) ?_ hrest
    obtain ⟨htake, hdrop⟩ := takeWhile_stop (p := insideOurs)
      (insideOurs_lines h.ending hlines.insideOurs)
      (m := separator) (by simp [insideOurs, hsep])
    rw [readBlock, hdrop, htake]
    simp only [hsep, decide_true, if_true]
    rw [readTheirs_lines (emitLines_starts h.ending (by decide) hlines.insideTheirs)
      (by simp [hclose])]
    rfl

theorem fragment_diff3 (h : Emits lineEnding options.markerSize options.labels)
    (hlines : BlockLines ours theirs) (hbase : ∀ line ∈ base, startsWith '=' line = false)
    (hunbroken : Unbroken base) :
    Fragment (emitDiff3Markers ours theirs base options lineEnding)
      [⟨some (emitLines base lineEnding), emitLines ours lineEnding, emitLines theirs lineEnding⟩]
      (emitLines ours lineEnding) (emitLines theirs lineEnding) := by
  obtain ⟨hopenFull, hopen⟩ := emitMarker_line h (a := '<') (by decide)
    (h.labels options.labels.ours (by simp))
  obtain ⟨hmarkFull, hmark⟩ := emitMarker_line h (a := '|') (by decide)
    (h.labels options.labels.base (by simp))
  obtain ⟨hsepFull, hsep⟩ := emitMarker_line h (a := '=') (by decide) (l := none) (by simp)
  obtain ⟨hcloseFull, hclose⟩ := emitMarker_line h (a := '>') (by decide)
    (h.labels options.labels.theirs (by simp))
  rw [emitDiff3Markers]
  generalize emitMarker '<' options.markerSize options.labels.ours lineEnding = opening at *
  generalize emitMarker '|' options.markerSize options.labels.base lineEnding = mark at *
  generalize emitMarker '=' options.markerSize none lineEnding = separator at *
  generalize emitMarker '>' options.markerSize options.labels.theirs lineEnding = closing at *
  refine ⟨⟨opening :: (ours.map (· ++ lineEnding) ++ mark :: (base.map (· ++ lineEnding) ++
    separator :: (theirs.map (· ++ lineEnding) ++ [closing]))), by simp [emitLines], ?_,
    fun {rest _ _ _} hrest => ?_⟩⟩
  · intro line hline
    simp only [mem_cons, mem_append, not_mem_nil, or_false] at hline
    rcases hline with rfl | hline | rfl | hline | rfl | hline | rfl
    · exact hopenFull
    · exact fullLine_lines h.ending hlines.oursUnbroken line hline
    · exact hmarkFull
    · exact fullLine_lines h.ending hunbroken line hline
    · exact hsepFull
    · exact fullLine_lines h.ending hlines.theirsUnbroken line hline
    · exact hcloseFull
  · simp only [cons_append, append_assoc, nil_append]
    refine .conflict (by simp [hopen]) ?_ hrest
    obtain ⟨htake, hdrop⟩ := takeWhile_stop (p := insideOurs)
      (insideOurs_lines h.ending hlines.insideOurs) (m := mark) (by simp [insideOurs, hmark])
    obtain ⟨htakeBase, hdropBase⟩ := takeWhile_stop (p := fun line => !startsWith '=' line)
      (fun line hline => by rw [emitLines_starts h.ending (by decide) hbase line hline]; rfl)
      (m := separator) (r := theirs.map (· ++ lineEnding) ++ closing :: rest)
      (by simp [hsep])
    rw [readBlock, hdrop, htake]
    simp only [hmark, hdropBase, htakeBase]
    rw [if_neg (by decide), readTheirs_lines (emitLines_starts h.ending (by decide) hlines.insideTheirs)
      (by simp [hclose])]
    rfl

structure Plain (lines : List Line) : Prop where
  unbroken : Unbroken lines
  free : ∀ line ∈ lines, ∀ c ∈ markerChars, startsWith c line = false

theorem Plain.sublist {lines part : List Line} (h : Plain lines) (hpart : part.Sublist lines) :
    Plain part :=
  ⟨fun line hline => h.unbroken line (hpart.subset hline),
    fun line hline => h.free line (hpart.subset hline)⟩

theorem Plain.slice {lines : List Line} (h : Plain lines) (start stop : ℕ) :
    Plain (slice lines start stop) :=
  h.sublist ((take_sublist _ _).trans (drop_sublist _ _))

theorem Plain.context {lines : List Line} (h : Plain lines)
    (hending : lineEnding = ['\n'] ∨ lineEnding = ['\r', '\n']) :
    Fragment (emitLines lines lineEnding) [] (emitLines lines lineEnding)
      (emitLines lines lineEnding) :=
  fragment_context hending h.unbroken fun line hline => h.free line hline '<' (by decide)

theorem Plain.blockLines (hours : Plain ours) (htheirs : Plain theirs) :
    BlockLines ours theirs where
  insideOurs line hline :=
    ⟨hours.free line hline '=' (by decide), hours.free line hline '|' (by decide)⟩
  insideTheirs line hline := htheirs.free line hline '>' (by decide)
  oursUnbroken := hours.unbroken
  theirsUnbroken := htheirs.unbroken

theorem emitLines_append (lines rest : List Line) (lineEnding : List Char) :
    emitLines (lines ++ rest) lineEnding = emitLines lines lineEnding ++ emitLines rest lineEnding := by
  simp [emitLines]

theorem fragment_zdiff3 (h : Emits lineEnding options.markerSize options.labels)
    (hours : Plain ours) (htheirs : Plain theirs) (hbase : Plain base) :
    ∃ out block, emitZdiff3Markers ours theirs base options lineEnding = some out ∧
      Fragment out [block] (emitLines ours lineEnding) (emitLines theirs lineEnding) := by
  have hends := commonEnds_spec ours theirs
  simp only [emitZdiff3Markers, commonPrefixSuffixLines]
  generalize (commonEnds ours theirs).1 = p at hends
  generalize (commonEnds ours theirs).2 = s at hends
  have hleft := hends.left
  have hright := hends.right
  rw [max_eq_left (by omega), max_eq_left (by omega),
    sliceOf_eq (zero_le _) (by omega), sliceOf_eq (by omega) (by omega),
    sliceOf_eq (by omega) (by omega), sliceOf_eq (by omega) (le_refl _)]
  simp only [bind_eq_bind, bind_some]
  rw [sliceOf_eq (le_max_right _ _) (by omega), bind_some]
  generalize min (baseCommonPrefixLen base (slice ours 0 p)) base.length = start
  generalize max (base.length - _) start = stop
  have hconflict := fragment_diff3 h ((hours.slice p (ours.length - s)).blockLines
    (htheirs.slice p (theirs.length - s)))
    (fun line hline => (hbase.slice start stop).free line hline '=' (by decide))
    (hbase.slice start stop).unbroken
  have hout := ((hours.slice 0 p).context h.ending).append
    (hconflict.append ((hours.slice (ours.length - s) ours.length).context h.ending))
  have hoursSplit := split_ends ours hleft
  have htheirsSplit := split_ends theirs hright
  rw [← hends.head, ← hends.tail] at htheirsSplit
  rw [append_assoc] at hoursSplit htheirsSplit
  have hoursText := congrArg (emitLines · lineEnding) hoursSplit
  have htheirsText := congrArg (emitLines · lineEnding) htheirsSplit
  simp only [emitLines_append] at hoursText htheirsText
  rw [← hoursText, ← htheirsText] at hout
  exact ⟨_, _, rfl, hout⟩

variable (options) in
theorem fragment_conflict (h : Emits lineEnding options.markerSize options.labels)
    (hours : Plain ours) (htheirs : Plain theirs) (hbase : Plain base) :
    ∃ out block, emitConflictMarkers ours theirs base options lineEnding = some out ∧
      Fragment out [block] (emitLines ours lineEnding) (emitLines theirs lineEnding) := by
  have hlines := hours.blockLines htheirs
  unfold emitConflictMarkers
  split
  · exact fragment_zdiff3 h hours htheirs hbase
  · exact ⟨_, _, rfl, fragment_diff3 h hlines
      (fun line hline => hbase.free line hline '=' (by decide)) hbase.unbroken⟩
  · exact ⟨_, _, rfl, fragment_merge h hlines⟩

end

end GitComet.Conflict
