import GitComet.Basis.FirstByKey
import GitComet.Basis.Slice
import GitComet.Text.Scan

namespace GitComet.Conflict
open Text Slice FirstByKey List Nat Option

structure HistoryAutosolveOptions where
  sectionStart : List Char
  entryStart : List Char
  sortEntries : Bool
  maxEntries : Option ℕ

namespace HistoryAutosolveOptions

def bulletList : HistoryAutosolveOptions where
  sectionStart := "(?i)^#+\\s*(changelog|changes|history|release\\s*notes)".toList
  entryStart := "^[-*]\\s+".toList
  sortEntries := false
  maxEntries := none

def isValid (options : HistoryAutosolveOptions) : Bool :=
  !options.sectionStart.isEmpty && !options.entryStart.isEmpty

end HistoryAutosolveOptions

structure HistoryEntry where
  text : List Char
  dedupKey : List Char
  deriving DecidableEq

def makeHistoryEntry (text : List Char) : HistoryEntry :=
  ⟨text, [' '].intercalate (splitWhitespace text)⟩

def skipBlank (lines : List Line) (i : ℕ) : ℕ :=
  if h : i < lines.length then
    if isBlank lines[i] then skipBlank lines (i + 1) else i
  else i
termination_by lines.length - i

theorem le_skipBlank (lines : List Line) (i : ℕ) : i ≤ skipBlank lines i := by
  fun_induction skipBlank lines i with
  | case1 i h hblank ih => exact le_of_succ_le ih
  | case2 => exact le_refl _
  | case3 => exact le_refl _

def trailingFrom (entryRe : Line → Bool) (lines : List Line) (i : ℕ) : Option ℕ :=
  if h : i < lines.length then
    if isBlank lines[i] then
      let next := skipBlank lines i
      if hnext : next < lines.length then
        if entryRe lines[next] then trailingFrom entryRe lines (next + 1) else some i
      else some i
    else trailingFrom entryRe lines (i + 1)
  else none
termination_by lines.length - i
decreasing_by
  · have hle : i ≤ skipBlank lines i := le_skipBlank lines i
    omega
  · omega

def findTrailingContentStart (lines : List Line) (lastEntryStart : ℕ) (entryRe : Line → Bool) :
    Option ℕ := trailingFrom entryRe lines (lastEntryStart + 1)

variable {lines : List Line}

theorem trailingFrom_bounds {entryRe : Line → Bool} {i stop : ℕ}
    (h : trailingFrom entryRe lines i = some stop) : i ≤ stop ∧ stop < lines.length := by
  fun_induction trailingFrom entryRe lines i with
  | case1 i hi hblank next hnext hentry ih =>
    have hle : i ≤ next := le_skipBlank lines i
    have := ih h
    omega
  | case2 i hi hblank next hnext hentry =>
    cases h
    exact ⟨le_refl _, hi⟩
  | case3 i hi hblank next hnext =>
    cases h
    exact ⟨le_refl _, hi⟩
  | case4 i hi hblank ih => exact ⟨le_of_succ_le (ih h).1, (ih h).2⟩
  | case5 => cases h

section
variable (sectionRe entryRe : Line → Bool)

def scanStart (lines : List Line) : ℕ :=
  let sectionStart := (lines.findIdx? sectionRe).getD 0
  if entryRe (lines[sectionStart]?.getD []) then sectionStart else sectionStart + 1

def entriesEnd (lines : List Line) (lastEntryStart : Option ℕ) : ℕ :=
  (lastEntryStart.bind fun last => findTrailingContentStart lines last entryRe).getD lines.length

def pushLine (state : List HistoryEntry × List Char) (line : Line) :
    List HistoryEntry × List Char :=
  let state :=
    if entryRe line ∧ state.2 ≠ [] then (state.1 ++ [makeHistoryEntry state.2], []) else state
  (state.1, state.2 ++ line ++ ['\n'])

def collectEntries (lines : List Line) : List HistoryEntry :=
  let state := lines.foldl (pushLine entryRe) ([], [])
  if state.2 = [] then state.1 else state.1 ++ [makeHistoryEntry state.2]

def lastEntryStart (start : ℕ) (tail : List Line) : Option ℕ :=
  (rposition entryRe tail).map (· + start)

def parseHistoryEntries (text : List Char) : Option (List HistoryEntry) := do
  let lines := splitLines text
  let start := scanStart sectionRe entryRe lines
  let tail ← sliceOf lines start lines.length
  let stop := entriesEnd entryRe lines (lastEntryStart entryRe start tail)
  let body ← sliceOf lines start stop
  some (collectEntries entryRe body)

-- The source also tests each line against the section pattern, and goes on either way.
def linesBeforeEntry : List Line → List Char
  | [] => []
  | line :: lines =>
    if entryRe line then [] else line ++ '\n' :: linesBeforeEntry lines

def historySectionPrefix (text : List Char) : List Char :=
  linesBeforeEntry entryRe (splitLines text)

def historySectionSuffix (text : List Char) : Option (List Char) :=
  let lines := splitLines text
  match rposition entryRe lines with
  | none => some []
  | some lastStart =>
    match findTrailingContentStart lines lastStart entryRe with
    | none => some []
    | some suffixStart => (sliceOf lines suffixStart lines.length).map textOf

end

def entriesText (entries : List HistoryEntry) : List Char := entries.flatMap HistoryEntry.text

theorem entriesText_snoc (entries : List HistoryEntry) (text : List Char) :
    entriesText (entries ++ [makeHistoryEntry text]) = entriesText entries ++ text := by
  simp [entriesText, makeHistoryEntry]

section
variable {sectionRe entryRe : Line → Bool}

theorem pushLine_text (state : List HistoryEntry × List Char) (line : Line) :
    entriesText (pushLine entryRe state line).1 ++ (pushLine entryRe state line).2 =
      entriesText state.1 ++ state.2 ++ (line ++ ['\n']) := by
  unfold pushLine
  split
  · simp [entriesText_snoc]
  · simp

theorem pushLines_text (entryRe : Line → Bool) (lines : List Line)
    (state : List HistoryEntry × List Char) :
    entriesText (lines.foldl (pushLine entryRe) state).1 ++
        (lines.foldl (pushLine entryRe) state).2 =
      entriesText state.1 ++ state.2 ++ textOf lines := by
  induction lines generalizing state with
  | nil => simp [textOf]
  | cons line lines ih =>
    rw [foldl_cons, ih, pushLine_text, textOf_cons, append_assoc _ (line ++ ['\n'])]

theorem collectEntries_text (entryRe : Line → Bool) (lines : List Line) :
    entriesText (collectEntries entryRe lines) = textOf lines := by
  have hrun := pushLines_text entryRe lines ([], [])
  rw [collectEntries]
  split
  · rename_i hnil
    simpa [hnil, entriesText] using hrun
  · rw [entriesText_snoc]
    simpa [entriesText] using hrun

theorem collectEntries_eq_nil : collectEntries entryRe lines = [] ↔ lines = [] := by
  constructor
  · intro h
    have htext := collectEntries_text entryRe lines
    rw [h] at htext
    exact textOf_eq_nil.mp htext.symm
  · rintro rfl
    rfl

variable {text : List Char}

theorem splitLines_eq_nil : splitLines text = [] ↔ text = [] := by
  refine ⟨fun h => ?_, fun h => by rw [h]; rfl⟩
  rw [← splitInclusive_flatten text, List.map_eq_nil_iff.mp h]
  rfl

theorem scanStart_le (h : lines ≠ []) : scanStart sectionRe entryRe lines ≤ lines.length := by
  have hpos := length_pos_of_ne_nil h
  have hsection : (lines.findIdx? sectionRe).getD 0 < lines.length := by
    cases hfind : lines.findIdx? sectionRe with
    | none => exact hpos
    | some i => exact (List.findIdx?_eq_some_iff_getElem.mp hfind).1
  dsimp only [scanStart]
  split
  · exact le_of_lt hsection
  · exact hsection

theorem scanStart_le_iff (sectionRe entryRe : Line → Bool) (text : List Char) :
    scanStart sectionRe entryRe (splitLines text) ≤ (splitLines text).length ↔
      text ≠ [] ∨ entryRe [] := by
  by_cases htext : text = []
  · subst htext
    by_cases hentry : entryRe [] <;> simp [splitLines, splitInclusive, scanStart, hentry]
  · exact iff_of_true (scanStart_le (mt splitLines_eq_nil.mp htext)) (.inl htext)

def scanEnd (sectionRe entryRe : Line → Bool) (lines : List Line) : ℕ :=
  entriesEnd entryRe lines (lastEntryStart entryRe (scanStart sectionRe entryRe lines)
    (lines.drop (scanStart sectionRe entryRe lines)))

theorem entriesEnd_bounds (entryRe : Line → Bool) (lines : List Line) (last : Option ℕ) :
    entriesEnd entryRe lines last ≤ lines.length ∧
      ∀ i ∈ last, i < lines.length → i < entriesEnd entryRe lines last := by
  unfold entriesEnd
  cases hstop : last.bind fun i => findTrailingContentStart lines i entryRe with
  | none => exact ⟨le_refl _, fun i _ hi => hi⟩
  | some stop =>
    obtain ⟨i, rfl, hi⟩ := bind_eq_some_iff.mp hstop
    have hbounds := trailingFrom_bounds hi
    refine ⟨le_of_lt hbounds.2, fun j hj _ => ?_⟩
    cases hj
    exact hbounds.1

theorem scanEnd_le (sectionRe entryRe : Line → Bool) (lines : List Line) :
    scanEnd sectionRe entryRe lines ≤ lines.length :=
  (entriesEnd_bounds entryRe lines _).1

theorem scanStart_lt_scanEnd (h : scanStart sectionRe entryRe lines < lines.length) :
    scanStart sectionRe entryRe lines < scanEnd sectionRe entryRe lines := by
  unfold scanEnd
  generalize scanStart sectionRe entryRe lines = start at h ⊢
  cases hlast : rposition entryRe (lines.drop start) with
  | none => simpa [lastEntryStart, hlast, entriesEnd] using h
  | some i =>
    have hi := rposition_lt hlast
    rw [length_drop] at hi
    have hmem : i + start ∈ lastEntryStart entryRe start (lines.drop start) := by
      rw [lastEntryStart, hlast]
      rfl
    have hroom : i + start < lines.length := by omega
    exact lt_of_le_of_lt (le_add_left start i)
      ((entriesEnd_bounds entryRe lines _).2 _ hmem hroom)

theorem scanStart_le_scanEnd (h : scanStart sectionRe entryRe lines ≤ lines.length) :
    scanStart sectionRe entryRe lines ≤ scanEnd sectionRe entryRe lines := by
  rcases lt_or_eq_of_le h with hlt | heq
  · exact le_of_lt (scanStart_lt_scanEnd hlt)
  · rw [scanEnd, heq, drop_length]
    exact le_refl _

theorem parseHistoryEntries_of_le
    (h : scanStart sectionRe entryRe (splitLines text) ≤ (splitLines text).length) :
    parseHistoryEntries sectionRe entryRe text =
      some (collectEntries entryRe (slice (splitLines text)
        (scanStart sectionRe entryRe (splitLines text))
        (scanEnd sectionRe entryRe (splitLines text)))) := by
  have hslice := sliceOf_eq (scanStart_le_scanEnd h)
    (scanEnd_le sectionRe entryRe (splitLines text))
  rw [scanEnd] at hslice ⊢
  rw [parseHistoryEntries, sliceOf_eq h (le_refl _), slice_to_end]
  simp only [bind_eq_bind, bind_some, hslice]

theorem parseHistoryEntries_eq_none :
    parseHistoryEntries sectionRe entryRe text = none ↔ text = [] ∧ entryRe [] = false := by
  have hiff := scanStart_le_iff sectionRe entryRe text
  by_cases h : scanStart sectionRe entryRe (splitLines text) ≤ (splitLines text).length
  · rw [parseHistoryEntries_of_le h]
    refine iff_of_false (some_ne_none _) fun ⟨hnil, hentry⟩ => ?_
    exact (hiff.mp h).elim (fun hne => hne hnil) (by simp [hentry])
  · have hnone : sliceOf (splitLines text) (scanStart sectionRe entryRe (splitLines text))
        (splitLines text).length = none := if_neg fun hbounds => h hbounds.1
    rw [parseHistoryEntries, hnone]
    simpa [hiff] using h

theorem parseHistoryEntries_eq_empty :
    parseHistoryEntries sectionRe entryRe text = some [] ↔
      scanStart sectionRe entryRe (splitLines text) = (splitLines text).length := by
  constructor
  · intro h
    have hle : scanStart sectionRe entryRe (splitLines text) ≤ (splitLines text).length := by
      rw [scanStart_le_iff, ← Bool.not_eq_false, or_iff_not_imp_left, ne_eq, not_not]
      exact fun hnil hfalse => by simp [parseHistoryEntries_eq_none.mpr ⟨hnil, hfalse⟩] at h
    rw [parseHistoryEntries_of_le hle, some.injEq, collectEntries_eq_nil] at h
    refine le_antisymm hle (Nat.not_lt.mp fun hlt => ?_)
    have hlength := length_slice (a := scanStart sectionRe entryRe (splitLines text))
      (scanEnd_le sectionRe entryRe (splitLines text))
    have hlater := scanStart_lt_scanEnd hlt
    rw [h, length_nil] at hlength
    omega
  · intro h
    rw [parseHistoryEntries_of_le (le_of_eq h), h, slice, drop_length, take_nil]
    rfl

end

end GitComet.Conflict
