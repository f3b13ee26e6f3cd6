import Mathlib.Data.List.Lex
import Mathlib.Data.Char
import GitComet.Conflict.HistoryEntries

namespace GitComet.Conflict
open Text Slice FirstByKey Option Bool List

structure Merging where
  seenKeys : List (List Char)
  merged : List HistoryEntry
  theirsNew : List HistoryEntry

namespace Merging

def start : Merging := ⟨[], [], []⟩

def addOurs (state : Merging) (entry : HistoryEntry) : Merging :=
  if entry.dedupKey ∈ state.seenKeys then state
  else ⟨entry.dedupKey :: state.seenKeys, state.merged ++ [entry], state.theirsNew⟩

def addTheirs (baseKeys : List (List Char)) (state : Merging) (entry : HistoryEntry) : Merging :=
  if entry.dedupKey ∈ state.seenKeys then state
  else if entry.dedupKey ∉ baseKeys then
    ⟨entry.dedupKey :: state.seenKeys, state.merged, state.theirsNew ++ [entry]⟩
  else ⟨entry.dedupKey :: state.seenKeys, state.merged ++ [entry], state.theirsNew⟩

def joined (baseKeys : List (List Char)) (oursEntries theirsEntries : List HistoryEntry) :
    Merging :=
  theirsEntries.foldl (addTheirs baseKeys) (oursEntries.foldl addOurs start)

def insertPos (baseKeys : List (List Char)) (state : Merging) : ℕ :=
  (state.merged.findIdx? fun entry => decide (entry.dedupKey ∈ baseKeys)).getD state.merged.length

end Merging

def mergeHistoryEntries (baseEntries : Option (List HistoryEntry))
    (oursEntries theirsEntries : List HistoryEntry) (sort : Bool) (maxEntries : Option ℕ) :
    Option (List HistoryEntry) := do
  let baseKeys := (baseEntries.getD []).map HistoryEntry.dedupKey
  let state := Merging.joined baseKeys oursEntries theirsEntries
  let merged ← insertAll (state.insertPos baseKeys) state.theirsNew state.merged
  let merged :=
    if sort then merged.mergeSort fun a b => decide (a.dedupKey ≤ b.dedupKey) else merged
  some (match maxEntries with
    | none => merged
    | some max => merged.take max)

section
variable (compile : List Char → Option (Line → Bool))

def baseHistoryEntries (sectionRe entryRe : Line → Bool) :
    Option (List Char) → Option (Option (List HistoryEntry))
  | none => some none
  | some base => (parseHistoryEntries sectionRe entryRe base).map some

def mergeSections (sectionRe entryRe : Line → Bool) (base : Option (List Char))
    (ours theirs : List Char) (options : HistoryAutosolveOptions) :
    Option (Option (List Char)) := do
  let oursEntries ← parseHistoryEntries sectionRe entryRe ours
  let theirsEntries ← parseHistoryEntries sectionRe entryRe theirs
  if oursEntries = [] ∧ theirsEntries = [] then some none
  else
    let baseEntries ← baseHistoryEntries sectionRe entryRe base
    let merged ← mergeHistoryEntries baseEntries oursEntries theirsEntries options.sortEntries
      options.maxEntries
    let suffix ← historySectionSuffix entryRe ours
    some (some (historySectionPrefix entryRe ours ++ entriesText merged ++ suffix))

-- A result within the outer option is what the source returns; none outside of it is a panic.
def historyMergeRegion (base : Option (List Char)) (ours theirs : List Char)
    (options : HistoryAutosolveOptions) : Option (Option (List Char)) :=
  if !options.isValid then some none
  else
    match compile options.sectionStart, compile options.entryStart with
    | some sectionRe, some entryRe =>
      if !(splitLines ours).any sectionRe && !(splitLines theirs).any sectionRe then some none
      else mergeSections sectionRe entryRe base ours theirs options
    | _, _ => some none

def historyMergeRegionWithContext (contextBefore : List Char) (base : Option (List Char))
    (ours theirs : List Char) (options : HistoryAutosolveOptions) : Option (Option (List Char)) :=
  match (compile options.sectionStart).bind fun sectionRe =>
      (splitLines contextBefore).reverse.find? sectionRe with
  | none => some none
  | some header =>
    let header := header ++ ['\n']
    (historyMergeRegion compile (base.map (header ++ ·)) (header ++ ours) (header ++ theirs)
      options).map fun merged => merged.bind (stripPrefix header)

end

namespace Merging

theorem addOurs_fold (entries : List HistoryEntry) (state : Merging) :
    entries.foldl addOurs state = ⟨seenAfter HistoryEntry.dedupKey state.seenKeys entries,
        state.merged ++ unseen HistoryEntry.dedupKey state.seenKeys entries, state.theirsNew⟩ := by
  induction entries generalizing state with
  | nil => simp [unseen, seenAfter]
  | cons entry entries ih =>
    rw [foldl_cons, ih, addOurs]
    split
    · rename_i hseen
      rw [unseen_cons_of_mem hseen, seenAfter_cons_of_mem hseen]
    · rename_i hseen
      rw [unseen_cons_of_notMem hseen, seenAfter_cons_of_notMem hseen]
      simp

theorem addTheirs_fold (baseKeys : List (List Char)) (entries : List HistoryEntry)
    (state : Merging) :
    entries.foldl (addTheirs baseKeys) state =
      ⟨seenAfter HistoryEntry.dedupKey state.seenKeys entries,
        state.merged ++ (unseen HistoryEntry.dedupKey state.seenKeys entries).filter
          fun entry => decide (entry.dedupKey ∈ baseKeys),
        state.theirsNew ++ (unseen HistoryEntry.dedupKey state.seenKeys entries).filter
          fun entry => !decide (entry.dedupKey ∈ baseKeys)⟩ := by
  induction entries generalizing state with
  | nil => simp [unseen, seenAfter]
  | cons entry entries ih =>
    rw [foldl_cons, ih, addTheirs]
    split
    · rename_i hseen
      rw [unseen_cons_of_mem hseen, seenAfter_cons_of_mem hseen]
    · rename_i hseen
      rw [unseen_cons_of_notMem hseen, seenAfter_cons_of_notMem hseen]
      by_cases hbase : entry.dedupKey ∈ baseKeys <;> simp [hbase]

theorem insertPos_le (baseKeys : List (List Char)) (state : Merging) :
    state.insertPos baseKeys ≤ state.merged.length := by
  rw [insertPos, ← findIdx_eq_getD_findIdx?]
  exact findIdx_le_length

theorem insertNew_runs (baseKeys : List (List Char)) (state : Merging) :
    ∃ merged, insertAll (state.insertPos baseKeys) state.theirsNew state.merged = some merged ∧
      merged.Perm (state.merged ++ state.theirsNew) :=
  insertAll_perm _ (insertPos_le baseKeys state)

end Merging

open Merging

theorem mergeHistoryEntries_runs (baseEntries : Option (List HistoryEntry))
    (oursEntries theirsEntries : List HistoryEntry) (sort : Bool) (maxEntries : Option ℕ) :
    ∃ merged, mergeHistoryEntries baseEntries oursEntries theirsEntries sort maxEntries =
      some merged := by
  have hnew := insertNew_runs ((baseEntries.getD []).map HistoryEntry.dedupKey)
    (joined ((baseEntries.getD []).map HistoryEntry.dedupKey) oursEntries theirsEntries)
  obtain ⟨merged, hmerged, -⟩ := hnew
  rw [mergeHistoryEntries]
  simp only [bind_eq_bind, hmerged, bind_some]
  exact ⟨_, rfl⟩

theorem historySectionSuffix_runs (entryRe : Line → Bool) (text : List Char) :
    ∃ suffix, historySectionSuffix entryRe text = some suffix := by
  dsimp only [historySectionSuffix]
  cases rposition entryRe (splitLines text) with
  | none => exact ⟨_, rfl⟩
  | some last =>
    cases hstop : findTrailingContentStart (splitLines text) last entryRe with
    | none => exact ⟨[], by simp [hstop]⟩
    | some stop =>
      have hlt := (trailingFrom_bounds hstop).2
      refine ⟨textOf (slice (splitLines text) stop (splitLines text).length), ?_⟩
      simp [hstop, sliceOf_eq (Nat.le_of_lt hlt) (Nat.le_refl _)]

def NothingAfterHeader (sectionRe entryRe : Line → Bool) (text : List Char) : Prop :=
  scanStart sectionRe entryRe (splitLines text) = (splitLines text).length

theorem parseHistoryEntries_runs_iff {sectionRe entryRe : Line → Bool} {text : List Char} :
    parseHistoryEntries sectionRe entryRe text ≠ none ↔ text ≠ [] ∨ entryRe [] := by
  rw [ne_eq, parseHistoryEntries_eq_none, not_and_or, not_eq_false]

theorem mergeSections_parsed {sectionRe entryRe : Line → Bool} (base : Option (List Char))
    {ours theirs : List Char} (options : HistoryAutosolveOptions)
    {oursEntries theirsEntries : List HistoryEntry}
    (hours : parseHistoryEntries sectionRe entryRe ours = some oursEntries)
    (htheirs : parseHistoryEntries sectionRe entryRe theirs = some theirsEntries) :
    mergeSections sectionRe entryRe base ours theirs options ≠ none ↔
      base ≠ some [] ∨ entryRe [] ∨ NothingAfterHeader sectionRe entryRe ours ∧
          NothingAfterHeader sectionRe entryRe theirs := by
  have hempty : oursEntries = [] ∧ theirsEntries = [] ↔
      NothingAfterHeader sectionRe entryRe ours ∧ NothingAfterHeader sectionRe entryRe theirs := by
    rw [NothingAfterHeader, NothingAfterHeader, ← parseHistoryEntries_eq_empty,
      ← parseHistoryEntries_eq_empty, hours, htheirs, some.injEq, some.injEq]
  rw [← hempty, mergeSections, hours, htheirs]
  simp only [bind_eq_bind, bind_some]
  by_cases hnone : oursEntries = [] ∧ theirsEntries = []
  · rw [if_pos hnone]
    exact iff_of_true (some_ne_none _) (.inr (.inr hnone))
  · rw [if_neg hnone]
    obtain ⟨suffix, hsuffix⟩ := historySectionSuffix_runs entryRe ours
    have hmerge : ∀ baseEntries, ∃ merged, mergeHistoryEntries baseEntries oursEntries
        theirsEntries options.sortEntries options.maxEntries = some merged :=
      fun baseEntries => mergeHistoryEntries_runs _ _ _ _ _
    cases base with
    | none =>
      obtain ⟨merged, hmerged⟩ := hmerge none
      simp [baseHistoryEntries, hmerged, hsuffix]
    | some base =>
      cases hbase : parseHistoryEntries sectionRe entryRe base with
      | none =>
        obtain ⟨rfl, hentry⟩ := parseHistoryEntries_eq_none.mp hbase
        simp [baseHistoryEntries, hbase, hentry, hnone]
      | some baseEntries =>
        have hruns : base ≠ [] ∨ entryRe [] :=
          parseHistoryEntries_runs_iff.mp (hbase ▸ some_ne_none _)
        obtain ⟨merged, hmerged⟩ := hmerge (some baseEntries)
        refine iff_of_true ?_ (hruns.imp (fun hne he => hne (some.inj he)) .inl)
        simp [baseHistoryEntries, hbase, hmerged, hsuffix]

theorem mergeSections_runs_iff {sectionRe entryRe : Line → Bool} {base : Option (List Char)}
    {ours theirs : List Char} {options : HistoryAutosolveOptions} :
    mergeSections sectionRe entryRe base ours theirs options ≠ none ↔
      entryRe [] ∨ ours ≠ [] ∧ theirs ≠ [] ∧ (base ≠ some [] ∨
        NothingAfterHeader sectionRe entryRe ours ∧
          NothingAfterHeader sectionRe entryRe theirs) := by
  cases hours : parseHistoryEntries sectionRe entryRe ours with
  | none =>
    obtain ⟨rfl, hentry⟩ := parseHistoryEntries_eq_none.mp hours
    simp [mergeSections, hours, hentry]
  | some oursEntries =>
    cases htheirs : parseHistoryEntries sectionRe entryRe theirs with
    | none =>
      obtain ⟨rfl, hentry⟩ := parseHistoryEntries_eq_none.mp htheirs
      simp [mergeSections, hours, htheirs, hentry]
    | some theirsEntries =>
      have hl := parseHistoryEntries_runs_iff.mp (hours ▸ some_ne_none oursEntries)
      have hr := parseHistoryEntries_runs_iff.mp (htheirs ▸ some_ne_none theirsEntries)
      rw [mergeSections_parsed base options hours htheirs]
      tauto

def HasSection (sectionRe : Line → Bool) (ours theirs : List Char) : Prop :=
  (splitLines ours).any sectionRe = true ∨ (splitLines theirs).any sectionRe = true

section
variable {compile : List Char → Option (Line → Bool)} {base : Option (List Char)}
  {ours theirs : List Char} {options : HistoryAutosolveOptions} {sectionRe entryRe : Line → Bool}

theorem hasSection_iff : HasSection sectionRe ours theirs ↔
    ¬ (!(splitLines ours).any sectionRe && !(splitLines theirs).any sectionRe) := by
  rw [and_eq_true, not_eq_true', not_eq_true', not_and_or, not_eq_false,
    not_eq_false, HasSection]

theorem historyMergeRegion_compiled (base : Option (List Char)) (hvalid : options.isValid)
    (hsection : compile options.sectionStart = some sectionRe)
    (hentry : compile options.entryStart = some entryRe) (hhas : HasSection sectionRe ours theirs) :
    historyMergeRegion compile base ours theirs options =
      mergeSections sectionRe entryRe base ours theirs options := by
  rw [historyMergeRegion, if_neg (by simp [hvalid]), hsection, hentry]
  exact if_neg (hasSection_iff.mp hhas)

theorem historyMergeRegion_cases (compile : List Char → Option (Line → Bool))
    (base : Option (List Char)) (ours theirs : List Char) (options : HistoryAutosolveOptions) :
    historyMergeRegion compile base ours theirs options = some none ∨
      options.isValid ∧ ∃ sectionRe entryRe, compile options.sectionStart = some sectionRe ∧
        compile options.entryStart = some entryRe ∧ HasSection sectionRe ours theirs ∧
        historyMergeRegion compile base ours theirs options =
          mergeSections sectionRe entryRe base ours theirs options := by
  unfold historyMergeRegion
  split
  · exact .inl rfl
  rename_i hvalid
  split
  · rename_i sectionRe entryRe hsection hentry
    split
    · exact .inl rfl
    · rename_i hhas
      exact .inr ⟨by simpa using hvalid, sectionRe, entryRe, hsection, hentry,
        hasSection_iff.mpr hhas, rfl⟩
  · exact .inl rfl

theorem historyMergeRegion_runs (hbase : base ≠ some []) (hours : ours ≠ [])
    (htheirs : theirs ≠ []) :
    historyMergeRegion compile base ours theirs options ≠ none := by
  rcases historyMergeRegion_cases compile base ours theirs options with
    hnone | ⟨-, sectionRe, entryRe, -, -, -, hmerge⟩
  · rw [hnone]
    exact some_ne_none _
  · rw [hmerge, mergeSections_runs_iff]
    exact .inr ⟨hours, htheirs, .inl hbase⟩

theorem historyMergeRegionWithContext_runs (contextBefore : List Char) :
    historyMergeRegionWithContext compile contextBefore base ours theirs options ≠ none := by
  unfold historyMergeRegionWithContext
  split
  · exact some_ne_none _
  · rename_i header _
    have hne : ∀ text : List Char, header ++ ['\n'] ++ text ≠ [] := by simp
    have hbase : base.map (header ++ ['\n'] ++ ·) ≠ some [] := by
      intro h
      obtain ⟨text, -, hnil⟩ := map_eq_some_iff.mp h
      exact hne text hnil
    intro h
    exact historyMergeRegion_runs hbase (hne ours) (hne theirs) (map_eq_none_iff.mp h)

def ParsesInRange (compile : List Char → Option (Line → Bool)) (base : Option (List Char))
    (ours theirs : List Char) (options : HistoryAutosolveOptions) : Prop :=
  options.isValid = true →
    ∀ sectionRe ∈ compile options.sectionStart, ∀ entryRe ∈ compile options.entryStart,
      HasSection sectionRe ours theirs →
        entryRe [] = true ∨ ours ≠ [] ∧ theirs ≠ [] ∧ (base ≠ some [] ∨
          NothingAfterHeader sectionRe entryRe ours ∧ NothingAfterHeader sectionRe entryRe theirs)

theorem region_merge_runs_iff (compile : List Char → Option (Line → Bool))
    (base : Option (List Char)) (ours theirs : List Char) (options : HistoryAutosolveOptions) :
    historyMergeRegion compile base ours theirs options ≠ none ↔
      ParsesInRange compile base ours theirs options := by
  constructor
  · intro hruns hvalid sectionRe hsection entryRe hentry hhas
    rw [historyMergeRegion_compiled base hvalid hsection hentry hhas] at hruns
    exact mergeSections_runs_iff.mp hruns
  · intro hrange
    rcases historyMergeRegion_cases compile base ours theirs options with
      hnone | ⟨hvalid, sectionRe, entryRe, hsection, hentry, hhas, hmerge⟩
    · rw [hnone]
      exact some_ne_none _
    · rw [hmerge, mergeSections_runs_iff]
      exact hrange hvalid sectionRe hsection entryRe hentry hhas

def changelogLine (line : Line) : Bool := Text.startsWith line "## Changelog".toList
def bulletLine (line : Line) : Bool := Text.startsWith line "- ".toList

def bulletPatterns (pattern : List Char) : Option (Line → Bool) :=
  if pattern = HistoryAutosolveOptions.bulletList.sectionStart then some changelogLine
  else if pattern = HistoryAutosolveOptions.bulletList.entryStart then some bulletLine
  else none

theorem empty_text_panics :
    historyMergeRegion bulletPatterns none [] "## Changelog\n- a\n".toList .bulletList = none := by
  decide

end

end GitComet.Conflict
