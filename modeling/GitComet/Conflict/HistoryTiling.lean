import GitComet.Conflict.HistoryMerge

namespace GitComet.Conflict
open Text Slice FirstByKey Merging List Option Nat

section
variable {sectionRe entryRe : Line → Bool}

theorem linesBeforeEntry_eq (entryRe : Line → Bool) (lines : List Line) :
    linesBeforeEntry entryRe lines = textOf (lines.take (lines.findIdx entryRe)) := by
  induction lines with
  | nil => rfl
  | cons line lines ih =>
    rw [linesBeforeEntry, findIdx_cons]
    cases entryRe line with
    | true => rfl
    | false => simp [ih]

theorem historySectionSuffix_eq (entryRe : Line → Bool) (text : List Char) :
    historySectionSuffix entryRe text = some (textOf ((splitLines text).drop
      (entriesEnd entryRe (splitLines text) (rposition entryRe (splitLines text))))) := by
  dsimp only [historySectionSuffix]
  cases rposition entryRe (splitLines text) with
  | none => simp [entriesEnd, textOf]
  | some last =>
    cases hstop : findTrailingContentStart (splitLines text) last entryRe with
    | none => simp [entriesEnd, hstop, textOf]
    | some stop =>
      have hlt := (trailingFrom_bounds hstop).2
      simp [entriesEnd, hstop, sliceOf_eq (le_of_lt hlt) (le_refl _), slice_to_end]

variable {lines : List Line}

theorem before_first_entry : ∀ line ∈ lines.take (lines.findIdx entryRe), entryRe line = false := by
  intro line hline
  obtain ⟨i, hi, rfl⟩ := mem_take_iff_getElem.mp hline
  exact not_of_lt_findIdx (lt_of_lt_of_le hi (min_le_left _ _))

theorem after_entries :
    ∀ line ∈ lines.drop (entriesEnd entryRe lines (rposition entryRe lines)),
      entryRe line = false := by
  intro line hline
  cases hlast : rposition entryRe lines with
  | none => exact rposition_none.mp hlast line (mem_of_mem_drop hline)
  | some last =>
    rw [hlast] at hline
    have hlater := (entriesEnd_bounds entryRe lines (some last)).2 last rfl (rposition_lt hlast)
    exact rposition_after hlast line ((drop_sublist_drop_left lines hlater).subset hline)

theorem section_tiles_iff (hstart : scanStart sectionRe entryRe lines ≤ lines.length) :
    lines.take (lines.findIdx entryRe) ++
        slice lines (scanStart sectionRe entryRe lines) (scanEnd sectionRe entryRe lines) ++
        lines.drop (entriesEnd entryRe lines (rposition entryRe lines)) = lines ↔
      lines.findIdx entryRe = scanStart sectionRe entryRe lines := by
  have hend := scanStart_le_scanEnd hstart
  unfold scanEnd at hend ⊢
  generalize scanStart sectionRe entryRe lines = start at hstart hend ⊢
  have hfirst : lines.findIdx entryRe ≤ lines.length := findIdx_le_length
  cases hlast : rposition entryRe (lines.drop start) with
  | some i =>
    have hwhole : lastEntryStart entryRe start (lines.drop start) = rposition entryRe lines := by
      rw [lastEntryStart, hlast, rposition_drop hlast]
      rfl
    rw [hwhole] at hend ⊢
    have hstop := (entriesEnd_bounds entryRe lines (rposition entryRe lines)).1
    rw [append_assoc, ← slice_to_end lines (entriesEnd _ _ _), slice_append lines hend hstop,
      slice_to_end, take_append_drop_iff hfirst hstart]
  | none =>
    have hall : slice lines start (entriesEnd entryRe lines
        (lastEntryStart entryRe start (lines.drop start))) = lines.drop start := by
      rw [lastEntryStart, hlast]
      exact slice_to_end lines start
    rw [hall]
    by_cases hnone : ∀ line ∈ lines, entryRe line = false
    · rw [rposition_none.mpr hnone, findIdx_eq_length.mpr hnone]
      simp only [entriesEnd, bind_none, getD_none, drop_length, append_nil]
      exact take_append_drop_iff (le_refl _) hstart
    · -- An entry stands before the start only, and is missing from what is put together.
      have hbefore : lines.findIdx entryRe ≠ start := by
        rintro rfl
        have hlt : lines.findIdx entryRe < lines.length :=
          findIdx_lt_length.mpr (by simpa using hnone)
        have hmem : lines[lines.findIdx entryRe] ∈ lines.drop (lines.findIdx entryRe) := by
          rw [drop_eq_getElem_cons hlt]
          exact mem_cons_self
        have hentry : entryRe lines[lines.findIdx entryRe] := findIdx_getElem
        rw [rposition_none.mp hlast _ hmem] at hentry
        cases hentry
      refine iff_of_false (fun htiles => hnone fun line hline => ?_) hbefore
      rw [← htiles, mem_append, mem_append] at hline
      rcases hline with (hline | hline) | hline
      · exact before_first_entry line hline
      · exact rposition_none.mp hlast line hline
      · exact after_entries line hline

end

abbrev keysOf (entries : List HistoryEntry) : List (List Char) :=
  entries.map HistoryEntry.dedupKey

section
variable {baseEntries : Option (List HistoryEntry)} {oursEntries theirsEntries : List HistoryEntry}

theorem joined_eq (baseKeys : List (List Char)) (oursEntries theirsEntries : List HistoryEntry) :
    (joined baseKeys oursEntries theirsEntries).merged ++
        (joined baseKeys oursEntries theirsEntries).theirsNew =
      unseen HistoryEntry.dedupKey [] oursEntries ++
        ((unseen HistoryEntry.dedupKey (seenAfter HistoryEntry.dedupKey [] oursEntries)
            theirsEntries).filter (fun entry => decide (entry.dedupKey ∈ baseKeys)) ++
          (unseen HistoryEntry.dedupKey (seenAfter HistoryEntry.dedupKey [] oursEntries)
            theirsEntries).filter fun entry => !decide (entry.dedupKey ∈ baseKeys)) := by
  rw [joined, addOurs_fold, addTheirs_fold, start]
  simp only [nil_append, append_assoc]

variable {merged : List HistoryEntry}

theorem mergeHistoryEntries_unsorted
    (h : mergeHistoryEntries baseEntries oursEntries theirsEntries false none = some merged) :
    merged.Perm (unseen HistoryEntry.dedupKey [] oursEntries ++
      unseen HistoryEntry.dedupKey (seenAfter HistoryEntry.dedupKey [] oursEntries)
        theirsEntries) := by
  obtain ⟨merged', hnew, hperm⟩ := insertNew_runs (keysOf (baseEntries.getD []))
    (joined (keysOf (baseEntries.getD [])) oursEntries theirsEntries)
  rw [mergeHistoryEntries] at h
  simp only [bind_eq_bind, hnew, bind_some] at h
  cases h
  rw [joined_eq] at hperm
  exact hperm.trans ((filter_append_perm _ _).append_left _)

structure EachOnce (oursEntries theirsEntries merged : List HistoryEntry) : Prop where
  once : (keysOf merged).Nodup
  every : ∀ k, k ∈ keysOf merged ↔ k ∈ keysOf oursEntries ∨ k ∈ keysOf theirsEntries
  source : ∀ entry ∈ merged, entry ∈ oursEntries ∨ entry ∈ theirsEntries

theorem merged_eachOnce
    (h : mergeHistoryEntries baseEntries oursEntries theirsEntries false none = some merged) :
    EachOnce oursEntries theirsEntries merged where
  once := (joined_keys (mergeHistoryEntries_unsorted h)).1
  every := (joined_keys (mergeHistoryEntries_unsorted h)).2
  source _ hentry := mem_of_joined (mergeHistoryEntries_unsorted h) hentry

theorem merged_unchanged
    (h : mergeHistoryEntries baseEntries oursEntries theirsEntries false none = some merged)
    (hknown : ∀ k ∈ keysOf theirsEntries, k ∈ keysOf oursEntries)
    (hdistinct : (keysOf oursEntries).Nodup) : merged = oursEntries := by
  have hours : unseen HistoryEntry.dedupKey [] oursEntries = oursEntries :=
    unseen_eq_self hdistinct fun _ _ => not_mem_nil
  have htheirs : unseen HistoryEntry.dedupKey (seenAfter HistoryEntry.dedupKey [] oursEntries)
      theirsEntries = [] := unseen_eq_nil fun k hk => mem_seenAfter.mpr (.inr (hknown k hk))
  have hmerged : (joined (keysOf (baseEntries.getD [])) oursEntries theirsEntries).merged =
      oursEntries := by
    rw [joined, addOurs_fold, addTheirs_fold, start]
    simp only [hours, htheirs, filter_nil, append_nil, nil_append]
  have hnew : (joined (keysOf (baseEntries.getD [])) oursEntries theirsEntries).theirsNew = [] := by
    rw [joined, addOurs_fold, addTheirs_fold, start]
    simp only [htheirs, filter_nil, append_nil]
  rw [mergeHistoryEntries] at h
  simp only [hmerged, hnew, insertAll] at h
  exact (some.inj h).symm

end

section
variable {sectionRe entryRe : Line → Bool} {base : Option (List Char)} {ours theirs : List Char}
  {options : HistoryAutosolveOptions} {result : List Char}

structure WholeMerge (entryRe : Line → Bool) (ours : List Char)
    (oursEntries theirsEntries : List HistoryEntry) (suffix result : List Char) : Prop where
  assembled : ∃ merged, EachOnce oursEntries theirsEntries merged ∧
    result = historySectionPrefix entryRe ours ++ entriesText merged ++ suffix
  tiles : historySectionPrefix entryRe ours ++ entriesText oursEntries ++ suffix =
    textOf (splitLines ours)
  unchanged : (∀ k ∈ keysOf theirsEntries, k ∈ keysOf oursEntries) →
    (keysOf oursEntries).Nodup → result = textOf (splitLines ours)

def LosesNothing (sectionRe entryRe : Line → Bool) (ours theirs result : List Char) : Prop :=
  ∃ oursEntries theirsEntries suffix,
    parseHistoryEntries sectionRe entryRe ours = some oursEntries ∧
    parseHistoryEntries sectionRe entryRe theirs = some theirsEntries ∧
    historySectionSuffix entryRe ours = some suffix ∧
    WholeMerge entryRe ours oursEntries theirsEntries suffix result

theorem mergeSections_result
    (h : mergeSections sectionRe entryRe base ours theirs options = some (some result)) :
    ∃ oursEntries theirsEntries baseEntries merged suffix,
      parseHistoryEntries sectionRe entryRe ours = some oursEntries ∧
      parseHistoryEntries sectionRe entryRe theirs = some theirsEntries ∧
      mergeHistoryEntries baseEntries oursEntries theirsEntries options.sortEntries
        options.maxEntries = some merged ∧ historySectionSuffix entryRe ours = some suffix ∧
      result = historySectionPrefix entryRe ours ++ entriesText merged ++ suffix := by
  rw [mergeSections] at h
  obtain ⟨oursEntries, hours, h⟩ := bind_eq_some_iff.mp h
  obtain ⟨theirsEntries, htheirs, h⟩ := bind_eq_some_iff.mp h
  split at h
  · cases some.inj h
  · obtain ⟨baseEntries, -, h⟩ := bind_eq_some_iff.mp h
    obtain ⟨merged, hmerged, h⟩ := bind_eq_some_iff.mp h
    obtain ⟨suffix, hsuffix, h⟩ := bind_eq_some_iff.mp h
    obtain rfl := some.inj (some.inj h)
    exact ⟨oursEntries, theirsEntries, baseEntries, merged, suffix, hours, htheirs, hmerged,
      hsuffix, rfl⟩

theorem ours_tiles_iff {oursEntries : List HistoryEntry} {suffix : List Char}
    (hours : parseHistoryEntries sectionRe entryRe ours = some oursEntries)
    (hsuffix : historySectionSuffix entryRe ours = some suffix) :
    historySectionPrefix entryRe ours ++ entriesText oursEntries ++ suffix =
        textOf (splitLines ours) ↔
      (splitLines ours).findIdx entryRe = scanStart sectionRe entryRe (splitLines ours) := by
  have hstart : scanStart sectionRe entryRe (splitLines ours) ≤ (splitLines ours).length := by
    rw [scanStart_le_iff]
    exact parseHistoryEntries_runs_iff.mp (hours ▸ some_ne_none oursEntries)
  rw [parseHistoryEntries_of_le hstart] at hours
  rw [historySectionSuffix_eq] at hsuffix
  cases hours
  cases hsuffix
  rw [← section_tiles_iff hstart, historySectionPrefix, linesBeforeEntry_eq, collectEntries_text,
    ← textOf_append, ← textOf_append]
  have hfree := splitLines_unbroken ours
  refine ⟨textOf_inj (fun line hline => ?_) hfree, congrArg textOf⟩
  rw [mem_append, mem_append] at hline
  rcases hline with (hline | hline) | hline
  · exact hfree line (mem_of_mem_take hline)
  · exact hfree line (mem_of_mem_drop (mem_of_mem_take hline))
  · exact hfree line (mem_of_mem_drop hline)

theorem merge_loses_nothing_iff {compile : List Char → Option (Line → Bool)}
    (hsection : compile options.sectionStart = some sectionRe)
    (hentry : compile options.entryStart = some entryRe)
    (hsort : options.sortEntries = false) (hmax : options.maxEntries = none)
    (hmerge : historyMergeRegion compile base ours theirs options = some (some result)) :
    LosesNothing sectionRe entryRe ours theirs result ↔
      (splitLines ours).findIdx entryRe = scanStart sectionRe entryRe (splitLines ours) := by
  obtain hnone | ⟨-, sectionRe', entryRe', hsection', hentry', -, hrun⟩ :=
    historyMergeRegion_cases compile base ours theirs options
  · rw [hnone] at hmerge
    cases some.inj hmerge
  obtain rfl := some.inj (hsection.symm.trans hsection')
  obtain rfl := some.inj (hentry.symm.trans hentry')
  obtain ⟨oursEntries, theirsEntries, baseEntries, merged, suffix, hours, htheirs, hmerged,
    hsuffix, hresult⟩ := mergeSections_result (hrun.symm.trans hmerge)
  rw [hsort, hmax] at hmerged
  rw [← ours_tiles_iff hours hsuffix]
  constructor
  · rintro ⟨oursEntries', theirsEntries', suffix', hours', -, hsuffix', hwhole⟩
    obtain rfl := some.inj (hours.symm.trans hours')
    obtain rfl := some.inj (hsuffix.symm.trans hsuffix')
    exact hwhole.tiles
  · intro htiles
    refine ⟨oursEntries, theirsEntries, suffix, hours, htheirs, hsuffix,
      ⟨merged, merged_eachOnce hmerged, hresult⟩, htiles, fun hknown hdistinct => ?_⟩
    rw [hresult, merged_unchanged hmerged hknown hdistinct, htiles]

end

theorem merge_of_two_lists :
    LosesNothing changelogLine bulletLine "## Changelog\n- a\n\nEnd\n".toList
      "## Changelog\n- b\n".toList "## Changelog\n- a\n- b\n\nEnd\n".toList := by
  have hmerge : historyMergeRegion bulletPatterns none "## Changelog\n- a\n\nEnd\n".toList
      "## Changelog\n- b\n".toList .bulletList =
        some (some "## Changelog\n- a\n- b\n\nEnd\n".toList) := by decide +kernel
  refine (merge_loses_nothing_iff ?_ ?_ rfl rfl hmerge).mpr ?_
  · rfl
  · rfl
  · decide

theorem header_gap_is_repeated :
    (parseHistoryEntries changelogLine bulletLine "## Changelog\n\n- a\n".toList).map keysOf =
        some [[], "- a".toList] ∧
      ∃ result, historyMergeRegion bulletPatterns none "## Changelog\n\n- a\n".toList
          "## Changelog\n\n- a\n".toList .bulletList = some (some result) ∧
        result = "## Changelog\n\n\n- a\n".toList ∧ result ≠ "## Changelog\n\n- a\n".toList := by
  refine ⟨?_, _, ?_, rfl, ?_⟩
  · decide +kernel
  · decide +kernel
  · decide

end GitComet.Conflict
