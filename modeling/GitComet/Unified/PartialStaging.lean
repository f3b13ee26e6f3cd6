import GitComet.Unified.Staging

namespace GitComet.Unified
open Text KeyGroups List

structure WellFormedDiff (files : List FileSection) : Prop where
  each : ∀ file ∈ files, file.WellFormed ∧ Terminated file
  keys : (files.map FileSection.key).Nodup

section
variable {files : List FileSection} {diff : List AnnotatedDiffLine}

theorem annotated_stand (hwf : WellFormedDiff files) (h : Annotates files diff) :
    ∀ placed ∈ placedFiles 0 files, Stands diff placed :=
  placedFiles_stand files hwf.each [] diff rfl h

theorem hunkEntry_iff (hwf : WellFormedDiff files) (h : Annotates files diff) (srcIx k i : ℕ) :
    hunkEntry diff srcIx = some (k, i) ↔ srcIx = i ∧ ∃ placed ∈ placedFiles 0 files, placed.ix = k ∧
        ∃ j, ChangeAt placed j ∧ i = placed.ix + 1 + j := by
  constructor
  · intro hentry
    cases hget : diff[srcIx]? with
    | none => simp [hunkEntry, hget] at hentry
    | some line =>
      by_cases hkind : line.kind = .add ∨ line.kind = .remove
      · obtain ⟨placed, hplaced, j, hchange, hix⟩ := placedFiles_cover
          (fun file hfile => (hwf.each file hfile).2) h (x := 0) hget hkind
        rw [Nat.zero_add] at hix
        have hstands := hunkEntry_stands (annotated_stand hwf h placed hplaced) hchange
        rw [← hix, hentry, Option.some.injEq, Prod.mk.injEq] at hstands
        exact ⟨hstands.2.symm, placed, hplaced, hstands.1.symm, j, hchange, hstands.2.trans hix⟩
      · simp [hunkEntry, hget, hkind] at hentry
  · rintro ⟨rfl, placed, hplaced, rfl, j, hchange, rfl⟩
    exact hunkEntry_stands (annotated_stand hwf h placed hplaced) hchange

def entries (diff : List AnnotatedDiffLine) (selected : List ℕ) : List (ℕ × ℕ) :=
  selected.filterMap (hunkEntry diff)

theorem entries_iff (hwf : WellFormedDiff files) (h : Annotates files diff) (selected : List ℕ)
    (k i : ℕ) : (k, i) ∈ entries diff selected ↔ i ∈ selected ∧
      ∃ placed ∈ placedFiles 0 files, placed.ix = k ∧
        ∃ j, ChangeAt placed j ∧ i = placed.ix + 1 + j := by
  rw [entries, mem_filterMap]
  constructor
  · rintro ⟨srcIx, hsrc, hentry⟩
    obtain ⟨rfl, hplaced⟩ := (hunkEntry_iff hwf h srcIx k i).mp hentry
    exact ⟨hsrc, hplaced⟩
  · rintro ⟨hsrc, hplaced⟩
    exact ⟨i, hsrc, (hunkEntry_iff hwf h i k i).mpr ⟨rfl, hplaced⟩⟩

def Picked (selected : List ℕ) (placed : Placed) : Bool :=
  hasPick (picks selected) (placed.ix + 1) placed.hunk.body

theorem picked_iff (selected : List ℕ) (placed : Placed) : Picked selected placed ↔
    ∃ j, ChangeAt placed j ∧ placed.ix + 1 + j ∈ selected := by
  rw [Picked, hasPick_iff]
  simp only [picks, decide_eq_true_eq, ChangeAt]
  constructor
  · rintro ⟨j, line, hget, hm, hsel⟩
    exact ⟨j, ⟨line, hget, hm⟩, hsel⟩
  · rintro ⟨j, ⟨line, hget, hm⟩, hsel⟩
    exact ⟨j, line, hget, hm, hsel⟩

theorem byHunk_keys (hwf : WellFormedDiff files) (h : Annotates files diff) (selected : List ℕ) :
    (byHunk diff selected).map Prod.fst =
      ((placedFiles 0 files).filter (Picked selected)).map Placed.ix := by
  have hgroups := groups_spec (entries diff selected)
  have hsorted := (placedFiles_sorted (fun file hfile => (hwf.each file hfile).2) 0).1
  refine sorted_eq (sorted_keys hgroups.sorted)
    (pairwise_map.mpr (hsorted.sublist filter_sublist)) fun k => ?_
  have hkeys := mem_keys_iff hgroups k
  rw [byHunk]
  rw [entries] at hkeys
  rw [hkeys, mem_map]
  constructor
  · rintro ⟨i, hi⟩
    obtain ⟨hsel, placed, hplaced, hk, j, hchange, rfl⟩ := (entries_iff hwf h selected k i).mp hi
    exact ⟨placed, mem_filter.mpr ⟨hplaced,
      (picked_iff selected placed).mpr ⟨j, hchange, hsel⟩⟩, hk⟩
  · rintro ⟨placed, hmem, hk⟩
    obtain ⟨hplaced, hpicked⟩ := mem_filter.mp hmem
    obtain ⟨j, hchange, hsel⟩ := (picked_iff selected placed).mp hpicked
    exact ⟨placed.ix + 1 + j, (entries_iff hwf h selected k _).mpr
      ⟨hsel, placed, hplaced, hk, j, hchange, rfl⟩⟩

variable {selected : List ℕ} {placed : Placed}

theorem group_picks (hwf : WellFormedDiff files) (h : Annotates files diff)
    (hplaced : placed ∈ placedFiles 0 files) {ixs : List ℕ}
    (hgroup : (placed.ix, ixs) ∈ byHunk diff selected) {j : ℕ} (hj : ChangeAt placed j) :
    picks ixs (placed.ix + 1 + j) = picks selected (placed.ix + 1 + j) := by
  have hmem := group_mem_iff (groups_spec (entries diff selected)) hgroup (placed.ix + 1 + j)
  rw [picks, picks, decide_eq_decide, hmem, entries_iff hwf h]
  exact ⟨fun hi => hi.1, fun hi => ⟨hi, placed, hplaced, rfl, j, hj, rfl⟩⟩

variable {ix : ℕ}

theorem hasPick_congr {pick pick' : ℕ → Bool} {body : List BodyLine}
    (h : ∀ j line, body[j]? = some line → line.marker ≠ .context → pick (ix + j) = pick' (ix + j))
    (hpick : hasPick pick' ix body) : hasPick pick ix body := by
  obtain ⟨j, line, hget, hm, hj⟩ := hasPick_iff.mp hpick
  exact hasPick_iff.mpr ⟨j, line, hget, hm, (h j line hget hm).trans hj⟩

theorem placedHunks_file {file : FileSection} {hunks : List (List (List Char) × Hunk)} :
    ∀ placed ∈ placedHunks file ix hunks,
      placed.file = file ∧ ∃ entry ∈ hunks, entry.2 = placed.hunk := by
  induction hunks generalizing ix with
  | nil => simp [placedHunks]
  | cons entry hunks ih =>
    obtain ⟨skipped, hunk⟩ := entry
    refine forall_mem_cons.mpr ⟨⟨rfl, _, mem_cons_self, rfl⟩, fun placed hplaced => ?_⟩
    obtain ⟨hfile, entry, hentry, heq⟩ := ih placed hplaced
    exact ⟨hfile, entry, mem_cons_of_mem _ hentry, heq⟩

theorem placedFiles_file (hwf : ∀ file ∈ files, file.WellFormed ∧ Terminated file) :
    ∀ placed ∈ placedFiles ix files, placed.file.WellFormed ∧
      ∀ line ∈ placed.hunk.body, line.terminated := by
  induction files generalizing ix with
  | nil => simp [placedFiles]
  | cons file files ih =>
    obtain ⟨hfile, hfiles⟩ := forall_mem_cons.mp hwf
    refine forall_mem_append.mpr ⟨fun placed hplaced => ?_, ih hfiles⟩
    obtain ⟨rfl, entry, hentry, heq⟩ := placedHunks_file placed hplaced
    exact ⟨hfile.1, heq ▸ hfile.2 entry hentry⟩

variable {direction : Direction}

theorem build_placed (hwf : WellFormedDiff files) (h : Annotates files diff)
    (hplaced : placed ∈ placedFiles 0 files) (hpicked : Picked selected placed) :
    buildHunkSelection diff placed.ix selected direction.unselectedAdd direction.unselectedRemove =
      some (pickedSection direction (picks selected) placed.file placed.ix placed.hunk).flatten := by
  obtain ⟨hfile, hterm⟩ := placedFiles_file hwf.each placed hplaced
  obtain ⟨front, head, headers, mid, hline, body, back, hplace, hix⟩ :=
    annotated_stand hwf h placed hplaced
  rw [Picked, hix] at hpicked
  rw [hix]
  exact buildHunkSelection_place hfile hterm hplace hpicked

def patchAt (direction : Direction) (diff : List AnnotatedDiffLine) (selected : List ℕ) (k : ℕ) :
    List Char :=
  (buildHunkSelection diff k selected direction.unselectedAdd direction.unselectedRemove).getD []

theorem group_patch (hwf : WellFormedDiff files) (h : Annotates files diff) {group : ℕ × List ℕ}
    (hgroup : group ∈ byHunk diff selected) :
    patchAt direction diff group.2 group.1 = patchAt direction diff selected group.1 := by
  have hkey := mem_map_of_mem (f := Prod.fst) hgroup
  rw [byHunk_keys hwf h, mem_map] at hkey
  obtain ⟨placed, hmem, hix⟩ := hkey
  obtain ⟨hplaced, hpicked⟩ := mem_filter.mp hmem
  obtain ⟨k, ixs⟩ := group
  dsimp only at hix
  subst hix
  have hagree : ∀ j line, placed.hunk.body[j]? = some line → line.marker ≠ .context →
      picks ixs (placed.ix + 1 + j) = picks selected (placed.ix + 1 + j) :=
    fun j line hget hm => group_picks hwf h hplaced hgroup ⟨line, hget, hm⟩
  have hown : Picked ixs placed := hasPick_congr hagree hpicked
  rw [patchAt, patchAt, build_placed hwf h hplaced hown, build_placed hwf h hplaced hpicked,
    pickedSection, pickedSection, patchBody_congr hagree]

theorem sections_hunks (direction : Direction) (selected : List ℕ) (file : FileSection) (ix : ℕ)
    (hunks : List (List (List Char) × Hunk)) :
    ((placedHunks file ix hunks).filter (Picked selected)).flatMap (fun placed =>
      pickedSection direction (picks selected) placed.file placed.ix placed.hunk) =
      sectionHunks direction (picks selected) file ix hunks := by
  induction hunks generalizing ix with
  | nil => rfl
  | cons entry hunks ih =>
    obtain ⟨skipped, hunk⟩ := entry
    rw [placedHunks, sectionHunks, ← ih]
    cases hpick : hasPick (picks selected) (ix + 1) hunk.body with
    | false =>
      rw [filter_cons_of_neg (by rw [Picked, hpick]; exact Bool.false_ne_true)]
      rfl
    | true =>
      rw [filter_cons_of_pos (by rw [Picked, hpick]), flatMap_cons, if_pos rfl]

theorem sections_files (direction : Direction) (selected : List ℕ) (ix : ℕ)
    (files : List FileSection) :
    ((placedFiles ix files).filter (Picked selected)).flatMap (fun placed =>
      pickedSection direction (picks selected) placed.file placed.ix placed.hunk) =
      sectionFiles direction (picks selected) ix files := by
  induction files generalizing ix with
  | nil => rfl
  | cons file files ih =>
    rw [placedFiles, sectionFiles, filter_append, flatMap_append, sections_hunks, ih]

theorem groups_out (direction : Direction) (hwf : WellFormedDiff files)
    (h : Annotates files diff) (selected : List ℕ) :
    (byHunk diff selected).flatMap (fun group => patchAt direction diff group.2 group.1) =
      (sectionFiles direction (picks selected) 0 files).flatten := by
  calc (byHunk diff selected).flatMap (fun group => patchAt direction diff group.2 group.1)
      = (byHunk diff selected).flatMap (fun group => patchAt direction diff selected group.1) :=
        flatMap_congr fun group hgroup => group_patch hwf h hgroup
    _ = ((byHunk diff selected).map Prod.fst).flatMap (patchAt direction diff selected) := by
        rw [flatMap_map]
    _ = ((placedFiles 0 files).filter (Picked selected)).flatMap (fun placed =>
          patchAt direction diff selected placed.ix) := by
        rw [byHunk_keys hwf h, flatMap_map]
    _ = ((placedFiles 0 files).filter (Picked selected)).flatMap (fun placed =>
          (pickedSection direction (picks selected) placed.file placed.ix
            placed.hunk).flatten) := by
        refine flatMap_congr fun placed hmem => ?_
        obtain ⟨hplaced, hpicked⟩ := mem_filter.mp hmem
        rw [patchAt, build_placed hwf h hplaced hpicked]
        rfl
    _ = (sectionFiles direction (picks selected) 0 files).flatten := by
        rw [← sections_files, flatMap_def, flatMap_def, flatten_flatten, map_map]
        rfl

variable {d : Direction} {s : List ℕ}

theorem sectionHunks_solid {f : FileSection} (ix : ℕ) (hunks : List (List (List Char) × Hunk)) :
    sectionHunks d (picks s) f ix hunks = [] ∨ ∃ more, sectionHunks d (picks s) f ix hunks =
        fullLine f.diffGit :: more := by
  induction hunks generalizing ix with
  | nil => exact .inl rfl
  | cons entry hunks ih =>
    obtain ⟨skipped, hunk⟩ := entry
    rw [sectionHunks]
    split
    · exact .inr ⟨_, rfl⟩
    · rw [nil_append]
      exact ih _

theorem sectionFiles_solid (ix : ℕ)
    {files : List FileSection} (hwf : ∀ file ∈ files, file.WellFormed ∧ Terminated file) :
    sectionFiles d (picks s) ix files = [] ∨
      trim (sectionFiles d (picks s) ix files).flatten ≠ [] := by
  induction files generalizing ix with
  | nil => exact .inl rfl
  | cons file files ih =>
    obtain ⟨hfile, hfiles⟩ := forall_mem_cons.mp hwf
    rw [sectionFiles]
    rcases sectionHunks_solid (d := d) (s := s)
      (f := file) (ix + 1 + file.headers.length) file.hunks with hnil | ⟨more, hmore⟩
    · rw [hnil, nil_append]
      exact ih _ hfiles
    · obtain ⟨rest, hrest⟩ := startsWith_iff.mp hfile.1.diffGit
      right
      rw [hmore, fullLine, hrest]
      exact trim_solid (c := 'd') mem_cons_self rfl

theorem buildAcrossHunks_eq (direction : Direction) (hwf : WellFormedDiff files)
    (h : Annotates files diff) (selected : List ℕ) :
    buildAcrossHunks (fun k ixs => buildHunkSelection diff k ixs direction.unselectedAdd
      direction.unselectedRemove) diff selected =
      if sectionFiles direction (picks selected) 0 files = [] then none
      else some (sectionFiles direction (picks selected) 0 files).flatten := by
  have hout := groups_out direction hwf h selected
  have hsolid := sectionFiles_solid (d := direction) (s := selected) 0 hwf.each
  simp only [patchAt] at hout
  unfold buildAcrossHunks
  by_cases hnil : sectionFiles direction (picks selected) 0 files = []
  · rw [hnil] at hout
    rw [if_pos hnil]
    split
    · rfl
    · simp only [hout, flatten_nil]
      rfl
  · have hsel : selected ≠ [] := by
      rintro rfl
      have hempty : (sectionFiles direction (picks []) 0 files).flatten = [] := hout.symm
      rcases hsolid with heq | hne
      · exact hnil heq
      · rw [hempty] at hne
        exact hne rfl
    rw [if_neg hnil, if_neg hsel]
    simp only [hout]
    rw [if_neg (hsolid.resolve_left hnil)]

end

def applyBuilt (apply : List Char → (List Char → List Char) → Option (List Char → List Char))
    (patch : Option (List Char)) (texts : List Char → List Char) :
    Option (List Char → List Char) :=
  match patch with
  | none => some texts
  | some patch => apply patch texts

def Leaves (run : Option (List Char → List Char)) (texts : List Char → List Char)
    (files : List (List Char × List (List Char))) : Prop :=
  ∃ result, run = some result ∧ (∀ entry ∈ files, result entry.1 = entry.2.flatten) ∧
    ∀ key ∉ files.map Prod.fst, result key = texts key

structure StagesSelection (files : List FileSection) (diff : List AnnotatedDiffLine)
    (selected : List ℕ) : Prop where
  forward : ∀ texts : List Char → List Char,
    (∀ file ∈ files, texts file.key = file.oldText) →
    Leaves (applyBuilt applyPatch
      (buildUnifiedPatchForSelectedLinesAcrossHunks diff selected) texts) texts
      (filesWith (stagedBody (picks selected)) 0 files)
  reverse : ∀ texts : List Char → List Char,
    (∀ file ∈ files, texts file.key = file.newText) →
    Leaves (applyBuilt applyPatchReverse
      (buildUnifiedPatchForSelectedLinesAcrossHunksForReverseApply diff selected) texts) texts
      (filesWith (undoneBody (picks selected)) 0 files)

theorem applyTo_files (pick : ℕ → Bool) {files : List FileSection}
    {texts : List Char → List Char} (hkeys : (files.map FileSection.key).Nodup)
    (htexts : ∀ file ∈ files, splitInclusive (texts file.key) = file.oldLines) :
    Leaves (applyTo (pickedFiles .forward pick 0 files) texts) texts
      (filesWith (stagedBody pick) 0 files) := by
  obtain ⟨result, hrun, hlines, hframe⟩ := applyHunks_files pick files (i := 0)
    (s := fun file => ⟨splitInclusive (texts file), 0⟩) hkeys
    (fun file hfile => by rw [htexts file hfile])
  refine ⟨fun file => (result file).lines.flatten, by rw [applyTo, hrun]; rfl,
    fun entry hentry => congrArg flatten (hlines entry hentry), fun key hkey => ?_⟩
  rw [filesWith_keys] at hkey
  have hsame := congrArg (fun st => st.lines.flatten) (hframe key hkey)
  exact hsame.trans (splitInclusive_flatten (texts key))

theorem applyTo_nil (texts : List Char → List Char) : applyTo [] texts = some texts := by
  simp only [applyTo, applyHunks, Option.map_some, splitInclusive_flatten]

section
variable {files : List FileSection} {diff : List AnnotatedDiffLine}

theorem read_sections (direction : Direction) (hwf : WellFormedDiff files) (pick : ℕ → Bool) :
    readPatch [] (splitInclusive (sectionFiles direction pick 0 files).flatten) =
      pickedFiles direction pick 0 files := by
  rw [splitInclusive_lines (sectionFiles_full hwf.each 0)]
  exact readPatch_files (fun file hfile => (hwf.each file hfile).1) 0 []

theorem applyBuilt_forward (hwf : WellFormedDiff files) (h : Annotates files diff)
    (selected : List ℕ) (texts : List Char → List Char) :
    applyBuilt applyPatch (buildUnifiedPatchForSelectedLinesAcrossHunks diff selected) texts =
      applyTo (pickedFiles .forward (picks selected) 0 files) texts := by
  have hread := read_sections .forward hwf (picks selected)
  have hbuild := buildAcrossHunks_eq .forward hwf h selected
  have hbuilt : buildUnifiedPatchForSelectedLinesAcrossHunks diff selected = _ := hbuild
  rw [hbuilt]
  split
  · rename_i hnil
    rw [hnil] at hread
    rw [← hread]
    exact (applyTo_nil texts).symm
  · rw [applyBuilt, applyPatch, hread]

theorem applyBuilt_reverse (hwf : WellFormedDiff files) (h : Annotates files diff)
    (selected : List ℕ) (texts : List Char → List Char) :
    applyBuilt applyPatchReverse
        (buildUnifiedPatchForSelectedLinesAcrossHunksForReverseApply diff selected) texts =
      applyTo (pickedFiles .forward (picks selected) 0 (files.map FileSection.flip)) texts := by
  have hread := read_sections .reverse hwf (picks selected)
  have hbuild := buildAcrossHunks_eq .reverse hwf h selected
  have hbuilt : buildUnifiedPatchForSelectedLinesAcrossHunksForReverseApply diff selected = _ :=
    hbuild
  rw [hbuilt, ← pickedFiles_flip]
  split
  · rename_i hnil
    rw [hnil] at hread
    rw [← hread]
    exact (applyTo_nil texts).symm
  · rw [applyBuilt, applyPatchReverse, hread]

theorem flip_keys (files : List FileSection) :
    (files.map FileSection.flip).map FileSection.key = files.map FileSection.key := by
  rw [map_map]
  rfl

theorem selected_lines_are_staged (hwf : WellFormedDiff files) (h : Annotates files diff)
    (selected : List ℕ) : StagesSelection files diff selected where
  forward texts htexts := by
    rw [applyBuilt_forward hwf h]
    refine applyTo_files (picks selected) hwf.keys fun file hfile => ?_
    rw [htexts file hfile]
    exact (hwf.each file hfile).1.old
  reverse texts htexts := by
    rw [applyBuilt_reverse hwf h, ← filesWith_flip]
    refine applyTo_files (picks selected) (by rw [flip_keys]; exact hwf.keys) fun file hfile => ?_
    obtain ⟨source, hsource, rfl⟩ := mem_map.mp hfile
    have htext := htexts source hsource
    have hkey : source.flip.key = source.key := rfl
    rw [hkey, htext, flip_oldLines]
    exact (hwf.each source hsource).1.new

end

def twoHunks : FileSection where
  diffGit := "diff --git a/a b/a".toList
  headers := ["--- a/a".toList, "+++ b/a".toList]
  hunks := [([], ⟨decimal 1, decimal 1, [], [⟨.remove, ['a'], true⟩, ⟨.add, ['b'], true⟩]⟩),
    ([['c', '\n']], ⟨decimal 2 ++ ',' :: decimal 0, decimal 3, [], [⟨.add, ['d'], true⟩]⟩)]
  tail := []

theorem twoHunks_wellFormed : WellFormedDiff [twoHunks] where
  each := forall_mem_singleton.mpr
    ⟨{ diffGit := by decide
       headers := by decide
       unbroken := by decide
       bodies := by decide
       placed := ⟨.single, .single, .counted 0, .single, trivial⟩
       old := by decide
       new := by decide }, by unfold Terminated; decide⟩
  keys := by decide

def twoHunksDiff : List AnnotatedDiffLine := annotateUnified (fromUnified (diffText [twoHunks]))

theorem twoHunks_annotated : Annotates [twoHunks] twoHunksDiff :=
  .cons ⟨rfl, rfl⟩ <| .cons ⟨rfl, .inl rfl⟩ <| .cons ⟨rfl, .inl rfl⟩ <| .cons ⟨rfl, rfl⟩ <|
    .cons ⟨rfl, rfl⟩ <| .cons ⟨rfl, rfl⟩ <| .cons ⟨rfl, rfl⟩ <| .cons ⟨rfl, rfl⟩ .nil

theorem half_a_replacement_is_staged : StagesSelection [twoHunks] twoHunksDiff [5, 7] :=
  selected_lines_are_staged twoHunks_wellFormed twoHunks_annotated [5, 7]

theorem stagedBody_rest {pick rest : ℕ → Bool} {ix : ℕ} {body : List BodyLine}
    (h : ∀ j line, body[j]? = some line → line.marker ≠ .context →
      rest (ix + j) = !pick (ix + j)) : undoneBody rest ix body = stagedBody pick ix body := by
  induction body generalizing ix with
  | nil => rfl
  | cons line body ih =>
    have hbody := @ih (ix + 1) fun j found hget hmarker => by
      rw [Nat.add_assoc, Nat.add_comm 1 j]
      exact h (j + 1) found hget hmarker
    have hline := h 0 line rfl
    rw [undoneBody, stagedBody, hbody]
    cases hmarker : line.marker with
    | context => rfl
    | remove => simp_all
    | add => simp_all

theorem filesWith_congr {f g : ℕ → List BodyLine → List (List Char)} {ix : ℕ}
    {files : List FileSection} (h : ∀ placed ∈ placedFiles ix files,
      f (placed.ix + 1) placed.hunk.body = g (placed.ix + 1) placed.hunk.body) :
    filesWith f ix files = filesWith g ix files := by
  have hhunks : ∀ (file : FileSection) hunks ix, (∀ placed ∈ placedHunks file ix hunks,
      f (placed.ix + 1) placed.hunk.body = g (placed.ix + 1) placed.hunk.body) →
        hunkLinesWith f ix hunks = hunkLinesWith g ix hunks := by
    intro file hunks
    induction hunks with
    | nil => exact fun _ _ => rfl
    | cons entry hunks ih =>
      intro ix h
      obtain ⟨hfirst, hrest⟩ := forall_mem_cons.mp h
      dsimp only at hfirst
      rw [hunkLinesWith, hunkLinesWith, hfirst, ih _ hrest]
  induction files generalizing ix with
  | nil => rfl
  | cons file files ih =>
    obtain ⟨hfile, hfiles⟩ := forall_mem_append.mp h
    rw [filesWith, filesWith, hhunks file _ _ hfile, ih hfiles]

theorem staging_meets_discarding {files : List FileSection} {diff : List AnnotatedDiffLine}
    (hwf : WellFormedDiff files) (h : Annotates files diff) {chosen rest : List ℕ}
    (hrest : ∀ placed ∈ diff.zipIdx, placed.1.kind = .add ∨ placed.1.kind = .remove →
      (placed.2 ∈ rest ↔ placed.2 ∉ chosen)) {old new : List Char → List Char}
    (hold : ∀ file ∈ files, old file.key = file.oldText)
    (hnew : ∀ file ∈ files, new file.key = file.newText) :
    ∃ contents, contents.map Prod.fst = files.map FileSection.key ∧
      Leaves (applyBuilt applyPatch
        (buildUnifiedPatchForSelectedLinesAcrossHunks diff chosen) old) old contents ∧
      Leaves (applyBuilt applyPatchReverse
        (buildUnifiedPatchForSelectedLinesAcrossHunksForReverseApply diff rest) new) new
        contents := by
  have hsame : filesWith (undoneBody (picks rest)) 0 files =
      filesWith (stagedBody (picks chosen)) 0 files := by
    refine filesWith_congr fun placed hplaced => stagedBody_rest fun j source hget hmarker => ?_
    obtain ⟨line, hline, hof⟩ := stands_line (annotated_stand hwf h placed hplaced) hget
    have hkind : line.kind = source.marker.kind := hof.2
    have hmem := hrest (line, _) (mem_zipIdx_iff_getElem?.mpr hline) (hkind ▸ kind_changed.mpr hmarker)
    simp only [picks, hmem, decide_not]
  refine ⟨filesWith (stagedBody (picks chosen)) 0 files, filesWith_keys _ 0 files, ?_, ?_⟩
  · rw [applyBuilt_forward hwf h]
    refine applyTo_files (picks chosen) hwf.keys fun file hfile => ?_
    rw [hold file hfile]
    exact (hwf.each file hfile).1.old
  · rw [applyBuilt_reverse hwf h, ← hsame, ← filesWith_flip]
    refine applyTo_files (picks rest) (by rw [flip_keys]; exact hwf.keys) fun flipped hmem => ?_
    obtain ⟨file, hfile, rfl⟩ := mem_map.mp hmem
    rw [flip_oldLines, ← (hwf.each file hfile).1.new]
    exact congrArg splitInclusive (hnew file hfile)

theorem staging_one_change_meets_discarding_two : ∃ contents,
    contents.map Prod.fst = [twoHunks.key] ∧
      Leaves (applyBuilt applyPatch (buildUnifiedPatchForSelectedLinesAcrossHunks twoHunksDiff [5])
        fun _ => twoHunks.oldText) (fun _ => twoHunks.oldText) contents ∧
      Leaves (applyBuilt applyPatchReverse
        (buildUnifiedPatchForSelectedLinesAcrossHunksForReverseApply twoHunksDiff [4, 7])
          fun _ => twoHunks.newText) (fun _ => twoHunks.newText) contents :=
  staging_meets_discarding twoHunks_wellFormed twoHunks_annotated (by decide)
    (forall_mem_singleton.mpr rfl) (forall_mem_singleton.mpr rfl)

end GitComet.Unified
