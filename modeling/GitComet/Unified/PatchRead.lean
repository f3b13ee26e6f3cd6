import GitComet.Unified.Staged

namespace GitComet.Unified
open Text List Option

def fullLine (line : List Char) : List Char := line ++ ['\n']

def printLine (entry : Marker × List Char) : List Char := entry.1.char :: entry.2

def pickedSection (direction : Direction) (pick : ℕ → Bool) (file : FileSection) (ix : ℕ)
    (hunk : Hunk) : List (List Char) :=
  fullLine file.diffGit :: file.headers.map fullLine ++ fullLine hunk.header ::
    (patchBody direction pick (ix + 1) hunk.body).map printLine

def sectionHunks (direction : Direction) (pick : ℕ → Bool) (file : FileSection) (ix : ℕ) :
    List (List (List Char) × Hunk) → List (List Char)
  | [] => []
  | (_, hunk) :: rest =>
    (if hasPick pick (ix + 1) hunk.body then pickedSection direction pick file ix hunk else []) ++
      sectionHunks direction pick file (ix + 1 + hunk.body.length) rest

def sectionFiles (direction : Direction) (pick : ℕ → Bool) (ix : ℕ) :
    List FileSection → List (List Char)
  | [] => []
  | file :: files =>
    sectionHunks direction pick file (ix + 1 + file.headers.length) file.hunks ++
      sectionFiles direction pick (ix + file.rendered.length) files

theorem startsWith_fullLine {mark : List Char} (h : '\n' ∉ mark) (line : List Char) :
    startsWith (fullLine line) mark = startsWith line mark := by
  rw [Bool.eq_iff_iff, startsWith_iff, startsWith_iff]
  constructor
  · rintro ⟨rest, hrest⟩
    cases rest using reverseRecOn with
    | nil =>
      rw [append_nil] at hrest
      exact absurd (hrest ▸ mem_append_right _ mem_cons_self) h
    | append_singleton rest d =>
      rw [← append_assoc] at hrest
      exact ⟨rest, (append_inj' hrest rfl).1⟩
  · rintro ⟨rest, rfl⟩
    exact ⟨rest ++ ['\n'], by rw [fullLine, append_assoc]⟩

theorem patchLine_printLine (entry : Marker × List Char) :
    patchLine (printLine entry) = some entry := by
  obtain ⟨marker, raw⟩ := entry
  cases marker <;> rfl

theorem printLine_not_file (entry : Marker × List Char) :
    startsWith (printLine entry) "diff --git ".toList = false := by
  obtain ⟨marker, raw⟩ := entry
  cases marker <;> rfl

theorem printLine_not_hunk (entry : Marker × List Char) : hunkStarts (printLine entry) = none := by
  obtain ⟨marker, raw⟩ := entry
  cases marker <;> rfl

variable {rest : List (List Char)}

theorem bodyOf_printed (body : List (Marker × List Char))
    (hrest : ∀ line ∈ rest.head?, patchLine line = none) :
    bodyOf (body.map printLine ++ rest) = body := by
  induction body with
  | nil =>
    cases rest with
    | nil => rfl
    | cons line rest =>
      have hline := hrest line rfl
      simp only [map_nil, nil_append, bodyOf, hline]
  | cons entry body ih =>
    simp only [map_cons, cons_append, bodyOf, patchLine_printLine, ih]

theorem readPatch_printed (file : List Char) (body : List (Marker × List Char))
    (rest : List (List Char)) :
    readPatch file (body.map printLine ++ rest) = readPatch file rest := by
  induction body with
  | nil => rfl
  | cons entry body ih =>
    rw [map_cons, cons_append, readPatch, printLine_not_file, printLine_not_hunk]
    exact ih

theorem readPatch_headers {headers : List (List Char)}
    (h : ∀ line ∈ headers, ¬ startsWith line "diff --git ".toList ∧
      ¬ startsWith line "@@".toList) (file : List Char) (rest : List (List Char)) :
    readPatch file (headers.map fullLine ++ rest) = readPatch file rest := by
  induction headers with
  | nil => rfl
  | cons line headers ih =>
    obtain ⟨⟨hfile, hhunk⟩, htail⟩ := forall_mem_cons.mp h
    have hnofile : startsWith (fullLine line) "diff --git ".toList = false := by
      rw [startsWith_fullLine (by decide)]
      exact Bool.eq_false_iff.mpr hfile
    have hnohunk : hunkStarts (fullLine line) = none := by
      have hno : startsWith (fullLine line) ['@', '@', ' ', '-'] = false := by
        rw [Bool.eq_false_iff, ne_eq, startsWith_iff]
        rintro ⟨more, hmore⟩
        have hmark : startsWith (fullLine line) "@@".toList :=
          startsWith_iff.mpr ⟨' ' :: '-' :: more, hmore⟩
        rw [startsWith_fullLine (by decide)] at hmark
        exact hhunk hmark
      simp [hunkStarts, stripPrefix, hno]
    rw [map_cons, cons_append, readPatch, hnofile, hnohunk]
    exact ih htail

variable {oldStart oldCount newStart newCount : ℕ} {hunk : Hunk}

section
variable {start count : ℕ} {range : List Char}

theorem takeWhile_digits {digits : List Char} (h : ∀ c ∈ digits, c.isDigit) {d : Char}
    (hd : d.isDigit = false) (rest : List Char) :
    (digits ++ d :: rest).takeWhile Char.isDigit = digits := by
  rw [takeWhile_append_of_pos h, takeWhile_cons_of_neg (by simp [hd]), append_nil]

theorem rangeNumber_range (h : RangeText start count range) (rest : List Char) :
    rangeNumber (range ++ ' ' :: rest) = some start := by
  have hdigits : (range ++ ' ' :: rest).takeWhile Char.isDigit = decimal start := by
    cases h with
    | counted =>
      rw [append_assoc, cons_append]
      exact takeWhile_digits (fun c hc => decimal_digit hc) rfl _
    | single => exact takeWhile_digits (fun c hc => decimal_digit hc) rfl _
  rw [rangeNumber]
  simp only [hdigits]
  rw [if_neg (decimal_ne_nil start), decimal, Nat.ofDigitChars_ten_toDigits]

theorem range_unspaced (h : RangeText start count range) (rest : List Char) :
    (range ++ ' ' :: rest).dropWhile (· ≠ ' ') = ' ' :: rest := by
  have hrange : ¬ RangeChar ' ' := by simp [RangeChar]
  rw [dropWhile_append_of_pos, dropWhile_cons_of_neg (by simp)]
  intro c hc
  exact decide_eq_true (rangeChar_ne (rangeText_chars h c hc) hrange)

theorem hunkStarts_header (hold : RangeText oldStart oldCount hunk.oldRange)
    (hnew : RangeText newStart newCount hunk.newRange) :
    hunkStarts (fullLine hunk.header) = some (oldStart, newStart) := by
  have hline : fullLine hunk.header = ['@', '@', ' ', '-'] ++ (hunk.oldRange ++ ' ' ::
      '+' :: (hunk.newRange ++ ' ' :: '@' :: '@' :: (hunk.heading ++ ['\n']))) := by
    simp [fullLine, Hunk.header, headerLine]
  have hplus := stripPrefix_append [' ', '+']
    (hunk.newRange ++ ' ' :: '@' :: '@' :: (hunk.heading ++ ['\n']))
  simp only [cons_append, nil_append] at hplus
  rw [hunkStarts, hline, stripPrefix_append]
  simp only [bind_eq_bind, bind_some, range_unspaced hold, hplus,
    rangeNumber_range hold, rangeNumber_range hnew]

end

theorem hunkStarts_not_file (hunk : Hunk) :
    startsWith (fullLine hunk.header) "diff --git ".toList = false := rfl

variable {direction : Direction} {pick : ℕ → Bool} {file : FileSection}

theorem readPatch_section (h : file.WellFormed) (hold : RangeText oldStart oldCount hunk.oldRange)
    (hnew : RangeText newStart newCount hunk.newRange) (ix : ℕ) (current : List Char)
    (hrest : ∀ line ∈ rest.head?, patchLine line = none) :
    readPatch current (pickedSection direction pick file ix hunk ++ rest) =
      ⟨file.key, oldStart, newStart, patchBody direction pick (ix + 1) hunk.body⟩ ::
        readPatch file.key rest := by
  have hfile : startsWith (fullLine file.diffGit) "diff --git ".toList := by
    rw [startsWith_fullLine (by decide), h.diffGit]
  rw [pickedSection, append_assoc, cons_append, readPatch, if_pos hfile,
    readPatch_headers h.headers, cons_append, readPatch, hunkStarts_not_file,
    hunkStarts_header hold hnew]
  simp only [Bool.false_eq_true, if_false]
  rw [bodyOf_printed _ hrest, readPatch_printed]
  rfl

theorem diffGit_not_body (h : file.WellFormed) : patchLine (fullLine file.diffGit) = none := by
  obtain ⟨rest, hrest⟩ := startsWith_iff.mp h.diffGit
  rw [hrest]
  rfl

theorem sectionHunks_head (h : file.WellFormed) (ix : ℕ) (hunks : List (List (List Char) × Hunk))
    (hrest : ∀ line ∈ rest.head?, patchLine line = none) :
    ∀ line ∈ (sectionHunks direction pick file ix hunks ++ rest).head?, patchLine line = none := by
  induction hunks generalizing ix with
  | nil => exact hrest
  | cons entry hunks ih =>
    obtain ⟨skipped, hunk⟩ := entry
    rw [sectionHunks]
    split
    · rintro line hline
      cases hline
      exact diffGit_not_body h
    · rw [nil_append]
      exact ih _

variable {files : List FileSection}

theorem sectionFiles_head (h : ∀ file ∈ files, file.WellFormed) (ix : ℕ) :
    ∀ line ∈ (sectionFiles direction pick ix files).head?, patchLine line = none := by
  induction files generalizing ix with
  | nil => simp [sectionFiles]
  | cons file files ih =>
    obtain ⟨hfile, hfiles⟩ := forall_mem_cons.mp h
    exact sectionHunks_head hfile _ _ (ih hfiles _)

theorem readPatch_hunks {d : Direction} {p : ℕ → Bool} (h : file.WellFormed)
    (hunks : List (List (List Char) × Hunk)) {o n i : ℕ} (hplaced : WellPlaced o n hunks)
    (current : List Char) (hrest : ∀ line ∈ rest.head?, patchLine line = none) :
    ∃ last, readPatch current (sectionHunks d p file i hunks ++ rest) =
      pickedHunks d p file.key o n i hunks ++ readPatch last rest := by
  induction hunks generalizing o n i current with
  | nil => exact ⟨current, rfl⟩
  | cons entry hunks ih =>
    obtain ⟨skipped, hunk⟩ := entry
    obtain ⟨hold, hnew, hplaced⟩ := hplaced
    rw [sectionHunks, pickedHunks]
    split
    · obtain ⟨last, hlast⟩ := ih (i := i + 1 + hunk.body.length) hplaced file.key
      refine ⟨last, ?_⟩
      rw [append_assoc, readPatch_section h hold hnew i current
        (sectionHunks_head h _ _ hrest), hlast]
      rfl
    · exact ih hplaced current

theorem readPatch_files (h : ∀ file ∈ files, file.WellFormed) (ix : ℕ) (current : List Char) :
    readPatch current (sectionFiles direction pick ix files) =
      pickedFiles direction pick ix files := by
  induction files generalizing ix current with
  | nil => rfl
  | cons file files ih =>
    obtain ⟨hfile, hfiles⟩ := forall_mem_cons.mp h
    obtain ⟨last, hlast⟩ := readPatch_hunks (d := direction) (p := pick) hfile
      file.hunks (i := ix + 1 + file.headers.length) hfile.placed current
      (sectionFiles_head hfiles (ix + file.rendered.length))
    rw [sectionFiles, pickedFiles, hlast, ih hfiles]

def Terminated (file : FileSection) : Prop :=
  ∀ entry ∈ file.hunks, ∀ line ∈ entry.2.body, line.terminated = true

theorem fullLine_full {line : List Char} (h : '\n' ∉ line) : FullLine (fullLine line) :=
  ⟨line, rfl, h⟩

theorem patchBody_mem {ix : ℕ} {body : List BodyLine}
    {entry : Marker × List Char} (h : entry ∈ patchBody direction pick ix body) :
    ∃ line ∈ body, entry.2 = line.raw := by
  induction body generalizing ix with
  | nil => simp [patchBody] at h
  | cons line body ih =>
    rw [patchBody, mem_append] at h
    rcases h with h | h
    · rw [mem_toList, map_eq_some_iff] at h
      obtain ⟨marker, _, rfl⟩ := h
      exact ⟨line, mem_cons_self, rfl⟩
    · obtain ⟨other, hother, heq⟩ := ih h
      exact ⟨other, mem_cons_of_mem _ hother, heq⟩

theorem marker_char_unbroken (marker : Marker) : marker.char ≠ '\n' := by
  cases marker <;> decide

theorem pickedSection_full (h : file.WellFormed) (hterm : Terminated file)
    {entry : List (List Char) × Hunk} (hentry : entry ∈ file.hunks) (ix : ℕ) :
    ∀ line ∈ pickedSection direction pick file ix entry.2, FullLine line := by
  have hrendered : ∀ line ∈ entry.2.rendered, '\n' ∉ line := fun line hline =>
    h.unbroken line (mem_append_right _ (mem_flatMap.mpr ⟨entry, hentry, hline⟩))
  intro line hline
  rw [pickedSection, mem_append, mem_cons, mem_cons] at hline
  rcases hline with (rfl | hline) | rfl | hline
  · exact fullLine_full (h.unbroken _ (mem_append_left _ mem_cons_self))
  · obtain ⟨header, hheader, rfl⟩ := mem_map.mp hline
    exact fullLine_full (h.unbroken _ (mem_append_left _ (mem_cons_of_mem _ hheader)))
  · exact fullLine_full (hrendered _ mem_cons_self)
  · obtain ⟨printed, hprinted, rfl⟩ := mem_map.mp hline
    obtain ⟨source, hsource, heq⟩ := patchBody_mem hprinted
    have hcontent : '\n' ∉ source.marker.char :: source.content :=
      hrendered _ (mem_cons_of_mem _ (mem_flatMap.mpr
        ⟨source, hsource, mem_cons_self⟩))
    refine ⟨printed.1.char :: source.content, ?_, ?_⟩
    · rw [printLine, heq, BodyLine.raw, hterm entry hentry source hsource]
      rfl
    · rw [mem_cons, not_or] at hcontent ⊢
      exact ⟨(marker_char_unbroken _).symm, hcontent.2⟩

theorem sectionHunks_full (h : file.WellFormed) (hterm : Terminated file) (ix : ℕ)
    {hunks : List (List (List Char) × Hunk)} (hhunks : hunks ⊆ file.hunks) :
    ∀ line ∈ sectionHunks direction pick file ix hunks, FullLine line := by
  induction hunks generalizing ix with
  | nil => simp [sectionHunks]
  | cons entry hunks ih =>
    obtain ⟨hentry, hrest⟩ := cons_subset.mp hhunks
    intro line hline
    rw [sectionHunks, mem_append] at hline
    rcases hline with hline | hline
    · split at hline
      · exact pickedSection_full h hterm hentry ix line hline
      · cases hline
    · exact ih _ hrest line hline

theorem sectionFiles_full (h : ∀ file ∈ files, file.WellFormed ∧ Terminated file) (ix : ℕ) :
    ∀ line ∈ sectionFiles direction pick ix files, FullLine line := by
  induction files generalizing ix with
  | nil => simp [sectionFiles]
  | cons file files ih =>
    obtain ⟨hfile, hfiles⟩ := forall_mem_cons.mp h
    intro line hline
    rw [sectionFiles, mem_append] at hline
    exact hline.elim
      (sectionHunks_full hfile.1 hfile.2 _ (Subset.refl _) line) (ih hfiles _ line)

end GitComet.Unified
