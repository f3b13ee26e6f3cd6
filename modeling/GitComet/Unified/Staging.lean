import GitComet.Unified.SelectionPatch

variable {body : List BodyLine} {hunks : List (List (List Char) × Hunk)}
  {lines : List AnnotatedDiffLine} {files : List FileSection}

namespace GitComet.Unified
open Text KeyGroups List Nat

structure Placed where
  file : FileSection
  ix : ℕ
  hunk : Hunk

def placedHunks (file : FileSection) (ix : ℕ) : List (List (List Char) × Hunk) → List Placed
  | [] => []
  | (_, hunk) :: rest => ⟨file, ix, hunk⟩ :: placedHunks file (ix + 1 + hunk.body.length) rest

def placedFiles (ix : ℕ) : List FileSection → List Placed
  | [] => []
  | file :: files =>
    placedHunks file (ix + 1 + file.headers.length) file.hunks ++
      placedFiles (ix + file.rendered.length) files

def Stands (diff : List AnnotatedDiffLine) (placed : Placed) : Prop :=
  ∃ front head headers mid hline body back,
    HunkPlace diff placed.file placed.hunk front head headers mid hline body back ∧
      placed.ix = hunkIx front headers mid

def hunkSources (hunks : List (List (List Char) × Hunk)) : List (Role × List Char) :=
  hunks.flatMap fun entry => entry.2.sources

theorem sources_length (hunk : Hunk) : hunk.sources.length = hunk.body.length + 1 := by
  simp [Hunk.sources]

theorem hunkSources_cons (entry : List (List Char) × Hunk)
    (hunks : List (List (List Char) × Hunk)) :
    hunkSources (entry :: hunks) = entry.2.sources ++ hunkSources hunks := rfl

theorem body_rendered_length (h : ∀ line ∈ body, line.terminated) :
    (body.flatMap BodyLine.rendered).length = body.length := by
  induction body with
  | nil => rfl
  | cons line body ih =>
    obtain ⟨hline, hbody⟩ := forall_mem_cons.mp h
    rw [flatMap_cons, length_append, ih hbody, BodyLine.rendered, hline]
    simp [add_comm]

theorem hunks_rendered_length (h : ∀ entry ∈ hunks, ∀ line ∈ entry.2.body, line.terminated) :
    (hunks.flatMap fun entry => entry.2.rendered).length = (hunkSources hunks).length := by
  induction hunks with
  | nil => rfl
  | cons entry hunks ih =>
    obtain ⟨hentry, hrest⟩ := forall_mem_cons.mp h
    rw [flatMap_cons, length_append, ih hrest, hunkSources_cons, length_append,
      sources_length, Hunk.rendered, length_cons, body_rendered_length hentry]

theorem rendered_length {file : FileSection} (h : Terminated file) :
    file.rendered.length = 1 + file.headers.length + (hunkSources file.hunks).length := by
  rw [FileSection.rendered, length_append, hunks_rendered_length h, length_cons,
    add_comm 1]

theorem hunks_start (h : Forall₂ LineOf lines (hunkSources hunks)) :
    ∀ line ∈ lines.head?, isHunk line := by
  cases hunks with
  | nil =>
    cases h
    simp
  | cons entry hunks =>
    rw [hunkSources_cons, Hunk.sources, cons_append] at h
    cases h with
    | cons hline _ =>
      intro line hmem
      cases hmem
      exact lineOf_hunk hline

theorem hunks_plain {hunk : Hunk}
    (h : Forall₂ LineOf lines hunk.sources) : ∀ line ∈ lines, isFileHeader line = false := by
  rw [Hunk.sources] at h
  cases h with
  | cons hline hbody =>
    intro line hmem
    rcases mem_cons.mp hmem with rfl | hmem
    · exact hunk_not_file hline
    · exact (bodies_plain hbody line hmem).2

section
variable {diff front headers back : List AnnotatedDiffLine} {head : AnnotatedDiffLine}
  {file : FileSection}

variable (diff front back) in
theorem placedHunks_stand (hhead : LineOf head (.diffGit, file.diffGit))
    (hheaders : Forall₂ LineOf headers (file.headers.map (.header, ·)))
    (hback : ∀ line ∈ back.head?, (isHunk line || isFileHeader line))
    (hunks : List (List (List Char) × Hunk)) {m l : List AnnotatedDiffLine}
    (hplain : ∀ line ∈ m, isFileHeader line = false)
    (hstarts : ∀ line ∈ m.head?, isHunk line)
    (hlines : Forall₂ LineOf l (hunkSources hunks))
    (hdiff : diff = front ++ head :: headers ++ m ++ l ++ back) :
    ∀ placed ∈ placedHunks file (hunkIx front headers m) hunks, Stands diff placed := by
  induction hunks generalizing m l with
  | nil => simp [placedHunks]
  | cons entry hunks ih =>
    obtain ⟨skipped, hunk⟩ := entry
    rw [hunkSources_cons] at hlines
    obtain ⟨own, rest, rfl, hown, hrest⟩ := lineOf_append hlines
    have hownPlain := hunks_plain hown
    rw [Hunk.sources] at hown
    cases hown with
    | @cons hline _ body _ hhunk hbody =>
      have hlen : body.length = hunk.body.length := by
        have := hbody.length_eq
        rwa [length_map] at this
      rw [placedHunks]
      refine forall_mem_cons.mpr ⟨?_, ?_⟩
      · refine ⟨front, head, headers, m, hline, body, rest ++ back, ?_, rfl⟩
        refine ⟨by rw [hdiff]; simp, hhead, hheaders, hplain, hstarts, hhunk, hbody, ?_⟩
        intro line hmem
        cases hr : rest with
        | nil =>
          rw [hr] at hmem
          exact hback line hmem
        | cons first more =>
          rw [hr] at hmem
          obtain rfl := Option.some.inj hmem
          have hfirst := hunks_start hrest first (by rw [hr]; rfl)
          rw [hfirst, Bool.true_or]
      · have hnext := ih (m := m ++ hline :: body) (l := rest)
          (fun line hmem => (mem_append.mp hmem).elim (hplain line) (hownPlain line))
          (by
            intro line hmem
            cases hm : m with
            | nil =>
              rw [hm] at hmem
              cases hmem
              exact lineOf_hunk hhunk
            | cons first more =>
              rw [hm] at hmem
              exact hstarts line (by rw [hm]; exact hmem))
          hrest (by rw [hdiff]; simp)
        have hix : hunkIx front headers (m ++ hline :: body) =
            hunkIx front headers m + 1 + hunk.body.length := by
          simp [hunkIx, ← hlen]
          omega
        rwa [hix] at hnext

end

theorem files_start (hwf : ∀ file ∈ files, file.WellFormed)
    (h : Forall₂ LineOf lines (files.flatMap FileSection.sources)) :
    ∀ line ∈ lines.head?, (isHunk line || isFileHeader line) := by
  cases files with
  | nil =>
    cases h
    simp
  | cons file files =>
    rw [flatMap_cons, FileSection.sources, FileSection.headerSources, cons_append,
      cons_append] at h
    cases h with
    | cons hline _ =>
      intro line hmem
      cases hmem
      rw [isFileHeader, hline.1, (hwf file mem_cons_self).diffGit, Bool.or_true]

theorem placedFiles_stand {diff : List AnnotatedDiffLine} (files : List FileSection)
    (hwf : ∀ file ∈ files, file.WellFormed ∧ Terminated file)
    (front l : List AnnotatedDiffLine) (hdiff : diff = front ++ l)
    (h : Forall₂ LineOf l (files.flatMap FileSection.sources)) :
    ∀ placed ∈ placedFiles front.length files, Stands diff placed := by
  induction files generalizing front l with
  | nil => simp [placedFiles]
  | cons file files ih =>
    obtain ⟨hfile, hfiles⟩ := forall_mem_cons.mp hwf
    rw [flatMap_cons] at h
    obtain ⟨own, rest, rfl, hown, hrest⟩ := lineOf_append h
    rw [FileSection.sources] at hown
    obtain ⟨top, hunkLines, rfl, htop, hhunks⟩ := lineOf_append hown
    rw [FileSection.headerSources] at htop
    cases htop with
    | @cons head _ headers _ hhead hheaders =>
      have hlen : headers.length = file.headers.length := by
        have := hheaders.length_eq
        rwa [length_map] at this
      have hstand := placedHunks_stand diff front rest hhead
        hheaders (files_start (fun f hf => (hfiles f hf).1) hrest) file.hunks (m := [])
        (l := hunkLines) (by simp) (by simp) hhunks (by rw [hdiff]; simp)
      have hix : hunkIx front headers [] = front.length + 1 + file.headers.length := by
        simp [hunkIx, hlen]
      rw [hix] at hstand
      have hnext := ih hfiles (front ++ (head :: headers ++ hunkLines)) rest
        (by rw [hdiff]; simp) hrest
      have hcount : (front ++ (head :: headers ++ hunkLines)).length =
          front.length + file.rendered.length := by
        have hh := hhunks.length_eq
        rw [rendered_length hfile.2]
        simp only [length_append, length_cons, hlen, hh, hunkSources]
        omega
      rw [hcount] at hnext
      rw [placedFiles]
      exact forall_mem_append.mpr ⟨hstand, hnext⟩

end GitComet.Unified

namespace GitComet.Unified
open Text KeyGroups

def ChangeAt (placed : Placed) (j : ℕ) : Prop :=
  ∃ line, placed.hunk.body[j]? = some line ∧ line.marker ≠ .context

theorem hasPick_iff {pick : ℕ → Bool} {ix : ℕ} :
    hasPick pick ix body ↔
      ∃ j line, body[j]? = some line ∧ line.marker ≠ .context ∧ pick (ix + j) := by
  induction body generalizing ix with
  | nil => simp [hasPick]
  | cons line body ih =>
    rw [hasPick, Bool.or_eq_true, Bool.and_eq_true, decide_eq_true_eq, ih]
    constructor
    · rintro (⟨hm, hpick⟩ | ⟨j, l, hl, hm, hpick⟩)
      · exact ⟨0, line, rfl, hm, hpick⟩
      · exact ⟨j + 1, l, hl, hm, by rwa [add_assoc, add_comm 1] at hpick⟩
    · rintro ⟨j, l, hl, hm, hpick⟩
      cases j with
      | zero =>
        cases hl
        exact .inl ⟨hm, hpick⟩
      | succ j => exact .inr ⟨j, l, hl, hm, by rwa [add_assoc, add_comm 1]⟩

variable {i : ℕ}

theorem patchBody_congr {direction : Direction} {pick pick' : ℕ → Bool}
    (h : ∀ j line, body[j]? = some line → line.marker ≠ .context → pick (i + j) = pick' (i + j)) :
    patchBody direction pick i body = patchBody direction pick' i body := by
  induction body generalizing i with
  | nil => rfl
  | cons line body ih =>
    have hrest := ih (i := i + 1) fun j l hl hm => by
      have hnext := h (j + 1) l hl hm
      rwa [add_comm j, ← add_assoc] at hnext
    have hline : keptMarker direction (pick i) line.marker =
        keptMarker direction (pick' i) line.marker := by
      cases hm : line.marker with
      | context => rfl
      | remove =>
        have hpick : pick i = pick' i := h 0 line rfl (by simp [hm])
        rw [hpick]
      | add =>
        have hpick : pick i = pick' i := h 0 line rfl (by simp [hm])
        rw [hpick]
    rw [patchBody, patchBody, hline, hrest]

theorem kind_changed {marker : Marker} :
    (marker.kind = .add ∨ marker.kind = .remove) ↔ marker ≠ .context := by
  cases marker <;> simp [Marker.kind]

section
variable {file : FileSection}

theorem placedHunks_cover (h : List.Forall₂ LineOf lines (hunkSources hunks)) {x : ℕ}
    {line : AnnotatedDiffLine} (hget : lines[i]? = some line)
    (hkind : line.kind = .add ∨ line.kind = .remove) :
    ∃ placed ∈ placedHunks file x hunks, ∃ j, ChangeAt placed j ∧ x + i = placed.ix + 1 + j := by
  induction hunks generalizing lines i x with
  | nil =>
    cases h
    simp at hget
  | cons entry hunks ih =>
    obtain ⟨skipped, hunk⟩ := entry
    rw [hunkSources_cons] at h
    obtain ⟨own, rest, rfl, hown, hrest⟩ := lineOf_append h
    have hlen : own.length = hunk.body.length + 1 := hown.length_eq.trans (sources_length hunk)
    by_cases hi : i < own.length
    · rw [List.getElem?_append_left hi] at hget
      rw [Hunk.sources] at hown
      cases hown with
      | @cons hline _ body _ hhunk hbody =>
        cases i with
        | zero =>
          obtain rfl := Option.some.inj hget
          have hk : hline.kind = .hunk := hhunk.2
          rw [hk] at hkind
          simp at hkind
        | succ j =>
          refine ⟨⟨file, x, hunk⟩, List.mem_cons_self, j, ?_, by simp only; omega⟩
          have hj : body[j]? = some line := hget
          obtain ⟨hjlt, hjeq⟩ := List.getElem?_eq_some_iff.mp hj
          have hsource := hbody.get hjlt (hbody.length_eq ▸ hjlt)
          have hlt : j < hunk.body.length := by
            have hcount : body.length = (hunk.body.map BodyLine.source).length := hbody.length_eq
            rw [List.length_map] at hcount
            omega
          refine ⟨hunk.body[j], List.getElem?_eq_getElem hlt, ?_⟩
          simp only [List.get_eq_getElem, List.getElem_map, hjeq] at hsource
          have hk : line.kind = hunk.body[j].marker.kind := hsource.2
          rw [hk] at hkind
          exact kind_changed.mp hkind
    · rw [List.getElem?_append_right (Nat.le_of_not_lt hi)] at hget
      obtain ⟨placed, hplaced, j, hchange, heq⟩ := ih hrest (x := x + 1 + hunk.body.length) hget
      refine ⟨placed, List.mem_cons_of_mem _ hplaced, j, hchange, ?_⟩
      omega

theorem placedFiles_cover (hterm : ∀ file ∈ files, Terminated file)
    (h : List.Forall₂ LineOf lines (files.flatMap FileSection.sources)) {x : ℕ}
    {line : AnnotatedDiffLine} (hget : lines[i]? = some line)
    (hkind : line.kind = .add ∨ line.kind = .remove) :
    ∃ placed ∈ placedFiles x files, ∃ j, ChangeAt placed j ∧ x + i = placed.ix + 1 + j := by
  induction files generalizing lines i x with
  | nil =>
    cases h
    simp at hget
  | cons file files ih =>
    obtain ⟨hfile, hfiles⟩ := List.forall_mem_cons.mp hterm
    rw [List.flatMap_cons, FileSection.sources, List.append_assoc] at h
    obtain ⟨top, below, rfl, htop, hbelow⟩ := lineOf_append h
    obtain ⟨hunkLines, rest, rfl, hhunks, hrest⟩ := lineOf_append hbelow
    have htopLen : top.length = 1 + file.headers.length := by
      rw [htop.length_eq]
      simp [FileSection.headerSources, add_comm]
    have hhunksLen := hhunks.length_eq
    have hcount := rendered_length hfile
    rw [placedFiles]
    by_cases htopLt : i < top.length
    · rw [List.getElem?_append_left htopLt] at hget
      obtain ⟨source, hsource, hof⟩ := forall₂_mem htop (List.mem_of_getElem? hget)
      exfalso
      rw [FileSection.headerSources, List.mem_cons, List.mem_map] at hsource
      rcases hsource with rfl | ⟨header, _, rfl⟩
      · have hk : line.kind = .header := hof.2
        rw [hk] at hkind
        simp at hkind
      · rcases hof.2 with hk | hk <;> rw [hk] at hkind <;> simp at hkind
    rw [List.getElem?_append_right (Nat.le_of_not_lt htopLt)] at hget
    by_cases hhunksLt : i - top.length < hunkLines.length
    · rw [List.getElem?_append_left hhunksLt] at hget
      obtain ⟨placed, hplaced, j, hchange, heq⟩ := placedHunks_cover hhunks
        (x := x + 1 + file.headers.length) hget hkind
      exact ⟨placed, List.mem_append_left _ hplaced, j, hchange, by omega⟩
    · rw [List.getElem?_append_right (Nat.le_of_not_lt hhunksLt)] at hget
      obtain ⟨placed, hplaced, j, hchange, heq⟩ := ih hfiles hrest
        (x := x + file.rendered.length) hget
      refine ⟨placed, List.mem_append_right _ hplaced, j, hchange, ?_⟩
      have hsources : hunkLines.length = (hunkSources file.hunks).length := hhunksLen
      omega

theorem placedHunks_bounds (hunks : List (List (List Char) × Hunk)) (ix : ℕ) :
    (placedHunks file ix hunks).Pairwise (fun a b => a.ix < b.ix) ∧
      ∀ placed ∈ placedHunks file ix hunks,
        ix ≤ placed.ix ∧ placed.ix < ix + (hunkSources hunks).length := by
  induction hunks generalizing ix with
  | nil => simp [placedHunks]
  | cons entry hunks ih =>
    obtain ⟨skipped, hunk⟩ := entry
    obtain ⟨hsorted, hbounds⟩ := ih (ix + 1 + hunk.body.length)
    rw [placedHunks, hunkSources_cons, List.length_append, sources_length]
    dsimp only
    refine ⟨List.pairwise_cons.mpr ⟨fun placed hplaced => ?_, hsorted⟩,
      List.forall_mem_cons.mpr ⟨?_, fun placed hplaced => ?_⟩⟩
    · have := (hbounds placed hplaced).1
      simp only
      omega
    · simp only
      omega
    · have := hbounds placed hplaced
      omega

theorem placedFiles_sorted (hterm : ∀ file ∈ files, Terminated file) (ix : ℕ) :
    (placedFiles ix files).Pairwise (fun a b => a.ix < b.ix) ∧
      ∀ placed ∈ placedFiles ix files, ix ≤ placed.ix := by
  induction files generalizing ix with
  | nil => simp [placedFiles]
  | cons file files ih =>
    obtain ⟨hfile, hfiles⟩ := List.forall_mem_cons.mp hterm
    obtain ⟨hsorted, hbounds⟩ := placedHunks_bounds file.hunks (ix + 1 + file.headers.length)
    obtain ⟨hrest, hlow⟩ := ih hfiles (ix + file.rendered.length)
    have hcount := rendered_length hfile
    rw [placedFiles]
    refine ⟨List.pairwise_append.mpr ⟨hsorted, hrest, fun a ha b hb => ?_⟩,
      List.forall_mem_append.mpr ⟨fun placed hplaced => ?_, fun placed hplaced => ?_⟩⟩
    · have hup := (hbounds a ha).2
      have hdown := hlow b hb
      omega
    · have := (hbounds placed hplaced).1
      omega
    · have := hlow placed hplaced
      omega

end

section
variable {diff : List AnnotatedDiffLine}

variable {placed : Placed} {j : ℕ}

theorem stands_line (h : Stands diff placed) {source : BodyLine}
    (hj : placed.hunk.body[j]? = some source) :
    ∃ line, diff[placed.ix + 1 + j]? = some line ∧ LineOf line source.source := by
  obtain ⟨front, head, headers, mid, hline, body, back, hplace, hix⟩ := h
  obtain ⟨hjlt, hjeq⟩ := List.getElem?_eq_some_iff.mp hj
  have hbody := hplace.bodyIs
  have hlen := hbody.length_eq
  rw [List.length_map] at hlen
  have hget := hbody.get (i := j) (by omega) (by simpa using hjlt)
  simp only [List.get_eq_getElem, List.getElem_map, hjeq] at hget
  refine ⟨body[j], ?_, hget⟩
  have hlist : diff = (front ++ head :: headers ++ mid ++ [hline]) ++ (body ++ back) := by
    rw [hplace.diff_eq]
    simp
  have hfront : (front ++ head :: headers ++ mid ++ [hline]).length = placed.ix + 1 := by
    rw [hix]
    simp [hunkIx]
    omega
  rw [hlist, List.getElem?_append_right (by omega), hfront, Nat.add_sub_cancel_left,
    List.getElem?_append_left (by omega)]
  exact List.getElem?_eq_getElem _

theorem enclosingFrom_stands (h : Stands diff placed) (hj : j ≤ placed.hunk.body.length) :
    enclosingFrom diff (placed.ix + j) = some placed.ix := by
  induction j with
  | zero =>
    obtain ⟨front, head, headers, mid, hline, body, back, hplace, hix⟩ := h
    have hget := place_hline hplace
    have hkind : hline.kind = .hunk := hplace.hunkIs.2
    rw [← hix] at hget
    rw [add_zero, enclosingFrom.eq_def, hget]
    simp [hkind, isHunk]
  | succ j ih =>
    have hjlt : j < placed.hunk.body.length := by omega
    obtain ⟨line, hget, hof⟩ := stands_line h (List.getElem?_eq_getElem hjlt)
    obtain ⟨hhunk, hfile, _⟩ := lineOf_body hof
    have hix : placed.ix + (j + 1) = placed.ix + 1 + j := by omega
    rw [← hix] at hget
    rw [enclosingFrom.eq_def, hget]
    simp only [hhunk, hfile, Bool.false_eq_true, and_false, if_false]
    exact ih (by omega)

theorem hunkEntry_stands (h : Stands diff placed) (hj : ChangeAt placed j) :
    hunkEntry diff (placed.ix + 1 + j) = some (placed.ix, placed.ix + 1 + j) := by
  obtain ⟨source, hget, hmarker⟩ := hj
  obtain ⟨line, hline, hof⟩ := stands_line h hget
  obtain ⟨hjlt, _⟩ := getElem?_eq_some_iff.mp hget
  have hkind : line.kind = source.marker.kind := hof.2
  have hchanged := kind_changed.mpr hmarker
  rw [← hkind] at hchanged
  obtain ⟨hlt, _⟩ := getElem?_eq_some_iff.mp hline
  have hmin : min (placed.ix + 1 + j) (diff.length - 1) = placed.ix + (j + 1) := by omega
  have henclosing := enclosingFrom_stands h (j := j + 1) (by omega)
  simp only [hunkEntry, hline, Option.bind_eq_bind, Option.bind_some, hchanged, if_true,
    enclosingHunkSrcIx, hmin, henclosing, Option.map_some]

end

end GitComet.Unified
