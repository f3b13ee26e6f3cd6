import Mathlib.Tactic.Ring
import GitComet.Unified.Section

namespace GitComet.Unified
open Text

structure PatchHunk where
  file : List Char
  oldStart : ℕ
  newStart : ℕ
  body : List (Marker × List Char)
  deriving DecidableEq

def patchLine : List Char → Option (Marker × List Char)
  | ' ' :: raw => some (.context, raw)
  | '-' :: raw => some (.remove, raw)
  | '+' :: raw => some (.add, raw)
  | _ => none

def bodyOf : List (List Char) → List (Marker × List Char)
  | [] => []
  | line :: lines => match patchLine line with
    | some entry => entry :: bodyOf lines
    | none => []

def rangeNumber (text : List Char) : Option ℕ :=
  let digits := text.takeWhile Char.isDigit
  if digits = [] then none else some (Nat.ofDigitChars 10 digits 0)

def hunkStarts (line : List Char) : Option (ℕ × ℕ) := do
  let old ← stripPrefix ['@', '@', ' ', '-'] line
  let new ← stripPrefix [' ', '+'] (old.dropWhile (· ≠ ' '))
  let oldStart ← rangeNumber old
  let newStart ← rangeNumber new
  some (oldStart, newStart)

def readPatch (file : List Char) : List (List Char) → List PatchHunk
  | [] => []
  | line :: lines =>
    if startsWith line "diff --git ".toList then readPatch line lines
    else match hunkStarts line with
      | some (oldStart, newStart) =>
        ⟨file, oldStart, newStart, bodyOf lines⟩ :: readPatch file lines
      | none => readPatch file lines

def sideOf (here : Marker → Bool) (body : List (Marker × List Char)) : List (List Char) :=
  (body.filter fun entry => here entry.1).map Prod.snd

structure FileState where
  lines : List (List Char)
  growth : ℤ

def applyHunk (hunk : PatchHunk) (st : FileState) : Option FileState :=
  let old := sideOf Marker.onOld hunk.body
  let new := sideOf Marker.onNew hunk.body
  let start : ℤ := if old = [] then hunk.oldStart else hunk.oldStart - 1
  let place := (start + st.growth).toNat
  if 0 ≤ start + st.growth ∧ place + old.length ≤ st.lines.length ∧
      (st.lines.drop place).take old.length = old then
    some ⟨st.lines.take place ++ new ++ st.lines.drop (place + old.length),
      st.growth + (new.length - old.length)⟩
  else none

def applyHunks : List PatchHunk → (List Char → FileState) → Option (List Char → FileState)
  | [], files => some files
  | hunk :: hunks, files => do
    let st ← applyHunk hunk (files hunk.file)
    applyHunks hunks (Function.update files hunk.file st)

def Marker.flip : Marker → Marker
  | .context => .context
  | .remove => .add
  | .add => .remove

def PatchHunk.reverse (hunk : PatchHunk) : PatchHunk where
  file := hunk.file
  oldStart := hunk.newStart
  newStart := hunk.oldStart
  body := hunk.body.map fun entry => (entry.1.flip, entry.2)

def applyTo (hunks : List PatchHunk) (texts : List Char → List Char) :
    Option (List Char → List Char) :=
  (applyHunks hunks fun file => ⟨splitInclusive (texts file), 0⟩).map
    fun files file => (files file).lines.flatten

def applyPatch (patch : List Char) (texts : List Char → List Char) :
    Option (List Char → List Char) :=
  applyTo (readPatch [] (splitInclusive patch)) texts

def applyPatchReverse (patch : List Char) (texts : List Char → List Char) :
    Option (List Char → List Char) :=
  applyTo ((readPatch [] (splitInclusive patch)).map PatchHunk.reverse) texts

inductive Direction where
  | forward
  | reverse
  deriving DecidableEq

def keptMarker : Direction → Bool → Marker → Option Marker
  | _, _, .context => some .context
  | _, true, marker => some marker
  | .forward, false, .remove => some .context
  | .forward, false, .add => none
  | .reverse, false, .remove => none
  | .reverse, false, .add => some .context

def patchBody (direction : Direction) (pick : ℕ → Bool) (ix : ℕ) :
    List BodyLine → List (Marker × List Char)
  | [] => []
  | line :: body =>
    ((keptMarker direction (pick ix) line.marker).map (·, line.raw)).toList ++
      patchBody direction pick (ix + 1) body

def keepLine (keep : Bool) (line : BodyLine) : List (List Char) := if keep then [line.raw] else []

def stagedBody (pick : ℕ → Bool) (ix : ℕ) : List BodyLine → List (List Char)
  | [] => []
  | line :: body => (match line.marker with
    | .context => keepLine true line
    | .remove => keepLine (!pick ix) line
    | .add => keepLine (pick ix) line) ++ stagedBody pick (ix + 1) body

def undoneBody (pick : ℕ → Bool) (ix : ℕ) : List BodyLine → List (List Char)
  | [] => []
  | line :: body => (match line.marker with
    | .context => keepLine true line
    | .remove => keepLine (pick ix) line
    | .add => keepLine (!pick ix) line) ++ undoneBody pick (ix + 1) body

def hunkLinesWith (body : ℕ → List BodyLine → List (List Char)) (ix : ℕ) :
    List (List (List Char) × Hunk) → List (List Char)
  | [] => []
  | (skipped, hunk) :: rest =>
    skipped ++ body (ix + 1) hunk.body ++
      hunkLinesWith body (ix + 1 + hunk.body.length) rest

def filesWith (body : ℕ → List BodyLine → List (List Char)) (ix : ℕ) :
    List FileSection → List (List Char × List (List Char))
  | [] => []
  | file :: files =>
    (file.diffGit ++ ['\n'],
      hunkLinesWith body (ix + 1 + file.headers.length) file.hunks ++ file.tail) ::
      filesWith body (ix + file.rendered.length) files

def hasPick (pick : ℕ → Bool) (ix : ℕ) : List BodyLine → Bool
  | [] => false
  | line :: body => (decide (line.marker ≠ .context) && pick ix) || hasPick pick (ix + 1) body

theorem sideOf_append (here : Marker → Bool) (xs ys : List (Marker × List Char)) :
    sideOf here (xs ++ ys) = sideOf here xs ++ sideOf here ys := by
  simp [sideOf]

theorem patchBody_old (pick : ℕ → Bool) (ix : ℕ) (body : List BodyLine) :
    sideOf Marker.onOld (patchBody .forward pick ix body) = (oldSide body).map BodyLine.raw := by
  induction body generalizing ix with
  | nil => rfl
  | cons line body ih =>
    rw [patchBody, sideOf_append, ih, oldSide_cons]
    congr 1
    cases line.marker <;> cases pick ix <;> rfl

theorem patchBody_staged (pick : ℕ → Bool) (ix : ℕ) (body : List BodyLine) :
    sideOf Marker.onNew (patchBody .forward pick ix body) = stagedBody pick ix body := by
  induction body generalizing ix with
  | nil => rfl
  | cons line body ih =>
    rw [patchBody, sideOf_append, ih, stagedBody]
    congr 1
    cases line.marker <;> cases pick ix <;> rfl

theorem stagedBody_unpicked {pick : ℕ → Bool} {ix : ℕ} {body : List BodyLine}
    (h : hasPick pick ix body = false) :
    stagedBody pick ix body = (oldSide body).map BodyLine.raw := by
  induction body generalizing ix with
  | nil => rfl
  | cons line body ih =>
    rw [hasPick, Bool.or_eq_false_iff] at h
    rw [stagedBody, ih h.2, oldSide_cons]
    congr 1
    have hline := h.1
    cases hm : line.marker with
    | context => rfl
    | remove =>
      have hpick : pick ix = false := by simpa [hm] using hline
      rw [hpick]
      rfl
    | add =>
      have hpick : pick ix = false := by simpa [hm] using hline
      rw [hpick]
      rfl

end GitComet.Unified

namespace GitComet.Unified
open Text

def pickedHunks (direction : Direction) (pick : ℕ → Bool) (key : List Char) (old new ix : ℕ) :
    List (List (List Char) × Hunk) → List PatchHunk
  | [] => []
  | (skipped, hunk) :: rest =>
    let oldCount := (oldSide hunk.body).length
    let newCount := (newSide hunk.body).length
    (if hasPick pick (ix + 1) hunk.body then
      [⟨key, rangeStart (old + skipped.length) oldCount, rangeStart (new + skipped.length) newCount,
        patchBody direction pick (ix + 1) hunk.body⟩] else []) ++
      pickedHunks direction pick key (old + skipped.length + oldCount)
        (new + skipped.length + newCount) (ix + 1 + hunk.body.length) rest

def oldHunkLines (hunks : List (List (List Char) × Hunk)) : List (List Char) :=
  hunks.flatMap fun entry => entry.1 ++ (oldSide entry.2.body).map BodyLine.raw

section
variable {lines before old after : List (List Char)} {start : ℤ} {growth : ℤ}

theorem applyHunk_place {h : PatchHunk} {s : FileState} {o : ℕ}
    (hold : sideOf Marker.onOld h.body = old) (hstart : h.oldStart = rangeStart o old.length)
    (hlines : s.lines = before ++ old ++ after) (hgrowth : s.growth = before.length - o) :
    applyHunk h s = some ⟨before ++ sideOf Marker.onNew h.body ++ after,
      s.growth + ((sideOf Marker.onNew h.body).length - old.length)⟩ := by
  have hplace : (if old = [] then (h.oldStart : ℤ) else h.oldStart - 1) + s.growth =
      before.length := by
    rw [hstart, hgrowth, rangeStart]
    by_cases hnil : old = []
    · simp [hnil]
    · simp [hnil, List.length_eq_zero_iff]
  have hdrop : (before ++ old ++ after).drop before.length = old ++ after := by
    rw [List.append_assoc, List.drop_left]
  have htake : (before ++ old ++ after).take before.length = before := by
    rw [List.append_assoc, List.take_left]
  have hback : (before ++ old ++ after).drop (before.length + old.length) = after := by
    rw [← List.length_append, List.drop_left]
  unfold applyHunk
  simp only [hold, hplace, hlines, Int.toNat_natCast, hdrop, htake, hback, List.take_left]
  rw [if_pos ⟨Int.natCast_nonneg _, by simp, trivial⟩]

end

section
variable {pick : ℕ → Bool} {key : List Char}

theorem applyHunks_file (hunks : List (List (List Char) × Hunk)) {o n i : ℕ}
    {d t : List (List Char)} {f : List Char → FileState} (more : List PatchHunk)
    (hfile : f key = ⟨d ++ oldHunkLines hunks ++ t, d.length - o⟩) :
    ∃ growth, applyHunks (pickedHunks .forward pick key o n i hunks ++ more) f =
      applyHunks more (Function.update f key
        ⟨d ++ hunkLinesWith (stagedBody pick) i hunks ++ t, growth⟩) := by
  induction hunks generalizing o n i d f with
  | nil =>
    refine ⟨d.length - o, ?_⟩
    have hsame : f key = ⟨d ++ hunkLinesWith (stagedBody pick) i [] ++ t, d.length - o⟩ := hfile
    rw [← hsame, Function.update_eq_self]
    rfl
  | cons entry hunks ih =>
    obtain ⟨skipped, hunk⟩ := entry
    have hside : sideOf Marker.onOld (patchBody .forward pick (i + 1) hunk.body) =
        (oldSide hunk.body).map BodyLine.raw := patchBody_old pick (i + 1) hunk.body
    have hcount : (oldSide hunk.body).length = ((oldSide hunk.body).map BodyLine.raw).length :=
      (List.length_map ..).symm
    have hlines : d ++ oldHunkLines ((skipped, hunk) :: hunks) ++ t =
        (d ++ skipped) ++ (oldSide hunk.body).map BodyLine.raw ++
          (oldHunkLines hunks ++ t) := by
      simp [oldHunkLines]
    have hdone : d ++ hunkLinesWith (stagedBody pick) i ((skipped, hunk) :: hunks) ++ t =
        (d ++ skipped ++ stagedBody pick (i + 1) hunk.body) ++
          hunkLinesWith (stagedBody pick) (i + 1 + hunk.body.length) hunks ++ t := by
      simp [hunkLinesWith]
    rw [hlines] at hfile
    rw [hdone, pickedHunks]
    cases hpick : hasPick pick (i + 1) hunk.body with
    | false =>
      have hstaged := stagedBody_unpicked hpick
      rw [hstaged]
      refine ih (d := d ++ skipped ++ (oldSide hunk.body).map BodyLine.raw) ?_
      rw [hfile]
      congr 1
      · simp only [List.append_assoc]
      · simp only [List.length_append, List.length_map]
        push_cast
        ring
    | true =>
      have hplace := applyHunk_place (s := f key)
        
        (o := o + skipped.length) (h := ⟨key, rangeStart (o + skipped.length)
          (oldSide hunk.body).length, rangeStart (n + skipped.length)
          (newSide hunk.body).length, patchBody .forward pick (i + 1) hunk.body⟩)
        hside (by rw [← hcount]) (by rw [hfile])
        (by rw [hfile]; simp only [List.length_append]; push_cast; ring)
      simp only [patchBody_staged] at hplace
      obtain ⟨growth, hrest⟩ := ih (o := o + skipped.length + (oldSide hunk.body).length)
        (n := n + skipped.length + (newSide hunk.body).length) (i := i + 1 + hunk.body.length)
        (d := d ++ skipped ++ stagedBody pick (i + 1) hunk.body)
        (f := Function.update f key ⟨d ++ skipped ++
          stagedBody pick (i + 1) hunk.body ++ (oldHunkLines hunks ++ t),
          (f key).growth + ((stagedBody pick (i + 1) hunk.body).length -
            ((oldSide hunk.body).map BodyLine.raw).length)⟩) (by
          rw [Function.update_self, hfile]
          congr 1
          · simp only [List.append_assoc]
          · simp only [List.length_append, List.length_map]
            push_cast
            ring)
      refine ⟨growth, ?_⟩
      simp only [if_true, List.cons_append, List.nil_append, applyHunks, hplace,
        Option.bind_eq_bind, Option.bind_some]
      rw [hrest, Function.update_idem]

end

def FileSection.key (file : FileSection) : List Char := file.diffGit ++ ['\n']

def pickedFiles (direction : Direction) (pick : ℕ → Bool) (ix : ℕ) :
    List FileSection → List PatchHunk
  | [] => []
  | file :: files =>
    pickedHunks direction pick file.key 0 0 (ix + 1 + file.headers.length) file.hunks ++
      pickedFiles direction pick (ix + file.rendered.length) files

theorem filesWith_keys (body : ℕ → List BodyLine → List (List Char)) (ix : ℕ)
    (files : List FileSection) :
    (filesWith body ix files).map Prod.fst = files.map FileSection.key := by
  induction files generalizing ix with
  | nil => rfl
  | cons file files ih => rw [filesWith, List.map_cons, List.map_cons, ih, FileSection.key]

theorem applyHunks_files (pick : ℕ → Bool) (files : List FileSection) {i : ℕ}
    {s : List Char → FileState} (hkeys : (files.map FileSection.key).Nodup)
    (hst : ∀ file ∈ files, s file.key = ⟨file.oldLines, 0⟩) :
    ∃ result, applyHunks (pickedFiles .forward pick i files) s = some result ∧
      (∀ entry ∈ filesWith (stagedBody pick) i files, (result entry.1).lines = entry.2) ∧
      ∀ key ∉ files.map FileSection.key, result key = s key := by
  induction files generalizing i s with
  | nil => exact ⟨s, rfl, by simp [filesWith], fun _ _ => rfl⟩
  | cons file files ih =>
    obtain ⟨hhead, htail⟩ := List.nodup_cons.mp hkeys
    obtain ⟨growth, hfile⟩ := applyHunks_file file.hunks
      (o := 0) (n := 0) (i := i + 1 + file.headers.length) (d := []) (t := file.tail)
      (f := s) (pickedFiles .forward pick (i + file.rendered.length) files)
      (hst file List.mem_cons_self)
    obtain ⟨result, hrun, hlines, hframe⟩ := ih (i := i + file.rendered.length)
      (s := Function.update s file.key ⟨hunkLinesWith (stagedBody pick)
        (i + 1 + file.headers.length) file.hunks ++ file.tail, growth⟩) htail (by
          intro other hother
          have hne : other.key ≠ file.key := fun heq =>
            hhead (heq ▸ List.mem_map_of_mem hother)
          rw [Function.update_of_ne hne]
          exact hst other (List.mem_cons_of_mem _ hother))
    refine ⟨result, hfile.trans hrun, ?_, ?_⟩
    · refine List.forall_mem_cons.mpr ⟨?_, hlines⟩
      have hsame := hframe file.key hhead
      rw [Function.update_self] at hsame
      exact congrArg FileState.lines hsame
    · intro key hkey
      rw [List.map_cons, List.mem_cons, not_or] at hkey
      rw [hframe key hkey.2, Function.update_of_ne hkey.1]

def BodyLine.flip (line : BodyLine) : BodyLine := { line with marker := line.marker.flip }
def Hunk.flip (hunk : Hunk) : Hunk where
  oldRange := hunk.newRange
  newRange := hunk.oldRange
  heading := hunk.heading
  body := hunk.body.map BodyLine.flip

def FileSection.flip (file : FileSection) : FileSection :=
  { file with hunks := file.hunks.map fun entry => (entry.1, entry.2.flip) }

theorem flip_onOld (marker : Marker) : marker.flip.onOld = marker.onNew := by cases marker <;> rfl
theorem flip_onNew (marker : Marker) : marker.flip.onNew = marker.onOld := by cases marker <;> rfl

theorem oldSide_flip (body : List BodyLine) :
    oldSide (body.map BodyLine.flip) = (newSide body).map BodyLine.flip := by
  simp only [oldSide, newSide, List.filter_map]
  congr 1
  exact List.filter_congr fun line _ => flip_onOld line.marker

theorem newSide_flip (body : List BodyLine) :
    newSide (body.map BodyLine.flip) = (oldSide body).map BodyLine.flip := by
  simp only [oldSide, newSide, List.filter_map]
  congr 1
  exact List.filter_congr fun line _ => flip_onNew line.marker

theorem flip_oldLines (file : FileSection) : file.flip.oldLines = file.newLines := by
  simp only [FileSection.oldLines, FileSection.newLines, FileSection.flip, List.flatMap_map,
    Hunk.flip, oldSide_flip, List.map_map]
  rfl

theorem flip_rendered_length (file : FileSection) :
    file.flip.rendered.length = file.rendered.length := by
  have hline : ∀ line : BodyLine, line.flip.rendered.length = line.rendered.length := by
    intro line
    cases hterm : line.terminated <;> simp [BodyLine.rendered, BodyLine.flip, hterm]
  simp only [FileSection.rendered, FileSection.flip, List.flatMap_map, List.length_append,
    List.length_flatMap, Hunk.rendered, Hunk.flip, List.length_cons, hline]

theorem patchBody_flip (pick : ℕ → Bool) (ix : ℕ) (body : List BodyLine) :
    (patchBody .reverse pick ix body).map (fun entry => (entry.1.flip, entry.2)) =
      patchBody .forward pick ix (body.map BodyLine.flip) := by
  induction body generalizing ix with
  | nil => rfl
  | cons line body ih =>
    rw [patchBody, List.map_append, ih, List.map_cons, patchBody]
    congr 1
    simp only [BodyLine.flip, BodyLine.raw]
    cases line.marker <;> cases pick ix <;> rfl

theorem hasPick_flip (pick : ℕ → Bool) (ix : ℕ) (body : List BodyLine) :
    hasPick pick ix (body.map BodyLine.flip) = hasPick pick ix body := by
  induction body generalizing ix with
  | nil => rfl
  | cons line body ih =>
    rw [List.map_cons, hasPick, hasPick, ih]
    have hcontext : line.flip.marker ≠ .context ↔ line.marker ≠ .context := by
      cases hm : line.marker <;> simp [BodyLine.flip, Marker.flip, hm]
    rw [decide_eq_decide.mpr hcontext]

theorem stagedBody_flip (pick : ℕ → Bool) (ix : ℕ) (body : List BodyLine) :
    stagedBody pick ix (body.map BodyLine.flip) = undoneBody pick ix body := by
  induction body generalizing ix with
  | nil => rfl
  | cons line body ih =>
    rw [List.map_cons, stagedBody, undoneBody, ih]
    congr 1
    simp only [BodyLine.flip, keepLine, BodyLine.raw]
    cases line.marker <;> rfl

theorem pickedHunks_flip (pick : ℕ → Bool) (key : List Char) (o n ix : ℕ)
    (hunks : List (List (List Char) × Hunk)) :
    (pickedHunks .reverse pick key o n ix hunks).map PatchHunk.reverse =
      pickedHunks .forward pick key n o ix (hunks.map fun entry => (entry.1, entry.2.flip)) := by
  induction hunks generalizing o n ix with
  | nil => rfl
  | cons entry hunks ih =>
    obtain ⟨skipped, hunk⟩ := entry
    simp only [pickedHunks, List.map_cons, List.map_append, ih, Hunk.flip, oldSide_flip,
      newSide_flip, List.length_map, hasPick_flip]
    congr 1
    split
    · simp only [List.map_cons, List.map_nil, PatchHunk.reverse, patchBody_flip]
    · rfl

theorem pickedFiles_flip (pick : ℕ → Bool) (ix : ℕ) (files : List FileSection) :
    (pickedFiles .reverse pick ix files).map PatchHunk.reverse =
      pickedFiles .forward pick ix (files.map FileSection.flip) := by
  induction files generalizing ix with
  | nil => rfl
  | cons file files ih =>
    simp only [pickedFiles, List.map_cons, List.map_append, ih, pickedHunks_flip,
      flip_rendered_length]
    rfl

theorem hunkLinesWith_flip (pick : ℕ → Bool) (ix : ℕ) (hunks : List (List (List Char) × Hunk)) :
    hunkLinesWith (stagedBody pick) ix (hunks.map fun entry => (entry.1, entry.2.flip)) =
      hunkLinesWith (undoneBody pick) ix hunks := by
  induction hunks generalizing ix with
  | nil => rfl
  | cons entry hunks ih =>
    obtain ⟨skipped, hunk⟩ := entry
    have hrest := ih (ix + 1 + hunk.body.length)
    simp only [Hunk.flip] at hrest
    simp only [List.map_cons, hunkLinesWith, Hunk.flip, stagedBody_flip, List.length_map, hrest]

theorem filesWith_flip (pick : ℕ → Bool) (ix : ℕ) (files : List FileSection) :
    filesWith (stagedBody pick) ix (files.map FileSection.flip) =
      filesWith (undoneBody pick) ix files := by
  induction files generalizing ix with
  | nil => rfl
  | cons file files ih =>
    rw [List.map_cons, filesWith, filesWith, flip_rendered_length, ih]
    simp only [FileSection.flip, hunkLinesWith_flip]

end GitComet.Unified
