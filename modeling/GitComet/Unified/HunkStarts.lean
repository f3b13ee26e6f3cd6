import GitComet.Unified.SelectionPatch
import Mathlib.Data.List.Sort

namespace GitComet.Unified
open Text KeyGroups List Option

def buildUnifiedPatchForHunk (diff : List AnnotatedDiffLine) (hunkSrcIx : ℕ) :
    Option (List Char) := do
  let bounds ← unifiedPatchFileAndHunkBounds diff hunkSrcIx
  let headers := (diff.take bounds.headerEnd).drop bounds.fileStart
  let lines := (diff.take bounds.hunkEnd).drop hunkSrcIx
  let out := (headers ++ lines).flatMap fun line => line.text ++ ['\n']
  if trim out = [] then none else some out

def buildUnifiedPatchForHunks (diff : List AnnotatedDiffLine) (hunkSrcIxs : List ℕ) :
    Option (List Char) :=
  if hunkSrcIxs = [] then none
  else
    let hunks := (hunkSrcIxs.insertionSort (· ≤ ·)).dedup
    let out := hunks.flatMap fun ix => (buildUnifiedPatchForHunk diff ix).getD []
    if trim out = [] then none else some out

inductive PatchSelection where
  | hunks (hunkSrcIxs : List ℕ)
  | lines (srcIxs : List ℕ)
  deriving DecidableEq

def forwardPatch (diff : List AnnotatedDiffLine) : PatchSelection → Option (List Char)
  | .hunks hunkSrcIxs => buildUnifiedPatchForHunks diff hunkSrcIxs
  | .lines srcIxs => buildUnifiedPatchForSelectedLinesAcrossHunks diff srcIxs

structure HunkText where
  file : ℕ
  headers : List (List Char)
  header : List Char
  body : List (List Char)
  deriving DecidableEq

def HunkText.lines (hunk : HunkText) : List (List Char) :=
  hunk.headers ++ hunk.header :: hunk.body

def bodyAt (diff : List AnnotatedDiffLine) (hunkSrcIx : ℕ) (bounds : PatchBounds) :
    List AnnotatedDiffLine :=
  (diff.take bounds.hunkEnd).drop (hunkSrcIx + 1)

def hunkWith (diff : List AnnotatedDiffLine) (body : List AnnotatedDiffLine → List (List Char))
    (hunkSrcIx : ℕ) : Option HunkText := do
  let bounds ← unifiedPatchFileAndHunkBounds diff hunkSrcIx
  let hunk ← diff[hunkSrcIx]?
  some ⟨bounds.fileStart, ((diff.take bounds.headerEnd).drop bounds.fileStart).map (·.text),
    hunk.text, body (bodyAt diff hunkSrcIx bounds)⟩

def hunkAt (diff : List AnnotatedDiffLine) (hunkSrcIx : ℕ) : Option HunkText :=
  hunkWith diff (·.map (·.text)) hunkSrcIx

def keptText (selected : List ℕ) (line : AnnotatedDiffLine) (ix : ℕ) : Option (List Char) :=
  match line.kind with
  | .add => if ix ∈ selected then some line.text else none
  | .remove =>
    if ix ∈ selected then some line.text
    else some (' ' :: (stripPrefix ['-'] line.text).getD line.text)
  | _ => some line.text

def keptTexts (selected : List ℕ) : Bool → List (AnnotatedDiffLine × ℕ) → List (List Char)
  | _, [] => []
  | prev, (line, ix) :: rest =>
    if startsWith line.text ['\\'] then
      (if prev then [line.text] else []) ++ keptTexts selected prev rest
    else (keptText selected line ix).toList ++
      keptTexts selected (keptText selected line ix).isSome rest

def pickedHunk (diff : List AnnotatedDiffLine) (group : ℕ × List ℕ) : Option HunkText :=
  hunkWith diff (fun body => keptTexts group.2 false (body.zipIdx (group.1 + 1))) group.1

def emittedHunks (diff : List AnnotatedDiffLine) : PatchSelection → List (ℕ × HunkText)
  | .hunks hunkSrcIxs => ((hunkSrcIxs.insertionSort (· ≤ ·)).dedup).filterMap fun ix =>
    (hunkAt diff ix).map (ix, ·)
  | .lines srcIxs =>
    (byHunk diff srcIxs).filterMap fun group =>
      (buildUnifiedPatchForHunkSelection diff group.1 group.2).bind fun _ =>
        (pickedHunk diff group).map (group.1, ·)

def sideCount (here : Marker → Bool) (body : List (List Char)) : ℕ :=
  body.countP fun text => (patchLine text).any fun entry => here entry.1

def HunkText.oldCount (hunk : HunkText) : ℕ := sideCount Marker.onOld hunk.body
def HunkText.newCount (hunk : HunkText) : ℕ := sideCount Marker.onNew hunk.body

def filledSide (count : ℕ) : ℤ := if count = 0 then 0 else 1
def linesBefore (start count : ℕ) : ℤ := start - filledSide count

def growthOf (file : ℕ) (hunks : List HunkText) : ℤ :=
  ((hunks.filter fun hunk => decide (hunk.file = file)).map fun hunk =>
    (hunk.newCount : ℤ) - hunk.oldCount).sum

def hunksBefore (diff : List AnnotatedDiffLine) (ix : ℕ) : List HunkText :=
  (range ix).filterMap (hunkAt diff)

def StartsBehind (earlier : List HunkText) (header : List Char) (file oldCount newCount : ℕ) :
    Prop :=
  ∀ starts ∈ hunkStarts header,
    linesBefore starts.2 newCount = linesBefore starts.1 oldCount + growthOf file earlier

instance (earlier : List HunkText) (header : List Char) (file oldCount newCount : ℕ) :
    Decidable (StartsBehind earlier header file oldCount newCount) :=
  inferInstanceAs (Decidable (∀ starts ∈ hunkStarts header, _))

def Marked (line : AnnotatedDiffLine) : Prop :=
  startsWith line.text ['\\'] = true ∨
    ∃ entry ∈ patchLine line.text, line.kind = entry.1.kind ∨ line.kind = .header

instance (line : AnnotatedDiffLine) : Decidable (Marked line) := inferInstanceAs (Decidable (_ ∨ _))

structure WellPlacedDiff (diff : List AnnotatedDiffLine) : Prop where
  headed : ∀ hunk ∈ diff, isHunk hunk = true → (hunkStarts hunk.text).isSome = true
  marked : ∀ ix bounds, unifiedPatchFileAndHunkBounds diff ix = some bounds →
    ∀ line ∈ bodyAt diff ix bounds, Marked line
  placed : ∀ ix hunk, hunkAt diff ix = some hunk →
    StartsBehind (hunksBefore diff ix) hunk.header hunk.file hunk.oldCount hunk.newCount

variable {line : AnnotatedDiffLine}

section
variable {selected : List ℕ}

variable (selected) in
theorem pushHunkLine_note {line : AnnotatedDiffLine} (h : startsWith line.text ['\\'])
    (st : PatchText) (ix : ℕ) :
    (pushHunkLine selected .drop .keepAsContext st ix line).out =
        st.out ++ textOf (if st.prevIncluded then [line.text] else []) ∧
      (pushHunkLine selected .drop .keepAsContext st ix line).prevIncluded = st.prevIncluded := by
  rw [pushHunkLine, if_pos h]
  cases hprev : st.prevIncluded <;> simp [textOf, hprev]

variable (selected) in
theorem pushHunkLine_text {line : AnnotatedDiffLine} (h : ¬ startsWith line.text ['\\'])
    (st : PatchText) (ix : ℕ) :
    (pushHunkLine selected .drop .keepAsContext st ix line).out =
        st.out ++ textOf (keptText selected line ix).toList ∧
      (pushHunkLine selected .drop .keepAsContext st ix line).prevIncluded =
        (keptText selected line ix).isSome := by
  rw [pushHunkLine, if_neg h, keptText]
  cases line.kind with
  | add => by_cases hpick : ix ∈ selected <;>
      simp [hpick, PatchText.push, appendUnselectedHunkLine, textOf]
  | remove => by_cases hpick : ix ∈ selected <;>
      simp [hpick, PatchText.push, appendUnselectedHunkLine, textOf]
  | context => simp [PatchText.push, textOf]
  | header => simp [PatchText.push, textOf]
  | hunk => simp [PatchText.push, textOf]

theorem pushHunkLines_out (lines : List (AnnotatedDiffLine × ℕ)) (st : PatchText) :
    (lines.foldl (fun st entry =>
      pushHunkLine selected .drop .keepAsContext st entry.2 entry.1) st).out =
      st.out ++ textOf (keptTexts selected st.prevIncluded lines) := by
  induction lines generalizing st with
  | nil => simp [keptTexts, textOf]
  | cons entry lines ih =>
    obtain ⟨line, ix⟩ := entry
    rw [foldl_cons, ih, keptTexts]
    by_cases hnote : startsWith line.text ['\\']
    · obtain ⟨hout, hprev⟩ := pushHunkLine_note selected hnote st ix
      rw [hout, hprev, if_pos hnote, textOf_append, append_assoc]
    · obtain ⟨hout, hprev⟩ := pushHunkLine_text selected hnote st ix
      rw [hout, hprev, if_neg hnote, textOf_append, append_assoc]

variable {text : List Char}

theorem note_plain (h : startsWith text ['\\']) : patchLine text = none := by
  obtain ⟨rest, rfl⟩ := startsWith_iff.mp h
  rfl

theorem patchLine_some {entry : Marker × List Char}
    (h : patchLine text = some entry) : text = entry.1.char :: entry.2 := by
  unfold patchLine at h
  split at h
  · cases h
    rfl
  · cases h
    rfl
  · cases h
    rfl
  · cases h

theorem sideCount_append (here : Marker → Bool) (xs ys : List (List Char)) :
    sideCount here (xs ++ ys) = sideCount here xs + sideCount here ys := by
  simp [sideCount]

theorem sideCount_cons (here : Marker → Bool) (text : List Char) (body : List (List Char)) :
    sideCount here (text :: body) = sideCount here [text] + sideCount here body :=
  sideCount_append here [text] body

theorem keptText_old (h : Marked line) (hplain : ¬ startsWith line.text ['\\']) (ix : ℕ) :
    sideCount Marker.onOld (keptText selected line ix).toList =
      sideCount Marker.onOld [line.text] := by
  obtain ⟨⟨marker, raw⟩, hentry, hkind⟩ := h.resolve_left hplain
  have hstrip := stripPrefix_append ['-'] raw
  simp only [singleton_append] at hstrip
  rw [keptText, patchLine_some hentry]
  rcases hkind with hkind | hkind
  · rw [hkind]
    cases hm : marker with
    | context => rfl
    | remove => by_cases hpick : ix ∈ selected <;>
        simp [hpick, Marker.kind, Marker.char, hstrip, sideCount, patchLine, Marker.onOld]
    | add => by_cases hpick : ix ∈ selected <;>
        simp [hpick, Marker.kind, Marker.char, sideCount, patchLine, Marker.onOld]
  · rw [hkind]
    rfl

theorem keptTexts_old {lines : List (AnnotatedDiffLine × ℕ)} (h : ∀ entry ∈ lines, Marked entry.1)
    (prev : Bool) : sideCount Marker.onOld (keptTexts selected prev lines) =
      sideCount Marker.onOld (lines.map fun entry => entry.1.text) := by
  induction lines generalizing prev with
  | nil => rfl
  | cons entry lines ih =>
    obtain ⟨line, ix⟩ := entry
    obtain ⟨hline, hlines⟩ := forall_mem_cons.mp h
    rw [keptTexts, map_cons, sideCount_cons]
    by_cases hnote : startsWith line.text ['\\']
    · have hnone : sideCount Marker.onOld [line.text] = 0 := by
        simp [sideCount, note_plain hnote]
      rw [if_pos hnote, sideCount_append, ih hlines, hnone]
      cases prev <;> simp [sideCount, note_plain hnote]
    · rw [if_neg hnote, sideCount_append, ih hlines, keptText_old hline hnote]

end

section
variable {diff : List AnnotatedDiffLine}

variable {ix : ℕ} {hunk : HunkText}

theorem hunkWith_some {body : List AnnotatedDiffLine → List (List Char)}
    (h : hunkWith diff body ix = some hunk) :
    ∃ bounds, unifiedPatchFileAndHunkBounds diff ix = some bounds ∧
      hunk.body = body (bodyAt diff ix bounds) ∧
      hunkAt diff ix = some { hunk with body := (bodyAt diff ix bounds).map (·.text) } := by
  obtain ⟨bounds, hbounds, hrest⟩ := bind_eq_some_iff.mp h
  obtain ⟨line, hline, hhunk⟩ := bind_eq_some_iff.mp hrest
  cases hhunk
  refine ⟨bounds, hbounds, rfl, ?_⟩
  simp only [hunkAt, hunkWith, hbounds, hline, bind_eq_bind, bind_some]

theorem findFrom_ge {p : AnnotatedDiffLine → Bool} {lines : List AnnotatedDiffLine} {start : ℕ}
    (h : start ≤ lines.length) : start ≤ findFrom p lines start := by
  rw [findFrom, if_pos h]
  exact Nat.le_add_right ..

theorem bounds_hunk {bounds : PatchBounds}
    (h : unifiedPatchFileAndHunkBounds diff ix = some bounds) :
    ∃ line, diff[ix]? = some line ∧ isHunk line ∧ ix < bounds.hunkEnd := by
  obtain ⟨line, hline, hrest⟩ := bind_eq_some_iff.mp h
  obtain ⟨hlt, -⟩ := List.getElem?_eq_some_iff.mp hline
  cases hhunk : isHunk line with
  | false =>
    rw [hhunk] at hrest
    cases hrest
  | true =>
    rw [hhunk] at hrest
    obtain ⟨fileStart, -, hbounds⟩ := bind_eq_some_iff.mp hrest
    cases hbounds
    exact ⟨line, hline, hhunk, findFrom_ge hlt⟩

theorem hunk_mark (h : (hunkStarts line.text).isSome) : '@' ∈ line.text := by
  obtain ⟨starts, hstarts⟩ := isSome_iff_exists.mp h
  obtain ⟨rest, hrest, -⟩ := bind_eq_some_iff.mp hstarts
  have hmark : startsWith line.text ['@', '@', ' ', '-'] := by
    by_contra hno
    rw [stripPrefix, if_neg hno] at hrest
    cases hrest
  obtain ⟨more, hmore⟩ := startsWith_iff.mp hmark
  rw [hmore]
  exact mem_cons_self

theorem buildUnifiedPatchForHunk_eq (hwf : WellPlacedDiff diff) (ix : ℕ) :
    buildUnifiedPatchForHunk diff ix = (hunkAt diff ix).map fun hunk => textOf hunk.lines := by
  cases hbounds : unifiedPatchFileAndHunkBounds diff ix with
  | none => simp [buildUnifiedPatchForHunk, hunkAt, hunkWith, hbounds]
  | some bounds =>
    obtain ⟨line, hline, hhunk, hlt⟩ := bounds_hunk hbounds
    have hslice : (diff.take bounds.hunkEnd).drop ix = line :: bodyAt diff ix bounds := by
      rw [drop_eq_getElem?_toList_append, getElem?_take_of_lt hlt, hline, bodyAt]
      rfl
    have htext : ((diff.take bounds.headerEnd).drop bounds.fileStart ++
        line :: bodyAt diff ix bounds).flatMap (fun line => line.text ++ ['\n']) =
        textOf (((diff.take bounds.headerEnd).drop bounds.fileStart).map (·.text) ++
          line.text :: (bodyAt diff ix bounds).map (·.text)) := by
      simp only [textOf, flatMap_append, flatMap_cons, flatMap_map]
    have hmark := hunk_mark (hwf.headed line (mem_of_getElem? hline) hhunk)
    have hsolid : trim (textOf (((diff.take bounds.headerEnd).drop bounds.fileStart).map
        (·.text) ++ line.text :: (bodyAt diff ix bounds).map (·.text))) ≠ [] :=
      trim_solid (mem_flatMap.mpr ⟨line.text, mem_append_right _ mem_cons_self,
        mem_append_left _ hmark⟩) rfl
    simp only [buildUnifiedPatchForHunk, hunkAt, hunkWith, hbounds, hline, hslice, htext,
      bind_eq_bind, bind_some, if_neg hsolid, map_some, HunkText.lines]

variable {patch : List Char}

theorem selection_eq {ixs : List ℕ}
    (h : buildUnifiedPatchForHunkSelection diff ix ixs = some patch) :
    ∃ hunk, pickedHunk diff (ix, ixs) = some hunk ∧ patch = textOf hunk.lines := by
  obtain ⟨bounds, hunk, hbounds, hhunk, hpatch⟩ := buildHunkSelection_some h
  refine ⟨_, by simp only [pickedHunk, hunkWith, hbounds, hhunk, bind_eq_bind,
    bind_some]; rfl, ?_⟩
  rw [hpatch, pushHunkLines_out, ← textOf_append, append_assoc]
  rfl

theorem textOf_flatMap {α : Type} (f : α → List (List Char)) (xs : List α) :
    textOf (xs.flatMap f) = xs.flatMap fun x => textOf (f x) := by
  simp [textOf, flatMap_assoc]

theorem flatMap_filterMap {α β γ : Type} (f : α → Option β) (g : β → List γ) (xs : List α) :
    (xs.filterMap f).flatMap g = xs.flatMap fun x => ((f x).map g).getD [] := by
  rw [filterMap_eq_flatMap_toList, flatMap_assoc]
  refine flatMap_congr fun x _ => ?_
  cases f x <;> simp

variable {selection : PatchSelection}

theorem forwardPatch_text (hwf : WellPlacedDiff diff)
    (h : forwardPatch diff selection = some patch) :
    patch = textOf ((emittedHunks diff selection).flatMap fun entry => entry.2.lines) := by
  rw [textOf_flatMap]
  cases selection with
  | hunks ixs =>
    have hout := h
    simp only [forwardPatch, buildUnifiedPatchForHunks, buildUnifiedPatchForHunk_eq hwf] at hout
    split at hout
    · cases hout
    · split at hout
      · cases hout
      · rw [← some.inj hout, emittedHunks, flatMap_filterMap]
        refine flatMap_congr fun ix _ => ?_
        cases hunkAt diff ix <;> rfl
  | lines ixs =>
    have hout := h
    simp only [forwardPatch, buildUnifiedPatchForSelectedLinesAcrossHunks, buildAcrossHunks] at hout
    split at hout
    · cases hout
    · split at hout
      · cases hout
      · rw [← some.inj hout, emittedHunks, flatMap_filterMap]
        refine flatMap_congr fun group _ => ?_
        cases hbuilt : buildUnifiedPatchForHunkSelection diff group.1 group.2 with
        | none => rfl
        | some patch =>
          obtain ⟨hunk, hhunk, rfl⟩ := selection_eq hbuilt
          rw [bind_some, hhunk]
          rfl

theorem emitted_full (hwf : WellPlacedDiff diff) (h : (ix, hunk) ∈ emittedHunks diff selection) :
    ∃ full, hunkAt diff ix = some full ∧ hunk = { full with body := hunk.body } ∧
      hunk.oldCount = full.oldCount := by
  cases selection with
  | hunks ixs =>
    obtain ⟨k, -, hk⟩ := mem_filterMap.mp h
    obtain ⟨full, hfull, heq⟩ := map_eq_some_iff.mp hk
    obtain ⟨rfl, rfl⟩ := Prod.mk.inj heq
    exact ⟨full, hfull, rfl, rfl⟩
  | lines ixs =>
    obtain ⟨group, -, hgroup⟩ := mem_filterMap.mp h
    obtain ⟨_, -, hpicked⟩ := bind_eq_some_iff.mp hgroup
    obtain ⟨picked, hhunk, heq⟩ := map_eq_some_iff.mp hpicked
    obtain ⟨rfl, rfl⟩ := Prod.mk.inj heq
    obtain ⟨bounds, hbounds, hbody, hfull⟩ := hunkWith_some hhunk
    refine ⟨_, hfull, rfl, ?_⟩
    have hmarked : ∀ entry ∈ (bodyAt diff group.1 bounds).zipIdx (group.1 + 1), Marked entry.1 :=
      fun entry hentry => hwf.marked group.1 bounds hbounds entry.1
        (fst_mem_of_mem_zipIdx hentry)
    have htexts : ((bodyAt diff group.1 bounds).zipIdx (group.1 + 1)).map
        (fun entry => entry.1.text) = (bodyAt diff group.1 bounds).map (·.text) := by
      rw [← zipIdx_map_fst (group.1 + 1) (bodyAt diff group.1 bounds), List.map_map]
      simp
    rw [HunkText.oldCount, hbody, keptTexts_old hmarked, htexts]
    rfl

theorem hunkAt_headed (hwf : WellPlacedDiff diff)
    (h : hunkAt diff ix = some hunk) : ∃ starts, hunkStarts hunk.header = some starts := by
  obtain ⟨bounds, hbounds, hrest⟩ := bind_eq_some_iff.mp h
  obtain ⟨line, hline, hhunk⟩ := bind_eq_some_iff.mp hrest
  obtain ⟨found, hfound, his, -⟩ := bounds_hunk hbounds
  obtain rfl := some.inj (hline.symm.trans hfound)
  cases hhunk
  exact isSome_iff_exists.mp (hwf.headed line (mem_of_getElem? hline) his)

end

def grownTexts : List (List Char) :=
  ["diff --git a/f b/f".toList, "--- a/f".toList, "+++ b/f".toList, "@@ -1 +1,2 @@".toList,
    " a".toList, "+b".toList, "@@ -5 +6 @@".toList, "-c".toList, "+d".toList]

def grownDiff : List AnnotatedDiffLine := annotateUnified (fromUnified (textOf grownTexts))

theorem grownDiff_eq : grownDiff = [⟨.header, "diff --git a/f b/f".toList, none, none⟩,
    ⟨.header, "--- a/f".toList, none, none⟩, ⟨.header, "+++ b/f".toList, none, none⟩,
    ⟨.hunk, "@@ -1 +1,2 @@".toList, none, none⟩, ⟨.context, " a".toList, some 1, some 1⟩,
    ⟨.add, "+b".toList, none, some 2⟩, ⟨.hunk, "@@ -5 +6 @@".toList, none, none⟩,
    ⟨.remove, "-c".toList, some 5, none⟩, ⟨.add, "+d".toList, none, some 6⟩] := by
  decide +kernel

theorem grownDiff_wellPlaced : WellPlacedDiff grownDiff := by
  have hrange : ∀ ix bounds, unifiedPatchFileAndHunkBounds grownDiff ix = some bounds →
      ix ∈ range 9 := by
    intro ix bounds hbounds
    obtain ⟨line, hline, -⟩ := bounds_hunk hbounds
    rw [grownDiff_eq] at hline
    exact mem_range.mpr (List.getElem?_eq_some_iff.mp hline).1
  have hmarked : ∀ ix ∈ range 9, ∀ bounds ∈ unifiedPatchFileAndHunkBounds grownDiff ix,
      ∀ line ∈ bodyAt grownDiff ix bounds, Marked line := by
    rw [grownDiff_eq]
    decide +kernel
  have hplaced : ∀ ix ∈ range 9, ∀ hunk ∈ hunkAt grownDiff ix,
      StartsBehind (hunksBefore grownDiff ix) hunk.header hunk.file hunk.oldCount
        hunk.newCount := by
    rw [grownDiff_eq]
    decide +kernel
  refine ⟨by rw [grownDiff_eq]; decide, fun ix bounds hbounds => ?_, fun ix hunk hhunk => ?_⟩
  · exact hmarked ix (hrange ix bounds hbounds) bounds hbounds
  · obtain ⟨bounds, hbounds, -⟩ := hunkWith_some hhunk
    exact hplaced ix (hrange ix bounds hbounds) hunk hhunk

end GitComet.Unified
