import GitComet.Unified.SelectionPatch

namespace GitComet.Unified
open Text List Option

inductive BodyRead : List AnnotatedDiffLine → List BodyLine → Prop
  | done : BodyRead [] []
  | full {line source lines body} (full : source.terminated = true)
      (here : ReadFrom line source) (rest : BodyRead lines body) :
      BodyRead (line :: lines) (source :: body)
  | cut {line note source lines body} (cut : source.terminated = false)
      (here : ReadFrom line source) (noted : note.text = noNewlineLine)
      (rest : BodyRead lines body) : BodyRead (line :: note :: lines) (source :: body)

def placesFrom (ix : ℕ) : List BodyLine → List (ℕ × BodyLine)
  | [] => []
  | line :: body => (ix, line) :: placesFrom (ix + line.rendered.length) body

def taken (diff : List AnnotatedDiffLine) (selected : List ℕ) (ix : ℕ) : Bool :=
  picks selected ix || (diff[ix]?).any fun line => decide (line.kind = .header)

def keptLine (direction : Direction) (take : ℕ → Bool) (entry : ℕ × BodyLine) : Option BodyLine :=
  (keptMarker direction (take entry.1) entry.2.marker).map fun marker =>
    { entry.2 with marker := marker }

def keptLines (direction : Direction) (take : ℕ → Bool) (places : List (ℕ × BodyLine)) :
    List BodyLine :=
  places.filterMap (keptLine direction take)

section
variable {direction : Direction} {selected : List ℕ}

theorem pushLine_note {note : AnnotatedDiffLine} (h : note.text = noNewlineLine) (st : PatchText)
    (ix : ℕ) : (pushLine direction selected st (note, ix)).out =
      st.out ++ textOf (if st.prevIncluded then [noNewlineLine] else []) := by
  have hnote : startsWith note.text ['\\'] := by
    rw [h]
    rfl
  rw [pushLine, pushHunkLine, if_pos hnote, h]
  cases st.prevIncluded <;> simp [textOf]

variable (direction selected) in
theorem pushLines_read {lines : List AnnotatedDiffLine} {body : List BodyLine}
    (h : BodyRead lines body) (take : ℕ → Bool) (st : PatchText) (ix : ℕ)
    (htake : ∀ entry ∈ lines.zipIdx ix,
      take entry.2 = (picks selected entry.2 || decide (entry.1.kind = .header))) :
    ((lines.zipIdx ix).foldl (pushLine direction selected) st).out =
      st.out ++ textOf ((keptLines direction take (placesFrom ix body)).flatMap
        BodyLine.rendered) := by
  induction h generalizing st ix with
  | done => simp [placesFrom, keptLines, textOf]
  | @full line source lines body hfull here rest ih =>
    rw [zipIdx_cons] at htake ⊢
    obtain ⟨hhere, hrest⟩ := forall_mem_cons.mp htake
    have hlen : source.rendered.length = 1 := by simp [BodyLine.rendered, hfull]
    obtain ⟨hout, -, -⟩ := pushLine_read direction selected here st ix
    rw [foldl_cons, ih _ _ hrest, hout, ← hhere, placesFrom, hlen, keptLines, keptLines,
      filterMap_cons, keptLine, append_assoc, ← textOf_append]
    congr 2
    cases keptMarker direction (take ix) source.marker with
    | none => rfl
    | some marker => simp [BodyLine.rendered, hfull]
  | @cut line note source lines body hcut here noted rest ih =>
    rw [zipIdx_cons, zipIdx_cons] at htake ⊢
    obtain ⟨hhere, hnote⟩ := forall_mem_cons.mp htake
    obtain ⟨-, hrest⟩ := forall_mem_cons.mp hnote
    have hlen : source.rendered.length = 2 := by simp [BodyLine.rendered, hcut]
    obtain ⟨hout, hprev, -⟩ := pushLine_read direction selected here st ix
    rw [foldl_cons, foldl_cons, ih _ _ hrest, pushLine_note noted, hout, hprev, ← hhere,
      placesFrom, hlen, keptLines, keptLines, filterMap_cons, keptLine, append_assoc,
      append_assoc, ← textOf_append, ← textOf_append]
    congr 2
    cases keptMarker direction (take ix) source.marker with
    | none => rfl
    | some marker => simp [BodyLine.rendered, hcut]

end

def Marker.Apart (a b : Marker) : Prop :=
  ¬ (a.onOld = true ∧ b.onOld = true) ∧ ¬ (a.onNew = true ∧ b.onNew = true)

instance (a b : Marker) : Decidable (a.Apart b) := inferInstanceAs (Decidable (_ ∧ _))

def EndsRight (side : List BodyLine) : Prop := ∀ line ∈ side.dropLast, line.terminated = true

instance (side : List BodyLine) : Decidable (EndsRight side) :=
  inferInstanceAs (Decidable (∀ line ∈ side.dropLast, _))

structure BodyWellFormed (body : List BodyLine) : Prop where
  old : EndsRight (oldSide body)
  new : EndsRight (newSide body)
  unbroken : ∀ line ∈ body, '\n' ∉ line.content
  filled : ∀ line ∈ body, line.terminated = false → line.content ≠ []

structure SideWhole (side : List BodyLine) : Prop where
  ends : EndsRight side
  lines : splitInclusive (side.map BodyLine.raw).flatten = side.map BodyLine.raw

def TakenWith (direction : Direction) (take : ℕ → Bool) (a b : ℕ × BodyLine) : Prop :=
  if keptMarker direction false a.2.marker = none then take a.1 = true → take b.1 = true
  else take b.1 = true → take a.1 = true

def TakenTogether (direction : Direction) (take : ℕ → Bool) (places : List (ℕ × BodyLine)) : Prop :=
  places.Pairwise fun a b => a.2.terminated = false → TakenWith direction take a b

section
variable {body side : List BodyLine} {direction : Direction} {take : ℕ → Bool}

theorem endsRight_pairwise : EndsRight side ↔ side.Pairwise fun a _ => a.terminated := by
  induction side with
  | nil => simp [EndsRight]
  | cons line side ih =>
    rw [pairwise_cons, ← ih]
    cases side with
    | nil => simp [EndsRight]
    | cons next side =>
      rw [EndsRight, dropLast_cons_of_ne_nil (cons_ne_nil _ _), forall_mem_cons]
      exact and_congr_left' ⟨fun h _ _ => h, fun h => h next mem_cons_self⟩

theorem ends_apart : EndsRight (oldSide body) ∧ EndsRight (newSide body) ↔
    body.Pairwise fun a b => a.terminated = false → a.marker.Apart b.marker := by
  rw [endsRight_pairwise, endsRight_pairwise, oldSide, newSide, pairwise_filter,
    pairwise_filter, ← pairwise_and_iff]
  refine Pairwise.iff fun {a b} => ?_
  cases a.terminated <;> simp [Marker.Apart]

theorem raw_full {line : BodyLine} (hfull : line.terminated) (h : '\n' ∉ line.content) :
    FullLine line.raw := ⟨line.content, by rw [BodyLine.raw, if_pos hfull], h⟩

theorem sideWhole_iff (hunbroken : ∀ line ∈ side, '\n' ∉ line.content)
    (hfilled : ∀ line ∈ side, line.terminated = false → line.content ≠ []) :
    SideWhole side ↔ EndsRight side := by
  refine ⟨fun h => h.ends, fun h => ⟨h, ?_⟩⟩
  cases side using reverseRecOn with
  | nil => rfl
  | append_singleton front last =>
    rw [EndsRight, dropLast_concat] at h
    have hfront : ∀ line ∈ front.map BodyLine.raw, FullLine line := by
      intro raw hraw
      obtain ⟨line, hline, rfl⟩ := mem_map.mp hraw
      exact raw_full (h line hline) (hunbroken line (mem_append_left _ hline))
    have hmem : last ∈ front ++ [last] := mem_append_right _ mem_cons_self
    have hlast : splitInclusive last.raw = [last.raw] := by
      cases hfull : last.terminated with
      | true =>
        have hline := splitInclusive_line (hunbroken last hmem) []
        have hraw : last.raw = last.content ++ ['\n'] := by rw [BodyLine.raw, if_pos hfull]
        rw [append_nil] at hline
        rw [hraw, hline]
        rfl
      | false =>
        have hne := hfilled last hmem hfull
        rw [BodyLine.raw, hfull, if_neg Bool.false_ne_true, append_nil,
          splitInclusive_body (hunbroken last hmem), if_neg hne]
    rw [map_append, map_singleton, flatten_append, flatten_singleton,
      splitInclusive_append hfront, hlast]

theorem places_lines (ix : ℕ) (body : List BodyLine) :
    (placesFrom ix body).map Prod.snd = body := by
  induction body generalizing ix with
  | nil => rfl
  | cons line body ih => rw [placesFrom, map_cons, ih]

theorem kept_apart {a b : Marker} (h : a.Apart b) (direction : Direction) (takeA takeB : Bool) :
    (∀ a', keptMarker direction takeA a = some a' → ∀ b', keptMarker direction takeB b = some b' →
      a'.Apart b') ↔ if keptMarker direction false a = none then takeA → takeB
        else takeB → takeA := by
  have hsides : (a = .remove ∧ b = .add) ∨ (a = .add ∧ b = .remove) := by
    cases a <;> cases b <;> first | exact absurd h (by decide) | simp
  rcases hsides with ⟨rfl, rfl⟩ | ⟨rfl, rfl⟩
  · cases direction <;> cases takeA <;> cases takeB <;>
      simp [keptMarker, Marker.Apart, Marker.onOld, Marker.onNew]
  · cases direction <;> cases takeA <;> cases takeB <;>
      simp [keptMarker, Marker.Apart, Marker.onOld, Marker.onNew]

theorem kept_ends (h : body.Pairwise fun a b => a.terminated = false → a.marker.Apart b.marker)
    (ix : ℕ) :
    EndsRight (oldSide (keptLines direction take (placesFrom ix body))) ∧
      EndsRight (newSide (keptLines direction take (placesFrom ix body))) ↔
      TakenTogether direction take (placesFrom ix body) := by
  rw [← places_lines ix body, pairwise_map] at h
  rw [ends_apart, keptLines, pairwise_filterMap, TakenTogether]
  refine ⟨fun hkept => (hkept.and h).imp ?_, fun htaken => (htaken.and h).imp ?_⟩
  · rintro a b ⟨hab, happart⟩ hcut
    refine (kept_apart (happart hcut) direction (take a.1) (take b.1)).mp fun a' ha b' hb => ?_
    exact hab { a.2 with marker := a' } (by rw [keptLine, ha]; rfl)
      { b.2 with marker := b' } (by rw [keptLine, hb]; rfl) hcut
  · rintro a b ⟨htogether, happart⟩ a' ha b' hb hcut
    obtain ⟨ma, hma, rfl⟩ := map_eq_some_iff.mp ha
    obtain ⟨mb, hmb, rfl⟩ := map_eq_some_iff.mp hb
    exact (kept_apart (happart hcut) direction (take a.1) (take b.1)).mpr (htogether hcut) ma hma
      mb hmb

theorem kept_mem {line : BodyLine} {ix : ℕ}
    (h : line ∈ keptLines direction take (placesFrom ix body)) :
    ∃ source ∈ body, line.content = source.content ∧ line.terminated = source.terminated := by
  obtain ⟨entry, hentry, hkept⟩ := mem_filterMap.mp h
  obtain ⟨marker, -, rfl⟩ := map_eq_some_iff.mp hkept
  have hmem := mem_map_of_mem (f := Prod.snd) hentry
  rw [places_lines] at hmem
  exact ⟨entry.2, hmem, rfl, rfl⟩

theorem kept_whole (hwf : BodyWellFormed body) (ix : ℕ) :
    SideWhole (oldSide (keptLines direction take (placesFrom ix body))) ∧
      SideWhole (newSide (keptLines direction take (placesFrom ix body))) ↔
      TakenTogether direction take (placesFrom ix body) := by
  have hunbroken : ∀ line ∈ keptLines direction take (placesFrom ix body),
      '\n' ∉ line.content := by
    intro line hline
    obtain ⟨source, hsource, hcontent, -⟩ := kept_mem hline
    exact hcontent ▸ hwf.unbroken source hsource
  have hfilled : ∀ line ∈ keptLines direction take (placesFrom ix body),
      line.terminated = false → line.content ≠ [] := by
    intro line hline hcut
    obtain ⟨source, hsource, hcontent, hterm⟩ := kept_mem hline
    exact hcontent ▸ hwf.filled source hsource (hterm ▸ hcut)
  have hside : ∀ here : BodyLine → Bool,
      SideWhole ((keptLines direction take (placesFrom ix body)).filter here) ↔
        EndsRight ((keptLines direction take (placesFrom ix body)).filter here) := fun here =>
    sideWhole_iff (fun line hline => hunbroken line (mem_filter.mp hline).1)
      fun line hline => hfilled line (mem_filter.mp hline).1
  rw [oldSide, newSide, hside, hside]
  exact kept_ends (ends_apart.mp ⟨hwf.old, hwf.new⟩) ix

end

theorem buildHunkSelection_read {diff : List AnnotatedDiffLine} {hunkSrcIx : ℕ}
    {selected : List ℕ} {direction : Direction} {bounds : PatchBounds} {body : List BodyLine}
    {patch : List Char} (hbounds : unifiedPatchFileAndHunkBounds diff hunkSrcIx = some bounds)
    (hbody : BodyRead ((diff.take bounds.hunkEnd).drop (hunkSrcIx + 1)) body)
    (hpatch : buildHunkSelection diff hunkSrcIx selected direction.unselectedAdd
      direction.unselectedRemove = some patch) :
    ∃ hunk, diff[hunkSrcIx]? = some hunk ∧
      patch = textOf (((diff.take bounds.headerEnd).drop bounds.fileStart).map (·.text) ++
        hunk.text :: (keptLines direction (taken diff selected)
          (placesFrom (hunkSrcIx + 1) body)).flatMap BodyLine.rendered) := by
  obtain ⟨found, hunk, hfound, hhunk, hbuilt⟩ := buildHunkSelection_some hpatch
  obtain rfl := some.inj (hbounds.symm.trans hfound)
  have hread := pushLines_read direction selected hbody (taken diff selected)
    ⟨textOf (((diff.take bounds.headerEnd).drop bounds.fileStart).map (·.text) ++ [hunk.text]),
      false, false⟩ (hunkSrcIx + 1) (by
      intro entry hentry
      rw [← zipIdx_slice] at hentry
      have hget := mem_zipIdx_iff_getElem?.mp (mem_of_mem_take (mem_of_mem_drop hentry))
      rw [taken, hget]
      rfl)
  refine ⟨hunk, hhunk, hbuilt.trans (hread.trans ?_)⟩
  rw [← textOf_append, append_assoc, singleton_append]

theorem notes_kept_iff {diff : List AnnotatedDiffLine} {hunkSrcIx : ℕ} {selected : List ℕ}
    {direction : Direction} {bounds : PatchBounds} {body : List BodyLine} {patch : List Char}
    (hbounds : unifiedPatchFileAndHunkBounds diff hunkSrcIx = some bounds)
    (hbody : BodyRead ((diff.take bounds.hunkEnd).drop (hunkSrcIx + 1)) body)
    (hwf : BodyWellFormed body)
    (hpatch : buildHunkSelection diff hunkSrcIx selected direction.unselectedAdd
      direction.unselectedRemove = some patch) :
    ∃ hunk kept, diff[hunkSrcIx]? = some hunk ∧
      kept = keptLines direction (taken diff selected) (placesFrom (hunkSrcIx + 1) body) ∧
      patch = textOf (((diff.take bounds.headerEnd).drop bounds.fileStart).map (·.text) ++
        hunk.text :: kept.flatMap BodyLine.rendered) ∧
      (SideWhole (oldSide kept) ∧ SideWhole (newSide kept) ↔
        TakenTogether direction (taken diff selected) (placesFrom (hunkSrcIx + 1) body)) := by
  obtain ⟨hunk, hhunk, hprinted⟩ := buildHunkSelection_read hbounds hbody hpatch
  exact ⟨hunk, _, hhunk, rfl, hprinted, kept_whole hwf (hunkSrcIx + 1)⟩

def bareBody : List BodyLine :=
  [⟨.remove, "old".toList, false⟩, ⟨.add, "new".toList, false⟩]

def bareHead : List (List Char) :=
  ["diff --git a/f b/f".toList, "--- a/f".toList, "+++ b/f".toList, "@@ -1 +1 @@".toList]

def bareDiff : List AnnotatedDiffLine :=
  annotateUnified (fromUnified (textOf (bareHead ++ bareBody.flatMap BodyLine.rendered)))

theorem bareBody_wellFormed : BodyWellFormed bareBody :=
  ⟨by decide, by decide, by decide, by decide⟩

theorem bareBody_read : BodyRead (bareDiff.drop 4) bareBody := by
  refine .cut rfl ⟨?_, .inl ?_⟩ ?_ (.cut rfl ⟨?_, .inl ?_⟩ ?_ .done) <;> decide +kernel

theorem unselected_last_line_runs_on :
    buildUnifiedPatchForHunkSelection bareDiff 3 [6] = some (textOf (bareHead ++
      [" old".toList, noNewlineLine, "+new".toList, noNewlineLine])) ∧
      ¬ SideWhole (newSide [⟨.context, "old".toList, false⟩, ⟨.add, "new".toList, false⟩]) ∧
      ((newSide [⟨.context, "old".toList, false⟩, ⟨.add, "new".toList, false⟩]).map
        BodyLine.raw).flatten = "oldnew".toList := by
  refine ⟨by decide +kernel, fun h => ?_, by decide⟩
  exact absurd (h.ends ⟨.context, "old".toList, false⟩ (by decide)) (by decide)

theorem selected_last_lines_are_kept :
    ∃ hunk kept, bareDiff[3]? = some hunk ∧
      kept = keptLines .forward (taken bareDiff [4, 6]) (placesFrom 4 bareBody) ∧
      textOf (bareHead ++ bareBody.flatMap BodyLine.rendered) =
        textOf (((bareDiff.take 3).drop 0).map (·.text) ++
          hunk.text :: kept.flatMap BodyLine.rendered) ∧
      (SideWhole (oldSide kept) ∧ SideWhole (newSide kept) ↔
        TakenTogether .forward (taken bareDiff [4, 6]) (placesFrom 4 bareBody)) := by
  have hbounds : unifiedPatchFileAndHunkBounds bareDiff 3 = some ⟨0, 3, 8⟩ := by decide +kernel
  exact notes_kept_iff hbounds bareBody_read bareBody_wellFormed (by decide +kernel)

end GitComet.Unified
