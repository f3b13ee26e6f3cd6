import GitComet.Unified.PatchRead

namespace GitComet.Unified
open Text KeyGroups List Option Nat

inductive Role where
  | diffGit
  | header
  | hunk
  | body (marker : Marker)
  deriving DecidableEq

def Role.Allows : Role → DiffLineKind → Prop
  | .diffGit, kind => kind = .header
  | .header, kind => kind = .header ∨ kind = .context
  | .hunk, kind => kind = .hunk
  | .body marker, kind => kind = marker.kind

def LineOf (line : AnnotatedDiffLine) (source : Role × List Char) : Prop :=
  line.text = source.2 ∧ source.1.Allows line.kind

def BodyLine.source (line : BodyLine) : Role × List Char :=
  (.body line.marker, line.marker.char :: line.content)

def Hunk.sources (hunk : Hunk) : List (Role × List Char) :=
  (.hunk, hunk.header) :: hunk.body.map BodyLine.source

def FileSection.headerSources (file : FileSection) : List (Role × List Char) :=
  (.diffGit, file.diffGit) :: file.headers.map (.header, ·)

def FileSection.sources (file : FileSection) : List (Role × List Char) :=
  file.headerSources ++ file.hunks.flatMap fun entry => entry.2.sources

def Annotates (files : List FileSection) (diff : List AnnotatedDiffLine) : Prop :=
  Forall₂ LineOf diff (files.flatMap FileSection.sources)

variable {lines : List AnnotatedDiffLine}

theorem lineOf_append {xs ys : List (Role × List Char)} (h : Forall₂ LineOf lines (xs ++ ys)) :
    ∃ front back, lines = front ++ back ∧ Forall₂ LineOf front xs ∧
      Forall₂ LineOf back ys :=
  ⟨lines.take xs.length, lines.drop xs.length, (take_append_drop ..).symm,
    forall₂_take_append lines xs ys h, forall₂_drop_append lines xs ys h⟩

variable {source : BodyLine}

section
variable {line : AnnotatedDiffLine} {text : List Char}

theorem lineOf_hunk (h : LineOf line (.hunk, text)) : isHunk line := decide_eq_true h.2

theorem lineOf_body (h : LineOf line source.source) :
    isHunk line = false ∧ isFileHeader line = false ∧ startsWith line.text ['\\'] = false := by
  have htext : line.text = source.marker.char :: source.content := h.1
  have hkind : line.kind = source.marker.kind := h.2
  refine ⟨?_, ?_, ?_⟩
  · rw [isHunk, hkind]
    cases source.marker <;> rfl
  · rw [isFileHeader, htext]
    cases source.marker <;> rfl
  · rw [htext]
    cases source.marker <;> rfl

theorem lineOf_header (h : LineOf line (.header, text))
    (htext : ¬ startsWith text "diff --git ".toList) :
    isHunk line = false ∧ isFileHeader line = false := by
  refine ⟨?_, ?_⟩
  · rw [isHunk]
    rcases h.2 with hkind | hkind <;> rw [hkind] <;> rfl
  · rw [isFileHeader, h.1]
    exact Bool.eq_false_iff.mpr htext

end

structure HunkPlace (diff : List AnnotatedDiffLine) (file : FileSection) (hunk : Hunk)
    (front : List AnnotatedDiffLine) (head : AnnotatedDiffLine)
    (headers mid : List AnnotatedDiffLine) (hline : AnnotatedDiffLine)
    (body back : List AnnotatedDiffLine) : Prop where
  diff_eq : diff = front ++ head :: headers ++ mid ++ hline :: body ++ back
  headIs : LineOf head (.diffGit, file.diffGit)
  headersAre : Forall₂ LineOf headers (file.headers.map (.header, ·))
  midPlain : ∀ line ∈ mid, isFileHeader line = false
  midStarts : ∀ line ∈ mid.head?, isHunk line = true
  hunkIs : LineOf hline (.hunk, hunk.header)
  bodyIs : Forall₂ LineOf body (hunk.body.map BodyLine.source)
  backStarts : ∀ line ∈ back.head?, (isHunk line || isFileHeader line) = true

section
variable {p : AnnotatedDiffLine → Bool}

theorem findBack_last (front back : List AnnotatedDiffLine) {line : AnnotatedDiffLine}
    (mid : List AnnotatedDiffLine) (hline : p line) (hmid : ∀ l ∈ mid, p l = false) :
    findBack p (front ++ line :: mid ++ back) (front.length + mid.length) = some front.length := by
  induction mid using reverseRecOn generalizing back with
  | nil =>
    have hget : (front ++ line :: [] ++ back)[front.length]? = some line := by simp
    rw [length_nil, add_zero]
    cases hfront : front.length with
    | zero =>
      rw [hfront] at hget
      rw [findBack, hget, any_some, hline, if_pos rfl]
    | succ n =>
      rw [hfront] at hget
      rw [findBack, hget, any_some, hline, if_pos rfl]
  | append_singleton mid last ih =>
    have hlast := hmid last (mem_append_right _ mem_cons_self)
    have hrest := ih (last :: back)
      fun l hl => hmid l (mem_append_left _ hl)
    have hlist : front ++ line :: (mid ++ [last]) ++ back =
        front ++ line :: mid ++ last :: back := by
      simp
    have hlen : front.length + (mid ++ [last]).length = (front.length + mid.length) + 1 := by
      simp [add_assoc]
    have hget : (front ++ line :: mid ++ last :: back)[front.length + mid.length + 1]? =
        some last := by
      rw [getElem?_append_right (by simp [add_assoc])]
      simp [add_assoc]
    rw [hlist, hlen, findBack, hget, any_some, hlast]
    exact hrest

theorem findFrom_next (front mid back : List AnnotatedDiffLine)
    (hmid : ∀ l ∈ mid, p l = false) (hback : ∀ l ∈ back.head?, p l) :
    findFrom p (front ++ mid ++ back) front.length = front.length + mid.length := by
  have hle : front.length ≤ (front ++ mid ++ back).length := by
    simp only [length_append]
    omega
  have hnone : ¬ ∃ l ∈ mid, p l := fun ⟨l, hl, hp⟩ => by
    rw [hmid l hl] at hp
    cases hp
  have hfirst : back.findIdx p = 0 := by
    cases back with
    | nil => rfl
    | cons l back => rw [findIdx_cons, hback l rfl]; rfl
  rw [findFrom, if_pos hle, append_assoc, drop_left, findIdx_append,
    if_neg (by simpa using hnone), hfirst, zero_add]

end

theorem forall₂_mem {α β : Type} {R : α → β → Prop} {xs : List α} {ys : List β}
    (h : Forall₂ R xs ys) {x : α} (hx : x ∈ xs) : ∃ y ∈ ys, R x y := by
  induction h with
  | nil => cases hx
  | cons hr _ ih =>
    rcases mem_cons.mp hx with rfl | hx
    · exact ⟨_, mem_cons_self, hr⟩
    · obtain ⟨y, hy, hr⟩ := ih hx
      exact ⟨y, mem_cons_of_mem _ hy, hr⟩

section
variable {diff : List AnnotatedDiffLine} {file : FileSection} {hunk : Hunk}
  {front headers mid body back : List AnnotatedDiffLine} {head hline : AnnotatedDiffLine}

theorem hunk_not_file (h : LineOf hline (.hunk, hunk.header)) : isFileHeader hline = false := by
  rw [isFileHeader, h.1]
  rfl

theorem bodies_plain {lines : List BodyLine}
    (h : Forall₂ LineOf body (lines.map BodyLine.source)) :
    ∀ line ∈ body, isHunk line = false ∧ isFileHeader line = false := by
  intro line hline
  obtain ⟨source, hsource, hof⟩ := forall₂_mem h hline
  obtain ⟨bodyLine, _, rfl⟩ := mem_map.mp hsource
  exact ⟨(lineOf_body hof).1, (lineOf_body hof).2.1⟩

theorem headers_plain (hwf : file.WellFormed)
    (h : Forall₂ LineOf headers (file.headers.map (.header, ·))) :
    ∀ line ∈ headers, isHunk line = false ∧ isFileHeader line = false := by
  intro line hline
  obtain ⟨source, hsource, hof⟩ := forall₂_mem h hline
  obtain ⟨header, hheader, rfl⟩ := mem_map.mp hsource
  exact lineOf_header hof (hwf.headers header hheader).1

def hunkIx (front headers mid : List AnnotatedDiffLine) : ℕ :=
  front.length + 1 + headers.length + mid.length

theorem place_hline (h : HunkPlace diff file hunk front head headers mid hline body back) :
    diff[hunkIx front headers mid]? = some hline := by
  rw [h.diff_eq, append_assoc, getElem?_append_right (by simp [hunkIx]; omega)]
  have hzero : hunkIx front headers mid - (front ++ head :: headers ++ mid).length = 0 := by
    simp [hunkIx]
    omega
  rw [hzero]
  rfl

theorem place_bounds (hwf : file.WellFormed)
    (h : HunkPlace diff file hunk front head headers mid hline body back) :
    unifiedPatchFileAndHunkBounds diff (hunkIx front headers mid) =
      some ⟨front.length, front.length + 1 + headers.length,
        hunkIx front headers mid + 1 + body.length⟩ := by
  have hheaders := headers_plain hwf h.headersAre
  have hbody := bodies_plain h.bodyIs
  have hhead : isFileHeader head := by
    rw [isFileHeader, h.headIs.1]
    exact hwf.diffGit
  have hstart : findBack isFileHeader diff (hunkIx front headers mid) = some front.length := by
    have hlast := findBack_last front (body ++ back)
      (headers ++ mid ++ [hline]) hhead (by
        intro l hl
        simp only [mem_append, mem_singleton] at hl
        rcases hl with (hl | hl) | rfl
        · exact (hheaders l hl).2
        · exact h.midPlain l hl
        · exact hunk_not_file h.hunkIs)
    have hlist : front ++ head :: (headers ++ mid ++ [hline]) ++ (body ++ back) = diff := by
      rw [h.diff_eq]
      simp
    have hlen : front.length + (headers ++ mid ++ [hline]).length = hunkIx front headers mid := by
      simp [hunkIx]
      omega
    rwa [hlist, hlen] at hlast
  have hfirst : findFrom (fun line => isHunk line || isFileHeader line) diff (front.length + 1) =
      front.length + 1 + headers.length := by
    have hnext := findFrom_next (p := fun line => isHunk line || isFileHeader line)
      (front ++ [head]) headers (mid ++ hline :: body ++ back)
      (fun l hl => by rw [(hheaders l hl).1, (hheaders l hl).2]; rfl) (by
        intro l hl
        cases hmid : mid with
        | nil =>
          rw [hmid] at hl
          cases hl
          rw [lineOf_hunk h.hunkIs, Bool.true_or]
        | cons m more =>
          rw [hmid] at hl
          obtain rfl := some.inj hl
          have hm := h.midStarts m (by rw [hmid]; rfl)
          rw [hm, Bool.true_or])
    have hlist : front ++ [head] ++ headers ++ (mid ++ hline :: body ++ back) = diff := by
      rw [h.diff_eq]
      simp
    have hlen : (front ++ [head]).length = front.length + 1 := by simp
    rwa [hlist, hlen] at hnext
  have hend : findFrom (fun line => isHunk line || isFileHeader line) diff
      (hunkIx front headers mid + 1) = hunkIx front headers mid + 1 + body.length := by
    have hnext := findFrom_next (p := fun line => isHunk line || isFileHeader line)
      (front ++ head :: headers ++ mid ++ [hline]) body back
      (fun l hl => by rw [(hbody l hl).1, (hbody l hl).2]; rfl) h.backStarts
    have hlist : front ++ head :: headers ++ mid ++ [hline] ++ body ++ back = diff := by
      rw [h.diff_eq]
      simp
    have hlen : (front ++ head :: headers ++ mid ++ [hline]).length =
        hunkIx front headers mid + 1 := by
      simp [hunkIx]
      omega
    rwa [hlist, hlen] at hnext
  have hmin : min (front.length + 1 + headers.length) (hunkIx front headers mid) =
      front.length + 1 + headers.length := min_eq_left (by unfold hunkIx; omega)
  simp only [unifiedPatchFileAndHunkBounds, place_hline h, bind_eq_bind, bind_some,
    lineOf_hunk h.hunkIs, Bool.not_true, Bool.false_eq_true, if_false, hstart, hfirst, hend, hmin]

end

def Direction.unselectedAdd : Direction → UnselectedHunkLineBehavior
  | .forward => .drop
  | .reverse => .keepAsContext

def Direction.unselectedRemove : Direction → UnselectedHunkLineBehavior
  | .forward => .keepAsContext
  | .reverse => .drop

def picks (selected : List ℕ) (ix : ℕ) : Bool := decide (ix ∈ selected)

section
variable {direction : Direction} {selected : List ℕ}

def pushLine (direction : Direction) (selected : List ℕ) (st : PatchText)
    (entry : AnnotatedDiffLine × ℕ) : PatchText :=
  pushHunkLine selected direction.unselectedAdd direction.unselectedRemove st entry.2 entry.1

def printed (entries : List (Marker × List Char)) : List Char := entries.flatMap printLine

structure ReadFrom (line : AnnotatedDiffLine) (source : BodyLine) : Prop where
  text : line.text = source.marker.char :: source.content
  kind : line.kind = source.marker.kind ∨ line.kind = .header

theorem lineOf_read {line : AnnotatedDiffLine}
    (h : LineOf line source.source) : ReadFrom line source :=
  ⟨h.1, .inl h.2⟩

variable (direction selected) in
theorem pushLine_read {line : AnnotatedDiffLine} {source : BodyLine} (h : ReadFrom line source)
    (st : PatchText) (ix : ℕ) :
    (pushLine direction selected st (line, ix)).out = st.out ++
        textOf ((keptMarker direction (picks selected ix || decide (line.kind = .header))
          source.marker).map (·.char :: source.content)).toList ∧
      (pushLine direction selected st (line, ix)).prevIncluded =
        (keptMarker direction (picks selected ix || decide (line.kind = .header))
          source.marker).isSome ∧
      (pushLine direction selected st (line, ix)).hasChange =
        (st.hasChange || (decide (line.kind ≠ .header ∧ source.marker ≠ .context) &&
          picks selected ix)) := by
  have hstrip : ∀ c content, stripPrefix [c] (c :: content) = some content := fun c content =>
    stripPrefix_append [c] content
  have hplain : startsWith line.text ['\\'] = false := by
    rw [h.text]
    cases source.marker <;> rfl
  rw [pushLine, pushHunkLine, hplain, if_neg Bool.false_ne_true, h.text]
  rcases h.kind with hkind | hkind
  · rw [hkind]
    cases hm : source.marker with
    | context => simp [Marker.kind, PatchText.push, keptMarker, textOf, Marker.char]
    | remove =>
      by_cases hpick : ix ∈ selected
      · simp [Marker.kind, PatchText.push, keptMarker, textOf, Marker.char, picks, hpick]
      · cases direction with
        | forward =>
          simp [Marker.kind, PatchText.push, keptMarker, textOf, Marker.char, picks, hpick,
            appendUnselectedHunkLine, Direction.unselectedRemove, hstrip]
        | reverse =>
          simp [Marker.kind, keptMarker, textOf, picks, hpick, appendUnselectedHunkLine,
            Direction.unselectedRemove]
    | add =>
      by_cases hpick : ix ∈ selected
      · simp [Marker.kind, PatchText.push, keptMarker, textOf, Marker.char, picks, hpick]
      · cases direction with
        | forward =>
          simp [Marker.kind, keptMarker, textOf, picks, hpick, appendUnselectedHunkLine,
            Direction.unselectedAdd]
        | reverse =>
          simp [Marker.kind, PatchText.push, keptMarker, textOf, Marker.char, picks, hpick,
            appendUnselectedHunkLine, Direction.unselectedAdd, hstrip]
  · rw [hkind]
    cases source.marker <;> simp [PatchText.push, keptMarker, textOf]

theorem pushLine_body {line : AnnotatedDiffLine}
    (h : LineOf line source.source) (hterm : source.terminated) (st : PatchText) (ix : ℕ) :
    (pushLine direction selected st (line, ix)).out = st.out ++
        printed ((keptMarker direction (picks selected ix) source.marker).map
          (·, source.raw)).toList ∧
      (pushLine direction selected st (line, ix)).hasChange =
        (st.hasChange || (decide (source.marker ≠ .context) && picks selected ix)) := by
  have hkind : line.kind ≠ .header := by
    rw [show line.kind = source.marker.kind from h.2]
    cases source.marker <;> decide
  have hraw : source.raw = source.content ++ ['\n'] := by rw [BodyLine.raw, hterm]; rfl
  obtain ⟨hout, -, hchange⟩ := pushLine_read direction selected (lineOf_read h) st ix
  rw [decide_eq_false hkind, Bool.or_false] at hout
  rw [hout, hchange, hraw]
  refine ⟨?_, by simp [hkind]⟩
  cases keptMarker direction (picks selected ix) source.marker <;>
    simp [textOf, printed, printLine]

theorem pushLine_lines {body : List BodyLine}
    (h : Forall₂ LineOf lines (body.map BodyLine.source))
    (hterm : ∀ line ∈ body, line.terminated) (st : PatchText) (ix : ℕ) :
    ((lines.zipIdx ix).foldl (pushLine direction selected) st).out =
        st.out ++ printed (patchBody direction (picks selected) ix body) ∧
      ((lines.zipIdx ix).foldl (pushLine direction selected) st).hasChange =
        (st.hasChange || hasPick (picks selected) ix body) := by
  induction body generalizing lines st ix with
  | nil =>
    cases h
    simp [patchBody, hasPick, printed]
  | cons source body ih =>
    rw [map_cons] at h
    cases h with
    | @cons line _ lines _ hline hrest =>
      obtain ⟨hsource, hbody⟩ := forall_mem_cons.mp hterm
      obtain ⟨hout, hchange⟩ := pushLine_body hline hsource st ix
      obtain ⟨hout', hchange'⟩ :=
        ih hrest hbody (pushLine direction selected st (line, ix)) (ix + 1)
      rw [zipIdx_cons, foldl_cons, hout', hchange', hout, hchange, patchBody, hasPick]
      refine ⟨?_, Bool.or_assoc ..⟩
      rw [printed, printed, printed, flatMap_append, append_assoc]

end

theorem zipIdx_slice {α : Type} (lines : List α) (start stop : ℕ) :
    (lines.zipIdx.take stop).drop start = ((lines.take stop).drop start).zipIdx start := by
  refine ext_getElem? fun i => ?_
  by_cases h : start + i < stop <;>
    simp [getElem?_drop, getElem?_zipIdx, h]

theorem buildHunkSelection_some {diff : List AnnotatedDiffLine} {hunkSrcIx : ℕ}
    {selected : List ℕ} {unselectedAdd unselectedRemove : UnselectedHunkLineBehavior}
    {patch : List Char}
    (h : buildHunkSelection diff hunkSrcIx selected unselectedAdd unselectedRemove = some patch) :
    ∃ bounds hunk, unifiedPatchFileAndHunkBounds diff hunkSrcIx = some bounds ∧
      diff[hunkSrcIx]? = some hunk ∧
      patch = ((((diff.take bounds.hunkEnd).drop (hunkSrcIx + 1)).zipIdx (hunkSrcIx + 1)).foldl
        (fun st entry => pushHunkLine selected unselectedAdd unselectedRemove st entry.2 entry.1)
        ⟨textOf (((diff.take bounds.headerEnd).drop bounds.fileStart).map (·.text) ++
          [hunk.text]), false, false⟩).out := by
  unfold buildHunkSelection at h
  split at h
  · cases h
  · obtain ⟨bounds, hbounds, hfile⟩ := bind_eq_some_iff.mp h
    obtain ⟨hunk, hhunk, hbuilt⟩ := bind_eq_some_iff.mp hfile
    simp only [ite_none_right_eq_some, zipIdx_slice] at hbuilt
    have hhead : textOf (((diff.take bounds.headerEnd).drop bounds.fileStart).map (·.text) ++
        [hunk.text]) = ((diff.take bounds.headerEnd).drop bounds.fileStart).flatMap
          (fun line => line.text ++ ['\n']) ++ hunk.text ++ ['\n'] := by
      simp only [textOf, flatMap_append, flatMap_map, flatMap_singleton, append_assoc]
    rw [← hhead] at hbuilt
    exact ⟨bounds, hunk, hbounds, hhunk, (some.inj hbuilt.2).symm⟩

section
variable {diff : List AnnotatedDiffLine} {file : FileSection} {hunk : Hunk}
  {front headers mid body back : List AnnotatedDiffLine} {head hline : AnnotatedDiffLine}

theorem texts_of_headers {names : List (List Char)}
    (h : Forall₂ LineOf lines (names.map (Role.header, ·))) :
    lines.map (·.text) = names := by
  induction names generalizing lines with
  | nil =>
    cases h
    rfl
  | cons name names ih =>
    rw [map_cons] at h
    cases h with
    | cons hline hrest => rw [map_cons, ih hrest, hline.1]

theorem place_headers (h : HunkPlace diff file hunk front head headers mid hline body back) :
    ((diff.take (front.length + 1 + headers.length)).drop front.length) = head :: headers := by
  have hlist : diff = front ++ (head :: headers) ++ (mid ++ hline :: body ++ back) := by
    rw [h.diff_eq]
    simp
  have hlen : front.length + 1 + headers.length = (front ++ head :: headers).length := by
    simp
    omega
  rw [hlist, hlen, take_left, drop_left]

theorem place_body (h : HunkPlace diff file hunk front head headers mid hline body back) :
    (diff.zipIdx.take (hunkIx front headers mid + 1 + body.length)).drop
      (hunkIx front headers mid + 1) = body.zipIdx (hunkIx front headers mid + 1) := by
  have hlist : diff = (front ++ head :: headers ++ mid ++ [hline]) ++ body ++ back := by
    rw [h.diff_eq]
    simp
  have hlen : (front ++ head :: headers ++ mid ++ [hline]).length =
      hunkIx front headers mid + 1 := by
    simp [hunkIx]
    omega
  have hfront : ((front ++ head :: headers ++ mid ++ [hline]).zipIdx).length =
      hunkIx front headers mid + 1 := by rw [length_zipIdx, hlen]
  have hboth : ((front ++ head :: headers ++ mid ++ [hline]).zipIdx ++
      body.zipIdx (hunkIx front headers mid + 1)).length =
      hunkIx front headers mid + 1 + body.length := by
    rw [length_append, hfront, length_zipIdx]
  rw [hlist, zipIdx_append, zipIdx_append, hlen, zero_add, ← hboth, take_left,
    ← hfront, drop_left]

theorem section_flatten (direction : Direction) (pick : ℕ → Bool) (file : FileSection) (ix : ℕ)
    (hunk : Hunk) :
    (pickedSection direction pick file ix hunk).flatten =
      (file.diffGit :: file.headers).flatMap (· ++ ['\n']) ++ hunk.header ++ ['\n'] ++
        printed (patchBody direction pick (ix + 1) hunk.body) := by
  simp [pickedSection, fullLine, printed, flatMap]
  rfl

theorem buildHunkSelection_place {direction : Direction} (hwf : file.WellFormed)
    (hterm : ∀ line ∈ hunk.body, line.terminated)
    (h : HunkPlace diff file hunk front head headers mid hline body back) {selected : List ℕ}
    (hpick : hasPick (picks selected) (hunkIx front headers mid + 1) hunk.body) :
    buildHunkSelection diff (hunkIx front headers mid) selected direction.unselectedAdd
        direction.unselectedRemove =
      some (pickedSection direction (picks selected) file (hunkIx front headers mid)
        hunk).flatten := by
  have hsome : selected ≠ [] := by
    rintro rfl
    have hno : ∀ (ix : ℕ) (lines : List BodyLine), hasPick (picks []) ix lines = false := by
      intro ix lines
      induction lines generalizing ix with
      | nil => rfl
      | cons line lines ih => rw [hasPick, ih]; simp [picks]
    rw [hno] at hpick
    cases hpick
  have htexts : (head :: headers).flatMap (fun line => line.text ++ ['\n']) =
      (file.diffGit :: file.headers).flatMap (· ++ ['\n']) := by
    rw [← texts_of_headers h.headersAre]
    have hhead := h.headIs.1
    simp only [] at hhead
    rw [flatMap_cons, flatMap_cons, hhead, flatMap_map]
  obtain ⟨hout, hchange⟩ := pushLine_lines
    h.bodyIs hterm ⟨(head :: headers).flatMap (fun line => line.text ++ ['\n']) ++ hline.text ++
      ['\n'], false, false⟩ (hunkIx front headers mid + 1)
  rw [hpick, Bool.or_true] at hchange
  have hhunk := h.hunkIs.1
  unfold buildHunkSelection
  rw [if_neg hsome]
  simp only [place_bounds hwf h, place_headers h, place_hline h, place_body h,
    bind_eq_bind, bind_some]
  have hfold : ∀ st : PatchText, (body.zipIdx (hunkIx front headers mid + 1)).foldl
      (fun st entry => pushHunkLine selected direction.unselectedAdd direction.unselectedRemove
        st entry.2 entry.1) st =
      (body.zipIdx (hunkIx front headers mid + 1)).foldl (pushLine direction selected) st :=
    fun _ => rfl
  rw [hfold, hchange, if_pos rfl, hout, section_flatten, htexts, hhunk]

end

end GitComet.Unified
