import GitComet.Unified.Section

namespace GitComet.Unified
open Text List Option

def readLine (raw : List Char) : DiffLine :=
  ⟨classifyUnifiedLine (trimUnifiedLine raw), trimUnifiedLine raw⟩

theorem fromUnified_textOf {lines : List (List Char)} (h : ∀ line ∈ lines, '\n' ∉ line) :
    fromUnified (textOf lines) = lines.map readLine := by
  rw [fromUnified, splitInclusive_textOf h, List.map_map]
  refine map_congr_left fun line _ => ?_
  simp [stripSuffix, readLine]

theorem trimUnifiedLine_return (xs : List Char) : trimUnifiedLine (xs ++ ['\r']) = xs := by
  rw [trimUnifiedLine, stripSuffix, if_pos (getLast?_concat ..), getD_some, dropLast_concat]

theorem trimUnifiedLine_last {d : Char} (h : d ≠ '\r') (xs : List Char) :
    trimUnifiedLine (xs ++ [d]) = xs ++ [d] := by
  have hlast : ¬ (xs ++ [d]).getLast? = some '\r' := by
    rw [getLast?_concat]
    exact fun heq => h (some.inj heq)
  rw [trimUnifiedLine, stripSuffix, if_neg hlast, getD_none]

theorem trimUnifiedLine_append {c : Char} (h : c ≠ '\r') (xs ys : List Char) :
    trimUnifiedLine (xs ++ c :: ys) = xs ++ c :: trimUnifiedLine ys := by
  cases ys using reverseRecOn with
  | nil => exact trimUnifiedLine_last h xs
  | append_singleton ys d =>
    have happ : xs ++ c :: (ys ++ [d]) = (xs ++ c :: ys) ++ [d] := by
      rw [append_assoc, cons_append]
    rw [happ]
    by_cases hd : d = '\r'
    · subst hd
      rw [trimUnifiedLine_return, trimUnifiedLine_return]
    · rw [trimUnifiedLine_last hd, trimUnifiedLine_last hd, ← happ]

theorem startsWith_trimmed {m : List Char} (h : '\r' ∉ m) (text : List Char) :
    startsWith (trimUnifiedLine text) m = startsWith text m := by
  cases text using reverseRecOn with
  | nil => rfl
  | append_singleton text d =>
    by_cases hd : d = '\r'
    · subst hd
      rw [trimUnifiedLine_return, Bool.eq_iff_iff, startsWith_iff, startsWith_iff]
      constructor
      · rintro ⟨rest, rfl⟩
        exact ⟨rest ++ ['\r'], by rw [append_assoc]⟩
      · rintro ⟨rest, hrest⟩
        cases rest using reverseRecOn with
        | nil =>
          have hmem : '\r' ∈ m := by
            rw [append_nil] at hrest
            exact hrest ▸ mem_append_right _ mem_cons_self
          exact absurd hmem h
        | append_singleton rest d =>
          rw [← append_assoc] at hrest
          exact ⟨rest, (append_inj' hrest rfl).1⟩
    · rw [trimUnifiedLine_last hd]

theorem startsWith_cons (c : Char) (text mark : List Char) :
    startsWith (c :: text) (c :: mark) = startsWith text mark := by
  simp [startsWith]

theorem classify_context (content : List Char) :
    classifyUnifiedLine (' ' :: content) = .context := rfl

theorem classify_remove (content : List Char) : classifyUnifiedLine ('-' :: content) =
    if startsWith content "-- ".toList then .header else .remove := by
  have hcons := startsWith_cons '-' content "-- ".toList
  change (if startsWith ('-' :: content) ('-' :: "-- ".toList) then _ else _) = _
  rw [hcons]

theorem classify_add (content : List Char) : classifyUnifiedLine ('+' :: content) =
    if startsWith content "++ ".toList then .header else .add := by
  have hcons := startsWith_cons '+' content "++ ".toList
  change (if startsWith ('+' :: content) ('+' :: "++ ".toList) then _ else _) = _
  rw [hcons]

theorem marker_char_ne (marker : Marker) : marker.char ≠ '\r' := by
  cases marker <;> decide

theorem readLine_body (line : BodyLine) : readLine (line.marker.char :: line.content) =
    ⟨classifyUnifiedLine (line.marker.char :: trimUnifiedLine line.content),
      line.marker.char :: trimUnifiedLine line.content⟩ := by
  have htrim := trimUnifiedLine_append (marker_char_ne line.marker) [] line.content
  simp only [nil_append] at htrim
  rw [readLine, htrim]

variable {line : BodyLine}

theorem readLine_kind (h : ¬ line.ImitatesHeader) :
    (readLine (line.marker.char :: line.content)).kind = line.marker.kind := by
  have hminus := startsWith_trimmed (m := "-- ".toList) (by decide) line.content
  have hplus := startsWith_trimmed (m := "++ ".toList) (by decide) line.content
  rw [readLine_body]
  cases hm : line.marker with
  | context => exact classify_context (trimUnifiedLine line.content)
  | remove =>
    have hno : ¬ startsWith (trimUnifiedLine line.content) "-- ".toList :=
      fun hs => h (.inl ⟨hm, hminus ▸ hs⟩)
    exact (classify_remove _).trans (if_neg hno)
  | add =>
    have hno : ¬ startsWith (trimUnifiedLine line.content) "++ ".toList :=
      fun hs => h (.inr ⟨hm, hplus ▸ hs⟩)
    exact (classify_add _).trans (if_neg hno)

theorem readLine_imitation (h : line.ImitatesHeader) :
    (readLine (line.marker.char :: line.content)).kind ≠ line.marker.kind := by
  have hminus := startsWith_trimmed (m := "-- ".toList) (by decide) line.content
  have hplus := startsWith_trimmed (m := "++ ".toList) (by decide) line.content
  rw [readLine_body]
  rcases h with ⟨hm, hs⟩ | ⟨hm, hs⟩
  · rw [hm]
    have hkind := (classify_remove (trimUnifiedLine line.content)).trans (if_pos (hminus.trans hs))
    exact fun heq => by cases hkind.symm.trans heq
  · rw [hm]
    have hkind := (classify_add (trimUnifiedLine line.content)).trans (if_pos (hplus.trans hs))
    exact fun heq => by cases hkind.symm.trans heq

theorem readLine_noNewline : readLine noNewlineLine = ⟨.context, noNewlineLine⟩ := by decide

theorem headerLine_trim (oldRange newRange heading : List Char) :
    trimUnifiedLine (headerLine oldRange newRange heading) =
      headerLine oldRange newRange (trimUnifiedLine heading) := by
  have happ : ∀ heading, headerLine oldRange newRange heading =
      ('@' :: '@' :: ' ' :: '-' :: oldRange ++ ' ' :: '+' :: newRange ++ [' ', '@']) ++
        '@' :: heading := by
    intro heading
    simp [headerLine]
  rw [happ, happ, trimUnifiedLine_append (by decide)]

theorem readLine_header (hunk : Hunk) : readLine hunk.header =
    ⟨.hunk, headerLine hunk.oldRange hunk.newRange (trimUnifiedLine hunk.heading)⟩ := by
  rw [readLine, Hunk.header, headerLine_trim]
  rfl

def Right (line : AnnotatedDiffLine) (expected : Option TrueLine) : Prop :=
  ∀ t, expected = some t → line.kind = t.kind ∧
    line.oldLine.map UInt32.toNat = t.oldLine ∧ line.newLine.map UInt32.toNat = t.newLine

abbrev AllRight (lines : List AnnotatedDiffLine) (expected : List (Option TrueLine)) : Prop :=
  Forall₂ Right lines expected

theorem right_none (line : AnnotatedDiffLine) : Right line none := by
  intro t ht
  cases ht

theorem annotateFrom_kinds (a b : Option UInt32) (lines : List DiffLine) :
    (annotateFrom a b lines).map AnnotatedDiffLine.kind = lines.map DiffLine.kind := by
  induction lines generalizing a b with
  | nil => rfl
  | cons line lines ih =>
    cases hkind : line.kind with
    | hunk =>
      unfold annotateFrom
      rw [hkind]
      dsimp only
      split
      · rw [map_cons, map_cons, ih, hkind]
      · rw [map_cons, map_cons, ih, hkind]
    | header => rw [annotateFrom, hkind, map_cons, map_cons, ih, hkind]
    | context => rw [annotateFrom, hkind, map_cons, map_cons, ih, hkind]
    | remove => rw [annotateFrom, hkind, map_cons, map_cons, ih, hkind]
    | add => rw [annotateFrom, hkind, map_cons, map_cons, ih, hkind]

theorem readCorrectly_iff_right (files : List FileSection) : ReadCorrectly files ↔
    AllRight (annotateUnified (fromUnified (diffText files)))
      (files.flatMap FileSection.expected) := by
  have hmap := annotateFrom_kinds none none (fromUnified (diffText files))
  have hkinds : Forall₂ KindRight (fromUnified (diffText files))
      (files.flatMap FileSection.expected) ↔
      Forall₂ (fun line expected => ∀ t, expected = some t → line.kind = t.kind)
        (annotateUnified (fromUnified (diffText files))) (files.flatMap FileSection.expected) := by
    have hleft := forall₂_map_left_iff (f := DiffLine.kind)
      (R := fun kind expected => ∀ t : TrueLine, expected = some t → kind = t.kind)
      (l := fromUnified (diffText files)) (u := files.flatMap FileSection.expected)
    rw [← hmap, forall₂_map_left_iff] at hleft
    exact hleft.symm
  constructor
  · intro h
    exact Forall₂.mp (fun line expected hk hn t ht => ⟨hk t ht, hn t ht⟩)
      (hkinds.mp h.kinds) h.numbers
  · intro h
    exact ⟨hkinds.mpr (h.imp fun line expected hr t ht => (hr t ht).1),
      h.imp fun line expected hr t ht => (hr t ht).2⟩

theorem annotateFrom_hunk {line : DiffLine} (h : line.kind = .hunk) (a b : Option UInt32)
    (lines : List DiffLine) :
    annotateFrom a b (line :: lines) = ⟨.hunk, line.text, none, none⟩ ::
      annotateFrom ((parseUnifiedHunkHeader line.text).map Prod.fst)
        ((parseUnifiedHunkHeader line.text).map Prod.snd) lines := by
  rw [annotateFrom, h]
  cases hparse : parseUnifiedHunkHeader line.text <;> simp

def counted (here : Bool) (counter : Option UInt32) : Option UInt32 :=
  if here then bump counter else counter

def shown (here : Bool) (counter : Option UInt32) : Option UInt32 :=
  if here then counter else none

theorem annotateFrom_marker {line : DiffLine} {m : Marker} (h : line.kind = m.kind)
    (a b : Option UInt32) (lines : List DiffLine) :
    annotateFrom a b (line :: lines) = ⟨m.kind, line.text, shown m.onOld a, shown m.onNew b⟩ ::
        annotateFrom (counted m.onOld a) (counted m.onNew b) lines := by
  cases m <;> rw [annotateFrom, h] <;> rfl

theorem annotateFrom_head (a b : Option UInt32) (line : DiffLine) (lines : List DiffLine) :
    ∃ x a' b', annotateFrom a b (line :: lines) = x :: annotateFrom a' b' lines ∧
      x.kind = line.kind := by
  cases hkind : line.kind with
  | hunk => exact ⟨_, _, _, annotateFrom_hunk hkind a b lines, rfl⟩
  | header =>
    exact ⟨⟨.header, line.text, none, none⟩, a, b, by rw [annotateFrom, hkind], rfl⟩
  | context => exact ⟨_, _, _, annotateFrom_marker (m := .context) hkind a b lines, rfl⟩
  | remove => exact ⟨_, _, _, annotateFrom_marker (m := .remove) hkind a b lines, rfl⟩
  | add => exact ⟨_, _, _, annotateFrom_marker (m := .add) hkind a b lines, rfl⟩

def Ready (here : Marker → Bool) (position : ℕ) (counter : Option UInt32)
    (body : List BodyLine) : Prop :=
  (∃ line ∈ body, here line.marker = true) → counter = some (UInt32.ofNat (position + 1))

variable {here : Marker → Bool} {position : ℕ} {counter : Option UInt32} {body : List BodyLine}

theorem ready_step (h : Ready here position counter (line :: body)) :
    Ready here (after position (here line.marker)) (counted (here line.marker) counter) body := by
  rintro ⟨next, hnext, hhere⟩
  have hcounter := h ⟨next, mem_cons_of_mem _ hnext, hhere⟩
  subst hcounter
  cases here line.marker with
  | false => rfl
  | true => simp [counted, bump, after, UInt32.ofNat_add]

theorem toNat_ofNat_iff (n : ℕ) : (UInt32.ofNat n).toNat = n ↔ n ≤ u32Max := by
  rw [UInt32.toNat_ofNat']
  unfold u32Max
  omega

theorem shown_right (h : Ready here position counter (line :: body)) :
    (shown (here line.marker) counter).map UInt32.toNat = numberOf position (here line.marker) ↔
      (here line.marker → position + 1 ≤ u32Max) := by
  cases hhere : here line.marker with
  | false => simp [shown, numberOf]
  | true =>
    have hcounter := h ⟨line, mem_cons_self, hhere⟩
    subst hcounter
    simp only [shown, numberOf, if_true, map_some, some.injEq, toNat_ofNat_iff,
      true_imp_iff]

theorem marker_on_some (marker : Marker) : marker.onOld ∨ marker.onNew := by
  cases marker <;> simp [Marker.onOld, Marker.onNew]

variable {old new : ℕ}

theorem right_line_iff {a b : Option UInt32} {text : List Char}
    (ha : Ready Marker.onOld old a (line :: body)) (hb : Ready Marker.onNew new b (line :: body)) :
    Right ⟨line.marker.kind, text, shown line.marker.onOld a, shown line.marker.onNew b⟩
      (some ⟨line.marker.kind, numberOf old line.marker.onOld, numberOf new line.marker.onNew⟩) ↔
      (line.marker.onOld → old + 1 ≤ u32Max) ∧
        (line.marker.onNew → new + 1 ≤ u32Max) := by
  rw [← shown_right ha, ← shown_right hb]
  constructor
  · exact fun h => (h _ rfl).2
  · intro h t ht
    cases ht
    exact ⟨rfl, h⟩

theorem right_kind {line : AnnotatedDiffLine} {t : TrueLine} (h : Right line (some t)) :
    line.kind = t.kind := (h t rfl).1

theorem allRight_cons_none {line : AnnotatedDiffLine} {lines : List AnnotatedDiffLine}
    {expected : List (Option TrueLine)} :
    AllRight (line :: lines) (none :: expected) ↔ AllRight lines expected := by
  rw [AllRight, forall₂_cons]
  exact ⟨fun h => h.2, fun h => ⟨right_none line, h⟩⟩

section
variable {rest : List DiffLine} {restExpected : List (Option TrueLine)} {readable : Prop}

def bodyLines (body : List BodyLine) : List DiffLine :=
  (body.flatMap BodyLine.rendered).map readLine

theorem bodyLines_cons (line : BodyLine) (body : List BodyLine) :
    bodyLines (line :: body) = readLine (line.marker.char :: line.content) ::
      ((if line.terminated then [] else [readLine noNewlineLine]) ++ bodyLines body) := by
  rw [bodyLines, flatMap_cons, map_append, BodyLine.rendered]
  cases line.terminated <;> rfl

def Misnumbered (here : Marker → Bool) (position : ℕ) (counter : Option UInt32)
    (line : BodyLine) : Prop :=
  here line.marker = true → (shown (here line.marker) counter).map UInt32.toNat ≠
    numberOf position (here line.marker)

theorem shifted_misnumbered (h : Ready here position counter (line :: body)) :
    Misnumbered here position (bump counter) line := by
  intro hhere
  have hcounter := h ⟨line, mem_cons_self, hhere⟩
  subst hcounter
  simp only [hhere, shown, numberOf, if_true, bump, map_some, ne_eq, some.injEq]
  intro heq
  have hnext : UInt32.ofNat (position + 1) + 1 = UInt32.ofNat (position + 1) := by
    conv => rhs; rw [← heq]
    exact UInt32.ofNat_toNat.symm
  exact absurd hnext (by simp)

variable (rest restExpected) in
theorem misnumbered_body_wrong {old new : ℕ} {a b : Option UInt32} {line : BodyLine}
    (ha : Misnumbered Marker.onOld old a line) (hb : Misnumbered Marker.onNew new b line)
    (body : List BodyLine) :
    ¬ AllRight (annotateFrom a b (bodyLines (line :: body) ++ rest))
      (expectedBody old new (line :: body) ++ restExpected) := by
  rw [bodyLines_cons]
  intro h
  by_cases him : line.ImitatesHeader
  · obtain ⟨x, a', b', hx, hkind⟩ := annotateFrom_head a b
      (readLine (line.marker.char :: line.content))
      (((if line.terminated then [] else [readLine noNewlineLine]) ++ bodyLines body) ++ rest)
    rw [cons_append, hx, expectedBody] at h
    have hright := right_kind (forall₂_cons.mp h).1
    exact readLine_imitation him (hkind.symm.trans hright)
  · rw [cons_append, annotateFrom_marker (readLine_kind him), expectedBody] at h
    have hright := (forall₂_cons.mp h).1 _ rfl
    rcases marker_on_some line.marker with hon | hon
    · exact ha hon hright.2.1
    · exact hb hon hright.2.2

theorem uncounted_misnumbered (here : Marker → Bool) (position : ℕ) (line : BodyLine) :
    Misnumbered here position none line := by
  intro hhere
  simp [hhere, shown, numberOf]

theorem body_right_iff (hrest : ∀ a b, AllRight (annotateFrom a b rest) restExpected ↔ readable)
    (body : List BodyLine) {a b : Option UInt32}
    (ha : Ready Marker.onOld old a body) (hb : Ready Marker.onNew new b body) :
    AllRight (annotateFrom a b (bodyLines body ++ rest))
      (expectedBody old new body ++ restExpected) ↔ ReadableBody old new body ∧ readable := by
  induction body generalizing old new a b with
  | nil => simp [bodyLines, expectedBody, ReadableBody, hrest]
  | cons line body ih =>
    have ha' := ready_step ha
    have hb' := ready_step hb
    rw [bodyLines_cons, expectedBody, ReadableBody]
    by_cases him : line.ImitatesHeader
    · constructor
      · intro h
        obtain ⟨x, a', b', hx, hkind⟩ := annotateFrom_head a b
          (readLine (line.marker.char :: line.content))
          (((if line.terminated then [] else [readLine noNewlineLine]) ++ bodyLines body) ++ rest)
        rw [cons_append, hx] at h
        have hright := right_kind (forall₂_cons.mp h).1
        exact absurd (hkind.symm.trans hright) (readLine_imitation him)
      · exact fun h => absurd him h.1.1
    rw [cons_append, annotateFrom_marker (readLine_kind him), cons_append,
      cons_append, AllRight, forall₂_cons, right_line_iff ha hb]
    cases hterm : line.terminated with
    | true =>
      have hnext := ih ha' hb'
      simp only [if_true, nil_append, hnext, him, not_false_eq_true, true_and,
        Bool.true_eq_false, false_imp_iff, and_assoc]
    | false =>
      simp only [Bool.false_eq_true, if_false, cons_append, nil_append, readLine_noNewline]
      rw [annotateFrom_marker (m := .context) rfl, ← AllRight, allRight_cons_none]
      cases body with
      | nil =>
        simp [bodyLines, expectedBody, ReadableBody, hrest, him, and_assoc]
      | cons next body =>
        have hwrong := misnumbered_body_wrong rest restExpected
          (shifted_misnumbered ha') (shifted_misnumbered hb') body
        constructor
        · exact fun h => absurd h.2 hwrong
        · intro h
          have hempty := h.1.2.2.2.1
          cases hempty trivial

end

section
variable {rest : List DiffLine} {restExpected : List (Option TrueLine)} {readable : Prop}

def hunkLines (hunks : List (List (List Char) × Hunk)) : List DiffLine :=
  (hunks.flatMap fun entry => entry.2.rendered).map readLine

theorem hunkLines_cons (skipped : List (List Char)) (hunk : Hunk)
    (hunks : List (List (List Char) × Hunk)) :
    hunkLines ((skipped, hunk) :: hunks) =
      readLine hunk.header :: (bodyLines hunk.body ++ hunkLines hunks) := by
  rw [hunkLines, flatMap_cons, map_append]
  rfl

theorem ready_start (position : ℕ) (body : List BodyLine) :
    Ready here position (some (UInt32.ofNat (rangeStart position
      (body.filter fun line => here line.marker).length))) body := by
  rintro ⟨line, hline, hhere⟩
  have hmem : line ∈ body.filter fun line => here line.marker :=
    mem_filter.mpr ⟨hline, hhere⟩
  have hpos := length_pos_of_mem hmem
  rw [rangeStart, if_neg (Nat.pos_iff_ne_zero.mp hpos)]

theorem hunks_right_iff (hrest : ∀ a b, AllRight (annotateFrom a b rest) restExpected ↔ readable)
    (hunks : List (List (List Char) × Hunk)) (hplaced : WellPlaced old new hunks)
    (hbodies : ∀ entry ∈ hunks, entry.2.body ≠ []) (a b : Option UInt32) :
    AllRight (annotateFrom a b (hunkLines hunks ++ rest))
      (expectedHunks old new hunks ++ restExpected) ↔ ReadableHunks old new hunks ∧ readable := by
  induction hunks generalizing old new a b with
  | nil => simp [hunkLines, expectedHunks, ReadableHunks, hrest]
  | cons entry hunks ih =>
    obtain ⟨skipped, hunk⟩ := entry
    obtain ⟨hold, hnew, hplaced⟩ := hplaced
    have hnext := fun a b =>
      ih hplaced (fun entry hentry => hbodies entry (mem_cons_of_mem _ hentry)) a b
    have hparse := parseUnifiedHunkHeader_headerLine hold hnew (trimUnifiedLine hunk.heading)
    rw [hunkLines_cons, expectedHunks, ReadableHunks, cons_append,
      annotateFrom_hunk (by rw [readLine_header]), cons_append, cons_append,
      allRight_cons_none, readLine_header, hparse, append_assoc, append_assoc]
    by_cases hfits : rangeStart (old + skipped.length) (oldSide hunk.body).length ≤ u32Max ∧
        rangeStart (new + skipped.length) (newSide hunk.body).length ≤ u32Max
    · have ha : Ready Marker.onOld (old + skipped.length) (some (UInt32.ofNat
          (rangeStart (old + skipped.length) (oldSide hunk.body).length))) hunk.body :=
        ready_start _ _
      have hb : Ready Marker.onNew (new + skipped.length) (some (UInt32.ofNat
          (rangeStart (new + skipped.length) (newSide hunk.body).length))) hunk.body :=
        ready_start _ _
      rw [if_pos hfits, map_some, map_some, body_right_iff hnext hunk.body ha hb]
      simp only [hfits, true_and, and_assoc]
    · rw [if_neg hfits]
      constructor
      · intro h
        obtain ⟨line, body, hbody⟩ := exists_cons_of_ne_nil (hbodies _ mem_cons_self)
        dsimp only at hbody
        rw [hbody] at h
        exact absurd h (misnumbered_body_wrong _ _ (uncounted_misnumbered _ _ _)
          (uncounted_misnumbered _ _ _) body)
      · exact fun h => absurd ⟨h.1.1, h.1.2.1⟩ hfits

end

section
variable {rest : List DiffLine} {restExpected : List (Option TrueLine)} {readable : Prop}

theorem headers_right_iff (hrest : ∀ a b, AllRight (annotateFrom a b rest) restExpected ↔ readable)
    (lines : List (List Char)) (a b : Option UInt32) :
    AllRight (annotateFrom a b (lines.map readLine ++ rest))
      (lines.map (fun _ => none) ++ restExpected) ↔ readable := by
  induction lines generalizing a b with
  | nil => exact hrest a b
  | cons line lines ih =>
    obtain ⟨x, a', b', hx, _⟩ := annotateFrom_head a b (readLine line) (lines.map readLine ++ rest)
    rw [map_cons, map_cons, cons_append, cons_append, hx, allRight_cons_none, ih]

theorem file_right_iff {file : FileSection} (h : file.WellFormed)
    (hrest : ∀ a b, AllRight (annotateFrom a b rest) restExpected ↔ readable)
    (a b : Option UInt32) :
    AllRight (annotateFrom a b (file.rendered.map readLine ++ rest))
      (file.expected ++ restExpected) ↔ file.Readable ∧ readable := by
  have hhunks := hunks_right_iff hrest file.hunks h.placed h.bodies
  have hfile := headers_right_iff hhunks (file.diffGit :: file.headers) a b
  rw [FileSection.rendered, FileSection.expected, map_append, append_assoc, append_assoc]
  exact hfile

theorem files_right_iff {files : List FileSection} (h : ∀ file ∈ files, file.WellFormed)
    (a b : Option UInt32) :
    AllRight (annotateFrom a b ((files.flatMap FileSection.rendered).map readLine))
      (files.flatMap FileSection.expected) ↔ ∀ file ∈ files, file.Readable := by
  induction files generalizing a b with
  | nil => simp [annotateFrom, AllRight]
  | cons file files ih =>
    have hrest := ih fun f hf => h f (mem_cons_of_mem _ hf)
    rw [flatMap_cons, flatMap_cons, map_append,
      file_right_iff (h file mem_cons_self) hrest, forall_mem_cons]

theorem diffText_lines {files : List FileSection} (h : ∀ file ∈ files, file.WellFormed) :
    fromUnified (diffText files) = (files.flatMap FileSection.rendered).map readLine :=
  fromUnified_textOf fun line hline => by
    obtain ⟨file, hfile, hline⟩ := mem_flatMap.mp hline
    exact (h file hfile).unbroken line hline

theorem unified_lines_read_iff (files : List FileSection) (h : ∀ file ∈ files, file.WellFormed) :
    ReadCorrectly files ↔ ∀ file ∈ files, file.Readable := by
  rw [readCorrectly_iff_right, diffText_lines h]
  exact files_right_iff h none none

end

def dashedRemoval : FileSection where
  diffGit := "diff --git a/a b/a".toList
  headers := ["--- a/a".toList, "+++ b/a".toList]
  hunks := [([], ⟨decimal 1, decimal 0 ++ ',' :: decimal 0, [],
    [⟨.remove, "-- a".toList, true⟩]⟩)]
  tail := []

theorem dashedRemoval_wellFormed : dashedRemoval.WellFormed where
  diffGit := by decide
  headers := by decide
  unbroken := by decide
  bodies := by decide
  placed := ⟨.single, .counted 0, trivial⟩
  old := by decide
  new := by decide

theorem dashed_removal_is_read_as_header :
    ¬ ∀ files : List FileSection, (∀ file ∈ files, file.WellFormed) → ReadCorrectly files := by
  intro hall
  have hwell : ∀ file ∈ [dashedRemoval], file.WellFormed :=
    forall_mem_singleton.mpr dashedRemoval_wellFormed
  have hright := (readCorrectly_iff_right _).mp (hall _ hwell)
  rw [diffText_lines hwell] at hright
  have hreadable := (files_right_iff hwell none none).mp hright dashedRemoval mem_cons_self
  exact hreadable.2.2.1.1 (.inl ⟨rfl, by decide⟩)

def replacedLine : FileSection where
  diffGit := "diff --git a/a b/a".toList
  headers := ["--- a/a".toList, "+++ b/a".toList]
  hunks := [([], ⟨decimal 1 ++ ',' :: decimal 2, decimal 1 ++ ',' :: decimal 2, [],
    [⟨.remove, "-a".toList, true⟩, ⟨.add, "++a".toList, true⟩, ⟨.context, "b".toList, false⟩]⟩)]
  tail := []

theorem replacedLine_wellFormed : replacedLine.WellFormed where
  diffGit := by decide
  headers := by decide
  unbroken := by decide
  bodies := by decide
  placed := ⟨.counted 2, .counted 2, trivial⟩
  old := by decide
  new := by decide

theorem replacedLine_readable : replacedLine.Readable := by decide

theorem replaced_line_is_read : ReadCorrectly [replacedLine] :=
  (unified_lines_read_iff [replacedLine]
    (forall_mem_singleton.mpr replacedLine_wellFormed)).mpr
    (forall_mem_singleton.mpr replacedLine_readable)

end GitComet.Unified
