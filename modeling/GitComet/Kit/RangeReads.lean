import GitComet.Kit.Boundaries

variable {text back : List Char} {offset : ℕ}

namespace GitComet.Kit
open List Nat

open Text SplitRows WeightedPrefix SumTree

theorem upTo_self (front back : List Char) :
    Plain.upTo (front ++ back) (byteLen front) = front := by
  rw [Plain.upTo, within_left Char.utf8Size_pos back (le_refl (byteLen front))]
  exact within_all _ (le_refl (byteLen front))

theorem plain_utf16Len_append (front back : List Char) :
    Plain.utf16Len (front ++ back) = Plain.utf16Len front + Plain.utf16Len back :=
  weight_append lenUtf16 front back

theorem exists_upTo (text : List Char) (offset : ℕ) :
    ∃ back, text = Plain.upTo text offset ++ back := by
  obtain ⟨back, h⟩ := within_front Char.utf8Size text offset
  exact ⟨back, h.symm⟩

theorem upTo_next {c : Char} (h : text = Plain.upTo text offset ++ c :: back) :
    offset < byteLen (Plain.upTo text offset) + c.utf8Size := by
  by_contra hfit
  have hprefix : Plain.upTo text offset ++ [c] <+: text :=
    ⟨back, by rw [append_assoc, singleton_append, ← h]⟩
  have hlen : byteLen (Plain.upTo text offset ++ [c]) ≤ offset := by
    rw [byteLen_append, byteLen_cons, byteLen_nil]
    omega
  have hshort := weight_le_of_prefix Char.utf8Size (prefix_within Char.utf8Size hprefix hlen)
  have hpos := c.utf8Size_pos
  rw [← byteLen_eq, ← byteLen_eq, byteLen_append, byteLen_cons, byteLen_nil] at hshort
  rw [Plain.upTo] at hshort
  omega

theorem cut_has_no_newline (h : text = Plain.upTo text offset ++ back) :
    newline ∉ (utf8 back).take (offset - byteLen (Plain.upTo text offset)) := by
  cases back with
  | nil => simp
  | cons c back =>
    intro hmem
    have hle := upTo_le text offset
    have hcut := upTo_next h
    rw [utf8_cons, take_append_of_le_length
      (by rw [String.length_utf8EncodeChar]; omega)] at hmem
    obtain rfl := newline_mem_encode (mem_of_mem_take hmem)
    have hzero : offset - byteLen (Plain.upTo text offset) = 0 := by
      have hsize : ('\n').utf8Size = 1 := by decide
      omega
    rw [hzero] at hmem
    cases hmem

theorem plain_offsetToPoint (text : List Char) (offset : ℕ) :
    Plain.offsetToPoint text offset = endPoint ((utf8 text).take offset) := by
  obtain ⟨back, htext⟩ := exists_upTo text offset
  have hpart := cut_has_no_newline htext
  have hle := upTo_le text offset
  obtain ⟨init, last, hinit⟩ := lens_last (utf8 (Plain.upTo text offset))
  obtain ⟨first, tail, hfirst⟩ := lens_first (utf8 back)
  have hlen := length_lens hinit
  rw [length_utf8] at hlen
  have hbytes : utf8 text = utf8 (Plain.upTo text offset) ++ utf8 back := by
    rw [← utf8_append, ← htext]
  have htake : (utf8 text).take offset = utf8 (Plain.upTo text offset) ++
      (utf8 back).take (offset - byteLen (Plain.upTo text offset)) := by
    rw [hbytes, take_append, length_utf8, take_of_length_le (by rwa [length_utf8])]
  have hrow : (Plain.upTo text offset).count '\n' = init.length := by
    have hcount := congrArg length hinit
    rw [lens_utf8, Plain.rowLens, length_map, Plain.rows, length_splitOn, length_append,
      length_singleton] at hcount
    omega
  have hstart : Plain.rowStart text init.length = lensStart init init.length := by
    show lensStart (Plain.rowLens text) init.length = _
    rw [← lens_utf8, hbytes, lens_append hinit hfirst, lensStart_within _ (le_refl _)]
  have hcolumn := congrArg length htake
  rw [length_take, length_append, length_utf8, length_utf8] at hcolumn
  rw [Plain.offsetToPoint, hrow, hstart, htake, endPoint, lens_append hinit (lens_row hpart), endOf]
  simp only [length_append, length_singleton, getLastD_concat, Point.mk.injEq]
  omega

theorem pointIn_nil (point : Point) : pointIn 0 [0] point = 0 := by
  rw [pointIn]
  split
  · rename_i h
    obtain ⟨row, column⟩ := point
    obtain rfl : row = 0 := by simpa using h
    simp
  · rfl

theorem pointIn_past {bytes : List UInt8} {point : Point} (h : (endPoint bytes).Le point) :
    pointIn bytes.length (lens bytes) point = bytes.length := by
  have hskip := pointIn_skip (y := []) h
  rw [append_nil] at hskip
  rw [hskip, length_nil]
  show bytes.length + pointIn 0 [0] _ = _
  rw [pointIn_nil, add_zero]

theorem plain_pointToOffset (text : List Char) (point : Point) :
    Plain.pointToOffset text point = pointIn (utf8 text).length (lens (utf8 text)) point := by
  rw [lens_utf8, length_utf8, Plain.pointToOffset, pointIn]
  have hrows : (Plain.rowLens text).length = (Plain.rows text).length := length_map _
  rw [hrows]
  rfl

theorem Point.le_total (point other : Point) : point.Le other ∨ other.Le point := by
  rw [Point.Le, Point.Le]
  omega

theorem Point.zero_le (point : Point) : Point.zero.Le point := by
  rw [Point.Le]
  simp only [Point.zero]
  omega

namespace Rope

variable (rope : Rope)

theorem offsetToPoint_eq (offset : ℕ) :
    rope.offsetToPoint offset = Plain.offsetToPoint rope.content offset := by
  have hoffset : (utf8 rope.content).take offset =
      (utf8 rope.content).take (min offset rope.len) := by
    rw [len_eq, ← length_utf8, ← take_eq_take_min]
  have hle : min offset rope.len ≤ byteLen rope.content := by
    rw [len_eq]
    exact min_le_right _ _
  rw [plain_offsetToPoint, hoffset, offsetToPoint]
  generalize min offset rope.len = offset at hle
  rcases found_left (D := ℕ × Point) (m := Prod.fst) rfl
      (fun chunks => by rw [total_pair, total_len]) hle with
    ⟨hnil, heq⟩ | ⟨before, chunk, rest, hsplit, heq, hfront, hmiddle⟩
  · have hfound : rope.findOffset Point offset = ⟨[], (0, Point.zero), []⟩ := heq
    rw [hfound, hnil, utf8_nil, take_nil]
    rfl
  · have hfound : rope.findOffset Point offset =
        ⟨before, total TextSummary.fromStr before, chunk :: rest⟩ := heq
    have hbytes : (utf8 rope.content).take offset =
        utf8 before.flatten ++ (utf8 chunk).take (offset - byteLen before.flatten) := by
      rw [content_split hsplit, utf8_append, take_append, length_utf8,
        take_of_length_le (by rwa [length_utf8]), utf8_append,
        take_append_of_le_length (by rwa [length_utf8])]
    rw [hfound, total_pair, total_len, total_point, hbytes, endPoint_append]
    show endPoint (utf8 before.flatten) + strOffsetToPoint (utf8 chunk) _ = _
    rw [strOffsetToPoint_eq]

theorem pointToOffset_eq (point : Point) :
    rope.pointToOffset point = Plain.pointToOffset rope.content point := by
  have hlands := seek_lands TextSummary.fromStr
    (fun stop : Point × ℕ => Bias.left.stops (point.cmp stop.1)) rope.chunks
  rw [plain_pointToOffset, pointToOffset]
  change Lands TextSummary.fromStr _ _ (rope.findPoint point) at hlands
  generalize rope.findPoint point = cursor at hlands ⊢
  obtain ⟨before, start, later⟩ := cursor
  obtain ⟨hsplit, hstart, hpast, hreached⟩ := hlands
  rw [hstart, total_pair, total_point, total_len] at hpast hreached
  have hfront : (endPoint (utf8 before.flatten)).Le point := by
    rcases hpast with rfl | hstop
    · exact Point.zero_le point
    · rw [← Bool.not_eq_true, left_stops_cmp] at hstop
      exact (Point.le_total _ _).resolve_left hstop
  rw [hstart, total_pair, total_point, total_len]
  cases later with
  | nil =>
    rw [append_nil] at hsplit
    rw [content, ← hsplit]
    exact (length_utf8 _).symm.trans (pointIn_past hfront).symm
  | cons chunk rest =>
    have hcut : point.Le (endPoint (utf8 before.flatten ++ utf8 chunk)) := by
      have hstop := left_stops_cmp.mp (hreached chunk rest rfl)
      rw [endPoint_append, ← lines_fromStr chunk]
      exact hstop
    have hbytes : utf8 rope.content = utf8 before.flatten ++ utf8 chunk ++ utf8 rest.flatten := by
      rw [content_split hsplit.symm, utf8_append, utf8_append, append_assoc]
    rw [hbytes, pointIn_cut _ hcut, pointIn_skip hfront, length_utf8, ← strPointToOffset_eq]
    rfl

theorem byteSlice_upTo (h : Plain.IsCharBoundary text offset) :
    byteSlice text 0 offset = some (Plain.upTo text offset) := by
  obtain ⟨back, htext⟩ := exists_upTo text offset
  refine byteSlice_of (p := []) (m := Plain.upTo text offset) (o := back) htext rfl ?_
  rw [upTo_of_boundary h, byteLen_nil, zero_add]

theorem offsetToUtf16_eq (offset : ℕ) :
    rope.offsetToUtf16 offset = some (Plain.offsetToUtf16 rope.content offset) := by
  have hclip : rope.clipOffset (min offset rope.len) .left =
      byteLen (Plain.upTo rope.content offset) := by
    rw [clipOffset_left, min_assoc, min_self, len_eq, upTo_min]
  have hboundary := upTo_boundary rope.content offset
  have hsame : Plain.upTo rope.content (byteLen (Plain.upTo rope.content offset)) =
      Plain.upTo rope.content offset := by
    obtain ⟨back, htext⟩ := exists_upTo rope.content offset
    have hself := upTo_self (Plain.upTo rope.content offset) back
    rwa [← htext] at hself
  rw [Plain.offsetToUtf16, ← hsame, offsetToUtf16, hclip]
  generalize byteLen (Plain.upTo rope.content offset) = offset at hboundary
  rcases found_left (D := ℕ × OffsetUtf16) (m := Prod.fst) rfl
      (fun chunks => by rw [total_pair, total_len]) (boundary_le hboundary) with
    ⟨hnil, heq⟩ | ⟨before, chunk, rest, hsplit, heq, hfront, hmiddle⟩
  · have hfound : rope.findOffset OffsetUtf16 offset = ⟨[], (0, ⟨0⟩), []⟩ := heq
    rw [hfound, hnil]
    rfl
  · have hfound : rope.findOffset OffsetUtf16 offset =
        ⟨before, total TextSummary.fromStr before, chunk :: rest⟩ := heq
    rw [content_split hsplit] at hboundary ⊢
    have hchunk := (boundary_middle rest.flatten hfront hmiddle).mp hboundary
    rw [hfound, total_pair, total_len, total_units, upTo_middle _ hfront hmiddle,
      plain_utf16Len_append]
    show (byteSlice chunk 0 (offset - byteLen before.flatten)).map _ = _
    rw [byteSlice_upTo hchunk, Option.map_some, utf16Len_eq]

theorem offsetFromUtf16_eq (target : ℕ) :
    rope.offsetFromUtf16 target = Plain.offsetFromUtf16 rope.content target := by
  have htarget : covering Kit.lenUtf16 rope.content target =
      covering Kit.lenUtf16 rope.content (min target rope.lenUtf16) := by
    rw [lenUtf16_eq]
    rcases le_total target (Plain.utf16Len rope.content) with h | h
    · rw [min_eq_left h]
    · rw [min_eq_right h, covering_all lenUtf16_pos h]
      exact (covering_all lenUtf16_pos (le_refl (Plain.utf16Len rope.content))).symm
  have hle : min target rope.lenUtf16 ≤
      ((total TextSummary.fromStr rope.chunks : OffsetUtf16 × ℕ).1).units := by
    rw [total_pair, total_units, ← content, lenUtf16_eq]
    exact min_le_right _ _
  rw [Plain.offsetFromUtf16, htarget, offsetFromUtf16]
  generalize min target rope.lenUtf16 = target at hle
  have hlands := seek_lands TextSummary.fromStr
    (fun stop : OffsetUtf16 × ℕ => Bias.left.stops (compare target stop.1.units)) rope.chunks
  change Lands TextSummary.fromStr _ _ (rope.findUtf16 ⟨target⟩) at hlands
  rcases lands_left (m := fun stop : OffsetUtf16 × ℕ => stop.1.units) rfl hlands hle with
    ⟨hnil, heq⟩ | ⟨before, chunk, rest, hsplit, heq, hfront, hmiddle⟩
  · rw [heq, content, hnil]
    rfl
  · rw [total_pair, total_units] at hfront hmiddle
    dsimp only at hfront hmiddle
    rw [flatten_concat, plain_utf16Len_append] at hmiddle
    rw [heq, total_pair, total_units, total_len, content_split hsplit]
    dsimp only
    have happend := covering_append lenUtf16_pos before.flatten (chunk ++ rest.flatten)
      (target - Plain.utf16Len before.flatten)
    rw [← Plain.utf16Len, Nat.add_sub_cancel' hfront] at happend
    have hunits : target - Plain.utf16Len before.flatten ≤ Plain.utf16Len chunk := by omega
    rw [happend, covering_left _ rest.flatten hunits, byteLen_append, ← utf16ToUtf8Offset_eq]
    rfl

end Rope

end GitComet.Kit

namespace GitComet.Kit

open Text WeightedPrefix SumTree

theorem upTo_upTo (text : List Char) (offset : ℕ) :
    Plain.upTo text (byteLen (Plain.upTo text offset)) = Plain.upTo text offset := by
  obtain ⟨back, htext⟩ := exists_upTo text offset
  have hself := upTo_self (Plain.upTo text offset) back
  rwa [← htext] at hself

theorem after_eq (h : text = Plain.upTo text offset ++ back) : Plain.after text offset = back := by
  have hdrop := congrArg (List.drop (Plain.upTo text offset).length) h
  rwa [List.drop_left] at hdrop

theorem clipRange_parts (text : List Char) (range : Range) :
    ∃ back, text = Plain.upTo text range.start ++ (Plain.slice text range ++ back) ∧
      back = Plain.after text (Plain.clipRange text range).stop ∧
      (Plain.clipRange text range).start = byteLen (Plain.upTo text range.start) ∧
      (Plain.clipRange text range).stop =
        byteLen (Plain.upTo text range.start) + byteLen (Plain.slice text range) := by
  have hle := clipRange_le text range
  have hstart : (Plain.clipRange text range).start = byteLen (Plain.upTo text range.start) := rfl
  have hsame : Plain.upTo text (Plain.clipRange text range).start = Plain.upTo text range.start :=
    upTo_upTo text range.start
  have hboundary : Plain.IsCharBoundary text (Plain.clipRange text range).stop :=
    covering_boundary text _
  have hstop := upTo_of_boundary hboundary
  have hprefix : Plain.upTo text range.start <+: Plain.upTo text (Plain.clipRange text range).stop :=
    prefix_within _ (within_front _ text range.start) hle
  obtain ⟨middle, hmiddle⟩ := hprefix
  have hslice : Plain.slice text range = middle := by
    rw [Plain.slice, hsame, ← hmiddle, List.drop_left]
  obtain ⟨back, htext⟩ := exists_upTo text (Plain.clipRange text range).stop
  refine ⟨back, ?_, ?_, hstart, ?_⟩
  · rw [hslice, ← List.append_assoc, hmiddle]
    exact htext
  · exact (after_eq htext).symm
  · rw [← hstop, ← hmiddle, byteLen_append, hslice]

theorem chunkSlices_done {start stop : ℕ} (h : stop ≤ start) (chunkStart : ℕ)
    (chunks : List (List Char)) : Rope.chunkSlices ⟨start, stop⟩ chunkStart chunks = some [] := by
  cases chunks with
  | nil => rfl
  | cons chunk rest => rw [Rope.chunkSlices, if_pos h]

theorem chunkSlices_eq (chunks : List (List Char)) : ∀ {c : ℕ}
    {f m back : List Char}, chunks.flatten = f ++ (m ++ back) →
    (∀ chunk rest, chunks = chunk :: rest → byteLen f ≤ byteLen chunk) →
    ∃ slices, Rope.chunkSlices ⟨c + byteLen f, c + byteLen f + byteLen m⟩ c chunks = some slices ∧
      slices.flatten = m ∧ ∀ slice ∈ slices, slice ≠ [] := by
  induction chunks with
  | nil =>
    intro c f m back h _
    obtain ⟨rfl, hrest⟩ := List.nil_eq_append_iff.mp h
    obtain ⟨rfl, rfl⟩ := List.append_eq_nil_iff.mp hrest
    exact ⟨[], rfl, rfl, by simp⟩
  | cons chunk rest ih =>
    intro c f m back h hfront
    by_cases hmiddle : m = []
    · subst hmiddle
      exact ⟨[], chunkSlices_done (le_refl _) _ _, rfl, by simp⟩
    have hpos := byteLen_pos.mpr hmiddle
    have hlen := hfront chunk rest rfl
    obtain ⟨inner, rfl⟩ : f <+: chunk := by
      have hall : chunk ++ rest.flatten = f ++ (m ++ back) := h
      have hchunk := upTo_self chunk rest.flatten
      rw [hall] at hchunk
      rw [← hchunk]
      exact prefix_within _ (List.prefix_append _ _) hlen
    rw [List.flatten_cons, List.append_assoc, List.append_cancel_left_eq] at h
    rw [Rope.chunkSlices, if_neg (by dsimp only; omega)]
    dsimp only
    rw [byteLen_append, Nat.add_sub_cancel_left]
    rcases List.append_eq_append_iff.mp h with ⟨later, rfl, hrest⟩ | ⟨tail, rfl, -⟩
    · -- the range goes on behind this chunk
      obtain ⟨slices, hslices, hflat, hne⟩ := ih (c := c +
        (byteLen f + byteLen inner)) (f := []) (m := later) hrest
        fun _ _ _ => Nat.zero_le _
      rw [byteLen_nil, add_zero] at hslices
      have hmin : min (c + (byteLen f + byteLen inner)) (c + byteLen f + byteLen (inner ++ later)) =
          c + (byteLen f + byteLen inner) := by
        rw [byteLen_append]
        omega
      have hstop : c + byteLen f + byteLen (inner ++ later) =
          c + (byteLen f + byteLen inner) + byteLen later := by
        rw [byteLen_append]
        omega
      have hend : min (c + byteLen f + byteLen (inner ++ later))
          (c + (byteLen f + byteLen inner)) - c =
          byteLen f + byteLen inner := by
        rw [min_comm, hmin]
        omega
      rw [hend, hmin, hstop, hslices]
      by_cases hinner : inner = []
      · subst hinner
        rw [if_neg (by simp)]
        exact ⟨slices, rfl, by simpa using hflat, hne⟩
      · have hinnerPos := byteLen_pos.mpr hinner
        have hslice := byteSlice_of (t := f ++ inner) (p := f) (m := inner)
          (o := []) (by rw [List.append_nil]) rfl rfl
        rw [if_pos (by omega), hslice]
        refine ⟨inner :: slices, rfl, by rw [List.flatten_cons, hflat], ?_⟩
        intro slice hmem
        rcases List.mem_cons.mp hmem with rfl | hmem
        · exact hinner
        · exact hne slice hmem
    · -- the range ends in this chunk
      have hend : min (c + byteLen f + byteLen m) (c + (byteLen f + byteLen (m ++ tail))) - c =
          byteLen f + byteLen m := by
        rw [byteLen_append]
        omega
      have hmin : min (c + (byteLen f + byteLen (m ++ tail))) (c + byteLen f + byteLen m) =
          c + byteLen f + byteLen m := by
        rw [byteLen_append]
        omega
      rw [hend, hmin, chunkSlices_done (le_refl _), if_pos (by omega),
        byteSlice_middle f m tail]
      exact ⟨[m], rfl, by simp, by simpa using hmiddle⟩

theorem plain_slice_all (text : List Char) : Plain.slice text ⟨0, byteLen text⟩ = text := by
  obtain ⟨back, htext, -, hstart, hstop⟩ := clipRange_parts text ⟨0, byteLen text⟩
  have hnil : Plain.upTo text 0 = [] := byteLen_eq_zero.mp (Nat.le_zero.mp (upTo_le text 0))
  have hall : (Plain.clipRange text ⟨0, byteLen text⟩).stop = byteLen text := by
    exact congrArg byteLen (covering_all Char.utf8Size_pos (le_max_left (byteLen text) _))
  have hlen := congrArg byteLen htext
  rw [hnil, byteLen_nil, hall] at hstop
  rw [hnil, List.nil_append] at htext hlen
  rw [byteLen_append] at hlen
  have hback : back = [] := byteLen_eq_zero.mp (by omega)
  rw [hback, List.append_nil] at htext
  exact htext.symm

theorem plain_slice_clipRange (text : List Char) (range : Range) :
    Plain.slice text (Plain.clipRange text range) = Plain.slice text range := by
  have hle := clipRange_le text range
  have hstart : byteLen (Plain.upTo text (Plain.clipRange text range).start) =
      (Plain.clipRange text range).start := upTo_of_boundary (upTo_boundary text range.start)
  have hclip : Plain.clipRange text (Plain.clipRange text range) = Plain.clipRange text range := by
    conv_lhs => rw [Plain.clipRange]
    have hstop : byteLen (covering Char.utf8Size text (Plain.clipRange text range).stop) =
        (Plain.clipRange text range).stop := covering_of_boundary (covering_boundary text _)
    rw [hstart, max_eq_left hle, hstop]
  rw [Plain.slice, Plain.slice, hclip]

theorem lensStart_next {lens : List ℕ} {row : ℕ} (h : row < lens.length) :
    lensStart lens (row + 1) = lensStart lens row + lens.getD row 0 + 1 := by
  rw [lensStart, List.take_add_one, List.map_append, List.sum_append, List.getElem?_eq_getElem h,
    List.getD_eq_getElem?_getD, List.getElem?_eq_getElem h, lensStart]
  simp only [Option.toList_some, List.map_cons, List.map_nil, List.sum_cons, List.sum_nil,
    Option.getD_some]
  omega

namespace Rope

variable (rope : Rope)

theorem chunksInRange_eq (range : Range) :
    ∃ slices, rope.chunksInRange range = some slices ∧
      slices.flatten = Plain.slice rope.content range ∧ ∀ slice ∈ slices, slice ≠ [] := by
  obtain ⟨back, htext, -, hstart, hstop⟩ := clipRange_parts rope.content range
  have hfound := lands_right (m := id) rfl (seek_lands TextSummary.fromStr
    (fun stop : ℕ => Bias.right.stops (compare (Plain.clipRange rope.content range).start stop))
    rope.chunks)
  change _ ∨ ∃ before item rest, _ ∧
    rope.seekOffset (Plain.clipRange rope.content range).start .right = _ ∧ _ at hfound
  rw [chunksInRange, clipRange_eq]
  rcases hfound with ⟨heq, hle⟩ | ⟨before, chunk, rest, hsplit, heq, hle, hlt⟩
  · have hcursor : rope.seekOffset (Plain.clipRange rope.content range).start .right =
        ⟨rope.chunks, total TextSummary.fromStr rope.chunks, []⟩ := heq
    rw [total_len, ← content] at hle
    have hlen := congrArg byteLen htext
    rw [byteLen_append, byteLen_append] at hlen
    have hnil : Plain.slice rope.content range = [] := byteLen_eq_zero.mp (by
      simp only [id_eq] at hle
      omega)
    rw [hcursor, hnil]
    exact ⟨[], rfl, rfl, by simp⟩
  · rw [total_len] at hle
    rw [total_len, List.flatten_concat, byteLen_append] at hlt
    simp only [id_eq] at hle hlt
    rw [hstart] at hle hlt
    have hparts := content_split hsplit
    obtain ⟨inner, hinner⟩ : before.flatten <+: Plain.upTo rope.content range.start :=
      prefix_within _ (by rw [hparts]; exact List.prefix_append _ _)
        (le_trans hle (upTo_le _ _))
    have hrest : before.flatten ++ (chunk :: rest).flatten =
        before.flatten ++ (inner ++ (Plain.slice rope.content range ++ back)) := by
      rw [← List.append_assoc before.flatten inner, hinner, ← htext, hparts]
      rfl
    have hlen := congrArg byteLen hinner
    rw [byteLen_append] at hlen
    obtain ⟨slices, hslices, hflat, hne⟩ := chunkSlices_eq (chunk :: rest)
      (c := byteLen before.flatten) (List.append_cancel_left hrest) (by
        intro first later h
        obtain ⟨rfl, -⟩ := List.cons.inj h
        omega)
    refine ⟨slices, ?_, hflat, hne⟩
    rw [heq, total_len, ← hslices, hlen, ← hstop, ← hstart]

theorem text_eq : rope.text = some rope.content := by
  obtain ⟨slices, hslices, hflat, -⟩ := rope.chunksInRange_eq ⟨0, rope.len⟩
  rw [text, hslices, Option.map_some, hflat, len_eq, plain_slice_all]

theorem textForRange_eq (range : Range) :
    rope.textForRange range = some (Plain.slice rope.content range) := by
  obtain ⟨slices, hslices, hflat, -⟩ := rope.chunksInRange_eq (rope.clipRange range)
  rw [textForRange, hslices, Option.map_some, hflat, clipRange_eq, plain_slice_clipRange]

theorem lineLen_eq (row : ℕ) : rope.lineLen row = Plain.rowLen rope.content row := by
  obtain ⟨init, last, hlens⟩ := lens_last (utf8 rope.content)
  have hend : rope.maxPoint = ⟨init.length, last⟩ := by
    rw [maxPoint_eq, endPoint, hlens, endOf]
    simp
  have hrow (r : ℕ) : Plain.rowLen rope.content r = (init ++ [last]).getD r 0 := by
    rw [Plain.rowLen, ← lens_utf8, hlens]
  rw [lineLen, hend, hrow]
  dsimp only
  rcases lt_trichotomy row init.length with hlt | rfl | hgt
  · rw [if_neg (not_le_of_gt hlt), pointToOffset_eq, pointToOffset_eq, plain_pointToOffset,
      plain_pointToOffset, hlens, pointIn, pointIn]
    simp only [List.length_append, List.length_singleton]
    rw [if_pos (by omega), if_pos (by omega), lensStart_within _ (le_of_lt hlt),
      lensStart_within _ hlt, List.getD_append _ _ _ _ hlt, lensStart_next hlt]
    omega
  · rw [if_pos (le_refl _), if_pos rfl]
    simp
  · rw [if_pos (le_of_lt hgt), if_neg (ne_of_gt hgt)]
    simp only [List.getD_eq_getElem?_getD]
    rw [List.getElem?_eq_none (by rw [List.length_append]; exact hgt)]
    rfl

theorem lineRange_eq (row : ℕ) : rope.lineRange row = Plain.lineRange rope.content row := by
  rw [lineRange, lineLen_eq, pointToOffset_eq, Plain.pointToOffset, Plain.lineRange]
  split
  · rw [Nat.zero_min, add_zero]
  · rename_i hrow
    have hnone : Plain.rowLen rope.content row = 0 := by
      rw [Plain.rowLen, List.getD_eq_getElem?_getD, List.getElem?_eq_none]
      · rfl
      · rw [Plain.rowLens, List.length_map]
        exact Nat.le_of_not_lt hrow
    rw [hnone]
    rfl

end Rope

end GitComet.Kit
