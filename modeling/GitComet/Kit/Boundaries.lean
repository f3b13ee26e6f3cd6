import GitComet.Kit.Positions

variable {front : List Char} {offset : ℕ}

namespace GitComet.Kit
open Nat List

open Text WeightedPrefix

theorem byteLen_eq (text : List Char) : byteLen text = weight Char.utf8Size text := rfl

variable {n : ℕ}

theorem splitAtByte_eq_some {text back : List Char} :
    splitAtByte n text = some (front, back) ↔ text = front ++ back ∧ byteLen front = n := by
  refine ⟨splitAtByte_some, ?_⟩
  rintro ⟨rfl, rfl⟩
  exact splitAtByte_append front back

variable {index : ℕ}

theorem strIsCharBoundary_iff {text : List Char} :
    strIsCharBoundary text index ↔ Plain.IsCharBoundary text index := by
  rw [strIsCharBoundary, Option.isSome_iff_exists]
  constructor
  · rintro ⟨⟨front, back⟩, h⟩
    obtain ⟨rfl, hlen⟩ := splitAtByte_some h
    exact ⟨front, prefix_append front back, hlen⟩
  · rintro ⟨front, ⟨back, rfl⟩, hlen⟩
    exact ⟨(front, back), splitAtByte_eq_some.mpr ⟨rfl, hlen⟩⟩

theorem boundaryBelow_eq {isBoundary : ℕ → Bool} {k : ℕ} (hk : isBoundary k) (hn : k ≤ n)
    (hnone : ∀ m, k < m → m ≤ n → isBoundary m = false) : boundaryBelow isBoundary n = k := by
  induction n with
  | zero => exact (le_zero.mp hn).symm
  | succ n ih =>
    rw [boundaryBelow]
    rcases lt_or_eq_of_le hn with hlt | rfl
    · rw [hnone (n + 1) hlt (le_refl _), if_neg Bool.false_ne_true]
      exact ih (le_of_lt_succ hlt) fun m hm hle => hnone m hm (le_succ_of_le hle)
    · rw [if_pos hk]

theorem boundaryAbove_eq {isBoundary : ℕ → Bool} {len k : ℕ} (hk : isBoundary k)
    (hn : n ≤ k) (hlen : k ≤ len) (hnone : ∀ m, n ≤ m → m < k → isBoundary m = false) :
    boundaryAbove isBoundary len n = k := by
  induction hgap : k - n generalizing n with
  | zero =>
    obtain rfl : n = k := by omega
    rw [boundaryAbove, if_neg (fun h => by rw [hk] at h; cases h.2)]
  | succ gap ih =>
    rw [boundaryAbove, if_pos ⟨by omega, hnone n (le_refl _) (by omega)⟩]
    exact ih (by omega) (fun m hm hlt => hnone m (le_of_succ_le hm) hlt) (by omega)

theorem upTo_boundary (text : List Char) (offset : ℕ) :
    Plain.IsCharBoundary text (byteLen (Plain.upTo text offset)) :=
  ⟨_, within_front _ text offset, rfl⟩

theorem upTo_le (text : List Char) (offset : ℕ) : byteLen (Plain.upTo text offset) ≤ offset :=
  weight_within_le _ text offset

theorem boundary_le_upTo {text : List Char}
    (h : Plain.IsCharBoundary text index) (hle : index ≤ offset) :
    index ≤ byteLen (Plain.upTo text offset) := by
  obtain ⟨front, hfront, rfl⟩ := h
  exact weight_le_of_prefix _ (prefix_within _ hfront hle)

theorem boundary_zero (text : List Char) : Plain.IsCharBoundary text 0 :=
  ⟨[], nil_prefix, rfl⟩

theorem boundary_len (text : List Char) : Plain.IsCharBoundary text (byteLen text) :=
  ⟨text, prefix_rfl, rfl⟩

theorem boundary_le {text : List Char} (h : Plain.IsCharBoundary text index) :
    index ≤ byteLen text := by
  obtain ⟨front, hfront, rfl⟩ := h
  exact weight_le_of_prefix _ hfront

theorem upTo_of_boundary {text : List Char} (h : Plain.IsCharBoundary text offset) :
    byteLen (Plain.upTo text offset) = offset :=
  le_antisymm (upTo_le text offset) (boundary_le_upTo h (le_refl _))

theorem covering_boundary (text : List Char) (offset : ℕ) :
    Plain.IsCharBoundary text (byteLen (covering Char.utf8Size text offset)) :=
  ⟨_, covering_front _ text offset, rfl⟩

theorem covering_le_boundary {text : List Char}
    (h : Plain.IsCharBoundary text index) (hle : offset ≤ index) :
    byteLen (covering Char.utf8Size text offset) ≤ index := by
  obtain ⟨front, hfront, rfl⟩ := h
  exact weight_le_of_prefix _ (covering_front_of _ hfront hle)

theorem covering_of_boundary {text : List Char} (h : Plain.IsCharBoundary text offset) :
    byteLen (covering Char.utf8Size text offset) = offset :=
  le_antisymm (covering_le_boundary h (le_refl _)) (le_weight_covering _ (boundary_le h))

section

variable {isBoundary : ℕ → Bool} {text : List Char}

theorem boundaryBelow_upTo (h : ∀ index, isBoundary index ↔ Plain.IsCharBoundary text index)
    (offset : ℕ) : boundaryBelow isBoundary offset = byteLen (Plain.upTo text offset) := by
  refine boundaryBelow_eq ((h _).mpr (upTo_boundary text offset)) (upTo_le text offset) ?_
  intro index hlt hle
  rw [← Bool.not_eq_true, h]
  exact fun hboundary => not_le_of_gt hlt (boundary_le_upTo hboundary hle)

theorem boundaryAbove_covering
    (h : ∀ index, isBoundary index ↔ Plain.IsCharBoundary text index)
    (hle : offset ≤ byteLen text) :
    boundaryAbove isBoundary (byteLen text) offset =
      byteLen (covering Char.utf8Size text offset) := by
  refine boundaryAbove_eq ((h _).mpr (covering_boundary text offset)) (le_weight_covering _ hle)
    (boundary_le (covering_boundary text offset)) ?_
  intro index hge hlt
  rw [← Bool.not_eq_true, h]
  exact fun hboundary => not_le_of_gt hlt (covering_le_boundary hboundary hge)

end

theorem floorCharBoundary_eq (text : List Char) (limit : ℕ) :
    floorCharBoundary text limit = byteLen (Plain.upTo text (min limit (byteLen text))) :=
  boundaryBelow_upTo (fun _ => strIsCharBoundary_iff) _

theorem lenUtf16_pos (c : Char) : 0 < lenUtf16 c := by
  rw [lenUtf16]
  split <;> decide

theorem utf16ToUtf8Loop_eq (textLen target : ℕ) (rest : List Char) (offset utf16 : ℕ)
    (hlen : textLen = offset + byteLen rest) :
    utf16ToUtf8Loop textLen target rest offset utf16 =
      offset + byteLen (covering lenUtf16 rest (target - utf16)) := by
  induction rest generalizing offset utf16 with
  | nil => exact hlen
  | cons c rest ih =>
    rw [byteLen_cons] at hlen
    rw [utf16ToUtf8Loop]
    split
    · rename_i hreached
      rw [Nat.sub_eq_zero_of_le hreached]
      rfl
    · rename_i hmore
      obtain ⟨k, hk⟩ := exists_eq_succ_of_ne_zero (show target - utf16 ≠ 0 by omega)
      have hsub : k + 1 - lenUtf16 c = target - (utf16 + lenUtf16 c) := by omega
      rw [ih _ _ (by omega), hk, covering, hsub, byteLen_cons]
      omega

theorem covering_ascii {text : List Char} (h : isAscii text) (target : ℕ) :
    byteLen (covering lenUtf16 text target) = min target (byteLen text) := by
  induction text generalizing target with
  | nil => simp [covering]
  | cons c text ih =>
    rw [isAscii, all_cons, Bool.and_eq_true] at h
    obtain ⟨hsize, hunits⟩ := ascii_widths (of_decide_eq_true h.1)
    cases target with
    | zero => simp [covering]
    | succ target =>
      rw [covering, byteLen_cons, byteLen_cons, ih h.2, hsize, hunits, Nat.add_sub_cancel,
        add_comm target 1, Nat.add_min_add_left]

theorem utf16ToUtf8Offset_eq (text : List Char) (target : ℕ) :
    utf16ToUtf8Offset text target = byteLen (covering lenUtf16 text target) := by
  rw [utf16ToUtf8Offset]
  split
  · rename_i hascii
    exact (covering_ascii hascii target).symm
  · rw [utf16ToUtf8Loop_eq _ _ _ _ _ (zero_add _).symm, zero_add, Nat.sub_zero]

end GitComet.Kit

namespace GitComet.Kit

open Text SplitRows WeightedPrefix SumTree

section

variable (chunks : List (List Char))

theorem total_summary : total TextSummary.fromStr chunks = TextSummary.fromStr chunks.flatten := by
  induction chunks using List.reverseRecOn with
  | nil => exact fromStr_nil.symm
  | append_singleton chunks chunk ih =>
    rw [total_concat, ih, List.flatten_concat, fromStr_append]
    rfl

theorem total_len : total TextSummary.fromStr chunks = byteLen chunks.flatten := by
  induction chunks using List.reverseRecOn with
  | nil => rfl
  | append_singleton chunks chunk ih =>
    rw [total_concat, ih, List.flatten_concat, byteLen_append]
    show _ + (TextSummary.fromStr chunk).len = _
    rw [fromStr_eq]
    rfl

theorem total_point : total TextSummary.fromStr chunks = endPoint (utf8 chunks.flatten) := by
  induction chunks using List.reverseRecOn with
  | nil => rfl
  | append_singleton chunks chunk ih =>
    rw [total_concat, ih, List.flatten_concat, utf8_append, endPoint_append]
    show _ + (TextSummary.fromStr chunk).lines = _
    rw [lines_fromStr]

theorem total_units :
    total TextSummary.fromStr chunks = (⟨Plain.utf16Len chunks.flatten⟩ : OffsetUtf16) := by
  induction chunks using List.reverseRecOn with
  | nil => rfl
  | append_singleton chunks chunk ih =>
    rw [total_concat, ih, List.flatten_concat, Plain.utf16Len, Plain.utf16Len, weight_append]
    show (⟨_ + (TextSummary.fromStr chunk).lenUtf16⟩ : OffsetUtf16) = _
    rw [fromStr_eq]
    rfl

end

namespace Rope

variable (rope : Rope)

def content : List Char := rope.chunks.flatten

theorem len_eq : rope.len = byteLen rope.content := by
  rw [len, summary, total_summary, fromStr_eq]
  rfl

theorem lenUtf16_eq : rope.lenUtf16 = Plain.utf16Len rope.content := by
  rw [lenUtf16, summary, total_summary, fromStr_eq]
  rfl

theorem maxPoint_eq : rope.maxPoint = endPoint (utf8 rope.content) := by
  rw [maxPoint, summary, total_summary, lines_fromStr]
  rfl

theorem lineCount_eq : rope.lineCount = (Plain.rows rope.content).length := by
  have hpoint := rope.maxPoint_eq
  rw [maxPoint] at hpoint
  have hrows : (Plain.rowLens rope.content).length ≠ 0 := by
    rw [Plain.rowLens, List.length_map, ne_eq, List.length_eq_zero_iff]
    exact List.splitOn_ne_nil _ _
  rw [lineCount, hpoint, endPoint, lens_utf8, endOf]
  rw [Plain.rowLens, List.length_map] at hrows ⊢
  exact Nat.sub_add_cancel (Nat.pos_of_ne_zero hrows)

theorem longestRowLen_eq : rope.longestRowLen = Plain.longestRowLen rope.content := by
  rw [longestRowLen, summary, total_summary, fromStr_eq, lens_utf8]
  show (longestFrom 0 (0, 0) _).2 = _
  rw [longestFrom_len, Nat.zero_max]
  rfl

variable {rope}

theorem found_left {D : Type} [Dimension TextSummary D] {m : D → ℕ}
    (hm : m (Dimension.zero TextSummary) = 0)
    (htotal : ∀ chunks, m (total TextSummary.fromStr chunks) = byteLen chunks.flatten)
    (h : offset ≤ byteLen rope.content) :
    let cursor := seek TextSummary.fromStr (fun stop => Bias.left.stops (compare offset (m stop)))
      rope.chunks
    (rope.content = [] ∧ cursor = ⟨[], Dimension.zero TextSummary, []⟩) ∨
      ∃ before chunk rest, rope.chunks = before ++ chunk :: rest ∧
        cursor = ⟨before, total TextSummary.fromStr before, chunk :: rest⟩ ∧
        byteLen before.flatten ≤ offset ∧ offset - byteLen before.flatten ≤ byteLen chunk := by
  intro cursor
  have hlands := seek_lands TextSummary.fromStr
    (fun stop => Bias.left.stops (compare offset (m stop))) rope.chunks
  have htarget : offset ≤ m (total TextSummary.fromStr rope.chunks) := by rwa [htotal]
  rcases lands_left hm hlands htarget with ⟨hnil, heq⟩ | ⟨before, chunk, rest, hsplit, heq, hle, hge⟩
  · exact .inl ⟨by rw [content, hnil]; rfl, heq⟩
  · refine .inr ⟨before, chunk, rest, hsplit, heq, by rwa [← htotal], ?_⟩
    rw [htotal, List.flatten_concat, byteLen_append] at hge
    omega

theorem content_split {before rest : List (List Char)} {chunk : List Char}
    (h : rope.chunks = before ++ chunk :: rest) :
    rope.content = before.flatten ++ (chunk ++ rest.flatten) := by
  rw [content, h, List.flatten_append, List.flatten_cons]

end Rope

theorem isCharBoundary_iff_upTo {text : List Char} :
    Plain.IsCharBoundary text offset ↔ byteLen (Plain.upTo text offset) = offset :=
  ⟨upTo_of_boundary, fun h => h ▸ upTo_boundary text offset⟩

theorem upTo_middle {middle : List Char} (back : List Char)
    (hfront : byteLen front ≤ offset) (hmiddle : offset - byteLen front ≤ byteLen middle) :
    Plain.upTo (front ++ (middle ++ back)) offset =
      front ++ Plain.upTo middle (offset - byteLen front) := by
  have happend := within_append Char.utf8Size front (middle ++ back) (offset - byteLen front)
  rw [← byteLen_eq, Nat.add_sub_cancel' hfront] at happend
  rw [Plain.upTo, happend, within_left Char.utf8Size_pos back hmiddle]
  rfl

theorem boundary_middle {middle : List Char} (back : List Char)
    (hfront : byteLen front ≤ offset) (hmiddle : offset - byteLen front ≤ byteLen middle) :
    Plain.IsCharBoundary (front ++ (middle ++ back)) offset ↔
      Plain.IsCharBoundary middle (offset - byteLen front) := by
  rw [isCharBoundary_iff_upTo, isCharBoundary_iff_upTo, upTo_middle back hfront hmiddle,
    byteLen_append]
  omega

namespace Rope

variable {rope : Rope}

theorem isCharBoundary_iff :
    rope.isCharBoundary offset ↔ Plain.IsCharBoundary rope.content offset := by
  rw [isCharBoundary, len_eq]
  split
  · rename_i hedge
    refine iff_of_true rfl ?_
    rcases hedge with rfl | rfl
    · exact boundary_zero _
    · exact boundary_len _
  split
  · rename_i hpast
    exact iff_of_false Bool.false_ne_true fun h => not_le_of_gt hpast (boundary_le h)
  · rename_i hedge hpast
    rcases found_left (m := id) rfl total_len (Nat.le_of_not_lt hpast) with
      ⟨hnil, -⟩ | ⟨before, chunk, rest, hsplit, heq, hle, hge⟩
    · rw [hnil] at hedge hpast
      simp only [byteLen_nil] at hedge hpast
      omega
    · have hfound : rope.seekOffset offset .left =
          ⟨before, total TextSummary.fromStr before, chunk :: rest⟩ := heq
      rw [hfound, content_split hsplit]
      show strIsCharBoundary chunk (offset - total TextSummary.fromStr before) ↔ _
      rw [total_len, strIsCharBoundary_iff, boundary_middle _ hle hge]

theorem clipOffset_left (offset : ℕ) :
    rope.clipOffset offset .left = byteLen (Plain.upTo rope.content (min offset rope.len)) := by
  rw [clipOffset]
  split
  · rename_i h
    exact (upTo_of_boundary (isCharBoundary_iff.mp h)).symm
  · exact boundaryBelow_upTo (fun _ => isCharBoundary_iff) _

theorem clipOffset_right (offset : ℕ) :
    rope.clipOffset offset .right =
      byteLen (covering Char.utf8Size rope.content (min offset rope.len)) := by
  rw [clipOffset]
  split
  · rename_i h
    exact (covering_of_boundary (isCharBoundary_iff.mp h)).symm
  · have hle : min offset rope.len ≤ byteLen rope.content := by
      rw [len_eq]
      exact min_le_right _ _
    rw [len_eq] at hle ⊢
    exact boundaryAbove_covering (fun _ => isCharBoundary_iff) hle

end Rope

theorem upTo_min (text : List Char) (offset : ℕ) :
    Plain.upTo text (min offset (byteLen text)) = Plain.upTo text offset := by
  rcases le_total offset (byteLen text) with h | h
  · rw [min_eq_left h]
  · rw [min_eq_right h, Plain.upTo, Plain.upTo, within_all _ h]
    exact within_all _ (le_refl (byteLen text))

theorem covering_min (text : List Char) (offset : ℕ) :
    covering Char.utf8Size text (min offset (byteLen text)) =
      covering Char.utf8Size text offset := by
  rcases le_total offset (byteLen text) with h | h
  · rw [min_eq_left h]
  · rw [min_eq_right h, covering_all Char.utf8Size_pos h]
    exact covering_all Char.utf8Size_pos (le_refl (byteLen text))

theorem upTo_le_len (text : List Char) (offset : ℕ) :
    byteLen (Plain.upTo text offset) ≤ byteLen text := boundary_le (upTo_boundary text offset)

theorem clipRange_le (text : List Char) (range : Range) :
    (Plain.clipRange text range).start ≤ (Plain.clipRange text range).stop := by
  rw [Plain.clipRange]
  dsimp only
  rcases le_total (max range.stop (byteLen (Plain.upTo text range.start))) (byteLen text)
    with h | h
  · exact le_trans (le_max_right _ _) (le_weight_covering _ h)
  · rw [covering_all Char.utf8Size_pos h]
    exact upTo_le_len text range.start

theorem Rope.clipRange_eq (rope : Rope) (range : Range) :
    rope.clipRange range = Plain.clipRange rope.content range := by
  have hle := clipRange_le rope.content range
  rw [clipRange]
  simp only [clipOffset_left, clipOffset_right]
  rw [len_eq, min_assoc, min_self, upTo_min]
  have hstart := upTo_le_len rope.content range.start
  have hmax : min (max (min range.stop (byteLen rope.content))
      (byteLen (Plain.upTo rope.content range.start))) (byteLen rope.content) =
      min (max range.stop (byteLen (Plain.upTo rope.content range.start)))
        (byteLen rope.content) := by omega
  rw [hmax, covering_min]
  rw [Plain.clipRange] at hle ⊢
  dsimp only at hle ⊢
  rw [max_eq_left hle]

end GitComet.Kit
