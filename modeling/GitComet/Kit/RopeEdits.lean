import GitComet.Kit.RangeReads

namespace GitComet.Kit
open Option Nat

open Text WeightedPrefix SumTree

def GoodChunk (chunk : List Char) : Prop := chunk ≠ [] ∧ byteLen chunk ≤ maxChunkBytes

def Rope.WellFormed (rope : Rope) : Prop := ∀ chunk ∈ rope.chunks, GoodChunk chunk

variable {d : ℕ}

theorem le_mul_divCeil (n : ℕ) (hd : 0 < d) : n ≤ d * divCeil n d := by
  have := div_add_mod (n + d - 1) d
  have := mod_lt (n + d - 1) hd
  rw [divCeil]
  omega

theorem mul_divCeil_lt (n : ℕ) (hd : 0 < d) : d * divCeil n d < n + d := by
  have := mul_div_le (n + d - 1) d
  rw [divCeil]
  omega

theorem divCeil_le {n k : ℕ} (hd : 0 < d) (h : n ≤ d * k) : divCeil n d ≤ k := by
  have hlt := mul_divCeil_lt n hd
  have : d * divCeil n d < d * (k + 1) := by
    rw [mul_succ]
    omega
  exact Nat.le_of_lt_succ (Nat.lt_of_mul_lt_mul_left this)

theorem upTo_after (text : List Char) (offset : ℕ) :
    Plain.upTo text offset ++ Plain.after text offset = text := by
  obtain ⟨back, hback⟩ := exists_upTo text offset
  rw [after_eq hback]
  exact hback.symm

theorem floor_take (text : List Char) (target : ℕ) :
    floorCharBoundary text (min target (byteLen text)) = byteLen (Plain.upTo text target) := by
  rw [floorCharBoundary_eq, min_assoc, min_self, upTo_min]

variable {text : List Char} {target : ℕ}

theorem upTo_ne_nil (htext : text ≠ [])
    (h : byteLen text ≤ target ∨ 4 ≤ target) : Plain.upTo text target ≠ [] := by
  obtain ⟨c, later, rfl⟩ := List.exists_cons_of_ne_nil htext
  have hfirst : [c] <+: Plain.upTo (c :: later) target := by
    refine prefix_within _ (List.prefix_append [c] later) ?_
    have hfour := c.utf8Size_le_four
    rw [byteLen_cons] at h
    simp only [weight_cons, weight_nil]
    omega
  exact fun hnil => by simp [hnil] at hfirst

theorem splitPieces_step {rest : List Char} (hrest : rest ≠ [])
    (h : byteLen rest ≤ target ∨ 4 ≤ target) :
    splitPieces target rest =
      (splitPieces target (Plain.after rest target)).map (Plain.upTo rest target :: ·) := by
  have hpos := byteLen_pos.mpr (upTo_ne_nil hrest h)
  have hle := upTo_le_len rest target
  have htake : min (max (floorCharBoundary rest (min target (byteLen rest))) 1) (byteLen rest) =
      byteLen (Plain.upTo rest target) := by
    rw [floor_take]
    omega
  have hsplit : splitAtByte (byteLen (Plain.upTo rest target)) rest =
      some (Plain.upTo rest target, Plain.after rest target) :=
    splitAtByte_eq_some.mpr ⟨(upTo_after rest target).symm, rfl⟩
  conv => lhs; rw [splitPieces]
  rw [if_neg hrest]
  dsimp only
  rw [htake]
  split
  · rename_i hnone
    rw [hsplit] at hnone
    cases hnone
  · rename_i chunk remainder hsome
    rw [hsplit] at hsome
    obtain ⟨rfl, rfl⟩ := Prod.mk.inj (Option.some.inj hsome)
    rfl

theorem after_shorter (h : Plain.upTo text target ≠ []) :
    (Plain.after text target).length < text.length := by
  have hcount := congrArg List.length (upTo_after text target)
  have := List.length_pos_iff.mpr h
  rw [List.length_append] at hcount
  omega

theorem after_le (text : List Char) (target : ℕ) :
    byteLen (Plain.after text target) ≤ byteLen text := by
  have hlen := congrArg byteLen (upTo_after text target)
  rw [byteLen_append] at hlen
  omega

theorem splitPieces_eq (rest : List Char) (h : byteLen rest ≤ target ∨ 4 ≤ target) :
    ∃ pieces, splitPieces target rest = some pieces ∧ pieces.flatten = rest ∧
      ∀ piece ∈ pieces, piece ≠ [] ∧ byteLen piece ≤ target := by
  induction hn : rest.length using Nat.strong_induction_on generalizing rest with
  | _ n ih =>
    by_cases hrest : rest = []
    · rw [splitPieces, if_pos hrest, hrest]
      exact ⟨[], rfl, rfl, by simp⟩
    have hfront := upTo_ne_nil hrest h
    have hshort := after_shorter hfront
    have hback := after_le rest target
    obtain ⟨pieces, hpieces, hflat, hgood⟩ := ih _ (by omega) (Plain.after rest target)
      (h.imp_left fun hall => by omega) rfl
    rw [splitPieces_step hrest h, hpieces, map_some]
    refine ⟨Plain.upTo rest target :: pieces, rfl, ?_, ?_⟩
    · rw [List.flatten_cons, hflat, upTo_after]
    · exact List.forall_mem_cons.mpr ⟨⟨hfront, upTo_le rest target⟩, hgood⟩

theorem splitIntoChunks_eq (text : List Char) :
    ∃ pieces, splitIntoChunks text = some pieces ∧ pieces.flatten = text ∧
      ∀ piece ∈ pieces, GoodChunk piece := by
  have hmax : 0 < maxChunkBytes := by decide
  have hfew := mul_divCeil_lt (byteLen text) hmax
  have hall := le_mul_divCeil (byteLen text) hmax
  rw [splitIntoChunks]
  generalize hcount : max (divCeil (byteLen text) maxChunkBytes) 1 = count
  have hpos : 0 < count := by omega
  have hcover := le_mul_divCeil (byteLen text) hpos
  have hle : divCeil (byteLen text) count ≤ maxChunkBytes := by
    apply divCeil_le hpos
    rw [mul_comm]
    exact le_trans hall (mul_le_mul_left _ (by omega))
  generalize divCeil (byteLen text) count = target at hcover hle
  have htarget : byteLen text ≤ max target 1 ∨ 4 ≤ max target 1 := by
    rcases lt_or_ge target 4 with hsmall | hlarge
    · -- a target below four bytes leaves a single piece
      left
      have hone : count = 1 := by
        have hthree : count * target ≤ count * 3 := mul_le_mul_left _ (by omega)
        simp only [maxChunkBytes] at hfew hcount
        omega
      rw [hone] at hcover
      omega
    · exact .inr (by omega)
  obtain ⟨pieces, hpieces, hflat, hgood⟩ := splitPieces_eq text htarget
  refine ⟨pieces, hpieces, hflat, fun piece hpiece => ⟨(hgood piece hpiece).1, ?_⟩⟩
  have := (hgood piece hpiece).2
  exact le_trans this (by omega)

namespace Rope

variable {rope : Rope}

theorem seek_last {init : List (List Char)} {trailing : List Char}
    (h : rope.chunks = init ++ [trailing]) (hne : trailing ≠ []) :
    (rope.seekOffset (byteLen init.flatten) .right).slice = init := by
  have hpos := byteLen_pos.mpr hne
  have hseek := seek_at TextSummary.fromStr init [trailing]
    (s := fun stop : ℕ => Bias.right.stops (compare (byteLen init.flatten) stop))
    (by
      intro first hfirst _
      rw [← Bool.not_eq_true, right_stops, total_len]
      obtain ⟨back, rfl⟩ := hfirst
      rw [List.flatten_append, byteLen_append]
      omega)
    (by
      intro item rest hitem
      obtain ⟨rfl, -⟩ := List.cons.inj hitem
      rw [right_stops, total_len, List.flatten_concat, byteLen_append]
      omega)
  rw [seekOffset, h, hseek]
  rfl

theorem topUp_shape (h : rope.WellFormed) (text : List Char) :
    (rope.chunks = [] ∧ rope.topUp text = some ([], text)) ∨
      ∃ init trailing, rope.chunks = init ++ [trailing] ∧ rope.topUp text =
        some (init ++ [trailing ++ Plain.upTo text (chunkTopUpLimit - byteLen trailing)],
          Plain.after text (chunkTopUpLimit - byteLen trailing)) := by
  rw [topUp]
  split
  · rename_i hnone
    rw [List.getLast?_eq_none_iff.mp hnone]
    exact .inl ⟨rfl, rfl⟩
  · rename_i trailing hlast
    obtain ⟨init, hchunks⟩ := List.getLast?_eq_some_iff.mp hlast
    have htrailing := h trailing (by rw [hchunks]; simp)
    refine .inr ⟨init, trailing, hchunks, ?_⟩
    have hcut := upTo_after text (chunkTopUpLimit - byteLen trailing)
    have hle := upTo_le text (chunkTopUpLimit - byteLen trailing)
    have hkept (hnil : Plain.upTo text (chunkTopUpLimit - byteLen trailing) = []) :
        some (rope.chunks, text) =
          some (init ++ [trailing ++ Plain.upTo text (chunkTopUpLimit - byteLen trailing)],
            Plain.after text (chunkTopUpLimit - byteLen trailing)) := by
      rw [hnil, List.nil_append] at hcut
      rw [hnil, hcut, List.append_nil, hchunks]
    split
    · dsimp only
      rw [floor_take]
      split
      · have hsplit : splitAtByte
            (byteLen (Plain.upTo text (chunkTopUpLimit - byteLen trailing))) text =
            some (Plain.upTo text (chunkTopUpLimit - byteLen trailing),
              Plain.after text (chunkTopUpLimit - byteLen trailing)) :=
          splitAtByte_eq_some.mpr ⟨hcut.symm, rfl⟩
        have hhead : rope.len - byteLen trailing = byteLen init.flatten := by
          rw [len_eq, content, hchunks, List.flatten_concat, byteLen_append, Nat.add_sub_cancel]
        rw [hsplit, map_some, hhead, seek_last hchunks htrailing.1]
      · exact hkept (byteLen_eq_zero.mp (by omega))
    · exact hkept (byteLen_eq_zero.mp (by omega))

theorem topUp_eq (h : rope.WellFormed) (text : List Char) :
    ∃ chunks rest, rope.topUp text = some (chunks, rest) ∧
      chunks.flatten ++ rest = rope.content ++ text ∧ ∀ chunk ∈ chunks, GoodChunk chunk := by
  rcases topUp_shape h text with ⟨hnil, htop⟩ | ⟨init, trailing, hchunks, htop⟩
  · refine ⟨[], text, htop, ?_, fun chunk hmem => by cases hmem⟩
    rw [content, hnil]
  · have htrailing := h trailing (by rw [hchunks]; simp)
    have hle := upTo_le text (chunkTopUpLimit - byteLen trailing)
    refine ⟨_, _, htop, ?_, fun chunk hmem => ?_⟩
    · rw [content, hchunks, List.flatten_concat, List.flatten_concat, List.append_assoc,
        List.append_assoc, upTo_after, List.append_assoc]
    · rcases List.mem_append.mp hmem with hmem | hmem
      · exact h chunk (by rw [hchunks]; exact List.mem_append_left _ hmem)
      · obtain rfl := List.mem_singleton.mp hmem
        have hsize := htrailing.2
        refine ⟨by simp [htrailing.1], ?_⟩
        rw [byteLen_append]
        simp only [chunkTopUpLimit] at hle ⊢
        omega

theorem push_eq (h : rope.WellFormed) (text : List Char) :
    ∃ pushed, rope.push text = some pushed ∧ pushed.content = rope.content ++ text ∧
      pushed.WellFormed := by
  rw [push]
  split
  · rename_i hnil
    exact ⟨rope, rfl, by rw [hnil, List.append_nil], h⟩
  · obtain ⟨chunks, rest, htop, hflat, hgood⟩ := topUp_eq h text
    rw [htop]
    simp only [bind_eq_bind, bind_some]
    split
    · rename_i hnil
      rw [hnil, List.append_nil] at hflat
      exact ⟨⟨chunks⟩, rfl, hflat, hgood⟩
    · obtain ⟨pieces, hpieces, hpiecesFlat, hpiecesGood⟩ := splitIntoChunks_eq rest
      rw [hpieces]
      refine ⟨⟨chunks ++ pieces⟩, rfl, ?_, ?_⟩
      · rw [content, List.flatten_append, hpiecesFlat, hflat]
      · intro chunk hmem
        exact (List.mem_append.mp hmem).elim (hgood chunk) (hpiecesGood chunk)

theorem seek_second {first : List Char} {later : List (List Char)}
    (h : rope.chunks = first :: later) (hgood : rope.WellFormed) :
    (rope.seekOffset (byteLen first) .right).suffix = later := by
  have hseek := seek_at TextSummary.fromStr [first] later
    (s := fun stop : ℕ => Bias.right.stops (compare (byteLen first) stop))
    (by
      intro front hfront hne
      obtain rfl : front = [first] := by
        rcases List.prefix_cons_iff.mp hfront with rfl | ⟨tail, rfl, htail⟩
        · exact absurd rfl hne
        · rw [List.prefix_nil.mp htail]
      rw [← Bool.not_eq_true, right_stops, total_len]
      simp)
    (by
      intro item rest hitem
      have hitemGood := hgood item (by rw [h, hitem]; simp)
      have := byteLen_pos.mpr hitemGood.1
      rw [right_stops, total_len, List.flatten_concat, byteLen_append]
      simpa using this)
  rw [seekOffset, h]
  exact congrArg Cursor.suffix hseek

theorem append_eq {other : Rope} (h : rope.WellFormed) (ho : other.WellFormed) :
    ∃ joined, rope.append other = some joined ∧ joined.content = rope.content ++ other.content ∧
      joined.WellFormed := by
  rw [append]
  have hempty {r : Rope} (hr : r.isEmpty) : r.content = [] := by
    rw [isEmpty, len_eq, beq_iff_eq] at hr
    exact byteLen_eq_zero.mp hr
  split
  · rename_i hnil
    exact ⟨rope, rfl, by rw [hempty hnil, List.append_nil], h⟩
  split
  · rename_i hnil
    exact ⟨other, rfl, by rw [hempty hnil, List.nil_append], ho⟩
  split
  · rename_i first hfirst
    obtain ⟨later, hlater⟩ := List.head?_eq_some_iff.mp hfirst
    obtain ⟨pushed, hpushed, hcontent, hgood⟩ := push_eq h first
    simp only [hpushed, bind_eq_bind, bind_some, seek_second hlater ho]
    refine ⟨_, rfl, ?_, ?_⟩
    · rw [content, List.flatten_append, ← content, hcontent, content, content, hlater,
        List.flatten_cons, List.append_assoc]
    · intro chunk hmem
      rcases List.mem_append.mp hmem with hmem | hmem
      · exact hgood chunk hmem
      · exact ho chunk (by rw [hlater]; exact List.mem_cons_of_mem _ hmem)
  · refine ⟨_, rfl, List.flatten_append, fun chunk hmem => ?_⟩
    exact (List.mem_append.mp hmem).elim (h chunk) (ho chunk)

variable {offset : ℕ}

theorem head_parts (h : Plain.IsCharBoundary rope.content offset) :
    let cursor := rope.seekOffset offset .right
    ∃ head, seamHead cursor offset = some head ∧
      cursor.slice.flatten ++ head = Plain.upTo rope.content offset ∧
      ∀ chunk ∈ cursor.slice, chunk ∈ rope.chunks := by
  have hfound := lands_right (m := id) rfl (seek_lands TextSummary.fromStr
    (fun stop : ℕ => Bias.right.stops (compare offset stop)) rope.chunks)
  change rope.seekOffset offset .right = _ ∧ _ ∨ ∃ before item rest, _ ∧
    rope.seekOffset offset .right = _ ∧ _ at hfound
  intro cursor
  rcases hfound with ⟨heq, hle⟩ | ⟨before, chunk, rest, hsplit, heq, hle, hlt⟩
  · have hcursor : cursor = ⟨rope.chunks, total TextSummary.fromStr rope.chunks, []⟩ := heq
    rw [total_len, ← content] at hle
    rw [hcursor]
    refine ⟨[], rfl, ?_, fun _ hmem => hmem⟩
    rw [List.append_nil]
    exact (within_all _ hle).symm
  · have hcursor : cursor = ⟨before, total TextSummary.fromStr before, chunk :: rest⟩ := heq
    rw [total_len] at hle
    rw [total_len, List.flatten_concat, byteLen_append] at hlt
    simp only [id_eq] at hle hlt
    rw [content_split hsplit] at h ⊢
    have hchunk := (boundary_middle rest.flatten hle (by omega)).mp h
    rw [hcursor, total_len]
    refine ⟨_, byteSlice_upTo hchunk, (upTo_middle rest.flatten hle (by omega)).symm, ?_⟩
    intro piece hmem
    rw [hsplit]
    exact List.mem_append_left _ hmem

theorem byteSlice_after (h : Plain.IsCharBoundary text offset) :
    byteSlice text offset (byteLen text) = some (Plain.after text offset) := by
  obtain ⟨back, htext⟩ := exists_upTo text offset
  have hlen := congrArg byteLen htext
  rw [byteLen_append] at hlen
  rw [after_eq htext]
  exact byteSlice_of (o := []) (by rw [List.append_nil]; exact htext) (upTo_of_boundary h).symm hlen

theorem tail_parts (h : Plain.IsCharBoundary rope.content offset) :
    let cursor := rope.seekOffset offset .left
    ∃ tail, seamTail cursor offset = some tail ∧
      tail ++ (cursor.next TextSummary.fromStr).suffix.flatten = Plain.after rope.content offset ∧
      ∀ chunk ∈ (cursor.next TextSummary.fromStr).suffix, chunk ∈ rope.chunks := by
  intro cursor
  rcases found_left (m := id) rfl total_len (boundary_le h) with
    ⟨hnil, heq⟩ | ⟨before, chunk, rest, hsplit, heq, hle, hge⟩
  · have hcursor : cursor = ⟨[], 0, []⟩ := heq
    rw [hcursor, hnil]
    exact ⟨[], rfl, rfl, fun _ hmem => by cases hmem⟩
  · have hcursor : cursor = ⟨before, total TextSummary.fromStr before, chunk :: rest⟩ := heq
    rw [content_split hsplit] at h ⊢
    have hchunk := (boundary_middle rest.flatten hle hge).mp h
    rw [hcursor, total_len]
    refine ⟨_, byteSlice_after hchunk, ?_, ?_⟩
    · obtain ⟨back, hback⟩ := exists_upTo chunk (offset - byteLen before.flatten)
      rw [after_eq hback]
      refine (after_eq ?_).symm
      rw [upTo_middle _ hle hge, List.append_assoc before.flatten, ← List.append_assoc _ back,
        ← hback]
      rfl
    · intro piece hmem
      rw [hsplit]
      exact List.mem_append_right _ (List.mem_cons_of_mem _ hmem)

theorem replace_eq (h : rope.WellFormed) (range : Range) (insert : List Char) :
    ∃ replaced, rope.replace range insert = some replaced ∧
      replaced.content = Plain.replace rope.content range insert ∧ replaced.WellFormed := by
  have hstart : Plain.IsCharBoundary rope.content (Plain.clipRange rope.content range).start :=
    upTo_boundary _ _
  have hstop : Plain.IsCharBoundary rope.content (Plain.clipRange rope.content range).stop :=
    covering_boundary _ _
  rw [replace, clipRange_eq]
  dsimp only
  split
  · rename_i hnothing
    obtain ⟨back, htext, hback, hstartLen, hstopLen⟩ := clipRange_parts rope.content range
    have hnil : Plain.slice rope.content range = [] := byteLen_eq_zero.mp (by omega)
    refine ⟨rope, rfl, ?_, h⟩
    rw [Plain.replace, hstartLen, upTo_upTo, ← hback, hnothing.2, List.append_nil]
    rwa [hnil, List.nil_append] at htext
  · obtain ⟨head, hhead, hfront, hfrontMem⟩ := head_parts hstart
    obtain ⟨tail, htail, hback, hbackMem⟩ := tail_parts hstop
    obtain ⟨seam, hseam, hflat, hgood⟩ := splitIntoChunks_eq (head ++ insert ++ tail)
    simp only [hhead, htail, hseam, bind_eq_bind, bind_some]
    refine ⟨_, rfl, ?_, ?_⟩
    · rw [content, List.flatten_append, List.flatten_append, hflat, Plain.replace, ← hfront,
        ← hback]
      simp only [List.append_assoc]
    · intro chunk hmem
      rcases List.mem_append.mp hmem with hmem | hmem
      · exact (List.mem_append.mp hmem).elim (fun hm => h chunk (hfrontMem chunk hm)) (hgood chunk)
      · exact h chunk (hbackMem chunk hmem)

end Rope

end GitComet.Kit

namespace GitComet.Kit

open Text

inductive Edits
  | new
  | push (edits : Edits) (text : List Char)
  | append (edits other : Edits)
  | replace (edits : Edits) (range : Range) (insert : List Char)

namespace Edits

def rope : Edits → Option Rope
  | new => some Rope.new
  | push edits text => do (← edits.rope).push text
  | append edits other => do (← edits.rope).append (← other.rope)
  | replace edits range insert => do (← edits.rope).replace range insert

def text : Edits → List Char
  | new => []
  | push edits text => edits.text ++ text
  | append edits other => edits.text ++ other.text
  | replace edits range insert => Plain.replace edits.text range insert

end Edits

structure Rope.Agrees (rope : Rope) (text : List Char) : Prop where
  whole : rope.text = some text
  len : rope.len = byteLen text
  lenUtf16 : rope.lenUtf16 = Plain.utf16Len text
  lineCount : rope.lineCount = (Plain.rows text).length
  longestRowLen : rope.longestRowLen = Plain.longestRowLen text
  lineRange : ∀ row, rope.lineRange row = Plain.lineRange text row
  chunksInRange : ∀ range, ∃ slices, rope.chunksInRange range = some slices ∧
    slices.flatten = Plain.slice text range ∧ ∀ slice ∈ slices, slice ≠ []
  textForRange : ∀ range, rope.textForRange range = some (Plain.slice text range)
  offsetToPoint : ∀ offset, rope.offsetToPoint offset = Plain.offsetToPoint text offset
  pointToOffset : ∀ point, rope.pointToOffset point = Plain.pointToOffset text point
  offsetToUtf16 : ∀ offset, rope.offsetToUtf16 offset = some (Plain.offsetToUtf16 text offset)
  offsetFromUtf16 : ∀ target, rope.offsetFromUtf16 target = Plain.offsetFromUtf16 text target
  isCharBoundary : ∀ offset, rope.isCharBoundary offset = true ↔ Plain.IsCharBoundary text offset
  chunks : rope.chunks.flatten = text ∧ ∀ chunk ∈ rope.chunks, chunk ≠ [] ∧ byteLen chunk ≤ 512

theorem Rope.WellFormed.agrees {rope : Rope} (h : rope.WellFormed) : rope.Agrees rope.content where
  whole := rope.text_eq
  len := rope.len_eq
  lenUtf16 := rope.lenUtf16_eq
  lineCount := rope.lineCount_eq
  longestRowLen := rope.longestRowLen_eq
  lineRange := rope.lineRange_eq
  chunksInRange := rope.chunksInRange_eq
  textForRange := rope.textForRange_eq
  offsetToPoint := rope.offsetToPoint_eq
  pointToOffset := rope.pointToOffset_eq
  offsetToUtf16 := rope.offsetToUtf16_eq
  offsetFromUtf16 := rope.offsetFromUtf16_eq
  isCharBoundary := fun _ => Rope.isCharBoundary_iff
  chunks := ⟨rfl, h⟩

theorem Edits.rope_content (edits : Edits) :
    ∃ rope, edits.rope = some rope ∧ rope.content = edits.text ∧ rope.WellFormed := by
  induction edits with
  | new => exact ⟨Rope.new, rfl, rfl, fun _ h => by cases h⟩
  | push edits text ih =>
    obtain ⟨rope, hrope, hcontent, hgood⟩ := ih
    obtain ⟨pushed, hpushed, htext, hpushedGood⟩ := Rope.push_eq hgood text
    refine ⟨pushed, ?_, by rw [htext, hcontent, Edits.text], hpushedGood⟩
    rw [Edits.rope, hrope]
    exact hpushed
  | append edits other ih ihOther =>
    obtain ⟨rope, hrope, hcontent, hgood⟩ := ih
    obtain ⟨tail, htail, htailContent, htailGood⟩ := ihOther
    obtain ⟨joined, hjoined, htext, hjoinedGood⟩ := Rope.append_eq hgood htailGood
    refine ⟨joined, ?_, by rw [htext, hcontent, htailContent, Edits.text], hjoinedGood⟩
    rw [Edits.rope, hrope, htail]
    exact hjoined
  | replace edits range insert ih =>
    obtain ⟨rope, hrope, hcontent, hgood⟩ := ih
    obtain ⟨replaced, hreplaced, htext, hreplacedGood⟩ := Rope.replace_eq hgood range insert
    refine ⟨replaced, ?_, by rw [htext, hcontent, Edits.text], hreplacedGood⟩
    rw [Edits.rope, hrope]
    exact hreplaced

theorem rope_is_a_string (edits : Edits) :
    ∃ rope, edits.rope = some rope ∧ rope.Agrees edits.text := by
  obtain ⟨rope, hrope, hcontent, hgood⟩ := edits.rope_content
  exact ⟨rope, hrope, hcontent ▸ hgood.agrees⟩

example : (Edits.replace (.push .new ['a', 'é', '\n']) ⟨2, 1⟩ ['x']).text =
    ['a', 'x', 'é', '\n'] := by decide

end GitComet.Kit
