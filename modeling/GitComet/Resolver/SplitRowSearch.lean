import GitComet.Resolver.SplitRowPages

namespace GitComet.Resolver
open Text Kit Conflict List Nat FileDiff Option

def toAsciiUppercase (byte : UInt8) : UInt8 :=
  if 97 ≤ byte ∧ byte ≤ 122 then byte - 32 else byte

def eqIgnoreAsciiCase (a b : List UInt8) : Bool :=
  a.map toAsciiLowercase == b.map toAsciiLowercase

def hasBit (bloom : List (BitVec 64)) (bit : ℕ) : Bool :=
  bloom[bit / 64]?.any fun word => word &&& 1#64 <<< (bit % 64) != 0#64

def SparseLineIndex.maybeContainsAsciiNeedle (index : SparseLineIndex) (needle : List UInt8) :
    Bool :=
  if needle.length < 3 then true
  else (trigramBits (needle.map toAsciiLowercase)).all (hasBit index.asciiTrigramBloom)

def skipNewlines (pos : ℕ) : List ℕ → ℕ → List ℕ × ℕ
  | [], lineIx => ([], lineIx)
  | newlinePos :: newlines, lineIx =>
    if newlinePos ≥ pos then (newlinePos :: newlines, lineIx)
    else skipNewlines pos newlines (lineIx + 1)

-- `none` where the number of a line does not fit its 32 bits.
def matchingLinesFrom (lineLimit : ℕ) : List ℕ → List ℕ → ℕ → Option ℕ → Option (List ℕ)
  | [], _, _, _ => some []
  | pos :: positions, newlines, lineIx, lastLine =>
    let next := skipNewlines pos newlines lineIx
    if next.2 ≥ lineLimit then some []
    else if lastLine = some next.2 then
      matchingLinesFrom lineLimit positions next.1 next.2 lastLine
    else if next.2 > u32Max then none
    else (matchingLinesFrom lineLimit positions next.1 next.2 (some next.2)).map (next.2 :: ·)

def memchr2 (a b : UInt8) (bytes : List UInt8) : List ℕ :=
  bytes.findIdxs fun byte => byte == a || byte == b

def needlePositions (bytes needle : List UInt8) (first last : UInt8) : List ℕ :=
  let candidates := memchr2 (toAsciiLowercase first) (toAsciiUppercase first)
  if needle.length = 1 then candidates bytes
  else if bytes.length < needle.length then []
  else
    let lastStart := bytes.length - needle.length
    let middle := (needle.drop 1).take (needle.length - 2)
    (candidates (bytes.take (lastStart + 1))).filter fun start =>
      (bytes[start + needle.length - 1]?.any fun byte =>
        byte == toAsciiLowercase last || byte == toAsciiUppercase last) &&
      eqIgnoreAsciiCase ((bytes.drop (start + 1)).take (needle.length - 2)) middle

def SparseLineIndex.linesContainingAsciiCaseInsensitive (index : SparseLineIndex)
    (text : List Char) (needle : List UInt8) (lineLimit : ℕ) : Option (List ℕ) :=
  if index.maybeContainsAsciiNeedle needle then
    match needle.head?, needle.getLast? with
    | some first, some last =>
      matchingLinesFrom lineLimit (needlePositions (utf8 text) needle first last) (newlines text) 0
        none
    | _, _ => some []
  else some []

def contextRowOf (entry : SplitLayoutEntry) (leading trailingRowStart lineIx : ℕ) : Option ℕ :=
  if lineIx < leading then some (entry.rowStart + lineIx)
  else if lineIx ≥ trailingRowStart then
    let offset := leading + (lineIx - trailingRowStart)
    if offset < entry.rowCount then some (entry.rowStart + offset) else none
  else none

def extendContextLineMatches (entry : SplitLayoutEntry) (leading trailingRowStart : ℕ)
    (lines : List ℕ) : List ℕ :=
  lines.filterMap (contextRowOf entry leading trailingRowStart)

def extendBlockLineMatches (entry : SplitLayoutEntry) (ours theirs : List ℕ) : List ℕ :=
  match ours, theirs with
  | [], [] => []
  | line :: ours, [] =>
    if line ≥ entry.rowCount then []
    else (entry.rowStart + line) :: extendBlockLineMatches entry ours []
  | [], line :: theirs =>
    if line ≥ entry.rowCount then []
    else (entry.rowStart + line) :: extendBlockLineMatches entry [] theirs
  | oursLine :: ours, theirsLine :: theirs =>
    if min oursLine theirsLine ≥ entry.rowCount then []
    else (entry.rowStart + min oursLine theirsLine) ::
      if oursLine = theirsLine then extendBlockLineMatches entry ours theirs
      else if oursLine < theirsLine then extendBlockLineMatches entry ours (theirsLine :: theirs)
      else extendBlockLineMatches entry (oursLine :: ours) theirs
termination_by ours.length + theirs.length

def entryMatches (segments : List ConflictSegment) (needle : List UInt8)
    (entry : SplitLayoutEntry) : Option (List ℕ) :=
  match entry.kind, segments[entry.segmentIx]? with
  | .context lineIndex leading trailingRowStart _ _, some (.text text) =>
    (lineIndex.linesContainingAsciiCaseInsensitive text needle lineIndex.lineCount).map
      (extendContextLineMatches entry leading trailingRowStart)
  | .block oursLineIndex theirsLineIndex _ _, some (.block block) => do
    let oursHits ← oursLineIndex.linesContainingAsciiCaseInsensitive block.ours needle
      oursLineIndex.lineCount
    let theirsHits ← theirsLineIndex.linesContainingAsciiCaseInsensitive block.theirs needle
      theirsLineIndex.lineCount
    some (extendBlockLineMatches entry oursHits theirsHits)
  | _, _ => some []

def entriesMatches (segments : List ConflictSegment) (needle : List UInt8) :
    List SplitLayoutEntry → Option (List ℕ)
  | [] => some []
  | entry :: entries => do
    let own ← entryMatches segments needle entry
    let rest ← entriesMatches segments needle entries
    some (own ++ rest)

def ConflictSplitRowIndex.searchAsciiCaseInsensitiveMatchingRows (index : ConflictSplitRowIndex)
    (segments : List ConflictSegment) (needle : List UInt8) : Option (List ℕ) :=
  if needle.isEmpty then some [] else entriesMatches segments needle index.entries

def HoldsNeedle (needle : List UInt8) (line : List Char) : Prop :=
  needle.map toAsciiLowercase <:+: (utf8 line).map toAsciiLowercase

def RowHolds (needle : List UInt8) (row : FileDiffRow) : Prop :=
  ∃ line, (row.old = some line ∨ row.new = some line) ∧ HoldsNeedle needle line

def MatchAt (needle bytes : List UInt8) (pos : ℕ) : Prop :=
  needle.map toAsciiLowercase <+: (bytes.drop pos).map toAsciiLowercase

section
variable {needle bytes : List UInt8}

theorem lowercase_iff (a byte : UInt8) :
    byte = toAsciiLowercase a ∨ byte = toAsciiUppercase a ↔
      toAsciiLowercase byte = toAsciiLowercase a := by
  unfold toAsciiLowercase toAsciiUppercase
  simp only [← UInt8.toNat_inj, UInt8.le_iff_toNat_le]
  split <;> split <;> split <;>
    simp only [UInt8.toNat_add, UInt8.toNat_sub, UInt8.toNat_ofNat] at * <;> omega

theorem lowercase_newline {byte : UInt8} (h : toAsciiLowercase byte = newline) :
    byte = newline := by
  have heq : toAsciiLowercase byte = toAsciiLowercase newline := h
  rcases (lowercase_iff newline byte).mpr heq with rfl | rfl <;> rfl

theorem memchr2_case (a : UInt8) (bytes : List UInt8) :
    memchr2 (toAsciiLowercase a) (toAsciiUppercase a) bytes =
      bytes.findIdxs fun byte => toAsciiLowercase byte == toAsciiLowercase a := by
  unfold memchr2
  congr 1
  funext byte
  rw [Bool.eq_iff_iff, Bool.or_eq_true, beq_iff_eq, beq_iff_eq, beq_iff_eq, lowercase_iff]

theorem matchAt_iff {pos : ℕ} (hne : needle ≠ []) : MatchAt needle bytes pos ↔
    pos + needle.length ≤ bytes.length ∧
      ((bytes.drop pos).take needle.length).map toAsciiLowercase = needle.map toAsciiLowercase := by
  have hpos := length_pos_iff.mpr hne
  constructor
  · intro h
    have hle := List.IsPrefix.length_le h
    rw [length_map, length_map, length_drop] at hle
    refine ⟨by omega, ?_⟩
    have hlength : (needle.map toAsciiLowercase).length = needle.length := length_map _
    rw [map_take, ← hlength]
    exact (prefix_iff_eq_take.mp h).symm
  · rintro ⟨-, h⟩
    rw [MatchAt, ← h]
    exact ( take_prefix _ _).map _

theorem window_ends {pos n : ℕ} (h : pos + n + 1 < bytes.length) :
    (bytes.drop pos).take (n + 2) =
      bytes[pos] :: ((bytes.drop (pos + 1)).take n ++ [bytes[pos + n + 1]]) := by
  have hsum : pos + 1 + n = pos + n + 1 := by omega
  rw [drop_eq_getElem_cons (by omega), take_succ_cons, take_add_one,
    getElem?_drop, hsum, getElem?_eq_getElem h, toList_some]

theorem mem_needlePositions {first last : UInt8} (hfirst : needle.head? = some first)
    (hlast : needle.getLast? = some last) {pos : ℕ} :
    pos ∈ needlePositions bytes needle first last ↔ MatchAt needle bytes pos := by
  obtain ⟨tail, rfl⟩ := head?_eq_some_iff.mp hfirst
  rw [matchAt_iff (cons_ne_nil _ _)]
  simp only [needlePositions, memchr2_case]
  rcases eq_nil_or_concat' tail with rfl | ⟨middle, final, rfl⟩
  · rw [if_pos length_singleton, mem_findIdxs_iff_exists_getElem_pos]
    constructor
    · rintro ⟨hlt, hbyte⟩
      refine ⟨hlt, ?_⟩
      rw [drop_eq_getElem_cons hlt]
      exact congrArg (fun byte => [byte]) (beq_iff_eq.mp hbyte)
    · rintro ⟨hlt, hbytes⟩
      rw [drop_eq_getElem_cons hlt] at hbytes
      exact ⟨hlt, beq_iff_eq.mpr (cons.inj hbytes).1⟩
  · obtain rfl : final = last := by
      rw [← cons_append, getLast?_concat] at hlast
      exact some.inj hlast
    have hlength : (first :: (middle ++ [final])).length = middle.length + 2 := by simp
    have hmiddle : ((first :: (middle ++ [final])).drop 1).take (middle.length + 2 - 2) =
        middle := by simp
    rw [hlength, if_neg (by omega)]
    split
    · rename_i hshort
      simp only [not_mem_nil, false_iff, not_and]
      omega
    · rename_i hlong
      rw [hmiddle, mem_filter, mem_findIdxs_iff_exists_getElem_pos]
      by_cases hin : pos + (middle.length + 2) ≤ bytes.length
      · have hat : pos < (bytes.take (bytes.length - (middle.length + 2) + 1)).length := by
          rw [length_take]
          omega
        have hend : pos + (middle.length + 2) - 1 = pos + middle.length + 1 := by omega
        rw [window_ends (by omega), hend, getElem?_eq_getElem (by omega)]
        simp only [hat, hin, getElem_take, any_some, Bool.and_eq_true, Bool.or_eq_true,
          beq_iff_eq, lowercase_iff, eqIgnoreAsciiCase, Nat.add_sub_cancel, exists_true_left,
          true_and, map_cons, map_append, map_nil, cons.injEq]
        refine and_congr_right fun _ => ⟨fun h => by rw [h.1, h.2], fun h => ?_⟩
        obtain ⟨hbetween, hends⟩ := append_inj' h rfl
        exact ⟨(cons.inj hends).1, hbetween⟩
      · have hout : ¬pos < (bytes.take (bytes.length - (middle.length + 2) + 1)).length := by
          rw [length_take]
          omega
        simp only [hout, hin, false_and, IsEmpty.exists_iff]

theorem needlePositions_sorted (bytes needle : List UInt8) (first last : UInt8) :
    (needlePositions bytes needle first last).Pairwise (· < ·) := by
  unfold needlePositions memchr2
  dsimp only
  split
  · exact pairwise_findIdxs
  · split
    · exact Pairwise.nil
    · exact pairwise_findIdxs.filter _

end

section

def lineOf (newlines : List ℕ) (pos : ℕ) : ℕ :=
  newlines.countP fun newlinePos => decide (newlinePos < pos)

variable {newlines : List ℕ} {newlinePos pos next : ℕ}

theorem lineOf_cons_lt (h : newlinePos < pos) :
    lineOf (newlinePos :: newlines) pos = lineOf newlines pos + 1 :=
  countP_cons_of_pos (decide_eq_true h)

theorem lineOf_cons_ge (h : (newlinePos :: newlines).Pairwise (· < ·)) (hge : pos ≤ newlinePos) :
    lineOf (newlinePos :: newlines) pos = 0 := by
  refine countP_eq_zero.mpr fun other hother => ?_
  rw [decide_eq_true_eq, not_lt]
  rcases mem_cons.mp hother with rfl | hother
  · exact hge
  · exact le_trans hge (rel_of_pairwise_cons h hother).le

theorem skipNewlines_eq (h : newlines.Pairwise (· < ·)) (lineIx : ℕ) :
    skipNewlines pos newlines lineIx =
      (newlines.drop (lineOf newlines pos), lineIx + lineOf newlines pos) := by
  induction newlines generalizing lineIx with
  | nil => rfl
  | cons newlinePos newlines ih =>
    rw [skipNewlines]
    split
    · rename_i hge
      rw [lineOf_cons_ge h hge]
      rfl
    · rename_i hlt
      rw [ih h.of_cons, lineOf_cons_lt (not_le.mp hlt), drop_succ_cons, add_right_comm,
        ← add_assoc]

theorem lineOf_drop (h : newlines.Pairwise (· < ·)) (hle : pos ≤ next) :
    lineOf newlines pos + lineOf (newlines.drop (lineOf newlines pos)) next =
      lineOf newlines next := by
  induction newlines with
  | nil => rfl
  | cons newlinePos newlines ih =>
    by_cases hlt : newlinePos < pos
    · rw [lineOf_cons_lt hlt, lineOf_cons_lt (lt_of_lt_of_le hlt hle), drop_succ_cons,
        ← ih h.of_cons, add_right_comm]
    · rw [lineOf_cons_ge h (not_lt.mp hlt), zero_add]
      rfl

theorem matchingLinesFrom_spec {lineLimit : ℕ} (hlimit : lineLimit ≤ u32Max + 1)
    (positions : List ℕ) : ∀ {newlines : List ℕ} {lineIx : ℕ} {lastLine : Option ℕ},
      positions.Pairwise (· < ·) → newlines.Pairwise (· < ·) →
      (∀ line, lastLine = some line → line ≤ lineIx) →
      (∀ pos ∈ positions, lineIx + lineOf newlines pos < lineLimit) →
      ∃ lines, matchingLinesFrom lineLimit positions newlines lineIx lastLine = some lines ∧
        lines.Pairwise (· < ·) ∧ ∀ line, line ∈ lines ↔ lastLine ≠ some line ∧
          ∃ pos ∈ positions, lineIx + lineOf newlines pos = line := by
  induction positions with
  | nil => exact fun _ _ _ _ => ⟨[], rfl, .nil, fun line => by simp⟩
  | cons pos positions ih =>
    intro newlines lineIx lastLine hpositions hnewlines hlast hbound
    obtain ⟨hbehind, hrest⟩ := pairwise_cons.mp hpositions
    have hline := hbound pos mem_cons_self
    have hlater : ∀ next ∈ positions, lineIx + lineOf newlines pos +
        lineOf (newlines.drop (lineOf newlines pos)) next = lineIx + lineOf newlines next :=
      fun next hnext => by rw [add_assoc, lineOf_drop hnewlines (hbehind next hnext).le]
    have hsub := hnewlines.sublist (drop_sublist (lineOf newlines pos) newlines)
    have hnext : ∀ next ∈ positions, lineIx + lineOf newlines pos +
        lineOf (newlines.drop (lineOf newlines pos)) next < lineLimit := fun next hnext => by
      rw [hlater next hnext]
      exact hbound next (mem_cons_of_mem pos hnext)
    simp only [matchingLinesFrom, skipNewlines_eq hnewlines]
    rw [if_neg (not_le.mpr hline)]
    split
    · rename_i hseen
      obtain ⟨lines, hlines, hsorted, hmem⟩ := ih hrest hsub
        (fun line heq => le_trans (hlast line heq) (le_add_right _ _)) hnext
      refine ⟨lines, hlines, hsorted, fun line => ?_⟩
      rw [hmem, exists_mem_cons_iff]
      refine and_congr_right fun hne => ⟨?_, ?_⟩
      · rintro ⟨next, hin, rfl⟩
        exact .inr ⟨next, hin, (hlater next hin).symm⟩
      · rintro (rfl | ⟨next, hin, rfl⟩)
        · exact absurd hseen hne
        · exact ⟨next, hin, hlater next hin⟩
    · rename_i hunseen
      have hnewest : ∀ line, some (lineIx + lineOf newlines pos) = some line →
          line ≤ lineIx + lineOf newlines pos := fun line heq => (some.inj heq).symm.le
      obtain ⟨lines, hlines, hsorted, hmem⟩ := ih hrest hsub hnewest hnext
      have hbeyond : ∀ line ∈ lines, lineIx + lineOf newlines pos < line := fun line hin => by
        obtain ⟨hne, next, -, hat⟩ := (hmem line).mp hin
        have hdiff : lineIx + lineOf newlines pos ≠ line := fun heq => hne (congrArg some heq)
        omega
      rw [if_neg (by omega), hlines]
      refine ⟨_, rfl, pairwise_cons.mpr ⟨hbeyond, hsorted⟩, fun line => ?_⟩
      rw [mem_cons, exists_mem_cons_iff]
      constructor
      · rintro (rfl | hin)
        · exact ⟨hunseen, .inl rfl⟩
        · have hlt := hbeyond line hin
          obtain ⟨-, next, hnextIn, hat⟩ := (hmem line).mp hin
          refine ⟨fun heq => ?_, .inr ⟨next, hnextIn, (hlater next hnextIn).symm.trans hat⟩⟩
          have := hlast line heq
          omega
      · rintro ⟨hne, heq | ⟨next, hin, hat⟩⟩
        · exact .inl heq.symm
        · by_cases hsame : line = lineIx + lineOf newlines pos
          · exact .inl hsame
          · exact .inr ((hmem line).mpr ⟨fun heq => hsame (some.inj heq).symm, next, hin,
              (hlater next hin).trans hat⟩)

end

section

variable {bloom : List (BitVec 64)} {bit : ℕ}

theorem hasBit_setBit {other : ℕ} (h : hasBit bloom other) :
    hasBit (setBit bloom bit) other := by
  rw [hasBit, setBit]
  rcases eq_or_ne (bit / 64) (other / 64) with hsame | hother
  · rw [hsame, getElem?_modify_eq]
    cases hword : bloom[other / 64]? with
    | none =>
      rw [hasBit, hword] at h
      cases h
    | some word =>
      rw [hasBit, hword, any_some, bne_iff_ne] at h
      rw [Option.map_eq_map, map_some, any_some, bne_iff_ne,
        BitVec.and_or_distrib_right]
      exact fun hzero => h (BitVec.or_eq_zero_iff.mp hzero).1
  · rwa [getElem?_modify_ne _ _ hother]

theorem hasBit_own (h : bit / 64 < bloom.length) : hasBit (setBit bloom bit) bit := by
  rw [hasBit, setBit, getElem?_modify_eq, getElem?_eq_getElem h, Option.map_eq_map,
    Option.map_some, Option.any_some, bne_iff_ne, BitVec.and_or_distrib_right, BitVec.and_self]
  intro hzero
  have hmask := congrArg (BitVec.getLsbD · (bit % 64)) (BitVec.or_eq_zero_iff.mp hzero).2
  have hlt : bit % 64 < 64 := mod_lt _ (by decide)
  simp [hlt] at hmask

theorem trigramBloomBit_lt (a b c : UInt8) : trigramBloomBit a b c / 64 < 16 := by
  have hle : trigramBloomBit a b c ≤ 1023 := and_le_right
  omega

theorem trigramBits_small (bytes : List UInt8) : ∀ bit ∈ trigramBits bytes, bit / 64 < 16 := by
  induction bytes using trigramBits.induct with
  | case1 a b c rest ih =>
    intro bit hbit
    rcases mem_cons.mp hbit with rfl | hbit
    · exact trigramBloomBit_lt a b c
    · exact ih bit hbit
  | case2 bytes hshort =>
    intro bit hbit
    rw [trigramBits.eq_2 bytes hshort] at hbit
    exact absurd hbit not_mem_nil

theorem hasBit_foldl (bits : List ℕ) : ∀ {bloom : List (BitVec 64)}, bloom.length = 16 →
    (∀ bit ∈ bits, bit / 64 < 16) → ∀ bit, hasBit bloom bit ∨ bit ∈ bits →
      hasBit (bits.foldl setBit bloom) bit := by
  induction bits with
  | nil => exact fun _ _ bit h => h.resolve_right not_mem_nil
  | cons first bits ih =>
    intro bloom hlength hsmall bit h
    refine ih (by rw [setBit, List.length_modify, hlength])
      (fun other hother => hsmall other (mem_cons_of_mem first hother)) bit ?_
    rcases h with hold | hnew
    · exact .inl (hasBit_setBit hold)
    · rcases mem_cons.mp hnew with rfl | hnew
      · exact .inl (hasBit_own (by rw [hlength]; exact hsmall bit mem_cons_self))
      · exact .inr hnew

theorem trigramBits_cons (byte : UInt8) (bytes : List UInt8) :
    trigramBits bytes ⊆ trigramBits (byte :: bytes) := by
  cases bytes with
  | nil => exact nil_subset _
  | cons second bytes =>
    cases bytes with
    | nil => exact nil_subset _
    | cons third bytes => exact subset_cons_self _ _

theorem trigramBits_append (front back : List UInt8) :
    trigramBits back ⊆ trigramBits (front ++ back) := by
  induction front with
  | nil => exact Subset.refl _
  | cons byte front ih => exact Subset.trans ih (trigramBits_cons byte (front ++ back))

theorem trigramBits_front (front back : List UInt8) :
    trigramBits front ⊆ trigramBits (front ++ back) := by
  induction front using trigramBits.induct with
  | case1 a b c rest ih => exact cons_subset_cons _ ih
  | case2 front hshort =>
    rw [trigramBits.eq_2 front hshort]
    exact nil_subset _

theorem maybeContains_of_match {text : List Char} {needle : List UInt8} {pos : ℕ}
    (h : MatchAt needle (utf8 text) pos) :
    (SparseLineIndex.forText text).maybeContainsAsciiNeedle needle := by
  rw [SparseLineIndex.maybeContainsAsciiNeedle]
  split
  · rfl
  · refine all_eq_true.mpr fun bit hbit => ?_
    rw [(SparseLineIndex.forText_fits text).bloom]
    refine hasBit_foldl _ length_replicate (trigramBits_small _) bit (.inr ?_)
    obtain ⟨behind, hbehind⟩ := h
    have hsplit : (utf8 text).map toAsciiLowercase = ((utf8 text).take pos).map toAsciiLowercase ++
          (needle.map toAsciiLowercase ++ behind) := by
      rw [hbehind, ← map_append, take_append_drop]
    rw [hsplit]
    exact trigramBits_append _ _ (trigramBits_front _ _ hbit)

end

section
variable {needle : List UInt8} {text : List Char}

theorem holdsNeedle_iff {line : List Char} :
    HoldsNeedle needle line ↔ ∃ pos, MatchAt needle (utf8 line) pos := by
  constructor
  · rintro ⟨front, back, h⟩
    refine ⟨front.length, ?_⟩
    rw [MatchAt, map_drop, ← h, append_assoc, drop_left]
    exact prefix_append _ _
  · rintro ⟨pos, h⟩
    exact h.isInfix.trans ((drop_suffix pos _).isInfix.map _)

theorem prefix_before {α : Type} {word front back : List α} {x : α} (h : x ∉ word) :
    word <+: front ++ x :: back ↔ word <+: front := by
  refine ⟨fun hword => ?_, fun hword => hword.trans (prefix_append _ _)⟩
  rcases lt_or_ge front.length word.length with hlong | hshort
  · have hfront : front ++ [x] <+: front ++ x :: back := ⟨back, by simp⟩
    have hle : (front ++ [x]).length ≤ word.length := by
      rw [length_append, length_singleton]
      exact hlong
    have hinside := prefix_of_prefix_length_le hfront hword hle
    exact absurd (hinside.subset (by simp)) h
  · exact prefix_of_prefix_length_le hword (prefix_append _ _) hshort

theorem utf8_line (row rest : List Char) :
    utf8 (row ++ '\n' :: rest) = utf8 row ++ newline :: utf8 rest := by
  rw [utf8_append, ← singleton_append, utf8_append, utf8_newline, singleton_append]

variable {row rest : List Char}

theorem matchAt_line {pos : ℕ} (hfree : newline ∉ needle) :
    (pos ≤ byteLen row → (MatchAt needle (utf8 (row ++ '\n' :: rest)) pos ↔
      MatchAt needle (utf8 row) pos)) ∧
    (MatchAt needle (utf8 (row ++ '\n' :: rest)) (byteLen row + 1 + pos) ↔
      MatchAt needle (utf8 rest) pos) := by
  constructor
  · intro hle
    have hnot : newline ∉ needle.map toAsciiLowercase := fun hmem => by
      obtain ⟨byte, hbyte, hlower⟩ := mem_map.mp hmem
      exact hfree (lowercase_newline hlower ▸ hbyte)
    have hlower : toAsciiLowercase newline = newline := rfl
    rw [MatchAt, utf8_line, drop_append_of_le_length (by rwa [length_utf8]), map_append,
      map_cons, hlower, prefix_before hnot, MatchAt]
  · rw [MatchAt, utf8_line, ← length_utf8, add_assoc, drop_append,
      drop_eq_nil_of_le (le_add_right _ _), nil_append, Nat.add_sub_cancel_left,
      add_comm 1 pos, drop_succ_cons, MatchAt]

theorem lineOf_line {pos : ℕ} (hrow : '\n' ∉ row) :
    (pos ≤ byteLen row → lineOf (newlines (row ++ '\n' :: rest)) pos = 0) ∧
      lineOf (newlines (row ++ '\n' :: rest)) (byteLen row + 1 + pos) =
        lineOf (newlines rest) pos + 1 := by
  have hsplit := StrSource.findIdxs_line hrow 0 rest
  rw [zero_add, findIdxs_start (s := byteLen row + 1)] at hsplit
  have hsorted : (newlines (row ++ '\n' :: rest)).Pairwise (· < ·) := pairwise_findIdxs
  have hlines : newlines (row ++ '\n' :: rest) =
      byteLen row :: (newlines rest).map (· + (byteLen row + 1)) := hsplit
  rw [hlines] at hsorted ⊢
  refine ⟨lineOf_cons_ge hsorted, ?_⟩
  rw [lineOf_cons_lt (by omega), lineOf, countP_map]
  refine congrArg (· + 1) (countP_congr fun newlinePos _ => ?_)
  simp only [Function.comp_apply, decide_eq_true_eq]
  omega

theorem matched_line (hne : needle ≠ []) (hfree : newline ∉ needle) (text : List Char) : ∀ k,
    (∃ pos, MatchAt needle (utf8 text) pos ∧ lineOf (newlines text) pos = k) ↔
      ∃ row, (rowsIn text)[k]? = some row ∧ HoldsNeedle needle row := by
  induction text using SplitRows.rows_induction '\n' with
  | last row hrow =>
    intro k
    have hnone : newlines row = [] := StrSource.findIdxs_row hrow 0
    rw [hnone, rowsIn_row hrow]
    cases k with
    | zero =>
      rw [getElem?_cons_zero]
      constructor
      · rintro ⟨pos, hmatch, -⟩
        exact ⟨row, rfl, holdsNeedle_iff.mpr ⟨pos, hmatch⟩⟩
      · rintro ⟨other, hother, hholds⟩
        cases hother
        obtain ⟨pos, hmatch⟩ := holdsNeedle_iff.mp hholds
        exact ⟨pos, hmatch, rfl⟩
    | succ k => simp [lineOf]
  | step row rest hrow ih =>
    intro k
    rw [rowsIn_line hrow]
    constructor
    · rintro ⟨pos, hmatch, rfl⟩
      rcases lt_or_ge (byteLen row) pos with hbehind | hwithin
      · obtain ⟨behind, rfl⟩ := Nat.exists_eq_add_of_le (Nat.succ_le_of_lt hbehind)
        rw [succ_eq_add_one] at hmatch ⊢
        rw [(lineOf_line hrow).2, getElem?_cons_succ]
        exact (ih _).mp ⟨behind, (matchAt_line hfree).2.mp hmatch, rfl⟩
      · rw [(lineOf_line hrow).1 hwithin]
        exact ⟨row, rfl, holdsNeedle_iff.mpr ⟨pos, ((matchAt_line hfree).1 hwithin).mp hmatch⟩⟩
    · rintro ⟨other, hother, hholds⟩
      cases k with
      | zero =>
        cases hother
        obtain ⟨pos, hmatch⟩ := holdsNeedle_iff.mp hholds
        have hlength := ((matchAt_iff hne).mp hmatch).1
        rw [length_utf8] at hlength
        exact ⟨pos, ((matchAt_line hfree).1 (by omega)).mpr hmatch,
          (lineOf_line hrow).1 (by omega)⟩
      | succ k =>
        rw [getElem?_cons_succ] at hother
        obtain ⟨pos, hmatch, rfl⟩ := (ih k).mpr ⟨other, hother, hholds⟩
        exact ⟨_, (matchAt_line hfree).2.mpr hmatch, (lineOf_line hrow).2⟩

theorem matched_inside (hne : needle ≠ []) {k : ℕ}
    (hrow : (rowsIn text)[k]? = some row) (hholds : HoldsNeedle needle row) :
    k < lineTotal (rowsIn text) := by
  have hbounds := lineTotal_bounds text
  have hk := (List.getElem?_eq_some_iff.mp hrow).1
  by_contra hbehind
  obtain rfl : k = (rowsIn text).length - 1 := by omega
  rw [lineTotal_last hrow] at hbehind
  split at hbehind
  · rename_i hempty
    rw [hempty] at hholds
    exact hne (List.map_eq_nil_iff.mp (List.infix_nil.mp hholds))
  · omega

theorem le_rowStart (rows : List (List Char)) : ∀ {k}, k ≤ rows.length → k ≤ rowStart rows k := by
  induction rows with
  | nil =>
    intro k hk
    rw [length_nil] at hk
    omega
  | cons row rows ih =>
    intro k hk
    cases k with
    | zero => exact zero_le _
    | succ k =>
      have := ih (le_of_succ_le_succ hk)
      rw [rowStart_cons]
      omega

theorem lineTotal_fits (h : Addressable text) : lineTotal (rowsIn text) ≤ u32Max + 1 := by
  rcases Nat.eq_zero_or_pos (lineTotal (rowsIn text)) with hzero | hpos
  · omega
  · have hbounds := lineTotal_bounds text
    have hmod := div_add_mod (lineTotal (rowsIn text) - 1) 256
    have hlast : (lineTotal (rowsIn text) - 1) / 256 * 256 < lineTotal (rowsIn text) := by omega
    have hstart : rowStart (rowsIn text) ((lineTotal (rowsIn text) - 1) / 256 * 256) ≤ u32Max :=
      h _ hlast
    have hle := le_rowStart (rowsIn text) (le_trans hlast.le hbounds.2)
    have hmax : u32Max = 16777215 * 256 + 255 := rfl
    omega

end

end GitComet.Resolver
