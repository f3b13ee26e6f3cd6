import GitComet.Resolver.Blocks
import GitComet.Resolver.OutputSource

namespace GitComet.Resolver
open Text Kit List Nat Option

def conflictSplitPageSize : ℕ := 256
def conflictSplitLineCheckpointStride : ℕ := conflictSplitPageSize

section

def rowsIn (text : List Char) : List (List Char) := text.splitOn '\n'

def rowStart (rows : List (List Char)) (k : ℕ) : ℕ :=
  ((rows.take k).map fun row => byteLen row + 1).sum

def lineTotal (rows : List (List Char)) : ℕ :=
  if rows.getLast? = some [] then rows.length - 1 else rows.length

def newlines (text : List Char) : List ℕ := (utf8 text).findIdxs (· == newline)

variable {rows : List (List Char)} {row text : List Char} {k : ℕ}

theorem rowsIn_ne_nil (text : List Char) : rowsIn text ≠ [] := splitOn_ne_nil _ text

theorem rowsIn_pos (text : List Char) : 0 < (rowsIn text).length :=
  length_pos_iff.mpr (rowsIn_ne_nil text)

theorem byteLen_line (row rest : List Char) :
    byteLen (row ++ '\n' :: rest) = byteLen row + 1 + byteLen rest := by
  have hsize : Char.utf8Size '\n' = 1 := rfl
  rw [byteLen_append, byteLen_cons, hsize, add_assoc]

theorem rowsIn_row (h : '\n' ∉ row) : rowsIn row = [row] := splitOn_eq_singleton h

theorem rowsIn_line (h : '\n' ∉ row) (rest : List Char) :
    rowsIn (row ++ '\n' :: rest) = row :: rowsIn rest :=
  splitOn_append_cons_self_of_not_mem h rest

theorem rowStart_zero : rowStart rows 0 = 0 := rfl

theorem rowStart_cons : rowStart (row :: rows) (k + 1) = byteLen row + 1 + rowStart rows k := by
  rw [rowStart, take_succ_cons, map_cons, sum_cons, rowStart]

theorem rowStart_succ (h : rows[k]? = some row) :
    rowStart rows (k + 1) = rowStart rows k + byteLen row + 1 := by
  rw [rowStart, take_add_one, h, toList_some, map_append, List.sum_append,
    map_singleton, sum_singleton, rowStart, add_assoc]

theorem row_cut (text : List Char) : ∀ {k}, k < (rowsIn text).length → ∃ front rest,
    text = front ++ rest ∧ byteLen front = rowStart (rowsIn text) k ∧
      rowsIn rest = (rowsIn text).drop k := by
  induction text using SplitRows.rows_induction '\n' with
  | last row hrow =>
    intro k hk
    rw [rowsIn_row hrow, length_singleton] at hk
    obtain rfl := Nat.lt_one_iff.mp hk
    exact ⟨[], row, rfl, rfl, rfl⟩
  | step row rest hrow ih =>
    intro k hk
    rw [rowsIn_line hrow] at hk ⊢
    cases k with
    | zero => exact ⟨[], _, rfl, rfl, rowsIn_line hrow rest⟩
    | succ k =>
      obtain ⟨front, back, rfl, hfront, hback⟩ := ih (lt_of_succ_lt_succ hk)
      refine ⟨row ++ '\n' :: front, back, by simp, ?_, hback⟩
      rw [rowStart_cons, ← hfront, byteLen_line]

theorem rowsIn_head (h : rowsIn text = row :: rows) : '\n' ∉ row ∧
    (rows = [] ∧ text = row ∨ ∃ rest, text = row ++ '\n' :: rest ∧ rowsIn rest = rows) := by
  induction text using SplitRows.rows_induction '\n' with
  | last line hline =>
    rw [rowsIn_row hline] at h
    obtain ⟨rfl, rfl⟩ := cons.inj h
    exact ⟨hline, .inl ⟨rfl, rfl⟩⟩
  | step line rest hline =>
    rw [rowsIn_line hline] at h
    obtain ⟨rfl, rfl⟩ := cons.inj h
    exact ⟨hline, .inr ⟨rest, rfl, rfl⟩⟩

theorem row_parts (h : (rowsIn text)[k]? = some row) : ∃ front back, text = front ++ (row ++ back) ∧
    byteLen front = rowStart (rowsIn text) k ∧ '\n' ∉ row ∧
      (k + 1 = (rowsIn text).length ∧ back = [] ∨
        k + 1 < (rowsIn text).length ∧ ∃ rest, back = '\n' :: rest) := by
  obtain ⟨hk, hget⟩ := List.getElem?_eq_some_iff.mp h
  obtain ⟨front, rest, htext, hfront, hrest⟩ := row_cut text hk
  rw [drop_eq_getElem_cons hk, hget] at hrest
  obtain ⟨hrow, ⟨hlast, rfl⟩ | ⟨back, rfl, hback⟩⟩ := rowsIn_head hrest
  · rw [drop_eq_nil_iff] at hlast
    exact ⟨front, [], by rw [htext, append_nil], hfront, hrow, .inl ⟨by omega, rfl⟩⟩
  · have hpos := rowsIn_pos back
    rw [hback, length_drop] at hpos
    exact ⟨front, _, htext, hfront, hrow, .inr ⟨by omega, back, rfl⟩⟩

theorem newlines_eq (text : List Char) : ∀ start,
    (utf8 text).findIdxs (· == newline) start = (range ((rowsIn text).length - 1)).map
      fun k => start + rowStart (rowsIn text) (k + 1) - 1 := by
  induction text using SplitRows.rows_induction '\n' with
  | last row hrow =>
    intro start
    rw [StrSource.findIdxs_row hrow, rowsIn_row hrow]
    rfl
  | step row rest hrow ih =>
    intro start
    obtain ⟨count, hcount⟩ := Nat.exists_eq_add_of_lt (rowsIn_pos rest)
    rw [Nat.zero_add] at hcount
    rw [StrSource.findIdxs_line hrow, ih, rowsIn_line hrow, length_cons, hcount,
      Nat.add_sub_cancel, Nat.add_sub_cancel, range_succ_eq_map, map_cons, List.map_map]
    refine congrArg₂ _ ?_ (map_congr_left fun k _ => ?_)
    · rw [rowStart_cons, rowStart_zero]
      omega
    · rw [Function.comp_apply, succ_eq_add_one, rowStart_cons (k := k + 1)]
      omega

theorem foldl_newlines {σ : Type} {step : σ → ℕ → σ} {P : ℕ → σ → Prop} {s : σ} (text : List Char)
    (hstart : P 0 s) (hstep : ∀ k s, k + 1 < (rowsIn text).length → P k s →
      P (k + 1) (step s (rowStart (rowsIn text) (k + 1) - 1))) :
    P ((rowsIn text).length - 1) ((newlines text).foldl step s) := by
  have hupTo : ∀ n, n ≤ (rowsIn text).length - 1 → P n (((range n).map fun k =>
      0 + rowStart (rowsIn text) (k + 1) - 1).foldl step s) := by
    intro n
    induction n with
    | zero => exact fun _ => hstart
    | succ n ih =>
      intro hn
      rw [range_succ, map_append, foldl_append, map_singleton, foldl_cons, foldl_nil, Nat.zero_add]
      exact hstep n _ (by omega) (ih (by omega))
  rw [newlines, newlines_eq]
  exact hupTo _ (le_refl _)

end

structure WidestLine where
  ix : ℕ
  len : ℕ

def WidestLine.see (widest : WidestLine) (ix len : ℕ) : WidestLine :=
  if len > widest.len then ⟨ix, len⟩ else widest

structure LineScan where
  lineCount : ℕ
  lineStart : ℕ
  widest : WidestLine

def LineScan.newlineAt (scan : LineScan) (pos : ℕ) : LineScan :=
  ⟨scan.lineCount + 1, pos + 1, scan.widest.see scan.lineCount (pos - scan.lineStart)⟩

def LineScan.finish (scan : LineScan) (len : ℕ) : LineScan :=
  if scan.lineStart < len then
    ⟨scan.lineCount + 1, scan.lineStart, scan.widest.see scan.lineCount (len - scan.lineStart)⟩
  else scan

structure WidestLine.Of (widest : WidestLine) (rows : List (List Char)) : Prop where
  bound : ∀ row ∈ rows, byteLen row ≤ widest.len
  names : widest = ⟨0, 0⟩ ∨ ∃ row, rows[widest.ix]? = some row ∧ byteLen row = widest.len

structure LineScan.At (scan : LineScan) (rows : List (List Char)) (k : ℕ) : Prop where
  count : scan.lineCount = k
  start : scan.lineStart = rowStart rows k
  widest : scan.widest.Of (rows.take k)

section
variable {rows : List (List Char)} {row text : List Char} {k : ℕ} {scan : LineScan}

theorem WidestLine.of_nil : WidestLine.Of ⟨0, 0⟩ [] := ⟨fun _ h => (by cases h), .inl rfl⟩

theorem WidestLine.Of.see {widest : WidestLine} (h : widest.Of rows) (row : List Char) :
    (widest.see rows.length (byteLen row)).Of (rows ++ [row]) := by
  have hmem : ∀ other ∈ rows ++ [row], other ∈ rows ∨ other = row := fun other hother =>
    (mem_append.mp hother).imp_right mem_singleton.mp
  rw [WidestLine.see]
  split
  · rename_i hwide
    refine ⟨fun other hother => ?_, .inr ⟨row, getElem?_concat_length, rfl⟩⟩
    rcases hmem other hother with hold | rfl
    · exact (h.bound other hold).trans hwide.le
    · exact le_refl _
  · rename_i hnarrow
    refine ⟨fun other hother => ?_, h.names.imp_right ?_⟩
    · rcases hmem other hother with hold | rfl
      · exact h.bound other hold
      · exact Nat.le_of_not_lt hnarrow
    · rintro ⟨widestRow, hget, hlen⟩
      have hlt := (List.getElem?_eq_some_iff.mp hget).1
      exact ⟨widestRow, by rw [getElem?_append_left hlt, hget], hlen⟩

theorem LineScan.at_zero (rows : List (List Char)) : LineScan.At ⟨0, 0, ⟨0, 0⟩⟩ rows 0 :=
  ⟨rfl, rfl, WidestLine.of_nil⟩

theorem WidestLine.Of.next {widest : WidestLine} (h : widest.Of (rows.take k))
    (hrow : rows[k]? = some row) : (widest.see k (byteLen row)).Of (rows.take (k + 1)) := by
  have hk := (List.getElem?_eq_some_iff.mp hrow).1
  have hsee := h.see row
  rw [length_take, min_eq_left hk.le] at hsee
  rwa [take_add_one, hrow, toList_some]

theorem LineScan.At.newlineAt (h : scan.At rows k) (hk : k < rows.length) :
    (scan.newlineAt (rowStart rows (k + 1) - 1)).At rows (k + 1) := by
  have hget := getElem?_eq_getElem hk
  have hsucc := rowStart_succ hget
  refine ⟨by rw [LineScan.newlineAt, h.count], ?_, ?_⟩
  · rw [LineScan.newlineAt]
    dsimp only
    omega
  · rw [LineScan.newlineAt, h.count, h.start, hsucc, Nat.add_sub_cancel, Nat.add_sub_cancel_left]
    exact h.widest.next hget

theorem lineTotal_last {last : List Char} (h : rows[rows.length - 1]? = some last) :
    lineTotal rows = if last = [] then rows.length - 1 else rows.length := by
  simp only [lineTotal, getLast?_eq_getElem?, h, some_inj]

theorem last_row (text : List Char) : ∃ last front,
    (rowsIn text)[(rowsIn text).length - 1]? = some last ∧ text = front ++ last ∧
      byteLen front = rowStart (rowsIn text) ((rowsIn text).length - 1) := by
  have hpos := rowsIn_pos text
  obtain ⟨last, hlast⟩ : ∃ last, (rowsIn text)[(rowsIn text).length - 1]? = some last :=
    ⟨_, getElem?_eq_getElem (by omega)⟩
  obtain ⟨front, back, htext, hfront, -, ⟨-, rfl⟩ | ⟨hlt, -⟩⟩ := row_parts hlast
  · exact ⟨last, front, hlast, by rwa [append_nil] at htext, hfront⟩
  · omega

theorem LineScan.At.finish (h : scan.At (rowsIn text) ((rowsIn text).length - 1)) :
    (scan.finish (utf8 text).length).lineCount = lineTotal (rowsIn text) ∧
      (scan.finish (utf8 text).length).widest.Of
        ((rowsIn text).take (lineTotal (rowsIn text))) := by
  have hpos := rowsIn_pos text
  obtain ⟨last, front, hlast, htext, hfront⟩ := last_row text
  have hlen : (utf8 text).length = rowStart (rowsIn text) ((rowsIn text).length - 1) +
      byteLen last := by
    rw [length_utf8, ← hfront, ← byteLen_append, ← htext]
  have hsucc : (rowsIn text).length - 1 + 1 = (rowsIn text).length := by omega
  rw [LineScan.finish, h.start, hlen, lineTotal_last hlast]
  by_cases hempty : last = []
  · rw [if_neg (by rw [hempty, byteLen_nil]; omega), if_pos hempty]
    exact ⟨h.count, h.widest⟩
  · rw [if_pos (Nat.lt_add_of_pos_right (byteLen_pos.mpr hempty)), if_neg hempty, h.count]
    have hnext := h.widest.next hlast
    rw [hsucc] at hnext
    exact ⟨hsucc, by rwa [Nat.add_sub_cancel_left]⟩

end

def toAsciiLowercase (byte : UInt8) : UInt8 :=
  if 65 ≤ byte ∧ byte ≤ 90 then byte + 32 else byte

def conflictSearchTrigramBloomWords : ℕ := 16

def trigramBloomBit (a b c : UInt8) : ℕ :=
  let hash := (a.toUInt32 * 0x9E3779B1) ^^^ (b.toUInt32 * 0x85EBCA77) ^^^
    (c.toUInt32 * 0xC2B2AE3D)
  hash.toNat &&& (conflictSearchTrigramBloomWords * 64 - 1)

def trigramBits : List UInt8 → List ℕ
  | a :: b :: c :: rest => trigramBloomBit a b c :: trigramBits (b :: c :: rest)
  | _ => []

def setBit (bloom : List (BitVec 64)) (bit : ℕ) : List (BitVec 64) :=
  bloom.modify (bit / 64) (· ||| 1#64 <<< (bit % 64))

structure SparseLineIndex where
  lineCount : ℕ
  checkpoints : List ℕ
  asciiTrigramBloom : List (BitVec 64)
  widest : WidestLine

structure SparseScan where
  lines : LineScan
  checkpoints : List ℕ
  linesUntilCheckpoint : ℕ

def checkpointOffset (offset : ℕ) : ℕ := min offset u32Max

def SparseScan.newlineAt (len : ℕ) (scan : SparseScan) (pos : ℕ) : SparseScan :=
  if pos + 1 < len then
    if scan.linesUntilCheckpoint - 1 = 0 then
      ⟨scan.lines.newlineAt pos, scan.checkpoints ++ [checkpointOffset (pos + 1)],
        conflictSplitLineCheckpointStride⟩
    else ⟨scan.lines.newlineAt pos, scan.checkpoints, scan.linesUntilCheckpoint - 1⟩
  else ⟨scan.lines.newlineAt pos, scan.checkpoints, scan.linesUntilCheckpoint⟩

def lineEndFrom (bytes : List UInt8) (byteIx : ℕ) : ℕ :=
  byteIx + ((bytes.drop byteIx).takeWhile (· != newline)).length

def afterLineEnd (bytes : List UInt8) (lineEnd : ℕ) : ℕ :=
  if bytes[lineEnd]? = some newline then lineEnd + 1 else lineEnd

def lineRangeFrom (bytes : List UInt8) (byteIx : ℕ) : ℕ → Option Conflict.TextRange
  | 0 => if byteIx ≤ bytes.length then some ⟨byteIx, lineEndFrom bytes byteIx⟩ else none
  | ahead + 1 =>
    if byteIx ≤ bytes.length then
      lineRangeFrom bytes (afterLineEnd bytes (lineEndFrom bytes byteIx)) ahead
    else none

namespace SparseLineIndex

def forText (text : List Char) : SparseLineIndex :=
  let empty := replicate conflictSearchTrigramBloomWords 0#64
  if text.isEmpty then ⟨0, [], empty, ⟨0, 0⟩⟩
  else
    let bytes := utf8 text
    let scan := (newlines text).foldl (SparseScan.newlineAt bytes.length)
      ⟨⟨0, 0, ⟨0, 0⟩⟩, [0], conflictSplitLineCheckpointStride⟩
    let lines := scan.lines.finish bytes.length
    ⟨lines.lineCount, scan.checkpoints,
      (trigramBits (bytes.map toAsciiLowercase)).foldl setBit empty, lines.widest⟩

variable (index : SparseLineIndex)

def widestLine : Option WidestLine := if index.lineCount > 0 then some index.widest else none

def lineRange (text : List Char) (lineIx : ℕ) : Option Conflict.TextRange :=
  if lineIx ≥ index.lineCount then none
  else do
    let checkpointIx := lineIx / conflictSplitLineCheckpointStride
    let byteIx ← index.checkpoints[checkpointIx]?
    lineRangeFrom (utf8 text) byteIx (lineIx - checkpointIx * conflictSplitLineCheckpointStride)

def lineText (text : List Char) (lineIx : ℕ) : Option (List Char) :=
  (index.lineRange text lineIx).bind fun range => byteSlice text range.start range.stop

end SparseLineIndex

def Addressable (text : List Char) : Prop :=
  ∀ c, c * conflictSplitLineCheckpointStride < lineTotal (rowsIn text) →
    rowStart (rowsIn text) (c * conflictSplitLineCheckpointStride) ≤ u32Max

section
variable {row text : List Char} {k : ℕ}

theorem lineTotal_bounds (text : List Char) : (rowsIn text).length - 1 ≤ lineTotal (rowsIn text) ∧
    lineTotal (rowsIn text) ≤ (rowsIn text).length := by
  unfold lineTotal
  split <;> omega

theorem rowStart_inside (h : k < (rowsIn text).length) :
    rowStart (rowsIn text) k < byteLen text ↔ k < lineTotal (rowsIn text) := by
  have hbounds := lineTotal_bounds text
  obtain ⟨row, hrow⟩ : ∃ row, (rowsIn text)[k]? = some row := ⟨_, getElem?_eq_getElem h⟩
  obtain ⟨front, back, htext, hfront, -, hback⟩ := row_parts hrow
  have hlen := congrArg byteLen htext
  rw [byteLen_append, byteLen_append, hfront] at hlen
  rcases hback with ⟨hk, rfl⟩ | ⟨hk, rest, rfl⟩
  · obtain rfl : k = (rowsIn text).length - 1 := by omega
    rw [lineTotal_last hrow, hlen, byteLen_nil]
    by_cases hempty : row = []
    · simp [hempty]
    · have := byteLen_pos.mpr hempty
      rw [if_neg hempty]
      omega
  · have hpos := byteLen_pos.mpr (cons_ne_nil '\n' rest)
    omega

theorem lineEndFrom_row (h : (rowsIn text)[k]? = some row) :
    rowStart (rowsIn text) k ≤ (utf8 text).length ∧
      lineEndFrom (utf8 text) (rowStart (rowsIn text) k) = rowStart (rowsIn text) k + byteLen row ∧
      (k + 1 < (rowsIn text).length →
        afterLineEnd (utf8 text) (rowStart (rowsIn text) k + byteLen row) =
          rowStart (rowsIn text) (k + 1)) := by
  obtain ⟨front, back, htext, hfront, hrow, hback⟩ := row_parts h
  have hfree : ∀ byte ∈ utf8 row, (byte != newline) := fun byte hbyte =>
    bne_iff_ne.mpr fun heq => hrow (newline_mem_utf8 (heq ▸ hbyte))
  have hdrop : (utf8 text).drop (rowStart (rowsIn text) k) = utf8 row ++ utf8 back := by
    rw [← hfront, htext, utf8_drop, utf8_append]
  have hstop : ((utf8 row ++ utf8 back).takeWhile (· != newline)).length = byteLen row := by
    rw [takeWhile_append_of_pos hfree]
    rcases hback with ⟨-, rfl⟩ | ⟨-, rest, rfl⟩
    · simp
    · rw [← singleton_append, utf8_append, utf8_newline, singleton_append,
        takeWhile_cons_of_neg (by simp), append_nil, length_utf8]
  refine ⟨?_, ?_, fun hk => ?_⟩
  · rw [length_utf8, ← hfront, htext, byteLen_append]
    exact le_add_right _ _
  · rw [lineEndFrom, hdrop, hstop]
  · rcases hback with ⟨hlast, -⟩ | ⟨-, rest, rfl⟩
    · omega
    · have hbyte : (utf8 text)[rowStart (rowsIn text) k + byteLen row]? = some newline := by
        rw [← getElem?_drop, hdrop, getElem?_append_right (length_utf8 row).le,
          length_utf8, Nat.sub_self, ← singleton_append, utf8_append, utf8_newline]
        rfl
      rw [afterLineEnd, if_pos hbyte, rowStart_succ h]

theorem lineRangeFrom_row : ∀ ahead {k}, (rowsIn text)[k + ahead]? = some row →
    lineRangeFrom (utf8 text) (rowStart (rowsIn text) k) ahead =
      some ⟨rowStart (rowsIn text) (k + ahead), rowStart (rowsIn text) (k + ahead) + byteLen row⟩
  | 0, k, h => by
    rw [add_zero] at h ⊢
    obtain ⟨hle, hend, -⟩ := lineEndFrom_row h
    rw [lineRangeFrom, if_pos hle, hend]
  | ahead + 1, k, h => by
    have hk := (List.getElem?_eq_some_iff.mp h).1
    obtain ⟨first, hfirst⟩ : ∃ first, (rowsIn text)[k]? = some first :=
      ⟨_, getElem?_eq_getElem (by omega)⟩
    obtain ⟨hle, hend, hnext⟩ := lineEndFrom_row hfirst
    have hsum : k + (ahead + 1) = k + 1 + ahead := by omega
    rw [hsum] at h ⊢
    rw [lineRangeFrom, if_pos hle, hend, hnext (by omega), lineRangeFrom_row ahead h]

theorem byteSlice_row (h : (rowsIn text)[k]? = some row) :
    byteSlice text (rowStart (rowsIn text) k) (rowStart (rowsIn text) k + byteLen row) =
      some row := by
  obtain ⟨front, back, htext, hfront, -⟩ := row_parts h
  exact byteSlice_of htext hfront.symm (by rw [hfront])

theorem le_u32Max {offset : ℕ} (h : offset ≤ u32Max) : checkpointOffset offset = offset :=
  min_eq_left h

structure SparseScan.At (scan : SparseScan) (text : List Char) (k : ℕ) : Prop where
  lines : scan.lines.At (rowsIn text) k
  checkpoints : scan.checkpoints =
    (range (min k (lineTotal (rowsIn text) - 1) / 256 + 1)).map fun c =>
      checkpointOffset (rowStart (rowsIn text) (c * 256))
  left : scan.linesUntilCheckpoint = 256 - min k (lineTotal (rowsIn text) - 1) % 256

theorem SparseScan.At.newlineAt {scan : SparseScan} (h : scan.At text k)
    (hk : k + 1 < (rowsIn text).length) :
    (scan.newlineAt (utf8 text).length (rowStart (rowsIn text) (k + 1) - 1)).At text (k + 1) := by
  have hlines := h.lines.newlineAt (lt_of_succ_lt hk)
  have hbounds := lineTotal_bounds text
  have hpos : rowStart (rowsIn text) (k + 1) - 1 + 1 = rowStart (rowsIn text) (k + 1) := by
    have := rowStart_succ (getElem?_eq_getElem (lt_of_succ_lt hk))
    omega
  have hleft := h.left
  rw [SparseScan.newlineAt, hpos, length_utf8]
  by_cases hinside : rowStart (rowsIn text) (k + 1) < byteLen text
  · have hline := (rowStart_inside hk).mp hinside
    have hmet : min k (lineTotal (rowsIn text) - 1) = k := by omega
    have hnext : min (k + 1) (lineTotal (rowsIn text) - 1) = k + 1 := by omega
    rw [hmet] at hleft
    rw [if_pos hinside]
    split
    · refine ⟨hlines, ?_, ?_⟩
      · have hdiv : (k + 1) / 256 = k / 256 + 1 := by omega
        have hline : (k / 256 + 1) * 256 = k + 1 := by omega
        rw [hnext, hdiv, range_succ, map_append, map_singleton, hline, h.checkpoints, hmet]
      · rw [hnext]
        dsimp only [conflictSplitLineCheckpointStride, conflictSplitPageSize]
        omega
    · refine ⟨hlines, ?_, ?_⟩
      · have hdiv : (k + 1) / 256 = k / 256 := by omega
        rw [hnext, hdiv, h.checkpoints, hmet]
      · rw [hnext]
        dsimp only
        omega
  · have hline : ¬k + 1 < lineTotal (rowsIn text) := mt (rowStart_inside hk).mpr hinside
    have hsame : min (k + 1) (lineTotal (rowsIn text) - 1) =
        min k (lineTotal (rowsIn text) - 1) := by omega
    rw [if_neg hinside]
    exact ⟨hlines, by rw [hsame, h.checkpoints], by rw [hsame, hleft]⟩

namespace SparseLineIndex

structure Fits (index : SparseLineIndex) (text : List Char) : Prop where
  count : index.lineCount = lineTotal (rowsIn text)
  checkpoints : ∀ c, c * 256 < lineTotal (rowsIn text) →
    index.checkpoints[c]? = some (checkpointOffset (rowStart (rowsIn text) (c * 256)))
  bloom : index.asciiTrigramBloom = (trigramBits ((utf8 text).map toAsciiLowercase)).foldl setBit
    (replicate conflictSearchTrigramBloomWords 0#64)
  widest : index.widest.Of ((rowsIn text).take (lineTotal (rowsIn text)))

theorem forText_fits (text : List Char) : (forText text).Fits text := by
  cases text with
  | nil => exact ⟨rfl, fun _ h => absurd h (not_lt_zero _), rfl, WidestLine.of_nil⟩
  | cons c text =>
    have hscan : SparseScan.At ((newlines (c :: text)).foldl
        (SparseScan.newlineAt (utf8 (c :: text)).length)
        ⟨⟨0, 0, ⟨0, 0⟩⟩, [0], conflictSplitLineCheckpointStride⟩) (c :: text)
        ((rowsIn (c :: text)).length - 1) := by
      refine foldl_newlines (P := fun k (scan : SparseScan) => scan.At (c :: text) k) (c :: text) ?_
        fun k scan hk hat => hat.newlineAt hk
      exact ⟨LineScan.at_zero _, by rw [zero_min]; rfl, by rw [zero_min]; rfl⟩
    obtain ⟨hcount, hwidest⟩ := hscan.lines.finish
    refine ⟨hcount, fun k hk => ?_, rfl, hwidest⟩
    have hbounds := lineTotal_bounds (c :: text)
    have hmin : min ((rowsIn (c :: text)).length - 1) (lineTotal (rowsIn (c :: text)) - 1) =
      lineTotal (rowsIn (c :: text)) - 1 := by omega
    have hcheckpoints := hscan.checkpoints
    rw [hmin] at hcheckpoints
    show (SparseScan.checkpoints _)[k]? = _
    rw [hcheckpoints, getElem?_map, getElem?_range (by omega), map_some]

variable {index : SparseLineIndex}

theorem Fits.lineText (h : index.Fits text) (haddressable : Addressable text)
    (hk : k < lineTotal (rowsIn text)) : index.lineText text k = (rowsIn text)[k]? := by
  have hlen := lt_of_lt_of_le hk (lineTotal_bounds text).2
  have hrow := getElem?_eq_getElem hlen
  have hcheck : k / 256 * 256 < lineTotal (rowsIn text) :=
    lt_of_le_of_lt (div_mul_le_self k 256) hk
  have hsum : k / 256 * 256 + (k - k / 256 * 256) = k := by omega
  have hat : (rowsIn text)[k / 256 * 256 + (k - k / 256 * 256)]? = some (rowsIn text)[k] := by
    rw [hsum, hrow]
  have hrange := lineRangeFrom_row (k - k / 256 * 256) hat
  rw [hsum] at hrange
  have hfits : rowStart (rowsIn text) (k / 256 * 256) ≤ u32Max := haddressable _ hcheck
  rw [SparseLineIndex.lineText, lineRange, if_neg (by rw [h.count]; omega)]
  simp only [conflictSplitLineCheckpointStride, conflictSplitPageSize]
  rw [h.checkpoints _ hcheck, le_u32Max hfits, bind_eq_bind,
    bind_some, hrange, bind_some, byteSlice_row hrow, hrow]

end SparseLineIndex

end

end GitComet.Resolver
