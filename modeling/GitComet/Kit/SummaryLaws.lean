import GitComet.Basis.WeightedPrefix
import GitComet.Kit.Rope
import GitComet.Basis.SplitRows

namespace GitComet.Kit.Plain
open Nat

open Text WeightedPrefix

def upTo (text : List Char) (offset : ℕ) : List Char := within Char.utf8Size text offset

def after (text : List Char) (offset : ℕ) : List Char := text.drop (upTo text offset).length

def IsCharBoundary (text : List Char) (offset : ℕ) : Prop :=
  ∃ front, front <+: text ∧ byteLen front = offset

def clipRange (text : List Char) (range : Range) : Range :=
  let start := byteLen (upTo text range.start)
  ⟨start, byteLen (covering Char.utf8Size text (max range.stop start))⟩

def slice (text : List Char) (range : Range) : List Char :=
  let range := clipRange text range
  (upTo text range.stop).drop (upTo text range.start).length

def replace (text : List Char) (range : Range) (insert : List Char) : List Char :=
  let range := clipRange text range
  upTo text range.start ++ insert ++ after text range.stop

def rows (text : List Char) : List (List Char) := text.splitOn '\n'

def rowLens (text : List Char) : List ℕ := (rows text).map byteLen

def rowLen (text : List Char) (row : ℕ) : ℕ := (rowLens text).getD row 0

def rowStart (text : List Char) (row : ℕ) : ℕ := (((rowLens text).take row).map (· + 1)).sum

def longestRowLen (text : List Char) : ℕ := (rowLens text).foldr max 0

def lineRange (text : List Char) (row : ℕ) : Range :=
  if row < (rows text).length then ⟨rowStart text row, rowStart text row + rowLen text row⟩
  else ⟨byteLen text, byteLen text⟩

def offsetToPoint (text : List Char) (offset : ℕ) : Point :=
  let row := (upTo text offset).count '\n'
  ⟨row, min offset (byteLen text) - rowStart text row⟩

def pointToOffset (text : List Char) (point : Point) : ℕ :=
  if point.row < (rows text).length then
    rowStart text point.row + min point.column (rowLen text point.row)
  else byteLen text

def utf16Len (text : List Char) : ℕ := weight lenUtf16 text

def offsetToUtf16 (text : List Char) (offset : ℕ) : ℕ := utf16Len (upTo text offset)

def offsetFromUtf16 (text : List Char) (target : ℕ) : ℕ := byteLen (covering lenUtf16 text target)

end GitComet.Kit.Plain

variable {c : Char} {row bytes : List UInt8}

namespace GitComet.Kit

open Text SplitRows

theorem newline_mem_encode (h : newline ∈ String.utf8EncodeChar c) : c = '\n' := by
  have hbyte (b : UInt8) : newline = b ↔ b.toNat = 10 := by
    rw [eq_comm, ← UInt8.toNat_inj]
    rfl
  unfold String.utf8EncodeChar at h
  dsimp only at h
  split at h
  · rw [List.mem_singleton, hbyte, UInt8.toNat_ofNat'] at h
    apply Char.ext
    apply UInt32.toNat_inj.mp
    show c.val.toNat = 10
    omega
  · split at h
    · simp only [List.mem_cons, List.not_mem_nil, or_false, hbyte, UInt8.toNat_ofNat'] at h
      omega
    split at h
    · simp only [List.mem_cons, List.not_mem_nil, or_false, hbyte, UInt8.toNat_ofNat'] at h
      omega
    · simp only [List.mem_cons, List.not_mem_nil, or_false, hbyte, UInt8.toNat_ofNat'] at h
      omega

@[simp] theorem utf8_nil : utf8 [] = [] := rfl

@[simp] theorem utf8_cons (c : Char) (text : List Char) :
    utf8 (c :: text) = String.utf8EncodeChar c ++ utf8 text := rfl

@[simp] theorem utf8_append (front back : List Char) :
    utf8 (front ++ back) = utf8 front ++ utf8 back := List.flatMap_append

@[simp] theorem length_utf8 (text : List Char) : (utf8 text).length = byteLen text := by
  induction text with
  | nil => rfl
  | cons c text ih => rw [utf8_cons, List.length_append, ih, String.length_utf8EncodeChar,
      byteLen_cons]

theorem utf8_splitOn (text : List Char) :
    (utf8 text).splitOn newline = (text.splitOn '\n').map utf8 := by
  induction text with
  | nil => rfl
  | cons c text ih =>
    obtain ⟨row, rows, hrows⟩ := splitOn_exists '\n' text
    rw [hrows, List.map_cons] at ih
    by_cases hc : c = '\n'
    · subst hc
      have hencode : String.utf8EncodeChar '\n' = [newline] := by decide
      rw [utf8_cons, hencode, List.singleton_append, splitOn_cons_self, splitOn_cons_self, ih, hrows]
      rfl
    · rw [splitOn_cons_ne hc hrows, utf8_cons,
        splitOn_prepend (fun hmem => hc (newline_mem_encode hmem)) ih]
      rfl

def lens (bytes : List UInt8) : List ℕ := (bytes.splitOn newline).map List.length

theorem lens_utf8 (text : List Char) : lens (utf8 text) = Plain.rowLens text := by
  rw [lens, utf8_splitOn, List.map_map]
  exact List.map_congr_left fun row _ => length_utf8 row

theorem lens_row (h : newline ∉ row) : lens row = [row.length] := by
  rw [lens, List.splitOn_eq_singleton h]
  rfl

theorem lens_step (h : newline ∉ row) (rest : List UInt8) :
    lens (row ++ newline :: rest) = row.length :: lens rest := by
  rw [lens, List.splitOn_append_cons_self_of_not_mem h]
  rfl

theorem lens_first (bytes : List UInt8) : ∃ first tail, lens bytes = first :: tail := by
  obtain ⟨row, rows, h⟩ := splitOn_exists newline bytes
  exact ⟨row.length, rows.map List.length, by rw [lens, h]; rfl⟩

theorem lens_last (bytes : List UInt8) : ∃ init last, lens bytes = init ++ [last] := by
  obtain ⟨rows, row, h⟩ := splitOn_exists_last newline bytes
  exact ⟨rows.map List.length, row.length, by rw [lens, h, List.map_append]; rfl⟩

variable {init : List ℕ} {last : ℕ}

theorem lens_append {xs ys : List UInt8} {tail : List ℕ} {first : ℕ}
    (hxs : lens xs = init ++ [last]) (hys : lens ys = first :: tail) :
    lens (xs ++ ys) = init ++ (last + first) :: tail := by
  obtain ⟨rows, row, hrows⟩ := splitOn_exists_last newline xs
  obtain ⟨head, later, hlater⟩ := splitOn_exists newline ys
  rw [lens, hrows, List.map_append] at hxs
  rw [lens, hlater, List.map_cons] at hys
  obtain ⟨rfl, hlast⟩ := List.append_inj' hxs rfl
  obtain rfl := List.singleton_inj.mp hlast
  obtain ⟨rfl, rfl⟩ := List.cons.inj hys
  rw [lens, splitOn_append hrows hlater, List.map_append, List.map_cons, List.length_append]

def lensStart (lens : List ℕ) (row : ℕ) : ℕ := ((lens.take row).map (· + 1)).sum

@[simp] theorem lensStart_zero (lens : List ℕ) : lensStart lens 0 = 0 := rfl

@[simp] theorem lensStart_succ (first : ℕ) (tail : List ℕ) (row : ℕ) :
    lensStart (first :: tail) (row + 1) = first + 1 + lensStart tail row := by
  simp [lensStart]

theorem length_lens
    (h : lens bytes = init ++ [last]) : bytes.length = lensStart init init.length + last := by
  induction bytes using rows_induction newline generalizing init with
  | last row hrow =>
    rw [lens_row hrow] at h
    obtain ⟨rfl, hlast⟩ := List.append_inj' (show [] ++ [row.length] = init ++ [last] from h) rfl
    obtain rfl := List.singleton_inj.mp hlast
    simp
  | step row rest hrow ih =>
    rw [lens_step hrow] at h
    obtain ⟨rest_init, rest_last, hrest⟩ := lens_last rest
    rw [hrest, ← List.cons_append] at h
    obtain ⟨rfl, hlast⟩ := List.append_inj' h rfl
    obtain rfl := List.singleton_inj.mp hlast
    rw [List.length_append, List.length_cons, ih hrest, List.length_cons, lensStart_succ]
    omega

end GitComet.Kit

namespace GitComet.Kit

open Text SplitRows WeightedPrefix

theorem memchr_none (h : newline ∉ bytes) : memchr newline bytes = none := by
  rw [memchr, List.findIdx?_eq_none_iff]
  intro byte hbyte
  exact beq_eq_false_iff_ne.mpr fun heq => h (heq ▸ hbyte)

theorem memchr_row (h : newline ∉ row) (rest : List UInt8) :
    memchr newline (row ++ newline :: rest) = some row.length := by
  have hrow := memchr_none h
  rw [memchr] at hrow
  rw [memchr, List.findIdx?_append, hrow, List.findIdx?_cons, if_pos (BEq.refl newline)]
  simp

theorem ascii_widths (h : c.val < 128) : c.utf8Size = 1 ∧ lenUtf16 c = 1 := by
  rw [UInt32.lt_iff_toNat_lt] at h
  constructor
  · rw [Char.utf8Size_eq_one_iff, UInt32.le_iff_toNat_le]
    exact Nat.le_of_lt_succ h
  · rw [lenUtf16, if_pos]
    rw [UInt32.lt_iff_toNat_lt]
    exact lt_trans h (by decide)

theorem utf16Len_eq (text : List Char) : utf16Len text = Plain.utf16Len text := by
  rw [utf16Len]
  split
  · rename_i hascii
    induction text with
    | nil => rfl
    | cons c text ih =>
      rw [isAscii, List.all_cons, Bool.and_eq_true] at hascii
      obtain ⟨hsize, hunits⟩ := ascii_widths (of_decide_eq_true hascii.1)
      rw [byteLen_cons, ih hascii.2, Plain.utf16Len, Plain.utf16Len, weight_cons, hsize, hunits]
  · rfl

def longestFrom : ℕ → ℕ × ℕ → List ℕ → ℕ × ℕ
  | _, best, [] => best
  | row, best, len :: lens =>
    longestFrom (row + 1) (if len > best.2 then (row, len) else best) lens

def endOf (lens : List ℕ) : Point := ⟨lens.length - 1, lens.getLastD 0⟩

theorem getLastD_join (init tail : List ℕ) (last first : ℕ) :
    (init ++ (last + first) :: tail).getLastD 0 =
      if tail.length = 0 then last + (first :: tail).getLastD 0
      else (first :: tail).getLastD 0 := by
  cases tail with
  | nil => simp
  | cons second tail => simp [List.getLastD_eq_getLast?, List.getLast?_cons]

theorem endOf_join (init tail : List ℕ) (last first : ℕ) :
    endOf (init ++ [last]) + endOf (first :: tail) = endOf (init ++ (last + first) :: tail) := by
  show Point.add _ _ = _
  have hrow : (endOf (first :: tail)).row = tail.length := rfl
  rw [Point.add, hrow]
  simp only [endOf, List.length_append, List.length_cons, List.length_nil, Nat.add_sub_cancel,
    List.getLastD_concat, getLastD_join, zero_add]
  rfl

def ofLens (len units : ℕ) (lens : List ℕ) : TextSummary :=
  let longest := longestFrom 0 (0, 0) lens
  ⟨len, units, endOf lens, lens.headD 0, lens.getLastD 0, longest.1, longest.2⟩

def scanLens : TextSummary → ℕ → List ℕ → TextSummary
  | summary, _, [] => summary
  | summary, row, len :: lens => scanLens (summary.scanRow row len) (row + 1) lens

theorem scanLens_append (summary : TextSummary) (row : ℕ) (init tail : List ℕ) :
    scanLens summary row (init ++ tail) =
      scanLens (scanLens summary row init) (row + init.length) tail := by
  induction init generalizing summary row with
  | nil => rfl
  | cons len init ih =>
    rw [List.cons_append, scanLens, ih, scanLens, List.length_cons, add_assoc, add_comm 1]

theorem scanRows_eq (rest : List UInt8) : ∀ (front : List UInt8) (summary : TextSummary) (row : ℕ)
    {init : List ℕ} {last : ℕ}, lens rest = init ++ [last] →
    TextSummary.scanRows (front ++ rest) summary front.length row front.length =
      (scanLens summary row init, front.length + lensStart init init.length, row + init.length) := by
  induction rest using rows_induction newline with
  | last line hline =>
    intro front summary row init last h
    rw [lens_row hline] at h
    obtain ⟨rfl, -⟩ := List.append_inj' (show [] ++ [line.length] = init ++ [last] from h) rfl
    have hnone : memchr newline ((front ++ line).drop front.length) = none := by
      rw [List.drop_left, memchr_none hline]
    rw [TextSummary.scanRows]
    split
    · rename_i found hfound
      rw [hnone] at hfound
      cases hfound
    · rfl
  | step line rest hline ih =>
    intro front summary row init last h
    rw [lens_step hline] at h
    obtain ⟨restInit, restLast, hrest⟩ := lens_last rest
    rw [hrest, ← List.cons_append] at h
    obtain ⟨rfl, -⟩ := List.append_inj' h rfl
    have hsome : memchr newline ((front ++ (line ++ newline :: rest)).drop front.length) =
        some line.length := by
      rw [List.drop_left, memchr_row hline]
    rw [TextSummary.scanRows]
    split
    · rename_i found hfound
      rw [hsome] at hfound
      cases hfound
      have hlen : front.length + line.length + 1 = (front ++ line ++ [newline]).length := by
        simp [add_assoc]
      have hbytes : front ++ (line ++ newline :: rest) = (front ++ line ++ [newline]) ++ rest := by
        simp
      dsimp only
      rw [hlen, hbytes, ih _ _ _ hrest, Nat.add_sub_cancel_left, scanLens, List.length_cons,
        lensStart_succ]
      simp only [List.length_append, List.length_singleton, Prod.mk.injEq, true_and]
      omega
    · rename_i hnone
      rw [hsome] at hnone
      cases hnone

theorem scanRow_eq (summary : TextSummary) (row len : ℕ) :
    summary.scanRow row len =
      let best := if len > summary.longestRowLen then (row, len)
        else (summary.longestRow, summary.longestRowLen)
      { summary with
        firstLineLen := if row = 0 then len else summary.firstLineLen
        longestRow := best.1
        longestRowLen := best.2 } := by
  rw [TextSummary.scanRow]
  by_cases hrow : row = 0
  · simp only [if_pos hrow]
    split <;> rfl
  · simp only [if_neg hrow]
    split <;> rfl

theorem scanLens_later (summary : TextSummary) {row : ℕ} (hrow : 0 < row) (lens : List ℕ) :
    scanLens summary row lens =
      let best := longestFrom row (summary.longestRow, summary.longestRowLen) lens
      { summary with longestRow := best.1, longestRowLen := best.2 } := by
  induction lens generalizing summary row with
  | nil => rfl
  | cons len lens ih =>
    rw [scanLens, ih _ (Nat.succ_pos row), longestFrom, scanRow_eq]
    simp only [if_neg (Nat.pos_iff_ne_zero.mp hrow)]

theorem fromStr_eq (text : List Char) :
    TextSummary.fromStr text = ofLens (byteLen text) (Plain.utf16Len text) (lens (utf8 text)) := by
  obtain ⟨init, last, hinit⟩ := lens_last (utf8 text)
  obtain ⟨first, tail, hfirst⟩ := lens_first (utf8 text)
  have hlen := length_lens hinit
  rw [length_utf8] at hlen
  let start := { TextSummary.zero with len := byteLen text, lenUtf16 := utf16Len text }
  have hscan := scanRows_eq (utf8 text) [] start 0 hinit
  rw [List.nil_append, List.length_nil, zero_add, zero_add] at hscan
  have hlast : byteLen text - lensStart init init.length = last := by omega
  have hall : (scanLens start 0 init).scanRow init.length last = scanLens start 0 (init ++ [last]) := by
    rw [scanLens_append, zero_add]
    rfl
  rw [TextSummary.fromStr]
  dsimp only
  rw [hscan]
  dsimp only
  rw [hlast, hall, ← hinit, hfirst, scanLens, scanLens_later _ Nat.one_pos, scanRow_eq]
  have hlines : init.length = (first :: tail).length - 1 := by
    rw [← hfirst, hinit, List.length_append, List.length_singleton, Nat.add_sub_cancel]
  have hback : last = (first :: tail).getLastD 0 := by rw [← hfirst, hinit, List.getLastD_concat]
  rw [ofLens, hlines, hback, ← utf16Len_eq]
  rfl

theorem longestFrom_append (row : ℕ) (best : ℕ × ℕ) (init tail : List ℕ) :
    longestFrom row best (init ++ tail) =
      longestFrom (row + init.length) (longestFrom row best init) tail := by
  induction init generalizing row best with
  | nil => rfl
  | cons len init ih =>
    rw [List.cons_append, longestFrom, ih, longestFrom, List.length_cons, add_assoc,
      add_comm 1]

theorem longestFrom_grows (row : ℕ) (best : ℕ × ℕ) (lens : List ℕ) :
    longestFrom row best lens = best ∨ best.2 < (longestFrom row best lens).2 := by
  induction lens generalizing row best with
  | nil => exact .inl rfl
  | cons len lens ih =>
    rw [longestFrom]
    split
    · rename_i hlen
      rcases ih (row + 1) (row, len) with h | h
      · exact .inr (by rw [h]; exact hlen)
      · exact .inr (lt_trans hlen h)
    · exact ih (row + 1) best

theorem longestFrom_len (row : ℕ) (best : ℕ × ℕ) (lens : List ℕ) :
    (longestFrom row best lens).2 = max best.2 (lens.foldr max 0) := by
  induction lens generalizing row best with
  | nil => exact (Nat.max_zero _).symm
  | cons len lens ih =>
    rw [longestFrom, ih, List.foldr_cons]
    split <;> omega

theorem longestFrom_shift (k row : ℕ) {b l : ℕ × ℕ} (h : l.2 ≤ b.2) (lens : List ℕ) :
    longestFrom (k + row) b lens =
      let later := longestFrom row l lens
      if later.2 > b.2 then (k + later.1, later.2) else b := by
  induction lens generalizing row b l with
  | nil =>
    dsimp only [longestFrom]
    rw [if_neg (Nat.not_lt_of_le h)]
  | cons len lens ih =>
    rw [longestFrom, longestFrom, add_assoc]
    by_cases hbest : len > b.2
    · rw [if_pos hbest, if_pos (lt_of_le_of_lt h hbest),
        ih (row + 1) (b := (k + row, len)) (l := (row, len)) (le_refl _)]
      dsimp only
      rcases longestFrom_grows (row + 1) (row, len) lens with heq | hgt
      · rw [heq, if_neg (lt_irrefl _), if_pos hbest]
      · rw [if_pos hgt, if_pos (lt_trans hbest hgt)]
    · rw [if_neg hbest]
      apply ih
      split
      · exact Nat.le_of_not_lt hbest
      · exact h

theorem addSummary_eq (summary other : TextSummary) :
    summary.addSummary other =
      let joinedLen := summary.lastLineLen + other.firstLineLen
      let joined := if joinedLen > summary.longestRowLen then (summary.lines.row, joinedLen)
        else (summary.longestRow, summary.longestRowLen)
      let best := if other.longestRowLen > joined.2 then
          (summary.lines.row + other.longestRow, other.longestRowLen)
        else joined
      { len := summary.len + other.len
        lenUtf16 := summary.lenUtf16 + other.lenUtf16
        lines := summary.lines + other.lines
        firstLineLen := if summary.lines.row = 0 then summary.firstLineLen + other.firstLineLen
          else summary.firstLineLen
        lastLineLen := if other.lines.row = 0 then summary.lastLineLen + other.lastLineLen
          else other.lastLineLen
        longestRow := best.1
        longestRowLen := best.2 } := by
  unfold TextSummary.addSummary
  dsimp only
  split_ifs <;> simp_all

theorem longestFrom_join (init tail : List ℕ) (last first : ℕ) :
    let left := longestFrom 0 (0, 0) (init ++ [last])
    let right := longestFrom 0 (0, 0) (first :: tail)
    let joined := if last + first > left.2 then (init.length, last + first) else left
    longestFrom 0 (0, 0) (init ++ (last + first) :: tail) =
      if right.2 > joined.2 then (init.length + right.1, right.2) else joined := by
  intro left right joined
  have hleft : left = if last > (longestFrom 0 (0, 0) init).2 then (init.length, last)
      else longestFrom 0 (0, 0) init := by
    simp only [left, longestFrom_append, longestFrom, zero_add]
  have hright : right = longestFrom 1 (0, first) tail := by
    simp only [right, longestFrom]
    by_cases hfirst : first > 0
    · rw [if_pos hfirst]
    · obtain rfl : first = 0 := by omega
      rfl
  have hjoined : joined = if last + first > (longestFrom 0 (0, 0) init).2
      then (init.length, last + first) else longestFrom 0 (0, 0) init := by
    simp only [joined, hleft]
    by_cases hlast : last > (longestFrom 0 (0, 0) init).2
    · rw [if_pos hlast, if_pos (Nat.lt_of_lt_of_le hlast (Nat.le_add_right _ _))]
      by_cases hfirst : first = 0
      · rw [hfirst]
        exact if_neg (lt_irrefl _)
      · exact if_pos (Nat.lt_add_of_pos_right (Nat.pos_of_ne_zero hfirst))
    · rw [if_neg hlast]
  have hlow : first ≤ joined.2 := by
    rw [hjoined]
    split
    · exact Nat.le_add_left _ _
    · omega
  rw [longestFrom_append, longestFrom, zero_add, ← hjoined,
    longestFrom_shift init.length 1 (l := (0, first)) hlow, ← hright]

theorem ofLens_add (lenX lenY unitsX unitsY : ℕ) (init tail : List ℕ) (last first : ℕ) :
    (ofLens lenX unitsX (init ++ [last])).addSummary (ofLens lenY unitsY (first :: tail)) =
      ofLens (lenX + lenY) (unitsX + unitsY) (init ++ (last + first) :: tail) := by
  have hlongest := longestFrom_join init tail last first
  rw [addSummary_eq]
  dsimp only at hlongest
  simp only [ofLens, List.getLastD_concat, List.headD_cons]
  have hjoin := endOf_join init tail last first
  have hrow : (endOf (init ++ [last])).row = init.length := by simp [endOf]
  have htail : (endOf (first :: tail)).row = tail.length := rfl
  rw [hrow, htail, hlongest, hjoin, getLastD_join]
  cases init <;> rfl

theorem fromStr_append (front back : List Char) :
    TextSummary.fromStr (front ++ back) =
      (TextSummary.fromStr front).addSummary (TextSummary.fromStr back) := by
  obtain ⟨init, last, hfront⟩ := lens_last (utf8 front)
  obtain ⟨first, tail, hback⟩ := lens_first (utf8 back)
  rw [fromStr_eq, fromStr_eq, fromStr_eq, hfront, hback, ofLens_add, utf8_append,
    lens_append hfront hback, byteLen_append, Plain.utf16Len, weight_append]
  rfl

theorem fromStr_nil : TextSummary.fromStr [] = TextSummary.zero := by
  rw [fromStr_eq]
  rfl

end GitComet.Kit
