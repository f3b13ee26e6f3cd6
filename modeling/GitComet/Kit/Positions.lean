import GitComet.Kit.SummaryLaws
import Mathlib.Data.List.GetD

namespace GitComet.Kit
open List Nat

open Text SplitRows WeightedPrefix SumTree

theorem last_row (bytes : List UInt8) :
    newline ∉ bytes ∨ ∃ front row, bytes = front ++ newline :: row ∧ newline ∉ row := by
  by_cases h : newline ∈ bytes
  · obtain ⟨row, front, heq, hrow⟩ := eq_append_cons_of_mem (mem_reverse.mpr h)
    refine .inr ⟨front.reverse, row.reverse, ?_, by rwa [mem_reverse]⟩
    have := congrArg reverse heq
    simpa using this
  · exact .inl h

theorem memrchr_none {bytes : List UInt8} (h : newline ∉ bytes) : memrchr newline bytes = none := by
  rw [memrchr, memchr_none (by rwa [mem_reverse])]
  rfl

theorem memrchr_row {row : List UInt8} (front : List UInt8) (h : newline ∉ row) :
    memrchr newline (front ++ newline :: row) = some front.length := by
  have hback : (front ++ newline :: row).reverse = row.reverse ++ newline :: front.reverse := by simp
  rw [memrchr, hback, memchr_row (by rwa [mem_reverse])]
  simp only [Option.map_some, length_append, length_cons, length_reverse, Option.some.injEq]
  omega

def endPoint (bytes : List UInt8) : Point := endOf (lens bytes)

theorem strOffsetToPoint_eq (bytes : List UInt8) (offset : ℕ) :
    strOffsetToPoint bytes offset = endPoint (bytes.take offset) := by
  rw [strOffsetToPoint, ← take_eq_take_min]
  generalize bytes.take offset = head
  rcases last_row head with h | ⟨front, row, rfl, h⟩
  · rw [memrchr_none h, count_eq_zero_of_not_mem h, endPoint, lens_row h]
    rfl
  · have hlens : lens (front ++ newline :: row) = lens front ++ [row.length] := by
      rw [lens, splitOn_append_cons_self, map_append, splitOn_eq_singleton h]
      rfl
    have hcount : (lens front).length = front.count newline + 1 := by
      rw [lens, length_map, length_splitOn]
    rw [memrchr_row front h, endPoint, hlens, endOf]
    simp only [count_append, count_cons_self, count_eq_zero_of_not_mem h,
      length_append, length_cons, length_nil, getLastD_concat, hcount,
      Point.mk.injEq]
    omega

theorem endPoint_append (xs ys : List UInt8) : endPoint (xs ++ ys) = endPoint xs + endPoint ys := by
  obtain ⟨init, last, hxs⟩ := lens_last xs
  obtain ⟨first, tail, hys⟩ := lens_first ys
  rw [endPoint, endPoint, endPoint, lens_append hxs hys, hxs, hys, endOf_join]

theorem lines_fromStr (text : List Char) :
    (TextSummary.fromStr text).lines = endPoint (utf8 text) := by
  rw [fromStr_eq]
  rfl

def pointIn (total : ℕ) (lens : List ℕ) (point : Point) : ℕ :=
  if point.row < lens.length then
    lensStart lens point.row + min point.column (lens.getD point.row 0)
  else total

theorem skipRows_eq (rest : List UInt8) : ∀ (front : List UInt8) (rows : ℕ),
    skipRows (front ++ rest) rows front.length =
      if rows < (lens rest).length then some (front.length + lensStart (lens rest) rows)
      else none := by
  induction rest using rows_induction newline with
  | last row h =>
    intro front rows
    rw [lens_row h]
    cases rows with
    | zero => rfl
    | succ rows =>
      rw [skipRows, drop_left, memchr_none h]
      simp
  | step row rest h ih =>
    intro front rows
    cases rows with
    | zero =>
      rw [lens_step h]
      simp [skipRows]
    | succ rows =>
      have hlen : front.length + row.length + 1 = (front ++ row ++ [newline]).length := by
        simp [add_assoc]
      have hbytes : front ++ (row ++ newline :: rest) = (front ++ row ++ [newline]) ++ rest := by
        simp
      rw [skipRows, drop_left, memchr_row h]
      dsimp only
      rw [hlen, hbytes, ih, lens_step h, length_cons]
      simp only [lensStart_succ, ← hlen, Nat.add_lt_add_iff_right]
      congr 2
      omega

theorem lineEnd_eq (rest : List UInt8) : ∀ (front : List UInt8) {row : ℕ},
    row < (lens rest).length →
    (match memchr newline ((front ++ rest).drop (front.length + lensStart (lens rest) row)) with
      | some found => front.length + lensStart (lens rest) row + found
      | none => (front ++ rest).length) =
      front.length + lensStart (lens rest) row + (lens rest).getD row 0 := by
  induction rest using rows_induction newline with
  | last line h =>
    intro front row hrow
    rw [lens_row h] at hrow ⊢
    obtain rfl : row = 0 := by simpa using hrow
    simp [memchr_none h]
  | step line rest h ih =>
    intro front row hrow
    rw [lens_step h] at hrow ⊢
    cases row with
    | zero => simp [memchr_row h]
    | succ row =>
      have hlen : front.length + (line.length + 1 + lensStart (lens rest) row) =
          (front ++ line ++ [newline]).length + lensStart (lens rest) row := by
        simp [add_assoc]
      have hbytes : front ++ (line ++ newline :: rest) = (front ++ line ++ [newline]) ++ rest := by
        simp
      rw [lensStart_succ, hlen, hbytes, ih _ (by simpa using hrow)]
      simp

theorem strPointToOffset_eq (bytes : List UInt8) (point : Point) :
    strPointToOffset bytes point = pointIn bytes.length (lens bytes) point := by
  have hskip := skipRows_eq bytes [] point.row
  rw [nil_append, length_nil] at hskip
  rw [strPointToOffset, hskip, pointIn]
  by_cases hrow : point.row < (lens bytes).length
  · have hend := lineEnd_eq bytes [] hrow
    rw [if_pos hrow, if_pos hrow]
    simp only [nil_append, length_nil, zero_add] at hend ⊢
    refine (congrArg (min (lensStart (lens bytes) point.row + point.column)) hend).trans ?_
    exact Nat.add_min_add_left _ _ _
  · rw [if_neg hrow, if_neg hrow]

def Point.Le (point other : Point) : Prop :=
  point.row < other.row ∨ point.row = other.row ∧ point.column ≤ other.column

theorem left_stops_cmp {point other : Point} :
    Bias.left.stops (point.cmp other) ↔ point.Le other := by
  rw [Point.cmp, Point.Le]
  rcases lt_trichotomy point.row other.row with h | h | h
  · rw [Nat.compare_eq_lt.mpr h]
    exact iff_of_true rfl (.inl h)
  · rw [Nat.compare_eq_eq.mpr h, Ordering.eq_then, left_stops]
    exact ⟨fun hle => .inr ⟨h, hle⟩, fun hle => hle.elim (by omega) And.right⟩
  · rw [Nat.compare_eq_gt.mpr h]
    exact iff_of_false Bool.false_ne_true (by omega)

theorem lensStart_past (init tail : List ℕ) (row : ℕ) :
    lensStart (init ++ tail) (init.length + row) =
      lensStart init init.length + lensStart tail row := by
  rw [lensStart, take_length_add_append, map_append, List.sum_append, lensStart, take_length]
  rfl

theorem lensStart_within {init : List ℕ} (tail : List ℕ) {row : ℕ} (h : row ≤ init.length) :
    lensStart (init ++ tail) row = lensStart init row := by
  rw [lensStart, take_append_of_le_length h]
  rfl

theorem getD_past (init tail : List ℕ) (row : ℕ) :
    (init ++ tail).getD (init.length + row) 0 = tail.getD row 0 := by
  rw [getD_append_right _ _ _ _ (Nat.le_add_right _ _), Nat.add_sub_cancel_left]

theorem pointIn_skip {xs y : List UInt8} {point : Point} (h : (endPoint xs).Le point) :
    pointIn (xs ++ y).length (lens (xs ++ y)) point =
      xs.length + pointIn y.length (lens y) (pointSub point (endPoint xs)) := by
  obtain ⟨init, last, hxs⟩ := lens_last xs
  obtain ⟨first, tail, hys⟩ := lens_first y
  have hlen := length_lens hxs
  have hend : endPoint xs = ⟨init.length, last⟩ := by simp [endPoint, endOf, hxs]
  rw [hend] at h ⊢
  rw [lens_append hxs hys, hys, pointIn, pointIn, pointSub]
  simp only [Point.Le, length_append, length_cons] at h ⊢
  rcases lt_or_ge init.length point.row with hrow | hrow
  · obtain ⟨k, hk⟩ := Nat.exists_eq_add_of_lt hrow
    have hsub : point.row - init.length = k + 1 := by omega
    have hpoint : point.row = init.length + (k + 1) := by omega
    rw [hsub, if_neg (succ_ne_zero k), hpoint, lensStart_past, getD_past, lensStart_succ,
      lensStart_succ, getD_cons_succ, getD_cons_succ]
    by_cases hin : k < tail.length
    · rw [if_pos (by omega), if_pos (by omega)]
      omega
    · rw [if_neg (by omega), if_neg (by omega)]
  · have hpoint : point.row = init.length + 0 := by omega
    have hsub : point.row - init.length = 0 := by omega
    rw [hsub, if_pos rfl, hpoint, lensStart_past, getD_past, if_pos (by omega),
      if_pos (succ_pos _), getD_cons_zero, getD_cons_zero, lensStart_zero,
      lensStart_zero]
    omega

theorem pointIn_cut {xs : List UInt8} (ys : List UInt8) {point : Point}
    (h : point.Le (endPoint xs)) :
    pointIn (xs ++ ys).length (lens (xs ++ ys)) point = pointIn xs.length (lens xs) point := by
  obtain ⟨init, last, hxs⟩ := lens_last xs
  obtain ⟨first, tail, hys⟩ := lens_first ys
  have hend : endPoint xs = ⟨init.length, last⟩ := by simp [endPoint, endOf, hxs]
  rw [hend, Point.Le] at h
  rw [lens_append hxs hys, hxs, pointIn, pointIn]
  simp only [length_append, length_cons, length_nil] at h ⊢
  rcases h with hrow | ⟨hrow, hcolumn⟩
  · rw [if_pos (by omega), if_pos (by omega), lensStart_within _ (le_of_lt hrow),
      lensStart_within _ (le_of_lt hrow), getD_append _ _ _ _ hrow,
      getD_append _ _ _ _ hrow]
  · have hpoint : point.row = init.length + 0 := hrow
    rw [hpoint, if_pos (by omega), if_pos (by omega), lensStart_past, lensStart_past, getD_past,
      getD_past, getD_cons_zero, getD_cons_zero, lensStart_zero, lensStart_zero]
    omega

end GitComet.Kit
