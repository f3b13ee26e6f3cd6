import GitComet.FileDiff.Myers
import Mathlib.Order.Bounds.Defs

namespace GitComet.FileDiff
open Slice CommonPrefix EditGraph Text List Nat

section
variable {α : Type}

def LongestCommon (old new : List α) (len : ℕ) : Prop :=
  IsGreatest {k | ∃ common : List α, common.Sublist old ∧ common.Sublist new ∧
    common.length = k} len

theorem Script.common {old new : List α} {edits : List (Edit α)} (h : Script old new edits) :
    ∃ common : List α, common.Sublist old ∧ common.Sublist new ∧
      changes edits + 2 * common.length = old.length + new.length := by
  induction h with
  | nil => exact ⟨[], .slnil, .slnil, rfl⟩
  | equal a _ ih =>
    obtain ⟨common, hold, hnew, hcount⟩ := ih
    refine ⟨a :: common, hold.cons_cons a, hnew.cons_cons a, ?_⟩
    simp only [changes_equal, length_cons]
    omega
  | delete a _ ih =>
    obtain ⟨common, hold, hnew, hcount⟩ := ih
    refine ⟨common, hold.cons a, hnew, ?_⟩
    simp only [changes_delete, length_cons]
    omega
  | insert a _ ih =>
    obtain ⟨common, hold, hnew, hcount⟩ := ih
    refine ⟨common, hold, hnew.cons a, ?_⟩
    simp only [changes_insert, length_cons]
    omega

theorem script_of_common {common old : List α} (hold : common.Sublist old) :
    ∀ {new : List α}, common.Sublist new → ∃ edits, Script old new edits ∧
      changes edits + 2 * common.length = old.length + new.length := by
  induction hold with
  | slnil =>
    intro new _
    induction new with
    | nil => exact ⟨[], .nil, rfl⟩
    | cons a new ih =>
      obtain ⟨edits, hscript, hcount⟩ := ih (nil_sublist new)
      refine ⟨_, .insert a hscript, ?_⟩
      simp only [changes_insert, length_cons] at hcount ⊢
      omega
  | cons a _ ih =>
    intro new hnew
    obtain ⟨edits, hscript, hcount⟩ := ih hnew
    refine ⟨_, .delete a hscript, ?_⟩
    simp only [changes_delete, length_cons]
    omega
  | cons_cons a hold ih =>
    intro new
    induction new with
    | nil => exact fun hnew => absurd (sublist_nil.mp hnew) (cons_ne_nil _ _)
    | cons b new ihnew =>
      intro hnew
      cases hnew with
      | cons _ hnew =>
        obtain ⟨edits, hscript, hcount⟩ := ihnew hnew
        refine ⟨_, .insert b hscript, ?_⟩
        simp only [changes_insert, length_cons] at hcount ⊢
        omega
      | cons_cons _ hnew =>
        obtain ⟨edits, hscript, hcount⟩ := ih hnew
        refine ⟨_, .equal a hscript, ?_⟩
        simp only [changes_equal, length_cons]
        omega

variable {lines : List α} {x : ℕ} {a : α}

theorem drop_cons {rest : List α} (h : lines.drop x = a :: rest) :
    lines[x]? = some a ∧ lines.drop (x + 1) = rest := by
  refine ⟨?_, ?_⟩
  · rw [← head?_drop, h, head?_cons]
  · rw [← tail_drop, h, tail_cons]

theorem drop_nil (h : lines.drop x = []) (hx : x ≤ lines.length) : x = lines.length :=
  le_antisymm hx (drop_eq_nil_iff.mp h)

theorem lt_of_get (h : lines[x]? = some a) : x < lines.length :=
  (List.getElem?_eq_some_iff.mp h).1

theorem Script.reach {old new xs ys : List α} {edits : List (Edit α)} (h : Script xs ys edits) :
    ∀ {d x y : ℕ}, old.drop x = xs → new.drop y = ys → x ≤ old.length → y ≤ new.length →
      Reach old new d x y → Reach old new (d + changes edits) old.length new.length := by
  induction h with
  | nil =>
    intro d x y hold hnew hx hy hreach
    obtain rfl := drop_nil hold hx
    obtain rfl := drop_nil hnew hy
    exact hreach
  | equal a _ ih =>
    intro d x y hold hnew hx hy hreach
    obtain ⟨hxa, hold'⟩ := drop_cons hold
    obtain ⟨hya, hnew'⟩ := drop_cons hnew
    rw [changes_equal]
    exact ih hold' hnew' (lt_of_get hxa) (lt_of_get hya) (.slide hreach hxa hya)
  | delete a _ ih =>
    intro d x y hold hnew hx hy hreach
    obtain ⟨hxa, hold'⟩ := drop_cons hold
    rw [changes_delete, add_comm (changes _), ← add_assoc]
    exact ih hold' hnew (lt_of_get hxa) hy (.right hreach)
  | insert a _ ih =>
    intro d x y hold hnew hx hy hreach
    obtain ⟨hya, hnew'⟩ := drop_cons hnew
    rw [changes_insert, add_comm (changes _), ← add_assoc]
    exact ih hold hnew' hx (lt_of_get hya) (.down hreach)

theorem longestCommon_of_least {old new : List α} {edits : List (Edit α)} (h : Script old new edits)
    (hleast : ∀ d, Reach old new d old.length new.length → changes edits ≤ d) :
    ∃ len, LongestCommon old new len ∧ changes edits + 2 * len = old.length + new.length := by
  obtain ⟨common, hold, hnew, hcount⟩ := h.common
  refine ⟨common.length, ⟨⟨common, hold, hnew, rfl⟩, ?_⟩, hcount⟩
  rintro k ⟨other, hold', hnew', rfl⟩
  obtain ⟨edits', hscript', hcount'⟩ := script_of_common hold' hnew'
  have hreach := hscript'.reach drop_zero drop_zero (zero_le _) (zero_le _)
    (.origin : Reach old new 0 0 0)
  rw [zero_add] at hreach
  have hle := hleast _ hreach
  omega

theorem longestCommon_of_empty {old new : List α} {edits : List (Edit α)}
    (h : Script old new edits) (hempty : old = [] ∨ new = []) :
    ∃ len, LongestCommon old new len ∧ changes edits + 2 * len = old.length + new.length := by
  have hnone : ∀ common : List α, common.Sublist old → common.Sublist new → common = [] := by
    intro common hold hnew
    rcases hempty with rfl | rfl
    · exact sublist_nil.mp hold
    · exact sublist_nil.mp hnew
  obtain ⟨common, hold, hnew, hcount⟩ := h.common
  obtain rfl := hnone common hold hnew
  refine ⟨0, ⟨⟨[], hold, hnew, rfl⟩, ?_⟩, hcount⟩
  rintro k ⟨other, hold', hnew', rfl⟩
  rw [hnone other hold' hnew', length_nil]

end

section
variable {α : Type} [DecidableEq α]

theorem myersEdits_eq_search {old new : List α} (hempty : ¬(old = [] ∨ new = []))
    (h : old.length + new.length ≤ u32Max) : myersEdits old new = myersSearch old new := by
  have husize : ¬usizeMax < old.length + new.length := not_lt.mpr (le_trans h (by decide))
  have hisize : ¬isizeMax < old.length + new.length := not_lt.mpr (le_trans h (by decide))
  have hsize : ¬usizeMax < (old.length + new.length) * 2 + 1 :=
    not_lt.mpr (le_trans (succ_le_succ (mul_le_mul_right 2 h)) (by decide))
  rw [myersEdits, if_neg hempty, if_neg husize, if_neg hisize, if_neg (not_lt.mpr h),
    if_neg hsize]

theorem myersEdits_eq_fallback {old new : List α} (h : u32Max < old.length + new.length) :
    myersEdits old new = myersFallbackEdits old new := by
  rw [myersEdits]
  split_ifs <;> rfl

theorem myersEdits_longest (old new : List α) (h : old.length + new.length ≤ u32Max) :
    ∃ edits len, myersEdits old new = some edits ∧ Script old new edits ∧
      LongestCommon old new len ∧ changes edits + 2 * len = old.length + new.length := by
  by_cases hempty : old = [] ∨ new = []
  · obtain ⟨edits, hedits, hscript⟩ := myersEdits_spec old new
    obtain ⟨len, hlen, hcount⟩ := longestCommon_of_empty hscript hempty
    exact ⟨edits, len, hedits, hscript, hlen, hcount⟩
  · obtain ⟨edits, hedits, hscript, hleast⟩ :=
      myersSearch_spec old new (fun hold => hempty (.inl hold)) h
    obtain ⟨len, hlen, hcount⟩ := longestCommon_of_least hscript hleast
    exact ⟨edits, len, (myersEdits_eq_search hempty h).trans hedits, hscript, hlen, hcount⟩

theorem myersEdits_least (old new : List α) (h : old.length + new.length ≤ u32Max) :
    ∃ edits, myersEdits old new = some edits ∧ Script old new edits ∧
      ∀ other, Script old new other → changes edits ≤ changes other := by
  obtain ⟨edits, len, hedits, hscript, hlen, hcount⟩ := myersEdits_longest old new h
  refine ⟨edits, hedits, hscript, fun other hother => ?_⟩
  obtain ⟨common, hold, hnew, hother⟩ := hother.common
  have hle := hlen.2 ⟨common, hold, hnew, rfl⟩
  omega

theorem myers_edits_are_minimal (old new : List α) (h : old.length + new.length ≤ u32Max) :
    ∃ edits len, myersEdits old new = some edits ∧ LongestCommon old new len ∧
      changes edits + 2 * len = old.length + new.length := by
  obtain ⟨edits, len, hedits, -, hlen, hcount⟩ := myersEdits_longest old new h
  exact ⟨edits, len, hedits, hlen, hcount⟩

theorem two_line_edits_are_minimal :
    ∃ edits len, myersEdits ['a', 'b'] ['b', 'c'] = some edits ∧
      LongestCommon ['a', 'b'] ['b', 'c'] len ∧ changes edits + 2 * len = 4 :=
  myers_edits_are_minimal ['a', 'b'] ['b', 'c'] (by decide)

theorem fallback_of_no_ends {old new : List α} (h : commonEnds old new = (0, 0)) :
    myersFallbackEdits old new = some (old.map Edit.ofDelete ++ new.map Edit.ofInsert) := by
  rw [myersFallbackEdits, h]
  dsimp only
  rw [deleteRun, insertRun, Nat.sub_zero, Nat.sub_zero, sliceOf_eq (Nat.zero_le _) le_rfl,
    sliceOf_eq (Nat.zero_le _) le_rfl, slice_zero, slice_zero, take_length, take_length]
  simp [equalRun]

omit [DecidableEq α] in
theorem changes_replaced (old new : List α) :
    changes (old.map Edit.ofDelete ++ new.map Edit.ofInsert) = old.length + new.length := by
  have hdelete : changes (old.map Edit.ofDelete) = old.length := by
    induction old with
    | nil => rfl
    | cons a old ih => rw [map_cons, changes_delete, ih, length_cons]
  have hinsert : changes (new.map Edit.ofInsert) = new.length := by
    induction new with
    | nil => rfl
    | cons a new ih => rw [map_cons, changes_insert, ih, length_cons]
  rw [changes, countP_append]
  exact congrArg₂ (· + ·) hdelete hinsert

end

section

def flanked (edge count : ℕ) : List ℕ := edge :: (replicate count 0 ++ [edge])

theorem flanked_ends (count : ℕ) : commonEnds (flanked 1 count) (flanked 2 count) = (0, 0) := by
  have hhead : commonPrefix (flanked 1 count) (flanked 2 count) = 0 := by
    rw [flanked, flanked, commonPrefix]
    rfl
  have htail : commonSuffix (flanked 1 count) (flanked 2 count) = 0 := by
    rw [commonSuffix, flanked, flanked, reverse_cons, reverse_cons, reverse_concat,
      reverse_concat, cons_append, cons_append, commonPrefix]
    rfl
  rw [commonEnds, hhead, drop_zero, drop_zero, htail]

theorem flanked_not_minimal {count : ℕ} (hcount : 0 < count)
    (h : u32Max < (flanked 1 count).length + (flanked 2 count).length) :
    ¬∃ edits len, myersEdits (flanked 1 count) (flanked 2 count) = some edits ∧
      LongestCommon (flanked 1 count) (flanked 2 count) len ∧
      changes edits + 2 * len = (flanked 1 count).length + (flanked 2 count).length := by
  rintro ⟨edits, len, hedits, hlen, hchanges⟩
  rw [myersEdits_eq_fallback h, fallback_of_no_ends (flanked_ends count)] at hedits
  rw [← Option.some.inj hedits, changes_replaced] at hchanges
  have hcommon : ∀ edge, (replicate count 0).Sublist (flanked edge count) := fun edge =>
    (sublist_append_left _ _).cons edge
  have hle := hlen.2 ⟨_, hcommon 1, hcommon 2, length_replicate⟩
  omega

theorem huge_edits_are_not_minimal :
    ¬∃ edits len, myersEdits (flanked 1 u32Max) (flanked 2 u32Max) = some edits ∧
      LongestCommon (flanked 1 u32Max) (flanked 2 u32Max) len ∧
      changes edits + 2 * len = (flanked 1 u32Max).length + (flanked 2 u32Max).length := by
  refine flanked_not_minimal (by decide) ?_
  rw [flanked, length_cons, length_append, length_replicate]
  exact Nat.lt_add_right _ (lt_succ_of_le (le_add_right _ _))

end

end GitComet.FileDiff
