import Mathlib.Data.List.Basic

namespace SplitRows
open List

variable {α : Type} [BEq α] {sep : α}

theorem splitOn_exists (sep : α) (xs : List α) : ∃ row rows, xs.splitOn sep = row :: rows :=
  exists_cons_of_ne_nil (splitOn_ne_nil sep xs)

theorem splitOn_exists_last (sep : α) (xs : List α) : ∃ rows row, xs.splitOn sep = rows ++ [row] :=
  ⟨_, _, (dropLast_append_getLast (splitOn_ne_nil sep xs)).symm⟩

variable [LawfulBEq α]

variable (sep) in
theorem rows_induction {P : List α → Prop} (last : ∀ row, sep ∉ row → P row)
    (step : ∀ row rest, sep ∉ row → P rest → P (row ++ sep :: rest)) (xs : List α) : P xs := by
  by_cases hsep : sep ∈ xs
  · obtain ⟨row, rest, rfl, hrow⟩ := eq_append_cons_of_mem hsep
    exact step row rest hrow (rows_induction last step rest)
  · exact last xs hsep
termination_by xs.length
decreasing_by
  rename_i heq
  rw [heq, length_append, length_cons]
  omega

theorem splitOn_cons_self (xs : List α) : (sep :: xs).splitOn sep = [] :: xs.splitOn sep := by
  rw [splitOn_cons_eq_if_modifyHead, if_pos (BEq.refl sep)]

variable {xs row : List α} {rows : List (List α)}

theorem splitOn_cons_ne {x : α} (h : x ≠ sep)
    (hxs : xs.splitOn sep = row :: rows) : (x :: xs).splitOn sep = (x :: row) :: rows := by
  rw [splitOn_cons_eq_if_modifyHead, if_neg (by simpa using h), hxs]
  rfl

theorem splitOn_prepend {front : List α} (h : sep ∉ front) (hxs : xs.splitOn sep = row :: rows) :
    (front ++ xs).splitOn sep = (front ++ row) :: rows := by
  induction front with
  | nil => exact hxs
  | cons x front ih =>
    rw [mem_cons, not_or] at h
    exact splitOn_cons_ne (Ne.symm h.1) (ih h.2)

theorem splitOn_append {ys last first : List α} {init tail : List (List α)}
    (hxs : xs.splitOn sep = init ++ [last]) (hys : ys.splitOn sep = first :: tail) :
    (xs ++ ys).splitOn sep = init ++ (last ++ first) :: tail := by
  induction xs generalizing init last with
  | nil =>
    obtain ⟨rfl, hlast⟩ := append_inj' (show [] ++ [[]] = init ++ [last] from hxs) rfl
    obtain rfl := singleton_inj.mp hlast
    exact hys
  | cons x xs ih =>
    obtain ⟨rows, row, hrows⟩ := splitOn_exists_last sep xs
    have hjoin := ih hrows
    rw [cons_append]
    by_cases hx : x = sep
    · subst hx
      rw [splitOn_cons_self, hrows, ← cons_append] at hxs
      obtain ⟨rfl, hlast⟩ := append_inj' hxs rfl
      obtain rfl := singleton_inj.mp hlast
      rw [splitOn_cons_self, hjoin, cons_append]
    · cases rows with
      | nil =>
        rw [splitOn_cons_ne hx hrows] at hxs
        obtain ⟨rfl, hlast⟩ :=
          append_inj' (show [] ++ [x :: row] = init ++ [last] from hxs) rfl
        obtain rfl := singleton_inj.mp hlast
        exact splitOn_cons_ne hx hjoin
      | cons head rows =>
        rw [splitOn_cons_ne hx hrows] at hxs
        obtain ⟨rfl, hlast⟩ := append_inj'
          (show (x :: head) :: rows ++ [row] = init ++ [last] from hxs) rfl
        obtain rfl := singleton_inj.mp hlast
        exact splitOn_cons_ne hx hjoin

theorem length_splitOn (xs : List α) : (xs.splitOn sep).length = xs.count sep + 1 := by
  induction xs using rows_induction sep with
  | last row h => rw [splitOn_eq_singleton h, count_eq_zero_of_not_mem h]; rfl
  | step row rest h ih =>
    rw [splitOn_append_cons_self_of_not_mem h, length_cons, ih, count_append,
      count_eq_zero_of_not_mem h, count_cons_self, Nat.zero_add]

theorem not_mem_splitOn (xs : List α) : ∀ row ∈ xs.splitOn sep, sep ∉ row := by
  induction xs using rows_induction sep with
  | last row h => rw [splitOn_eq_singleton h]; exact forall_mem_singleton.mpr h
  | step row rest h ih =>
    rw [splitOn_append_cons_self_of_not_mem h]
    exact forall_mem_cons.mpr ⟨h, ih⟩

section

def inclusiveRows (sep : α) : List α → List (List α)
  | [] => []
  | x :: xs =>
    let rows := inclusiveRows sep xs
    if x == sep then [x] :: rows else (x :: rows.headD []) :: rows.tail

attribute [local simp] inclusiveRows

theorem inclusiveRows_row (h : sep ∉ row) (rest : List α) :
    inclusiveRows sep (row ++ sep :: rest) = (row ++ [sep]) :: inclusiveRows sep rest := by
  induction row with
  | nil => exact if_pos (BEq.refl sep)
  | cons x row ih =>
    rw [mem_cons, not_or] at h
    rw [cons_append, inclusiveRows, if_neg (by simpa using Ne.symm h.1), ih h.2]
    rfl

theorem inclusiveRows_prepend {front : List α} (h : sep ∉ front) (hne : front ≠ []) (xs : List α) :
    inclusiveRows sep (front ++ xs) =
      (front ++ (inclusiveRows sep xs).headD []) :: (inclusiveRows sep xs).tail := by
  induction front with
  | nil => exact absurd rfl hne
  | cons x front ih =>
    rw [mem_cons, not_or] at h
    rw [cons_append, inclusiveRows, if_neg (by simpa using Ne.symm h.1)]
    cases front with
    | nil => rfl
    | cons y front =>
      rw [ih h.2 (cons_ne_nil y front)]
      rfl

theorem inclusiveRows_free (h : sep ∉ row) (hne : row ≠ []) : inclusiveRows sep row = [row] := by
  have hrow := inclusiveRows_prepend h hne []
  rwa [append_nil, inclusiveRows, headD_nil, append_nil, tail_nil] at hrow

theorem inclusiveRows_flatten (xs : List α) : (inclusiveRows sep xs).flatten = xs := by
  induction xs using rows_induction sep with
  | last row h =>
    by_cases hne : row = []
    · rw [hne]
      rfl
    · rw [inclusiveRows_free h hne]
      simp
  | step row rest h ih =>
    rw [inclusiveRows_row h, flatten_cons, ih]
    simp

theorem inclusiveRows_cons (h : inclusiveRows sep xs = row :: rows) :
    row ≠ [] ∧ xs = row ++ rows.flatten ∧ inclusiveRows sep rows.flatten = rows := by
  induction xs using rows_induction sep with
  | last line hfree =>
    have hne : line ≠ [] := fun he => by
      rw [he] at h
      cases h
    rw [inclusiveRows_free hfree hne] at h
    obtain ⟨rfl, rfl⟩ := cons.inj h
    exact ⟨hne, by simp, rfl⟩
  | step line rest hfree _ =>
    rw [inclusiveRows_row hfree] at h
    obtain ⟨rfl, rfl⟩ := cons.inj h
    rw [inclusiveRows_flatten]
    exact ⟨by simp, by simp, rfl⟩

end

end SplitRows
