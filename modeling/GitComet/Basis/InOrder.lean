import Mathlib.Data.List.Basic

namespace InOrder
open List

variable {α β : Type}

def inOrder : List (α → Bool) → List α → Bool
  | [], _ => true
  | _ :: _, [] => false
  | p :: ps, x :: xs => if p x then inOrder ps xs else inOrder (p :: ps) xs

attribute [local simp] inOrder

variable {p : α → Bool} {ps : List (α → Bool)} {xs : List α}

theorem inOrder_of_cons (h : inOrder (p :: ps) xs) : inOrder ps xs := by
  induction xs generalizing p ps with
  | nil => cases h
  | cons x xs ih =>
    rw [inOrder] at h
    cases ps with
    | nil => rw [inOrder]
    | cons q ps =>
      rw [inOrder]
      split at h
      · split
        · exact ih h
        · exact h
      · split
        · exact ih (ih h)
        · exact ih h

theorem inOrder_skip (x : α) (h : inOrder ps xs) : inOrder ps (x :: xs) := by
  cases ps with
  | nil => rw [inOrder]
  | cons p ps =>
    rw [inOrder]
    split
    · exact inOrder_of_cons h
    · exact h

theorem inOrder_none (h : ∀ x ∈ xs, p x = false)
    (ps : List (α → Bool)) : inOrder (p :: ps) xs = false := by
  induction xs with
  | nil => rfl
  | cons x xs ih =>
    obtain ⟨hx, hxs⟩ := forall_mem_cons.mp h
    rw [inOrder, hx, ih hxs]
    rfl

theorem inOrder_found {before after : List α} {x : α}
    (hbefore : ∀ x ∈ before, p x = false) (hx : p x) (ps : List (α → Bool)) :
    inOrder (p :: ps) (before ++ x :: after) = inOrder ps after := by
  induction before with
  | nil => exact if_pos hx
  | cons y before ih =>
    obtain ⟨hy, hrest⟩ := forall_mem_cons.mp hbefore
    rw [cons_append, inOrder, hy, ih hrest]
    rfl

theorem inOrder_append (before : List α)
    (h : inOrder ps xs) : inOrder ps (before ++ xs) := by
  induction before with
  | nil => exact h
  | cons x before ih => exact inOrder_skip x ih

theorem inOrder_cons_iff :
    inOrder (p :: ps) xs ↔
      ∃ before x after, xs = before ++ x :: after ∧ p x ∧ inOrder ps after := by
  constructor
  · intro h
    induction xs with
    | nil => cases h
    | cons x xs ih =>
      rw [inOrder] at h
      split at h
      · rename_i hx
        exact ⟨[], x, xs, rfl, hx, h⟩
      · obtain ⟨before, y, after, rfl, hy, hafter⟩ := ih h
        exact ⟨x :: before, y, after, rfl, hy, hafter⟩
  · rintro ⟨before, x, after, rfl, hx, hafter⟩
    exact inOrder_append before ((if_pos hx).trans hafter)

theorem inOrder_map (f : α → β) (ps : List (β → Bool)) (xs : List α) :
    inOrder ps (xs.map f) = inOrder (ps.map (· ∘ f)) xs := by
  induction xs generalizing ps with
  | nil => cases ps <;> rfl
  | cons x xs ih =>
    cases ps with
    | nil => rw [map_nil, inOrder, inOrder]
    | cons p ps =>
      rw [map_cons, map_cons, inOrder, inOrder, ih, ih]
      rfl

end InOrder
