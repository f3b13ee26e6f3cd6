import Mathlib.Order.MinMax
import Mathlib.Data.Nat.Bitwise

variable {i : ℕ}

namespace Alignment
open List Nat
variable {α β : Type*} {c : α → β → ℕ} {g : ℕ}

inductive Aligned (c : α → β → ℕ) (g : ℕ) : List α → List β → ℕ → Prop
  | nil : Aligned c g [] [] 0
  | pair {xs : List α} {ys : List β} {k : ℕ} (x : α) (y : β) (h : Aligned c g xs ys k) :
      Aligned c g (x :: xs) (y :: ys) (k + c x y)
  | delete {xs : List α} {ys : List β} {k : ℕ} (x : α) (h : Aligned c g xs ys k) :
      Aligned c g (x :: xs) ys (k + g)
  | insert {xs : List α} {ys : List β} {k : ℕ} (y : β) (h : Aligned c g xs ys k) :
      Aligned c g xs (y :: ys) (k + g)

def distance (c : α → β → ℕ) (g : ℕ) : List α → List β → ℕ
  | [], ys => ys.length * g
  | x :: xs, [] => (x :: xs).length * g
  | x :: xs, y :: ys =>
    min (distance c g xs ys + c x y)
      (min (distance c g (x :: xs) ys + g) (distance c g xs (y :: ys) + g))

theorem distance_nil_left (ys : List β) : distance c g [] ys = ys.length * g := by
  rw [distance]

theorem distance_nil_right (xs : List α) : distance c g xs [] = xs.length * g := by
  cases xs with
  | nil => rw [distance]; rfl
  | cons x xs => rw [distance]

variable {k : ℕ}

section

theorem Aligned.append {xs xs' : List α} {ys ys' : List β} {l : ℕ}
    (h : Aligned c g xs ys k) (h' : Aligned c g xs' ys' l) :
    Aligned c g (xs ++ xs') (ys ++ ys') (k + l) := by
  induction h with
  | nil =>
    rw [zero_add]
    exact h'
  | pair x y _ ih =>
    rw [add_right_comm]
    exact ih.pair x y
  | delete x _ ih =>
    rw [add_right_comm]
    exact ih.delete x
  | insert y _ ih =>
    rw [add_right_comm]
    exact ih.insert y

theorem Aligned.reverse {xs : List α} {ys : List β} (h : Aligned c g xs ys k) :
    Aligned c g xs.reverse ys.reverse k := by
  induction h with
  | nil => exact .nil
  | pair x y _ ih =>
    rw [reverse_cons, reverse_cons, ← zero_add (c x y)]
    exact ih.append (Aligned.nil.pair x y)
  | delete x _ ih =>
    have h := ih.append (Aligned.nil.delete (c := c) (g := g) x)
    rw [append_nil, zero_add] at h
    rw [reverse_cons]
    exact h
  | insert y _ ih =>
    have h := ih.append (Aligned.nil.insert (c := c) (g := g) y)
    rw [append_nil, zero_add] at h
    rw [reverse_cons]
    exact h

theorem Aligned.swap {xs : List α} {ys : List β} (h : Aligned c g xs ys k) :
    Aligned (Function.swap c) g ys xs k := by
  induction h with
  | nil => exact .nil
  | pair x y _ ih => exact ih.pair y x
  | delete x _ ih => exact ih.insert x
  | insert y _ ih => exact ih.delete y

theorem aligned_inserts (ys : List β) : Aligned c g [] ys (ys.length * g) := by
  induction ys with
  | nil =>
    rw [List.length_nil, zero_mul]
    exact .nil
  | cons y ys ih =>
    rw [length_cons, succ_mul]
    exact ih.insert y

theorem aligned_deletes (xs : List α) : Aligned c g xs [] (xs.length * g) :=
  (aligned_inserts (c := Function.swap c) xs).swap

theorem aligned_distance (xs : List α) (ys : List β) : Aligned c g xs ys (distance c g xs ys) := by
  induction xs, ys using distance.induct with
  | case1 ys =>
    rw [distance_nil_left]
    exact aligned_inserts ys
  | case2 x xs =>
    rw [distance_nil_right]
    exact aligned_deletes (x :: xs)
  | case3 x xs y ys hpair hinsert hdelete =>
    rw [distance]
    rcases min_choice (distance c g xs ys + c x y)
      (min (distance c g (x :: xs) ys + g) (distance c g xs (y :: ys) + g)) with h | h
    · rw [h]
      exact hpair.pair x y
    · rw [h]
      rcases min_choice (distance c g (x :: xs) ys + g)
        (distance c g xs (y :: ys) + g) with h | h
      · rw [h]
        exact hinsert.insert y
      · rw [h]
        exact hdelete.delete x

end

section
variable (xs : List α) (ys : List β)

theorem distance_pair (x : α) (y : β) :
    distance c g (x :: xs) (y :: ys) ≤ distance c g xs ys + c x y := by
  rw [distance]
  exact min_le_left _ _

theorem distance_insert (y : β) : distance c g xs (y :: ys) ≤ distance c g xs ys + g := by
  cases xs with
  | nil =>
    rw [distance_nil_left, distance_nil_left, length_cons, succ_mul]
  | cons x xs =>
    rw [distance]
    exact (min_le_right _ _).trans (min_le_left _ _)

theorem distance_delete (x : α) : distance c g (x :: xs) ys ≤ distance c g xs ys + g := by
  cases ys with
  | nil =>
    rw [distance_nil_right, distance_nil_right, length_cons, succ_mul]
  | cons y ys =>
    rw [distance]
    exact (min_le_right _ _).trans (min_le_right _ _)

end

theorem distance_le {xs : List α} {ys : List β} (h : Aligned c g xs ys k) :
    distance c g xs ys ≤ k := by
  induction h with
  | nil => rw [distance_nil_left]; exact le_of_eq (zero_mul g)
  | pair x y _ ih => exact (distance_pair _ _ x y).trans (Nat.add_le_add_right ih _)
  | delete x _ ih => exact (distance_delete _ _ x).trans (Nat.add_le_add_right ih _)
  | insert y _ ih => exact (distance_insert _ _ y).trans (Nat.add_le_add_right ih _)

theorem Aligned.tail {xs : List α} {ys : List β} {k : ℕ} (h : Aligned c g xs ys k) :
    distance c g xs.tail ys ≤ k + g := by
  induction h with
  | nil => exact le_add_right_of_le (distance_le .nil)
  | pair x y h _ =>
    exact (distance_insert _ _ y).trans
      (Nat.add_le_add_right (le_add_right_of_le (distance_le h)) _)
  | delete x h _ => exact le_add_right_of_le (le_add_right_of_le (distance_le h))
  | insert y _ ih => exact (distance_insert _ _ y).trans (Nat.add_le_add_right ih _)

theorem distance_tail (x : α) (xs : List α) (ys : List β) :
    distance c g xs ys ≤ distance c g (x :: xs) ys + g :=
  (aligned_distance (x :: xs) ys).tail

theorem distance_swap (xs : List α) (ys : List β) :
    distance (Function.swap c) g ys xs = distance c g xs ys :=
  le_antisymm (distance_le (aligned_distance xs ys).swap)
    (distance_le (aligned_distance (c := Function.swap c) ys xs).swap)

theorem distance_reverse (xs : List α) (ys : List β) :
    distance c g xs.reverse ys.reverse = distance c g xs ys := by
  refine le_antisymm (distance_le (aligned_distance xs ys).reverse) (distance_le ?_)
  have h := (aligned_distance (c := c) (g := g) xs.reverse ys.reverse).reverse
  rw [reverse_reverse, reverse_reverse] at h
  exact h

theorem distance_concat (xs : List α) (ys : List β) (x : α) (y : β) :
    distance c g (xs ++ [x]) (ys ++ [y]) = min (distance c g xs ys + c x y)
        (min (distance c g (xs ++ [x]) ys + g) (distance c g xs (ys ++ [y]) + g)) := by
  rw [← distance_reverse, reverse_concat, reverse_concat, distance, distance_reverse,
    ← reverse_concat, ← reverse_concat, distance_reverse, distance_reverse]

theorem take_concat {xs : List α} {x : α} (h : xs[i]? = some x) :
    xs.take (i + 1) = xs.take i ++ [x] := by
  rw [take_add_one, h]
  rfl

section
variable (xs : List α) (ys : List β) (x : α) (y : β)

theorem distance_concat_left :
    distance c g (xs ++ [x]) ys ≤ distance c g xs ys + g ∧
      distance c g xs ys ≤ distance c g (xs ++ [x]) ys + g := by
  rw [← distance_reverse (xs ++ [x]), ← distance_reverse xs, reverse_concat]
  exact ⟨distance_delete _ _ x, distance_tail x _ _⟩

theorem distance_concat_right :
    distance c g xs (ys ++ [y]) ≤ distance c g xs ys + g ∧
      distance c g xs ys ≤ distance c g xs (ys ++ [y]) + g := by
  rw [← distance_swap xs, ← distance_swap xs]
  exact distance_concat_left ys xs y

end

end Alignment

namespace Levenshtein
open Alignment
variable {α : Type*} [DecidableEq α]

def unequal (x y : α) : ℕ := if x = y then 0 else 1

def levenshtein (xs ys : List α) : ℕ := distance unequal 1 xs ys

theorem unequal_swap : Function.swap (unequal (α := α)) = unequal := by
  funext x y
  change unequal y x = unequal x y
  rw [unequal, unequal]
  exact if_congr eq_comm rfl rfl

theorem levenshtein_nil_left (ys : List α) : levenshtein [] ys = ys.length :=
  (distance_nil_left ys).trans (mul_one _)

theorem levenshtein_nil_right (xs : List α) : levenshtein xs [] = xs.length :=
  (distance_nil_right xs).trans (mul_one _)

theorem levenshtein_comm (xs ys : List α) : levenshtein xs ys = levenshtein ys xs := by
  have h := distance_swap (c := unequal) (g := 1) ys xs
  rw [unequal_swap] at h
  exact h

theorem levenshtein_self (xs : List α) : levenshtein xs xs = 0 := by
  induction xs with
  | nil => rw [levenshtein_nil_left, List.length_nil]
  | cons x xs ih =>
    refine Nat.eq_zero_of_le_zero ((distance_pair xs xs x x).trans ?_)
    rw [unequal, if_pos rfl, Nat.add_zero]
    exact le_of_eq ih

theorem levenshtein_concat (xs ys : List α) (x y : α) :
    levenshtein (xs ++ [x]) (ys ++ [y]) = min (levenshtein xs ys + unequal x y)
      (min (levenshtein (xs ++ [x]) ys + 1) (levenshtein xs (ys ++ [y]) + 1)) :=
  distance_concat xs ys x y

section
variable (xs ys : List α)

def column (i : ℕ) : ℕ := levenshtein (xs.take i) ys

theorem column_zero : column xs ys 0 = ys.length := by
  rw [column, List.take_zero, levenshtein_nil_left]

theorem column_full : column xs ys xs.length = levenshtein xs ys := by
  rw [column, List.take_length]

theorem column_nil (h : i ≤ xs.length) : column xs [] i = i := by
  rw [column, levenshtein_nil_right, List.length_take_of_le h]

variable {xs}

theorem column_vertical {x : α} (h : xs[i]? = some x) :
    column xs ys (i + 1) ≤ column xs ys i + 1 ∧ column xs ys i ≤ column xs ys (i + 1) + 1 := by
  rw [column, column, take_concat h]
  exact distance_concat_left _ ys x

theorem column_horizontal (i : ℕ) (y : α) :
    column xs (ys ++ [y]) i ≤ column xs ys i + 1 ∧ column xs ys i ≤ column xs (ys ++ [y]) i + 1 :=
  distance_concat_right _ ys y

theorem column_cell {x : α} (h : xs[i]? = some x) (y : α) :
    column xs (ys ++ [y]) (i + 1) = min (column xs ys i + unequal x y)
      (min (column xs ys (i + 1) + 1) (column xs (ys ++ [y]) i + 1)) := by
  simp only [column, take_concat h]
  exact levenshtein_concat _ ys x y

end

section
variable {w : ℕ}

-- The carry of the sum runs from a set bit of `eq` up through the set bits of `positive`.
def spread (eq positive : BitVec w) : BitVec w :=
  (((eq &&& positive) + positive) ^^^ positive) ||| eq

def spreadCarry (eq positive : BitVec w) (i : ℕ) : Bool :=
  BitVec.carry i (eq &&& positive) positive false

theorem getLsbD_spread (eq positive : BitVec w) (h : i < w) :
    (spread eq positive).getLsbD i = (eq.getLsbD i || spreadCarry eq positive i) := by
  rw [spread, BitVec.getLsbD_or, BitVec.getLsbD_xor, BitVec.getLsbD_add h, BitVec.getLsbD_and,
    spreadCarry]
  cases eq.getLsbD i <;> cases positive.getLsbD i <;>
    cases BitVec.carry i (eq &&& positive) positive false <;> rfl

theorem spreadCarry_zero (eq positive : BitVec w) : spreadCarry eq positive 0 = false :=
  BitVec.carry_zero

theorem spreadCarry_succ (eq positive : BitVec w) (i : ℕ) :
    spreadCarry eq positive (i + 1) =
      (positive.getLsbD i && (eq.getLsbD i || spreadCarry eq positive i)) := by
  rw [spreadCarry, BitVec.carry_succ, BitVec.getLsbD_and, spreadCarry]
  cases eq.getLsbD i <;> cases positive.getLsbD i <;>
    cases BitVec.carry i (eq &&& positive) positive false <;> rfl

end

end Levenshtein
