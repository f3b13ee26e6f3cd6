import Mathlib.Algebra.Ring.Nat
import Mathlib.Algebra.BigOperators.Group.List.Basic
import Mathlib.Data.List.Infix

namespace WeightedPrefix
open List Nat

variable {α : Type} (w : α → ℕ)

def weight (xs : List α) : ℕ := (xs.map w).sum

def within : List α → ℕ → List α
  | [], _ => []
  | x :: xs, n => if w x ≤ n then x :: within xs (n - w x) else []

attribute [local simp] within

def covering : List α → ℕ → List α
  | [], _ => []
  | _ :: _, 0 => []
  | x :: xs, n + 1 => x :: covering xs (n + 1 - w x)

attribute [local simp] covering

@[simp] theorem weight_nil : weight w [] = 0 := rfl

@[simp] theorem weight_cons (x : α) (xs : List α) : weight w (x :: xs) = w x + weight w xs := by
  simp [weight]

@[simp] theorem weight_append (xs ys : List α) :
    weight w (xs ++ ys) = weight w xs + weight w ys := by
  simp [weight]

variable {xs ys : List α}

theorem weight_le_of_prefix (h : xs <+: ys) : weight w xs ≤ weight w ys := by
  obtain ⟨zs, rfl⟩ := h
  rw [weight_append]
  exact le_add_right _ _

theorem within_front (xs : List α) (n : ℕ) : within w xs n <+: xs := by
  induction xs generalizing n with
  | nil => exact prefix_rfl
  | cons x xs ih =>
    rw [within]
    split
    · exact prefix_cons_inj x |>.mpr (ih _)
    · exact nil_prefix

theorem weight_within_le (xs : List α) (n : ℕ) : weight w (within w xs n) ≤ n := by
  induction xs generalizing n with
  | nil => exact zero_le _
  | cons x xs ih =>
    rw [within]
    split
    · have := ih (n - w x)
      rw [weight_cons]
      omega
    · exact zero_le _

variable {n : ℕ}

theorem prefix_within (h : ys <+: xs) (hn : weight w ys ≤ n) : ys <+: within w xs n := by
  induction ys generalizing xs n with
  | nil => exact nil_prefix
  | cons y ys ih =>
    obtain ⟨zs, rfl⟩ := h
    rw [weight_cons] at hn
    rw [cons_append, within, if_pos (by omega)]
    exact prefix_cons_inj y |>.mpr (ih (prefix_append ys zs) (by omega))

theorem within_append (xs ys : List α) (n : ℕ) :
    within w (xs ++ ys) (weight w xs + n) = xs ++ within w ys n := by
  induction xs with
  | nil => simp
  | cons x xs ih =>
    have hsub : w x + weight w xs + n - w x = weight w xs + n := by omega
    rw [weight_cons, cons_append, within, if_pos (by omega), hsub, ih, cons_append]

theorem within_all (h : weight w xs ≤ n) : within w xs n = xs := by
  have hfit := within_append w xs [] (n - weight w xs)
  rw [Nat.add_sub_cancel' h] at hfit
  simpa [within] using hfit

theorem within_left {w : α → ℕ} (hw : ∀ x, 0 < w x) (ys : List α)
    (h : n ≤ weight w xs) : within w (xs ++ ys) n = within w xs n := by
  induction xs generalizing n with
  | nil =>
    obtain rfl : n = 0 := le_zero.mp h
    cases ys with
    | nil => rfl
    | cons y ys =>
      have hy := hw y
      simp only [nil_append, within, if_neg (not_le_of_gt hy)]
  | cons x xs ih =>
    rw [weight_cons] at h
    rw [cons_append, within, within, ih (by omega)]

theorem covering_front (xs : List α) (n : ℕ) : covering w xs n <+: xs := by
  induction xs generalizing n with
  | nil => exact prefix_rfl
  | cons x xs ih =>
    cases n with
    | zero => exact nil_prefix
    | succ n => exact prefix_cons_inj x |>.mpr (ih _)

theorem le_weight_covering (h : n ≤ weight w xs) : n ≤ weight w (covering w xs n) := by
  induction xs generalizing n with
  | nil => exact h
  | cons x xs ih =>
    cases n with
    | zero => exact zero_le _
    | succ n =>
      rw [weight_cons] at h
      have := ih (show n + 1 - w x ≤ weight w xs by omega)
      rw [covering, weight_cons]
      omega

theorem covering_front_of (h : ys <+: xs) (hn : n ≤ weight w ys) : covering w xs n <+: ys := by
  induction ys generalizing xs n with
  | nil =>
    obtain rfl : n = 0 := le_zero.mp hn
    cases xs <;> exact prefix_rfl
  | cons y ys ih =>
    obtain ⟨zs, rfl⟩ := h
    cases n with
    | zero => exact nil_prefix
    | succ n =>
      rw [weight_cons] at hn
      exact prefix_cons_inj y |>.mpr (ih (prefix_append ys zs) (by omega))

theorem covering_append {w : α → ℕ} (hw : ∀ x, 0 < w x) (xs ys : List α) (n : ℕ) :
    covering w (xs ++ ys) (weight w xs + n) = xs ++ covering w ys n := by
  induction xs with
  | nil => simp
  | cons x xs ih =>
    have hx := hw x
    obtain ⟨k, hk⟩ := Nat.exists_eq_add_of_lt (show 0 < w x + weight w xs + n by omega)
    have hsub : k + 1 - w x = weight w xs + n := by omega
    rw [Nat.zero_add] at hk
    rw [weight_cons, cons_append, hk, covering, hsub, ih, cons_append]

theorem covering_all {w : α → ℕ} (hw : ∀ x, 0 < w x)
    (h : weight w xs ≤ n) : covering w xs n = xs := by
  have hfit := covering_append hw xs [] (n - weight w xs)
  rw [Nat.add_sub_cancel' h] at hfit
  simpa [covering] using hfit

theorem covering_left (ys : List α) (h : n ≤ weight w xs) :
    covering w (xs ++ ys) n = covering w xs n := by
  induction xs generalizing n with
  | nil =>
    obtain rfl : n = 0 := le_zero.mp h
    cases ys <;> rfl
  | cons x xs ih =>
    cases n with
    | zero => rfl
    | succ n =>
      rw [weight_cons] at h
      rw [cons_append, covering, covering, ih (by omega)]

end WeightedPrefix
