import Mathlib.Data.Nat.Dist
import Mathlib.Data.List.Basic

namespace Closest
open List Nat

structure IsClosest (marked : ℕ → Prop) (place found : ℕ) : Prop where
  here : marked found
  least : ∀ other, marked other → Nat.dist place found < Nat.dist place other ∨
    Nat.dist place found = Nat.dist place other ∧ other ≤ found

section
variable {marked : ℕ → Prop} {place before after found found' : ℕ}

theorem IsClosest.unique (h : IsClosest marked place found) (h' : IsClosest marked place found') :
    found = found' := by
  have hle := h.least found' h'.here
  have hge := h'.least found h.here
  omega

theorem closest_self (h : marked place) : IsClosest marked place place := by
  refine ⟨h, fun other _ => ?_⟩
  simp only [Nat.dist]
  omega

theorem closest_before (hbefore : marked before) (hlt : before < place)
    (hgap : ∀ other, before < other → other ≤ place → ¬marked other)
    (hafter : ∀ other, place < other → marked other → place - before < other - place) :
    IsClosest marked place before := by
  refine ⟨hbefore, fun other hother => ?_⟩
  simp only [Nat.dist]
  rcases lt_or_ge place other with hlater | hearlier
  · have := hafter other hlater hother
    omega
  · have : other ≤ before := Nat.le_of_not_lt fun hbetween => hgap other hbetween hearlier hother
    omega

theorem closest_after (hafter : marked after) (hlt : place < after)
    (hgap : ∀ other, place ≤ other → other < after → ¬marked other)
    (hbefore : ∀ other, other < place → marked other → after - place ≤ place - other) :
    IsClosest marked place after := by
  refine ⟨hafter, fun other hother => ?_⟩
  simp only [Nat.dist]
  rcases lt_or_ge other place with hearlier | hlater
  · have := hbefore other hearlier hother
    omega
  · have : after ≤ other := Nat.le_of_not_lt fun hbetween => hgap other hlater hbetween hother
    omega

theorem IsClosest.congr {marked' : ℕ → Prop} (hsame : ∀ other, marked other ↔ marked' other)
    (h : IsClosest marked place found) : IsClosest marked' place found :=
  ⟨(hsame found).mp h.here, fun other hother => h.least other ((hsame other).mpr hother)⟩

end

section
variable {α : Type*} (p : α → Bool)

def runEnd (xs : List α) (start : ℕ) : ℕ := start + ((xs.drop start).takeWhile p).length

variable {p} {xs : List α} {start : ℕ}

theorem le_runEnd : start ≤ runEnd p xs start := le_add_right _ _

theorem runEnd_le (h : start ≤ xs.length) : runEnd p xs start ≤ xs.length := by
  have := ( takeWhile_prefix p (l := xs.drop start)).length_le
  rw [length_drop] at this
  rw [runEnd]
  omega

theorem takeWhile_run (p : α → Bool) (xs : List α) :
    (∀ i < (xs.takeWhile p).length, ∀ x, xs[i]? = some x → p x) ∧
      ∀ x, xs[(xs.takeWhile p).length]? = some x → p x = false := by
  induction xs with
  | nil => simp
  | cons y ys ih =>
    rw [takeWhile_cons]
    split
    · rename_i hy
      refine ⟨fun i hi x hx => ?_, fun x hx => ih.2 x hx⟩
      cases i with
      | zero => exact Option.some.inj hx ▸ hy
      | succ i => exact ih.1 i (lt_of_succ_lt_succ hi) x hx
    · rename_i hy
      refine ⟨fun i hi => absurd hi (not_lt_zero i), fun x hx => ?_⟩
      exact Option.some.inj hx ▸ Bool.eq_false_iff.mpr hy

theorem in_run {i : ℕ} {x : α} (hstart : start ≤ i) (hi : i < runEnd p xs start)
    (hx : xs[i]? = some x) : p x := by
  obtain ⟨k, rfl⟩ := Nat.exists_eq_add_of_le hstart
  rw [← getElem?_drop] at hx
  exact (takeWhile_run p (xs.drop start)).1 k (Nat.lt_of_add_lt_add_left hi) x hx

theorem at_runEnd {x : α} (hx : xs[runEnd p xs start]? = some x) : p x = false := by
  rw [runEnd, ← getElem?_drop] at hx
  exact (takeWhile_run p (xs.drop start)).2 x hx

end

end Closest
