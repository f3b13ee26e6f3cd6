import Mathlib.Data.List.Basic

namespace Numbering
open List

def numberFrom : List Bool → ℕ → List (Option ℕ)
  | [], _ => []
  | true :: taken, start => some start :: numberFrom taken (start + 1)
  | false :: taken, start => none :: numberFrom taken start

attribute [local simp] numberFrom

def topFilled (start count rows : ℕ) : List (Option ℕ) :=
  (range rows).map fun index => if index < count then some (start + index) else none

def TopAligned (taken : List Bool) : Prop :=
  taken.Pairwise fun upper lower => lower = true → upper = true

theorem topFilled_length (start count rows : ℕ) : (topFilled start count rows).length = rows := by
  simp [topFilled]

theorem numberFrom_append (taken taken' : List Bool) : ∀ start, numberFrom (taken ++ taken') start =
      numberFrom taken start ++ numberFrom taken' (start + taken.count true) := by
  induction taken with
  | nil => exact fun _ => rfl
  | cons place taken ih =>
    intro start
    cases place with
    | true =>
      rw [cons_append, numberFrom, numberFrom, ih, count_cons_self, cons_append]
      congr 3
      omega
    | false =>
      rw [cons_append, numberFrom, numberFrom, ih, count_cons_of_ne (by decide),
        cons_append]

theorem filterMap_numberFrom (taken : List Bool) : ∀ start,
    (numberFrom taken start).filterMap id = range' start (taken.count true) := by
  induction taken with
  | nil => exact fun _ => rfl
  | cons place taken ih =>
    intro start
    cases place with
    | true =>
      rw [numberFrom, count_cons_self, range'_succ, ← ih]
      rfl
    | false =>
      rw [numberFrom, count_cons_of_ne (by decide), ← ih]
      rfl

theorem numberFrom_of_filterMap {cells : List (Option ℕ)} : ∀ {start len : ℕ},
    cells.filterMap id = range' start len →
      cells = numberFrom (cells.map Option.isSome) start ∧
        (cells.map Option.isSome).count true = len := by
  induction cells with
  | nil =>
    intro start len h
    have := congrArg length h
    rw [length_range'] at this
    exact ⟨rfl, this⟩
  | cons cell cells ih =>
    intro start len h
    cases cell with
    | none =>
      obtain ⟨hcells, hcount⟩ := ih h
      exact ⟨congrArg (none :: ·) hcells, hcount⟩
    | some n =>
      have h : n :: cells.filterMap id = range' start len := h
      cases len with
      | zero => cases h
      | succ len =>
        rw [range'_succ] at h
        obtain ⟨hn, hrest⟩ := cons.inj h
        obtain ⟨hcells, hcount⟩ := ih hrest
        refine ⟨?_, ?_⟩
        · rw [map_cons, Option.isSome_some, numberFrom, ← hcells]
          exact congrArg (some · :: cells) hn
        · rw [map_cons, Option.isSome_some, count_cons_self, hcount]

theorem topFilled_succ (start count rows : ℕ) :
    topFilled start (count + 1) (rows + 1) = some start :: topFilled (start + 1) count rows := by
  rw [topFilled, range_succ_eq_map, map_cons, map_map]
  refine congrArg₂ cons (by simp) (map_congr_left fun index _ => ?_)
  simp only [Function.comp_apply, Nat.succ_eq_add_one, Nat.add_lt_add_iff_right]
  split
  · exact congrArg some (by omega)
  · rfl

theorem topFilled_zero (start rows : ℕ) : topFilled start 0 rows = replicate rows none := by
  simp [topFilled, map_const']

variable {taken : List Bool}

theorem numberFrom_none (h : ∀ place ∈ taken, place = false) :
    ∀ start, numberFrom taken start = replicate taken.length none := by
  induction taken with
  | nil => exact fun _ => rfl
  | cons place taken ih =>
    intro start
    obtain rfl := h place mem_cons_self
    rw [numberFrom, ih fun p hp => h p (mem_cons_of_mem _ hp)]
    rfl

theorem topAligned_free (h : ∀ place ∈ taken, place = false) : TopAligned taken :=
  pairwise_of_forall_mem_list fun _ _ lower hlower htaken => by
    rw [h lower hlower] at htaken
    cases htaken

theorem topAligned_head (h : TopAligned (false :: taken)) : ∀ place ∈ taken, place = false := by
  intro place hplace
  have := (pairwise_cons.mp h).1 place hplace
  cases place with
  | false => rfl
  | true => cases this rfl

theorem numberFrom_topFilled : ∀ {start : ℕ},
    numberFrom taken start = topFilled start (taken.count true) taken.length ↔
      TopAligned taken := by
  induction taken with
  | nil => exact iff_of_true rfl Pairwise.nil
  | cons place taken ih =>
    intro start
    cases place with
    | true =>
      rw [numberFrom, count_cons_self, length_cons, topFilled_succ, cons.injEq,
        ih, TopAligned, TopAligned, pairwise_cons]
      simp
    | false =>
      rw [numberFrom, count_cons_of_ne (by decide)]
      constructor
      · intro h
        cases hcount : taken.count true with
        | zero =>
          refine topAligned_free fun place hplace => ?_
          rcases mem_cons.mp hplace with rfl | hplace
          · rfl
          · cases place with
            | false => rfl
            | true => exact absurd hplace (count_eq_zero.mp hcount)
        | succ count =>
          rw [hcount, length_cons, topFilled_succ] at h
          cases (cons.inj h).1
      · intro h
        have hnone := topAligned_head h
        have hcount : taken.count true = 0 :=
          count_eq_zero.mpr fun hmem => by cases hnone true hmem
        rw [numberFrom_none hnone, hcount, topFilled_zero]
        rfl

theorem topFilled_aligned (start count rows : ℕ) :
    TopAligned ((topFilled start count rows).map Option.isSome) := by
  rw [topFilled, map_map, TopAligned, pairwise_map]
  refine pairwise_lt_range.imp fun {upper lower} hlt => ?_
  simp only [Function.comp_apply]
  by_cases hlower : lower < count
  · rw [if_pos (Nat.lt_trans hlt hlower)]
    exact fun _ => rfl
  · rw [if_neg hlower]
    exact fun h => by cases h

theorem topAligned_snoc {place : Bool} :
    TopAligned (taken ++ [place]) ↔
      TopAligned taken ∧ (place → taken.count true = taken.length) := by
  rw [TopAligned, TopAligned, pairwise_append, count_eq_length]
  simp only [pairwise_singleton, mem_singleton, forall_eq, true_and]
  refine and_congr_right fun _ => ⟨fun h hplace upper hupper => (h upper hupper hplace).symm,
    fun h upper hupper hplace => (h hplace upper hupper).symm⟩

theorem full_of_last (h : TopAligned taken) {place : Bool}
    (hlast : taken.getLast? = some place) : taken.count true = taken.length ↔ place := by
  obtain ⟨init, rfl⟩ := getLast?_eq_some_iff.mp hlast
  obtain ⟨-, hfull⟩ := topAligned_snoc.mp h
  constructor
  · intro hcount
    exact (count_eq_length.mp hcount place (by simp)).symm
  · rintro rfl
    rw [count_append, hfull rfl]
    simp

end Numbering
