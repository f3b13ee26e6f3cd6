import GitComet.Basis.Alignment
import GitComet.FileDiff.Replacement

namespace GitComet.FileDiff
open Slice Text Alignment List Nat Option

section
variable {α : Type}

def alignmentCost (pairCost : α → α → UInt32) : List ReplacementOp → List α → List α → Option ℕ
  | [], [], [] => some 0
  | .pair :: ops, delete :: deletes, insert :: inserts =>
    (alignmentCost pairCost ops deletes inserts).map (· + (pairCost delete insert).toNat)
  | .delete :: ops, _ :: deletes, inserts =>
    (alignmentCost pairCost ops deletes inserts).map (· + replacementGapCost)
  | .insert :: ops, deletes, _ :: inserts =>
    (alignmentCost pairCost ops deletes inserts).map (· + replacementGapCost)
  | _, _, _ => none

def lineCost (pairCost : α → α → UInt32) (delete insert : α) : ℕ := (pairCost delete insert).toNat

theorem alignmentCost_aligned {pairCost : α → α → UInt32} {ops : List ReplacementOp} :
    ∀ {deletes inserts : List α} {k : ℕ}, alignmentCost pairCost ops deletes inserts = some k →
      Aligned (lineCost pairCost) replacementGapCost deletes inserts k := by
  induction ops with
  | nil =>
    intro deletes inserts k h
    cases deletes with
    | nil =>
      cases inserts with
      | nil =>
        rw [alignmentCost] at h
        rw [← some.inj h]
        exact .nil
      | cons insert inserts => cases h
    | cons delete deletes => cases h
  | cons op ops ih =>
    intro deletes inserts k h
    cases op with
    | pair =>
      cases deletes with
      | nil => cases h
      | cons delete deletes =>
        cases inserts with
        | nil => cases h
        | cons insert inserts =>
          rw [alignmentCost] at h
          obtain ⟨rest, hrest, rfl⟩ := map_eq_some_iff.mp h
          exact (ih hrest).pair delete insert
    | delete =>
      cases deletes with
      | nil => cases h
      | cons delete deletes =>
        rw [alignmentCost] at h
        obtain ⟨rest, hrest, rfl⟩ := map_eq_some_iff.mp h
        exact (ih hrest).delete delete
    | insert =>
      cases inserts with
      | nil => cases deletes <;> cases h
      | cons insert inserts =>
        rw [alignmentCost] at h
        obtain ⟨rest, hrest, rfl⟩ := map_eq_some_iff.mp h
        exact (ih hrest).insert insert

theorem bestStep_cases (pair insert delete : ℕ) :
    (bestStep pair insert delete = (pair, .pair) ∧ pair ≤ insert ∧ pair ≤ delete) ∨
    (bestStep pair insert delete = (insert, .insert) ∧ insert < pair ∧ insert ≤ delete) ∨
    (bestStep pair insert delete = (delete, .delete) ∧ delete < pair ∧ delete ≤ insert) := by
  unfold bestStep
  by_cases hinsert : insert < pair
  · by_cases hdelete : delete < insert
    · exact .inr (.inr ⟨by simp [hinsert, hdelete], by omega, by omega⟩)
    · exact .inr (.inl ⟨by simp [hinsert, hdelete], by omega, by omega⟩)
  · by_cases hdelete : delete < pair
    · exact .inr (.inr ⟨by simp [hinsert, hdelete], by omega, by omega⟩)
    · exact .inl ⟨by simp [hinsert, hdelete], by omega, by omega⟩

end

section
variable {α : Type} (pairCost : α → α → UInt32) (deletes inserts : List α)

def prefixCost (i j : ℕ) : ℕ :=
  distance (lineCost pairCost) replacementGapCost (deletes.take i) (inserts.take j)

def pairCostAt (i j : ℕ) : ℕ :=
  (deletes[i]?.bind fun delete => inserts[j]?.map (lineCost pairCost delete)).getD 0

def bestAt (i j : ℕ) : ℕ × AlignStep :=
  bestStep
    (satAdd32 (prefixCost pairCost deletes inserts i j) (pairCostAt pairCost deletes inserts i j))
    (satAdd32 (prefixCost pairCost deletes inserts (i + 1) j) replacementGapCost)
    (satAdd32 (prefixCost pairCost deletes inserts i (j + 1)) replacementGapCost)

def stepAt : ℕ → ℕ → AlignStep
  | 0, 0 => .none
  | 0, _ + 1 => .insert
  | _ + 1, 0 => .delete
  | i + 1, j + 1 => (bestAt pairCost deletes inserts i j).2

def tableSteps (size : ℕ) : List AlignStep :=
  (List.range size).map fun index =>
    stepAt pairCost deletes inserts (index / (inserts.length + 1)) (index % (inserts.length + 1))

def rowCosts (i size : ℕ) : List ℕ :=
  (List.range size).map (prefixCost pairCost deletes inserts i)

def CostsFit : Prop :=
  (deletes.length + inserts.length) * replacementGapCost ≤ u32Max

variable {pairCost deletes inserts}

theorem pairCostAt_eq {i j : ℕ} {delete insert : α} (hdelete : deletes[i]? = some delete)
    (hinsert : inserts[j]? = some insert) :
    pairCostAt pairCost deletes inserts i j = lineCost pairCost delete insert := by
  rw [pairCostAt, hdelete, hinsert]
  rfl

theorem prefixCost_top {j : ℕ} (hj : j ≤ inserts.length) :
    prefixCost pairCost deletes inserts 0 j = j * replacementGapCost := by
  rw [prefixCost, take_zero, distance_nil_left, length_take_of_le hj]

theorem prefixCost_left {i : ℕ} (hi : i ≤ deletes.length) :
    prefixCost pairCost deletes inserts i 0 = i * replacementGapCost := by
  rw [prefixCost, take_zero, distance_nil_right, length_take_of_le hi]

variable (pairCost) in
theorem prefixCost_le (deletes inserts : List α) (i j : ℕ) :
    prefixCost pairCost deletes inserts i j ≤ (i + j) * replacementGapCost := by
  have h := distance_le ((aligned_deletes (c := lineCost pairCost) (g := replacementGapCost)
    (deletes.take i)).append (aligned_inserts (inserts.take j)))
  rw [append_nil, nil_append, ← add_mul] at h
  refine h.trans (Nat.mul_le_mul_right _ (Nat.add_le_add ?_ ?_))
  · exact length_take_le i deletes
  · exact length_take_le j inserts

variable (pairCost) in
theorem prefixCost_succ {i j : ℕ} (hi : i < deletes.length) (hj : j < inserts.length) :
    prefixCost pairCost deletes inserts (i + 1) (j + 1) =
      min (prefixCost pairCost deletes inserts i j + pairCostAt pairCost deletes inserts i j)
        (min (prefixCost pairCost deletes inserts (i + 1) j + replacementGapCost)
          (prefixCost pairCost deletes inserts i (j + 1) + replacementGapCost)) := by
  have hdelete := getElem?_eq_getElem hi
  have hinsert := getElem?_eq_getElem hj
  rw [pairCostAt_eq hdelete hinsert]
  simp only [prefixCost, take_concat hdelete, take_concat hinsert]
  exact distance_concat ..

theorem CostsFit.below (h : CostsFit deletes inserts) :
    (deletes.length + inserts.length) * replacementGapCost < u32Max := by
  refine lt_of_le_of_ne h fun heq => ?_
  have hmod : u32Max % replacementGapCost = 0 := by
    rw [← heq]
    exact mul_mod_left _ _
  cases hmod

variable (pairCost) in
theorem bestAt_spec (hfit : CostsFit deletes inserts) {i j : ℕ} (hi : i < deletes.length)
    (hj : j < inserts.length) :
    (bestAt pairCost deletes inserts i j).1 = prefixCost pairCost deletes inserts (i + 1) (j + 1) ∧
    ((bestAt pairCost deletes inserts i j).2 = .pair ∧
        prefixCost pairCost deletes inserts (i + 1) (j + 1) =
          prefixCost pairCost deletes inserts i j + pairCostAt pairCost deletes inserts i j ∨
      (bestAt pairCost deletes inserts i j).2 = .insert ∧
        prefixCost pairCost deletes inserts (i + 1) (j + 1) =
          prefixCost pairCost deletes inserts (i + 1) j + replacementGapCost ∨
      (bestAt pairCost deletes inserts i j).2 = .delete ∧
        prefixCost pairCost deletes inserts (i + 1) (j + 1) =
          prefixCost pairCost deletes inserts i (j + 1) + replacementGapCost) := by
  have hsucc := prefixCost_succ pairCost hi hj
  have hleft := prefixCost_le pairCost deletes inserts (i + 1) j
  have habove := prefixCost_le pairCost deletes inserts i (j + 1)
  have hbelow := hfit.below
  rw [replacementGapCost] at hbelow hleft habove hsucc ⊢
  rw [bestAt, replacementGapCost, satAdd32, satAdd32, satAdd32]
  generalize u32Max = top at hbelow ⊢
  rcases bestStep_cases _ _ _ with ⟨hbest, hinsert, hdelete⟩ | ⟨hbest, hpair, hdelete⟩ |
    ⟨hbest, hpair, hinsert⟩
  · rw [hbest]
    dsimp only
    refine ⟨by omega, .inl ⟨rfl, by omega⟩⟩
  · rw [hbest]
    dsimp only
    refine ⟨by omega, .inr (.inl ⟨rfl, by omega⟩)⟩
  · rw [hbest]
    dsimp only
    refine ⟨by omega, .inr (.inr ⟨rfl, by omega⟩)⟩

theorem rowCosts_get {i j size : ℕ} (h : j < size) :
    (rowCosts pairCost deletes inserts i size)[j]? =
      some (prefixCost pairCost deletes inserts i j) := by
  rw [rowCosts, getElem?_map, getElem?_range h, map_some]

variable (pairCost deletes inserts) in
theorem rowCosts_succ (i size : ℕ) :
    rowCosts pairCost deletes inserts i (size + 1) =
      rowCosts pairCost deletes inserts i size ++ [prefixCost pairCost deletes inserts i size] := by
  rw [rowCosts, range_succ, map_append, rowCosts]
  rfl

variable (pairCost deletes) in
theorem tableSteps_succ {i j : ℕ} (h : j ≤ inserts.length) :
    tableSteps pairCost deletes inserts (i * (inserts.length + 1) + j + 1) =
      tableSteps pairCost deletes inserts (i * (inserts.length + 1) + j) ++
        [stepAt pairCost deletes inserts i j] := by
  have hrow : (i * (inserts.length + 1) + j) / (inserts.length + 1) = i := by
    rw [mul_comm, mul_add_div (succ_pos _), div_eq_of_lt (by omega), add_zero]
  have hcolumn : (i * (inserts.length + 1) + j) % (inserts.length + 1) = j := by
    rw [mul_comm, mul_add_mod, mod_eq_of_lt (by omega)]
  rw [tableSteps, range_succ, map_append, tableSteps, map_singleton, hrow, hcolumn]

variable (pairCost deletes) in
theorem tableSteps_get {i j rows : ℕ} (hi : i < rows) (hj : j ≤ inserts.length) :
    (tableSteps pairCost deletes inserts
        (rows * (inserts.length + 1)))[i * (inserts.length + 1) + j]? =
      some (stepAt pairCost deletes inserts i j) := by
  have hrow : (i * (inserts.length + 1) + j) / (inserts.length + 1) = i := by
    rw [mul_comm, mul_add_div (succ_pos _), div_eq_of_lt (by omega), add_zero]
  have hcolumn : (i * (inserts.length + 1) + j) % (inserts.length + 1) = j := by
    rw [mul_comm, mul_add_mod, mod_eq_of_lt (by omega)]
  rw [tableSteps, getElem?_map, getElem?_range (cell_lt hi (by omega)), map_some,
    hrow, hcolumn]

end

end GitComet.FileDiff
