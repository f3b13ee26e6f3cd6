import Mathlib.Data.List.Nodup
import Mathlib.Data.List.Range

namespace Ranks
open List Nat

def kept (p : ℕ → Bool) (n : ℕ) : List ℕ := (range n).filter p

def rank (p : ℕ → Bool) (row : ℕ) : ℕ := (kept p row).length

variable {p : ℕ → Bool} {n row i : ℕ}

theorem mem_kept : row ∈ kept p n ↔ row < n ∧ p row := by
  rw [kept, mem_filter, mem_range]

theorem kept_nodup (p : ℕ → Bool) (n : ℕ) : (kept p n).Nodup := nodup_range.filter p

theorem kept_split (p : ℕ → Bool) {n row : ℕ} (h : row ≤ n) :
    ∃ rest, kept p n = kept p row ++ rest ∧ ∀ later ∈ rest, row ≤ later := by
  obtain ⟨more, rfl⟩ := Nat.exists_eq_add_of_le h
  refine ⟨((range more).map (row + ·)).filter p, ?_, ?_⟩
  · rw [kept, range_add, filter_append, kept]
  · intro later hlater
    obtain ⟨k, -, rfl⟩ := mem_map.mp (mem_of_mem_filter hlater)
    exact Nat.le_add_right _ _

theorem rank_mono (h : row ≤ n) : rank p row ≤ rank p n := by
  obtain ⟨rest, hrest, -⟩ := kept_split p h
  rw [rank, rank, hrest, length_append]
  exact le_add_right _ _

theorem rank_le (p : ℕ → Bool) (row : ℕ) : rank p row ≤ row := by
  have := length_filter_le p (range row)
  rwa [length_range] at this

theorem kept_rank (hrow : row < n) (hp : p row) : (kept p n)[rank p row]? = some row := by
  obtain ⟨rest, hrest, -⟩ := kept_split p (Nat.succ_le_of_lt hrow)
  have hlast : kept p (row + 1) = kept p row ++ [row] := by
    rw [kept, range_succ, filter_append, filter_singleton, kept]
    simp [hp]
  rw [hrest, hlast, append_assoc, rank, getElem?_append_right (Nat.le_refl _), Nat.sub_self]
  rfl

theorem kept_get : (kept p n)[i]? = some row ↔ (row < n ∧ p row) ∧ rank p row = i := by
  constructor
  · intro hget
    have hmem := mem_kept.mp (mem_of_getElem? hget)
    obtain ⟨hlt, -⟩ := List.getElem?_eq_some_iff.mp (kept_rank hmem.1 hmem.2)
    exact ⟨hmem, (getElem?_inj hlt (kept_nodup p n)).mp ((kept_rank hmem.1 hmem.2).trans hget.symm)⟩
  · rintro ⟨⟨hrow, hp⟩, rfl⟩
    exact kept_rank hrow hp

theorem rank_lt (hrow : row < n) (hp : p row) : rank p row < rank p n := by
  obtain ⟨hlt, -⟩ := List.getElem?_eq_some_iff.mp (kept_rank hrow hp)
  exact hlt

theorem rank_lt_rank {row' : ℕ} (hp : p row) : rank p row < rank p row' ↔ row < row' := by
  constructor
  · intro h
    by_contra hle
    exact absurd (rank_mono (p := p) (Nat.le_of_not_lt hle)) (Nat.not_le_of_lt h)
  · exact fun h => rank_lt h hp

theorem below_add_rank {out : List ℕ} (h : out.Pairwise (· < ·)) (row : ℕ) :
    out.countP (fun r => decide (r < row)) + rank (fun r => decide (r ∉ out)) row = row := by
  have hperm : (out.filter fun r => decide (r < row)).Perm
      ((range row).filter fun r => decide (r ∈ out)) := by
    refine (perm_ext_iff_of_nodup ((h.imp ne_of_lt).filter _)
      (nodup_range.filter _)).mpr fun r => ?_
    simp only [mem_filter, mem_range, decide_eq_true_eq]
    exact and_comm
  have hsum := length_eq_length_filter_add (l := range row) fun r => decide (r ∈ out)
  rw [length_range] at hsum
  rw [countP_eq_length_filter, hperm.length_eq, rank, kept]
  simpa using hsum.symm

theorem sorted_gap {out : List ℕ} (h : out.Pairwise (· < ·)) {j : ℕ} (hij : i ≤ j) {a b : ℕ}
    (ha : out[i]? = some a) (hb : out[j]? = some b) : a + (j - i) ≤ b := by
  induction j generalizing b with
  | zero =>
    obtain rfl := le_zero.mp hij
    have := ha.symm.trans hb
    simp_all
  | succ j ih =>
    rcases lt_or_ge j i with hlt | hge
    · obtain rfl : i = j + 1 := by omega
      have := ha.symm.trans hb
      simp_all
    · obtain ⟨hlt, rfl⟩ := List.getElem?_eq_some_iff.mp hb
      have hprev := ih hge (getElem?_eq_getElem (lt_of_succ_lt hlt))
      have hstep := List.pairwise_iff_getElem.mp h j (j + 1) (lt_of_succ_lt hlt) hlt
        (lt_succ_self j)
      omega

end Ranks
