import Mathlib.Data.List.Destutter
import GitComet.Basis.Ranks
import GitComet.History.Index

namespace GitComet.History
open BinarySearch Ranks List Option Nat

structure HistoryProjection where
  index : HistoryIndex
  hidden : List ℕ
  sorted : hidden.Pairwise (· < ·)
  inside : ∀ row ∈ hidden, row < index.len

def hiddenRows (rows : ℕ) (hidden : List ℕ) : List ℕ :=
  ((hidden.filter fun row => decide (row < rows)).insertionSort (· ≤ ·)).destutter (· ≠ ·)

theorem mem_hiddenRows {rows row : ℕ} {hidden : List ℕ} :
    row ∈ hiddenRows rows hidden ↔ row ∈ hidden ∧ row < rows := by
  rw [hiddenRows, (pairwise_insertionSort (· ≤ ·) _).destutter_eq_dedup, mem_dedup,
    mem_insertionSort, mem_filter, decide_eq_true_eq]

theorem hiddenRows_sorted (rows : ℕ) (hidden : List ℕ) :
    (hiddenRows rows hidden).Pairwise (· < ·) := by
  have hsorted := pairwise_insertionSort (· ≤ ·)
    (hidden.filter fun row => decide (row < rows))
  rw [hiddenRows, hsorted.destutter_eq_dedup]
  exact ((hsorted.sublist (dedup_sublist _)).and (nodup_dedup _)).imp fun h =>
    lt_of_le_of_ne h.1 h.2

namespace HistoryProjection

def new (index : HistoryIndex) (hidden : List ℕ) : HistoryProjection where
  index := index
  hidden := hiddenRows index.len hidden
  sorted := hiddenRows_sorted index.len hidden
  inside _ hrow := (mem_hiddenRows.mp hrow).2

variable (projection : HistoryProjection)

def len : ℕ := projection.index.len - projection.hidden.length

def hiddenBefore (raw : ℕ) : ℕ :=
  partitionPoint (fun hidden => decide (hidden < raw)) projection.hidden

def visiblePosition (raw : ℕ) : Option ℕ :=
  if raw ≥ projection.index.len then none
  else
    let before := projection.hiddenBefore raw
    if projection.hidden[before]? = some raw then none else some (raw - before)

def rawPosition (visible : ℕ) : Option ℕ :=
  if visible ≥ projection.len then none
  else
    let atOrBefore := fun middle =>
      decide (projection.hidden.getD middle 0 - middle ≤ visible)
    some (visible + bisect atOrBefore projection.hidden.length 0 projection.hidden.length)

def visiblePositionAtOrAfter (raw : ℕ) : ℕ :=
  if raw ≥ projection.index.len then projection.len else raw - projection.hiddenBefore raw

def shown (row : ℕ) : Bool := decide (row ∉ projection.hidden)

def visibleRows : List ℕ := kept projection.shown projection.index.len

theorem hidden_ascending : projection.hidden.Pairwise fun a b => id a ≤ id b :=
  projection.sorted.imp le_of_lt

theorem hiddenBefore_eq (raw : ℕ) :
    projection.hiddenBefore raw = projection.hidden.countP fun row => decide (row < raw) :=
  partitionPoint_sorted projection.hidden_ascending raw

theorem hidden_below {raw i row : ℕ} (hget : projection.hidden[i]? = some row) :
    i < projection.hiddenBefore raw ↔ row < raw :=
  sorted_below projection.hidden_ascending raw hget

theorem hiddenBefore_add_rank (raw : ℕ) :
    projection.hiddenBefore raw + rank projection.shown raw = raw := by
  rw [hiddenBefore_eq]
  exact below_add_rank projection.sorted raw

theorem hidden_at_before {raw : ℕ} :
    projection.hidden[projection.hiddenBefore raw]? = some raw ↔ raw ∈ projection.hidden := by
  refine ⟨mem_of_getElem?, fun hmem => ?_⟩
  obtain ⟨i, hi⟩ := List.mem_iff_getElem?.mp hmem
  have hnot : ¬i < projection.hiddenBefore raw := fun hlt =>
    absurd ((projection.hidden_below hi).mp hlt) (lt_irrefl _)
  obtain ⟨hlt, hget⟩ := List.getElem?_eq_some_iff.mp hi
  rcases lt_or_ge (projection.hiddenBefore raw) i with hbefore | hle
  · have hget' := getElem?_eq_getElem (lt_trans hbefore hlt)
    have hstep := List.pairwise_iff_getElem.mp projection.sorted _ _ (lt_trans hbefore hlt) hlt
      hbefore
    rw [hget] at hstep
    exact absurd ((projection.hidden_below hget').mpr hstep) (lt_irrefl _)
  · rwa [le_antisymm (Nat.le_of_not_lt hnot) hle]

theorem shown_iff (row : ℕ) : projection.shown row ↔ row ∉ projection.hidden :=
  decide_eq_true_iff

theorem visiblePosition_some {raw visible : ℕ} :
    projection.visiblePosition raw = some visible ↔
      projection.visibleRows[visible]? = some raw := by
  have hadd := projection.hiddenBefore_add_rank raw
  rw [visibleRows, kept_get, shown_iff, visiblePosition]
  by_cases hraw : raw < projection.index.len
  · simp only [if_neg (Nat.not_le_of_lt hraw), projection.hidden_at_before, hraw, true_and]
    by_cases hhidden : raw ∈ projection.hidden
    · simp only [hhidden, if_true, reduceCtorEq, not_true_eq_false, false_and]
    · simp only [hhidden, if_false, some.injEq, not_false_eq_true, true_and]
      rw [show raw - projection.hiddenBefore raw = rank projection.shown raw by omega]
  · simp only [if_pos (Nat.le_of_not_lt hraw), reduceCtorEq, hraw, false_and]

theorem hiddenBefore_len :
    projection.hiddenBefore projection.index.len = projection.hidden.length := by
  rw [hiddenBefore_eq, countP_eq_length]
  exact fun row hrow => decide_eq_true (projection.inside row hrow)

theorem len_eq : projection.len = projection.visibleRows.length := by
  have hadd := projection.hiddenBefore_add_rank projection.index.len
  have hall := projection.hiddenBefore_len
  rw [len, visibleRows, ← rank]
  omega

theorem bisect_hidden {raw : ℕ} (hshown : projection.shown raw) :
    bisect (fun middle =>
        decide (projection.hidden.getD middle 0 - middle ≤ rank projection.shown raw))
      projection.hidden.length 0 projection.hidden.length = projection.hiddenBefore raw := by
  have hadd := projection.hiddenBefore_add_rank raw
  have hroom : projection.hiddenBefore raw ≤ projection.hidden.length := by
    rw [hiddenBefore_eq]
    exact countP_le_length
  refine bisect_spec projection.hidden.length (fun i hi => decide_eq_true ?_)
    (fun i hcut hstop => decide_eq_false ?_) (sub_le _ _) (zero_le _) hroom
    (le_refl _)
  · have hget := getElem?_eq_getElem (lt_of_lt_of_le hi hroom)
    have hlast : projection.hiddenBefore raw - 1 < projection.hidden.length := by omega
    have hbelow := (projection.hidden_below (getElem?_eq_getElem hlast)).mp
      (show projection.hiddenBefore raw - 1 < projection.hiddenBefore raw by omega)
    have hgap := sorted_gap projection.sorted (show i ≤ projection.hiddenBefore raw - 1 by omega)
      hget (getElem?_eq_getElem hlast)
    rw [getD_eq_getElem?_getD, hget, getD_some]
    omega
  · have hget := getElem?_eq_getElem hstop
    have hfirst := getElem?_eq_getElem (lt_of_le_of_lt hcut hstop)
    have hgap := sorted_gap projection.sorted hcut hfirst hget
    have hge : ¬projection.hidden[projection.hiddenBefore raw] < raw := fun hlt =>
      absurd ((projection.hidden_below hfirst).mpr hlt) (lt_irrefl _)
    have hne : projection.hidden[projection.hiddenBefore raw] ≠ raw := fun heq =>
      of_decide_eq_true hshown (heq ▸ getElem_mem _)
    rw [getD_eq_getElem?_getD, hget, getD_some]
    omega

theorem rawPosition_eq (visible : ℕ) :
    projection.rawPosition visible = projection.visibleRows[visible]? := by
  rw [rawPosition]
  by_cases hvisible : visible < projection.len
  · rw [if_neg (Nat.not_le_of_lt hvisible)]
    rw [len_eq] at hvisible
    have hget := getElem?_eq_getElem hvisible
    generalize projection.visibleRows[visible] = raw at hget
    obtain ⟨⟨-, hshown⟩, rfl⟩ := kept_get.mp hget
    have hadd := projection.hiddenBefore_add_rank raw
    rw [hget]
    simp only [projection.bisect_hidden hshown, some.injEq]
    omega
  · rw [if_pos (Nat.le_of_not_lt hvisible)]
    rw [len_eq] at hvisible
    exact (getElem?_eq_none (Nat.le_of_not_lt hvisible)).symm

theorem visiblePositionAtOrAfter_eq (raw : ℕ) : projection.visiblePositionAtOrAfter raw =
    (projection.visibleRows.filter fun row => decide (row < raw)).length := by
  rw [visiblePositionAtOrAfter]
  by_cases hraw : raw < projection.index.len
  · rw [if_neg (Nat.not_le_of_lt hraw)]
    obtain ⟨rest, hrest, hlater⟩ := kept_split projection.shown (le_of_lt hraw)
    have hadd := projection.hiddenBefore_add_rank raw
    rw [visibleRows, hrest, filter_append, filter_eq_self.mpr fun row hrow =>
        decide_eq_true (mem_kept.mp hrow).1,
      filter_eq_nil_iff.mpr fun row hrow => by
        simpa using hlater row hrow, append_nil, ← rank]
    omega
  · have hall : ∀ row ∈ projection.visibleRows, decide (row < raw) := fun row hrow =>
      decide_eq_true (lt_of_lt_of_le (mem_kept.mp hrow).1 (Nat.le_of_not_lt hraw))
    rw [if_pos (Nat.le_of_not_lt hraw), len_eq, filter_eq_self.mpr hall]

end HistoryProjection

theorem mem_visibleRows_new {index : HistoryIndex} {hidden : List ℕ} {row : ℕ} :
    row ∈ (HistoryProjection.new index hidden).visibleRows ↔ row < index.len ∧ row ∉ hidden := by
  rw [HistoryProjection.visibleRows, mem_kept, HistoryProjection.shown_iff]
  change row < index.len ∧ row ∉ hiddenRows index.len hidden ↔ _
  rw [mem_hiddenRows]
  constructor
  · exact fun h => ⟨h.1, fun hmem => h.2 ⟨hmem, h.1⟩⟩
  · exact fun h => ⟨h.1, fun hmem => h.2 hmem.1⟩

theorem projection_maps_inverse (index : HistoryIndex) (hidden : List ℕ) :
    let projection := HistoryProjection.new index hidden
    (∀ raw visible : ℕ, projection.visiblePosition raw = some visible ↔
        projection.rawPosition visible = some raw) ∧
      (∀ raw : ℕ, (∃ visible < projection.len, projection.visiblePosition raw = some visible) ↔
        raw < index.len ∧ raw ∉ hidden) ∧
      (∀ visible : ℕ, (∃ raw, projection.rawPosition visible = some raw) ↔
        visible < projection.len) ∧
      (∀ raw raw' visible visible' : ℕ, projection.visiblePosition raw = some visible →
        projection.visiblePosition raw' = some visible' → (visible < visible' ↔ raw < raw')) ∧
      (∀ raw : ℕ, projection.visiblePosition raw = none ↔ raw ∈ hidden ∨ index.len ≤ raw) ∧
      ∀ raw : ℕ, projection.visiblePositionAtOrAfter raw =
        ((range raw).filter fun row => decide (row < index.len ∧ row ∉ hidden)).length := by
  intro projection
  have hmem : ∀ raw : ℕ, raw ∈ projection.visibleRows ↔ raw < index.len ∧ raw ∉ hidden :=
    fun raw => mem_visibleRows_new
  have hsome : ∀ raw : ℕ, (∃ visible, projection.visiblePosition raw = some visible) ↔
      raw < index.len ∧ raw ∉ hidden := by
    intro raw
    rw [← hmem, mem_iff_getElem?]
    exact exists_congr fun visible => projection.visiblePosition_some
  refine ⟨fun raw visible => ?_, fun raw => ?_, fun visible => ?_, ?_, fun raw => ?_, fun raw => ?_⟩
  · rw [projection.visiblePosition_some, projection.rawPosition_eq]
  · rw [← hsome]
    refine exists_congr fun visible => and_iff_right_of_imp fun h => ?_
    rw [projection.len_eq]
    exact (List.getElem?_eq_some_iff.mp (projection.visiblePosition_some.mp h)).1
  · rw [projection.rawPosition_eq, projection.len_eq]
    exact ⟨fun ⟨_, hget⟩ => (List.getElem?_eq_some_iff.mp hget).1,
      fun hlt => ⟨_, getElem?_eq_getElem hlt⟩⟩
  · intro raw raw' visible visible' h h'
    obtain ⟨⟨-, hshown⟩, rfl⟩ := kept_get.mp (projection.visiblePosition_some.mp h)
    obtain ⟨-, rfl⟩ := kept_get.mp (projection.visiblePosition_some.mp h')
    exact rank_lt_rank hshown
  · rw [← not_isSome_iff_eq_none, isSome_iff_exists, hsome]
    by_cases hraw : raw ∈ hidden <;> simp [hraw]
  · rw [projection.visiblePositionAtOrAfter_eq]
    have hnodup : projection.visibleRows.Nodup := kept_nodup _ _
    refine Perm.length_eq ((perm_ext_iff_of_nodup (hnodup.filter _)
      (nodup_range.filter _)).mpr fun row => ?_)
    simp only [mem_filter, decide_eq_true_eq, hmem, mem_range]
    exact and_comm

end GitComet.History
