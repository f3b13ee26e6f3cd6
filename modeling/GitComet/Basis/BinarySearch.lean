import Mathlib.Order.Lattice
import GitComet.Basis.Slice

namespace BinarySearch
open Slice List Nat Option Bool

variable {α : Type*}

def searchLoop (cmp : α → Ordering) (xs : List α) : ℕ → ℕ → ℕ → ℕ
  | 0, start, _ => start
  | fuel + 1, start, size =>
    if size ≤ 1 then start
    else
      let half := size / 2
      let middle := start + half
      let next := if (xs[middle]?).map cmp = some .gt then start else middle
      searchLoop cmp xs fuel next (size - half)

def binarySearchBy (cmp : α → Ordering) (xs : List α) : Except ℕ ℕ :=
  if xs.isEmpty then .error 0
  else
    let start := searchLoop cmp xs xs.length 0 xs.length
    match (xs[start]?).map cmp with
    | some .eq => .ok start
    | some .lt => .error (start + 1)
    | _ => .error start

def partitionPoint (p : α → Bool) (xs : List α) : ℕ :=
  match binarySearchBy (fun x => if p x then .lt else .gt) xs with
  | .ok index => index
  | .error index => index

def bisect (p : ℕ → Bool) : ℕ → ℕ → ℕ → ℕ
  | 0, low, _ => low
  | fuel + 1, low, high =>
    if low < high then
      let middle := low + (high - low) / 2
      if p middle then bisect p fuel (middle + 1) high else bisect p fuel low middle
    else low

theorem bisect_spec {p : ℕ → Bool} {cut : ℕ} (stop : ℕ) (hbelow : ∀ i < cut, p i)
    (habove : ∀ i, cut ≤ i → i < stop → p i = false) : ∀ {fuel low high : ℕ},
    high - low ≤ fuel → low ≤ cut → cut ≤ high → high ≤ stop → bisect p fuel low high = cut := by
  intro fuel
  induction fuel with
  | zero =>
    intro low high hfuel hlow hhigh _
    rw [bisect]
    omega
  | succ fuel ih =>
    intro low high hfuel hlow hhigh hstop
    rw [bisect]
    by_cases hlt : low < high
    · rw [if_pos hlt]
      dsimp only
      by_cases hmiddle : low + (high - low) / 2 < cut
      · rw [hbelow _ hmiddle, if_pos rfl]
        exact ih (by omega) (by omega) hhigh hstop
      · rw [habove _ (by omega) (by omega), if_neg Bool.false_ne_true]
        exact ih (by omega) hlow (by omega) (by omega)
    · rw [if_neg hlt]
      omega

structure Cut (cmp : α → Ordering) (low mid high : List α) : Prop where
  low : ∀ x ∈ low, cmp x = .lt
  mid : ∀ x ∈ mid, cmp x = .eq
  high : ∀ x ∈ high, cmp x = .gt

section
variable {cmp : α → Ordering} {low mid high : List α}

theorem Cut.index (h : Cut cmp low mid high) {i : ℕ} (hi : i < (low ++ (mid ++ high)).length) :
    ∃ order, ((low ++ (mid ++ high))[i]?).map cmp = some order ∧ (order = .lt ↔ i < low.length) ∧
      (order = .gt ↔ low.length + mid.length ≤ i) := by
  rw [getElem?_eq_getElem hi, map_some]
  refine ⟨_, rfl, ?_⟩
  by_cases hlow : i < low.length
  · rw [getElem_append_left hlow, h.low _ (getElem_mem _)]
    exact ⟨⟨fun _ => hlow, fun _ => rfl⟩, ⟨nofun, fun _ => by omega⟩⟩
  by_cases hmid : i - low.length < mid.length
  · rw [getElem_append_right (by omega), getElem_append_left hmid,
      h.mid _ (getElem_mem _)]
    exact ⟨⟨nofun, fun h => absurd h hlow⟩, ⟨nofun, fun _ => by omega⟩⟩
  · rw [getElem_append_right (by omega), getElem_append_right (by omega),
      h.high _ (getElem_mem _)]
    exact ⟨⟨nofun, fun h => absurd h hlow⟩, ⟨fun _ => by omega, fun _ => rfl⟩⟩

theorem searchLoop_spec (h : Cut cmp low mid high) : ∀ {fuel start size : ℕ},
    size ≤ fuel → 0 < size → start + size ≤ (low ++ (mid ++ high)).length →
    (start = 0 ∨ start < low.length + mid.length) → low.length + mid.length ≤ start + size →
    ∃ found, searchLoop cmp (low ++ (mid ++ high)) fuel start size = found ∧
      found < (low ++ (mid ++ high)).length ∧ (found = 0 ∨ found < low.length + mid.length) ∧
      low.length + mid.length ≤ found + 1 := by
  intro fuel
  induction fuel with
  | zero => exact fun hfuel hpos => absurd hpos (by omega)
  | succ fuel ih =>
    intro start size hfuel hpos hroom hstart hstop
    unfold searchLoop
    by_cases hone : size ≤ 1
    · rw [if_pos hone]
      exact ⟨start, rfl, by omega, hstart, by omega⟩
    · rw [if_neg hone]
      obtain ⟨order, horder, -, hgt⟩ := h.index (i := start + size / 2) (by omega)
      simp only [horder, some.injEq, hgt]
      by_cases hmid : low.length + mid.length ≤ start + size / 2
      · rw [if_pos hmid]
        exact ih (by omega) (by omega) (by omega) hstart (by omega)
      · rw [if_neg hmid]
        exact ih (by omega) (by omega) (by omega) (Or.inr (by omega)) (by omega)

theorem binarySearchBy_found (h : Cut cmp low mid high) (hat : mid ≠ []) :
    binarySearchBy cmp (low ++ (mid ++ high)) = .ok (low.length + mid.length - 1) := by
  have hpos := length_pos_of_ne_nil hat
  have hlength : (low ++ (mid ++ high)).length = low.length + (mid.length + high.length) := by
    simp
  obtain ⟨found, hloop, hlt, hlow, hhigh⟩ := searchLoop_spec h
    (le_refl (low ++ (mid ++ high)).length) (by omega) (by omega) (Or.inl rfl) (by omega)
  have hfound : found = low.length + mid.length - 1 := by omega
  obtain ⟨order, horder, hisLt, hisGt⟩ := h.index hlt
  have heq : order = .eq := by
    cases order with
    | eq => rfl
    | lt => exact absurd (hisLt.mp rfl) (by omega)
    | gt => exact absurd (hisGt.mp rfl) (by omega)
  have hempty : (low ++ (mid ++ high)).isEmpty = false := by
    rw [isEmpty_eq_false_iff]
    exact ne_nil_of_length_pos (by omega)
  rw [hfound, heq] at horder
  simp only [binarySearchBy, hempty, false_eq_true, if_false, hloop, hfound, horder]

theorem binarySearchBy_missing (h : Cut cmp low [] high) :
    binarySearchBy cmp (low ++ high) = .error low.length := by
  by_cases hempty : low ++ high = []
  · rw [append_eq_nil_iff] at hempty
    rw [hempty.1, hempty.2]
    rfl
  have hpos := length_pos_of_ne_nil hempty
  obtain ⟨found, hloop, hlt, hlow, hhigh⟩ := searchLoop_spec h (le_refl _)
    hpos (by simp) (Or.inl rfl) (by simp)
  obtain ⟨order, horder, hisLt, hisGt⟩ := h.index hlt
  simp only [nil_append, length_nil, Nat.add_zero] at hloop horder hlow hhigh hisGt
  simp only [binarySearchBy, isEmpty_eq_false_iff.mpr hempty, false_eq_true, if_false,
    hloop, horder]
  cases order with
  | eq =>
    by_cases hfound : found < low.length
    · cases hisLt.mpr hfound
    · cases hisGt.mpr (by omega)
  | lt =>
    have := hisLt.mp rfl
    simp only [Except.error.injEq]
    omega
  | gt =>
    have := hisGt.mp rfl
    simp only [Except.error.injEq]
    omega

end

theorem partitionPoint_append {p : α → Bool} {front back : List α}
    (hfront : ∀ x ∈ front, p x) (hback : ∀ x ∈ back, p x = false) :
    partitionPoint p (front ++ back) = front.length := by
  have hcut : Cut (fun x => if p x then Ordering.lt else .gt) front [] back :=
    ⟨fun x hx => if_pos (hfront x hx), by simp, fun x hx => by simp [hback x hx]⟩
  rw [partitionPoint, binarySearchBy_missing hcut]

theorem getElem?_partitionPoint {p : α → Bool} {xs : List α}
    (h : xs.Pairwise fun x y => p y → p x) :
    xs[partitionPoint p xs]? = xs.find? fun x => !p x := by
  suffices hsplit : ∃ front back, xs = front ++ back ∧ (∀ x ∈ front, p x) ∧
      (∀ x ∈ back, p x = false) by
    obtain ⟨front, back, rfl, hfront, hback⟩ := hsplit
    have hnone : front.find? (fun x => !p x) = none :=
      find?_eq_none.mpr fun x hx => by simp [hfront x hx]
    rw [partitionPoint_append hfront hback, getElem?_append_right (le_refl _),
      Nat.sub_self, find?_append, hnone, none_or]
    cases back with
    | nil => rfl
    | cons x back => simp [hback x (mem_cons_self ..)]
  induction xs with
  | nil => exact ⟨[], [], rfl, by simp, by simp⟩
  | cons x xs ih =>
    obtain ⟨hx, hrest⟩ := pairwise_cons.mp h
    cases hp : p x with
    | false =>
      refine ⟨[], x :: xs, rfl, by simp, fun y hy => ?_⟩
      rcases mem_cons.mp hy with rfl | hy
      · exact hp
      · exact eq_false_iff.mpr fun hpy => by simp [hx y hy hpy] at hp
    | true =>
      obtain ⟨front, back, rfl, hfront, hback⟩ := ih hrest
      exact ⟨x :: front, back, rfl, forall_mem_cons.mpr ⟨hp, hfront⟩, hback⟩

section
variable {β : Type*} [LinearOrder β] {key : α → β} {xs : List α}

section
variable (h : xs.Pairwise fun x y => key x ≤ key y)
include h

theorem sorted_cut (target : β) :
    xs = xs.filter (fun x => decide (key x < target)) ++
      (xs.filter (fun x => decide (key x = target)) ++
        xs.filter fun x => decide (target < key x)) := by
  induction xs with
  | nil => rfl
  | cons x xs ih =>
    obtain ⟨hle, hrest⟩ := pairwise_cons.mp h
    rcases lt_trichotomy (key x) target with hlt | heq | hgt
    · simp only [filter_cons, hlt, decide_true, if_true, ne_of_lt hlt, decide_false,
        false_eq_true, if_false, not_lt_of_gt hlt, cons_append]
      rw [← ih hrest]
    · have hnone : xs.filter (fun y => decide (key y < target)) = [] :=
        filter_eq_nil_iff.mpr fun y hy => by simpa [heq] using hle y hy
      have htail := ih hrest
      rw [hnone, nil_append] at htail
      simp only [filter_cons, heq, lt_irrefl, decide_false, false_eq_true, if_false,
        decide_true, if_true, hnone, nil_append, cons_append]
      rw [← htail]
    · have hall : xs.filter (fun y => decide (target < key y)) = xs :=
        filter_eq_self.mpr fun y hy => decide_eq_true (lt_of_lt_of_le hgt (hle y hy))
      have hnone : xs.filter (fun y => decide (key y < target)) = [] :=
        filter_eq_nil_iff.mpr fun y hy => by
          simpa using le_of_lt (lt_of_lt_of_le hgt (hle y hy))
      have hnone' : xs.filter (fun y => decide (key y = target)) = [] :=
        filter_eq_nil_iff.mpr fun y hy => by
          simpa using ne_of_gt (lt_of_lt_of_le hgt (hle y hy))
      simp only [filter_cons, hgt, decide_true, if_true, ne_of_gt hgt, decide_false,
        false_eq_true, if_false, not_lt_of_gt hgt, hnone, hnone', hall, nil_append]

theorem partitionPoint_sorted (target : β) :
    partitionPoint (fun x => decide (key x < target)) xs =
      xs.countP fun x => decide (key x < target) := by
  have hsplit := sorted_cut h target
  rw [countP_eq_length_filter]
  nth_rewrite 1 [hsplit]
  refine partitionPoint_append (fun x hx => (mem_filter.mp hx).2) fun x hx => ?_
  rcases mem_append.mp hx with hx | hx
  · have := of_decide_eq_true (mem_filter.mp hx).2
    exact decide_eq_false (this ▸ lt_irrefl _)
  · exact decide_eq_false (not_lt_of_gt (of_decide_eq_true (mem_filter.mp hx).2))

theorem partitionPoint_key (target : β)
    {p : α → Bool} (hp : ∀ x ∈ xs, p x = decide (key x < target)) :
    partitionPoint p xs = partitionPoint (fun x => decide (key x < target)) xs := by
  have hsplit := sorted_cut h target
  have hmem : ∀ {x : α}, x ∈ xs.filter (fun x => decide (key x < target)) → p x :=
    fun hx => (hp _ (mem_of_mem_filter hx)).trans (mem_filter.mp hx).2
  rw [partitionPoint_sorted h, countP_eq_length_filter]
  nth_rewrite 1 [hsplit]
  refine partitionPoint_append (fun x => hmem) fun x hx => ?_
  rcases mem_append.mp hx with hx | hx
  · rw [hp x (mem_of_mem_filter hx), of_decide_eq_true (mem_filter.mp hx).2]
    exact decide_eq_false (lt_irrefl _)
  · rw [hp x (mem_of_mem_filter hx)]
    exact decide_eq_false (not_lt_of_gt (of_decide_eq_true (mem_filter.mp hx).2))

theorem sorted_below (target : β) {i : ℕ} {x : α} (hx : xs[i]? = some x) :
    i < partitionPoint (fun x => decide (key x < target)) xs ↔ key x < target := by
  have hsplit := sorted_cut h target
  rw [partitionPoint_sorted h, countP_eq_length_filter]
  rw [hsplit] at hx
  constructor
  · intro hi
    rw [getElem?_append_left hi] at hx
    exact of_decide_eq_true (mem_filter.mp (mem_of_getElem? hx)).2
  · intro hlt
    by_contra hi
    rw [getElem?_append_right (Nat.le_of_not_lt hi)] at hx
    rcases mem_append.mp (mem_of_getElem? hx) with hmem | hmem
    · have := of_decide_eq_true (mem_filter.mp hmem).2
      exact lt_irrefl _ (this ▸ hlt)
    · exact lt_asymm hlt (of_decide_eq_true (mem_filter.mp hmem).2)

theorem only_between (hnodup : xs.Nodup) (low high : β)
    (x : α) :
    let start := partitionPoint (fun y => decide (key y < low)) xs
    (xs[start]? = some x ∧ key x ≤ high ∧ ∀ y, xs[start + 1]? = some y → ¬key y ≤ high) ↔
      (x ∈ xs ∧ low ≤ key x ∧ key x ≤ high) ∧
        ∀ y ∈ xs, low ≤ key y → key y ≤ high → y = x := by
  intro start
  have hbelow : ∀ {i : ℕ} {y : α}, xs[i]? = some y → (i < start ↔ key y < low) :=
    fun hy => sorted_below h low hy
  have hmono : ∀ {i j : ℕ} {y z : α}, xs[i]? = some y → xs[j]? = some z → i < j →
      key y ≤ key z := by
    intro i j y z hy hz hij
    obtain ⟨hi, rfl⟩ := List.getElem?_eq_some_iff.mp hy
    obtain ⟨hj, rfl⟩ := List.getElem?_eq_some_iff.mp hz
    exact List.pairwise_iff_getElem.mp h i j hi hj hij
  constructor
  · rintro ⟨hx, hle, hnext⟩
    have hlow : low ≤ key x := le_of_not_gt fun hlt =>
      absurd ((hbelow hx).mpr hlt) (lt_irrefl _)
    refine ⟨⟨mem_of_getElem? hx, hlow, hle⟩, fun y hy hmin hmax => ?_⟩
    obtain ⟨i, hi⟩ := List.mem_iff_getElem?.mp hy
    have hge : start ≤ i := Nat.le_of_not_lt fun hlt => not_lt_of_ge hmin ((hbelow hi).mp hlt)
    rcases lt_or_eq_of_le hge with hlt | rfl
    · obtain ⟨hroom, -⟩ := List.getElem?_eq_some_iff.mp hi
      have hsecond := getElem?_eq_getElem (lt_of_le_of_lt (succ_le_of_lt hlt) hroom)
      rcases lt_or_eq_of_le (succ_le_of_lt hlt) with hfar | rfl
      · exact absurd (le_trans (hmono hsecond hi hfar) hmax) (hnext _ hsecond)
      · exact absurd hmax (hnext y hi)
    · exact some.inj (hi.symm.trans hx)
  · rintro ⟨⟨hmem, hmin, hmax⟩, honly⟩
    obtain ⟨i, hi⟩ := List.mem_iff_getElem?.mp hmem
    obtain ⟨hroom, -⟩ := List.getElem?_eq_some_iff.mp hi
    have hge : start ≤ i := Nat.le_of_not_lt fun hlt => not_lt_of_ge hmin ((hbelow hi).mp hlt)
    have hfirst := getElem?_eq_getElem (lt_of_le_of_lt hge hroom)
    have hstart : i = start := by
      rcases lt_or_eq_of_le hge with hlt | heq
      · have hat : low ≤ key xs[start] := le_of_not_gt fun hbad =>
          absurd ((hbelow hfirst).mpr hbad) (lt_irrefl _)
        have hsame := honly _ (getElem_mem _) hat (le_trans (hmono hfirst hi hlt) hmax)
        exact (getElem?_inj hroom hnodup).mp (hi.trans (hfirst.trans (congrArg some hsame)).symm)
      · exact heq.symm
    subst hstart
    refine ⟨hi, hmax, fun y hy hle => ?_⟩
    obtain ⟨hroom', -⟩ := List.getElem?_eq_some_iff.mp hy
    have hsame := honly y (mem_of_getElem? hy)
      (le_trans hmin (hmono hi hy (lt_succ_self _))) hle
    have := (getElem?_inj hroom' hnodup).mp (hy.trans ((congrArg some hsame).trans hi.symm))
    omega

end

theorem filter_cut (cmp : α → Ordering) (target : β)
    (hcmp : ∀ x ∈ xs, cmp x = compare (key x) target) :
    Cut cmp (xs.filter fun x => decide (key x < target))
      (xs.filter fun x => decide (key x = target))
      (xs.filter fun x => decide (target < key x)) where
  low x hx := by
    obtain ⟨hmem, hlt⟩ := mem_filter.mp hx
    rw [hcmp x hmem, compare_lt_iff_lt]
    exact of_decide_eq_true hlt
  mid x hx := by
    obtain ⟨hmem, heq⟩ := mem_filter.mp hx
    rw [hcmp x hmem, compare_eq_iff_eq]
    exact of_decide_eq_true heq
  high x hx := by
    obtain ⟨hmem, hgt⟩ := mem_filter.mp hx
    rw [hcmp x hmem, compare_gt_iff_gt]
    exact of_decide_eq_true hgt

theorem sorted_only (h : xs.Pairwise fun x y => key x < key y) {x : α} {target : β} (hx : x ∈ xs)
    (hkey : key x = target) : xs.filter (fun y => decide (key y = target)) = [x] := by
  have hmem : x ∈ xs.filter fun y => decide (key y = target) :=
    mem_filter.mpr ⟨hx, decide_eq_true hkey⟩
  have hpair := h.filter fun y => decide (key y = target)
  have hall : ∀ y ∈ xs.filter fun y => decide (key y = target), key y = target :=
    fun y hy => of_decide_eq_true (mem_filter.mp hy).2
  generalize xs.filter (fun y => decide (key y = target)) = same at hmem hpair hall
  match same with
  | [] => cases hmem
  | [y] => rw [mem_singleton.mp hmem]
  | y :: z :: rest =>
    have hlt := rel_of_pairwise_cons hpair mem_cons_self
    rw [hall y mem_cons_self, hall z (by simp)] at hlt
    exact absurd hlt (lt_irrefl _)

theorem binarySearchBy_sorted (h : xs.Pairwise fun x y => key x < key y) {cmp : α → Ordering}
    {target : β} (hcmp : ∀ x ∈ xs, cmp x = compare (key x) target) :
    (∀ x ∈ xs, key x = target → ∃ i, binarySearchBy cmp xs = .ok i ∧ xs[i]? = some x) ∧
      ((∀ x ∈ xs, key x ≠ target) → ∃ i, binarySearchBy cmp xs = .error i) := by
  have hsplit := sorted_cut (h.imp le_of_lt) target
  have hcut := filter_cut cmp target hcmp
  refine ⟨fun x hx hkey => ?_, fun hnone => ?_⟩
  · have honly := sorted_only h hx hkey
    rw [honly] at hcut hsplit
    have hfound := binarySearchBy_found hcut (cons_ne_nil _ _)
    rw [← hsplit] at hfound
    refine ⟨_, hfound, ?_⟩
    rw [length_singleton, Nat.add_sub_cancel]
    nth_rewrite 1 [hsplit]
    rw [getElem?_append_right (le_refl _), Nat.sub_self]
    rfl
  · have hempty : xs.filter (fun y => decide (key y = target)) = [] :=
      filter_eq_nil_iff.mpr fun y hy => by simpa using hnone y hy
    rw [hempty] at hcut hsplit
    have hmissing := binarySearchBy_missing hcut
    rw [nil_append] at hsplit
    rw [← hsplit] at hmissing
    exact ⟨_, hmissing⟩

theorem equal_run (h : xs.Pairwise fun x y => key x ≤ key y) (target : β) :
    let after := xs.drop (partitionPoint (fun x => decide (key x < target)) xs)
    after.take (partitionPoint (fun x => decide (key x = target)) after) =
      xs.filter fun x => decide (key x = target) := by
  have hsplit := sorted_cut h target
  have hlow : ∀ x ∈ xs.filter (fun x => decide (key x < target)),
      decide (key x < target) := fun x hx => (mem_filter.mp hx).2
  have hmid : ∀ x ∈ xs.filter (fun x => decide (key x = target)),
      decide (key x = target) := fun x hx => (mem_filter.mp hx).2
  have hhigh : ∀ x ∈ xs.filter (fun x => decide (target < key x)),
      target < key x := fun x hx => of_decide_eq_true (mem_filter.mp hx).2
  generalize xs.filter (fun x => decide (key x < target)) = low at hsplit hlow
  generalize xs.filter (fun x => decide (key x = target)) = mid at hsplit hmid ⊢
  generalize xs.filter (fun x => decide (target < key x)) = high at hsplit hhigh
  have hfirst : partitionPoint (fun x => decide (key x < target)) xs = low.length := by
    rw [hsplit]
    refine partitionPoint_append hlow fun x hx => decide_eq_false ?_
    rcases mem_append.mp hx with hx | hx
    · rw [of_decide_eq_true (hmid x hx)]
      exact lt_irrefl _
    · exact not_lt_of_gt (hhigh x hx)
  have hdrop : xs.drop low.length = mid ++ high := by
    rw [hsplit, drop_left]
  simp only [hfirst, hdrop]
  rw [partitionPoint_append hmid fun x hx => decide_eq_false (ne_of_gt (hhigh x hx)), take_left]

end

theorem countP_below (bucket : α → ℕ) (xs : List α) (n : ℕ) :
    xs.countP (fun x => decide (bucket x < n + 1)) =
      xs.countP (fun x => decide (bucket x < n)) + xs.countP fun x => decide (bucket x = n) := by
  induction xs with
  | nil => rfl
  | cons x xs ih =>
    simp only [countP_cons, ih, decide_eq_true_eq]
    split <;> split <;> split <;> omega

theorem sorted_bucket {b : α → ℕ} {xs : List α} (h : xs.Pairwise fun x y => b x ≤ b y) (n : ℕ) :
    sliceOf xs (xs.countP fun x => decide (b x < n)) (xs.countP fun x => decide (b x < n + 1)) =
      some (xs.filter fun x => decide (b x = n)) := by
  have hsplit := sorted_cut h n
  rw [countP_below, countP_eq_length_filter, countP_eq_length_filter]
  generalize xs.filter (fun x => decide (b x < n)) = low at hsplit
  generalize xs.filter (fun x => decide (b x = n)) = mid at hsplit
  rw [hsplit, sliceOf_eq (le_add_right _ _) (by simp only [length_append]; omega), slice,
    drop_left, Nat.add_sub_cancel_left, take_left]

end BinarySearch
