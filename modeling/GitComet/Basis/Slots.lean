import Mathlib.Data.List.DropRight

namespace GitComet.Slots
open List Nat

variable {α β : Type*}

def slotAt (slots : List (Option α)) (col : ℕ) : Option α := slots[col]?.join

def holeFrom (slots : List (Option α)) (start : ℕ) : ℕ :=
  let start := min start slots.length
  start + (slots.drop start).findIdx Option.isNone

def pickHole (slots : List (Option α)) (prefer : ℕ) : ℕ :=
  let preferred := holeFrom slots prefer
  if preferred < slots.length then preferred else holeFrom slots 0

def place (slots : List (Option α)) (col : ℕ) (x : α) : List (Option α) :=
  if col = slots.length then slots ++ [some x] else slots.set col (some x)

def alter (slots : List (Option α)) (col : ℕ) (f : α → α) : List (Option α) :=
  slots.modify col (Option.map f)

def vacate (slots : List (Option α)) (col : ℕ) : List (Option α) := slots.set col none

def trim (slots : List (Option α)) : List (Option α) := slots.rdropWhile Option.isNone

def across (f : α → β) (slots : List (Option α)) : List (Option β) := slots.map (Option.map f)

def columns (p : α → Bool) (slots : List (Option α)) : List ℕ :=
  (range slots.length).filter fun col => (slotAt slots col).any p

section

variable (slots : List (Option α)) {col other : ℕ} {x : α}

theorem slotAt_of_length_le (h : slots.length ≤ col) : slotAt slots col = none := by
  rw [slotAt, getElem?_eq_none h, Option.join_none]

theorem lt_length_of_slotAt (h : slotAt slots col = some x) : col < slots.length := by
  by_contra hge
  rw [slotAt_of_length_le slots (Nat.le_of_not_lt hge)] at h
  cases h

theorem slotAt_place (h : col ≤ slots.length) :
    slotAt (place slots col x) other = if other = col then some x else slotAt slots other := by
  rw [place, slotAt, slotAt]
  split_ifs with hlast hsame hsame
  · rw [hsame, hlast, getElem?_concat_length, Option.join_some]
  · rw [hlast] at hsame
    rcases lt_or_gt_of_ne hsame with hlt | hgt
    · rw [getElem?_append_left hlt]
    · rw [getElem?_eq_none (le_of_lt hgt), getElem?_eq_none]
      rw [length_append]
      exact hgt
  · rw [hsame, getElem?_set_self (lt_of_le_of_ne h hlast), Option.join_some]
  · rw [getElem?_set_ne (Ne.symm hsame)]

theorem slotAt_vacate :
    slotAt (vacate slots col) other = if other = col then none else slotAt slots other := by
  rw [vacate, slotAt, slotAt]
  split_ifs with hsame
  · rw [hsame, getElem?_set_self']
    cases slots[col]? <;> rfl
  · rw [getElem?_set_ne (Ne.symm hsame)]

theorem slotAt_alter (f : α → α) :
    slotAt (alter slots col f) other =
      if other = col then (slotAt slots other).map f else slotAt slots other := by
  rw [alter, slotAt, slotAt, getElem?_modify]
  split_ifs with hcol hsame hsame
  · cases slots[other]? with
    | none => rfl
    | some slot => rfl
  · exact absurd hcol.symm hsame
  · exact absurd hsame.symm hcol
  · cases slots[other]? <;> rfl

theorem length_place (h : col ≤ slots.length) :
    (place slots col x).length = max slots.length (col + 1) := by
  rw [place]
  split_ifs with hlast
  · rw [length_append, hlast]
    exact (max_eq_right (le_succ _)).symm
  · rw [length_set]
    omega

variable {slots} in
theorem alter_of_none (f : α → α) (h : slotAt slots col = none) : alter slots col f = slots := by
  refine ext_getElem? fun other => ?_
  rw [alter, getElem?_modify]
  split_ifs with hsame
  · rw [← hsame]
    rw [slotAt] at h
    cases hslot : slots[col]? with
    | none => rfl
    | some slot =>
      rw [hslot, Option.join_some] at h
      rw [h]
      rfl
  · cases slots[other]? <;> rfl

variable {slots} in
theorem vacate_of_none (h : slotAt slots col = none) : vacate slots col = slots := by
  refine ext_getElem? fun other => ?_
  rw [vacate, getElem?_set]
  split_ifs with hsame hlt
  · rw [slotAt, getElem?_eq_getElem hlt, Option.join_some] at h
    rw [← hsame, getElem?_eq_getElem hlt, h]
  · rw [← hsame, getElem?_eq_none (Nat.le_of_not_lt hlt)]
  · rfl

theorem slotAt_trim : slotAt (trim slots) col = slotAt slots col := by
  induction slots using reverseRecOn with
  | nil => rfl
  | append_singleton slots slot ih =>
    rw [trim, rdropWhile_concat]
    split_ifs with hnone
    · rw [← trim, ih, slotAt, slotAt]
      rcases lt_trichotomy col slots.length with hlt | rfl | hgt
      · rw [getElem?_append_left hlt]
      · rw [getElem?_concat_length, Option.isNone_iff_eq_none.mp hnone,
          getElem?_eq_none (le_refl _)]
        rfl
      · rw [getElem?_eq_none (le_of_lt hgt), getElem?_eq_none]
        rw [length_append]
        exact hgt
    · rfl

variable {p : α → Bool}

theorem countP_place (hle : col ≤ slots.length) (h : slotAt slots col = none) :
    (place slots col x).countP (fun slot => slot.any p) =
      slots.countP (fun slot => slot.any p) + if p x then 1 else 0 := by
  rw [place]
  split_ifs with hlast hx hx
  · rw [countP_append, countP_singleton, Option.any_some, if_pos hx]
  · rw [countP_append, countP_singleton, Option.any_some, if_neg hx]
  all_goals
    have hlt := lt_of_le_of_ne hle hlast
    rw [slotAt, getElem?_eq_getElem hlt, Option.join_some] at h
    simp [countP_set hlt, h, hx]

theorem countP_vacate (h : slotAt slots col = some x) :
    (vacate slots col).countP (fun slot => slot.any p) =
      slots.countP (fun slot => slot.any p) - if p x then 1 else 0 := by
  have hlt := lt_length_of_slotAt slots h
  rw [slotAt, getElem?_eq_getElem hlt, Option.join_some] at h
  simp [vacate, countP_set hlt, h]

theorem countP_alter (f : α → α) (h : slotAt slots col = some x) :
    (alter slots col f).countP (fun slot => slot.any p) =
      slots.countP (fun slot => slot.any p) - (if p x then 1 else 0) +
        if p (f x) then 1 else 0 := by
  have hlt := lt_length_of_slotAt slots h
  rw [slotAt, getElem?_eq_getElem hlt, Option.join_some] at h
  have hset : alter slots col f = slots.set col (some (f x)) := by
    refine ext_getElem? fun other => ?_
    rw [alter, getElem?_modify, getElem?_set]
    split_ifs with hsame
    · rw [← hsame, getElem?_eq_getElem hlt, h]
      rfl
    · cases slots[other]? <;> rfl
  simp [hset, countP_set hlt, h]

theorem countP_trim :
    (trim slots).countP (fun slot => slot.any p) = slots.countP fun slot => slot.any p := by
  induction slots using reverseRecOn with
  | nil => rfl
  | append_singleton slots slot ih =>
    rw [trim, rdropWhile_concat]
    split_ifs with hnone
    · rw [countP_append, countP_singleton, Option.isNone_iff_eq_none.mp hnone,
        Option.any_none, if_neg Bool.false_ne_true]
      exact ih
    · rfl

theorem mem_columns : col ∈ columns p slots ↔ ∃ x, slotAt slots col = some x ∧ p x := by
  rw [columns, mem_filter, mem_range, Option.any_eq_true]
  constructor
  · rintro ⟨-, x, hx, hp⟩
    exact ⟨x, hx, hp⟩
  · rintro ⟨x, hx, hp⟩
    exact ⟨lt_length_of_slotAt slots hx, x, hx, hp⟩

theorem eq_of_sorted {xs ys : List ℕ} (hx : xs.Pairwise (· < ·)) (hy : ys.Pairwise (· < ·))
    (hmem : ∀ n, n ∈ xs ↔ n ∈ ys) : xs = ys :=
  Perm.eq_of_pairwise (fun _ _ _ _ => le_antisymm) (hx.imp le_of_lt)
    (hy.imp le_of_lt) ((perm_ext_iff_of_nodup (hx.imp ne_of_lt)
      (hy.imp ne_of_lt)).mpr hmem)

theorem min_eq_head {xs ys : List ℕ} (hy : ys.Pairwise (· < ·)) (hmem : ∀ n, n ∈ xs ↔ n ∈ ys) :
    xs.min? = ys.head? := by
  rw [← min?_eq_head? (hy.imp fun hlt => min_eq_left (le_of_lt hlt))]
  refine Option.ext fun n => ?_
  rw [min?_eq_some_iff, min?_eq_some_iff]
  simp only [hmem]

theorem any_iff :
    (slots.any fun slot => slot.any p) ↔ ∃ col x, slotAt slots col = some x ∧ p x := by
  rw [any_eq_true]
  constructor
  · rintro ⟨slot, hslot, hp⟩
    obtain ⟨col, hcol⟩ := mem_iff_getElem?.mp hslot
    obtain ⟨x, rfl, hx⟩ := (Option.any_eq_true _ _).mp hp
    exact ⟨col, x, by rw [slotAt, hcol, Option.join_some], hx⟩
  · rintro ⟨col, x, hcol, hx⟩
    rw [slotAt, Option.join_eq_some_iff] at hcol
    exact ⟨some x, mem_of_getElem? hcol, hx⟩

theorem columns_sorted (p : α → Bool) : (columns p slots).Pairwise (· < ·) :=
  pairwise_lt_range.filter _

theorem holeFrom_le (start : ℕ) : holeFrom slots start ≤ slots.length := by
  have hle : (slots.drop (min start slots.length)).findIdx Option.isNone ≤
      (slots.drop (min start slots.length)).length := findIdx_le_length
  rw [length_drop] at hle
  rw [holeFrom]
  omega

theorem slotAt_holeFrom (start : ℕ) : slotAt slots (holeFrom slots start) = none := by
  rcases lt_or_ge (holeFrom slots start) slots.length with hlt | hge
  · have hidx : (slots.drop (min start slots.length)).findIdx Option.isNone <
        (slots.drop (min start slots.length)).length := by
      rw [holeFrom] at hlt
      rw [length_drop]
      omega
    have hnone := findIdx_getElem (w := hidx)
    rw [getElem_drop, Option.isNone_iff_eq_none] at hnone
    rw [slotAt, getElem?_eq_getElem hlt]
    exact congrArg Option.join (congrArg some hnone)
  · exact slotAt_of_length_le slots hge

variable {slots} in
theorem holeFrom_eq_of_least {start : ℕ} (hge : start ≤ col) (hhole : slots[col]? = some none)
    (hleast : ∀ other, start ≤ other → slots[other]? = some none → col ≤ other) :
    holeFrom slots start = col := by
  obtain ⟨hlt, hcol⟩ := List.getElem?_eq_some_iff.mp hhole
  have hmin : min start slots.length = start :=
    min_eq_left (le_of_lt (lt_of_le_of_lt hge hlt))
  have hidx : (slots.drop start).findIdx Option.isNone = col - start := by
    rw [findIdx_eq (by rw [length_drop]; omega)]
    constructor
    · rw [getElem_drop]
      have hsum : start + (col - start) = col := by omega
      simp only [hsum, hcol, Option.isNone_none]
    · intro ix hix
      rw [getElem_drop, Bool.eq_false_iff]
      intro hnone
      have hother := hleast (start + ix) (le_add_right _ _) (by
        rw [getElem?_eq_getElem (by omega), Option.isNone_iff_eq_none.mp hnone])
      omega
  rw [holeFrom, hmin, hidx]
  omega

variable {slots} in
theorem holeFrom_eq_length {start : ℕ}
    (hnone : ∀ other, start ≤ other → slots[other]? ≠ some none) :
    holeFrom slots start = slots.length := by
  have hidx : (slots.drop (min start slots.length)).findIdx Option.isNone =
      (slots.drop (min start slots.length)).length := by
    rw [findIdx_eq_length]
    intro slot hslot
    obtain ⟨ix, hix, rfl⟩ := getElem_of_mem hslot
    rw [length_drop] at hix
    rw [getElem_drop, Bool.eq_false_iff]
    intro hisNone
    refine hnone (min start slots.length + ix) (by omega) ?_
    rw [getElem?_eq_getElem (by omega), Option.isNone_iff_eq_none.mp hisNone]
  rw [holeFrom, hidx, length_drop]
  omega

theorem pickHole_le (prefer : ℕ) : pickHole slots prefer ≤ slots.length := by
  rw [pickHole]
  split_ifs
  · exact holeFrom_le slots prefer
  · exact holeFrom_le slots 0

theorem slotAt_pickHole (prefer : ℕ) : slotAt slots (pickHole slots prefer) = none := by
  rw [pickHole]
  split_ifs
  · exact slotAt_holeFrom slots prefer
  · exact slotAt_holeFrom slots 0

end

def Each (P : ℕ → α → Prop) (slots : List (Option α)) : Prop :=
  ∀ col x, slotAt slots col = some x → P col x

theorem each_nil {P : ℕ → α → Prop} : Each P [] := by
  intro col x hslot
  rw [slotAt_of_length_le _ (Nat.zero_le _)] at hslot
  cases hslot

section

variable {P Q : ℕ → α → Prop} {slots : List (Option α)} {col : ℕ} {x : α} (h : Each P slots)
include h

theorem Each.mono (hsub : ∀ col x, P col x → Q col x) : Each Q slots :=
  fun col x hslot => hsub col x (h col x hslot)

theorem Each.place (hx : P col x) : Each P (place slots col x) := by
  intro other y hslot
  rcases lt_or_ge slots.length col with hlt | hle
  · rw [Slots.place, if_neg (ne_of_gt hlt), set_eq_of_length_le (le_of_lt hlt)] at hslot
    exact h other y hslot
  · rw [slotAt_place _ hle] at hslot
    split_ifs at hslot with hsame
    · cases hslot
      exact hsame ▸ hx
    · exact h other y hslot

theorem Each.alter {f : α → α} (hf : ∀ x, P col x → P col (f x)) : Each P (alter slots col f) := by
  intro other y hslot
  rw [slotAt_alter] at hslot
  split_ifs at hslot with hsame
  · obtain ⟨old, hold, rfl⟩ := Option.map_eq_some_iff.mp hslot
    exact hsame ▸ hf old (hsame ▸ h other old hold)
  · exact h other y hslot

theorem Each.vacate (col : ℕ) : Each P (vacate slots col) := by
  intro other y hslot
  rw [slotAt_vacate] at hslot
  split_ifs at hslot
  exact h other y hslot

theorem Each.trim : Each P (trim slots) := by
  intro other y hslot
  rw [slotAt_trim] at hslot
  exact h other y hslot

end

section

variable (f : α → β) (slots : List (Option α))

@[simp] theorem length_across : (across f slots).length = slots.length := length_map _

@[simp] theorem slotAt_across (col : ℕ) :
    slotAt (across f slots) col = (slotAt slots col).map f := by
  rw [slotAt, slotAt, across, getElem?_map]
  cases slots[col]? with
  | none => rfl
  | some slot => rfl

theorem across_across {γ : Type*} (g : β → γ) :
    across g (across f slots) = across (g ∘ f) slots := by
  rw [across, across, across, map_map, Option.map_comp_map]

variable {f slots} in
theorem across_congr {g : α → β} (h : ∀ col x, slotAt slots col = some x → f x = g x) :
    across f slots = across g slots := by
  refine map_congr_left fun slot hslot => ?_
  cases slot with
  | none => rfl
  | some x =>
    obtain ⟨col, hcol⟩ := mem_iff_getElem?.mp hslot
    exact congrArg some (h col x (by rw [slotAt, hcol, Option.join_some]))

theorem any_across (p : β → Bool) :
    ((across f slots).any fun slot => slot.any p) = slots.any fun slot => slot.any (p ∘ f) := by
  rw [across, any_map]
  congr 1
  funext slot
  exact Option.any_map

theorem holeFrom_across (start : ℕ) : holeFrom (across f slots) start = holeFrom slots start := by
  rw [holeFrom, holeFrom, length_across, across, ← map_drop, findIdx_map]
  congr 2
  funext slot
  exact Option.isNone_map

theorem pickHole_across (prefer : ℕ) :
    pickHole (across f slots) prefer = pickHole slots prefer := by
  rw [pickHole, pickHole, holeFrom_across, holeFrom_across, length_across]

theorem place_across (col : ℕ) (x : α) :
    across f (place slots col x) = place (across f slots) col (f x) := by
  rw [place, place, length_across]
  split_ifs
  · rw [across, map_append]
    rfl
  · rw [across, map_set]
    rfl

theorem alter_across (g : α → α) (g' : β → β) (h : ∀ x, f (g x) = g' (f x)) (col : ℕ) :
    across f (alter slots col g) = alter (across f slots) col g' := by
  refine ext_getElem? fun other => ?_
  rw [across, alter, alter, across, getElem?_map, getElem?_modify, getElem?_modify, getElem?_map]
  cases slots[other]? with
  | none => rfl
  | some slot =>
    split_ifs
    · cases slot with
      | none => rfl
      | some x => exact congrArg (some ∘ some) (h x)
    · rfl

theorem vacate_across (col : ℕ) : across f (vacate slots col) = vacate (across f slots) col := by
  rw [across, vacate, map_set]
  rfl

theorem trim_across : across f (trim slots) = trim (across f slots) := by
  induction slots using reverseRecOn with
  | nil => rfl
  | append_singleton slots slot ih =>
    have hsplit : across f (slots ++ [slot]) = across f slots ++ [slot.map f] := map_append
    rw [hsplit, trim, trim, rdropWhile_concat, rdropWhile_concat, Option.isNone_map]
    split_ifs
    · exact ih
    · exact hsplit

theorem columns_across (p : β → Bool) : columns p (across f slots) = columns (p ∘ f) slots := by
  rw [columns, columns, length_across]
  refine filter_congr fun col _ => ?_
  rw [slotAt_across, Option.any_map]
  rfl

end

end GitComet.Slots
