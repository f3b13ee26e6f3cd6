import Mathlib.Data.List.Sort

variable {line i : ℕ}

namespace Columns
open List Nat

variable {α : Type}

structure Covers (f : α → Option ℕ) (xs : List α) (lo hi : ℕ) : Prop where
  le : lo ≤ hi
  eq : xs.filterMap f = range' lo (hi - lo)

theorem covers_nil (f : α → Option ℕ) (n : ℕ) : Covers f [] n n :=
  ⟨Nat.le_refl _, by simp⟩

variable {lo hi : ℕ}

theorem range'_glue {mid : ℕ} (h : lo ≤ mid) (h' : mid ≤ hi) :
    range' lo (mid - lo) ++ range' mid (hi - mid) = range' lo (hi - lo) := by
  have hsum : hi - lo = (mid - lo) + (hi - mid) := by omega
  have hmid : mid = lo + (mid - lo) := by omega
  rw [hsum, ← range'_append_1, ← hmid]

variable {ys : List α}

theorem Covers.append {f : α → Option ℕ} {xs : List α} {mid : ℕ}
    (h : Covers f xs lo mid) (h' : Covers f ys mid hi) : Covers f (xs ++ ys) lo hi := by
  refine ⟨le_trans h.le h'.le, ?_⟩
  rw [filterMap_append, h.eq, h'.eq, range'_glue h.le h'.le]

theorem covers_append_iff {f : α → Option ℕ} {xs : List α} :
    Covers f (xs ++ ys) lo hi ↔ ∃ mid, Covers f xs lo mid ∧ Covers f ys mid hi := by
  constructor
  · rintro ⟨hle, heq⟩
    rw [filterMap_append] at heq
    obtain ⟨k, hk, hxs, hys⟩ := range'_eq_append_iff.mp heq.symm
    refine ⟨lo + k, ⟨le_add_right _ _, ?_⟩, ⟨by omega, ?_⟩⟩
    · rw [hxs, Nat.add_sub_cancel_left]
    · rw [hys, Nat.mul_one, Nat.sub_sub]
  · rintro ⟨mid, h, h'⟩
    exact h.append h'

variable {x : α}

theorem covers_none_cons {f : α → Option ℕ} {xs : List α} (hx : f x = none) :
    Covers f (x :: xs) lo hi ↔ Covers f xs lo hi := by
  constructor
  · rintro ⟨hle, heq⟩
    rw [filterMap_cons_none hx] at heq
    exact ⟨hle, heq⟩
  · rintro ⟨hle, heq⟩
    exact ⟨hle, by rw [filterMap_cons_none hx, heq]⟩

variable {n : ℕ}

theorem covers_some_cons {f : α → Option ℕ} {xs : List α} (hx : f x = some n) :
    Covers f (x :: xs) lo hi ↔ n = lo ∧ lo < hi ∧ Covers f xs (lo + 1) hi := by
  constructor
  · rintro ⟨hle, heq⟩
    rw [filterMap_cons_some hx] at heq
    obtain ⟨hlo, hpos, hrest⟩ := range'_eq_cons_iff.mp heq.symm
    subst hlo
    refine ⟨rfl, by omega, by omega, ?_⟩
    rw [hrest, Nat.sub_sub]
  · rintro ⟨rfl, hlt, h⟩
    refine ⟨le_of_lt hlt, ?_⟩
    rw [filterMap_cons_some hx, h.eq]
    have hsum : hi - n = (hi - (n + 1)) + 1 := by omega
    rw [hsum, range'_succ]

theorem Covers.split {f : α → Option ℕ} {pre post : List α}
    (h : Covers f (pre ++ x :: post) lo hi) (hx : f x = some line) :
    Covers f pre lo line ∧ line < hi ∧ Covers f post (line + 1) hi := by
  obtain ⟨mid, hpre, hrest⟩ := covers_append_iff.mp h
  obtain ⟨rfl, hlt, hpost⟩ := (covers_some_cons hx).mp hrest
  exact ⟨hpre, hlt, hpost⟩

theorem covers_mem {f : α → Option ℕ} {xs : List α} (h : Covers f xs lo hi) :
    (∃ x ∈ xs, f x = some line) ↔ lo ≤ line ∧ line < hi := by
  rw [← mem_filterMap, h.eq, mem_range'_1]
  have := h.le
  omega

theorem covers_congr {f g : α → Option ℕ} {xs : List α} (h : Covers f xs lo hi)
    (hsame : ∀ x ∈ xs, g x = f x) : Covers g xs lo hi :=
  ⟨h.le, by rw [filterMap_congr hsame, h.eq]⟩

theorem covers_map {β : Type} {f : α → Option ℕ} {g : β → Option ℕ} {h : β → α} {xs : List β}
    (hsame : ∀ x, f (h x) = g x) : Covers f (xs.map h) lo hi ↔ Covers g xs lo hi := by
  have heq : (xs.map h).filterMap f = xs.filterMap g := by
    rw [filterMap_map]
    exact filterMap_congr fun x _ => hsame x
  exact ⟨fun hc => ⟨hc.le, by rw [← heq, hc.eq]⟩, fun hc => ⟨hc.le, by rw [heq, hc.eq]⟩⟩

theorem covers_none {f : α → Option ℕ} {s : List α} (h : ∀ x ∈ s, f x = none) (n : ℕ) :
    Covers f s n n := by
  refine ⟨Nat.le_refl _, ?_⟩
  rw [Nat.sub_self, range'_zero, filterMap_eq_nil_iff]
  exact h

theorem Covers.none_of_empty {f : α → Option ℕ} {xs : List α} (h : Covers f xs n n) :
    ∀ x ∈ xs, f x = none := by
  have heq := h.eq
  rw [Nat.sub_self, range'_zero, filterMap_eq_nil_iff] at heq
  exact heq

theorem covers_filter {f : α → Option ℕ} {p : α → Bool} {xs : List α}
    (hp : ∀ x ∈ xs, p x = false → f x = none) (h : Covers f xs lo hi) :
    Covers f (xs.filter p) lo hi := by
  refine ⟨h.le, ?_⟩
  rw [← h.eq, filterMap_filter]
  refine filterMap_congr fun x hx => ?_
  cases hpx : p x with
  | true => rfl
  | false => simpa using (hp x hx hpx).symm

variable {j : ℕ} {y : α}

theorem covers_index {f : α → Option ℕ} {xs : List α} {m : ℕ}
    (h : Covers f xs lo hi) (hi : xs[i]? = some x) (hj : xs[j]? = some y) (hx : f x = some m)
    (hy : f y = some n) (hij : i < j) : m < n := by
  obtain ⟨hlen, rfl⟩ := List.getElem?_eq_some_iff.mp hi
  have hxs := take_append_drop i xs
  rw [drop_eq_getElem_cons hlen] at hxs
  rw [← hxs] at h
  obtain ⟨-, -, hpost⟩ := h.split hx
  have hmem : y ∈ xs.drop (i + 1) := by
    refine List.mem_of_getElem? (i := j - (i + 1)) ?_
    rw [getElem?_drop, Nat.add_sub_cancel' hij, hj]
  exact ((covers_mem hpost).mp ⟨y, hmem, hy⟩).1

theorem covers_move {f : α → Option ℕ} {p m q : List α} {x' y' : α}
    (h : Covers f (p ++ x :: (m ++ y :: q)) lo hi) (hx : f x = none) (hm : ∀ z ∈ m, f z = none)
    (hx' : f x' = f y) (hy' : f y' = none) : Covers f (p ++ x' :: (m ++ y' :: q)) lo hi := by
  refine ⟨h.le, ?_⟩
  have hmid : m.filterMap f = [] := filterMap_eq_nil_iff.mpr hm
  rw [← h.eq]
  simp only [filterMap_append, filterMap_cons, hx, hy', hx', hmid, nil_append]

theorem split_two (xs : List α) (hij : i < j) (hj : j < xs.length) :
    xs = xs.take i ++ xs.get ⟨i, by omega⟩ ::
      ((xs.drop (i + 1)).take (j - (i + 1)) ++ xs.get ⟨j, hj⟩ :: xs.drop (j + 1)) := by
  have hi : i < xs.length := by omega
  have hmid : xs.drop (i + 1) =
      (xs.drop (i + 1)).take (j - (i + 1)) ++ xs.get ⟨j, hj⟩ :: xs.drop (j + 1) := by
    have hdrop : xs.drop j = xs.get ⟨j, hj⟩ :: xs.drop (j + 1) := drop_eq_getElem_cons hj
    rw [← hdrop]
    have hback : xs.drop j = (xs.drop (i + 1)).drop (j - (i + 1)) := by
      rw [drop_drop, Nat.add_sub_cancel' hij]
    rw [hback, take_append_drop]
  rw [← hmid]
  exact (take_append_drop i xs).symm.trans (by rw [drop_eq_getElem_cons hi]; rfl)

theorem covers_set_move {f : α → Option ℕ} {xs : List α} (h : Covers f xs lo hi) (hij : i < j)
    (hj : j < xs.length) (hempty : ∀ k z, i ≤ k → k < j → xs[k]? = some z → f z = none)
    (hx : f x = f (xs.get ⟨j, hj⟩)) (hy : f y = none) :
    Covers f ((xs.set i x).set j y) lo hi := by
  have hsplit := split_two xs hij hj
  have hsplit' := split_two ((xs.set i x).set j y) hij (by simpa using hj)
  rw [hsplit] at h
  have hgeti : ((xs.set i x).set j y).get ⟨i, by simp; omega⟩ = x := by
    simp [ne_of_gt hij]
  have hgetj : ((xs.set i x).set j y).get ⟨j, by simpa using hj⟩ = y := by
    simp
  have htake : ((xs.set i x).set j y).take i = xs.take i := by
    rw [take_set_of_le (by omega), take_set_of_le (by omega)]
  have hmid : (((xs.set i x).set j y).drop (i + 1)).take (j - (i + 1)) =
      (xs.drop (i + 1)).take (j - (i + 1)) := by
    rw [drop_set, if_neg (by omega), take_set_of_le (by omega), drop_set,
      if_pos (by omega)]
  have hdrop : ((xs.set i x).set j y).drop (j + 1) = xs.drop (j + 1) := by
    rw [drop_set, if_pos (by omega), drop_set, if_pos (by omega)]
  rw [hsplit', hgeti, hgetj, htake, hmid, hdrop]
  refine covers_move h (hempty i _ (Nat.le_refl _) hij (getElem?_eq_getElem _)) ?_ hx hy
  intro z hz
  obtain ⟨k, hk⟩ := mem_iff_getElem?.mp hz
  rw [getElem?_take, getElem?_drop] at hk
  split at hk
  · exact hempty (i + 1 + k) z (by omega) (by omega) hk
  · simp at hk

theorem covers_of_cells {f : α → Option ℕ} {xs : List α} (h : Covers f xs lo hi)
    (hlen : ys.length = xs.length) (hsame : ∀ k : ℕ, (ys[k]?).bind f = (xs[k]?).bind f) :
    Covers f ys lo hi := by
  have hmap : ys.map f = xs.map f := by
    refine ext_getElem? fun k => ?_
    have hk := hsame k
    rcases lt_or_ge k xs.length with hlt | hge
    · have hlt' : k < ys.length := hlen ▸ hlt
      simpa [hlt, hlt'] using hk
    · rw [getElem?_eq_none (by simpa [hlen] using hge), getElem?_eq_none (by simpa using hge)]
  have hid : ∀ x, id (f x) = f x := fun _ => rfl
  rw [← covers_map hid] at h ⊢
  rwa [hmap]

theorem covers_of_move {f : α → Option ℕ} {xs : List α} (h : Covers f xs lo hi)
    (hlen : ys.length = xs.length) (hij : i < j) (hj : j < xs.length)
    (hempty : ∀ k, i ≤ k → k < j → (xs[k]?).bind f = none)
    (hmoved : (ys[i]?).bind f = (xs[j]?).bind f) (hleft : (ys[j]?).bind f = none)
    (hother : ∀ k, k ≠ i → k ≠ j → (ys[k]?).bind f = (xs[k]?).bind f) : Covers f ys lo hi := by
  have hmap : ∀ (zs : List α) k, k < zs.length → (zs.map f)[k]? = some ((zs[k]?).bind f) := by
    intro zs k hk
    simp [hk]
  have hcells : ys.map f = ((xs.map f).set i ((xs.map f).get ⟨j, by simpa using hj⟩)).set j none := by
    refine ext_getElem? fun k => ?_
    rcases lt_or_ge k xs.length with hk | hk
    · rw [hmap ys k (hlen ▸ hk), getElem?_set, getElem?_set]
      by_cases hkj : j = k
      · subst hkj
        simp [hleft, hj]
      · rw [if_neg hkj]
        by_cases hki : i = k
        · subst hki
          simp [hmoved, hj, hk]
        · rw [if_neg hki, hmap xs k hk, hother k (Ne.symm hki) (Ne.symm hkj)]
    · rw [getElem?_eq_none (by simpa [hlen] using hk), getElem?_eq_none (by simpa using hk)]
  have hid : ∀ x, id (f x) = f x := fun _ => rfl
  rw [← covers_map hid] at h ⊢
  rw [hcells]
  refine covers_set_move h hij (by simpa using hj) ?_ rfl rfl
  intro k z hik hkj hz
  rw [hmap xs k (by omega)] at hz
  rw [← Option.some.inj hz]
  exact hempty k hik hkj

end Columns

namespace CellMoves
open Columns

abbrev Cells := ℕ → Option ℕ

def moved (cells : Cells) (source target : ℕ) : Cells := fun i =>
  if i = target then cells source
  else if i = source then none else cells i

structure Whole (m : ℕ) (cells : Cells) : Prop where
  bound : ∀ i x, cells i = some x → x < m
  ascends : ∀ i j x y, i < j → cells i = some x → cells j = some y → x < y
  present : ∀ x, x < m → ∃ i, cells i = some x

structure Sound (m : ℕ) (cells : Cells) : Prop where
  bound : ∀ i x, cells i = some x → x < m
  distinct : ∀ i j x, cells i = some x → cells j = some x → i = j

def Clear (cells : Cells) (source target : ℕ) : Prop :=
  ∀ i, i ≠ source → min source target ≤ i → i ≤ max source target → cells i = none

inductive Broken (m limit : ℕ) (cells : Cells) : Prop
  | lost (x : ℕ) (h : x < m) (hnone : ∀ i, cells i ≠ some x) : Broken m limit cells
  | swapped (i j x y : ℕ) (hij : i < j) (hj : j < limit) (hi : cells i = some x)
      (hy : cells j = some y) (hle : y ≤ x) : Broken m limit cells

variable {m : ℕ} {cells : Cells} {source target limit : ℕ}

theorem moved_target : moved cells source target target = cells source := if_pos rfl

theorem moved_other (ht : i ≠ target) (hs : i ≠ source) :
    moved cells source target i = cells i := by
  rw [moved, if_neg ht, if_neg hs]

theorem moved_some {x : ℕ} (h : moved cells source target i = some x) :
    i = target ∧ cells source = some x ∨ i ≠ target ∧ i ≠ source ∧ cells i = some x := by
  unfold moved at h
  split at h
  · exact Or.inl ⟨‹_›, h⟩
  · split at h
    · cases h
    · exact Or.inr ⟨‹_›, ‹_›, h⟩

theorem Whole.sound (h : Whole m cells) : Sound m cells := by
  refine ⟨h.bound, fun i j x hi hj => ?_⟩
  rcases lt_trichotomy i j with hij | hij | hij
  · exact absurd (h.ascends i j x x hij hi hj) (lt_irrefl x)
  · exact hij
  · exact absurd (h.ascends j i x x hij hj hi) (lt_irrefl x)

theorem Sound.moved (h : Sound m cells) (source target : ℕ) :
    Sound m (moved cells source target) := by
  refine ⟨fun i x hi => ?_, fun i j x hi hj => ?_⟩
  · rcases moved_some hi with ⟨-, hi⟩ | ⟨-, -, hi⟩
    · exact h.bound source x hi
    · exact h.bound i x hi
  · rcases moved_some hi with ⟨hit, hx⟩ | ⟨-, his, hx⟩
    · rcases moved_some hj with ⟨hjt, -⟩ | ⟨-, hjs, hy⟩
      · rw [hit, hjt]
      · exact absurd (h.distinct j source x hy hx) hjs
    · rcases moved_some hj with ⟨-, hy⟩ | ⟨-, -, hy⟩
      · exact absurd (h.distinct i source x hx hy) his
      · exact h.distinct i j x hx hy

theorem Whole.moved (h : Whole m cells) (hclear : Clear cells source target) :
    Whole m (moved cells source target) := by
  have hside : ∀ i y, i ≠ target → i ≠ source → cells i = some y →
      (i < target ↔ i < source) := by
    intro i y hit his hy
    have hout : i < min source target ∨ max source target < i := by
      by_contra hin
      rw [hclear i his (by omega) (by omega)] at hy
      cases hy
    omega
  refine ⟨fun i x hi => (h.sound.moved source target).bound i x hi, fun i j x y hij hi hj => ?_,
    fun x hx => ?_⟩
  · rcases moved_some hi with ⟨hit, hx⟩ | ⟨hit, his, hx⟩
    · rcases moved_some hj with ⟨hjt, -⟩ | ⟨hjt, hjs, hy⟩
      · omega
      · have := hside j y hjt hjs hy
        exact h.ascends source j x y (by omega) hx hy
    · rcases moved_some hj with ⟨hjt, hy⟩ | ⟨-, -, hy⟩
      · exact h.ascends i source x y ((hside i x hit his hx).mp (by omega)) hx hy
      · exact h.ascends i j x y hij hx hy
  · obtain ⟨i, hi⟩ := h.present x hx
    by_cases his : i = source
    · exact ⟨target, by rw [moved_target, ← his, hi]⟩
    · have hit : i ≠ target := by
        rintro rfl
        rw [hclear i his (by omega) (by omega)] at hi
        cases hi
      exact ⟨i, by rw [moved_other hit his, hi]⟩

theorem Broken.not_whole (h : Broken m limit cells) : ¬Whole m cells := by
  intro hw
  cases h with
  | lost x hx hnone =>
    obtain ⟨i, hi⟩ := hw.present x hx
    exact hnone i hi
  | swapped i j x y hij _ hi hj hle =>
    have := hw.ascends i j x y hij hi hj
    omega

theorem Broken.mono (h : Broken m limit cells) {limit' : ℕ} (hle : limit ≤ limit') :
    Broken m limit' cells := by
  cases h with
  | lost x hx hnone => exact .lost x hx hnone
  | swapped i j x y hij hj hi hy hyx => exact .swapped i j x y hij (by omega) hi hy hyx

theorem lost_moved {x : ℕ} (hnone : ∀ i, i ≠ target → cells i ≠ some x)
    (hsource : cells source ≠ some x) : ∀ i, moved cells source target i ≠ some x := by
  intro i hi
  rcases moved_some hi with ⟨-, hi⟩ | ⟨hit, -, hi⟩
  · exact hsource hi
  · exact hnone i hit hi

theorem Sound.overwritten (h : Sound m cells) {x : ℕ} (hx : cells target = some x)
    (hne : target ≠ source) : Broken m limit (CellMoves.moved cells source target) :=
  .lost x (h.bound target x hx) (lost_moved
    (fun i hi hix => hi (h.distinct i target x hix hx))
    fun hs => hne (h.distinct target source x hx hs))

theorem Broken.moved (h : Broken m limit cells) (hs : Sound m cells) (hlimit : limit ≤ source)
    (target : ℕ) : Broken m limit (moved cells source target) := by
  cases h with
  | lost x hx hnone => exact .lost x hx (lost_moved (fun i _ => hnone i) (hnone source))
  | swapped i j x y hij hj hi hy hle =>
    by_cases hit : i = target
    · exact hs.overwritten (hit ▸ hi) (by omega)
    · by_cases hjt : j = target
      · exact hs.overwritten (hjt ▸ hy) (by omega)
      · exact .swapped i j x y hij hj (by rw [moved_other hit (by omega), hi])
          (by rw [moved_other hjt (by omega), hy]) hle

theorem Whole.broken_moved (h : Whole m cells) (hline : cells source = some line)
    (hnot : ¬Clear cells source target) (hnear : target ≤ source + 1) :
    Broken m source (CellMoves.moved cells source target) := by
  unfold Clear at hnot
  push Not at hnot
  obtain ⟨i, his, hmin, hmax, hi⟩ := hnot
  obtain ⟨x, hx⟩ := Option.ne_none_iff_exists'.mp hi
  by_cases hit : i = target
  · exact h.sound.overwritten (hit ▸ hx) (by omega)
  · have hlt : x < line := h.ascends i source x line (by omega) hx hline
    exact .swapped target i line x (by omega) (by omega) (by rw [moved_target, hline])
      (by rw [moved_other hit his, hx]) (by omega)

section
variable {α : Type} {f : α → Option ℕ} {xs : List α}

theorem whole_of_covers (h : Covers f xs 0 m) : Whole m fun i => (xs[i]?).bind f := by
  refine ⟨fun i x hi => ?_, fun i j x y hij hi hj => ?_, fun x hx => ?_⟩
  · obtain ⟨a, ha, hax⟩ := Option.bind_eq_some_iff.mp hi
    exact ((covers_mem h).mp ⟨a, List.mem_of_getElem? ha, hax⟩).2
  · obtain ⟨a, ha, hax⟩ := Option.bind_eq_some_iff.mp hi
    obtain ⟨b, hb, hby⟩ := Option.bind_eq_some_iff.mp hj
    exact covers_index h ha hb hax hby hij
  · obtain ⟨a, ha, hax⟩ := (covers_mem h).mpr ⟨Nat.zero_le x, hx⟩
    obtain ⟨i, hi⟩ := List.mem_iff_getElem?.mp ha
    exact ⟨i, by rw [hi]; exact hax⟩

theorem covers_of_whole (h : Whole m fun i => (xs[i]?).bind f) : Covers f xs 0 m := by
  refine ⟨Nat.zero_le m, ?_⟩
  have hsorted : (xs.filterMap f).Pairwise (· < ·) := by
    rw [List.pairwise_filterMap, List.pairwise_iff_getElem]
    intro i j hi hj hij x hx y hy
    refine h.ascends i j x y hij ?_ ?_
    · rw [List.getElem?_eq_getElem hi]
      exact hx
    · rw [List.getElem?_eq_getElem hj]
      exact hy
  refine hsorted.eq_of_mem_iff List.pairwise_lt_range' fun x => ?_
  rw [List.mem_filterMap, List.mem_range'_1]
  constructor
  · rintro ⟨a, ha, hax⟩
    obtain ⟨i, hi⟩ := List.mem_iff_getElem?.mp ha
    have := h.bound i x (by rw [hi]; exact hax)
    omega
  · intro hx
    obtain ⟨i, hi⟩ := h.present x (by omega)
    obtain ⟨a, ha, hax⟩ := Option.bind_eq_some_iff.mp hi
    exact ⟨a, List.mem_of_getElem? ha, hax⟩

theorem covers_iff_whole : Covers f xs 0 m ↔ Whole m fun i => (xs[i]?).bind f :=
  ⟨whole_of_covers, covers_of_whole⟩

end

end CellMoves
