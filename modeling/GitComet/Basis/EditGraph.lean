import GitComet.Basis.Slice
import Mathlib.Data.Nat.Find

namespace EditGraph
open CommonPrefix List Nat

variable {α : Type*}

inductive Reach (xs ys : List α) : ℕ → ℕ → ℕ → Prop
  | origin : Reach xs ys 0 0 0
  | slide {d x y a} : Reach xs ys d x y → xs[x]? = some a → ys[y]? = some a →
      Reach xs ys d (x + 1) (y + 1)
  | right {d x y} : Reach xs ys d x y → Reach xs ys (d + 1) (x + 1) y
  | down {d x y} : Reach xs ys d x y → Reach xs ys (d + 1) x (y + 1)

theorem reach_rectangle (xs ys : List α) (x y : ℕ) : Reach xs ys (x + y) x y := by
  induction y with
  | zero =>
    induction x with
    | zero => exact .origin
    | succ x ih => exact .right ih
  | succ y ih => exact .down ih

variable {d x y : ℕ}

theorem reach_slide {xs ys : List α} (h : Reach xs ys d x y) (n : ℕ)
    (hn : ∀ i < n, ∃ a, xs[x + i]? = some a ∧ ys[y + i]? = some a) :
    Reach xs ys d (x + n) (y + n) := by
  induction n with
  | zero => exact h
  | succ n ih =>
    obtain ⟨a, ha, hb⟩ := hn n (lt_succ_self n)
    exact .slide (ih fun i hi => hn i (lt_succ_of_lt hi)) ha hb

theorem reach_clip {xs ys : List α} (h : Reach xs ys d x y) :
    ∃ e, e + (x - xs.length) + (y - ys.length) = d ∧
      Reach xs ys e (min x xs.length) (min y ys.length) := by
  induction h with
  | origin => exact ⟨0, by simp, by simpa using Reach.origin⟩
  | @slide d x y a _ hx hy ih =>
    obtain ⟨e, he, hr⟩ := ih
    have hlx := (List.getElem?_eq_some_iff.mp hx).1
    have hly := (List.getElem?_eq_some_iff.mp hy).1
    refine ⟨e, by omega, ?_⟩
    rw [min_eq_left (by omega), min_eq_left (by omega)] at hr ⊢
    exact .slide hr hx hy
  | @right d x y _ ih =>
    obtain ⟨e, he, hr⟩ := ih
    by_cases hx : x < xs.length
    · refine ⟨e + 1, by omega, ?_⟩
      rw [min_eq_left (by omega)] at hr
      rw [min_eq_left (by omega : x + 1 ≤ xs.length)]
      exact .right hr
    · refine ⟨e, by omega, ?_⟩
      rw [min_eq_right (by omega)] at hr ⊢
      exact hr
  | @down d x y _ ih =>
    obtain ⟨e, he, hr⟩ := ih
    by_cases hy : y < ys.length
    · refine ⟨e + 1, by omega, ?_⟩
      rw [min_eq_left (by omega : y ≤ ys.length)] at hr
      rw [min_eq_left (by omega : y + 1 ≤ ys.length)]
      exact .down hr
    · refine ⟨e, by omega, ?_⟩
      rw [min_eq_right (by omega : ys.length ≤ y)] at hr
      rw [min_eq_right (by omega : ys.length ≤ y + 1)]
      exact hr

theorem reach_diagonal {xs ys : List α} (h : Reach xs ys d x y) :
    ((x : ℤ) - y).natAbs ≤ d ∧ (2 : ℤ) ∣ (x : ℤ) - y + d := by
  induction h with
  | origin => simp
  | slide _ _ _ ih => push_cast; constructor <;> omega
  | right _ ih => push_cast; constructor <;> omega
  | down _ ih => push_cast; constructor <;> omega

def Diagonal (d : ℕ) (k : ℤ) : Prop := k.natAbs ≤ d ∧ (2 : ℤ) ∣ k + d

variable {k : ℤ}

theorem diagonal_pred (h : Diagonal (d + 1) k) (hk : k ≠ -(d + 1 : ℤ)) : Diagonal d (k - 1) := by
  unfold Diagonal at *
  omega

theorem diagonal_succ (h : Diagonal (d + 1) k) (hk : k ≠ (d + 1 : ℤ)) : Diagonal d (k + 1) := by
  unfold Diagonal at *
  omega

theorem not_diagonal_succ (h : Diagonal d k) : ¬Diagonal (d + 1) k := by
  unfold Diagonal at *
  omega

section
variable [DecidableEq α] (xs ys : List α)

def slideFrom (x y : ℕ) : ℕ := commonPrefix (xs.drop x) (ys.drop y)

def entry (f : ℤ → ℕ) (d : ℕ) (k : ℤ) : ℕ :=
  if k = -(d : ℤ) ∨ (k ≠ d ∧ f (k - 1) < f (k + 1)) then f (k + 1) else f (k - 1) + 1

def furthest : ℕ → ℤ → ℕ
  | 0, _ => slideFrom xs ys 0 0
  | d + 1, k =>
    let x := entry (furthest d) (d + 1) k
    x + slideFrom xs ys x (x - k).toNat

theorem getElem?_slideFrom {i : ℕ} (h : i < slideFrom xs ys x y) :
    ∃ a, xs[x + i]? = some a ∧ ys[y + i]? = some a := by
  have he := getElem?_of_lt_commonPrefix h
  have hl := commonPrefix_le_left (xs.drop x) (ys.drop y)
  simp only [slideFrom] at h
  simp only [getElem?_drop] at he
  simp only [length_drop] at hl
  have hx : x + i < xs.length := by omega
  exact ⟨xs[x + i], getElem?_eq_getElem hx, he ▸ getElem?_eq_getElem hx⟩

theorem slideFrom_maximal {a : α} (hx : xs[x + slideFrom xs ys x y]? = some a) :
    ys[y + slideFrom xs ys x y]? ≠ some a := by
  have h := @commonPrefix_maximal α _ (xs.drop x) (ys.drop y) a
  simp only [getElem?_drop] at h
  exact h hx

theorem slideFrom_le_left (x y : ℕ) : slideFrom xs ys x y ≤ xs.length - x := by
  simpa [slideFrom] using commonPrefix_le_left (xs.drop x) (ys.drop y)

theorem slideFrom_le_right (x y : ℕ) : slideFrom xs ys x y ≤ ys.length - y := by
  simpa [slideFrom] using commonPrefix_le_right (xs.drop x) (ys.drop y)

variable {f : ℤ → ℕ}

theorem entry_spec (hk : Diagonal (d + 1) k) :
    (∃ j, Diagonal d j ∧ j = k + 1 ∧ entry f (d + 1) k = f j) ∨
    (∃ j, Diagonal d j ∧ j = k - 1 ∧ entry f (d + 1) k = f j + 1) := by
  unfold entry
  split
  · rename_i h
    refine Or.inl ⟨k + 1, diagonal_succ hk ?_, rfl, rfl⟩
    rcases h with h | h
    · push_cast at h; omega
    · push_cast at h; exact h.1
  · rename_i h
    refine Or.inr ⟨k - 1, diagonal_pred hk ?_, rfl, rfl⟩
    push_cast at h
    omega

theorem entry_ge_succ (hk : Diagonal d (k + 1)) : f (k + 1) ≤ entry f (d + 1) k := by
  unfold entry Diagonal at *
  split
  · exact le_rfl
  · rename_i h
    push_cast at h
    omega

theorem entry_ge_pred (hk : Diagonal d (k - 1)) : f (k - 1) + 1 ≤ entry f (d + 1) k := by
  unfold entry Diagonal at *
  split
  · rename_i h
    push_cast at h
    omega
  · exact le_rfl

theorem furthest_reach (d : ℕ) : ∀ k, Diagonal d k → k ≤ furthest xs ys d k ∧
      Reach xs ys d (furthest xs ys d k) ((furthest xs ys d k : ℤ) - k).toNat := by
  induction d with
  | zero =>
    intro k hk
    have hk0 : k = 0 := by unfold Diagonal at hk; omega
    subst hk0
    refine ⟨by omega, ?_⟩
    have h := reach_slide (@Reach.origin α xs ys) (slideFrom xs ys 0 0)
      (fun i hi => getElem?_slideFrom xs ys hi)
    simpa [furthest] using h
  | succ d ih =>
    intro k hk
    have key : k ≤ entry (furthest xs ys d) (d + 1) k ∧
        Reach xs ys (d + 1) (entry (furthest xs ys d) (d + 1) k)
          ((entry (furthest xs ys d) (d + 1) k : ℤ) - k).toNat := by
      rcases entry_spec (f := furthest xs ys d) hk with ⟨j, hj, hjk, he⟩ | ⟨j, hj, hjk, he⟩
      · obtain ⟨hle, hr⟩ := ih j hj
        rw [he]
        refine ⟨by omega, ?_⟩
        have hy : ((furthest xs ys d j : ℤ) - k).toNat =
            ((furthest xs ys d j : ℤ) - j).toNat + 1 := by omega
        rw [hy]
        exact .down hr
      · obtain ⟨hle, hr⟩ := ih j hj
        rw [he]
        refine ⟨by omega, ?_⟩
        have hy : ((furthest xs ys d j + 1 : ℕ) - k : ℤ).toNat =
            ((furthest xs ys d j : ℤ) - j).toNat := by omega
        rw [hy]
        exact .right hr
    obtain ⟨hle, hr⟩ := key
    refine ⟨by simp only [furthest]; omega, ?_⟩
    have h := reach_slide hr _ (fun i hi => getElem?_slideFrom xs ys hi)
    simp only [furthest]
    convert h using 1
    omega

theorem furthest_not_match {a : α} (hk : Diagonal d k)
    (hy : (y : ℤ) = furthest xs ys d k - k) (hx : xs[furthest xs ys d k]? = some a) :
    ys[y]? ≠ some a := by
  cases d with
  | zero =>
    have hk0 : k = 0 := by unfold Diagonal at hk; omega
    subst hk0
    have hy' : y = furthest xs ys 0 0 := by omega
    subst hy'
    have h := slideFrom_maximal xs ys (x := 0) (y := 0) (a := a)
    simp only [furthest, Nat.zero_add] at h hx ⊢
    exact h hx
  | succ d =>
    have hle : k ≤ entry (furthest xs ys d) (d + 1) k := by
      rcases entry_spec (f := furthest xs ys d) hk with ⟨j, hj, hjk, he⟩ | ⟨j, hj, hjk, he⟩
      · have := (furthest_reach xs ys d j hj).1; omega
      · have := (furthest_reach xs ys d j hj).1; omega
    have h := slideFrom_maximal xs ys (x := entry (furthest xs ys d) (d + 1) k)
      (y := ((entry (furthest xs ys d) (d + 1) k : ℤ) - k).toNat) (a := a)
    simp only [furthest] at hx hy
    have hy' : y = ((entry (furthest xs ys d) (d + 1) k : ℤ) - k).toNat +
        slideFrom xs ys (entry (furthest xs ys d) (d + 1) k)
          ((entry (furthest xs ys d) (d + 1) k : ℤ) - k).toNat := by
      push_cast at hy
      omega
    rw [hy']
    exact h hx

theorem le_furthest (h : Reach xs ys d x y) : x ≤ furthest xs ys d ((x : ℤ) - y) := by
  induction h with
  | origin => omega
  | @slide d x y a hr hx hy ih =>
    have hk := reach_diagonal hr
    have hdiag : ((x + 1 : ℕ) : ℤ) - ((y + 1 : ℕ) : ℤ) = (x : ℤ) - y := by push_cast; omega
    rw [hdiag]
    rcases lt_or_eq_of_le ih with hlt | heq
    · exact hlt
    · exact absurd hy (furthest_not_match xs ys (a := a) hk (by omega) (heq ▸ hx))
  | @right d x y hr ih =>
    have hk := reach_diagonal hr
    have hdiag : ((x + 1 : ℕ) : ℤ) - (y : ℤ) - 1 = (x : ℤ) - y := by push_cast; omega
    have hge := entry_ge_pred (f := furthest xs ys d) (d := d)
      (k := ((x + 1 : ℕ) : ℤ) - y) (by rw [hdiag]; exact hk)
    rw [hdiag] at hge
    simp only [furthest]
    omega
  | @down d x y hr ih =>
    have hk := reach_diagonal hr
    have hdiag : (x : ℤ) - ((y + 1 : ℕ) : ℤ) + 1 = (x : ℤ) - y := by push_cast; omega
    have hge := entry_ge_succ (f := furthest xs ys d) (d := d)
      (k := (x : ℤ) - ((y + 1 : ℕ) : ℤ)) (by rw [hdiag]; exact hk)
    rw [hdiag] at hge
    simp only [furthest]
    omega

def Finished (d : ℕ) (k : ℤ) : Prop :=
  Diagonal d k ∧ xs.length ≤ furthest xs ys d k ∧ (ys.length : ℤ) ≤ furthest xs ys d k - k

theorem finished_of_reach (h : Reach xs ys d xs.length ys.length) :
    Finished xs ys d ((xs.length : ℤ) - ys.length) := by
  have hf := le_furthest xs ys h
  exact ⟨reach_diagonal h, hf, by omega⟩

theorem exists_finished : ∃ d ≤ xs.length + ys.length, ∃ k, Finished xs ys d k :=
  ⟨_, le_rfl, _, finished_of_reach xs ys (reach_rectangle xs ys _ _)⟩

theorem finished_first (h : Finished xs ys d k) (hfirst : ∀ e < d, ∀ j, ¬Finished xs ys e j) :
    furthest xs ys d k = xs.length ∧ k = (xs.length : ℤ) - ys.length := by
  obtain ⟨hk, hx, hy⟩ := h
  obtain ⟨e, he, hr⟩ := reach_clip (furthest_reach xs ys d k hk).2
  rw [min_eq_right hx, min_eq_right (by omega)] at hr
  have hed : ¬e < d := fun hlt => hfirst e hlt _ (finished_of_reach xs ys hr)
  omega

theorem furthest_le (hk : Diagonal d k) (hfirst : ∀ e < d, ∀ j, ¬Finished xs ys e j) :
    furthest xs ys d k ≤ xs.length + ys.length := by
  by_contra hlt
  obtain ⟨hle, hreach⟩ := furthest_reach xs ys d k hk
  obtain ⟨e, he, hr⟩ := reach_clip hreach
  rw [min_eq_right (by omega)] at hr
  have hdown : ∀ j, Reach xs ys (e + j) xs.length
      (min ((furthest xs ys d k : ℤ) - k).toNat ys.length + j) := by
    intro j
    induction j with
    | zero => exact hr
    | succ j ih => exact .down ih
  have hend := hdown (ys.length - min ((furthest xs ys d k : ℤ) - k).toNat ys.length)
  rw [Nat.add_sub_cancel' (Nat.min_le_right _ _)] at hend
  refine hfirst _ ?_ _ (finished_of_reach xs ys hend)
  omega

end

end EditGraph
