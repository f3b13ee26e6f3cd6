import Mathlib.Data.List.Basic
import Mathlib.Data.List.TakeDrop
import Mathlib.Data.Int.Notation

namespace Slice
open List

variable {α : Type*}

def slice (xs : List α) (a b : ℕ) : List α := (xs.drop a).take (b - a)

attribute [local simp] slice

def sliceOf (xs : List α) (a b : ℕ) : Option (List α) :=
  if a ≤ b ∧ b ≤ xs.length then some (slice xs a b) else none

def vecGet (xs : List α) (i : ℤ) : Option α :=
  if i < 0 then none else xs[i.toNat]?

attribute [local simp] vecGet

def vecSet (xs : List α) (i : ℤ) (x : α) : Option (List α) :=
  if i < 0 ∨ (xs.length : ℤ) ≤ i then none else some (xs.set i.toNat x)

theorem sliceOf_eq {l : List α} {a b : ℕ} (hab : a ≤ b) (hb : b ≤ l.length) :
    sliceOf l a b = some (slice l a b) := by
  simp [sliceOf, hab, hb]

@[simp] theorem slice_self (xs : List α) (a : ℕ) : slice xs a a = [] := by
  simp [slice]

theorem slice_full (xs : List α) : slice xs 0 xs.length = xs := by
  simp [slice]

theorem slice_zero (xs : List α) (b : ℕ) : slice xs 0 b = xs.take b := by
  simp [slice]

theorem slice_to_end (xs : List α) (a : ℕ) : slice xs a xs.length = xs.drop a := by
  simp [slice]

theorem length_slice {l : List α} {a b : ℕ} (hb : b ≤ l.length) : (slice l a b).length = b - a := by
  simp only [slice, length_take, length_drop]
  omega

theorem slice_append (xs : List α) {a b c : ℕ} (hab : a ≤ b) (hbc : b ≤ c) :
    slice xs a b ++ slice xs b c = slice xs a c := by
  have hd : xs.drop b = (xs.drop a).drop (b - a) := by
    rw [drop_drop]
    congr 1
    omega
  have hc : c - a = (b - a) + (c - b) := by omega
  simp only [slice]
  rw [hd, hc, take_add]

theorem split_ends (xs : List α) {p s : ℕ} (h : p + s ≤ xs.length) :
    xs = slice xs 0 p ++ slice xs p (xs.length - s) ++ slice xs (xs.length - s) xs.length := by
  rw [slice_append _ (by omega) (by omega), slice_append _ (by omega) (by omega), slice_full]

theorem slice_cons {xs : List α} {a b : ℕ} {x : α} (hab : a < b) (hx : xs[a]? = some x) :
    slice xs a b = x :: slice xs (a + 1) b := by
  obtain ⟨hlt, rfl⟩ := List.getElem?_eq_some_iff.mp hx
  have hb : b - a = (b - (a + 1)) + 1 := by omega
  simp only [slice]
  rw [drop_eq_getElem_cons hlt, hb, take_succ_cons]

theorem slice_slice (xs : List α) {a b c d : ℕ} (hd : a + d ≤ b) :
    slice (slice xs a b) c d = slice xs (a + c) (a + d) := by
  simp only [slice, drop_take, drop_drop, take_take]
  congr 1
  omega

theorem getElem?_slice {xs : List α} {a b i : ℕ} (hi : a + i < b) :
    (slice xs a b)[i]? = xs[a + i]? := by
  simp only [slice]
  rw [getElem?_take_of_lt (by omega), getElem?_drop]

theorem vecGet_ofNat (xs : List α) (i : ℕ) : vecGet xs (i : ℤ) = xs[i]? := by
  have h : ¬((i : ℤ) < 0) := by omega
  simp [vecGet, h]

theorem vecGet_toNat {xs : List α} {i : ℤ} (hi : 0 ≤ i) : vecGet xs i = xs[i.toNat]? := by
  simp [vecGet, Int.not_lt.mpr hi]

theorem vecGet_vecSet {xs ys : List α} {i j : ℤ} {x : α} (h : vecSet xs i x = some ys) :
    vecGet ys j = if j = i then some x else vecGet xs j := by
  unfold vecSet at h
  split at h
  · simp at h
  · rename_i hi
    cases h
    push Not at hi
    by_cases hj : j < 0
    · have : j ≠ i := by omega
      simp [vecGet, hj, this]
    · simp only [vecGet, hj, if_false, getElem?_set]
      by_cases hij : j = i
      · subst hij
        have : j.toNat < xs.length := by omega
        simp [this]
      · have : i.toNat ≠ j.toNat := by omega
        simp [this, hij]

theorem vecSet_isSome {l : List α} {i : ℤ} (x : α) (h0 : 0 ≤ i) (h1 : i < l.length) :
    ∃ ys, vecSet l i x = some ys ∧ ys.length = l.length := by
  refine ⟨l.set i.toNat x, ?_, by simp⟩
  have : ¬(i < 0 ∨ (l.length : ℤ) ≤ i) := by omega
  simp [vecSet, this]

theorem split_at_index {xs : List α} {i : ℕ} {x : α} (h : xs[i]? = some x) :
    ∃ before after, xs = before ++ x :: after ∧ before.length = i := by
  obtain ⟨hlt, rfl⟩ := List.getElem?_eq_some_iff.mp h
  refine ⟨xs.take i, xs.drop (i + 1), ?_, by simp [Nat.le_of_lt hlt]⟩
  rw [← drop_eq_getElem_cons hlt, List.take_append_drop]

theorem sliceOf_flatten {pieces : List (List α)} {size : ℕ} (hsize : 0 < size)
    (h : ∀ piece ∈ pieces, piece.length = size) : ∀ index : ℕ,
      sliceOf pieces.flatten (index * size) (index * size + size) = pieces[index]? := by
  induction pieces with
  | nil =>
    intro index
    rw [sliceOf, if_neg (by simp only [flatten_nil, length_nil]; omega)]
    rfl
  | cons piece pieces ih =>
    have hpiece := h piece mem_cons_self
    intro index
    cases index with
    | zero =>
      rw [Nat.zero_mul, Nat.zero_add, sliceOf_eq (Nat.zero_le _) (by simp [hpiece]), slice_zero,
        flatten_cons, take_append_of_le_length (by omega), ← hpiece, take_length]
      rfl
    | succ index =>
      have hrest := ih (fun p hp => h p (mem_cons_of_mem _ hp)) index
      rw [getElem?_cons_succ, ← hrest, Nat.succ_mul, flatten_cons]
      simp only [sliceOf, slice, length_append, hpiece]
      have hdrop : (piece ++ pieces.flatten).drop (index * size + size) =
          pieces.flatten.drop (index * size) := by
        rw [Nat.add_comm, ← hpiece, drop_append, drop_of_length_le (by omega)]
        simp
      rw [hdrop]
      by_cases hle : index * size + size ≤ pieces.flatten.length
      · rw [if_pos ⟨by omega, by omega⟩, if_pos ⟨by omega, by omega⟩]
        congr 2
        omega
      · rw [if_neg (by omega), if_neg (by omega)]

end Slice

namespace CommonPrefix
open Slice

variable {α : Type*} [DecidableEq α]

def commonPrefix : List α → List α → ℕ
  | x :: xs, y :: ys => if x = y then commonPrefix xs ys + 1 else 0
  | _, _ => 0

attribute [local simp] commonPrefix

def commonSuffix (xs ys : List α) : ℕ := commonPrefix xs.reverse ys.reverse

attribute [local simp] commonSuffix

theorem commonPrefix_self (xs : List α) : commonPrefix xs xs = xs.length := by
  induction xs with
  | nil => rfl
  | cons x xs ih => simp [commonPrefix, ih]

theorem commonPrefix_le_left (xs ys : List α) : commonPrefix xs ys ≤ xs.length := by
  induction xs generalizing ys with
  | nil => simp
  | cons x xs ih =>
    cases ys with
    | nil => simp
    | cons y ys =>
      have := ih ys
      simp only [commonPrefix, List.length_cons]
      split <;> omega

theorem commonPrefix_comm (xs ys : List α) : commonPrefix xs ys = commonPrefix ys xs := by
  induction xs generalizing ys with
  | nil => simp
  | cons x xs ih =>
    cases ys with
    | nil => simp
    | cons y ys => simp only [commonPrefix, ih ys, eq_comm (a := x)]

theorem commonPrefix_le_right (xs ys : List α) : commonPrefix xs ys ≤ ys.length := by
  rw [commonPrefix_comm]
  exact commonPrefix_le_left ys xs

theorem take_commonPrefix (xs ys : List α) :
    xs.take (commonPrefix xs ys) = ys.take (commonPrefix xs ys) := by
  induction xs generalizing ys with
  | nil => simp
  | cons x xs ih =>
    cases ys with
    | nil => simp
    | cons y ys =>
      by_cases h : x = y
      · subst h
        simp [commonPrefix, ih ys]
      · simp [commonPrefix, h]

theorem getElem?_of_lt_commonPrefix {xs ys : List α} {i : ℕ} (h : i < commonPrefix xs ys) :
    xs[i]? = ys[i]? := by
  have ht := congrArg (·[i]?) (take_commonPrefix xs ys)
  simpa only [List.getElem?_take_of_lt h] using ht

theorem commonPrefix_maximal {xs ys : List α} {a : α}
    (hx : xs[commonPrefix xs ys]? = some a) : ys[commonPrefix xs ys]? ≠ some a := by
  induction xs generalizing ys with
  | nil => simp at hx
  | cons x xs ih =>
    cases ys with
    | nil => simp
    | cons y ys =>
      by_cases h : x = y
      · simp only [commonPrefix, h, if_true, List.getElem?_cons_succ] at hx ⊢
        exact ih hx
      · simp only [commonPrefix, h, if_false, List.getElem?_cons_zero, Option.some.injEq,
          ne_eq] at hx ⊢
        rintro rfl
        exact h hx

theorem commonSuffix_le_left (xs ys : List α) : commonSuffix xs ys ≤ xs.length := by
  simpa [commonSuffix] using commonPrefix_le_left xs.reverse ys.reverse

theorem commonSuffix_le_right (xs ys : List α) : commonSuffix xs ys ≤ ys.length := by
  simpa [commonSuffix] using commonPrefix_le_right xs.reverse ys.reverse

theorem drop_commonSuffix (xs ys : List α) :
    xs.drop (xs.length - commonSuffix xs ys) = ys.drop (ys.length - commonSuffix xs ys) := by
  have h := congrArg List.reverse (take_commonPrefix xs.reverse ys.reverse)
  simpa only [List.reverse_take, List.length_reverse, List.reverse_reverse, commonSuffix]
    using h

def commonEnds (xs ys : List α) : ℕ × ℕ :=
  let p := commonPrefix xs ys
  (p, commonSuffix (xs.drop p) (ys.drop p))

structure Ends (xs ys : List α) (p s : ℕ) : Prop where
  left : p + s ≤ xs.length
  right : p + s ≤ ys.length
  head : slice xs 0 p = slice ys 0 p
  tail : slice xs (xs.length - s) xs.length = slice ys (ys.length - s) ys.length

theorem commonEnds_spec (xs ys : List α) :
    Ends xs ys (commonEnds xs ys).1 (commonEnds xs ys).2 := by
  have hpl := commonPrefix_le_left xs ys
  have hpr := commonPrefix_le_right xs ys
  have hsl := commonSuffix_le_left (xs.drop (commonPrefix xs ys)) (ys.drop (commonPrefix xs ys))
  have hsr := commonSuffix_le_right (xs.drop (commonPrefix xs ys)) (ys.drop (commonPrefix xs ys))
  have hd := drop_commonSuffix (xs.drop (commonPrefix xs ys)) (ys.drop (commonPrefix xs ys))
  simp only [List.length_drop] at hsl hsr hd
  simp only [List.drop_drop] at hd
  refine ⟨?_, ?_, ?_, ?_⟩
  · simp only [commonEnds]; omega
  · simp only [commonEnds]; omega
  · simpa only [slice_zero, commonEnds] using take_commonPrefix xs ys
  · simp only [slice_to_end, commonEnds]
    have hx : xs.length - commonSuffix (xs.drop (commonPrefix xs ys))
        (ys.drop (commonPrefix xs ys)) = commonPrefix xs ys + (xs.length - commonPrefix xs ys -
        commonSuffix (xs.drop (commonPrefix xs ys)) (ys.drop (commonPrefix xs ys))) := by omega
    have hy : ys.length - commonSuffix (xs.drop (commonPrefix xs ys))
        (ys.drop (commonPrefix xs ys)) = commonPrefix xs ys + (ys.length - commonPrefix xs ys -
        commonSuffix (xs.drop (commonPrefix xs ys)) (ys.drop (commonPrefix xs ys))) := by omega
    rw [hx, hy]
    exact hd

theorem commonEnds_self (xs : List α) : commonEnds xs xs = (xs.length, 0) := by
  simp [commonEnds, commonPrefix_self, commonSuffix]

end CommonPrefix

namespace Slice

variable {α : Type*}

def rposition (p : α → Bool) : List α → Option ℕ
  | [] => none
  | x :: xs =>
    match rposition p xs with
    | some i => some (i + 1)
    | none => if p x then some 0 else none

attribute [local simp] rposition

theorem rposition_none {p : α → Bool} {xs : List α} :
    rposition p xs = none ↔ ∀ x ∈ xs, p x = false := by
  induction xs with
  | nil => simp [rposition]
  | cons x xs ih =>
    rw [List.forall_mem_cons, ← ih, rposition]
    cases rposition p xs <;> simp

theorem rposition_lt {p : α → Bool} {xs : List α} {i : ℕ} (h : rposition p xs = some i) :
    i < xs.length := by
  induction xs generalizing i with
  | nil => cases h
  | cons x xs ih =>
    rw [rposition] at h
    rw [List.length_cons]
    cases hxs : rposition p xs with
    | none =>
      rw [hxs] at h
      have hi : p x ∧ 0 = i := by simpa using h
      omega
    | some j =>
      rw [hxs] at h
      cases h
      exact Nat.succ_lt_succ (ih hxs)

theorem rposition_after {p : α → Bool} {xs : List α} {i : ℕ} (h : rposition p xs = some i) :
    ∀ x ∈ xs.drop (i + 1), p x = false := by
  induction xs generalizing i with
  | nil => cases h
  | cons x xs ih =>
    rw [rposition] at h
    rw [List.drop_succ_cons]
    cases hxs : rposition p xs with
    | none =>
      intro y hy
      exact rposition_none.mp hxs y (List.mem_of_mem_drop hy)
    | some j =>
      rw [hxs] at h
      cases h
      exact ih hxs

theorem rposition_drop {p : α → Bool} {xs : List α} {start i : ℕ}
    (h : rposition p (xs.drop start) = some i) : rposition p xs = some (i + start) := by
  induction start generalizing xs with
  | zero => exact h
  | succ start ih =>
    cases xs with
    | nil => cases h
    | cons x xs =>
      rw [rposition, ih h]
      rfl

def insertAll (pos : ℕ) : List α → List α → Option (List α)
  | [], xs => some xs
  | y :: ys, xs => if pos ≤ xs.length then insertAll (pos + 1) ys (xs.insertIdx pos y) else none

theorem insertAll_perm (ys : List α) : ∀ {pos : ℕ} {xs : List α}, pos ≤ xs.length →
    ∃ zs, insertAll pos ys xs = some zs ∧ zs.Perm (xs ++ ys) := by
  induction ys with
  | nil => exact fun _ => ⟨_, rfl, by simp⟩
  | cons y ys ih =>
    intro pos xs hpos
    have hlength : (xs.insertIdx pos y).length = xs.length + 1 :=
      List.length_insertIdx_of_le_length hpos y
    obtain ⟨zs, hzs, hperm⟩ := @ih (pos + 1) (xs.insertIdx pos y) (by omega)
    refine ⟨zs, by rw [insertAll, if_pos hpos, hzs], hperm.trans ?_⟩
    exact ((List.perm_insertIdx y xs hpos).append_right ys).trans List.perm_middle.symm

theorem take_append_drop_iff {xs : List α} {a b : ℕ} (ha : a ≤ xs.length) (hb : b ≤ xs.length) :
    xs.take a ++ xs.drop b = xs ↔ a = b := by
  constructor
  · intro h
    have hlength := congrArg List.length h
    rw [List.length_append, List.length_take_of_le ha, List.length_drop] at hlength
    omega
  · rintro rfl
    exact List.take_append_drop a xs

end Slice

namespace Splice
open Slice

variable {α : Type*} {text new : List α} {a b : ℕ}

def splice (text : List α) (a b : ℕ) (new : List α) : List α := text.take a ++ new ++ text.drop b

theorem length_splice (hab : a ≤ b) (hb : b ≤ text.length) :
    (splice text a b new).length = a + new.length + (text.length - b) := by
  rw [splice, List.length_append, List.length_append, List.length_take, List.length_drop,
    Nat.min_eq_left (Nat.le_trans hab hb)]

theorem getElem?_splice_before {i : ℕ} (ha : a ≤ text.length) (hi : i < a) :
    (splice text a b new)[i]? = text[i]? := by
  have hlength : (text.take a).length = a := by
    rw [List.length_take, Nat.min_eq_left ha]
  rw [splice, List.append_assoc, List.getElem?_append_left (hlength.symm ▸ hi),
    List.getElem?_take_of_lt hi]

theorem getElem?_splice_new {i : ℕ} (ha : a ≤ text.length) (hi : i < new.length) :
    (splice text a b new)[a + i]? = new[i]? := by
  have hlength : (text.take a).length = a := by
    rw [List.length_take, Nat.min_eq_left ha]
  rw [splice, List.append_assoc, List.getElem?_append_right (hlength.symm ▸ Nat.le_add_right a i),
    hlength, Nat.add_sub_cancel_left, List.getElem?_append_left hi]

theorem getElem?_splice_after (i : ℕ) (ha : a ≤ text.length) :
    (splice text a b new)[a + new.length + i]? = text[b + i]? := by
  have hlength : (text.take a ++ new).length = a + new.length := by
    rw [List.length_append, List.length_take, Nat.min_eq_left ha]
  rw [splice, List.getElem?_append_right (hlength.symm ▸ Nat.le_add_right _ i), hlength,
    Nat.add_sub_cancel_left, List.getElem?_drop]

theorem take_splice {n : ℕ} (ha : a ≤ text.length) (hn : n ≤ a) :
    (splice text a b new).take n = text.take n := by
  have hlength : (text.take a).length = a := by
    rw [List.length_take, Nat.min_eq_left ha]
  rw [splice, List.append_assoc, List.take_append_of_le_length (hlength.symm ▸ hn), List.take_take,
    Nat.min_eq_left hn]

theorem drop_splice (ha : a ≤ text.length) :
    (splice text a b new).drop (a + new.length) = text.drop b := by
  have hlength : (text.take a ++ new).length = a + new.length := by
    rw [List.length_append, List.length_take, Nat.min_eq_left ha]
  rw [splice, ← hlength, List.drop_left]

theorem slice_congr {xs ys : List α} {a b a' b' : ℕ} (hlength : b - a = b' - a')
    (h : ∀ i, a + i < b → xs[a + i]? = ys[a' + i]?) : slice xs a b = slice ys a' b' := by
  refine List.ext_getElem? fun i => ?_
  rw [slice, slice]
  by_cases hi : i < b - a
  · rw [List.getElem?_take_of_lt hi, List.getElem?_take_of_lt (hlength ▸ hi), List.getElem?_drop,
      List.getElem?_drop]
    exact h i (by omega)
  · rw [List.getElem?_take_eq_none (Nat.not_lt.mp hi),
      List.getElem?_take_eq_none (hlength ▸ Nat.not_lt.mp hi)]

theorem slice_splice_before {start stop : ℕ} (ha : a ≤ text.length) (hstop : stop ≤ a) :
    slice (splice text a b new) start stop = slice text start stop :=
  slice_congr rfl fun _ hi => getElem?_splice_before ha (Nat.lt_of_lt_of_le hi hstop)

theorem slice_splice_after {start stop start' stop' : ℕ} (ha : a ≤ text.length)
    (hstart : b ≤ start) (hstart' : start' + b = start + (a + new.length))
    (hstop' : stop' + b = stop + (a + new.length)) :
    slice (splice text a b new) start' stop' = slice text start stop := by
  refine slice_congr (by omega) fun i _ => ?_
  have hshift : (splice text a b new)[a + new.length + (start - b + i)]? =
      text[b + (start - b + i)]? := getElem?_splice_after _ ha
  have hleft : a + new.length + (start - b + i) = start' + i := by omega
  have hright : b + (start - b + i) = start + i := by omega
  rw [hleft, hright] at hshift
  exact hshift

end Splice
