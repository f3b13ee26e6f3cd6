import Mathlib.Data.List.Infix
import Mathlib.Order.Compare

namespace SumTree
open List Nat Bool

inductive Bias
  | left
  | right
  deriving DecidableEq

def Bias.stops (bias : Bias) : Ordering → Bool
  | .lt => true
  | .eq => bias = .left
  | .gt => false

theorem left_stops {target stop : ℕ} :
    Bias.left.stops (compare target stop) ↔ target ≤ stop := by
  rcases lt_trichotomy target stop with h | h | h
  · rw [Nat.compare_eq_lt.mpr h]
    exact iff_of_true rfl (le_of_lt h)
  · rw [Nat.compare_eq_eq.mpr h]
    exact iff_of_true rfl (le_of_eq h)
  · rw [Nat.compare_eq_gt.mpr h]
    exact iff_of_false false_ne_true (not_le_of_gt h)

theorem right_stops {target stop : ℕ} :
    Bias.right.stops (compare target stop) ↔ target < stop := by
  rcases lt_trichotomy target stop with h | h | h
  · rw [Nat.compare_eq_lt.mpr h]
    exact iff_of_true rfl h
  · rw [Nat.compare_eq_eq.mpr h]
    exact iff_of_false false_ne_true (by omega)
  · rw [Nat.compare_eq_gt.mpr h]
    exact iff_of_false false_ne_true (by omega)

class Dimension (S D : Type) where
  zero : D
  addSummary : D → S → D

instance {S D E : Type} [Dimension S D] [Dimension S E] : Dimension S (D × E) where
  zero := (Dimension.zero S, Dimension.zero S)
  addSummary position summary :=
    (Dimension.addSummary position.1 summary, Dimension.addSummary position.2 summary)

section

variable {α S D : Type} (summary : α → S) [Dimension S D]

def total (items : List α) : D :=
  items.foldl (fun position item => Dimension.addSummary position (summary item)) (Dimension.zero S)

structure Cursor (α D : Type) where
  before : List α
  start : D
  items : List α

def Cursor.item (cursor : Cursor α D) : Option α := cursor.items.head?

def Cursor.slice (cursor : Cursor α D) : List α := cursor.before
def Cursor.suffix (cursor : Cursor α D) : List α := cursor.items

def Cursor.next (cursor : Cursor α D) : Cursor α D :=
  match cursor.items with
  | [] => cursor
  | item :: items =>
    ⟨cursor.before ++ [item], Dimension.addSummary cursor.start (summary item), items⟩

def seekFrom (stops : D → Bool) (before : List α) (start : D) : List α → Cursor α D
  | [] => ⟨before, start, []⟩
  | item :: items =>
    let stop := Dimension.addSummary start (summary item)
    if stops stop then ⟨before, start, item :: items⟩
    else seekFrom stops (before ++ [item]) stop items

def seek (stops : D → Bool) (items : List α) : Cursor α D :=
  seekFrom summary stops [] (Dimension.zero S) items

@[simp] theorem total_nil : total summary [] = (Dimension.zero S : D) := rfl

@[simp] theorem total_concat (items : List α) (item : α) :
    total summary (items ++ [item]) =
      Dimension.addSummary (total summary items : D) (summary item) := by
  simp [total]

theorem total_pair {E : Type} [Dimension S E] (items : List α) :
    (total summary items : D × E) = (total summary items, total summary items) := by
  induction items using reverseRecOn with
  | nil => rfl
  | append_singleton items item ih =>
    rw [total_concat, total_concat, total_concat, ih]
    rfl

structure Lands (stops : D → Bool) (items : List α) (cursor : Cursor α D) : Prop where
  split : cursor.before ++ cursor.items = items
  start_eq : cursor.start = total summary cursor.before
  past : cursor.before = [] ∨ stops cursor.start = false
  reached : ∀ item rest, cursor.items = item :: rest →
    stops (Dimension.addSummary cursor.start (summary item)) = true

variable {summary}

theorem seekFrom_lands {stops : D → Bool} {b : List α} {s : D} (items : List α)
    (hstart : s = total summary b) (hpast : b = [] ∨ stops s = false) :
    Lands summary stops (b ++ items) (seekFrom summary stops b s items) := by
  induction items generalizing b s with
  | nil => exact ⟨rfl, hstart, hpast, fun _ _ h => nomatch h⟩
  | cons item items ih =>
    rw [seekFrom]
    split
    · rename_i hstop
      refine ⟨rfl, hstart, hpast, fun first rest h => ?_⟩
      obtain ⟨rfl, -⟩ := List.cons.inj h
      exact hstop
    · rename_i hstop
      have hnext := ih (b := b ++ [item])
        (s := Dimension.addSummary s (summary item)) (by rw [hstart, total_concat])
        (.inr (eq_false_iff.mpr hstop))
      rwa [append_assoc, singleton_append] at hnext

variable (summary) in
theorem seek_lands (stops : D → Bool) (items : List α) :
    Lands summary stops items (seek summary stops items) :=
  seekFrom_lands items rfl (.inl rfl)

theorem seekFrom_at {stops : D → Bool} {before items : List α} {f : List α}
    (hskip : ∀ first, first <+: before → first ≠ [] → stops (total summary (f ++ first)) = false)
    (hstop : ∀ item rest, items = item :: rest →
      stops (total summary (f ++ before ++ [item]))) :
    seekFrom summary stops f (total summary f) (before ++ items) =
      ⟨f ++ before, total summary (f ++ before), items⟩ := by
  induction before generalizing f with
  | nil =>
    rw [append_nil] at hstop ⊢
    cases items with
    | nil => rfl
    | cons item rest =>
      have hitem := hstop item rest rfl
      rw [total_concat] at hitem
      rw [nil_append, seekFrom, if_pos hitem]
  | cons item before ih =>
    have hitem := hskip [item] (prefix_append [item] before) (cons_ne_nil _ _)
    have hfront : f ++ item :: before = f ++ [item] ++ before := by simp
    rw [hfront] at hstop ⊢
    rw [cons_append, seekFrom, ← total_concat, hitem, if_neg Bool.false_ne_true]
    refine ih (fun first hfirst _ => ?_) hstop
    have hlater := hskip (item :: first) (prefix_cons_inj item |>.mpr hfirst)
      (cons_ne_nil _ _)
    rwa [append_assoc, singleton_append]

variable (summary) in
theorem seek_at {s : D → Bool} (b items : List α)
    (hskip : ∀ first, first <+: b → first ≠ [] → s (total summary first) = false)
    (hstop : ∀ item rest, items = item :: rest → s (total summary (b ++ [item]))) :
    seek summary s (b ++ items) = ⟨b, total summary b, items⟩ :=
  seekFrom_at (f := []) hskip hstop

section

variable {m : D → ℕ} {target : ℕ} {items : List α} {cursor : Cursor α D}

theorem lands_left (hm : m (Dimension.zero S) = 0)
    (h : Lands summary (fun stop => Bias.left.stops (compare target (m stop))) items cursor)
    (htarget : target ≤ m (total summary items)) :
    (items = [] ∧ cursor = ⟨[], Dimension.zero S, []⟩) ∨
      ∃ before item rest, items = before ++ item :: rest ∧
        cursor = ⟨before, total summary before, item :: rest⟩ ∧
        m (total summary before) ≤ target ∧ target ≤ m (total summary (before ++ [item])) := by
  obtain ⟨before, start, later⟩ := cursor
  obtain ⟨hsplit, hstart, hpast, hreached⟩ := h
  dsimp only at hsplit hstart hpast hreached
  subst hstart
  have hbefore : before = [] ∨ m (total summary before) < target := by
    refine hpast.imp_right fun hstop => ?_
    rw [← not_eq_true, left_stops] at hstop
    exact Nat.lt_of_not_le hstop
  cases later with
  | nil =>
    rw [append_nil] at hsplit
    subst hsplit
    rcases hbefore with rfl | hlt
    · exact .inl ⟨rfl, rfl⟩
    · exact absurd htarget (not_le_of_gt hlt)
  | cons item rest =>
    refine .inr ⟨before, item, rest, hsplit.symm, rfl, ?_, ?_⟩
    · rcases hbefore with rfl | hlt
      · rw [total_nil, hm]
        exact zero_le _
      · exact le_of_lt hlt
    · rw [total_concat]
      exact left_stops.mp (hreached item rest rfl)

theorem lands_right (hm : m (Dimension.zero S) = 0)
    (h : Lands summary (fun stop => Bias.right.stops (compare target (m stop))) items cursor) :
    (cursor = ⟨items, total summary items, []⟩ ∧ m (total summary items) ≤ target) ∨
      ∃ before item rest, items = before ++ item :: rest ∧
        cursor = ⟨before, total summary before, item :: rest⟩ ∧
        m (total summary before) ≤ target ∧ target < m (total summary (before ++ [item])) := by
  obtain ⟨before, start, later⟩ := cursor
  obtain ⟨hsplit, hstart, hpast, hreached⟩ := h
  dsimp only at hsplit hstart hpast hreached
  subst hstart
  have hbefore : m (total summary before) ≤ target := by
    rcases hpast with rfl | hstop
    · rw [total_nil, hm]
      exact zero_le _
    · rw [← not_eq_true, right_stops] at hstop
      exact Nat.le_of_not_lt hstop
  cases later with
  | nil =>
    rw [append_nil] at hsplit
    subst hsplit
    exact .inl ⟨rfl, hbefore⟩
  | cons item rest =>
    refine .inr ⟨before, item, rest, hsplit.symm, rfl, hbefore, ?_⟩
    rw [total_concat]
    exact right_stops.mp (hreached item rest rfl)

end

end

end SumTree
