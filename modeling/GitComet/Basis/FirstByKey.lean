import Mathlib.Data.List.Perm.Basic

namespace FirstByKey
open List

variable {α κ : Type} [DecidableEq κ] {key : α → κ}

def unseen (key : α → κ) : List κ → List α → List α
  | _, [] => []
  | seen, x :: xs =>
    if key x ∈ seen then unseen key seen xs else x :: unseen key (key x :: seen) xs

def seenAfter (key : α → κ) (seen : List κ) (xs : List α) : List κ :=
  ((unseen key seen xs).map key).reverse ++ seen

variable {seen : List κ} {x : α}

theorem unseen_cons_of_mem (h : key x ∈ seen) (xs : List α) :
    unseen key seen (x :: xs) = unseen key seen xs := by rw [unseen, if_pos h]

theorem unseen_cons_of_notMem (h : key x ∉ seen) (xs : List α) :
    unseen key seen (x :: xs) = x :: unseen key (key x :: seen) xs := by rw [unseen, if_neg h]

theorem seenAfter_cons_of_mem (h : key x ∈ seen) (xs : List α) :
    seenAfter key seen (x :: xs) = seenAfter key seen xs := by
  rw [seenAfter, seenAfter, unseen_cons_of_mem h]

theorem seenAfter_cons_of_notMem (h : key x ∉ seen) (xs : List α) :
    seenAfter key seen (x :: xs) = seenAfter key (key x :: seen) xs := by
  rw [seenAfter, seenAfter, unseen_cons_of_notMem h]
  simp

theorem unseen_sublist (seen : List κ) (xs : List α) : (unseen key seen xs).Sublist xs := by
  induction xs generalizing seen with
  | nil => exact Sublist.refl _
  | cons x xs ih =>
    by_cases h : key x ∈ seen
    · rw [unseen_cons_of_mem h]
      exact (ih seen).cons x
    · rw [unseen_cons_of_notMem h]
      exact (ih _).cons_cons x

variable {xs : List α}

theorem mem_unseen_keys {k : κ} : k ∈ (unseen key seen xs).map key ↔ k ∈ xs.map key ∧ k ∉ seen := by
  induction xs generalizing seen with
  | nil => simp [unseen]
  | cons x xs ih =>
    by_cases h : key x ∈ seen
    · rw [unseen_cons_of_mem h, ih, map_cons, mem_cons]
      refine ⟨fun ⟨hk, hseen⟩ => ⟨.inr hk, hseen⟩, fun ⟨hk, hseen⟩ => ⟨hk.resolve_left ?_, hseen⟩⟩
      rintro rfl
      exact hseen h
    · rw [unseen_cons_of_notMem h, map_cons, mem_cons, ih, map_cons, mem_cons, mem_cons, not_or]
      by_cases hk : k = key x
      · simp [hk, h]
      · simp [hk]

theorem unseen_keys_nodup (seen : List κ) (xs : List α) : ((unseen key seen xs).map key).Nodup := by
  induction xs generalizing seen with
  | nil => exact nodup_nil
  | cons x xs ih =>
    by_cases h : key x ∈ seen
    · rw [unseen_cons_of_mem h]
      exact ih seen
    · rw [unseen_cons_of_notMem h, map_cons]
      refine nodup_cons.mpr ⟨fun hx => ?_, ih _⟩
      exact (mem_unseen_keys.mp hx).2 mem_cons_self

theorem mem_seenAfter {k : κ} : k ∈ seenAfter key seen xs ↔ k ∈ seen ∨ k ∈ xs.map key := by
  rw [seenAfter, mem_append, mem_reverse, mem_unseen_keys]
  by_cases hseen : k ∈ seen <;> simp [hseen]

theorem unseen_eq_nil (h : ∀ k ∈ xs.map key, k ∈ seen) : unseen key seen xs = [] := by
  induction xs with
  | nil => rfl
  | cons x xs ih =>
    rw [unseen_cons_of_mem (h _ mem_cons_self)]
    exact ih fun k hk => h k (mem_cons_of_mem _ hk)

theorem unseen_eq_self (hnodup : (xs.map key).Nodup)
    (h : ∀ k ∈ xs.map key, k ∉ seen) : unseen key seen xs = xs := by
  induction xs generalizing seen with
  | nil => rfl
  | cons x xs ih =>
    rw [map_cons, nodup_cons] at hnodup
    rw [unseen_cons_of_notMem (h _ mem_cons_self), ih hnodup.2 fun k hk hseen => ?_]
    rcases mem_cons.mp hseen with rfl | hseen
    · exact hnodup.1 hk
    · exact h k (mem_cons_of_mem _ hk) hseen

theorem joined_keys {ys joined : List α}
    (h : joined.Perm (unseen key [] xs ++ unseen key (seenAfter key [] xs) ys)) :
    (joined.map key).Nodup ∧ ∀ k, k ∈ joined.map key ↔ k ∈ xs.map key ∨ k ∈ ys.map key := by
  have hperm := h.map key
  rw [map_append] at hperm
  constructor
  · refine hperm.nodup_iff.mpr (nodup_append.mpr
      ⟨unseen_keys_nodup _ _, unseen_keys_nodup _ _, fun k hk k' hk' heq => ?_⟩)
    have hseen : k ∈ seenAfter key [] xs := mem_seenAfter.mpr (.inr (mem_unseen_keys.mp hk).1)
    exact (mem_unseen_keys.mp hk').2 (heq ▸ hseen)
  · intro k
    rw [hperm.mem_iff, mem_append, mem_unseen_keys, mem_unseen_keys, mem_seenAfter]
    by_cases hk : k ∈ xs.map key <;> simp [hk]

theorem mem_of_joined {ys joined : List α}
    (h : joined.Perm (unseen key [] xs ++ unseen key (seenAfter key [] xs) ys))
    (hx : x ∈ joined) : x ∈ xs ∨ x ∈ ys :=
  (mem_append.mp (h.mem_iff.mp hx)).imp (fun hx => (unseen_sublist _ _).subset hx)
    fun hx => (unseen_sublist _ _).subset hx

end FirstByKey
