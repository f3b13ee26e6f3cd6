import Mathlib.Order.Lattice
import Mathlib.Data.List.Induction

namespace KeyGroups
open List
variable {K V : Type} [LinearOrder K]

def enter (key : K) (value : V) : List (K × List V) → List (K × List V)
  | [] => [(key, [value])]
  | (k, values) :: groups =>
    if key < k then (key, [value]) :: (k, values) :: groups
    else if key = k then (k, value :: values) :: groups
    else (k, values) :: enter key value groups

attribute [local simp] enter

def groups (entries : List (K × V)) : List (K × List V) :=
  entries.foldl (fun groups entry => enter entry.1 entry.2 groups) []

def Sorted (groups : List (K × List V)) : Prop := groups.Pairwise fun a b => a.1 < b.1

def Holds (groups : List (K × List V)) (key : K) (value : V) : Prop :=
  ∃ values, (key, values) ∈ groups ∧ value ∈ values

theorem enter_keys (key : K) (value : V) (groups : List (K × List V)) :
    ∀ group ∈ enter key value groups, group.1 = key ∨ group.1 ∈ groups.map Prod.fst := by
  induction groups with
  | nil => simp [enter]
  | cons head groups ih =>
    obtain ⟨k, values⟩ := head
    intro group hgroup
    unfold enter at hgroup
    split at hgroup
    · rcases mem_cons.mp hgroup with rfl | hgroup
      · exact .inl rfl
      · exact .inr (mem_map_of_mem hgroup)
    split at hgroup
    · rcases mem_cons.mp hgroup with rfl | hgroup
      · exact .inr mem_cons_self
      · exact .inr (mem_cons_of_mem _ (mem_map_of_mem hgroup))
    · rcases mem_cons.mp hgroup with rfl | hgroup
      · exact .inr mem_cons_self
      · exact (ih group hgroup).imp_right (mem_cons_of_mem _)

theorem enter_sorted {key : K} (value : V) {groups : List (K × List V)} (h : Sorted groups) :
    Sorted (enter key value groups) := by
  induction groups with
  | nil => exact pairwise_singleton _ _
  | cons head groups ih =>
    obtain ⟨k, values⟩ := head
    obtain ⟨hhead, htail⟩ := pairwise_cons.mp h
    unfold enter
    split
    · rename_i hlt
      refine pairwise_cons.mpr ⟨fun group hgroup => ?_, h⟩
      rcases mem_cons.mp hgroup with rfl | hgroup
      · exact hlt
      · exact lt_trans hlt (hhead group hgroup)
    split
    · exact pairwise_cons.mpr ⟨hhead, htail⟩
    · rename_i hge hne
      refine pairwise_cons.mpr ⟨fun group hgroup => ?_, ih htail⟩
      rcases enter_keys key value groups group hgroup with heq | hmem
      · exact heq ▸ lt_of_le_of_ne (not_lt.mp hge) (Ne.symm hne)
      · obtain ⟨other, hother, heq⟩ := mem_map.mp hmem
        exact heq ▸ hhead other hother

theorem enter_holds (key : K) (value : V) (groups : List (K × List V)) (k : K) (v : V) :
    Holds (enter key value groups) k v ↔ (k = key ∧ v = value) ∨ Holds groups k v := by
  induction groups with
  | nil =>
    simp [enter, Holds]
  | cons head groups ih =>
    obtain ⟨k', values⟩ := head
    unfold enter
    simp only [Holds] at ih ⊢
    split
    · simp [or_and_right, exists_or, and_assoc]
    split
    · rename_i heq
      subst heq
      simp only [mem_cons, Prod.mk.injEq, or_and_right, exists_or, and_assoc,
        exists_and_left, exists_eq_left]
      grind
    · simp only [mem_cons, or_and_right, exists_or, ih]
      grind

theorem enter_filled {key : K} {value : V} {groups : List (K × List V)}
    (h : ∀ group ∈ groups, group.2 ≠ []) : ∀ group ∈ enter key value groups, group.2 ≠ [] := by
  induction groups with
  | nil => simp [enter]
  | cons head groups ih =>
    obtain ⟨k, values⟩ := head
    obtain ⟨hhead, htail⟩ := forall_mem_cons.mp h
    unfold enter
    split
    · exact forall_mem_cons.mpr ⟨cons_ne_nil _ _, h⟩
    split
    · exact forall_mem_cons.mpr ⟨cons_ne_nil _ _, htail⟩
    · exact forall_mem_cons.mpr ⟨hhead, ih htail⟩

structure GroupsOf (entries : List (K × V)) (groups : List (K × List V)) : Prop where
  sorted : Sorted groups
  holds : ∀ k v, Holds groups k v ↔ (k, v) ∈ entries
  filled : ∀ group ∈ groups, group.2 ≠ []

variable {entries : List (K × V)} {gs : List (K × List V)}

theorem groupsOf_enter (h : GroupsOf entries gs) (key : K) (value : V) :
    GroupsOf (entries ++ [(key, value)]) (enter key value gs) where
  sorted := enter_sorted value h.sorted
  holds k v := by
    rw [enter_holds, h.holds, mem_append, mem_singleton, Prod.mk.injEq, or_comm]
  filled := enter_filled h.filled

theorem groups_spec (entries : List (K × V)) : GroupsOf entries (groups entries) := by
  induction entries using reverseRecOn with
  | nil => exact ⟨Pairwise.nil, by simp [Holds, groups], by simp [groups]⟩
  | append_singleton entries entry ih =>
    rw [groups, foldl_append]
    exact groupsOf_enter ih entry.1 entry.2

theorem mem_keys_iff (h : GroupsOf entries gs)
    (k : K) : k ∈ gs.map Prod.fst ↔ ∃ v, (k, v) ∈ entries := by
  constructor
  · intro hk
    obtain ⟨⟨k', values⟩, hmem, rfl⟩ := mem_map.mp hk
    obtain ⟨v, rest, hvalues⟩ := exists_cons_of_ne_nil (h.filled _ hmem)
    dsimp only at hvalues
    exact ⟨v, (h.holds _ _).mp ⟨values, hmem, hvalues ▸ mem_cons_self⟩⟩
  · rintro ⟨v, hv⟩
    obtain ⟨values, hmem, _⟩ := (h.holds k v).mpr hv
    exact mem_map.mpr ⟨_, hmem, rfl⟩

theorem sorted_keys (h : Sorted gs) :
    (gs.map Prod.fst).Pairwise (· < ·) := pairwise_map.mpr h

theorem group_unique (h : Sorted gs) {k : K} {xs ys : List V}
    (hx : (k, xs) ∈ gs) (hy : (k, ys) ∈ gs) : xs = ys := by
  induction gs with
  | nil => simp at hx
  | cons head gs ih =>
    obtain ⟨hhead, htail⟩ := pairwise_cons.mp h
    rcases mem_cons.mp hx with hhx | hxs
    · rcases mem_cons.mp hy with hhy | hys
      · exact (Prod.mk.inj (hhx.trans hhy.symm)).2
      · subst hhx
        exact absurd (hhead (k, ys) hys : k < k) (lt_irrefl k)
    · rcases mem_cons.mp hy with hhy | hys
      · subst hhy
        exact absurd (hhead (k, xs) hxs : k < k) (lt_irrefl k)
      · exact ih htail hxs hys

theorem group_mem_iff (h : GroupsOf entries gs)
    {k : K} {values : List V} (hmem : (k, values) ∈ gs) (v : V) :
    v ∈ values ↔ (k, v) ∈ entries := by
  rw [← h.holds]
  constructor
  · exact fun hv => ⟨values, hmem, hv⟩
  · rintro ⟨others, hothers, hv⟩
    rwa [group_unique h.sorted hmem hothers]

theorem sorted_eq {xs ys : List K} (hx : xs.Pairwise (· < ·)) (hy : ys.Pairwise (· < ·))
    (h : ∀ k, k ∈ xs ↔ k ∈ ys) : xs = ys := by
  have hperm : xs.Perm ys := (perm_ext_iff_of_nodup
    (hx.imp fun hlt => ne_of_lt hlt) (hy.imp fun hlt => ne_of_lt hlt)).mpr h
  exact hperm.eq_of_pairwise (fun a b _ _ hab hba => absurd (lt_trans hab hba) (lt_irrefl a)) hx hy

end KeyGroups
