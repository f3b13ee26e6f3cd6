import GitComet.Graph.Walk

namespace GitComet.Graph
open Slots List Option Nat Function

namespace GraphWalk

structure Indexed (w : GraphWalk) : Prop where
  free : ∀ col, col ∈ w.free ↔ col < w.lanes.length ∧ slotAt w.lanes col = none
  targets : ∀ target col, col ∈ w.targets target ↔
    ∃ lane, slotAt w.lanes col = some lane ∧ lane.target = target
  nodup : ∀ target, (w.targets target).Nodup
  colors : ∀ color, w.colors color = w.lanes.countP fun slot => slot.any (·.color = color)

section

variable {w : GraphWalk} (h : w.Indexed)
include h

theorem Indexed.sorted_targets (target : ℕ) :
    (w.targets target).insertionSort (· ≤ ·) =
      columns (fun lane => lane.target = target) w.lanes := by
  refine Perm.eq_of_pairwise (fun a b _ _ => le_antisymm) (pairwise_insertionSort _ _)
    ((columns_sorted w.lanes _).imp le_of_lt) ?_
  refine (perm_insertionSort _ _).trans ?_
  refine (perm_ext_iff_of_nodup (h.nodup target)
    ((columns_sorted w.lanes _).imp ne_of_lt)).mpr fun col => ?_
  rw [h.targets, mem_columns]
  simp

theorem Indexed.targets_empty (target : ℕ) :
    (w.targets target).isEmpty = !w.lanes.any fun slot => slot.any (·.target = target) := by
  rw [Bool.eq_iff_iff, List.isEmpty_iff, eq_nil_iff_forall_not_mem, Bool.not_eq_true',
    ← Bool.not_eq_true, any_iff]
  constructor
  · rintro hnone ⟨col, lane, hlane, htarget⟩
    exact hnone col ((h.targets target col).mpr ⟨lane, hlane, of_decide_eq_true htarget⟩)
  · intro hnone col hcol
    obtain ⟨lane, hlane, htarget⟩ := (h.targets target col).mp hcol
    exact hnone ⟨col, lane, hlane, decide_eq_true htarget⟩

theorem Indexed.used (color : LaneColorIx) :
    decide (w.colors color ≠ 0) = w.lanes.any fun slot => slot.any (·.color = color) := by
  rw [Bool.eq_iff_iff, decide_eq_true_iff, h.colors, ← Nat.pos_iff_ne_zero, countP_pos_iff,
    List.any_eq_true]

theorem Indexed.mem_free {col : ℕ} : col ∈ w.free ↔ w.lanes[col]? = some none := by
  rw [h.free, slotAt]
  constructor
  · rintro ⟨hlt, hnone⟩
    rw [getElem?_eq_getElem hlt] at hnone ⊢
    exact congrArg some hnone
  · intro hnone
    exact ⟨(List.getElem?_eq_some_iff.mp hnone).1, by rw [hnone, join_some]⟩

theorem Indexed.first_none {start : ℕ} (hnone : first (w.free.filter (start ≤ ·)) = none) :
    holeFrom w.lanes start = w.lanes.length := by
  refine holeFrom_eq_length fun other hstart hhole => ?_
  rw [first] at hnone
  split_ifs at hnone with hsome
  exact hsome ⟨other, Finset.mem_filter.mpr ⟨h.mem_free.mpr hhole, hstart⟩⟩

theorem Indexed.first_some {start col : ℕ} (hsome : first (w.free.filter (start ≤ ·)) = some col) :
    holeFrom w.lanes start = col ∧ col < w.lanes.length := by
  rw [first] at hsome
  split_ifs at hsome with hne
  cases hsome
  obtain ⟨hfree, hstart⟩ := Finset.mem_filter.mp (Finset.min'_mem _ hne)
  refine ⟨holeFrom_eq_of_least hstart (h.mem_free.mp hfree) ?_, ((h.free _).mp hfree).1⟩
  intro other hother hhole
  exact Finset.min'_le _ _ (Finset.mem_filter.mpr ⟨h.mem_free.mpr hhole, hother⟩)

theorem Indexed.alloc_eq (prefer : ℕ) : w.alloc prefer = pickHole w.lanes prefer := by
  have hall : w.free.filter (0 ≤ ·) = w.free := Finset.filter_true_of_mem fun _ _ => zero_le _
  rw [alloc, pickHole]
  cases hpreferred : first (w.free.filter (prefer ≤ ·)) with
  | some col =>
    obtain ⟨hhole, hlt⟩ := h.first_some hpreferred
    rw [hhole, if_pos hlt]
    rfl
  | none =>
    rw [h.first_none hpreferred, if_neg (lt_irrefl _), none_or]
    cases hany : first w.free with
    | some col => exact (h.first_some (hall.symm ▸ hany)).1.symm
    | none => exact (h.first_none (hall.symm ▸ hany)).symm

theorem Indexed.placeLane {col : ℕ} (lane : LiveLane) (hle : col ≤ w.lanes.length)
    (hnone : slotAt w.lanes col = none) : (w.placeLane col lane).Indexed := by
  have hslot : ∀ other, slotAt (w.placeLane col lane).lanes other =
      if other = col then some lane else slotAt w.lanes other := fun _ => slotAt_place _ hle
  have hvacant : ∀ target, col ∉ w.targets target := by
    intro target hcol
    obtain ⟨old, hold, -⟩ := (h.targets target col).mp hcol
    rw [hnone] at hold
    cases hold
  refine ⟨fun other => ?_, fun target other => ?_, fun target => ?_, fun color => ?_⟩
  · rw [GraphWalk.placeLane, Finset.mem_erase, h.free, length_place _ hle, slotAt_place _ hle]
    split_ifs with hsame
    · exact iff_of_false (fun hne => hne.1 hsame) fun hsome => by cases hsome.2
    · constructor
      · rintro ⟨-, hlt, hother⟩
        exact ⟨by omega, hother⟩
      · rintro ⟨hlt, hother⟩
        exact ⟨hsame, by omega, hother⟩
  · rw [hslot, GraphWalk.placeLane]
    dsimp only
    by_cases htarget : target = lane.target
    · rw [htarget, update_self, mem_append, mem_singleton, h.targets]
      split_ifs with hsame
      · exact iff_of_true (.inr hsame) ⟨lane, rfl, rfl⟩
      · simp only [hsame, or_false]
    · rw [update_of_ne htarget, h.targets]
      split_ifs with hsame
      · rw [hsame, hnone]
        constructor
        · rintro ⟨old, hold, -⟩
          cases hold
        · rintro ⟨placed, hplaced, rfl⟩
          exact absurd (congrArg LiveLane.target (some.inj hplaced)).symm htarget
      · rfl
  · rw [GraphWalk.placeLane]
    dsimp only
    by_cases htarget : target = lane.target
    · rw [htarget, update_self]
      exact Nodup.append (h.nodup _) (nodup_singleton _)
        (disjoint_singleton.mpr (hvacant _))
    · rw [update_of_ne htarget]
      exact h.nodup _
  · rw [GraphWalk.placeLane]
    dsimp only
    rw [countP_place _ hle hnone]
    by_cases hcolor : color = lane.color
    · rw [hcolor, update_self, h.colors, if_pos (decide_eq_true rfl)]
    · rw [update_of_ne hcolor, h.colors,
        if_neg fun hsame => hcolor (of_decide_eq_true hsame).symm]
      rfl

omit h in
theorem length_modify {col : ℕ} {f : LiveLane → LiveLane} :
    (alter w.lanes col f).length = w.lanes.length := List.length_modify _ _ _

theorem Indexed.mem_leave {col other target : ℕ} {lane : LiveLane}
    (hlane : slotAt w.lanes col = some lane) :
    other ∈ w.leave col lane.target target ↔ other ≠ col ∧ other ∈ w.targets target := by
  rw [leave]
  by_cases htarget : target = lane.target
  · rw [htarget, update_self, mem_filter, and_comm]
    simp
  · rw [update_of_ne htarget]
    refine ⟨fun hother => ⟨?_, hother⟩, fun hother => hother.2⟩
    rintro rfl
    obtain ⟨old, hold, rfl⟩ := (h.targets target other).mp hother
    exact htarget (congrArg LiveLane.target (some.inj (hold.symm.trans hlane)))

theorem Indexed.nodup_leave (col target other : ℕ) : (w.leave col target other).Nodup := by
  rw [leave]
  by_cases htarget : other = target
  · rw [htarget, update_self]
    exact (h.nodup _).filter _
  · rw [update_of_ne htarget]
    exact h.nodup _

theorem Indexed.take (col : ℕ) : (w.take col).1.Indexed := by
  rw [GraphWalk.take]
  split
  next => exact h
  next lane hlane =>
    have hlt := lt_length_of_slotAt _ hlane
    refine ⟨fun other => ?_, fun target other => ?_, fun target => ?_, fun color => ?_⟩
    · dsimp only
      rw [Finset.mem_insert, h.free, slotAt_vacate, vacate, length_set]
      split_ifs with hsame
      · exact iff_of_true (.inl hsame) ⟨hsame ▸ hlt, rfl⟩
      · simp only [hsame, false_or]
    · dsimp only
      rw [slotAt_vacate, h.mem_leave hlane, h.targets]
      split_ifs with hsame
      · exact iff_of_false (fun hne => hne.1 hsame) fun hsome =>
          hsome.elim fun _ hfalse => hfalse.1
      · simp only [ne_eq, hsame, not_false_eq_true, true_and]
    · exact h.nodup_leave _ _ _
    · dsimp only
      rw [countP_vacate _ hlane]
      by_cases hcolor : color = lane.color
      · rw [hcolor, update_self, h.colors, if_pos (decide_eq_true rfl)]
      · rw [update_of_ne hcolor, h.colors,
          if_neg fun hsame => hcolor (of_decide_eq_true hsame).symm]
        rfl

theorem Indexed.retarget (col parent : ℕ) : (w.retarget col parent).Indexed := by
  rw [GraphWalk.retarget]
  split
  next => exact h
  next lane hlane =>
    have hlt := lt_length_of_slotAt _ hlane
    refine ⟨fun other => ?_, fun target other => ?_, fun target => ?_, fun color => ?_⟩
    · dsimp only
      rw [h.free, slotAt_alter, length_modify]
      split_ifs with hsame
      · rw [map_eq_none_iff]
      · rfl
    · dsimp only
      rw [slotAt_alter]
      by_cases htarget : target = asU32 parent
      · rw [htarget, update_self, mem_append, mem_singleton, h.mem_leave hlane, h.targets]
        split_ifs with hsame
        · rw [hsame, hlane]
          exact iff_of_true (.inr rfl) ⟨_, rfl, rfl⟩
        · simp only [ne_eq, hsame, not_false_eq_true, true_and, or_false]
      · rw [update_of_ne htarget, h.mem_leave hlane, h.targets]
        split_ifs with hsame
        · rw [hsame, hlane]
          refine iff_of_false (fun hne => hne.1 rfl) ?_
          rintro ⟨moved, hmoved, rfl⟩
          exact htarget (congrArg LiveLane.target (some.inj hmoved)).symm
        · simp only [ne_eq, hsame, not_false_eq_true, true_and]
    · dsimp only
      by_cases htarget : target = asU32 parent
      · rw [htarget, update_self]
        refine Nodup.append (h.nodup_leave _ _ _) (nodup_singleton _) ?_
        exact disjoint_singleton.mpr fun hcol => ((h.mem_leave hlane).mp hcol).1 rfl
      · rw [update_of_ne htarget]
        exact h.nodup_leave _ _ _
    · dsimp only
      rw [countP_alter _ _ hlane, h.colors]
      have hpos : (decide (lane.color = color)) →
          0 < w.lanes.countP fun slot => slot.any (·.color = color) := fun hc =>
        countP_pos_iff.mpr ⟨some lane, mem_of_getElem? (join_eq_some_iff.mp hlane), hc⟩
      split_ifs with hcolor
      · have := hpos hcolor
        omega
      · rfl

theorem Indexed.adoptFork (row node : ℕ) (adopt : Option LaneColorIx) (ended : List LaneColorIx) :
    (w.adoptFork row node adopt ended).1.Indexed := by
  rw [GraphWalk.adoptFork.eq_def]
  split
  next forkColor lane hlane =>
    refine ⟨fun other => ?_, fun target other => ?_, h.nodup, fun color => ?_⟩
    · dsimp only
      rw [h.free, slotAt_alter, length_modify]
      split_ifs with hsame
      · rw [map_eq_none_iff]
      · rfl
    · dsimp only
      rw [h.targets, slotAt_alter]
      split_ifs with hsame
      · rw [hsame, hlane]
        simp
      · rfl
    · dsimp only
      rw [countP_alter _ _ hlane]
      dsimp only
      have hpos : 0 < w.colors lane.color := by
        rw [h.colors]
        exact countP_pos_iff.mpr ⟨some lane,
          mem_of_getElem? (join_eq_some_iff.mp hlane), decide_eq_true rfl⟩
      by_cases hfork : color = forkColor
      · subst hfork
        rw [update_self]
        by_cases hcolor : color = lane.color
        · subst hcolor
          rw [update_self, h.colors]
          simp
        · rw [update_of_ne hcolor, h.colors]
          simp [Ne.symm hcolor]
      · rw [update_of_ne hfork]
        by_cases hcolor : color = lane.color
        · subst hcolor
          rw [update_self, h.colors]
          simp [Ne.symm hfork]
        · rw [update_of_ne hcolor, h.colors]
          simp [Ne.symm hcolor, Ne.symm hfork]
  next => exact h

theorem Indexed.trimTrailing : w.trimTrailing.Indexed := by
  have hle : (trim w.lanes).length ≤ w.lanes.length := ( rdropWhile_prefix _ _).length_le
  refine ⟨fun other => ?_, fun target other => ?_, h.nodup, fun color => ?_⟩
  · rw [GraphWalk.trimTrailing]
    dsimp only
    rw [Finset.mem_filter, h.free, slotAt_trim]
    constructor
    · rintro ⟨⟨hlt, hnone⟩, hkept⟩
      exact ⟨by omega, hnone⟩
    · rintro ⟨hlt, hnone⟩
      exact ⟨⟨by omega, hnone⟩, by omega⟩
  · rw [GraphWalk.trimTrailing, h.targets]
    simp only [slotAt_trim]
  · rw [GraphWalk.trimTrailing, h.colors]
    exact (countP_trim _).symm

end

end GraphWalk

end GitComet.Graph
