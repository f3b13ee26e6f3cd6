import GitComet.Graph.Simulation

namespace GitComet.Graph
open Slots List Option Nat

namespace GraphWalk

theorem Indexed.of_no_lanes {w : GraphWalk} (hlanes : w.lanes = [])
    (htargets : w.targets = fun _ => []) (hfree : w.free = ∅) (hcolors : w.colors = fun _ => 0) :
    w.Indexed := by
  have hslot : ∀ col, slotAt w.lanes col = none := fun col =>
    slotAt_of_length_le _ (hlanes ▸ Nat.zero_le col)
  refine ⟨fun col => ?_, fun target col => ?_, fun target => ?_, fun color => ?_⟩
  · rw [hfree, hlanes]
    exact iff_of_false (Finset.notMem_empty _) fun hlt => not_lt_zero _ hlt.1
  · rw [htargets, hslot]
    refine iff_of_false not_mem_nil ?_
    rintro ⟨lane, hlane, -⟩
    cases hlane
  · rw [htargets]
    exact nodup_nil
  · rw [hcolors, hlanes]
    rfl

theorem Indexed.appendHole {w : GraphWalk} (h : w.Indexed) :
    ({ w with free := insert w.lanes.length w.free, lanes := w.lanes ++ [none] } :
      GraphWalk).Indexed := by
  have hslot : ∀ col, slotAt (w.lanes ++ [none]) col = slotAt w.lanes col := by
    intro col
    rw [slotAt, slotAt]
    rcases lt_trichotomy col w.lanes.length with hlt | rfl | hgt
    · rw [getElem?_append_left hlt]
    · rw [getElem?_concat_length, getElem?_eq_none (le_refl _)]
      rfl
    · rw [getElem?_eq_none (le_of_lt hgt), getElem?_eq_none]
      rw [length_append]
      exact hgt
  refine ⟨fun col => ?_, fun target col => ?_, h.nodup, fun color => ?_⟩
  · dsimp only
    rw [Finset.mem_insert, h.free, hslot, length_append, length_singleton,
      Nat.lt_succ_iff_lt_or_eq, or_and_right, or_comm]
    refine or_congr_right (iff_self_and.mpr ?_)
    rintro rfl
    exact slotAt_of_length_le _ (le_refl _)
  · dsimp only
    rw [hslot, h.targets]
  · dsimp only
    rw [countP_append, h.colors]
    rfl

end GraphWalk

namespace GraphCheckpoint

variable (c : GraphCheckpoint)

def restored (col : ℕ) (lane : LiveLane) : LiveLane :=
  ⟨c.laneId col, lane.target, Text.usizeMax, lane.color⟩

def restoredFrom (start : ℕ) (slots : List (Option LiveLane)) : List (Option LiveLane) :=
  (slots.zipIdx start).map fun slot => slot.1.map (c.restored slot.2)

theorem slotAt_restoredFrom (slots : List (Option LiveLane)) (col : ℕ) :
    slotAt (c.restoredFrom 0 slots) col = (slotAt slots col).map (c.restored col) := by
  rw [restoredFrom, slotAt, slotAt, getElem?_map, getElem?_zipIdx, zero_add]
  cases slots[col]? with
  | none => rfl
  | some slot => rfl

def spelled (start : ℕ) (slots : List (Option LiveLane)) : List (ℕ × ℕ × LaneColorIx) :=
  (range' start slots.length).zip ((slots.map fun slot => slot.elim noLane (·.target)).zip
    (slots.map fun slot => slot.elim 0 (·.color)))

theorem restoreLanes_spelled {w : GraphWalk} (h : w.Indexed) {slots : List (Option LiveLane)}
    (haimed : ∀ lane, some lane ∈ slots → lane.target ≠ noLane) :
    (c.restoreLanes w (spelled w.lanes.length slots)).Indexed ∧
      c.restoreLanes w (spelled w.lanes.length slots) =
        { c.restoreLanes w (spelled w.lanes.length slots) with
          lanes := w.lanes ++ c.restoredFrom w.lanes.length slots
          nextId := w.nextId
          nextColor := w.nextColor
          main := w.main
          mainTarget := w.mainTarget
          pending := w.pending } := by
  induction slots generalizing w with
  | nil =>
    refine ⟨h, ?_⟩
    rw [restoredFrom, zipIdx_nil, map_nil, append_nil]
    rfl
  | cons slot slots ih =>
    have hrest : ∀ lane, some lane ∈ slots → lane.target ≠ noLane := fun lane hmem =>
      haimed lane (mem_cons_of_mem _ hmem)
    cases slot with
    | none =>
      have hstep : c.restoreLanes w (spelled w.lanes.length (none :: slots)) =
          c.restoreLanes { w with
            free := insert w.lanes.length w.free, lanes := w.lanes ++ [none] }
            (spelled (w.lanes ++ [none]).length slots) := by
        rw [length_append]
        exact if_pos rfl
      obtain ⟨hindexed, heq⟩ := ih h.appendHole hrest
      rw [hstep]
      refine ⟨hindexed, heq.trans ?_⟩
      dsimp only
      rw [append_assoc, length_append]
      rfl
    | some lane =>
      have hnone : slotAt w.lanes w.lanes.length = none := slotAt_of_length_le _ (le_refl _)
      have hlanes : (w.placeLane w.lanes.length (c.restored w.lanes.length lane)).lanes =
          w.lanes ++ [some (c.restored w.lanes.length lane)] := if_pos rfl
      have hstep : c.restoreLanes w (spelled w.lanes.length (some lane :: slots)) =
          c.restoreLanes (w.placeLane w.lanes.length (c.restored w.lanes.length lane))
            (spelled (w.placeLane w.lanes.length (c.restored w.lanes.length lane)).lanes.length
              slots) := by
        rw [hlanes, length_append]
        exact if_neg (haimed lane (mem_cons_self ..))
      obtain ⟨hindexed, heq⟩ := ih (h.placeLane _ (le_refl _) hnone) hrest
      rw [hstep]
      refine ⟨hindexed, heq.trans ?_⟩
      rw [hlanes, append_assoc, length_append]
      rfl

end GraphCheckpoint

def GraphWalk.Aimed (w : GraphWalk) : Prop :=
  Each (fun _ (lane : LiveLane) => lane.target ≠ noLane) w.lanes

section

variable {row : ℕ} {w : GraphWalk} {o : OracleGraphWalk}

theorem Alike.isMain_laneId (h : Alike w o) {col : ℕ} {lane : LiveLane}
    (hlane : slotAt w.lanes col = some lane) :
    w.main = some (w.checkpoint.laneId col) ↔ w.main = some lane.id := by
  cases hmain : w.main with
  | none => exact iff_of_false (fun h => by cases h) (fun h => by cases h)
  | some main =>
    have hpos : main ≠ 0 := ne_of_gt (h.main main hmain).1
    rw [GraphCheckpoint.laneId, GraphWalk.checkpoint, hmain]
    dsimp only [bind_some]
    cases hfind : w.lanes.findIdx? fun slot => slot.any (·.id = main) with
    | none =>
      have hnever := findIdx?_eq_none_iff.mp hfind (some lane)
        (mem_of_getElem? (join_eq_some_iff.mp hlane))
      refine iff_of_false (fun hzero => hpos (some.inj hzero)) fun hid => ?_
      exact absurd (some.inj hid).symm (of_decide_eq_false hnever)
    | some mainCol =>
      obtain ⟨hlt, hsome, -⟩ := findIdx?_eq_some_iff_getElem.mp hfind
      obtain ⟨mainLane, hslot, hid⟩ := (any_eq_true _ _).mp hsome
      have hmainLane : slotAt w.lanes mainCol = some mainLane := by
        rw [slotAt, getElem?_eq_getElem hlt, join_some, hslot]
      dsimp only [map_some, laneCol]
      split_ifs with hsame
      · rw [hsame, hlane] at hmainLane
        cases hmainLane
        exact iff_of_true rfl (congrArg some (of_decide_eq_true hid).symm)
      · refine iff_of_false (fun hzero => hpos (some.inj hzero)) fun hown => hsame ?_
        exact h.single hmainLane hlane (hmain.trans (congrArg some (of_decide_eq_true hid).symm))
          (hmain.trans hown)

theorem GraphWalk.restore_checkpoint (haimed : w.Aimed) :
    w.checkpoint.restore.Indexed ∧ w.checkpoint.restore =
      { w.checkpoint.restore with
        lanes := w.checkpoint.restoredFrom 0 w.lanes
        nextId := w.nextId
        nextColor := w.nextColor
        main := w.main
        mainTarget := w.mainTarget
        pending := w.pending } := by
  have hempty : (⟨[], fun _ => [], ∅, fun _ => 0, w.nextId, w.nextColor, w.main, w.mainTarget,
      w.pending⟩ : GraphWalk).Indexed := .of_no_lanes rfl rfl rfl rfl
  have hsome : ∀ lane, some lane ∈ w.lanes → lane.target ≠ noLane := by
    intro lane hmem
    obtain ⟨col, hcol⟩ := mem_iff_getElem?.mp hmem
    exact haimed col lane (by rw [slotAt, hcol, join_some])
  have hrestore : w.checkpoint.restore = w.checkpoint.restoreLanes
      ⟨[], fun _ => [], ∅, fun _ => 0, w.nextId, w.nextColor, w.main, w.mainTarget, w.pending⟩
      (GraphCheckpoint.spelled 0 w.lanes) := by
    rw [GraphCheckpoint.restore, GraphCheckpoint.spelled, ← range_eq_range',
      GraphWalk.checkpoint, length_map]
  rw [hrestore]
  exact w.checkpoint.restoreLanes_spelled hempty hsome

theorem Ready.restore (h : Ready row w o) (haimed : w.Aimed) :
    Ready row w.checkpoint.restore o := by
  obtain ⟨hindexed, heq⟩ := GraphWalk.restore_checkpoint haimed
  have hlane : ∀ {col lane}, slotAt w.checkpoint.restore.lanes col = some lane →
      ∃ old, slotAt w.lanes col = some old ∧ w.checkpoint.restored col old = lane := by
    intro col lane hslot
    rw [heq, GraphCheckpoint.slotAt_restoredFrom] at hslot
    exact map_eq_some_iff.mp hslot
  have hmain : w.checkpoint.restore.main = w.main := by rw [heq]
  refine ⟨⟨hindexed, ?_, ?_, ?_, ?_, h.mainLane, ?_⟩, ?_, ?_⟩
  · rw [heq]
    exact h.nextColor
  · rw [heq]
    exact h.mainTarget
  · rw [heq]
    exact h.pending
  · rw [heq]
    exact h.main
  · intro col other lane lane' hslot hslot' hlaneMain hlaneMain'
    rw [hmain] at hlaneMain hlaneMain'
    obtain ⟨old, hold, rfl⟩ := hlane hslot
    obtain ⟨old', hold', rfl⟩ := hlane hslot'
    exact h.single hold hold' ((h.isMain_laneId hold).mp hlaneMain)
      ((h.isMain_laneId hold').mp hlaneMain')
  · rw [← h.seen]
    rw [GraphWalk.seen, GraphWalk.seen, across_across, across_across, hmain, heq]
    refine ext_getElem? fun col => ?_
    rw [across, across, GraphCheckpoint.restoredFrom, getElem?_map, getElem?_map,
      getElem?_map, getElem?_zipIdx, zero_add]
    cases hslot : w.lanes[col]? with
    | none => rfl
    | some slot =>
      cases slot with
      | none => rfl
      | some lane =>
        have hid := h.isMain_laneId (join_eq_some_iff.mpr hslot)
        refine congrArg (some ∘ some) ?_
        exact congrArg (fun main => (⟨lane.target, lane.color, main, false⟩ : SeenLane))
          (decide_eq_decide.mpr hid)
  · intro col lane hslot
    obtain ⟨old, -, rfl⟩ := hlane hslot
    exact .inr rfl

end

section

variable {row : ℕ} {w : GraphWalk}

theorem GraphWalk.Aimed.step (h : w.Aimed) (hrow : row < noLane) {parents : List ℕ}
    (hparents : ∀ parent ∈ parents, parent < noLane) (merge head : Bool) :
    (w.step row parents merge head).1.Aimed := by
  have haimed : ∀ target, target < noLane → asU32 target ≠ noLane := by
    intro target hlt
    rw [asU32, mod_eq_of_lt (lt_of_lt_of_le hlt (sub_le _ _))]
    exact Nat.ne_of_lt hlt
  have harrived := GraphWalk.each_arrive h fun _ _ _ _ => haimed row hrow
  rw [GraphWalk.step, GraphWalk.transition]
  generalize w.arrive row = arrived at *
  have hsettled := (arrived.1.settled_lanes row arrived.2.1 arrived.2.2.1 parents head).1
  generalize arrived.1.settleNode row arrived.2.1 arrived.2.2.1 parents head = settled at *
  rw [← hsettled] at harrived
  exact Each.trim (GraphWalk.each_branchOut (GraphWalk.each_adoptFork (GraphWalk.each_depart
    harrived fun parent hmem _ _ _ => haimed parent (hparents parent hmem))
    (fun _ _ _ hlane => hlane) _ _) fun _ _ parent hmem _ _ =>
      haimed parent (hparents parent (mem_of_mem_drop hmem)))

theorem GraphWalk.Aimed.restore (h : w.Aimed) : w.checkpoint.restore.Aimed := by
  intro col lane hlane
  rw [(GraphWalk.restore_checkpoint h).2, GraphCheckpoint.slotAt_restoredFrom] at hlane
  obtain ⟨old, hold, rfl⟩ := map_eq_some_iff.mp hlane
  exact h col old hold

end

section

variable {mainTarget : Option ℕ} (h : ∀ target ∈ mainTarget, target < noLane)
include h

theorem GraphWalk.new_aimed : (GraphWalk.new mainTarget).Aimed := by
  cases mainTarget with
  | none => exact each_nil
  | some target =>
    have haimed : asU32 target ≠ noLane := by
      rw [asU32, mod_eq_of_lt (lt_of_lt_of_le (h target rfl) (sub_le _ _))]
      exact Nat.ne_of_lt (h target rfl)
    have hplaced : Each (fun _ (lane : LiveLane) => lane.target ≠ noLane)
        (place [] 0 ⟨1, asU32 target, Text.usizeMax, 0⟩) := each_nil.place haimed
    exact hplaced

theorem Ready.new : Ready 0 (GraphWalk.new mainTarget) (OracleGraphWalk.new mainTarget) := by
  cases mainTarget with
  | none =>
    refine ⟨⟨.of_no_lanes rfl rfl rfl rfl, rfl, rfl, rfl, ?_, ?_, ?_⟩, rfl, ?_⟩
    · intro main hmain
      cases hmain
    · intro main hmain
      cases hmain
    · intro _ _ _ _ _ _ hmain
      cases hmain
    · intro col lane hlane
      exact (each_nil (P := fun _ _ => False) col lane hlane).elim
  | some target =>
    have hfits : asU32 target = target :=
      mod_eq_of_lt (lt_of_lt_of_le (h target rfl) (sub_le _ _))
    have hplaced := (GraphWalk.Indexed.of_no_lanes (w := GraphWalk.empty (some target)) rfl rfl rfl
      rfl).placeLane ⟨1, asU32 target, Text.usizeMax, 0⟩ (le_refl 0) rfl
    have hlane : ∀ {col lane}, slotAt (GraphWalk.new (some target)).lanes col = some lane →
        col = 0 ∧ lane.born = Text.usizeMax := by
      intro col lane hslot
      cases col with
      | zero =>
        cases hslot
        exact ⟨rfl, rfl⟩
      | succ col => cases hslot
    refine ⟨⟨⟨hplaced.free, hplaced.targets, hplaced.nodup, hplaced.colors⟩, rfl, rfl, rfl, ?_, ?_,
      fun hfirst hsecond _ _ => (hlane hfirst).1.trans (hlane hsecond).1.symm⟩, ?_,
      fun hslot => .inr (hlane hslot).2⟩
    · intro main hmain
      cases hmain
      exact ⟨one_pos, lt_succ_self 1⟩
    · intro main hmain
      cases hmain
      exact lt_succ_self 1
    · exact congrArg (fun target => [some (⟨target, 0, true, false⟩ : SeenLane)]) hfits

end

end GitComet.Graph
