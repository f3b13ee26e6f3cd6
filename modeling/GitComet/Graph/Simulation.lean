import GitComet.Graph.Agreement

namespace GitComet.Graph
open Slots List Nat

namespace OracleGraphWalk

theorem depart_cons (o : OracleGraphWalk) (col parentIx : ℕ) (hits parentIxs : List ℕ) :
    o.depart (col :: hits) (parentIx :: parentIxs) =
      (o.setTarget col parentIx).depart hits parentIxs := by
  rw [depart, zip_cons_cons, followParents, length_cons, length_cons,
    succ_min_succ, drop_succ_cons]
  cases parentIxs with
  | nil => rw [zip_nil_right, followParents, length_nil, Nat.zero_min, drop_zero,
      depart]
  | cons parentIx' parentIxs => rfl

theorem carryIn_carryIn (o : OracleGraphWalk) : o.carryIn.carryIn = o.carryIn := by
  rw [carryIn, carryIn, across_across]
  rfl

theorem arrive_carryIn (o : OracleGraphWalk) (commitIx : ℕ) :
    o.carryIn.arrive commitIx = o.arrive commitIx := by
  rw [arrive, carryIn_carryIn, arrive]

end OracleGraphWalk

section

variable {row : ℕ} {w : GraphWalk} {o : OracleGraphWalk}

section
variable (h : Agrees row w o)
include h

theorem Agrees.endLanes (hits : List ℕ) :
    (w.depart hits []).2 = (o.endLanes hits).2 ∧
      Agrees row (w.depart hits []).1 (o.endLanes hits).1 := by
  induction hits generalizing w o with
  | nil => exact ⟨rfl, h⟩
  | cons col hits ih =>
    obtain ⟨hcolor, htaken⟩ := h.take col
    obtain ⟨hended, hleft⟩ := ih htaken
    rw [GraphWalk.depart, OracleGraphWalk.endLanes, hcolor, hended]
    exact ⟨rfl, hleft⟩

theorem Agrees.depart {parents : List ℕ}
    (hparents : ∀ parent ∈ parents, parent < 2 ^ 32) (hits : List ℕ) :
    (w.depart hits parents).2 = (o.depart hits parents).2 ∧
      Agrees row (w.depart hits parents).1 (o.depart hits parents).1 := by
  induction hits generalizing w o parents with
  | nil =>
    cases parents with
    | nil => exact ⟨rfl, h⟩
    | cons parent parents => exact ⟨rfl, h⟩
  | cons col hits ih =>
    cases parents with
    | nil => exact h.endLanes (col :: hits)
    | cons parent parents =>
      obtain ⟨hparent, hrest⟩ := List.forall_mem_cons.mp hparents
      rw [GraphWalk.depart, OracleGraphWalk.depart_cons]
      exact ih (h.retarget hparent) hrest

theorem Agrees.adoptFork (node : ℕ) (adopt : Option LaneColorIx) (ended : List LaneColorIx) :
    (w.adoptFork row node adopt ended).2 = (o.adoptFork node adopt ended).2 ∧
      Agrees row (w.adoptFork row node adopt ended).1 (o.adoptFork node adopt ended).1 := by
  have hindexed := h.indexed.adoptFork row node adopt ended
  have hslot := h.slot node
  rw [GraphWalk.adoptFork.eq_def] at hindexed ⊢
  rw [OracleGraphWalk.adoptFork.eq_def]
  cases adopt with
  | none => exact ⟨rfl, h⟩
  | some forkColor =>
    cases hlane : slotAt w.lanes node with
    | none =>
      rw [(h.none_iff node).mp hlane]
      exact ⟨rfl, h⟩
    | some lane =>
      rw [hlane] at hindexed hslot
      cases holane : slotAt o.lanes node with
      | none =>
        rw [holane] at hslot
        cases hslot
      | some olane =>
        rw [holane] at hslot
        have hcolor : lane.color = olane.colorIx :=
          congrArg SeenLane.color (Option.some.inj hslot)
        have hnew : w.main ≠ some w.nextId := fun hmain =>
          absurd (h.main _ hmain).2 (lt_irrefl _)
        have hnewLane : o.mainLaneId ≠ some o.nextId := fun hmain =>
          absurd (h.mainLane _ hmain) (lt_irrefl _)
        dsimp only at hindexed ⊢
        rw [hcolor]
        refine ⟨rfl, ⟨⟨hcolor ▸ hindexed, h.nextColor, h.mainTarget, h.pending, ?_, ?_, ?_⟩, ?_, ?_⟩⟩
        · intro main hmain
          exact ⟨(h.main main hmain).1, lt_succ_of_lt (h.main main hmain).2⟩
        · exact fun main hmain => lt_succ_of_lt (h.mainLane main hmain)
        · intro col other moved moved' hmoved hmoved' hmain hmain'
          have hold : ∀ {c l}, slotAt (alter w.lanes node fun lane =>
              { lane with color := forkColor, id := w.nextId, born := row }) c = some l →
              w.main = some l.id → slotAt w.lanes c = some l := by
            intro c l hl hm
            rw [slotAt_alter] at hl
            split_ifs at hl with hc
            · obtain ⟨old, -, rfl⟩ := Option.map_eq_some_iff.mp hl
              exact absurd hm hnew
            · exact hl
          exact h.single (hold hmoved hmain) (hold hmoved' hmain') hmain hmain'
        · rw [GraphWalk.seen, OracleGraphWalk.seen]
          dsimp only
          rw [alter_across (LiveLane.seen w.main row) _ _ (SeenLane.headed forkColor) fun lane => by
              rw [LiveLane.seen, decide_eq_false hnew, decide_eq_true rfl]
              rfl,
            alter_across (LaneState.seen o.mainLaneId) _ _ (SeenLane.headed forkColor) fun lane => by
              rw [LaneState.seen, decide_eq_false hnewLane]
              rfl]
          exact congrArg (fun slots => alter slots node _) h.seen
        · intro col moved hmoved
          rw [slotAt_alter] at hmoved
          split_ifs at hmoved
          · obtain ⟨old, -, rfl⟩ := Option.map_eq_some_iff.mp hmoved
            exact .inl (le_refl _)
          · exact h.born hmoved

theorem Agrees.branchOut {parents : List ℕ}
    (hparents : ∀ parent ∈ parents, parent < 2 ^ 32) (node : ℕ) (ended : List LaneColorIx) :
    Agrees row (w.branchOut row node ended parents).1 (o.branchOut node ended parents) := by
  induction parents generalizing w o with
  | nil => exact h
  | cons parent parents ih =>
    obtain ⟨hparent, hrest⟩ := List.forall_mem_cons.mp hparents
    have hfits : asU32 parent = parent := mod_eq_of_lt hparent
    have hany : (w.lanes.any fun slot => slot.any (·.target = parent)) =
        o.lanes.any fun slot => slot.any (·.targetIx = parent) :=
      h.anyLane fun lane => lane.target = parent
    rw [GraphWalk.branchOut, OracleGraphWalk.branchOut, hfits, h.indexed.targets_empty, hany]
    cases o.lanes.any fun slot => slot.any (·.targetIx = parent) with
    | true => exact ih h hrest
    | false =>
      obtain ⟨hcolor, hpicked⟩ := h.color ended
      have hcol : (w.color ended).1.alloc (node + 1) = Slots.pickHole o.lanes (node + 1) := by
        rw [hpicked.indexed.alloc_eq]
        exact h.pickHole (node + 1)
      have hborn := hpicked.birth (o.pickLaneColorIx ended).2
        (h.pickHole (node + 1) ▸ pickHole_le w.lanes (node + 1))
        (h.pickHole (node + 1) ▸ slotAt_pickHole w.lanes (node + 1)) hparent
      simp only [Bool.not_false, if_true, Bool.false_eq_true, if_false]
      rw [hcol, hcolor]
      exact ih hborn hrest

theorem Agrees.trim :
    Agrees row w.trimTrailing { o with lanes := trim o.lanes } := by
  refine h.moved h.indexed.trimTrailing rfl ?_ ?_
  · intro col lane hlane
    rw [GraphWalk.trimTrailing, slotAt_trim] at hlane
    exact ⟨lane, hlane, rfl, rfl⟩
  · rw [GraphWalk.seen, GraphWalk.trimTrailing]
    dsimp only
    rw [trim_across, trim_across]
    exact congrArg Slots.trim h.seen

theorem Agrees.lanesNext : w.lanes.map (GraphWalk.outgoing row) = o.lanesNext := by
  have hpaint := congrArg (List.map fun slot : Option SeenLane =>
    slot.elim LanePaint.hole fun lane => .lane lane.color false lane.fresh) h.seen
  rw [GraphWalk.seen, OracleGraphWalk.seen, across, across, map_map, map_map] at hpaint
  refine (map_congr_left fun slot _ => ?_).trans
    (hpaint.trans (map_congr_left fun slot _ => ?_))
  · cases slot <;> rfl
  · cases slot <;> rfl

theorem Agrees.edgesOut {parents : List ℕ}
    (hparents : ∀ parent ∈ parents, parent < 2 ^ 32) (node : ℕ) :
    w.edgesOut row node parents = o.edgesOut node parents := by
  rw [GraphWalk.edgesOut, OracleGraphWalk.edgesOut]
  refine filterMap_congr fun parent hmem => ?_
  have hfits : asU32 parent = parent :=
    mod_eq_of_lt (hparents parent (mem_of_mem_drop hmem))
  have hcarried : ((w.targets parent).filter fun col =>
      (slotAt w.lanes col).any fun lane => lane.born ≠ row).min? =
      (Slots.columns (fun lane => lane.targetIx = parent && lane.carriedIn) o.lanes).head? := by
    have hcolumns := h.columns fun lane => lane.target = parent && !lane.fresh
    have hcarriedIn : (fun lane : LaneState => decide (lane.targetIx = parent) && lane.carriedIn) =
        (fun lane => decide (lane.target = parent) && !lane.fresh) ∘
          LaneState.seen o.mainLaneId := by
      funext lane
      rw [Function.comp, LaneState.seen, Bool.not_not]
    rw [hcarriedIn, ← hcolumns]
    refine min_eq_head (columns_sorted _ _) fun col => ?_
    rw [mem_filter, h.indexed.targets, mem_columns, Option.any_eq_true]
    simp only [LiveLane.seen, Function.comp, Bool.and_eq_true, decide_eq_true_iff,
      Bool.not_eq_true', decide_eq_false_iff_not]
    constructor
    · rintro ⟨⟨lane, hlane, htarget⟩, lane', hlane', hborn⟩
      obtain rfl := Option.some.inj (hlane.symm.trans hlane')
      exact ⟨lane, hlane, decide_eq_true htarget, hborn⟩
    · rintro ⟨lane, hlane, htarget, hborn⟩
      exact ⟨⟨lane, hlane, of_decide_eq_true htarget⟩, lane, hlane, hborn⟩
  rw [hfits]
  dsimp only
  rw [hcarried]
  simp only [h.colorAt]

end

theorem Ready.unborn (h : Ready row w o) (hrow : row < Text.usizeMax) : w.BornIn row [] := by
  intro col lane hlane hborn
  rcases h.born hlane with hlt | hmax
  · exact absurd hborn (Nat.ne_of_lt hlt)
  · exact absurd (hborn.symm.trans hmax) (Nat.ne_of_lt hrow)

theorem GraphWalk.arrive_hits (w : GraphWalk) (row : ℕ) : (w.arrive row).2.1 ≠ [] := by
  rw [GraphWalk.arrive]
  dsimp only
  split_ifs with hempty
  · exact cons_ne_nil _ _
  · exact fun hnil => hempty (List.isEmpty_iff.mpr hnil)

theorem GraphWalk.nodeOf_mem (w : GraphWalk) {hits : List ℕ} (h : hits ≠ []) :
    w.nodeOf hits ∈ hits := by
  rw [GraphWalk.nodeOf]
  cases hmain : hits.find? fun col => (slotAt w.lanes col).any w.isMain with
  | some col => exact mem_of_find?_eq_some hmain
  | none =>
    cases hits with
    | nil => exact absurd rfl h
    | cons col hits => exact mem_cons_self ..

theorem GraphWalk.settled_lanes (w : GraphWalk) (row : ℕ) (hits : List ℕ) (hadHits : Bool)
    (parents : List ℕ) (head : Bool) :
    (w.settleNode row hits hadHits parents head).1.lanes = w.lanes ∧
      (w.settleNode row hits hadHits parents head).2.node = w.nodeOf hits ∧
      ∀ fork ∈ (w.settleNode row hits hadHits parents head).2.fork,
        slotAt w.lanes fork.1 = none := by
  rw [GraphWalk.settleNode]
  cases w.force row hits hadHits parents head with
  | false =>
    refine ⟨rfl, rfl, fun fork hfork => ?_⟩
    cases hfork
  | true =>
    refine ⟨rfl, rfl, fun fork hfork => ?_⟩
    simp only [if_true] at hfork
    rw [GraphWalk.forkBeside] at hfork
    split_ifs at hfork with hnone
    · cases hfork
      exact Option.isNone_iff_eq_none.mp hnone
    · cases hfork

theorem Agrees.fromNodeCols (h : Agrees row w o) :
    OracleGraphWalk.fromNodeColsOf o.lanesNext = Slots.columns (·.born = row) w.lanes := by
  rw [← h.lanesNext, OracleGraphWalk.fromNodeColsOf]
  exact GraphWalk.fromNodeCols_eq row w.lanes

theorem Ready.step (h : Ready row w o) (hrow : row < noLane) {parents : List ℕ}
    (hparents : ∀ parent ∈ parents, parent < noLane) (merge head : Bool) :
    (w.step row parents merge head).2 = (o.step row parents merge head).2 ∧
      Ready (row + 1) (w.step row parents merge head).1 (o.step row parents merge head).1 := by
  have hfits : ∀ parent ∈ parents, parent < 2 ^ 32 := fun parent hmem =>
    lt_of_lt_of_le (hparents parent hmem) (sub_le _ _)
  have hmax : row < Text.usizeMax := lt_trans hrow (by decide)
  have hborn := (h.unborn hmax).arrive
  obtain ⟨hhits, hhad, harrived⟩ := (h.carryIn hmax).arrive
    (lt_of_lt_of_le hrow (sub_le _ _)) o.carryIn_carryIn
  rw [o.arrive_carryIn] at hhits hhad harrived
  rw [GraphWalk.step, GraphWalk.transition, OracleGraphWalk.step, ← hhits, ← hhad]
  have hsome := w.arrive_hits row
  generalize (o.arrive row).1 = oarrived at *
  generalize w.arrive row = arrived at *
  obtain ⟨arrived, hits, hadHits, now⟩ := arrived
  dsimp only at *
  obtain ⟨hdecision, hsettled⟩ := harrived.settleNode hits hadHits parents head
  obtain ⟨hlanes, hnode, hfork⟩ := arrived.settled_lanes row hits hadHits parents head
  rw [← hdecision]
  generalize (oarrived.settleNode row hits hadHits parents head).1 = osettled at *
  generalize arrived.settleNode row hits hadHits parents head = settled at *
  obtain ⟨settled, node, fork, adopt⟩ := settled
  dsimp only at *
  have hmem : node ∈ hits := hnode ▸ arrived.nodeOf_mem hsome
  rw [head_swapToFront hmem, Option.getD_some]
  generalize hfront : swapToFront hits node = front at *
  obtain ⟨hended, hdeparted⟩ := hsettled.depart hfits front
  rw [← hended]
  obtain ⟨hended', hadopted⟩ := hdeparted.adoptFork node adopt (settled.depart front parents).2
  rw [← hended']
  have hbirths : (settled.depart front parents).1.BornIn row front := by
    refine GraphWalk.BornIn.depart (fun col lane hlane hrowBorn => ?_) front parents
    rw [hlanes] at hlane
    exact hfront ▸ (swapToFront_perm hmem).mem_iff.mpr (hborn col lane hlane hrowBorn)
  have hnodeFront : node ∈ front := hfront ▸ (swapToFront_perm hmem).mem_iff.mpr hmem
  replace hbirths := hbirths.adoptFork hnodeFront adopt (settled.depart front parents).2
  generalize ((settled.depart front parents).1.adoptFork row node adopt
    (settled.depart front parents).2) = adopted at *
  generalize ((osettled.depart front parents).1.adoptFork node adopt
    (settled.depart front parents).2).1 = oadopted at *
  have hrest : ∀ parent ∈ parents.drop (min parents.length front.length), parent < 2 ^ 32 :=
    fun parent hparent => hfits parent (mem_of_mem_drop hparent)
  replace hbirths := (hbirths.branchOut node adopted.2
    (parents.drop (min parents.length front.length))).trimTrailing
  have htrimmed := (hadopted.branchOut hrest node adopted.2).trim
  generalize adopted.1.branchOut row node adopted.2
    (parents.drop (min parents.length front.length)) = branched at *
  generalize oadopted.branchOut node adopted.2
    (parents.drop (min parents.length front.length)) = obranched at *
  have hnext := htrimmed.toAlike
  refine ⟨?_, htrimmed.ready _ _ ⟨⟨hnext.indexed.free, hnext.indexed.targets,
    hnext.indexed.nodup, hnext.indexed.colors⟩, hnext.nextColor, hnext.mainTarget, rfl,
    hnext.main, hnext.mainLane, hnext.single⟩ rfl rfl rfl⟩
  have hnow := hsettled.lanesNow fork (hlanes ▸ hfork)
  have hpaint := hbirths.changed (subset_append_left _ (fork.toList.map Prod.fst))
  rw [← htrimmed.fromNodeCols] at hpaint
  simp only [if_true]
  rw [hnow, hsettled.joins, hsettled.colorAt]
  exact GraphRow.mk.injEq .. |>.mpr ⟨rfl, htrimmed.lanesNext, rfl, htrimmed.edgesOut hfits node,
    rfl, rfl, rfl, hpaint⟩

end

end GitComet.Graph
