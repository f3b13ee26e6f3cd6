import GitComet.Graph.WalkIndexes

namespace GitComet.Graph
open Slots Option Nat

structure SeenLane where
  target : ℕ
  color : LaneColorIx
  main : Bool
  fresh : Bool
  deriving DecidableEq

def SeenLane.still (lane : SeenLane) : SeenLane := { lane with fresh := false }

def SeenLane.aimed (target : ℕ) (lane : SeenLane) : SeenLane := { lane with target := target }

def SeenLane.headed (color : LaneColorIx) (lane : SeenLane) : SeenLane :=
  ⟨lane.target, color, false, true⟩

def LiveLane.seen (main : Option ℕ) (row : ℕ) (lane : LiveLane) : SeenLane :=
  ⟨lane.target, lane.color, main = some lane.id, lane.born = row⟩

def LaneState.seen (main : Option ℕ) (lane : LaneState) : SeenLane :=
  ⟨lane.targetIx, lane.colorIx, main = some lane.id, !lane.carriedIn⟩

def GraphWalk.seen (row : ℕ) (w : GraphWalk) : List (Option SeenLane) :=
  across (LiveLane.seen w.main row) w.lanes

def OracleGraphWalk.seen (o : OracleGraphWalk) : List (Option SeenLane) :=
  across (LaneState.seen o.mainLaneId) o.lanes

structure Alike (w : GraphWalk) (o : OracleGraphWalk) : Prop where
  indexed : w.Indexed
  nextColor : w.nextColor = o.nextColor
  mainTarget : w.mainTarget = o.mainTargetIx
  pending : w.pending = o.seededMainLanePending
  main : ∀ main, w.main = some main → 0 < main ∧ main < w.nextId
  mainLane : ∀ main, o.mainLaneId = some main → main < o.nextId
  single : ∀ {col other : ℕ} {lane lane' : LiveLane}, slotAt w.lanes col = some lane →
    slotAt w.lanes other = some lane' → w.main = some lane.id → w.main = some lane'.id → col = other

structure Agrees (row : ℕ) (w : GraphWalk) (o : OracleGraphWalk) : Prop extends Alike w o where
  seen : w.seen row = o.seen
  born : ∀ {col lane}, slotAt w.lanes col = some lane →
    lane.born ≤ row ∨ lane.born = Text.usizeMax

structure Ready (row : ℕ) (w : GraphWalk) (o : OracleGraphWalk) : Prop extends Alike w o where
  seen : across SeenLane.still (w.seen row) = across SeenLane.still o.seen
  born : ∀ {col lane}, slotAt w.lanes col = some lane →
    lane.born < row ∨ lane.born = Text.usizeMax

section

variable {row : ℕ} {w : GraphWalk} {o : OracleGraphWalk}

theorem Agrees.ready (h : Agrees row w o) (o' : OracleGraphWalk) (w' : GraphWalk)
    (halike : Alike w' o') (hw : w'.lanes = w.lanes) (hm : w'.main = w.main)
    (ho : o'.seen = o.seen) : Ready (row + 1) w' o' := by
  refine ⟨halike, ?_, ?_⟩
  · rw [ho, ← h.seen, GraphWalk.seen, GraphWalk.seen, across_across, across_across, hw, hm]
    rfl
  · intro col lane hlane
    rw [hw] at hlane
    exact (h.born hlane).imp_left lt_succ_of_le

theorem Ready.carryIn (h : Ready row w o) (hrow : row < Text.usizeMax) :
    Agrees row w o.carryIn := by
  refine ⟨⟨h.indexed, h.nextColor, h.mainTarget, h.pending, h.main, h.mainLane, h.single⟩, ?_, ?_⟩
  · have hold : w.seen row = across SeenLane.still (w.seen row) := by
      rw [GraphWalk.seen, across_across]
      refine across_congr fun col lane hlane => ?_
      have hborn : lane.born ≠ row := by
        rcases h.born hlane with hlt | heq
        · exact Nat.ne_of_lt hlt
        · exact fun hsame => absurd (hsame.symm.trans heq) (Nat.ne_of_lt hrow)
      rw [Function.comp, SeenLane.still, LiveLane.seen, decide_eq_false hborn]
    rw [hold, h.seen, OracleGraphWalk.seen, OracleGraphWalk.seen, across_across,
      OracleGraphWalk.carryIn, across_across]
    rfl
  · intro col lane hlane
    exact (h.born hlane).imp_left le_of_lt

end

section

variable {row : ℕ} {w : GraphWalk} {o : OracleGraphWalk} (h : Agrees row w o)
include h

theorem Agrees.length : w.lanes.length = o.lanes.length := by
  have hlength := congrArg List.length h.seen
  rwa [GraphWalk.seen, OracleGraphWalk.seen, length_across, length_across] at hlength

theorem Agrees.slot (col : ℕ) :
    (slotAt w.lanes col).map (LiveLane.seen w.main row) =
      (slotAt o.lanes col).map (LaneState.seen o.mainLaneId) := by
  rw [← slotAt_across, ← slotAt_across]
  exact congrArg (fun slots => slotAt slots col) h.seen

theorem Agrees.isNone (col : ℕ) : (slotAt w.lanes col).isNone = (slotAt o.lanes col).isNone := by
  have hslot := congrArg Option.isNone (h.slot col)
  rwa [isNone_map, isNone_map] at hslot

theorem Agrees.any (p : SeenLane → Bool) (col : ℕ) :
    (slotAt w.lanes col).any (p ∘ LiveLane.seen w.main row) =
      (slotAt o.lanes col).any (p ∘ LaneState.seen o.mainLaneId) := by
  have hslot := congrArg (Option.any p) (h.slot col)
  rwa [any_map, any_map] at hslot

theorem Agrees.anyLane (p : SeenLane → Bool) :
    (w.lanes.any fun slot => slot.any (p ∘ LiveLane.seen w.main row)) =
      o.lanes.any fun slot => slot.any (p ∘ LaneState.seen o.mainLaneId) := by
  rw [← any_across, ← any_across]
  exact congrArg (fun slots => slots.any fun slot => slot.any p) h.seen

theorem Agrees.pickHole (prefer : ℕ) : pickHole w.lanes prefer = pickHole o.lanes prefer := by
  rw [← pickHole_across (LiveLane.seen w.main row), ← pickHole_across (LaneState.seen o.mainLaneId)]
  exact congrArg (fun slots => Slots.pickHole slots prefer) h.seen

theorem Agrees.columns (p : SeenLane → Bool) :
    columns (p ∘ LiveLane.seen w.main row) w.lanes =
      columns (p ∘ LaneState.seen o.mainLaneId) o.lanes := by
  rw [← columns_across, ← columns_across]
  exact congrArg (Slots.columns p) h.seen

theorem Agrees.colorAt (col : ℕ) : w.colorAt col = o.colorAt col := by
  have hslot := congrArg (fun slot : Option SeenLane => slot.elim 0 (·.color)) (h.slot col)
  rwa [elim_map, elim_map] at hslot

theorem Agrees.color (avoid : List LaneColorIx) :
    (w.color avoid).2 = (o.pickLaneColorIx avoid).2 ∧
      Agrees row (w.color avoid).1 (o.pickLaneColorIx avoid).1 := by
  have hused : (fun color => decide (w.colors color ≠ 0)) =
      fun color => o.lanes.any fun slot => slot.any (·.colorIx = color) := by
    funext color
    rw [h.indexed.used]
    exact h.anyLane fun lane => lane.color = color
  have hpicked : pickColor (fun color => decide (w.colors color ≠ 0)) w.nextColor avoid =
      pickColor (fun color => o.lanes.any fun slot => slot.any (·.colorIx = color))
        o.nextColor avoid := by rw [hused, h.nextColor]
  refine ⟨congrArg Prod.fst hpicked, ?_⟩
  exact ⟨⟨⟨h.indexed.free, h.indexed.targets, h.indexed.nodup, h.indexed.colors⟩,
    congrArg Prod.snd hpicked, h.mainTarget, h.pending, h.main, h.mainLane, h.single⟩, h.seen,
    h.born⟩

theorem Agrees.birth {col target : ℕ} (color : LaneColorIx) (hle : col ≤ w.lanes.length)
    (hnone : slotAt w.lanes col = none) (htarget : target < 2 ^ 32) :
    Agrees row (w.birth col target row color) (o.placeLane col target color) := by
  have hslot : ∀ other, slotAt (w.birth col target row color).lanes other =
      if other = col then some ⟨w.nextId, asU32 target, row, color⟩ else slotAt w.lanes other :=
    fun _ => slotAt_place _ hle
  have hnew : w.main ≠ some w.nextId := fun hmain => absurd (h.main _ hmain).2 (lt_irrefl _)
  have hnewLane : o.mainLaneId ≠ some o.nextId := fun hmain =>
    absurd (h.mainLane _ hmain) (lt_irrefl _)
  have hindexed : (w.birth col target row color).Indexed := by
    have hready : ({ w with nextId := w.nextId + 1 } : GraphWalk).Indexed :=
      ⟨h.indexed.free, h.indexed.targets, h.indexed.nodup, h.indexed.colors⟩
    exact hready.placeLane _ hle hnone
  refine ⟨⟨hindexed, h.nextColor, h.mainTarget, h.pending, ?_, ?_, ?_⟩, ?_, ?_⟩
  · intro main hmain
    exact ⟨(h.main main hmain).1, lt_succ_of_lt (h.main main hmain).2⟩
  · exact fun main hmain => lt_succ_of_lt (h.mainLane main hmain)
  · intro first second lane lane' hlane hlane' hmain hmain'
    rw [hslot] at hlane hlane'
    split_ifs at hlane hlane' with hfirst hsecond hsecond
    · exact hfirst.trans hsecond.symm
    · cases hlane
      exact absurd hmain hnew
    · cases hlane'
      exact absurd hmain' hnew
    · exact h.single hlane hlane' hmain hmain'
  · have hseen : LiveLane.seen w.main row ⟨w.nextId, asU32 target, row, color⟩ =
        LaneState.seen o.mainLaneId ⟨o.nextId, color, target, false⟩ := by
      rw [LiveLane.seen, LaneState.seen, decide_eq_false hnew, decide_eq_false hnewLane,
        asU32, mod_eq_of_lt htarget, decide_eq_true rfl]
      rfl
    rw [GraphWalk.seen, OracleGraphWalk.seen, GraphWalk.birth, GraphWalk.placeLane,
      OracleGraphWalk.placeLane]
    dsimp only
    rw [place_across, place_across, hseen]
    exact congrArg (fun slots => place slots col _) h.seen
  · intro other lane hlane
    rw [hslot] at hlane
    split_ifs at hlane
    · cases hlane
      exact .inl (le_refl _)
    · exact h.born hlane

theorem Agrees.arrive (hrow : row < 2 ^ 32) (hcarried : o.carryIn = o) :
    (w.arrive row).2.1 = (o.arrive row).2.1 ∧ (w.arrive row).2.2.1 = (o.arrive row).2.2 ∧
      Agrees row (w.arrive row).1 (o.arrive row).1 := by
  have hhits : (w.targets (asU32 row)).insertionSort (· ≤ ·) =
      Slots.columns (fun lane => lane.targetIx = row) o.lanes := by
    have hfits : asU32 row = row := mod_eq_of_lt hrow
    rw [hfits, h.indexed.sorted_targets]
    exact h.columns fun lane => lane.target = row
  rw [GraphWalk.arrive, OracleGraphWalk.arrive, hcarried, hhits]
  dsimp only
  obtain ⟨hcolor, hpicked⟩ := h.color []
  split_ifs
  · have hcol : (w.color []).1.alloc 0 = Slots.pickHole o.lanes 0 := by
      rw [hpicked.indexed.alloc_eq]
      exact h.pickHole 0
    rw [hcol, hcolor]
    refine ⟨rfl, rfl, hpicked.birth _ ?_ ?_ hrow⟩
    · exact h.pickHole 0 ▸ pickHole_le w.lanes 0
    · exact h.pickHole 0 ▸ slotAt_pickHole w.lanes 0
  · exact ⟨rfl, rfl, h⟩

theorem Agrees.hitsMain (col : ℕ) :
    (slotAt w.lanes col).any w.isMain = (slotAt o.lanes col).any o.isMain :=
  h.any (·.main) col

theorem Agrees.onlyMain (hits : List ℕ) : w.onlyMain hits = o.onlyHitIsMainLane hits := by
  rw [GraphWalk.onlyMain, OracleGraphWalk.onlyHitIsMainLane, funext h.hitsMain]

theorem Agrees.nodeOf (hits : List ℕ) : w.nodeOf hits = o.nodeOf hits := by
  rw [GraphWalk.nodeOf, OracleGraphWalk.nodeOf, funext h.hitsMain]

theorem Agrees.settleNode (hits : List ℕ) (hadHits : Bool) (parents : List ℕ) (head : Bool) :
    (w.settleNode row hits hadHits parents head).2 =
        (o.settleNode row hits hadHits parents head).2 ∧
      Agrees row (w.settleNode row hits hadHits parents head).1
        (o.settleNode row hits hadHits parents head).1 := by
  obtain ⟨hcolor, hpicked⟩ := h.color []
  have hforce : w.force row hits hadHits parents head =
      o.forceBranchHeadLane row hits hadHits parents head := by
    rw [GraphWalk.force, OracleGraphWalk.forceBranchHeadLane, h.mainTarget, h.onlyMain]
  rw [GraphWalk.settleNode, OracleGraphWalk.settleNode, hforce, h.nodeOf, h.onlyMain]
  cases o.forceBranchHeadLane row hits hadHits parents head with
  | false => exact ⟨rfl, h⟩
  | true =>
    refine ⟨?_, hpicked⟩
    simp only [if_true]
    rw [hcolor, GraphWalk.forkBeside, OracleGraphWalk.forkBeside, h.isNone]

theorem Agrees.paintNow (col : ℕ) :
    ((slotAt w.lanes col).elim LanePaint.hole fun lane => .lane lane.color (lane.born ≠ row &&
        !(w.pending && w.mainTarget = some row && w.isMain lane)) false) =
      (slotAt o.lanes col).elim LanePaint.hole fun lane => .lane lane.colorIx (lane.carriedIn &&
          !(o.seededMainLanePending && o.mainTargetIx = some row && o.isMain lane)) false := by
  have hslot := congrArg (fun slot : Option SeenLane => slot.elim LanePaint.hole fun lane =>
    LanePaint.lane lane.color (!lane.fresh &&
      !(w.pending && w.mainTarget = some row && lane.main)) false) (h.slot col)
  rw [elim_map, elim_map] at hslot
  rw [← h.pending, ← h.mainTarget]
  refine (congrArg (fun f => (slotAt w.lanes col).elim LanePaint.hole f) ?_).trans
    (hslot.trans (congrArg (fun f => (slotAt o.lanes col).elim LanePaint.hole f) ?_))
  · funext lane
    simp [LiveLane.seen, GraphWalk.isMain]
  · funext lane
    simp [LaneState.seen, OracleGraphWalk.isMain]

theorem Agrees.lanesNow (fork : Option (ℕ × LaneColorIx))
    (hfork : ∀ place ∈ fork, slotAt w.lanes place.1 = none) :
    w.lanesNow row fork = o.lanesNow row fork := by
  rw [GraphWalk.lanesNow.eq_def, OracleGraphWalk.lanesNow.eq_def, h.length]
  simp only [h.paintNow]
  cases fork with
  | none =>
    refine List.map_congr_left fun col _ => ?_
    cases slotAt o.lanes col <;> rfl
  | some fork =>
    obtain ⟨forkCol, color⟩ := fork
    have hhole : slotAt o.lanes forkCol = none := by
      rw [← isNone_iff_eq_none, ← h.isNone, hfork _ rfl]
      rfl
    refine List.ext_getElem? fun col => ?_
    rw [List.getElem?_set, List.getElem?_map, List.getElem?_map, List.length_map, List.length_range]
    have hlen : forkCol < max o.lanes.length (forkCol + 1) := by omega
    rw [elim_some, if_pos hlen]
    split_ifs with hsame
    · rw [← hsame, List.getElem?_range hlen, map_some, hhole]
      simp
    · by_cases hcol : col < max o.lanes.length (forkCol + 1)
      · rw [List.getElem?_range hcol, map_some, map_some]
        cases slotAt o.lanes col with
        | some lane => rfl
        | none => exact congrArg some (if_neg hsame).symm
      · rw [List.getElem?_eq_none (by simpa using hcol)]
        rfl

theorem Agrees.joins (hits : List ℕ) (node : ℕ) (fork : Option (ℕ × LaneColorIx)) :
    w.joins hits node fork = o.joinsIn hits node fork := by
  rw [GraphWalk.joins, OracleGraphWalk.joinsIn]
  congr 1
  refine List.map_congr_left fun col _ => ?_
  rw [h.colorAt]

theorem Agrees.moved {w' : GraphWalk} {lanes' : List (Option LaneState)} (hindexed : w'.Indexed)
    (hrest : w' = { w with
      lanes := w'.lanes, targets := w'.targets, free := w'.free, colors := w'.colors })
    (hlanes : ∀ {col lane}, slotAt w'.lanes col = some lane →
      ∃ old, slotAt w.lanes col = some old ∧ old.id = lane.id ∧ old.born = lane.born)
    (hseen : w'.seen row = across (LaneState.seen o.mainLaneId) lanes') :
    Agrees row w' { o with lanes := lanes' } := by
  have hmain : w'.main = w.main := by rw [hrest]
  have hnextId : w'.nextId = w.nextId := by rw [hrest]
  have hnextColor : w'.nextColor = w.nextColor := by rw [hrest]
  have hmainTarget : w'.mainTarget = w.mainTarget := by rw [hrest]
  have hpending : w'.pending = w.pending := by rw [hrest]
  refine ⟨⟨hindexed, hnextColor.trans h.nextColor, hmainTarget.trans h.mainTarget,
    hpending.trans h.pending, ?_, h.mainLane, ?_⟩, hseen, ?_⟩
  · rw [hmain, hnextId]
    exact h.main
  · intro col other lane lane' hlane hlane' hlaneMain hlaneMain'
    obtain ⟨old, hold, hid, -⟩ := hlanes hlane
    obtain ⟨old', hold', hid', -⟩ := hlanes hlane'
    rw [hmain, ← hid] at hlaneMain
    rw [hmain, ← hid'] at hlaneMain'
    exact h.single hold hold' hlaneMain hlaneMain'
  · intro col lane hlane
    obtain ⟨old, hold, -, hborn⟩ := hlanes hlane
    rw [← hborn]
    exact h.born hold

theorem Agrees.none_iff (col : ℕ) : slotAt w.lanes col = none ↔ slotAt o.lanes col = none := by
  rw [← isNone_iff_eq_none, ← isNone_iff_eq_none, h.isNone]

theorem Agrees.retarget {col parent : ℕ} (hparent : parent < 2 ^ 32) :
    Agrees row (w.retarget col parent) (o.setTarget col parent) := by
  have hindexed := h.indexed.retarget col parent
  have hfits : asU32 parent = parent := mod_eq_of_lt hparent
  rw [GraphWalk.retarget] at hindexed ⊢
  cases hlane : slotAt w.lanes col with
  | none =>
    rw [OracleGraphWalk.setTarget, alter_of_none _ ((h.none_iff col).mp hlane)]
    exact h
  | some lane =>
    rw [hlane] at hindexed
    refine h.moved hindexed rfl ?_ ?_
    · intro other moved hmoved
      rw [slotAt_alter] at hmoved
      split_ifs at hmoved
      · obtain ⟨old, hold, rfl⟩ := Option.map_eq_some_iff.mp hmoved
        exact ⟨old, hold, rfl, rfl⟩
      · exact ⟨moved, hmoved, rfl, rfl⟩
    · have hseen := h.seen
      rw [GraphWalk.seen, OracleGraphWalk.seen] at hseen
      rw [GraphWalk.seen, hfits]
      dsimp only
      rw [alter_across (LiveLane.seen w.main row) _ (fun lane => { lane with target := parent })
          (SeenLane.aimed parent) fun _ => rfl,
        alter_across (LaneState.seen o.mainLaneId) _ (fun lane => { lane with targetIx := parent })
          (SeenLane.aimed parent) fun _ => rfl, hseen]

theorem Agrees.take (col : ℕ) :
    (w.take col).2.toList.map (·.color) = (slotAt o.lanes col).toList.map (·.colorIx) ∧
      Agrees row (w.take col).1 { o with lanes := vacate o.lanes col } := by
  have hcolor : (slotAt w.lanes col).toList.map (·.color) =
      (slotAt o.lanes col).toList.map (·.colorIx) := by
    have hslot := congrArg (fun slot : Option SeenLane => slot.toList.map (·.color)) (h.slot col)
    rwa [toList_map, toList_map, List.map_map, List.map_map] at hslot
  have hindexed := h.indexed.take col
  rw [GraphWalk.take] at hindexed ⊢
  cases hlane : slotAt w.lanes col with
  | none =>
    rw [vacate_of_none ((h.none_iff col).mp hlane), ← hcolor, hlane]
    exact ⟨rfl, h⟩
  | some lane =>
    rw [hlane] at hindexed hcolor
    refine ⟨hcolor, h.moved hindexed rfl ?_ ?_⟩
    · intro other kept hkept
      rw [slotAt_vacate] at hkept
      split_ifs at hkept
      exact ⟨kept, hkept, rfl, rfl⟩
    · rw [GraphWalk.seen, vacate_across]
      dsimp only
      rw [vacate_across]
      exact congrArg (fun slots => vacate slots col) h.seen

end

end GitComet.Graph
