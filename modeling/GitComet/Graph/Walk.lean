import Mathlib.Data.Finset.Max
import GitComet.Graph.Paint
import GitComet.Text.Lines

namespace GitComet.Graph
open Slots

structure LiveLane where
  id : ℕ
  target : ℕ
  born : ℕ
  color : LaneColorIx
  deriving DecidableEq

def asU32 (n : ℕ) : ℕ := n % 2 ^ 32

def noLane : ℕ := 2 ^ 32 - 1

structure GraphCheckpoint where
  targets : List ℕ
  colors : List LaneColorIx
  mainCol : Option ℕ
  nextId : ℕ
  nextColor : ℕ
  main : Option ℕ
  mainTarget : Option ℕ
  pending : Bool
  deriving DecidableEq

structure GraphTransition where
  paint : GraphRow
  now : List (ℕ × LanePaint)
  next : List (ℕ × LanePaint)
  nextLen : ℕ
  deriving DecidableEq

structure GraphWalk where
  lanes : List (Option LiveLane)
  targets : ℕ → List ℕ
  free : Finset ℕ
  colors : LaneColorIx → ℕ
  nextId : ℕ
  nextColor : ℕ
  main : Option ℕ
  mainTarget : Option ℕ
  pending : Bool

namespace GraphWalk

def empty (mainTarget : Option ℕ) : GraphWalk :=
  ⟨[], fun _ => [], ∅, fun _ => 0, 1, 0, none, mainTarget, mainTarget.isSome⟩

section

variable (w : GraphWalk)

def placeLane (col : ℕ) (lane : LiveLane) : GraphWalk :=
  { w with
    lanes := place w.lanes col lane
    free := w.free.erase col
    targets := Function.update w.targets lane.target (w.targets lane.target ++ [col])
    colors := Function.update w.colors lane.color (w.colors lane.color + 1) }

def leave (col target : ℕ) : ℕ → List ℕ :=
  Function.update w.targets target ((w.targets target).filter (· ≠ col))

def take (col : ℕ) : GraphWalk × Option LiveLane :=
  match slotAt w.lanes col with
  | none => (w, none)
  | some lane =>
    ({ w with
        lanes := vacate w.lanes col
        targets := w.leave col lane.target
        free := insert col w.free
        colors := Function.update w.colors lane.color (w.colors lane.color - 1) }, some lane)

def first (cols : Finset ℕ) : Option ℕ := if h : cols.Nonempty then some (cols.min' h) else none

def alloc (prefer : ℕ) : ℕ :=
  ((first (w.free.filter (prefer ≤ ·))).or (first w.free)).getD w.lanes.length

def color (avoid : List LaneColorIx) : GraphWalk × LaneColorIx :=
  let picked := pickColor (fun color => w.colors color ≠ 0) w.nextColor avoid
  ({ w with nextColor := picked.2 }, picked.1)

def birth (col target row : ℕ) (color : LaneColorIx) : GraphWalk :=
  { w with nextId := w.nextId + 1 }.placeLane col ⟨w.nextId, asU32 target, row, color⟩

def isMain (lane : LiveLane) : Bool := w.main = some lane.id

end

def new (mainTarget : Option ℕ) : GraphWalk :=
  match mainTarget with
  | none => empty none
  | some target =>
    { (empty (some target)).placeLane 0 ⟨1, asU32 target, Text.usizeMax, 0⟩ with
      main := some 1
      nextId := 2
      nextColor := 1 }

def checkpoint (w : GraphWalk) : GraphCheckpoint where
  targets := w.lanes.map fun slot => slot.elim noLane (·.target)
  colors := w.lanes.map fun slot => slot.elim 0 (·.color)
  mainCol := w.main.bind fun main =>
    (w.lanes.findIdx? fun slot => slot.any (·.id = main)).map laneCol
  nextId := w.nextId
  nextColor := w.nextColor
  main := w.main
  mainTarget := w.mainTarget
  pending := w.pending

end GraphWalk

namespace GraphCheckpoint

variable (c : GraphCheckpoint)

def laneId (col : ℕ) : ℕ :=
  match c.mainCol, c.main with
  | some mainCol, some main => if mainCol = col then main else 0
  | _, _ => 0

def restoreLanes (w : GraphWalk) : List (ℕ × ℕ × LaneColorIx) → GraphWalk
  | [] => w
  | (col, target, color) :: slots =>
    if target = noLane then
      restoreLanes { w with free := insert col w.free, lanes := w.lanes ++ [none] } slots
    else
      restoreLanes (w.placeLane col ⟨c.laneId col, target, Text.usizeMax, color⟩) slots

def restore : GraphWalk :=
  c.restoreLanes ⟨[], fun _ => [], ∅, fun _ => 0, c.nextId, c.nextColor, c.main, c.mainTarget,
    c.pending⟩ ((List.range c.targets.length).zip (c.targets.zip c.colors))

end GraphCheckpoint

namespace GraphWalk

section

variable (w : GraphWalk)

def arrive (row : ℕ) : GraphWalk × List ℕ × Bool × List (ℕ × LanePaint) :=
  let hits := (w.targets (asU32 row)).insertionSort (· ≤ ·)
  if hits.isEmpty then
    let picked := w.color []
    let col := picked.1.alloc 0
    (picked.1.birth col row row picked.2, [col], false, [(col, .lane picked.2 false false)])
  else (w, hits, true, [])

def onlyMain (hits : List ℕ) : Bool :=
  hits.length = 1 && hits.head?.any fun col => (slotAt w.lanes col).any w.isMain

def force (row : ℕ) (hits : List ℕ) (hadHits : Bool) (parents : List ℕ) (head : Bool) : Bool :=
  head && hadHits && hits.length = 1 && parents.length ≤ 1 &&
    !(w.mainTarget = some row && w.onlyMain hits)

def nodeOf (hits : List ℕ) : ℕ :=
  ((hits.find? fun col => (slotAt w.lanes col).any w.isMain).or hits.head?).getD 0

def forkBeside (node : ℕ) (color : LaneColorIx) : Option (ℕ × LaneColorIx) :=
  if (slotAt w.lanes (node + 1)).isNone then some (node + 1, color) else none

def settleNode (row : ℕ) (hits : List ℕ) (hadHits : Bool) (parents : List ℕ) (head : Bool) :
    GraphWalk × Decision :=
  let node := w.nodeOf hits
  if w.force row hits hadHits parents head then
    let picked := w.color []
    (picked.1, ⟨node, w.forkBeside node picked.2, if w.onlyMain hits then none else some picked.2⟩)
  else (w, ⟨node, none, none⟩)

def lanesNow (row : ℕ) (fork : Option (ℕ × LaneColorIx)) : List LanePaint :=
  let len := max w.lanes.length (fork.elim 0 fun fork => fork.1 + 1)
  let paints := (List.range len).map fun col => (slotAt w.lanes col).elim .hole fun lane =>
    .lane lane.color
      (lane.born ≠ row && !(w.pending && w.mainTarget = some row && w.isMain lane)) false
  match fork with
  | some (col, color) => paints.set col (.lane color false false)
  | none => paints

def colorAt (col : ℕ) : LaneColorIx := (slotAt w.lanes col).elim 0 (·.color)

def joins (hits : List ℕ) (node : ℕ) (fork : Option (ℕ × LaneColorIx)) : List GraphEdge :=
  (hits.drop 1).map (fun col => ⟨laneCol col, laneCol node, w.colorAt col⟩) ++
    fork.toList.map fun fork => ⟨laneCol fork.1, laneCol node, fork.2⟩

def retarget (col parent : ℕ) : GraphWalk :=
  match slotAt w.lanes col with
  | none => w
  | some lane =>
    let targets := w.leave col lane.target
    { w with
      lanes := alter w.lanes col fun lane => { lane with target := asU32 parent }
      targets := Function.update targets (asU32 parent) (targets (asU32 parent) ++ [col]) }

end

def depart (w : GraphWalk) : List ℕ → List ℕ → GraphWalk × List LaneColorIx
  | [], _ => (w, [])
  | col :: hits, parent :: parents => (w.retarget col parent).depart hits parents
  | col :: hits, [] =>
    let taken := w.take col
    let departed := taken.1.depart hits []
    (departed.1, taken.2.toList.map (·.color) ++ departed.2)

def adoptFork (w : GraphWalk) (row node : ℕ) (adopt : Option LaneColorIx)
    (ended : List LaneColorIx) : GraphWalk × List LaneColorIx :=
  match adopt, slotAt w.lanes node with
  | some forkColor, some lane =>
    let colors := Function.update w.colors lane.color (w.colors lane.color - 1)
    ({ w with
        lanes := alter w.lanes node fun lane =>
          { lane with color := forkColor, id := w.nextId, born := row }
        colors := Function.update colors forkColor (colors forkColor + 1)
        nextId := w.nextId + 1 },
      ended ++ [lane.color])
  | _, _ => (w, ended)

def branchOut (w : GraphWalk) (row node : ℕ) (ended : List LaneColorIx) :
    List ℕ → GraphWalk × List ℕ
  | [] => (w, [])
  | parent :: parents =>
    if (w.targets (asU32 parent)).isEmpty then
      let picked := w.color ended
      let col := picked.1.alloc (node + 1)
      let branched := (picked.1.birth col parent row picked.2).branchOut row node ended parents
      (branched.1, col :: branched.2)
    else w.branchOut row node ended parents

def trimTrailing (w : GraphWalk) : GraphWalk :=
  { w with
    lanes := trim w.lanes
    free := w.free.filter fun col => ¬((trim w.lanes).length ≤ col ∧ col < w.lanes.length) }

def outgoing (row : ℕ) (slot : Option LiveLane) : LanePaint :=
  slot.elim .hole fun lane => .lane lane.color false (lane.born = row)

def edgesOut (w : GraphWalk) (row node : ℕ) (parents : List ℕ) : List GraphEdge :=
  (parents.drop 1).filterMap fun parent =>
    let carried := (w.targets (asU32 parent)).filter fun col =>
      (slotAt w.lanes col).any fun lane => lane.born ≠ row
    carried.min?.map fun col => ⟨laneCol node, laneCol col, w.colorAt col⟩

def transition (w : GraphWalk) (row : ℕ) (parents : List ℕ) (merge head materialize : Bool) :
    GraphWalk × GraphTransition :=
  let arrived := w.arrive row
  let decided := arrived.1.settleNode row arrived.2.1 arrived.2.2.1 parents head
  let current := decided.1
  let decision := decided.2
  let now := arrived.2.2.2 ++
    decision.fork.toList.map fun fork => (fork.1, .lane fork.2 false false)
  let hits := swapToFront arrived.2.1 decision.node
  let departed := current.depart hits parents
  let adopted := departed.1.adoptFork row decision.node decision.adopt departed.2
  let branched := adopted.1.branchOut row decision.node adopted.2
    (parents.drop (min parents.length hits.length))
  let next := { branched.1.trimTrailing with pending := false }
  let changed := ((hits ++ branched.2 ++ decision.fork.toList.map Prod.fst).insertionSort
    (· ≤ ·)).dedup
  let nextPaints := changed.map fun col => (col, outgoing row (slotAt next.lanes col))
  (next,
    { paint :=
        { lanesNow := if materialize then current.lanesNow row decision.fork else []
          lanesNext := if materialize then next.lanes.map (outgoing row) else []
          joinsIn := current.joins hits decision.node decision.fork
          edgesOut := next.edgesOut row decision.node parents
          nodeCol := laneCol decision.node
          nodeColorIx := decision.adopt.getD (current.colorAt decision.node)
          isMerge := merge
          fromNodeCols :=
            if materialize then
              (nextPaints.filter fun paint => paint.2.isActive && paint.2.startsAtNode).map
                fun paint => laneCol paint.1
            else [] }
      now := now
      next := nextPaints
      nextLen := next.lanes.length })

def step (w : GraphWalk) (row : ℕ) (parents : List ℕ) (merge head : Bool) : GraphWalk × GraphRow :=
  let transition := w.transition row parents merge head true
  (transition.1, transition.2.paint)

end GraphWalk

end GitComet.Graph

namespace GitComet.Graph
open Slots

namespace GraphWalk

section

variable {P : ℕ → LiveLane → Prop} {w : GraphWalk} (h : Each P w.lanes)
include h

theorem each_arrive {row : ℕ}
    (hnew : ∀ col ∈ (w.arrive row).2.1, ∀ id color, P col ⟨id, asU32 row, row, color⟩) :
    Each P (w.arrive row).1.lanes := by
  rw [arrive] at hnew ⊢
  dsimp only at hnew ⊢
  split_ifs at hnew ⊢
  · exact h.place (hnew _ (List.mem_singleton_self _) _ _)
  · exact h

theorem each_retarget {col parent : ℕ}
    (haimed : ∀ lane, P col lane → P col { lane with target := asU32 parent }) :
    Each P (w.retarget col parent).lanes := by
  rw [retarget]
  split
  next => exact h
  next => exact h.alter haimed

theorem each_take (col : ℕ) : Each P (w.take col).1.lanes := by
  rw [take]
  split
  next => exact h
  next => exact h.vacate col

omit h in
theorem each_depart (h : Each P w.lanes) {hits parents : List ℕ}
    (haimed : ∀ parent ∈ parents, ∀ col lane, P col lane →
      P col { lane with target := asU32 parent }) :
    Each P (w.depart hits parents).1.lanes := by
  induction hits generalizing w parents with
  | nil => cases parents <;> exact h
  | cons col hits ih =>
    cases parents with
    | nil => exact ih (each_take h col) haimed
    | cons parent parents =>
      obtain ⟨hparent, hrest⟩ := List.forall_mem_cons.mp haimed
      exact ih (each_retarget h (hparent col)) hrest

theorem each_adoptFork {row node : ℕ} (hborn : ∀ id color lane, P node lane →
      P node { lane with color := color, id := id, born := row }) (adopt : Option LaneColorIx)
    (ended : List LaneColorIx) : Each P (w.adoptFork row node adopt ended).1.lanes := by
  rw [adoptFork.eq_def]
  split
  next => exact h.alter (hborn _ _)
  next => exact h

omit h in
theorem each_branchOut (h : Each P w.lanes) {row node : ℕ} {ended : List LaneColorIx}
    {parents : List ℕ} (hnew : ∀ col ∈ (w.branchOut row node ended parents).2,
      ∀ parent ∈ parents, ∀ id color, P col ⟨id, asU32 parent, row, color⟩) :
    Each P (w.branchOut row node ended parents).1.lanes := by
  induction parents generalizing w with
  | nil => exact h
  | cons parent parents ih =>
    rw [branchOut] at hnew ⊢
    split_ifs at hnew ⊢
    · obtain ⟨hfirst, hrest⟩ := List.forall_mem_cons.mp hnew
      have hplaced : Each P ((w.color ended).1.birth ((w.color ended).1.alloc (node + 1)) parent
          row (w.color ended).2).lanes :=
        h.place (hfirst parent (List.mem_cons_self ..) _ _)
      exact ih hplaced fun col hcol parent hmem => hrest col hcol parent (.tail _ hmem)
    · exact ih h fun col hcol parent hmem => hnew col hcol parent (.tail _ hmem)

end

def BornIn (row : ℕ) (cols : List ℕ) (w : GraphWalk) : Prop :=
  Each (fun col lane => lane.born = row → col ∈ cols) w.lanes

section

variable {row : ℕ} {cols : List ℕ} {w : GraphWalk} (h : w.BornIn row cols)
include h

theorem BornIn.depart (hits parents : List ℕ) : (w.depart hits parents).1.BornIn row cols :=
  each_depart h fun _ _ _ _ hborn => hborn

theorem BornIn.adoptFork {node : ℕ} (hnode : node ∈ cols) (adopt : Option LaneColorIx)
    (ended : List LaneColorIx) : (w.adoptFork row node adopt ended).1.BornIn row cols :=
  each_adoptFork h (fun _ _ _ _ _ => hnode) adopt ended

theorem BornIn.branchOut (node : ℕ) (ended : List LaneColorIx) (parents : List ℕ) :
    (w.branchOut row node ended parents).1.BornIn row
      (cols ++ (w.branchOut row node ended parents).2) :=
  each_branchOut (h.mono fun _ _ hborn hrow => List.mem_append_left _ (hborn hrow))
    fun _ hcol _ _ _ _ _ => List.mem_append_right _ hcol

theorem BornIn.trimTrailing : w.trimTrailing.BornIn row cols := h.trim

omit h in
theorem BornIn.arrive (h : w.BornIn row []) : (w.arrive row).1.BornIn row (w.arrive row).2.1 :=
  each_arrive (h.mono fun _ _ hborn hrow => absurd (hborn hrow) List.not_mem_nil)
    fun _ hcol _ _ _ => hcol

end

theorem outgoing_starts (row : ℕ) (slot : Option LiveLane) :
    ((outgoing row slot).isActive && (outgoing row slot).startsAtNode) =
      slot.any (·.born = row) := by
  cases slot with
  | none =>
    rw [outgoing, Option.elim_none, LanePaint.isActive_hole]
    rfl
  | some lane =>
    rw [outgoing, Option.elim_some, LanePaint.isActive_lane, LanePaint.startsAtNode_lane]
    rfl

theorem fromNodeCols_eq (row : ℕ) (lanes : List (Option LiveLane)) :
    ((List.range (lanes.map (outgoing row)).length).filter fun col =>
      (lanes.map (outgoing row))[col]?.any fun lane => lane.isActive && lane.startsAtNode) =
      columns (·.born = row) lanes := by
  rw [columns, List.length_map]
  refine List.filter_congr fun col _ => ?_
  rw [List.getElem?_map, slotAt]
  cases lanes[col]? with
  | none => rfl
  | some slot => exact outgoing_starts row slot

theorem sorted_dedup (cols : List ℕ) : ((cols.insertionSort (· ≤ ·)).dedup).Pairwise (· < ·) :=
  (((List.pairwise_insertionSort (· ≤ ·) cols).sublist (List.dedup_sublist _)).and
    (List.nodup_dedup _)).imp fun hpair => Nat.lt_of_le_of_ne hpair.1 hpair.2

theorem BornIn.changed {row : ℕ} {cols cols' : List ℕ} {w : GraphWalk} (h : w.BornIn row cols)
    (hsub : cols ⊆ cols') :
    ((((cols'.insertionSort (· ≤ ·)).dedup.map fun col =>
      (col, outgoing row (slotAt w.lanes col))).filter
        fun paint => paint.2.isActive && paint.2.startsAtNode).map fun paint => laneCol paint.1) =
      columns (·.born = row) w.lanes := by
  have hcols : ∀ (p : ℕ × LanePaint → Bool) (f : ℕ → LanePaint) (cols : List ℕ),
      (((cols.map fun col => (col, f col)).filter p).map fun paint => laneCol paint.1) =
        cols.filter fun col => p (col, f col) := by
    intro p f cols
    rw [List.filter_map, List.map_map]
    exact List.map_id _
  rw [hcols]
  refine eq_of_sorted ((sorted_dedup cols').filter _) (columns_sorted _ _) fun col => ?_
  rw [List.mem_filter, outgoing_starts, List.mem_dedup, List.mem_insertionSort, mem_columns,
    Option.any_eq_true]
  constructor
  · rintro ⟨-, hlane⟩
    exact hlane
  · rintro ⟨lane, hlane, hborn⟩
    exact ⟨hsub (h col lane hlane (of_decide_eq_true hborn)), lane, hlane, hborn⟩

end GraphWalk

end GitComet.Graph
