import Mathlib.Data.BitVec
import GitComet.Basis.Slots

namespace GitComet.Graph
open List

def laneColorPaletteSize : ℕ := 64

abbrev LaneColorIx := ℕ

structure LanePaint where
  colorIx : LaneColorIx
  flags : BitVec 8
  deriving DecidableEq

namespace LanePaint

def activeFlag : BitVec 8 := 1 <<< 0
def incomingFlag : BitVec 8 := 1 <<< 1
def fromNodeFlag : BitVec 8 := 1 <<< 2

def hole : LanePaint := ⟨0, 0⟩

def lane (colorIx : LaneColorIx) (incoming fromNode : Bool) : LanePaint :=
  let flags := activeFlag
  let flags := if incoming then flags ||| incomingFlag else flags
  let flags := if fromNode then flags ||| fromNodeFlag else flags
  ⟨colorIx, flags⟩

def isActive (paint : LanePaint) : Bool := (paint.flags &&& activeFlag) != 0
def incoming (paint : LanePaint) : Bool := (paint.flags &&& incomingFlag) != 0
def startsAtNode (paint : LanePaint) : Bool := (paint.flags &&& fromNodeFlag) != 0

@[simp] theorem isActive_hole : hole.isActive = false := by decide
@[simp] theorem incoming_hole : hole.incoming = false := by decide

section

variable (color : LaneColorIx) (incomingBit fromNodeBit : Bool)

@[simp] theorem colorIx_lane : (lane color incomingBit fromNodeBit).colorIx = color := rfl

@[simp] theorem isActive_lane : (lane color incomingBit fromNodeBit).isActive := by
  cases incomingBit <;> cases fromNodeBit <;> simp only [lane, isActive] <;> decide

@[simp] theorem incoming_lane : (lane color incomingBit fromNodeBit).incoming = incomingBit := by
  cases incomingBit <;> cases fromNodeBit <;> simp only [lane, incoming] <;> decide

@[simp] theorem startsAtNode_lane :
    (lane color incomingBit fromNodeBit).startsAtNode = fromNodeBit := by
  cases incomingBit <;> cases fromNodeBit <;> simp only [lane, startsAtNode] <;> decide

end

end LanePaint

structure GraphEdge where
  fromCol : ℕ
  toCol : ℕ
  colorIx : LaneColorIx
  deriving DecidableEq

structure GraphRow where
  lanesNow : List LanePaint
  lanesNext : List LanePaint
  joinsIn : List GraphEdge
  edgesOut : List GraphEdge
  nodeCol : ℕ
  nodeColorIx : LaneColorIx
  isMerge : Bool
  fromNodeCols : List ℕ
  deriving DecidableEq

-- A column of a row is a `u16`: the painter gives up on a wider graph.
def laneCol (col : ℕ) : ℕ := col

def pickColor (used : LaneColorIx → Bool) (start : ℕ) (avoid : List LaneColorIx) :
    LaneColorIx × ℕ :=
  let free := fun offset =>
    let color := (start + offset) % laneColorPaletteSize
    !used color && !avoid.contains color
  match (range laneColorPaletteSize).find? free with
  | some offset => ((start + offset) % laneColorPaletteSize, start + offset + 1)
  | none => (start % laneColorPaletteSize, start + 1)

def swapToFront (hits : List ℕ) (node : ℕ) : List ℕ :=
  match hits.idxOf? node, hits.head? with
  | some pos, some first => (hits.set pos first).set 0 node
  | _, _ => hits

theorem perm_set {rest : List ℕ} {ix first node : ℕ} (h : rest[ix]? = some node) :
    (node :: rest.set ix first).Perm (first :: rest) := by
  induction rest generalizing ix with
  | nil => cases h
  | cons head rest ih =>
    cases ix with
    | zero =>
      obtain rfl : head = node := Option.some.inj h
      exact Perm.swap _ _ _
    | succ ix =>
      calc (node :: head :: rest.set ix first).Perm (head :: node :: rest.set ix first) :=
            Perm.swap _ _ _
        _ |>.Perm (head :: first :: rest) := (ih h).cons _
        _ |>.Perm (first :: head :: rest) := Perm.swap _ _ _

section

variable {hits : List ℕ} {node : ℕ} (h : node ∈ hits)
include h

theorem swapToFront_perm : (swapToFront hits node).Perm hits := by
  rw [swapToFront]
  cases hpos : hits.idxOf? node with
  | none => exact absurd h (idxOf?_eq_none_iff.mp hpos)
  | some pos =>
    obtain ⟨hlt, hnode, -⟩ := idxOf?_eq_some_iff.mp hpos
    cases hits with
    | nil => cases h
    | cons first rest =>
      cases pos with
      | zero =>
        obtain rfl : first = node := hnode
        rfl
      | succ pos =>
        exact perm_set (List.getElem?_eq_some_iff.mpr ⟨Nat.lt_of_succ_lt_succ hlt, hnode⟩)

theorem head_swapToFront : (swapToFront hits node).head? = some node := by
  rw [swapToFront]
  cases hpos : hits.idxOf? node with
  | none => exact absurd h (idxOf?_eq_none_iff.mp hpos)
  | some pos =>
    cases hits with
    | nil => cases h
    | cons first rest => cases pos <;> rfl

end

structure Decision where
  node : ℕ
  fork : Option (ℕ × LaneColorIx)
  adopt : Option LaneColorIx
  deriving DecidableEq

end GitComet.Graph

namespace GitComet.Graph
open Slots

structure LaneState where
  id : ℕ
  colorIx : LaneColorIx
  targetIx : ℕ
  carriedIn : Bool
  deriving DecidableEq

structure OracleGraphWalk where
  nextId : ℕ
  nextColor : ℕ
  lanes : List (Option LaneState)
  mainLaneId : Option ℕ
  mainTargetIx : Option ℕ
  seededMainLanePending : Bool
  deriving DecidableEq

namespace OracleGraphWalk

def new : Option ℕ → OracleGraphWalk
  | none => ⟨1, 0, [], none, none, false⟩
  | some mainTargetIx => ⟨2, 1, [some ⟨1, 0, mainTargetIx, false⟩], some 1, some mainTargetIx, true⟩

section

variable (o : OracleGraphWalk)

def pickLaneColorIx (avoid : List LaneColorIx) : OracleGraphWalk × LaneColorIx :=
  let picked := pickColor (fun color => o.lanes.any fun slot => slot.any (·.colorIx = color))
    o.nextColor avoid
  ({ o with nextColor := picked.2 }, picked.1)

def placeLane (col targetIx : ℕ) (colorIx : LaneColorIx) : OracleGraphWalk :=
  { o with
    lanes := place o.lanes col ⟨o.nextId, colorIx, targetIx, false⟩
    nextId := o.nextId + 1 }

def carryIn : OracleGraphWalk :=
  { o with lanes := across (fun lane => { lane with carriedIn := true }) o.lanes }

def arrive (commitIx : ℕ) : OracleGraphWalk × List ℕ × Bool :=
  let o := o.carryIn
  let hits := columns (fun lane => lane.targetIx = commitIx) o.lanes
  if hits.isEmpty then
    let picked := o.pickLaneColorIx []
    let col := pickHole o.lanes 0
    (picked.1.placeLane col commitIx picked.2, [col], false)
  else (o, hits, true)

def isMain (lane : LaneState) : Bool := o.mainLaneId = some lane.id

def onlyHitIsMainLane (hits : List ℕ) : Bool :=
  hits.length = 1 && hits.head?.any fun col => (slotAt o.lanes col).any o.isMain

def forceBranchHeadLane (commitIx : ℕ) (hits : List ℕ) (hadHitLanes : Bool)
    (parentIxs : List ℕ) (isBranchHead : Bool) : Bool :=
  isBranchHead && hadHitLanes && hits.length = 1 && parentIxs.length ≤ 1 &&
    !(o.mainTargetIx = some commitIx && o.onlyHitIsMainLane hits)

def nodeOf (hits : List ℕ) : ℕ :=
  ((hits.find? fun col => (slotAt o.lanes col).any o.isMain).or hits.head?).getD 0

def forkBeside (nodeCol : ℕ) (colorIx : LaneColorIx) : Option (ℕ × LaneColorIx) :=
  if (slotAt o.lanes (nodeCol + 1)).isNone then some (nodeCol + 1, colorIx) else none

def settleNode (commitIx : ℕ) (hits : List ℕ) (hadHitLanes : Bool) (parentIxs : List ℕ)
    (isBranchHead : Bool) : OracleGraphWalk × Decision :=
  let nodeCol := o.nodeOf hits
  if o.forceBranchHeadLane commitIx hits hadHitLanes parentIxs isBranchHead then
    let picked := o.pickLaneColorIx []
    (picked.1, ⟨nodeCol, o.forkBeside nodeCol picked.2,
      if o.onlyHitIsMainLane hits then none else some picked.2⟩)
  else (o, ⟨nodeCol, none, none⟩)

def lanesNow (commitIx : ℕ) (fork : Option (ℕ × LaneColorIx)) : List LanePaint :=
  let suppressMainIncoming := o.seededMainLanePending && o.mainTargetIx = some commitIx
  let nowLen := max o.lanes.length (fork.elim 0 fun fork => fork.1 + 1)
  (List.range nowLen).map fun col =>
    match slotAt o.lanes col with
    | some lane =>
      .lane lane.colorIx (lane.carriedIn && !(suppressMainIncoming && o.isMain lane)) false
    | none =>
      match fork with
      | some (forkCol, colorIx) => if forkCol = col then .lane colorIx false false else .hole
      | none => .hole

def colorAt (col : ℕ) : LaneColorIx := (slotAt o.lanes col).elim 0 (·.colorIx)

def joinsIn (hits : List ℕ) (node : ℕ) (fork : Option (ℕ × LaneColorIx)) : List GraphEdge :=
  (hits.drop 1).map (fun col => ⟨laneCol col, laneCol node, o.colorAt col⟩) ++
    fork.toList.map fun fork => ⟨laneCol fork.1, laneCol node, fork.2⟩

def setTarget (col targetIx : ℕ) : OracleGraphWalk :=
  { o with lanes := alter o.lanes col fun lane => { lane with targetIx := targetIx } }

end

def endLanes (o : OracleGraphWalk) : List ℕ → OracleGraphWalk × List LaneColorIx
  | [] => (o, [])
  | col :: cols =>
    let ended := endLanes { o with lanes := vacate o.lanes col } cols
    (ended.1, (slotAt o.lanes col).toList.map (·.colorIx) ++ ended.2)

def followParents (o : OracleGraphWalk) : List (ℕ × ℕ) → OracleGraphWalk
  | [] => o
  | (col, parentIx) :: pairs => followParents (o.setTarget col parentIx) pairs

def depart (o : OracleGraphWalk) (hits parentIxs : List ℕ) : OracleGraphWalk × List LaneColorIx :=
  match parentIxs with
  | [] => o.endLanes hits
  | _ :: _ =>
    (o.followParents (hits.zip parentIxs)).endLanes (hits.drop (min parentIxs.length hits.length))

def adoptFork (o : OracleGraphWalk) (node : ℕ) (adopt : Option LaneColorIx)
    (ended : List LaneColorIx) : OracleGraphWalk × List LaneColorIx :=
  match adopt, slotAt o.lanes node with
  | some colorIx, some lane =>
    ({ o with
        lanes := alter o.lanes node fun lane =>
          { lane with id := o.nextId, colorIx := colorIx, carriedIn := false }
        nextId := o.nextId + 1 },
      ended ++ [lane.colorIx])
  | _, _ => (o, ended)

def branchOut (o : OracleGraphWalk) (node : ℕ) (ended : List LaneColorIx) :
    List ℕ → OracleGraphWalk
  | [] => o
  | parentIx :: parentIxs =>
    if o.lanes.any fun slot => slot.any (·.targetIx = parentIx) then
      branchOut o node ended parentIxs
    else
      let picked := o.pickLaneColorIx ended
      branchOut (picked.1.placeLane (pickHole o.lanes (node + 1)) parentIx picked.2) node ended
        parentIxs

def lanesNext (o : OracleGraphWalk) : List LanePaint :=
  o.lanes.map fun slot => slot.elim .hole fun lane => .lane lane.colorIx false !lane.carriedIn

def edgesOut (o : OracleGraphWalk) (node : ℕ) (parentIxs : List ℕ) : List GraphEdge :=
  (parentIxs.drop 1).filterMap fun parentIx =>
    (columns (fun lane => lane.targetIx = parentIx && lane.carriedIn) o.lanes).head?.map
      fun toCol => ⟨laneCol node, laneCol toCol, o.colorAt toCol⟩

def fromNodeColsOf (lanesNext : List LanePaint) : List ℕ :=
  (List.range lanesNext.length).filter fun col =>
    lanesNext[col]?.any fun lane => lane.isActive && lane.startsAtNode

def step (o : OracleGraphWalk) (commitIx : ℕ) (parentIxs : List ℕ) (isMerge isBranchHead : Bool) :
    OracleGraphWalk × GraphRow :=
  let arrived := o.arrive commitIx
  let decided := arrived.1.settleNode commitIx arrived.2.1 arrived.2.2 parentIxs isBranchHead
  let now := decided.1
  let decision := decided.2
  let hits := swapToFront arrived.2.1 decision.node
  let nodeCol := hits.head?.getD decision.node
  let departed := now.depart hits parentIxs
  let adopted := departed.1.adoptFork nodeCol decision.adopt departed.2
  let covered := min parentIxs.length hits.length
  let branched := adopted.1.branchOut nodeCol adopted.2 (parentIxs.drop covered)
  let next := { branched with lanes := trim branched.lanes, seededMainLanePending := false }
  (next,
    { lanesNow := now.lanesNow commitIx decision.fork
      lanesNext := next.lanesNext
      joinsIn := now.joinsIn hits nodeCol decision.fork
      edgesOut := next.edgesOut nodeCol parentIxs
      nodeCol := laneCol nodeCol
      nodeColorIx := decision.adopt.getD (now.colorAt nodeCol)
      isMerge := isMerge
      fromNodeCols := fromNodeColsOf next.lanesNext })

end OracleGraphWalk

end GitComet.Graph
