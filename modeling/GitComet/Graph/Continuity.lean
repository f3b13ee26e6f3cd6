import GitComet.Graph.Refinement

namespace GitComet.Graph
open Slots List Option Nat

def paintAt (lanes : List LanePaint) (col : ℕ) : LanePaint := (lanes[col]?).getD .hole

variable {col : ℕ}

theorem paintAt_range {f : ℕ → LanePaint} {len : ℕ} (h : len ≤ col → f col = .hole) :
    paintAt ((range len).map f) col = f col := by
  rw [paintAt, getElem?_map]
  rcases lt_or_ge col len with hlt | hge
  · rw [getElem?_range hlt]
    rfl
  · rw [getElem?_eq_none (by rwa [length_range]), h hge]
    rfl

theorem paintAt_set {lanes : List LanePaint} {other : ℕ} {paint : LanePaint}
    (h : other < lanes.length) :
    paintAt (lanes.set other paint) col = if other = col then paint else paintAt lanes col := by
  rw [paintAt, paintAt, getElem?_set]
  split_ifs
  · rfl
  · rfl

namespace GraphWalk

theorem slotAt_birth {w : GraphWalk} (hle : col ≤ w.lanes.length)
    (target row : ℕ) (color : LaneColorIx) (other : ℕ) :
    slotAt (w.birth col target row color).lanes other =
      if other = col then some ⟨w.nextId, asU32 target, row, color⟩ else slotAt w.lanes other :=
  slotAt_place _ hle

theorem depart_slot {w : GraphWalk} {hits : List ℕ} (h : col ∉ hits)
    (parents : List ℕ) : slotAt (w.depart hits parents).1.lanes col = slotAt w.lanes col := by
  induction hits generalizing w parents with
  | nil => cases parents <;> rfl
  | cons hit hits ih =>
    obtain ⟨hne, hrest⟩ := not_or.mp (mt mem_cons.mpr h)
    cases parents with
    | nil =>
      rw [depart]
      refine (ih hrest []).trans ?_
      rw [take]
      split
      next => rfl
      next => rw [slotAt_vacate, if_neg hne]
    | cons parent parents =>
      rw [depart]
      refine (ih hrest parents).trans ?_
      rw [retarget]
      split
      next => rfl
      next => rw [slotAt_alter, if_neg hne]

theorem adoptFork_slot {node : ℕ} (h : col ≠ node) (w : GraphWalk) (row : ℕ)
    (adopt : Option LaneColorIx) (ended : List LaneColorIx) :
    slotAt (w.adoptFork row node adopt ended).1.lanes col = slotAt w.lanes col := by
  rw [adoptFork.eq_def]
  split
  next => rw [slotAt_alter, if_neg h]
  next => rfl

section

variable {w : GraphWalk} (h : w.Indexed)
include h

theorem Indexed.color (avoid : List LaneColorIx) : (w.color avoid).1.Indexed :=
  ⟨h.free, h.targets, h.nodup, h.colors⟩

theorem Indexed.alloc_slot (prefer : ℕ) :
    w.alloc prefer ≤ w.lanes.length ∧ slotAt w.lanes (w.alloc prefer) = none := by
  rw [h.alloc_eq]
  exact ⟨pickHole_le _ _, slotAt_pickHole _ _⟩

theorem Indexed.birth (prefer target row : ℕ) (color : LaneColorIx) :
    (w.birth (w.alloc prefer) target row color).Indexed ∧
      ∀ {col lane}, slotAt w.lanes col = some lane →
        slotAt (w.birth (w.alloc prefer) target row color).lanes col = some lane := by
  obtain ⟨hle, hnone⟩ := h.alloc_slot prefer
  have hready : ({ w with nextId := w.nextId + 1 } : GraphWalk).Indexed :=
    ⟨h.free, h.targets, h.nodup, h.colors⟩
  refine ⟨hready.placeLane _ hle hnone, fun {col lane} hlane => ?_⟩
  rw [slotAt_birth hle, if_neg]
  · exact hlane
  · rintro rfl
    rw [hnone] at hlane
    cases hlane

theorem Indexed.depart (hits parents : List ℕ) : (w.depart hits parents).1.Indexed := by
  induction hits generalizing w parents with
  | nil => cases parents <;> exact h
  | cons hit hits ih =>
    cases parents with
    | nil => exact ih (h.take hit) []
    | cons parent parents => exact ih (h.retarget hit parent) parents

theorem Indexed.branchOut (row node : ℕ) (ended : List LaneColorIx) (parents : List ℕ) :
    (w.branchOut row node ended parents).1.Indexed ∧ ∀ {col lane}, slotAt w.lanes col = some lane →
        slotAt (w.branchOut row node ended parents).1.lanes col = some lane := by
  induction parents generalizing w with
  | nil => exact ⟨h, fun hlane => hlane⟩
  | cons parent parents ih =>
    rw [GraphWalk.branchOut]
    split_ifs
    · obtain ⟨hborn, hkept⟩ := (h.color ended).birth (node + 1) parent row (w.color ended).2
      obtain ⟨hindexed, hrest⟩ := ih hborn
      exact ⟨hindexed, fun hlane => hrest (hkept hlane)⟩
    · exact ih h

end

variable {lane : LiveLane}

section

variable {w : GraphWalk} (h : w.Indexed) {row : ℕ}
include h

theorem Indexed.arrive :
    (w.arrive row).1.Indexed ∧ ∀ {col lane}, slotAt w.lanes col = some lane →
      slotAt (w.arrive row).1.lanes col = some lane := by
  rw [GraphWalk.arrive]
  dsimp only
  split_ifs
  · exact (h.color []).birth 0 row row (w.color []).2
  · exact ⟨h, fun hlane => hlane⟩

theorem arrive_hit (hcol : col ∈ (w.arrive row).2.1) :
    (slotAt (w.arrive row).1.lanes col).isSome := by
  rw [GraphWalk.arrive] at hcol ⊢
  dsimp only at hcol ⊢
  split_ifs at hcol ⊢
  · obtain rfl := mem_singleton.mp hcol
    rw [slotAt_birth ((h.color []).alloc_slot 0).1, if_pos rfl]
    rfl
  · obtain ⟨lane, hlane, -⟩ := (h.targets _ _).mp ((mem_insertionSort _).mp hcol)
    rw [hlane]
    rfl

theorem arrive_passed (hrow : row < noLane)
    (hlane : slotAt w.lanes col = some lane) (htarget : lane.target ≠ row) :
    col ∉ (w.arrive row).2.1 := by
  have hfits : asU32 row = row := mod_eq_of_lt (lt_of_lt_of_le hrow (sub_le _ _))
  intro hcol
  rw [GraphWalk.arrive] at hcol
  dsimp only at hcol
  split_ifs at hcol
  · obtain rfl := mem_singleton.mp hcol
    have hnone : slotAt w.lanes ((w.color []).1.alloc 0) = none :=
      ((h.color []).alloc_slot 0).2
    rw [hnone] at hlane
    cases hlane
  · obtain ⟨lane', hlane', htarget'⟩ := (h.targets _ _).mp ((mem_insertionSort _).mp hcol)
    obtain rfl := some.inj (hlane.symm.trans hlane')
    exact htarget (htarget'.trans hfits)

end

structure Stepped (w : GraphWalk) (row : ℕ) (parents : List ℕ) (next : GraphWalk)
    (paint : GraphRow) (settled : GraphWalk) (front : List ℕ) (node : ℕ)
    (fork : Option (ℕ × LaneColorIx)) : Prop where
  lanesNow : paint.lanesNow = settled.lanesNow row fork
  lanesNext : paint.lanesNext = next.lanes.map (outgoing row)
  joinsIn : paint.joinsIn = settled.joins front node fork
  edgesOut : paint.edgesOut = next.edgesOut row node parents
  nodeCol : paint.nodeCol = node
  main : settled.pending = w.pending
  pending : next.pending = false
  hole : ∀ place ∈ fork, slotAt settled.lanes place.1 = none
  old : Each (fun col lane => lane.born = row ∨ slotAt w.lanes col = some lane) settled.lanes
  kept : ∀ {col lane}, slotAt w.lanes col = some lane → slotAt settled.lanes col = some lane
  hit : ∀ {col}, col ∈ front → (slotAt settled.lanes col).isSome
  head : front.head? = some node
  passed : ∀ {col lane}, slotAt w.lanes col = some lane → lane.target ≠ row → col ∉ front
  through : ∀ {col lane}, slotAt settled.lanes col = some lane → col ∉ front →
    slotAt next.lanes col = some lane
  carried : Each (fun col lane => lane.born = row ∨ (slotAt settled.lanes col).isSome) next.lanes
  indexed : next.Indexed

theorem Indexed.step {w : GraphWalk} (h : w.Indexed) {row : ℕ} (hrow : row < noLane)
    (parents : List ℕ) (merge head : Bool) :
    ∃ settled front node fork, w.Stepped row parents (w.step row parents merge head).1
      (w.step row parents merge head).2 settled front node fork := by
  have hold : Each (fun col lane => lane.born = row ∨ slotAt w.lanes col = some lane)
      (w.arrive row).1.lanes :=
    each_arrive (fun _ _ hlane => .inr hlane) fun _ _ _ _ => .inl rfl
  have hhit : ∀ col ∈ (w.arrive row).2.1, (slotAt (w.arrive row).1.lanes col).isSome :=
    fun _ hcol => arrive_hit h hcol
  have hpassed : ∀ {col lane}, slotAt w.lanes col = some lane → lane.target ≠ row →
      col ∉ (w.arrive row).2.1 := fun hlane htarget => arrive_passed h hrow hlane htarget
  have hpending : (w.arrive row).1.pending = w.pending := by
    rw [GraphWalk.arrive]
    dsimp only
    split_ifs
    · rfl
    · rfl
  obtain ⟨harrived, hkept⟩ : _ ∧ ∀ {col lane}, slotAt w.lanes col = some lane →
      slotAt (w.arrive row).1.lanes col = some lane := h.arrive
  have hsome := w.arrive_hits row
  rw [GraphWalk.step, transition]
  generalize w.arrive row = arrived at *
  obtain ⟨arrived, hits, hadHits, now⟩ := arrived
  dsimp only at *
  obtain ⟨hlanes, hnode, hfork⟩ := arrived.settled_lanes row hits hadHits parents head
  have hsettled : (arrived.settleNode row hits hadHits parents head).1.Indexed ∧
      (arrived.settleNode row hits hadHits parents head).1.pending = arrived.pending := by
    rw [settleNode]
    cases arrived.force row hits hadHits parents head with
    | false => exact ⟨harrived, rfl⟩
    | true => exact ⟨harrived.color [], rfl⟩
  generalize arrived.settleNode row hits hadHits parents head = settled at *
  obtain ⟨settled, node, fork, adopt⟩ := settled
  dsimp only at *
  have hmem : node ∈ hits := hnode ▸ arrived.nodeOf_mem hsome
  have hfront : ∀ {col}, col ∈ swapToFront hits node ↔ col ∈ hits :=
    (swapToFront_perm hmem).mem_iff
  have hhead := head_swapToFront hmem
  generalize swapToFront hits node = front at *
  have hnodeFront : node ∈ front := hfront.mpr hmem
  have hdeparted := hsettled.1.depart front parents
  have hadopted := hdeparted.adoptFork row node adopt (settled.depart front parents).2
  obtain ⟨hbranched, hbranchKept⟩ := hadopted.branchOut row node
    ((settled.depart front parents).1.adoptFork row node adopt (settled.depart front parents).2).2
    (parents.drop (min parents.length front.length))
  refine ⟨settled, front, node, fork, rfl, rfl, rfl, rfl, rfl, hsettled.2.trans hpending, rfl,
    hlanes ▸ hfork, hlanes ▸ hold, ?_, ?_, hhead, ?_, ?_, ?_, ?_⟩
  · intro col lane hlane
    exact hlanes ▸ hkept hlane
  · intro col hcol
    exact hlanes ▸ hhit col (hfront.mp hcol)
  · intro col lane hlane htarget hcol
    exact hpassed hlane htarget (hfront.mp hcol)
  · intro col lane hlane hcol
    have hne : col ≠ node := fun hsame => hcol (hsame ▸ hnodeFront)
    refine (slotAt_trim _).trans (hbranchKept ?_)
    rw [adoptFork_slot hne, depart_slot hcol]
    exact hlane
  · refine Each.trim (each_branchOut (each_adoptFork (each_depart (fun col lane hlane => ?_) ?_)
      (fun _ _ _ _ => .inl rfl) adopt _) fun _ _ _ _ _ _ => .inl rfl)
    · exact .inr (by rw [hlane]; rfl)
    · exact fun _ _ _ _ hlane => hlane
  · have htrimmed := hbranched.trimTrailing
    exact ⟨htrimmed.free, htrimmed.targets, htrimmed.nodup, htrimmed.colors⟩

section

variable (w : GraphWalk) (row : ℕ)

def paintNow (slot : Option LiveLane) : LanePaint :=
  slot.elim .hole fun lane => .lane lane.color
    (lane.born ≠ row && !(w.pending && w.mainTarget = some row && w.isMain lane)) false

theorem paintAt_lanesNow (fork : Option (ℕ × LaneColorIx)) (col : ℕ) :
    paintAt (w.lanesNow row fork) col = (fork.filter (·.1 = col)).elim
      (w.paintNow row (slotAt w.lanes col)) fun place => .lane place.2 false false := by
  have hoff : ∀ len, w.lanes.length ≤ len → len ≤ col →
      w.paintNow row (slotAt w.lanes col) = .hole := by
    intro len hlen hle
    rw [slotAt_of_length_le _ (le_trans hlen hle)]
    rfl
  rw [lanesNow.eq_def]
  cases fork with
  | none => exact paintAt_range (hoff _ (le_max_left _ _))
  | some place =>
    have hlt : place.1 < max w.lanes.length (place.1 + 1) :=
      lt_of_lt_of_le (lt_succ_self _) (le_max_right _ _)
    refine (paintAt_set (by rwa [length_map, length_range])).trans ?_
    rw [filter_some]
    split_ifs with hsame hother hother
    · rfl
    · exact absurd (decide_eq_true hsame) hother
    · exact absurd (of_decide_eq_true hother) hsame
    · exact paintAt_range (hoff _ (le_max_left _ _))

theorem paintAt_lanesNext (col : ℕ) :
    paintAt (w.lanes.map (outgoing row)) col = outgoing row (slotAt w.lanes col) := by
  rw [paintAt, getElem?_map, slotAt]
  cases w.lanes[col]? with
  | none => rfl
  | some slot => rfl

end

section

variable {w next settled : GraphWalk} {row node : ℕ} {parents front : List ℕ} {paint : GraphRow}
  {fork : Option (ℕ × LaneColorIx)}
  (h : w.Stepped row parents next paint settled front node fork)
include h

theorem Stepped.paintNow (hlane : slotAt settled.lanes col = some lane) :
    paintAt paint.lanesNow col = settled.paintNow row (some lane) := by
  have hfork : fork.filter (·.1 = col) = none := by
    rw [filter_eq_none_iff]
    intro place hplace hsame
    have hnone := h.hole place hplace
    rw [of_decide_eq_true hsame, hlane] at hnone
    cases hnone
  rw [h.lanesNow, paintAt_lanesNow, hfork, hlane]
  rfl

theorem Stepped.active (hcol : (slotAt settled.lanes col).isSome) :
    (paintAt paint.lanesNow col).isActive := by
  obtain ⟨lane, hlane⟩ := isSome_iff_exists.mp hcol
  rw [h.paintNow hlane]
  exact LanePaint.isActive_lane _ _ _

theorem Stepped.nodeActive : (paintAt paint.lanesNow node).isActive :=
  h.active (h.hit (mem_of_mem_head? h.head))

theorem Stepped.joinsActive {edge : GraphEdge} (hedge : edge ∈ paint.joinsIn) :
    (paintAt paint.lanesNow edge.fromCol).isActive ∧
      (paintAt paint.lanesNow edge.toCol).isActive := by
  rw [h.joinsIn, joins, mem_append] at hedge
  rcases hedge with hedge | hedge
  · obtain ⟨col, hcol, rfl⟩ := mem_map.mp hedge
    exact ⟨h.active (h.hit (mem_of_mem_drop hcol)), h.nodeActive⟩
  · obtain ⟨place, hplace, rfl⟩ := mem_map.mp hedge
    refine ⟨?_, h.nodeActive⟩
    obtain rfl := mem_toList.mp hplace
    have hself : (some place).filter (·.1 = laneCol place.1) = some place :=
      filter_some_pos (decide_eq_true rfl)
    rw [h.lanesNow, paintAt_lanesNow, hself]
    exact LanePaint.isActive_lane _ _ _

theorem Stepped.edgesActive {edge : GraphEdge} (hedge : edge ∈ paint.edgesOut) :
    (paintAt paint.lanesNow edge.fromCol).isActive ∧
      (paintAt paint.lanesNow edge.toCol).isActive := by
  rw [h.edgesOut, GraphWalk.edgesOut] at hedge
  obtain ⟨parent, -, hsome⟩ := mem_filterMap.mp hedge
  obtain ⟨col, hcol, rfl⟩ := map_eq_some_iff.mp hsome
  obtain ⟨-, hborn⟩ := mem_filter.mp (min?_mem hcol)
  obtain ⟨lane, hlane, hearlier⟩ := (any_eq_true _ _).mp hborn
  exact ⟨h.nodeActive, h.active ((h.carried col lane hlane).resolve_left
    (of_decide_eq_true hearlier))⟩

theorem Stepped.incoming (hborn : w.BornIn row []) (hpending : w.pending = false) (col : ℕ) :
    (∀ lane, slotAt w.lanes col = some lane →
      paintAt paint.lanesNow col = .lane lane.color true false) ∧
    ((paintAt paint.lanesNow col).incoming → (slotAt w.lanes col).isSome) := by
  refine ⟨fun lane hlane => ?_, fun hincoming => ?_⟩
  · have hold : lane.born ≠ row := fun hsame => absurd (hborn col lane hlane hsame) not_mem_nil
    rw [h.paintNow (h.kept hlane), GraphWalk.paintNow, elim_some, h.main, hpending]
    simp [hold]
  · cases hslot : slotAt settled.lanes col with
    | none =>
      rw [h.lanesNow, paintAt_lanesNow, hslot] at hincoming
      cases hfork : fork.filter (·.1 = col) with
      | none =>
        rw [hfork, elim_none, GraphWalk.paintNow, elim_none, LanePaint.incoming_hole] at hincoming
        cases hincoming
      | some place =>
        rw [hfork, elim_some, LanePaint.incoming_lane] at hincoming
        cases hincoming
    | some lane =>
      rw [h.paintNow hslot, GraphWalk.paintNow, elim_some, LanePaint.incoming_lane,
        Bool.and_eq_true] at hincoming
      rw [(h.old col lane hslot).resolve_left (of_decide_eq_true hincoming.1)]
      rfl

theorem Stepped.kept_next (hlane : slotAt w.lanes col = some lane)
    (htarget : lane.target ≠ row) : slotAt next.lanes col = some lane :=
  h.through (h.kept hlane) (h.passed hlane htarget)

theorem Stepped.meets (hcol : col ∈ front) :
    col = paint.nodeCol ∨ ∃ join ∈ paint.joinsIn, join.fromCol = col := by
  have hhead := h.head
  rw [h.nodeCol, h.joinsIn]
  cases front with
  | nil => cases hcol
  | cons first rest =>
    cases hhead
    rcases mem_cons.mp hcol with rfl | hmem
    · exact .inl rfl
    · exact .inr ⟨_, mem_append_left _ (mem_map_of_mem hmem), rfl⟩

theorem Stepped.gone (hlane : slotAt w.lanes col = some lane)
    (hgone : (paintAt paint.lanesNext col).isActive = false) :
    lane.target = row ∧ (col = paint.nodeCol ∨ ∃ join ∈ paint.joinsIn, join.fromCol = col) := by
  have hlost : slotAt next.lanes col ≠ some lane := by
    intro hkept
    rw [h.lanesNext, paintAt_lanesNext, hkept, outgoing, elim_some,
      LanePaint.isActive_lane] at hgone
    cases hgone
  constructor
  · by_contra htarget
    exact hlost (h.kept_next hlane htarget)
  · apply h.meets
    by_contra hfront
    exact hlost (h.through (h.kept hlane) hfront)

omit h in
theorem Stepped.above (h : w.Stepped row parents next paint settled front node fork)
    {lower : GraphRow} {parents' front' : List ℕ} {next' settled' : GraphWalk} {node' : ℕ}
    {fork' : Option (ℕ × LaneColorIx)} (hborn : next.BornIn (row + 1) [])
    (hlower : next.Stepped (row + 1) parents' next' lower settled' front' node' fork') (col : ℕ) :
    ((paintAt paint.lanesNext col).isActive → (paintAt lower.lanesNow col).isActive ∧
        (paintAt lower.lanesNow col).colorIx = (paintAt paint.lanesNext col).colorIx ∧
        (paintAt lower.lanesNow col).incoming) ∧
    ((paintAt lower.lanesNow col).incoming →
      (paintAt paint.lanesNext col).isActive) := by
  obtain ⟨hcome, hcame⟩ := hlower.incoming hborn h.pending col
  rw [h.lanesNext, paintAt_lanesNext]
  cases hslot : slotAt next.lanes col with
  | none =>
    rw [outgoing, elim_none, LanePaint.isActive_hole]
    refine ⟨fun hactive => absurd hactive Bool.false_ne_true, fun hincoming => ?_⟩
    rw [hslot] at hcame
    exact absurd (hcame hincoming) Bool.false_ne_true
  | some lane =>
    rw [hcome lane hslot, outgoing, elim_some]
    refine ⟨fun _ => ⟨LanePaint.isActive_lane _ _ _, rfl, LanePaint.incoming_lane _ _ _⟩, fun _ => ?_⟩
    exact LanePaint.isActive_lane _ _ _

end

section

variable (w : GraphWalk) (row : ℕ) (inputs : List RowInput)

def before : ℕ → GraphWalk
  | 0 => w
  | n + 1 => inputs[n]?.elim (before n) fun input =>
      ((before n).step (row + n) input.parents input.merge input.head).1

theorem before_cons (input : RowInput) (n : ℕ) :
    w.before row (input :: inputs) (n + 1) =
      (w.step row input.parents input.merge input.head).1.before (row + 1) inputs n := by
  induction n with
  | zero => rfl
  | succ n ih =>
    rw [before, ih, before, getElem?_cons_succ, add_right_comm row 1 n]
    rfl

theorem run_getElem? (n : ℕ) :
    (w.run (fun _ => false) row inputs)[n]? = inputs[n]?.map fun input =>
      ((w.before row inputs n).step (row + n) input.parents input.merge input.head).2 := by
  induction inputs generalizing w row n with
  | nil => rfl
  | cons input inputs ih =>
    cases n with
    | zero => rfl
    | succ n =>
      rw [run, getElem?_cons_succ, getElem?_cons_succ, before_cons, ih, add_right_comm row 1 n]
      rfl

end

section

variable {w : GraphWalk} {o : OracleGraphWalk} {row : ℕ} {inputs : List RowInput}

theorem before_ready (h : Ready row w o) (hrows : row + inputs.length ≤ noLane)
    (hparents : ∀ input ∈ inputs, ∀ parent ∈ input.parents, parent < noLane) {n : ℕ}
    (hn : n ≤ inputs.length) : ∃ o, Ready (row + n) (w.before row inputs n) o := by
  induction n with
  | zero => exact ⟨o, h⟩
  | succ n ih =>
    obtain ⟨o, hready⟩ := ih (le_of_succ_le hn)
    have hinput := getElem?_eq_getElem hn
    rw [before, hinput]
    exact ⟨_, (hready.step (by omega) (hparents _ (getElem_mem hn)) _ _).2⟩

theorem run_stepped (h : Ready row w o) (hrows : row + inputs.length ≤ noLane)
    (hparents : ∀ input ∈ inputs, ∀ parent ∈ input.parents, parent < noLane) {n : ℕ}
    {paint : GraphRow} (hpaint : (w.run (fun _ => false) row inputs)[n]? = some paint) :
    (w.before row inputs n).BornIn (row + n) [] ∧ ∃ parents settled front node fork,
      (w.before row inputs n).Stepped (row + n) parents (w.before row inputs (n + 1)) paint settled
        front node fork := by
  rw [run_getElem?] at hpaint
  obtain ⟨input, hinput, rfl⟩ := map_eq_some_iff.mp hpaint
  have hn := (List.getElem?_eq_some_iff.mp hinput).1
  obtain ⟨o, hready⟩ := before_ready h hrows hparents (le_of_lt hn)
  have hrow : row + n < noLane := by omega
  refine ⟨hready.unborn (lt_trans hrow (by decide)), input.parents, ?_⟩
  rw [before, hinput]
  exact hready.indexed.step hrow input.parents input.merge input.head

end

end GraphWalk

section

variable {commits : List Commit} (hids : (commits.map (·.id)).Nodup)
  (hbelow : ParentsBelow commits) (hrows : commits.length ≤ noLane) (branchHeads : List String)
  (activeHeadTarget : Option String)
include hids hbelow hrows

def graphWalkAt (commits : List Commit) (branchHeads : List String)
    (activeHeadTarget : Option String) : ℕ → GraphWalk :=
  (GraphWalk.new (mainTargetOf commits activeHeadTarget)).before 0
    (rowInputs commits (isMergeAt commits) (isHeadAt commits branchHeads))

theorem computeGraph_stepped {i : ℕ} {paint : GraphRow}
    (hpaint : (computeGraph commits branchHeads activeHeadTarget)[i]? = some paint) :
    (graphWalkAt commits branchHeads activeHeadTarget i).BornIn i [] ∧
      ∃ parents settled front node fork,
        (graphWalkAt commits branchHeads activeHeadTarget i).Stepped i parents
          (graphWalkAt commits branchHeads activeHeadTarget (i + 1)) paint settled front node
          fork := by
  have hmain : ∀ target ∈ mainTargetOf commits activeHeadTarget, target < noLane :=
    fun target hmem => lt_of_lt_of_le (mainTargetOf_lt hmem) hrows
  rw [computeGraph_eq_run hrows hids hbelow] at hpaint
  have hstepped := GraphWalk.run_stepped (Ready.new hmain)
    (length_rowInputs hrows (isMergeAt commits) (isHeadAt commits branchHeads))
    (rowInputs_parents hrows (isMergeAt commits) (isHeadAt commits branchHeads)) hpaint
  rwa [zero_add] at hstepped

end

end GitComet.Graph
