import GitComet.Conflict.Subchunk
import GitComet.Merge.FinalNewline

namespace GitComet.Conflict
open Slice Text FileDiff List

structure Tile where
  base : List Line
  ours : List Line
  theirs : List Line

inductive ThreeWayChoice (tile : Tile) : List Line → Prop where
  | agreed : tile.ours = tile.theirs → ThreeWayChoice tile tile.ours
  | theirs : tile.ours = tile.base → ThreeWayChoice tile tile.theirs
  | ours : tile.theirs = tile.base → ThreeWayChoice tile tile.ours

inductive TileSubchunk (tile : Tile) : Subchunk → Prop where
  | resolved {choice : List Line} : ThreeWayChoice tile choice →
      TileSubchunk tile (.resolved (linesToText choice ['\n']))
  | conflict : tile.base ≠ tile.ours → tile.base ≠ tile.theirs → tile.ours ≠ tile.theirs →
      TileSubchunk tile (.conflict (linesToText tile.base ['\n']) (linesToText tile.ours ['\n'])
        (linesToText tile.theirs ['\n']))

structure TiledBy (tiles : List Tile) (base ours theirs : List Line) (subchunks : List Subchunk) :
    Prop where
  subchunks : Forall₂ TileSubchunk tiles subchunks
  base : tiles.flatMap Tile.base = base
  ours : tiles.flatMap Tile.ours = ours
  theirs : tiles.flatMap Tile.theirs = theirs

def Tiled (base ours theirs : List Line) (subchunks : List Subchunk) : Prop :=
  ∃ tiles, TiledBy tiles base ours theirs subchunks

section
variable {base ours theirs base' ours' theirs' : List Line} {chunks chunks' : List Subchunk}

theorem tiled_append (h : Tiled base ours theirs chunks) (h' : Tiled base' ours' theirs' chunks') :
    Tiled (base ++ base') (ours ++ ours') (theirs ++ theirs') (chunks ++ chunks') := by
  obtain ⟨tiles, hall, rfl, rfl, rfl⟩ := h
  obtain ⟨tiles', hall', rfl, rfl, rfl⟩ := h'
  exact ⟨tiles ++ tiles', rel_append hall hall', flatMap_append, flatMap_append, flatMap_append⟩

theorem tiled_nil : Tiled [] [] [] [] := ⟨[], .nil, rfl, rfl, rfl⟩

theorem tiled_single (tile : Tile) {chunk : Subchunk} (h : TileSubchunk tile chunk) :
    Tiled tile.base tile.ours tile.theirs [chunk] :=
  ⟨[tile], .cons h .nil, by simp, by simp, by simp⟩

theorem context_tiled (lines : List Line) :
    Tiled lines lines lines [.resolved (linesToText lines ['\n'])] :=
  tiled_single ⟨lines, lines, lines⟩ (.resolved (.agreed rfl))

end

section

inductive Classified (triple : LineTriple) : LineClass → Prop where
  | context : triple.base = triple.ours → triple.base = triple.theirs → Classified triple .context
  | oursChanged : triple.base = triple.theirs → Classified triple .oursChanged
  | theirsChanged : triple.base = triple.ours → Classified triple .theirsChanged
  | bothSame : triple.ours = triple.theirs → Classified triple .bothSame
  | conflict : triple.base ≠ triple.ours → triple.base ≠ triple.theirs →
      triple.ours ≠ triple.theirs → Classified triple .conflict

theorem classify_spec (triple : LineTriple) : Classified triple triple.classify := by
  unfold LineTriple.classify
  by_cases hbo : triple.base = triple.ours
  · by_cases hbt : triple.base = triple.theirs
    · rw [decide_eq_true hbo, decide_eq_true hbt]
      exact .context hbo hbt
    · rw [decide_eq_true hbo, decide_eq_false hbt]
      exact .theirsChanged hbo
  · by_cases hbt : triple.base = triple.theirs
    · rw [decide_eq_false hbo, decide_eq_true hbt]
      exact .oursChanged hbt
    · by_cases hot : triple.ours = triple.theirs
      · rw [decide_eq_false hbo, decide_eq_false hbt, decide_eq_true hot]
        exact .bothSame hot
      · rw [decide_eq_false hbo, decide_eq_false hbt, decide_eq_false hot]
        exact .conflict hbo hbt hot

def columns (group : List LineTriple) : Tile :=
  ⟨group.map LineTriple.base, group.map LineTriple.ours, group.map LineTriple.theirs⟩

variable {group : List LineTriple} {triple : LineTriple}

theorem columns_head {side other : LineTriple → Line} (h : side triple ≠ other triple) :
    (triple :: group).map side ≠ (triple :: group).map other := fun heq =>
  h (cons.inj heq).1

theorem groupSubchunk_tile (h : ∀ found ∈ triple :: group, found.classify = triple.classify) :
    TileSubchunk (columns (triple :: group)) (groupSubchunk ['\n'] (triple :: group)) := by
  have hall : ∀ found ∈ triple :: group, Classified found triple.classify := fun found hfound =>
    h found hfound ▸ classify_spec found
  have hhead := hall triple mem_cons_self
  simp only [groupSubchunk, head?_cons, Option.map_some]
  cases hclass : triple.classify with
  | context =>
    rw [hclass] at hall
    have hours : (triple :: group).map LineTriple.base = (triple :: group).map LineTriple.ours :=
      map_congr_left fun found hfound => by cases hall found hfound; assumption
    have htheirs : (triple :: group).map LineTriple.base =
        (triple :: group).map LineTriple.theirs :=
      map_congr_left fun found hfound => by cases hall found hfound; assumption
    dsimp only
    rw [hours]
    exact .resolved (.agreed (hours.symm.trans htheirs))
  | oursChanged =>
    rw [hclass] at hall
    exact .resolved (.ours (map_congr_left fun found hfound => by
      cases hall found hfound with
      | oursChanged hbt => exact hbt.symm))
  | theirsChanged =>
    rw [hclass] at hall
    exact .resolved (.theirs (map_congr_left fun found hfound => by
      cases hall found hfound with
      | theirsChanged hbo => exact hbo.symm))
  | bothSame =>
    rw [hclass] at hall
    exact .resolved (.agreed (map_congr_left fun found hfound => by
      cases hall found hfound; assumption))
  | conflict =>
    rw [hclass] at hhead
    cases hhead with
    | conflict hbo hbt hot =>
      exact .conflict (columns_head hbo) (columns_head hbt) (columns_head hot)

theorem same_class (h : (triple :: group).IsChain fun triple next =>
      decide (triple.classify = next.classify)) :
    ∀ found ∈ triple :: group, found.classify = triple.classify := by
  induction group generalizing triple with
  | nil => simp
  | cons next group ih =>
    obtain ⟨hnext, hrest⟩ := isChain_cons_cons.mp h
    have hclass := of_decide_eq_true hnext
    intro found hfound
    rcases mem_cons.mp hfound with rfl | hfound
    · rfl
    · exact (ih hrest found hfound).trans hclass.symm

theorem lineTriples_columns : ∀ {base ours theirs : List Line}, base.length = ours.length →
    base.length = theirs.length → (lineTriples base ours theirs).map LineTriple.base = base ∧
      (lineTriples base ours theirs).map LineTriple.ours = ours ∧
      (lineTriples base ours theirs).map LineTriple.theirs = theirs := by
  intro base
  induction base with
  | nil =>
    intro ours theirs hours htheirs
    obtain rfl := length_eq_zero_iff.mp hours.symm
    obtain rfl := length_eq_zero_iff.mp htheirs.symm
    exact ⟨rfl, rfl, rfl⟩
  | cons b base ih =>
    intro ours theirs hours htheirs
    obtain ⟨o, ours, rfl⟩ := exists_cons_of_length_pos (l := ours) (by
      rw [← hours]; simp)
    obtain ⟨t, theirs, rfl⟩ := exists_cons_of_length_pos (l := theirs) (by
      rw [← htheirs]; simp)
    obtain ⟨hb, ho, ht⟩ := ih (Nat.succ.inj hours) (Nat.succ.inj htheirs)
    simp only [lineTriples, map_cons, hb, ho, ht, and_self]

theorem perLineMerge_tiled {base ours theirs : List Line} (hours : base.length = ours.length)
    (htheirs : base.length = theirs.length) :
    Tiled base ours theirs (perLineMerge base ours theirs ['\n']) := by
  obtain ⟨hb, ho, ht⟩ := lineTriples_columns hours htheirs
  let groups := (lineTriples base ours theirs).splitBy fun triple next =>
    decide (triple.classify = next.classify)
  have hflat : groups.flatten = lineTriples base ours theirs := flatten_splitBy _ _
  have hcolumn : ∀ side : LineTriple → Line,
      groups.flatMap (·.map side) = (lineTriples base ours theirs).map side := by
    intro side
    rw [← hflat, map_flatten, flatMap_def]
  refine ⟨groups.map columns, ?_, ?_, ?_, ?_⟩
  · rw [perLineMerge, forall₂_map_left_iff, forall₂_map_right_iff]
    refine forall₂_same.mpr fun group hgroup => ?_
    obtain ⟨triple, rest, rfl⟩ := exists_cons_of_ne_nil (ne_nil_of_mem_splitBy hgroup)
    exact groupSubchunk_tile (same_class (isChain_of_mem_splitBy hgroup))
  · rw [flatMap_map]
    exact (hcolumn _).trans hb
  · rw [flatMap_map]
    exact (hcolumn _).trans ho
  · rw [flatMap_map]
    exact (hcolumn _).trans ht

end

end GitComet.Conflict

namespace GitComet.Conflict
open Slice Text FileDiff

section

structure ConsumedFrom (wanted : ℕ → LineHunk → Bool) (hunks : List LineHunk) (regionEnd : ℕ)
    (consumed : Consumed) : Prop where
  split : consumed.taken ++ consumed.rest = hunks
  within : ∀ hunk ∈ consumed.taken, hunk.baseEnd ≤ consumed.regionEnd
  grows : regionEnd ≤ consumed.regionEnd
  bounded : ∀ len, regionEnd ≤ len → (∀ hunk ∈ hunks, hunk.baseEnd ≤ len) →
    consumed.regionEnd ≤ len
  refused : ∀ hunk ∈ consumed.rest.head?, wanted consumed.regionEnd hunk = false
  idle : consumed.taken = [] → consumed.regionEnd = regionEnd

theorem consumeWhile_spec (wanted : ℕ → LineHunk → Bool) (hunks : List LineHunk) :
    ∀ regionEnd, ConsumedFrom wanted hunks regionEnd (consumeWhile wanted hunks regionEnd) := by
  induction hunks with
  | nil => exact fun regionEnd => ⟨rfl, by simp [consumeWhile], le_rfl, fun _ h _ => h,
      by simp [consumeWhile], fun _ => rfl⟩
  | cons hunk hunks ih =>
    intro regionEnd
    rw [consumeWhile]
    by_cases hwanted : wanted regionEnd hunk
    · rw [if_pos hwanted]
      have hlater := ih (max regionEnd hunk.baseEnd)
      refine ⟨congrArg (hunk :: ·) hlater.split, ?_, le_trans (le_max_left _ _) hlater.grows,
        ?_, hlater.refused, fun hnil => absurd hnil (List.cons_ne_nil _ _)⟩
      · intro found hfound
        rcases List.mem_cons.mp hfound with rfl | hfound
        · exact le_trans (le_max_right _ _) hlater.grows
        · exact hlater.within found hfound
      · intro len hregion hall
        exact hlater.bounded len (max_le hregion (hall hunk List.mem_cons_self))
          fun found hfound => hall found (List.mem_cons_of_mem _ hfound)
    · rw [if_neg hwanted]
      refine ⟨rfl, by simp, le_rfl, fun _ h _ => h, ?_, fun _ => rfl⟩
      intro found hfound
      cases hfound
      exact Bool.eq_false_iff.mpr hwanted

theorem ConsumedFrom.rest_le {wanted : ℕ → LineHunk → Bool} {hunks : List LineHunk}
    {regionEnd : ℕ} {consumed : Consumed} (h : ConsumedFrom wanted hunks regionEnd consumed) :
    consumed.taken.length + consumed.rest.length = hunks.length := by
  rw [← h.split, List.length_append]

theorem consumeAt_spec (changeStart : ℕ) (hunks : List LineHunk) (regionEnd : ℕ) :
    ConsumedFrom (fun _ hunk => decide (hunk.baseStart = changeStart)) hunks regionEnd
      (consumeAt changeStart hunks regionEnd) := consumeWhile_spec _ hunks regionEnd

theorem consumeOverlapping_spec (hunks : List LineHunk) (regionEnd : ℕ) :
    ConsumedFrom (fun regionEnd hunk => decide (hunk.baseStart < regionEnd)) hunks regionEnd
      (consumeOverlapping hunks regionEnd) := consumeWhile_spec _ hunks regionEnd

theorem consumeAt_takes (hunk : LineHunk) (hunks : List LineHunk) (regionEnd : ℕ) :
    (consumeAt hunk.baseStart (hunk :: hunks) regionEnd).taken ≠ [] := by
  rw [consumeAt, consumeWhile, if_pos (decide_eq_true rfl)]
  exact List.cons_ne_nil _ _

end

section
variable {len start : ℕ} {ours theirs : List LineHunk} {region : Region}

structure RegionOf (len start : ℕ) (ours theirs : List LineHunk) (region : Region) : Prop where
  ours : region.oursTaken ++ region.oursRest = ours
  theirs : region.theirsTaken ++ region.theirsRest = theirs
  oursWithin : ∀ hunk ∈ region.oursTaken, hunk.baseEnd ≤ region.regionEnd
  theirsWithin : ∀ hunk ∈ region.theirsTaken, hunk.baseEnd ≤ region.regionEnd
  start_le : start ≤ region.regionEnd
  stop_le : region.regionEnd ≤ len

structure RegionClosed (region : Region) : Prop where
  ours : ∀ hunk ∈ region.oursRest.head?, region.regionEnd ≤ hunk.baseStart
  theirs : ∀ hunk ∈ region.theirsRest.head?, region.regionEnd ≤ hunk.baseStart

def Region.left (region : Region) : ℕ := region.oursRest.length + region.theirsRest.length

theorem sorted_stops {hunks : List LineHunk} : ∀ {pos : ℕ}, Sorted len pos hunks →
    ∀ hunk ∈ hunks, hunk.baseEnd ≤ len := by
  induction hunks with
  | nil => simp
  | cons hunk hunks ih =>
    intro pos h found hfound
    rcases List.mem_cons.mp hfound with rfl | hfound
    · exact sorted_le h.2.2
    · exact ih h.2.2 found hfound

theorem extend_region {wanted wanted' : ℕ → LineHunk → Bool} {taken taken' : Consumed}
    (h : RegionOf len start ours theirs region) (hours : ∀ hunk ∈ ours, hunk.baseEnd ≤ len)
    (htheirs : ∀ hunk ∈ theirs, hunk.baseEnd ≤ len)
    (hown : ConsumedFrom wanted region.oursRest region.regionEnd taken)
    (hother : ConsumedFrom wanted' region.theirsRest taken.regionEnd taken') :
    RegionOf len start ours theirs
      { oursTaken := region.oursTaken ++ taken.taken
        oursRest := taken.rest
        theirsTaken := region.theirsTaken ++ taken'.taken
        theirsRest := taken'.rest
        regionEnd := taken'.regionEnd } where
  ours := by rw [List.append_assoc, hown.split, h.ours]
  theirs := by rw [List.append_assoc, hother.split, h.theirs]
  oursWithin := by
    intro hunk hhunk
    rcases List.mem_append.mp hhunk with hhunk | hhunk
    · exact le_trans (h.oursWithin hunk hhunk) (le_trans hown.grows hother.grows)
    · exact le_trans (hown.within hunk hhunk) hother.grows
  theirsWithin := by
    intro hunk hhunk
    rcases List.mem_append.mp hhunk with hhunk | hhunk
    · exact le_trans (h.theirsWithin hunk hhunk) (le_trans hown.grows hother.grows)
    · exact hother.within hunk hhunk
  start_le := le_trans h.start_le (le_trans hown.grows hother.grows)
  stop_le := hother.bounded len
    (hown.bounded len h.stop_le fun hunk hhunk =>
      hours hunk (h.ours ▸ List.mem_append_right _ hhunk))
    fun hunk hhunk => htheirs hunk (h.theirs ▸ List.mem_append_right _ hhunk)

theorem expandOnce_spec (h : RegionOf len start ours theirs region)
    (hours : ∀ hunk ∈ ours, hunk.baseEnd ≤ len) (htheirs : ∀ hunk ∈ theirs, hunk.baseEnd ≤ len) :
    RegionOf len start ours theirs (expandOnce region).1 ∧
      ((expandOnce region).2 ∧ (expandOnce region).1.left < region.left ∨
        (expandOnce region).2 = false ∧ (expandOnce region).1.left ≤ region.left ∧
          RegionClosed (expandOnce region).1) := by
  have hown := consumeOverlapping_spec region.oursRest region.regionEnd
  have hother := consumeOverlapping_spec region.theirsRest
    (consumeOverlapping region.oursRest region.regionEnd).regionEnd
  refine ⟨extend_region h hours htheirs hown hother, ?_⟩
  have hownLeft := hown.rest_le
  have hotherLeft := hother.rest_le
  simp only [expandOnce, Region.left]
  by_cases hidle : (consumeOverlapping region.oursRest region.regionEnd).taken = [] ∧
      (consumeOverlapping region.theirsRest
        (consumeOverlapping region.oursRest region.regionEnd).regionEnd).taken = []
  · right
    refine ⟨?_, by omega, ⟨fun hunk hhunk => ?_, fun hunk hhunk => ?_⟩⟩
    · rw [Bool.not_eq_false', Bool.and_eq_true, List.isEmpty_iff, List.isEmpty_iff]
      exact hidle
    · exact le_of_eq_of_le (hother.idle hidle.2)
        (Nat.le_of_not_lt (of_decide_eq_false (hown.refused hunk hhunk)))
    · exact Nat.le_of_not_lt (of_decide_eq_false (hother.refused hunk hhunk))
  · left
    simp only [← List.length_eq_zero_iff] at hidle
    refine ⟨?_, by omega⟩
    rw [Bool.not_eq_true', Bool.and_eq_false_iff, List.isEmpty_eq_false_iff,
      List.isEmpty_eq_false_iff, ← not_and_or, ← List.length_eq_zero_iff,
      ← List.length_eq_zero_iff]
    exact hidle

theorem expandRegion_spec (hours : ∀ hunk ∈ ours, hunk.baseEnd ≤ len)
    (htheirs : ∀ hunk ∈ theirs, hunk.baseEnd ≤ len) : ∀ (fuel : ℕ) {region : Region},
      RegionOf len start ours theirs region → region.left < fuel →
        ∃ closed, expandRegion fuel region = some closed ∧
          RegionOf len start ours theirs closed ∧ RegionClosed closed ∧
          closed.left ≤ region.left := by
  intro fuel
  induction fuel with
  | zero => exact fun _ hfuel => absurd hfuel (Nat.not_lt_zero _)
  | succ fuel ih =>
    intro region h hfuel
    obtain ⟨hnext, ⟨hmore, hleft⟩ | ⟨hdone, hleft, hclosed⟩⟩ := expandOnce_spec h hours htheirs
    · obtain ⟨closed, heq, hof, hclosed, hle⟩ := ih hnext (by omega)
      refine ⟨closed, ?_, hof, hclosed, by omega⟩
      rw [expandRegion]
      simp only [hmore, if_true, heq]
    · refine ⟨_, ?_, hnext, hclosed, hleft⟩
      rw [expandRegion]
      simp only [hdone, Bool.false_eq_true, if_false]

end

end GitComet.Conflict
