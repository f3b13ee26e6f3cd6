import GitComet.Resolver.Blocks

namespace GitComet.Resolver
open Conflict List Bool Option Nat

structure ResolvedOutputBlockMap.Valid (map : ResolvedOutputBlockMap) : Prop where
  ordered : map.ranges.Pairwise fun range next => range.stop ≤ next.start
  oriented : ∀ range ∈ map.ranges, range.start ≤ range.stop
  within : ∀ range ∈ map.ranges, range.stop ≤ map.textLen

structure EditDelta.InBounds (edit : EditDelta) (textLen : ℕ) : Prop where
  oriented : edit.old.start ≤ edit.old.stop
  within : edit.old.stop ≤ textLen
  same : edit.new.start = edit.old.start
  forward : edit.new.start ≤ edit.new.stop

def EditDelta.editedLen (edit : EditDelta) (textLen : ℕ) : ℕ :=
  textLen - edit.old.stop + edit.new.stop

def EditsFit : ℕ → List EditDelta → Prop
  | _, [] => True
  | textLen, edit :: edits => edit.InBounds textLen ∧ EditsFit (edit.editedLen textLen) edits

def emptyAt (offset : ℕ) : TextRange := ⟨offset, offset⟩

structure Tied (map : ResolvedOutputBlockMap) (edit : EditDelta) : Prop where
  inserts : edit.new.start < edit.new.stop
  unheld : ∀ range ∈ map.ranges, holds range edit.old.start = false
  empties : ∃ i j : ℕ, i < j ∧ map.ranges[i]? = some (emptyAt edit.old.start) ∧
    map.ranges[j]? = some (emptyAt edit.old.start)

def ResolvedOutputBlockMap.blockAt (map : ResolvedOutputBlockMap) (offset : ℕ) : Option ℕ :=
  map.ranges.findIdx? (holds · offset)

structure KeepsOwners (map edited : ResolvedOutputBlockMap) (edit : EditDelta) : Prop where
  count : edited.ranges.length = map.ranges.length
  before : ∀ offset < edit.old.start, edited.blockAt offset = map.blockAt offset
  after : ∀ offset, edit.old.stop ≤ offset →
    edited.blockAt (edit.editedLen offset) = map.blockAt offset
  inserted : ∀ offset, edit.new.start ≤ offset → offset < edit.new.stop →
    edited.blockAt offset = map.ownerForEditStart edit.old.start
  touched : ∀ k, map.ownerForEditStart edit.old.start = some k →
    ∃ range, map.ranges[k]? = some range ∧ range.start ≤ edit.old.start ∧
      edit.old.start ≤ range.stop

structure Kept (map : ResolvedOutputBlockMap) (edit : EditDelta) : Prop where
  succeeds : (map.applyEditDelta edit).2 = true
  valid : (map.applyEditDelta edit).1.Valid
  length : (map.applyEditDelta edit).1.textLen = edit.editedLen map.textLen
  owners : KeepsOwners map (map.applyEditDelta edit).1 edit

def Along (P : ResolvedOutputBlockMap → EditDelta → Prop) :
    ResolvedOutputBlockMap → List EditDelta → Prop
  | _, [] => True
  | map, edit :: edits => P map edit ∧ Along P (map.applyEditDelta edit).1 edits

theorem holds_iff {range : TextRange} {offset : ℕ} :
    holds range offset ↔ range.start ≤ offset ∧ offset < range.stop := by
  rw [holds, and_eq_true, decide_eq_true_iff, decide_eq_true_iff]

theorem windowsOrdered_iff : ∀ {ranges : List TextRange},
    windowsOrdered ranges ↔ ranges.IsChain fun range next => range.stop ≤ next.start
  | [] => by simp [windowsOrdered]
  | [_] => by simp [windowsOrdered]
  | range :: next :: rest => by
    rw [windowsOrdered, and_eq_true, decide_eq_true_iff, isChain_cons_cons, windowsOrdered_iff]

theorem pairwise_of_chain {ranges : List TextRange}
    (h : ranges.IsChain fun range next => range.stop ≤ next.start)
    (horiented : ∀ range ∈ ranges, range.start ≤ range.stop) :
    ranges.Pairwise fun range next => range.stop ≤ next.start := by
  induction ranges with
  | nil => exact .nil
  | cons range rest ih =>
    obtain ⟨-, hrest⟩ := forall_mem_cons.mp horiented
    have htail := ih h.tail hrest
    refine pairwise_cons.mpr ⟨fun other hother => ?_, htail⟩
    cases rest with
    | nil => cases hother
    | cons next rest =>
      have hnext : range.stop ≤ next.start := (isChain_cons_cons.mp h).1
      rcases mem_cons.mp hother with rfl | hother
      · exact hnext
      · have := hrest next mem_cons_self
        have := (pairwise_cons.mp htail).1 other hother
        omega

theorem shiftOffset_past {edit : EditDelta} {textLen offset : ℕ} (hedit : edit.InBounds textLen)
    (h : edit.old.stop ≤ offset) :
    shiftOffset ((len edit.new : ℤ) - len edit.old) offset = edit.editedLen offset := by
  obtain ⟨horiented, -, hsame, hforward⟩ := hedit
  unfold shiftOffset EditDelta.editedLen len
  split <;> omega

section
variable {map : ResolvedOutputBlockMap} {edit : EditDelta} {textLen i j : ℕ} {range : TextRange}

theorem movedRange_left {shift : ℤ} (h : range.stop ≤ edit.old.start) :
    movedRange shift edit range = range := by rw [movedRange, if_pos h]

theorem movedRange_right (hedit : edit.InBounds textLen) (horiented : range.start ≤ range.stop)
    (h : edit.old.start < range.start) :
    movedRange ((len edit.new : ℤ) - len edit.old) edit range =
      ⟨edit.editedLen range.start, edit.editedLen range.stop⟩ := by
  rw [movedRange, if_neg (by omega)]
  split
  · rename_i hpast
    rw [shiftOffset_past hedit hpast, shiftOffset_past hedit (by omega)]
  · have hstart : edit.editedLen range.start = edit.new.stop := by
      rw [EditDelta.editedLen]
      omega
    rw [decide_eq_false (by omega), hstart]
    by_cases hstop : edit.old.stop < range.stop
    · rw [decide_eq_true hstop]
      dsimp only
      rw [shiftOffset_past hedit (by omega)]
    · have hstop' : edit.editedLen range.stop = edit.new.stop := by
        rw [EditDelta.editedLen]
        omega
      rw [decide_eq_false hstop, hstop']

theorem ownedRange_touched (hedit : edit.InBounds textLen) (hstart : range.start ≤ edit.old.start) :
    ownedRange ((len edit.new : ℤ) - len edit.old) edit range =
      ⟨range.start, edit.editedLen range.stop⟩ := by
  have hsame := hedit.same
  have hforward := hedit.forward
  have hfirst : (if range.start < edit.old.start then range.start else edit.old.start) =
      range.start := by
    split <;> omega
  have hlast : (if edit.old.stop < range.stop then
      shiftOffset ((len edit.new : ℤ) - len edit.old) range.stop else edit.new.stop) =
        edit.editedLen range.stop := by
    split
    · exact shiftOffset_past hedit (by omega)
    · rw [EditDelta.editedLen]
      omega
  rw [ownedRange, hfirst, hlast, Nat.max_eq_left]
  rw [EditDelta.editedLen]
  omega

theorem unique_holder (hvalid : map.Valid) {other : TextRange} {offset : ℕ}
    (hrange : map.ranges[i]? = some range) (hother : map.ranges[j]? = some other)
    (hi : holds range offset) (hj : holds other offset) : i = j := by
  rw [holds_iff] at hi hj
  have hordered := List.pairwise_iff_getElem.mp hvalid.ordered
  obtain ⟨hlen, rfl⟩ := List.getElem?_eq_some_iff.mp hrange
  obtain ⟨hlen', rfl⟩ := List.getElem?_eq_some_iff.mp hother
  rcases lt_trichotomy i j with hlt | heq | hgt
  · have := hordered i j hlen hlen' hlt
    omega
  · exact heq
  · have := hordered j i hlen' hlen hgt
    omega

theorem ownerForEditStart_some (hvalid : map.Valid) {start : ℕ}
    (h : map.ownerForEditStart start = some i) :
    ∃ range, map.ranges[i]? = some range ∧ (holds range start ∨
      range = emptyAt start ∧ (∀ other ∈ map.ranges, holds other start = false) ∧
        ∀ j < i, map.ranges[j]? ≠ some (emptyAt start)) := by
  rcases or_eq_some_iff.mp h with hheld | ⟨hunheld, hempty⟩
  · obtain ⟨hlen, hholds, -⟩ := List.findIdx?_eq_some_iff_getElem.mp hheld
    exact ⟨_, getElem?_eq_getElem hlen, .inl hholds⟩
  · obtain ⟨hlen, hat, hfirst⟩ := List.findIdx?_eq_some_iff_getElem.mp hempty
    rw [and_eq_true, decide_eq_true_iff, isEmpty, decide_eq_true_iff] at hat
    have horiented := hvalid.oriented _ (getElem_mem hlen)
    refine ⟨_, getElem?_eq_getElem hlen, .inr ⟨?_, ?_, ?_⟩⟩
    · generalize map.ranges[i] = range at hat horiented
      obtain ⟨first, last⟩ := range
      rw [emptyAt, TextRange.mk.injEq]
      dsimp only at hat horiented
      omega
    · intro other hother
      simpa using List.findIdx?_eq_none_iff.mp hunheld other hother
    · intro j hj heq
      obtain ⟨hlen', hget⟩ := List.getElem?_eq_some_iff.mp heq
      have := hfirst j hj
      rw [hget, isEmpty, emptyAt] at this
      simp at this

theorem ownerForEditStart_none {start : ℕ} (h : map.ownerForEditStart start = none) :
    ∀ range ∈ map.ranges, holds range start = false ∧ range ≠ emptyAt start := by
  obtain ⟨hunheld, hempty⟩ := or_eq_none_iff.mp h
  intro range hrange
  refine ⟨by simpa using findIdx?_eq_none_iff.mp hunheld range hrange, ?_⟩
  rintro rfl
  have := findIdx?_eq_none_iff.mp hempty _ hrange
  simp [isEmpty, emptyAt] at this

end

namespace ResolvedOutputBlockMap

def rangeAfter (map : ResolvedOutputBlockMap) (edit : EditDelta) (i : ℕ) (range : TextRange) :
    TextRange :=
  let shift := (len edit.new : ℤ) - len edit.old
  if map.ownerForEditStart edit.old.start = some i then ownedRange shift edit range
  else movedRange shift edit range

variable {map : ResolvedOutputBlockMap} {edit : EditDelta} {i j : ℕ} {range next : TextRange}

theorem owner_touches (hvalid : map.Valid) (howner : map.ownerForEditStart edit.old.start = some i)
    (hrange : map.ranges[i]? = some range) :
    range.start ≤ edit.old.start ∧ edit.old.start ≤ range.stop := by
  obtain ⟨found, hfound, hspec⟩ := ownerForEditStart_some hvalid howner
  obtain rfl := some.inj (hfound.symm.trans hrange)
  rcases hspec with hholds | ⟨rfl, -⟩
  · rw [holds_iff] at hholds
    omega
  · exact ⟨le_refl _, le_refl _⟩

theorem apart (hvalid : map.Valid) (howner : map.ownerForEditStart edit.old.start ≠ some i)
    (hrange : map.ranges[i]? = some range) :
    range.stop ≤ edit.old.start ∨ edit.old.start < range.start := by
  have hunheld : holds range edit.old.start = false := by
    cases hfound : map.ownerForEditStart edit.old.start with
    | none => exact (ownerForEditStart_none hfound range (mem_of_getElem? hrange)).1
    | some k =>
      obtain ⟨owned, howned, hspec⟩ := ownerForEditStart_some hvalid hfound
      rw [← not_eq_true]
      intro hholds
      rcases hspec with hheld | ⟨-, hnone, -⟩
      · rw [hfound, unique_holder hvalid howned hrange hheld hholds] at howner
        exact howner rfl
      · rw [hnone range (mem_of_getElem? hrange)] at hholds
        cases hholds
  rw [← not_eq_true, holds_iff] at hunheld
  omega

theorem rangeAfter_owner (hvalid : map.Valid) (hedit : edit.InBounds map.textLen)
    (howner : map.ownerForEditStart edit.old.start = some i)
    (hrange : map.ranges[i]? = some range) :
    map.rangeAfter edit i range = ⟨range.start, edit.editedLen range.stop⟩ := by
  rw [rangeAfter, if_pos howner]
  exact ownedRange_touched hedit (owner_touches hvalid howner hrange).1

theorem rangeAfter_left (howner : map.ownerForEditStart edit.old.start ≠ some i)
    (h : range.stop ≤ edit.old.start) : map.rangeAfter edit i range = range := by
  rw [rangeAfter, if_neg howner]
  exact movedRange_left h

theorem rangeAfter_right (hvalid : map.Valid) (hedit : edit.InBounds map.textLen)
    (howner : map.ownerForEditStart edit.old.start ≠ some i)
    (hrange : map.ranges[i]? = some range) (h : edit.old.start < range.start) :
    map.rangeAfter edit i range = ⟨edit.editedLen range.start, edit.editedLen range.stop⟩ := by
  rw [rangeAfter, if_neg howner]
  exact movedRange_right hedit (hvalid.oriented range (mem_of_getElem? hrange)) h

theorem behind_owner (hvalid : map.Valid) (hedit : edit.InBounds map.textLen)
    (huntied : ¬Tied map edit) (howner : map.ownerForEditStart edit.old.start = some i)
    (hrange : map.ranges[i]? = some range) (hnext : map.ranges[j]? = some next) (hlt : i < j)
    (hordered : range.stop ≤ next.start) (hleft : next.stop ≤ edit.old.start) :
    edit.editedLen range.stop ≤ next.start := by
  have horiented := hvalid.oriented next (mem_of_getElem? hnext)
  have htouches := owner_touches hvalid howner hrange
  obtain ⟨found, hfound, hspec⟩ := ownerForEditStart_some hvalid howner
  obtain rfl := some.inj (hfound.symm.trans hrange)
  rcases hspec with hholds | ⟨rfl, hunheld, -⟩
  · rw [holds_iff] at hholds
    omega
  · have hempty : next = emptyAt edit.old.start := by
      obtain ⟨first, last⟩ := next
      rw [emptyAt, TextRange.mk.injEq]
      dsimp only [emptyAt] at *
      omega
    have hnothing : ¬edit.new.start < edit.new.stop := fun hinserts =>
      huntied ⟨hinserts, hunheld, i, j, hlt, hrange, hempty ▸ hnext⟩
    have := hedit.forward
    have := hedit.same
    have := hedit.oriented
    rw [hempty, emptyAt, EditDelta.editedLen]
    dsimp only
    omega

theorem rangeAfter_ordered (hvalid : map.Valid) (hedit : edit.InBounds map.textLen)
    (huntied : ¬Tied map edit) (hrange : map.ranges[i]? = some range)
    (hnext : map.ranges[j]? = some next) (hlt : i < j) (hordered : range.stop ≤ next.start) :
    (map.rangeAfter edit i range).stop ≤ (map.rangeAfter edit j next).start := by
  have hsame := hedit.same
  have hforward := hedit.forward
  have hmono : edit.editedLen range.stop ≤ edit.editedLen next.start := by
    rw [EditDelta.editedLen, EditDelta.editedLen]
    omega
  have hpast : ∀ offset, edit.old.start ≤ edit.editedLen offset := by
    intro offset
    rw [EditDelta.editedLen]
    omega
  by_cases hi : map.ownerForEditStart edit.old.start = some i
  · have hj : map.ownerForEditStart edit.old.start ≠ some j := by
      rw [hi]
      exact fun h => absurd (some.inj h) (by omega)
    rw [rangeAfter_owner hvalid hedit hi hrange]
    rcases apart hvalid hj hnext with hleft | hright
    · rw [rangeAfter_left hj hleft]
      exact behind_owner hvalid hedit huntied hi hrange hnext hlt hordered hleft
    · rw [rangeAfter_right hvalid hedit hj hnext hright]
      exact hmono
  · by_cases hj : map.ownerForEditStart edit.old.start = some j
    · have htouches := owner_touches hvalid hj hnext
      rw [rangeAfter_owner hvalid hedit hj hnext, rangeAfter_left hi (by omega)]
      exact hordered
    · rcases apart hvalid hi hrange with hleft | hright
      · rw [rangeAfter_left hi hleft]
        rcases apart hvalid hj hnext with hleft' | hright'
        · rw [rangeAfter_left hj hleft']
          exact hordered
        · rw [rangeAfter_right hvalid hedit hj hnext hright']
          exact hleft.trans (hpast _)
      · have horiented := hvalid.oriented range (mem_of_getElem? hrange)
        rw [rangeAfter_right hvalid hedit hi hrange hright,
          rangeAfter_right hvalid hedit hj hnext (by omega)]
        exact hmono

def edited (map : ResolvedOutputBlockMap) (edit : EditDelta) : ResolvedOutputBlockMap :=
  ⟨map.ranges.mapIdx (map.rangeAfter edit), edit.editedLen map.textLen⟩

variable (map) in
theorem valid_iff_checked :
    (windowsOrdered map.ranges && map.ranges.all fun range =>
      decide (range.start ≤ range.stop) && decide (range.stop ≤ map.textLen)) ↔
        map.Valid := by
  rw [and_eq_true, windowsOrdered_iff, List.all_eq_true]
  constructor
  · rintro ⟨hordered, hall⟩
    have hbounds : ∀ range ∈ map.ranges, range.start ≤ range.stop ∧ range.stop ≤ map.textLen := by
      intro range hrange
      have := hall range hrange
      rwa [and_eq_true, decide_eq_true_iff, decide_eq_true_iff] at this
    exact ⟨pairwise_of_chain hordered fun range hrange => (hbounds range hrange).1,
      fun range hrange => (hbounds range hrange).1, fun range hrange => (hbounds range hrange).2⟩
  · rintro ⟨hordered, horiented, hwithin⟩
    refine ⟨hordered.isChain, fun range hrange => ?_⟩
    rw [and_eq_true, decide_eq_true_iff, decide_eq_true_iff]
    exact ⟨horiented range hrange, hwithin range hrange⟩

theorem applyEditDelta_inBounds (hedit : edit.InBounds map.textLen) :
    (map.applyEditDelta edit).1 = map.edited edit ∧
      ((map.applyEditDelta edit).2 ↔ (map.edited edit).Valid) := by
  have hlen := shiftOffset_past hedit hedit.within
  obtain ⟨horiented, hwithin, hsame, hforward⟩ := hedit
  rw [applyEditDelta, if_neg (by omega)]
  dsimp only
  rw [hlen]
  exact ⟨rfl, valid_iff_checked (map.edited edit)⟩

theorem rangeAfter_bounds (hvalid : map.Valid) (hedit : edit.InBounds map.textLen)
    (hrange : map.ranges[i]? = some range) :
    (map.rangeAfter edit i range).start ≤ (map.rangeAfter edit i range).stop ∧
      (map.rangeAfter edit i range).stop ≤ edit.editedLen map.textLen := by
  have horiented := hvalid.oriented range (mem_of_getElem? hrange)
  have hwithin := hvalid.within range (mem_of_getElem? hrange)
  have hsame := hedit.same
  have hforward := hedit.forward
  have hbounds := hedit.within
  have hold := hedit.oriented
  by_cases hi : map.ownerForEditStart edit.old.start = some i
  · have htouches := owner_touches hvalid hi hrange
    rw [rangeAfter_owner hvalid hedit hi hrange]
    simp only [EditDelta.editedLen]
    omega
  · rcases apart hvalid hi hrange with hleft | hright
    · rw [rangeAfter_left hi hleft, EditDelta.editedLen]
      omega
    · rw [rangeAfter_right hvalid hedit hi hrange hright]
      simp only [EditDelta.editedLen]
      omega

theorem edited_valid (hvalid : map.Valid) (hedit : edit.InBounds map.textLen)
    (huntied : ¬Tied map edit) : (map.edited edit).Valid := by
  have hmem : ∀ range ∈ (map.edited edit).ranges,
      range.start ≤ range.stop ∧ range.stop ≤ edit.editedLen map.textLen := by
    intro range hrange
    obtain ⟨i, hi, rfl⟩ := mem_mapIdx.mp hrange
    exact rangeAfter_bounds hvalid hedit (getElem?_eq_getElem hi)
  refine ⟨pairwise_iff_getElem.mpr fun i j hi hj hlt => ?_,
    fun range hrange => (hmem range hrange).1, fun range hrange => (hmem range hrange).2⟩
  simp only [edited, length_mapIdx] at hi hj
  simp only [edited, getElem_mapIdx]
  exact rangeAfter_ordered hvalid hedit huntied (getElem?_eq_getElem hi)
    (getElem?_eq_getElem hj) hlt (pairwise_iff_getElem.mp hvalid.ordered i j hi hj hlt)

theorem edited_tied (hvalid : map.Valid) (hedit : edit.InBounds map.textLen)
    (htied : Tied map edit) : ¬(map.edited edit).Valid := by
  intro hedited
  obtain ⟨hinserts, hunheld, i, j, hlt, hrange, hnext⟩ := htied
  have hsame := hedit.same
  cases howner : map.ownerForEditStart edit.old.start with
  | none =>
    exact (ownerForEditStart_none howner _ (mem_of_getElem? hrange)).2 rfl
  | some k =>
    obtain ⟨owned, howned, hspec⟩ := ownerForEditStart_some hvalid howner
    rcases hspec with hholds | ⟨rfl, -, hfirst⟩
    · rw [hunheld owned (mem_of_getElem? howned)] at hholds
      cases hholds
    · have hk : k < j := lt_of_le_of_lt (Nat.le_of_not_lt fun h => hfirst i h hrange) hlt
      have hj : map.ownerForEditStart edit.old.start ≠ some j := by
        rw [howner]
        exact fun h => absurd (some.inj h) (by omega)
      obtain ⟨hklen, hkget⟩ := List.getElem?_eq_some_iff.mp howned
      obtain ⟨hjlen, hjget⟩ := List.getElem?_eq_some_iff.mp hnext
      have hordered := List.pairwise_iff_getElem.mp hedited.ordered k j
        (by simpa [edited] using hklen) (by simpa [edited] using hjlen) hk
      simp only [edited, getElem_mapIdx, hkget, hjget] at hordered
      rw [rangeAfter_owner hvalid hedit howner howned,
        rangeAfter_left hj (le_refl _), EditDelta.editedLen, emptyAt] at hordered
      dsimp only at hordered
      omega

theorem findIdx?_same {α β : Type} {p : α → Bool} {q : β → Bool} {xs : List α} {ys : List β}
    (hlen : xs.length = ys.length)
    (h : ∀ (i : ℕ) x y, xs[i]? = some x → ys[i]? = some y → p x = q y) :
    xs.findIdx? p = ys.findIdx? q := by
  induction xs generalizing ys with
  | nil =>
    obtain rfl := length_eq_zero_iff.mp hlen.symm
    rfl
  | cons x xs ih =>
    cases ys with
    | nil => cases hlen
    | cons y ys =>
      rw [findIdx?_cons, findIdx?_cons, h 0 x y rfl rfl,
        ih (Nat.succ.inj hlen) fun i a b ha hb => h (i + 1) a b ha hb]

theorem blockAt_edited {offset offset' : ℕ} (h : ∀ i range, map.ranges[i]? = some range →
      holds (map.rangeAfter edit i range) offset' = holds range offset) :
    (map.edited edit).blockAt offset' = map.blockAt offset := by
  refine findIdx?_same (length_mapIdx) fun i after range hafter hrange => ?_
  rw [edited, getElem?_mapIdx, hrange] at hafter
  cases hafter
  exact h i range hrange

theorem blockAt_owner {offset : ℕ} {owner : Option ℕ}
    (howner : ∀ k, owner = some k → k < map.ranges.length)
    (h : ∀ i range, map.ranges[i]? = some range →
      holds (map.rangeAfter edit i range) offset = decide (owner = some i)) :
    (map.edited edit).blockAt offset = owner := by
  have hat : ∀ i (hi : i < (map.edited edit).ranges.length),
      holds (map.edited edit).ranges[i] offset = decide (owner = some i) := by
    intro i hi
    simp only [edited, length_mapIdx] at hi
    simp only [edited, getElem_mapIdx]
    exact h i _ (getElem?_eq_getElem hi)
  rw [blockAt]
  cases owner with
  | none =>
    rw [findIdx?_eq_none_iff]
    intro range hrange
    obtain ⟨i, hi, rfl⟩ := mem_iff_getElem.mp hrange
    rw [hat i hi]
    simp
  | some k =>
    have hk : k < (map.edited edit).ranges.length := by
      simpa [edited] using howner k rfl
    refine findIdx?_eq_some_iff_getElem.mpr ⟨hk, ?_, fun j hj => ?_⟩
    · rw [hat k hk, decide_eq_true rfl]
    · rw [hat j (by omega), decide_eq_false fun h => absurd (some.inj h) (by omega)]
      exact false_ne_true

theorem edited_keepsOwners (hvalid : map.Valid) (hedit : edit.InBounds map.textLen) :
    KeepsOwners map (map.edited edit) edit := by
  have hsame := hedit.same
  have hforward := hedit.forward
  have hold := hedit.oriented
  have hcases : ∀ {i range}, map.ranges[i]? = some range →
      (map.ownerForEditStart edit.old.start = some i ∧
        map.rangeAfter edit i range = ⟨range.start, edit.editedLen range.stop⟩ ∧
        range.start ≤ edit.old.start ∧ edit.old.start ≤ range.stop) ∨
      (map.ownerForEditStart edit.old.start ≠ some i ∧
        (range.stop ≤ edit.old.start ∧ map.rangeAfter edit i range = range ∨
          edit.old.start < range.start ∧ map.rangeAfter edit i range =
            ⟨edit.editedLen range.start, edit.editedLen range.stop⟩)) := by
    intro i range hrange
    by_cases hi : map.ownerForEditStart edit.old.start = some i
    · exact .inl ⟨hi, rangeAfter_owner hvalid hedit hi hrange, owner_touches hvalid hi hrange⟩
    · refine .inr ⟨hi, ?_⟩
      rcases apart hvalid hi hrange with hleft | hright
      · exact .inl ⟨hleft, rangeAfter_left hi hleft⟩
      · exact .inr ⟨hright, rangeAfter_right hvalid hedit hi hrange hright⟩
  refine ⟨length_mapIdx, fun offset hoffset => blockAt_edited fun i range hrange => ?_,
    fun offset hoffset => blockAt_edited fun i range hrange => ?_,
    fun offset hfirst hlast => blockAt_owner (fun k hk => ?_) fun i range hrange => ?_,
    fun k hk => ?_⟩
  · rw [Bool.eq_iff_iff, holds_iff, holds_iff]
    have horiented := hvalid.oriented range (mem_of_getElem? hrange)
    rcases hcases hrange with ⟨-, heq, hstart, hstop⟩ | ⟨-, ⟨hleft, heq⟩ | ⟨hright, heq⟩⟩ <;>
      rw [heq] <;> simp only [EditDelta.editedLen] <;> omega
  · rw [Bool.eq_iff_iff, holds_iff, holds_iff]
    have horiented := hvalid.oriented range (mem_of_getElem? hrange)
    rcases hcases hrange with ⟨-, heq, hstart, hstop⟩ | ⟨-, ⟨hleft, heq⟩ | ⟨hright, heq⟩⟩ <;>
      rw [heq] <;> simp only [EditDelta.editedLen] <;> omega
  · obtain ⟨range, hrange, -⟩ := ownerForEditStart_some hvalid hk
    exact (List.getElem?_eq_some_iff.mp hrange).1
  · rw [Bool.eq_iff_iff, holds_iff, decide_eq_true_iff]
    rcases hcases hrange with ⟨hi, heq, hstart, hstop⟩ | ⟨hi, ⟨hleft, heq⟩ | ⟨hright, heq⟩⟩
    · rw [heq]
      simp only [hi, EditDelta.editedLen, iff_true]
      omega
    · rw [heq]
      simp only [hi, iff_false]
      omega
    · rw [heq]
      simp only [hi, EditDelta.editedLen, iff_false]
      omega
  · obtain ⟨range, hrange, -⟩ := ownerForEditStart_some hvalid hk
    exact ⟨range, hrange, owner_touches hvalid hk hrange⟩

theorem kept_iff (hvalid : map.Valid) (hedit : edit.InBounds map.textLen) :
    Kept map edit ↔ ¬Tied map edit := by
  obtain ⟨heq, hsuccess⟩ := applyEditDelta_inBounds hedit
  constructor
  · intro hkept htied
    exact edited_tied hvalid hedit htied (hsuccess.mp hkept.succeeds)
  · intro huntied
    have hedited := edited_valid hvalid hedit huntied
    refine ⟨hsuccess.mpr hedited, ?_, ?_, ?_⟩
    · rwa [heq]
    · rw [heq, edited]
    · rw [heq]
      exact edited_keepsOwners hvalid hedit

theorem applyEditDeltas_kept {edits : List EditDelta} (h : Along Kept map edits) :
    (map.applyEditDeltas edits).2 := by
  induction edits generalizing map with
  | nil => rfl
  | cons edit edits ih =>
    rw [applyEditDeltas, h.1.succeeds]
    exact ih h.2

theorem edits_keep_ownership_iff (map : ResolvedOutputBlockMap) (edits : List EditDelta)
    (hvalid : map.Valid) (hfit : EditsFit map.textLen edits) :
    Along Kept map edits ∧ (map.applyEditDeltas edits).2 = true ↔
      Along (fun map edit => ¬Tied map edit) map edits := by
  have hkept : Along Kept map edits ↔ Along (fun map edit => ¬Tied map edit) map edits := by
    induction edits generalizing map with
    | nil => exact Iff.rfl
    | cons edit edits ih =>
      rw [Along, Along, kept_iff hvalid hfit.1]
      refine and_congr_right fun huntied => ?_
      have hkept := (kept_iff hvalid hfit.1).mpr huntied
      exact ih _ hkept.valid (hkept.length ▸ hfit.2)
  rw [← hkept]
  exact ⟨fun h => h.1, fun h => ⟨h, applyEditDeltas_kept h⟩⟩

end ResolvedOutputBlockMap

def placeholderMap : ResolvedOutputBlockMap := ⟨[⟨0, 3⟩, ⟨3, 3⟩], 5⟩
def retyped : EditDelta := ⟨⟨3, 4⟩, ⟨3, 6⟩⟩

theorem edits_keep_ownership_of_a_placeholder :
    Along Kept placeholderMap [retyped] ∧ (placeholderMap.applyEditDeltas [retyped]).2 = true ↔
      Along (fun map edit => ¬Tied map edit) placeholderMap [retyped] :=
  ResolvedOutputBlockMap.edits_keep_ownership_iff placeholderMap [retyped]
    ⟨by decide, by decide, by decide⟩ ⟨⟨by decide, by decide, rfl, by decide⟩, trivial⟩

def twoEmptyBlocks : ResolvedOutputBlockMap := ⟨[⟨0, 0⟩, ⟨0, 0⟩], 0⟩
def typed : EditDelta := ⟨⟨0, 0⟩, ⟨0, 1⟩⟩

theorem typing_between_empty_blocks_fails :
    ¬(twoEmptyBlocks.Valid → EditsFit twoEmptyBlocks.textLen [typed] →
      (twoEmptyBlocks.applyEditDeltas [typed]).2 = true) := by
  intro h
  have hvalid : twoEmptyBlocks.Valid := ⟨by decide, by decide, by decide⟩
  have hfit : EditsFit twoEmptyBlocks.textLen [typed] :=
    ⟨⟨by decide, by decide, rfl, by decide⟩, trivial⟩
  exact absurd (h hvalid hfit) (by decide)

end GitComet.Resolver
