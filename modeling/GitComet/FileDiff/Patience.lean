import GitComet.FileDiff.Lis
import GitComet.FileDiff.Myers
import Mathlib.Data.List.Sort

namespace GitComet.FileDiff
open Slice CommonPrefix Text List Option

variable {α : Type} [DecidableEq α]

def patienceMaxDepth : ℕ := 32
def patiencePositionalFallbackLineThreshold : ℕ := 2048

def usePatiencePositionalFallback (old new : List α) : Bool :=
  decide (old.length = new.length) &&
    decide (patiencePositionalFallbackLineThreshold ≤ satAdd old.length new.length)

def recordLine (line : α) (i : ℕ) : List (α × ℕ × ℕ) → List (α × ℕ × ℕ)
  | [] => [(line, 1, i)]
  | (key, count, idx) :: info =>
    if key = line then (key, count + 1, i) :: info
    else (key, count, idx) :: recordLine line i info

def lineInfo : List (α × ℕ) → List (α × ℕ × ℕ) → List (α × ℕ × ℕ)
  | [], info => info
  | (line, i) :: rest, info => lineInfo rest (recordLine line i info)

def enumerated (lines : List α) (start stop : ℕ) : List (α × ℕ) :=
  (lines.zipIdx.take stop).drop start

def findInfo (line : α) : List (α × ℕ × ℕ) → Option (ℕ × ℕ)
  | [] => none
  | (key, entry) :: info => if key = line then some entry else findInfo line info

def uniquePair (newInfo : List (α × ℕ × ℕ)) (entry : α × ℕ × ℕ) : Option (ℕ × ℕ) :=
  if entry.2.1 ≠ 1 then none
  else match findInfo entry.1 newInfo with
    | some (newCount, newIdx) => if newCount = 1 then some (entry.2.2, newIdx) else none
    | none => none

def findPatienceAnchors (old new : List α) (oldStart oldEnd newStart newEnd : ℕ) :
    Option (List (ℕ × ℕ)) :=
  let oldInfo := lineInfo (enumerated old oldStart oldEnd) []
  let newInfo := lineInfo (enumerated new newStart newEnd) []
  let uniquePairs := oldInfo.filterMap (uniquePair newInfo)
  patienceLis (uniquePairs.insertionSort fun a b => a.1 ≤ b.1)

abbrev RangeDiff (α : Type) := ℕ → ℕ → ℕ → ℕ → Option (List (Edit α))

def gapDiff (recurse : RangeDiff α) : RangeDiff α := fun oi oldIdx ni newIdx =>
  if oi < oldIdx ∨ ni < newIdx then recurse oi oldIdx ni newIdx else some []

def betweenAnchors (old new : List α) (recurse : RangeDiff α) (oldEnd newEnd : ℕ) :
    List (ℕ × ℕ) → ℕ → ℕ → Option (List (Edit α))
  | [], oi, ni => gapDiff recurse oi oldEnd ni newEnd
  | (oldIdx, newIdx) :: anchors, oi, ni => do
    let gap ← gapDiff recurse oi oldIdx ni newIdx
    let o ← old[oldIdx]?
    let n ← new[newIdx]?
    let rest ← betweenAnchors old new recurse oldEnd newEnd anchors (oldIdx + 1) (newIdx + 1)
    some (gap ++ .ofEqual o n :: rest)

def patienceInner (old new : List α) (recurse : RangeDiff α) (oldStart oldEnd newStart newEnd : ℕ) :
    Option (List (Edit α)) :=
  if oldStart = oldEnd ∧ newStart = newEnd then some []
  else if oldStart = oldEnd then insertRun new newStart newEnd
  else if newStart = newEnd then deleteRun old oldStart oldEnd
  else do
    let anchors ← findPatienceAnchors old new oldStart oldEnd newStart newEnd
    if anchors = [] then do
      let oldInner ← sliceOf old oldStart oldEnd
      let newInner ← sliceOf new newStart newEnd
      if usePatiencePositionalFallback oldInner newInner then
        positionalFallbackEdits oldInner newInner
      else myersEdits oldInner newInner
    else betweenAnchors old new recurse oldEnd newEnd anchors oldStart newStart

def patienceRecurse (old new : List α) : ℕ → RangeDiff α
  | 0, oldStart, oldEnd, newStart, newEnd => do
    let oldRange ← sliceOf old oldStart oldEnd
    let newRange ← sliceOf new newStart newEnd
    myersEdits oldRange newRange
  | levels + 1, oldStart, oldEnd, newStart, newEnd => do
    let oldRange ← sliceOf old oldStart oldEnd
    let newRange ← sliceOf new newStart newEnd
    let ends := commonEnds oldRange newRange
    let head ← equalRun old new oldStart newStart ends.1
    let inner ← patienceInner old new (patienceRecurse old new levels)
      (oldStart + ends.1) (oldEnd - ends.2) (newStart + ends.1) (newEnd - ends.2)
    let tail ← equalRun old new (oldEnd - ends.2) (newEnd - ends.2) ends.2
    some (head ++ inner ++ tail)

def histogramEdits (old new : List α) : Option (List (Edit α)) :=
  patienceRecurse old new patienceMaxDepth 0 old.length 0 new.length

structure Info (lines : List α) (start stop : ℕ) (info : List (α × ℕ × ℕ)) : Prop where
  sound : ∀ line count idx, (line, count, idx) ∈ info →
    lines[idx]? = some line ∧ start ≤ idx ∧ idx < stop
  keys : (info.map Prod.fst).Nodup

variable {line : α} {info : List (α × ℕ × ℕ)}

theorem recordLine_keys {key : α} {i : ℕ} (h : key ∈ (recordLine line i info).map Prod.fst) :
    key = line ∨ key ∈ info.map Prod.fst := by
  induction info with
  | nil =>
    simp only [recordLine, map_cons, map_nil, mem_singleton] at h
    exact Or.inl h
  | cons entry info ih =>
    obtain ⟨k, c, idx⟩ := entry
    simp only [recordLine] at h
    split at h
    · exact Or.inr h
    · simp only [map_cons, mem_cons] at h ⊢
      rcases h with h | h
      · exact Or.inr (Or.inl h)
      · rcases ih h with h | h
        · exact Or.inl h
        · exact Or.inr (Or.inr h)

theorem recordLine_info {lines : List α} {start stop i : ℕ}
    (h : Info lines start stop info) (hline : lines[i]? = some line)
    (hstart : start ≤ i) (hstop : i < stop) : Info lines start stop (recordLine line i info) := by
  induction info with
  | nil =>
    refine ⟨?_, by simp [recordLine]⟩
    intro l c idx hmem
    simp only [recordLine, mem_singleton, Prod.mk.injEq] at hmem
    obtain ⟨rfl, rfl, rfl⟩ := hmem
    exact ⟨hline, hstart, hstop⟩
  | cons entry info ih =>
    obtain ⟨k, c, idx⟩ := entry
    have hkeys := nodup_cons.mp h.keys
    have hrest : Info lines start stop info :=
      ⟨fun l c' j hmem => h.sound l c' j (mem_cons_of_mem _ hmem), hkeys.2⟩
    simp only [recordLine]
    split
    · rename_i hk
      subst hk
      refine ⟨?_, h.keys⟩
      intro l c' j hmem
      rcases mem_cons.mp hmem with he | hmem
      · simp only [Prod.mk.injEq] at he
        obtain ⟨rfl, rfl, rfl⟩ := he
        exact ⟨hline, hstart, hstop⟩
      · exact hrest.sound l c' j hmem
    · rename_i hk
      have hi := ih hrest
      refine ⟨?_, ?_⟩
      · intro l c' j hmem
        rcases mem_cons.mp hmem with he | hmem
        · simp only [Prod.mk.injEq] at he
          obtain ⟨rfl, rfl, rfl⟩ := he
          exact h.sound _ _ _ mem_cons_self
        · exact hi.sound l c' j hmem
      · refine nodup_cons.mpr ⟨fun hmem => ?_, hi.keys⟩
        rcases recordLine_keys hmem with he | hmem
        · exact hk he
        · exact hkeys.1 hmem

theorem lineInfo_info {lines : List α} {start stop : ℕ} (items : List (α × ℕ)) :
    ∀ {info : List (α × ℕ × ℕ)}, Info lines start stop info →
      (∀ line i, (line, i) ∈ items → lines[i]? = some line ∧ start ≤ i ∧ i < stop) →
      Info lines start stop (lineInfo items info) := by
  induction items with
  | nil =>
    intro info h _
    exact h
  | cons item items ih =>
    intro info h hitems
    obtain ⟨line, i⟩ := item
    obtain ⟨hline, hstart, hstop⟩ := hitems line i mem_cons_self
    exact ih (recordLine_info h hline hstart hstop)
      fun l j hmem => hitems l j (mem_cons_of_mem _ hmem)

omit [DecidableEq α] in
theorem mem_enumerated {lines : List α} {start stop i : ℕ} {line : α}
    (h : (line, i) ∈ enumerated lines start stop) :
    lines[i]? = some line ∧ start ≤ i ∧ i < stop := by
  obtain ⟨j, hj⟩ := mem_iff_getElem?.mp h
  simp only [enumerated, getElem?_drop] at hj
  have hlt : start + j < stop := by
    by_contra hge
    rw [getElem?_take, if_neg hge] at hj
    simp at hj
  rw [getElem?_take_of_lt hlt, getElem?_zipIdx] at hj
  cases hline : lines[start + j]? with
  | none => simp [hline] at hj
  | some l =>
    simp only [hline, map_some, some.injEq, Prod.mk.injEq] at hj
    obtain ⟨rfl, rfl⟩ := hj
    simp only [Nat.zero_add]
    exact ⟨hline, by omega, hlt⟩

theorem enumerated_info (lines : List α) (start stop : ℕ) :
    Info lines start stop (lineInfo (enumerated lines start stop) []) :=
  lineInfo_info _ ⟨by simp, by simp⟩ fun _ _ => mem_enumerated

theorem findInfo_mem {entry : ℕ × ℕ}
    (h : findInfo line info = some entry) : (line, entry) ∈ info := by
  induction info with
  | nil => simp [findInfo] at h
  | cons item info ih =>
    obtain ⟨key, e⟩ := item
    simp only [findInfo] at h
    split at h
    · rename_i hk
      rw [hk, some.inj h]
      exact mem_cons_self
    · exact mem_cons_of_mem _ (ih h)

theorem uniquePair_spec {newInfo : List (α × ℕ × ℕ)} {entry : α × ℕ × ℕ} {pair : ℕ × ℕ}
    (h : uniquePair newInfo entry = some pair) :
    entry.2.2 = pair.1 ∧ ∃ count, (entry.1, count, pair.2) ∈ newInfo := by
  unfold uniquePair at h
  split at h
  · simp at h
  · split at h
    · rename_i newCount newIdx hfind
      split at h
      · cases h
        exact ⟨rfl, newCount, findInfo_mem hfind⟩
      · simp at h
    · simp at h

structure Anchored (old new : List α) (oldStart oldEnd newStart newEnd : ℕ) (pair : ℕ × ℕ) :
    Prop where
  same : ∃ line, old[pair.1]? = some line ∧ new[pair.2]? = some line
  oldLow : oldStart ≤ pair.1
  oldHigh : pair.1 < oldEnd
  newLow : newStart ≤ pair.2
  newHigh : pair.2 < newEnd

omit [DecidableEq α] in
theorem info_positions {lines : List α} {start stop : ℕ} {info : List (α × ℕ × ℕ)}
    (h : Info lines start stop info) :
    info.Pairwise fun a b => a.2.2 ≠ b.2.2 := by
  have hkeys : info.Pairwise fun a b => a.1 ≠ b.1 := by
    have := h.keys
    rwa [Nodup, pairwise_map] at this
  refine hkeys.imp_of_mem ?_
  rintro ⟨l, c, i⟩ ⟨l', c', i'⟩ hmem hmem' hne hi
  have h1 := (h.sound _ _ _ hmem).1
  have h2 := (h.sound _ _ _ hmem').1
  simp only at hi hne
  rw [hi, h2] at h1
  exact hne (some.inj h1).symm

theorem uniquePairs_positions (newInfo : List (α × ℕ × ℕ))
    (h : info.Pairwise fun a b => a.2.2 ≠ b.2.2) :
    (info.filterMap (uniquePair newInfo)).Pairwise fun a b => a.1 ≠ b.1 := by
  rw [pairwise_filterMap]
  refine h.imp ?_
  intro a b hab p hp q hq
  rw [← (uniquePair_spec hp).1, ← (uniquePair_spec hq).1]
  exact hab

theorem sort_positions {pairs : List (ℕ × ℕ)} (h : pairs.Pairwise fun a b => a.1 ≠ b.1) :
    (pairs.insertionSort fun a b => a.1 ≤ b.1).Pairwise fun a b => a.1 < b.1 := by
  have htotal : Std.Total (fun a b : ℕ × ℕ => a.1 ≤ b.1) := ⟨fun a b => Nat.le_total a.1 b.1⟩
  have htrans : IsTrans (ℕ × ℕ) (fun a b => a.1 ≤ b.1) := ⟨fun _ _ _ => Nat.le_trans⟩
  have hsorted := pairwise_insertionSort (fun a b : ℕ × ℕ => a.1 ≤ b.1) pairs
  have hne := (perm_insertionSort (fun a b : ℕ × ℕ => a.1 ≤ b.1) pairs).symm.pairwise h
    fun hab => hab.symm
  exact (hsorted.and hne).imp fun hab => Nat.lt_of_le_of_ne hab.1 hab.2

theorem findPatienceAnchors_spec (old new : List α) (oldStart oldEnd newStart newEnd : ℕ) :
    ∃ anchors, findPatienceAnchors old new oldStart oldEnd newStart newEnd = some anchors ∧
      anchors.Pairwise Before ∧
      ∀ pair ∈ anchors, Anchored old new oldStart oldEnd newStart newEnd pair := by
  have hold := enumerated_info old oldStart oldEnd
  have hnew := enumerated_info new newStart newEnd
  have hsorted := sort_positions (uniquePairs_positions
    (lineInfo (enumerated new newStart newEnd) []) (info_positions hold))
  obtain ⟨anchors, hlis, hbefore, hsub, -⟩ := patienceLis_spec hsorted
  refine ⟨anchors, hlis, hbefore, fun pair hpair => ?_⟩
  have hunique := hsub.subset hpair
  rw [mem_insertionSort, mem_filterMap] at hunique
  obtain ⟨⟨line, count, idx⟩, hentry, hpair⟩ := hunique
  obtain ⟨hidx, newCount, hnewEntry⟩ := uniquePair_spec hpair
  obtain ⟨holdLine, holdLow, holdHigh⟩ := hold.sound _ _ _ hentry
  obtain ⟨hnewLine, hnewLow, hnewHigh⟩ := hnew.sound _ _ _ hnewEntry
  simp only at hidx hnewLine
  subst hidx
  exact ⟨⟨line, holdLine, hnewLine⟩, holdLow, holdHigh, hnewLow, hnewHigh⟩

def Diffs (old new : List α) (recurse : RangeDiff α) : Prop :=
  ∀ {a b c d : ℕ}, a ≤ b → b ≤ old.length → c ≤ d → d ≤ new.length →
    ∃ es, recurse a b c d = some es ∧ Script (slice old a b) (slice new c d) es

omit [DecidableEq α] in
theorem gapDiff_spec {old new : List α} {recurse : RangeDiff α} (h : Diffs old new recurse) :
    Diffs old new (gapDiff recurse) := by
  intro a b c d hab hb hcd hd
  unfold gapDiff
  by_cases hlt : a < b ∨ c < d
  · rw [if_pos hlt]
    exact h hab hb hcd hd
  · obtain rfl : a = b := by omega
    obtain rfl : c = d := by omega
    exact ⟨[], by rw [if_neg hlt], by simpa using Script.nil⟩

omit [DecidableEq α] in
theorem betweenAnchors_spec {old new : List α} {recurse : RangeDiff α} (h : Diffs old new recurse)
    {oldEnd newEnd : ℕ} (hob : oldEnd ≤ old.length) (hnb : newEnd ≤ new.length)
    (anchors : List (ℕ × ℕ)) : ∀ (oi ni : ℕ), oi ≤ oldEnd → ni ≤ newEnd → anchors.Pairwise Before →
    (∀ pair ∈ anchors, Anchored old new oi oldEnd ni newEnd pair) →
    ∃ es, betweenAnchors old new recurse oldEnd newEnd anchors oi ni = some es ∧
      Script (slice old oi oldEnd) (slice new ni newEnd) es := by
  induction anchors with
  | nil =>
    intro oi ni hoi hni _ _
    exact gapDiff_spec h hoi hob hni hnb
  | cons pair anchors ih =>
    intro oi ni hoi hni hpair hanchor
    obtain ⟨oldIdx, newIdx⟩ := pair
    obtain ⟨hbefore, hrest⟩ := pairwise_cons.mp hpair
    obtain ⟨⟨line, ho, hn⟩, hol, hoh, hnl, hnh⟩ := hanchor _ mem_cons_self
    simp only at ho hn hol hoh hnl hnh
    obtain ⟨gap, hgap, sgap⟩ := gapDiff_spec h hol (by omega) hnl (by omega)
    obtain ⟨rest, hrun, srest⟩ := ih (oldIdx + 1) (newIdx + 1) (by omega) (by omega)
      hrest fun q hq => by
        have ha := hanchor q (mem_cons_of_mem _ hq)
        have hb := hbefore q hq
        exact ⟨ha.same, hb.1, ha.oldHigh, hb.2, ha.newHigh⟩
    refine ⟨gap ++ .ofEqual line line :: rest, ?_, ?_⟩
    · simp only [betweenAnchors, hgap, ho, hn, hrun, bind_eq_bind, bind_some]
    · have hs := sgap.append (Script.equal line srest)
      rw [← slice_cons (by omega) ho, ← slice_cons (by omega) hn, slice_append _ (by omega) (by omega),
        slice_append _ (by omega) (by omega)] at hs
      exact hs

theorem patienceInner_spec {old new : List α} {recurse : RangeDiff α}
    (h : Diffs old new recurse) : Diffs old new (patienceInner old new recurse) := by
  intro a b c d hab hb hcd hd
  unfold patienceInner
  by_cases hboth : a = b ∧ c = d
  · rw [if_pos hboth]
    obtain ⟨rfl, rfl⟩ := hboth
    exact ⟨[], rfl, by simpa using Script.nil⟩
  rw [if_neg hboth]
  by_cases hold : a = b
  · rw [if_pos hold]
    subst hold
    simpa using insertRun_spec new hcd hd
  rw [if_neg hold]
  by_cases hnew : c = d
  · rw [if_pos hnew]
    subst hnew
    simpa using deleteRun_spec old hab hb
  rw [if_neg hnew]
  obtain ⟨anchors, hanchors, hbefore, hanchored⟩ := findPatienceAnchors_spec old new a b c d
  simp only [hanchors, sliceOf_eq hab hb, sliceOf_eq hcd hd, bind_eq_bind, bind_some]
  by_cases hnone : anchors = []
  · rw [if_pos hnone]
    by_cases hpos : usePatiencePositionalFallback (slice old a b) (slice new c d)
    · rw [if_pos hpos]
      exact positionalFallbackEdits_spec _ _
    · rw [if_neg hpos]
      exact myersEdits_spec _ _
  · rw [if_neg hnone]
    exact betweenAnchors_spec h hb hd anchors a c hab hcd hbefore hanchored

theorem patienceRecurse_spec (old new : List α) (levels : ℕ) :
    Diffs old new (patienceRecurse old new levels) := by
  induction levels with
  | zero =>
    intro a b c d hab hb hcd hd
    simp only [patienceRecurse, sliceOf_eq hab hb, sliceOf_eq hcd hd, bind_eq_bind, bind_some]
    exact myersEdits_spec _ _
  | succ levels ih =>
    intro a b c d hab hb hcd hd
    have he := commonEnds_spec (slice old a b) (slice new c d)
    have hl := he.left
    have hr := he.right
    have hh := he.head
    have ht := he.tail
    rw [length_slice hb] at hl
    rw [length_slice hd] at hr
    rw [slice_slice _ (by omega), slice_slice _ (by omega), Nat.add_zero, Nat.add_zero] at hh
    rw [length_slice hb, length_slice hd, slice_slice _ (by omega), slice_slice _ (by omega)] at ht
    simp only [patienceRecurse, sliceOf_eq hab hb, sliceOf_eq hcd hd, bind_eq_bind, bind_some]
    generalize commonEnds (slice old a b) (slice new c d) = ends at *
    obtain ⟨head, hhead, shead⟩ := equalRun_spec old new (by omega) hh
    obtain ⟨inner, hinner, sinner⟩ := patienceInner_spec ih (a := a + ends.1) (b := b - ends.2)
      (c := c + ends.1) (d := d - ends.2) (by omega) (by omega) (by omega) (by omega)
    have eo : b - ends.2 + ends.2 = b := by omega
    have en : d - ends.2 + ends.2 = d := by omega
    obtain ⟨tail, htail, stail⟩ := equalRun_spec old new (i := b - ends.2)
      (j := d - ends.2) (n := ends.2) (by omega) (by
        rw [eo, en]
        convert ht using 2 <;> omega)
    rw [eo, en] at stail
    refine ⟨head ++ inner ++ tail, by simp only [hhead, hinner, htail, bind_some], ?_⟩
    have hs := (shead.append sinner).append stail
    rw [slice_append _ (by omega) (by omega), slice_append _ (by omega) (by omega),
      slice_append _ (by omega) (by omega), slice_append _ (by omega) (by omega)] at hs
    exact hs

theorem histogramEdits_spec (old new : List α) :
    ∃ es, histogramEdits old new = some es ∧ Script old new es := by
  have h := patienceRecurse_spec old new patienceMaxDepth (a := 0) (c := 0) (Nat.zero_le _)
    le_rfl (Nat.zero_le _) le_rfl
  simpa only [slice_full, histogramEdits] using h

def TransformsAlways (algorithm : List α → List α → Option (List (Edit α))) : Prop :=
  ∀ old new, ∃ edits, algorithm old new = some edits ∧ Transforms old new edits

omit [DecidableEq α] in
theorem transformsAlways_of_script {algorithm : List α → List α → Option (List (Edit α))}
    (h : ∀ old new, ∃ edits, algorithm old new = some edits ∧ Script old new edits) :
    TransformsAlways algorithm := by
  intro old new
  obtain ⟨edits, hrun, hscript⟩ := h old new
  exact ⟨edits, hrun, hscript.transforms⟩

theorem edit_algorithms_transform :
    TransformsAlways (myersEdits (α := α)) ∧ TransformsAlways (histogramEdits (α := α)) ∧
      TransformsAlways (myersFallbackEdits (α := α)) ∧
      TransformsAlways (positionalFallbackEdits (α := α)) :=
  ⟨transformsAlways_of_script myersEdits_spec, transformsAlways_of_script histogramEdits_spec,
    transformsAlways_of_script myersFallbackEdits_spec,
    transformsAlways_of_script positionalFallbackEdits_spec⟩

end GitComet.FileDiff
