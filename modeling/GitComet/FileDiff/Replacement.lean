import GitComet.FileDiff.Myers

namespace GitComet.FileDiff
open Slice Text List Option Nat

def replacementAlignCellBudget : ℕ := 50000
def replacementGapCost : ℕ := 100

def satAdd32 (a b : ℕ) : ℕ := min (a + b) u32Max

def gapCost (lines : ℕ) : Option ℕ :=
  let cost := asU32 lines * replacementGapCost
  if cost ≤ u32Max then some cost else none

inductive AlignStep where
  | none
  | pair
  | insert
  | delete
  deriving DecidableEq

inductive ReplacementOp where
  | pair
  | delete
  | insert
  deriving DecidableEq

def bestStep (pairCost insertCost deleteCost : ℕ) : ℕ × AlignStep :=
  let best := (pairCost, AlignStep.pair)
  let best := if insertCost < best.1 then (insertCost, AlignStep.insert) else best
  if deleteCost < best.1 then (deleteCost, AlignStep.delete) else best

section
variable {α : Type} [DecidableEq α]

def prepareTextIds : List α → List α → List ℕ × List α
  | [], texts => ([], texts)
  | line :: lines, texts =>
    let rest := prepareTextIds lines (if line ∈ texts then texts else texts ++ [line])
    (texts.idxOf line :: rest.1, rest.2)

structure Replacement (α : Type) where
  deletes : List α
  inserts : List α
  deleteIds : List ℕ
  insertIds : List ℕ
  deleteUnique : ℕ
  insertUnique : ℕ

def prepareReplacement (deletes inserts : List α) : Replacement α :=
  let deleteTexts := prepareTextIds deletes []
  let insertTexts := prepareTextIds inserts []
  { deletes := deletes
    inserts := inserts
    deleteIds := deleteTexts.1
    insertIds := insertTexts.1
    deleteUnique := deleteTexts.2.length
    insertUnique := insertTexts.2.length }

-- `none` is the block without repeated lines, where the source allocates no cache.
abbrev PairCostCache := Option (List ℕ)

def newPairCostCache (r : Replacement α) : PairCostCache :=
  if r.deleteUnique < r.deletes.length ∨ r.insertUnique < r.inserts.length then
    some (replicate (r.deleteUnique * r.insertUnique) u32Max)
  else none

def cachedPairCost (pairCost : α → α → UInt32) (r : Replacement α) (i j : ℕ)
    (cache : PairCostCache) : Option (ℕ × PairCostCache) := do
  let delete ← r.deletes[i - 1]?
  let insert ← r.inserts[j - 1]?
  let computed := (pairCost delete insert).toNat
  match cache with
  | none => some (computed, none)
  | some cells => do
    let deleteId ← r.deleteIds[i - 1]?
    let insertId ← r.insertIds[j - 1]?
    let index := deleteId * r.insertUnique + insertId
    let cached ← cells[index]?
    if cached = u32Max then some (computed, some (cells.set index computed))
    else some (cached, some cells)

def alignRow (cost : ℕ → PairCostCache → Option (ℕ × PairCostCache)) (prevCosts : List ℕ) :
    ℕ → ℕ → List ℕ → List AlignStep → PairCostCache →
      Option (List ℕ × List AlignStep × PairCostCache)
  | 0, _, currCosts, step, cache => some (currCosts, step, cache)
  | cells + 1, j, currCosts, step, cache => do
    let (value, cache) ← cost j cache
    let diagonal ← prevCosts[j - 1]?
    let left ← currCosts[j - 1]?
    let above ← prevCosts[j]?
    let best := bestStep (satAdd32 diagonal value) (satAdd32 left replacementGapCost)
      (satAdd32 above replacementGapCost)
    alignRow cost prevCosts cells (j + 1) (currCosts ++ [best.1]) (step ++ [best.2]) cache

def alignTable (pairCost : α → α → UInt32) (r : Replacement α) :
    ℕ → ℕ → List ℕ → List AlignStep → PairCostCache → Option (List AlignStep)
  | 0, _, _, step, _ => some step
  | rows + 1, i, prevCosts, step, cache => do
    let first ← gapCost i
    let (currCosts, step, cache) ← alignRow (cachedPairCost pairCost r i) prevCosts
      r.inserts.length 1 [first] (step ++ [.delete]) cache
    alignTable pairCost r rows (i + 1) currCosts step cache

def traceback (step : List AlignStep) (width : ℕ) :
    ℕ → ℕ → ℕ → List ReplacementOp → Option (List ReplacementOp)
  | 0, i, j, aligned => if 0 < i ∨ 0 < j then none else some aligned
  | fuel + 1, i, j, aligned =>
    if 0 < i ∨ 0 < j then do
      let here ← step[i * width + j]?
      if here = .pair ∧ 0 < i ∧ 0 < j then
        traceback step width fuel (i - 1) (j - 1) (.pair :: aligned)
      else if here = .insert ∧ 0 < j then
        traceback step width fuel i (j - 1) (.insert :: aligned)
      else if here = .delete ∧ 0 < i then
        traceback step width fuel (i - 1) j (.delete :: aligned)
      else if 0 < j then traceback step width fuel i (j - 1) (.insert :: aligned)
      else traceback step width fuel (i - 1) j (.delete :: aligned)
    else some aligned

def replacementAlignmentOps (pairCost : α → α → UInt32) (deletes inserts : List α) :
    Option (List ReplacementOp) := do
  let r := prepareReplacement deletes inserts
  let n := deletes.length
  let m := inserts.length
  let prevCosts ← (range m).mapM fun j => gapCost (j + 1)
  let step ← alignTable pairCost r n 1 (0 :: prevCosts)
    (.none :: replicate m .insert) (newPairCostCache r)
  traceback step (m + 1) (n + m) n m []

def oldSpan (ops : List ReplacementOp) : ℕ := ops.countP fun op => decide (op ≠ .insert)
def newSpan (ops : List ReplacementOp) : ℕ := ops.countP fun op => decide (op ≠ .delete)

@[simp] theorem oldSpan_cons (op : ReplacementOp) (ops : List ReplacementOp) :
    oldSpan (op :: ops) = oldSpan ops + if op = .insert then 0 else 1 := by
  cases op <;> simp [oldSpan]

@[simp] theorem newSpan_cons (op : ReplacementOp) (ops : List ReplacementOp) :
    newSpan (op :: ops) = newSpan ops + if op = .delete then 0 else 1 := by
  cases op <;> simp [newSpan]

theorem prepareTextIds_spec (lines : List α) : ∀ texts : List α,
    (prepareTextIds lines texts).1.length = lines.length ∧
      texts.length ≤ (prepareTextIds lines texts).2.length ∧
      ∀ id ∈ (prepareTextIds lines texts).1, id < (prepareTextIds lines texts).2.length := by
  induction lines with
  | nil => simp [prepareTextIds]
  | cons line lines ih =>
    intro texts
    obtain ⟨hlen, hgrow, hids⟩ := ih (if line ∈ texts then texts else texts ++ [line])
    have hid : texts.idxOf line < (if line ∈ texts then texts else texts ++ [line]).length := by
      split
      · rename_i hmem
        exact idxOf_lt_length_iff.mpr hmem
      · have := idxOf_le_length (l := texts) (a := line)
        simp only [length_append, length_singleton]
        omega
    have hmono : texts.length ≤ (if line ∈ texts then texts else texts ++ [line]).length := by
      split <;> simp
    simp only [prepareTextIds, length_cons, hlen, mem_cons]
    refine ⟨trivial, by omega, ?_⟩
    rintro id (rfl | hmem)
    · omega
    · exact hids id hmem

structure Prepared (r : Replacement α) : Prop where
  deleteLength : r.deleteIds.length = r.deletes.length
  insertLength : r.insertIds.length = r.inserts.length
  deleteIds : ∀ id ∈ r.deleteIds, id < r.deleteUnique
  insertIds : ∀ id ∈ r.insertIds, id < r.insertUnique

theorem prepareReplacement_prepared (deletes inserts : List α) :
    Prepared (prepareReplacement deletes inserts) := by
  obtain ⟨hdl, _, hdi⟩ := prepareTextIds_spec deletes []
  obtain ⟨hil, _, hii⟩ := prepareTextIds_spec inserts []
  exact ⟨hdl, hil, hdi, hii⟩

omit [DecidableEq α] in
def CacheFits (r : Replacement α) (cache : PairCostCache) : Prop :=
  ∀ cells, cache = some cells → cells.length = r.deleteUnique * r.insertUnique

theorem cell_lt {i j rows width : ℕ} (hi : i < rows) (hj : j < width) :
    i * width + j < rows * width := by
  have h := mul_le_mul_right width (succ_le_of_lt hi)
  rw [succ_mul] at h
  omega

omit [DecidableEq α] in
theorem cachedPairCost_spec (pairCost : α → α → UInt32) {r : Replacement α} (hr : Prepared r)
    {i j : ℕ} {cache : PairCostCache} (hi : 0 < i ∧ i ≤ r.deletes.length)
    (hj : 0 < j ∧ j ≤ r.inserts.length) (hc : CacheFits r cache) :
    ∃ value cache', cachedPairCost pairCost r i j cache = some (value, cache') ∧
      CacheFits r cache' := by
  have hd := getElem?_eq_getElem (l := r.deletes) (i := i - 1) (by omega)
  have hn := getElem?_eq_getElem (l := r.inserts) (i := j - 1) (by omega)
  simp only [cachedPairCost, hd, hn, bind_eq_bind, bind_some]
  cases cache with
  | none => exact ⟨_, none, rfl, by simp [CacheFits]⟩
  | some cells =>
    have hdid := getElem?_eq_getElem (l := r.deleteIds) (i := i - 1)
      (by rw [hr.deleteLength]; omega)
    have hiid := getElem?_eq_getElem (l := r.insertIds) (i := j - 1)
      (by rw [hr.insertLength]; omega)
    have hdlt := hr.deleteIds _ (mem_iff_getElem?.mpr ⟨_, hdid⟩)
    have hilt := hr.insertIds _ (mem_iff_getElem?.mpr ⟨_, hiid⟩)
    have hlen := hc cells rfl
    have hcell := getElem?_eq_getElem (l := cells) (by
      rw [hlen]
      exact cell_lt hdlt hilt)
    simp only [hdid, hiid, hcell, bind_some]
    split
    · refine ⟨_, _, rfl, fun cells' h => ?_⟩
      rw [← some.inj h, length_set, hlen]
    · exact ⟨_, _, rfl, hc⟩

omit [DecidableEq α] in
theorem alignRow_spec {r : Replacement α}
    {cost : ℕ → PairCostCache → Option (ℕ × PairCostCache)} {prevCosts : List ℕ}
    (hcost : ∀ {j cache}, 0 < j ∧ j ≤ r.inserts.length → CacheFits r cache →
      ∃ value cache', cost j cache = some (value, cache') ∧ CacheFits r cache')
    (hprev : prevCosts.length = r.inserts.length + 1) (cells : ℕ) :
    ∀ (j : ℕ) (currCosts : List ℕ) (step : List AlignStep) {cache : PairCostCache},
      0 < j → j + cells = r.inserts.length + 1 → currCosts.length = j → CacheFits r cache →
      ∃ currCosts' step' cache',
        alignRow cost prevCosts cells j currCosts step cache = some (currCosts', step', cache') ∧
        currCosts'.length = r.inserts.length + 1 ∧ step'.length = step.length + cells ∧
        CacheFits r cache' := by
  induction cells with
  | zero =>
    intro j currCosts step cache _ hj hlen hc
    exact ⟨currCosts, step, cache, rfl, by omega, by omega, hc⟩
  | succ cells ih =>
    intro j currCosts step cache hpos hj hlen hc
    obtain ⟨value, cache', hvalue, hc'⟩ := hcost (j := j) ⟨hpos, by omega⟩ hc
    have hdiag := getElem?_eq_getElem (l := prevCosts) (i := j - 1) (by omega)
    have hleft := getElem?_eq_getElem (l := currCosts) (i := j - 1) (by omega)
    have habove := getElem?_eq_getElem (l := prevCosts) (i := j) (by omega)
    simp only [alignRow, hvalue, hdiag, hleft, habove, bind_eq_bind, bind_some]
    obtain ⟨costs, step', cache'', hrun, hcosts, hstep, hc''⟩ := ih (j + 1)
      (currCosts ++ [_]) (step ++ [_]) (by omega) (by omega)
      (by simp [hlen]) hc'
    refine ⟨costs, step', cache'', hrun, hcosts, ?_, hc''⟩
    rw [hstep, length_append, length_singleton]
    omega

theorem gapCost_some (lines : ℕ) (h : lines ≤ replacementAlignCellBudget) :
    ∃ cost, gapCost lines = some cost := by
  have hle : asU32 lines * replacementGapCost ≤ u32Max := by
    have hmod : asU32 lines ≤ lines := mod_le _ _
    unfold replacementGapCost u32Max
    unfold replacementAlignCellBudget at h
    omega
  exact ⟨_, by rw [gapCost, if_pos hle]⟩

omit [DecidableEq α] in
theorem alignTable_spec (pairCost : α → α → UInt32) {r : Replacement α} (hr : Prepared r)
    (hbudget : r.deletes.length ≤ replacementAlignCellBudget) (rows : ℕ) :
    ∀ (i : ℕ) (prevCosts : List ℕ) (step : List AlignStep) {cache : PairCostCache},
      0 < i → i + rows = r.deletes.length + 1 → prevCosts.length = r.inserts.length + 1 →
      CacheFits r cache → step.length = i * (r.inserts.length + 1) →
      ∃ step', alignTable pairCost r rows i prevCosts step cache = some step' ∧
        step'.length = (r.deletes.length + 1) * (r.inserts.length + 1) := by
  induction rows with
  | zero =>
    intro i prevCosts step cache _ hi _ _ hstep
    rw [add_zero] at hi
    exact ⟨step, rfl, by rw [hstep, hi]⟩
  | succ rows ih =>
    intro i prevCosts step cache hpos hi hprev hc hstep
    obtain ⟨first, hfirst⟩ := gapCost_some i (by omega)
    obtain ⟨costs, step', cache', hrow, hcosts, hlen, hc'⟩ := alignRow_spec
      (fun hj hcache => cachedPairCost_spec pairCost hr (i := i) ⟨hpos, by omega⟩ hj hcache)
      hprev r.inserts.length 1 [first] (step ++ [.delete])
      (by omega) (by omega) rfl hc
    obtain ⟨final, hfinal, hsize⟩ := ih (i + 1) costs step' (by omega) (by omega)
      hcosts hc' (by
        rw [hlen, length_append, length_singleton, hstep, succ_mul]
        omega)
    refine ⟨final, ?_, hsize⟩
    simp only [alignTable, hfirst, hrow, bind_eq_bind, bind_some]
    exact hfinal

theorem traceback_spec {step : List AlignStep} {n m : ℕ}
    (hstep : step.length = (n + 1) * (m + 1)) (fuel : ℕ) :
    ∀ (i j : ℕ) (aligned : List ReplacementOp), i ≤ n → j ≤ m → i + j ≤ fuel →
      ∃ ops, traceback step (m + 1) fuel i j aligned = some ops ∧
        oldSpan ops = oldSpan aligned + i ∧ newSpan ops = newSpan aligned + j := by
  induction fuel with
  | zero =>
    intro i j aligned _ _ hfuel
    exact ⟨aligned, by rw [traceback, if_neg (by omega)], by omega, by omega⟩
  | succ fuel ih =>
    intro i j aligned hi hj hfuel
    unfold traceback
    by_cases hmore : 0 < i ∨ 0 < j
    · have hget := getElem?_eq_getElem (l := step) (by
        rw [hstep]
        exact cell_lt (lt_succ_of_le hi) (lt_succ_of_le hj))
      simp only [if_pos hmore, hget, bind_eq_bind, bind_some]
      have hpair : 0 < i → 0 < j → ∃ ops,
          traceback step (m + 1) fuel (i - 1) (j - 1) (.pair :: aligned) = some ops ∧
            oldSpan ops = oldSpan aligned + i ∧ newSpan ops = newSpan aligned + j := by
        intro hi0 hj0
        obtain ⟨ops, hops, ho, hn⟩ := ih (i - 1) (j - 1) (.pair :: aligned)
          (by omega) (by omega) (by omega)
        simp only [oldSpan_cons, newSpan_cons, reduceCtorEq, if_false] at ho hn
        exact ⟨ops, hops, by omega, by omega⟩
      have hinsert : 0 < j → ∃ ops,
          traceback step (m + 1) fuel i (j - 1) (.insert :: aligned) = some ops ∧
            oldSpan ops = oldSpan aligned + i ∧ newSpan ops = newSpan aligned + j := by
        intro hj0
        obtain ⟨ops, hops, ho, hn⟩ := ih i (j - 1) (.insert :: aligned)
          (by omega) (by omega) (by omega)
        simp only [oldSpan_cons, newSpan_cons, reduceCtorEq, if_true, if_false] at ho hn
        exact ⟨ops, hops, by omega, by omega⟩
      have hdelete : 0 < i → ∃ ops,
          traceback step (m + 1) fuel (i - 1) j (.delete :: aligned) = some ops ∧
            oldSpan ops = oldSpan aligned + i ∧ newSpan ops = newSpan aligned + j := by
        intro hi0
        obtain ⟨ops, hops, ho, hn⟩ := ih (i - 1) j (.delete :: aligned)
          (by omega) (by omega) (by omega)
        simp only [oldSpan_cons, newSpan_cons, reduceCtorEq, if_true, if_false] at ho hn
        exact ⟨ops, hops, by omega, by omega⟩
      split
      · rename_i h
        exact hpair h.2.1 h.2.2
      split
      · rename_i h
        exact hinsert h.2
      split
      · rename_i h
        exact hdelete h.2
      by_cases hj0 : 0 < j
      · rw [if_pos hj0]
        exact hinsert hj0
      · rw [if_neg hj0]
        exact hdelete (hmore.resolve_right hj0)
    · rw [if_neg hmore]
      exact ⟨aligned, rfl, by omega, by omega⟩

theorem replacementAlignmentOps_spec (pairCost : α → α → UInt32) (deletes inserts : List α)
    (hd : deletes.length ≤ replacementAlignCellBudget)
    (hi : inserts.length ≤ replacementAlignCellBudget) :
    ∃ ops, replacementAlignmentOps pairCost deletes inserts = some ops ∧
      oldSpan ops = deletes.length ∧ newSpan ops = inserts.length := by
  have hcosts : ∀ j ∈ range inserts.length,
      gapCost (j + 1) = some ((gapCost (j + 1)).getD 0) := by
    intro j hj
    have hj := mem_range.mp hj
    obtain ⟨cost, hcost⟩ := gapCost_some (j + 1) (by omega)
    rw [hcost, getD_some]
  have hprev := mapM_of_forall hcosts
  have hcache : CacheFits (prepareReplacement deletes inserts)
      (newPairCostCache (prepareReplacement deletes inserts)) := by
    intro cells h
    unfold newPairCostCache at h
    split at h
    · rw [← some.inj h, length_replicate]
    · simp at h
  obtain ⟨step, hstep, hlen⟩ := alignTable_spec pairCost
    (prepareReplacement_prepared deletes inserts) hd deletes.length 1
    (0 :: (range inserts.length).map fun j => (gapCost (j + 1)).getD 0)
    (.none :: replicate inserts.length .insert) (by omega)
    (add_comm _ _) (by simp [prepareReplacement]) hcache (by simp [prepareReplacement])
  obtain ⟨ops, hops, ho, hn⟩ := traceback_spec (n := deletes.length) (m := inserts.length) hlen
    (deletes.length + inserts.length) deletes.length inserts.length [] le_rfl le_rfl le_rfl
  refine ⟨ops, ?_, by simpa [oldSpan] using ho, by simpa [newSpan] using hn⟩
  simp only [replacementAlignmentOps, hprev, hstep, bind_eq_bind, bind_some]
  exact hops

end

end GitComet.FileDiff
