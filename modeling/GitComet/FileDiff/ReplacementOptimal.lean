import GitComet.FileDiff.ReplacementCost

namespace GitComet.FileDiff
open Slice Text Alignment List Nat Option

section
variable {α : Type} [DecidableEq α]

theorem prepareTextIds_texts (lines : List α) : ∀ texts : List α,
    texts <+: (prepareTextIds lines texts).2 ∧
      ∀ i id : ℕ, (prepareTextIds lines texts).1[i]? = some id →
        (prepareTextIds lines texts).2[id]? = lines[i]? := by
  induction lines with
  | nil =>
    intro texts
    refine ⟨prefix_rfl, fun i id h => ?_⟩
    cases h
  | cons line lines ih =>
    intro texts
    obtain ⟨hgrow, hids⟩ := ih (if line ∈ texts then texts else texts ++ [line])
    have hfirst :
        (if line ∈ texts then texts else texts ++ [line])[texts.idxOf line]? = some line := by
      by_cases hmem : line ∈ texts
      · rw [if_pos hmem]
        exact getElem?_idxOf hmem
      · rw [if_neg hmem, idxOf_eq_length hmem, getElem?_concat_length]
    have htexts : texts <+: if line ∈ texts then texts else texts ++ [line] := by
      split
      · exact prefix_rfl
      · exact prefix_append _ _
    refine ⟨htexts.trans hgrow, fun i id h => ?_⟩
    cases i with
    | zero =>
      rw [prepareTextIds, getElem?_cons_zero] at h
      rw [← some.inj h, getElem?_cons_zero, prepareTextIds]
      obtain ⟨more, hmore⟩ := hgrow
      rw [← hmore, getElem?_append_left (List.getElem?_eq_some_iff.mp hfirst).1]
      exact hfirst
    | succ i => exact hids i id h

structure SameIds (r : Replacement α) : Prop where
  deletes : ∀ {i i' id : ℕ}, r.deleteIds[i]? = some id → r.deleteIds[i']? = some id →
    r.deletes[i]? = r.deletes[i']?
  inserts : ∀ {j j' id : ℕ}, r.insertIds[j]? = some id → r.insertIds[j']? = some id →
    r.inserts[j]? = r.inserts[j']?

theorem prepareReplacement_sameIds (deletes inserts : List α) :
    SameIds (prepareReplacement deletes inserts) := by
  have hdeletes := (prepareTextIds_texts deletes []).2
  have hinserts := (prepareTextIds_texts inserts []).2
  refine ⟨fun {i i' id} h h' => ?_, fun {j j' id} h h' => ?_⟩
  · exact (hdeletes i id h).symm.trans (hdeletes i' id h')
  · exact (hinserts j id h).symm.trans (hinserts j' id h')

end

section
variable {α : Type}

structure CacheHolds (pairCost : α → α → UInt32) (r : Replacement α) (cache : PairCostCache) :
    Prop where
  fits : CacheFits r cache
  known : ∀ {cells : List ℕ}, cache = some cells → ∀ {i j deleteId insertId cost : ℕ}
    {delete insert : α}, r.deletes[i]? = some delete → r.inserts[j]? = some insert →
    r.deleteIds[i]? = some deleteId → r.insertIds[j]? = some insertId →
    cells[deleteId * r.insertUnique + insertId]? = some cost →
    cost = u32Max ∨ cost = lineCost pairCost delete insert

theorem cacheHolds_none (pairCost : α → α → UInt32) (r : Replacement α) :
    CacheHolds pairCost r none :=
  ⟨fun _ h => (some_ne_none _ h.symm).elim, fun h => (some_ne_none _ h.symm).elim⟩

theorem cacheHolds_new (pairCost : α → α → UInt32) (r : Replacement α) :
    CacheHolds pairCost r (some (replicate (r.deleteUnique * r.insertUnique) u32Max)) := by
  refine ⟨fun cells h => ?_, ?_⟩
  · rw [← some.inj h, length_replicate]
  · intro cells h i j deleteId insertId cost delete insert _ _ _ _ hcell
    rw [← some.inj h] at hcell
    exact .inl (eq_of_mem_replicate (mem_of_getElem? hcell))

theorem cell_eq {a b c d width : ℕ} (hb : b < width) (hd : d < width)
    (h : a * width + b = c * width + d) : a = c ∧ b = d := by
  have hdiv := congrArg (· / width) h
  have hmod := congrArg (· % width) h
  rw [mul_comm, mul_comm c, mul_add_div (by omega), mul_add_div (by omega),
    div_eq_of_lt hb, div_eq_of_lt hd, add_zero, add_zero] at hdiv
  rw [mul_comm, mul_comm c, mul_add_mod, mul_add_mod, mod_eq_of_lt hb,
    mod_eq_of_lt hd] at hmod
  exact ⟨hdiv, hmod⟩

variable {pairCost : α → α → UInt32} {r : Replacement α} {cache : PairCostCache}

theorem cachedPairCost_exact (hr : Prepared r) (hsame : SameIds r) {i j : ℕ}
    (hi : i < r.deletes.length) (hj : j < r.inserts.length) (hc : CacheHolds pairCost r cache) :
    ∃ cache', cachedPairCost pairCost r (i + 1) (j + 1) cache =
        some (pairCostAt pairCost r.deletes r.inserts i j, cache') ∧
      CacheHolds pairCost r cache' := by
  have hdelete := getElem?_eq_getElem hi
  have hinsert := getElem?_eq_getElem hj
  rw [pairCostAt_eq hdelete hinsert, cachedPairCost, Nat.add_sub_cancel, Nat.add_sub_cancel,
    hdelete, hinsert]
  cases cache with
  | none => exact ⟨none, rfl, hc⟩
  | some cells =>
    have hdeleteId := getElem?_eq_getElem (hr.deleteLength ▸ hi)
    have hinsertId := getElem?_eq_getElem (hr.insertLength ▸ hj)
    have hdlt := hr.deleteIds _ (mem_of_getElem? hdeleteId)
    have hilt := hr.insertIds _ (mem_of_getElem? hinsertId)
    have hcell := getElem?_eq_getElem (l := cells) (by
      rw [hc.fits cells rfl]
      exact cell_lt hdlt hilt)
    dsimp only [bind_eq_bind, bind_some]
    rw [hdeleteId, hinsertId, bind_some, bind_some, hcell, bind_some]
    split
    · refine ⟨_, rfl, ?_, ?_⟩
      · intro cells' h
        rw [← some.inj h, length_set]
        exact hc.fits cells rfl
      · intro cells' h i' j' deleteId insertId cost delete insert hd' hn' hdid hnid hcost
        rw [← some.inj h, getElem?_set] at hcost
        split at hcost
        · rename_i hindex
          obtain ⟨rfl, rfl⟩ := cell_eq hilt (hr.insertIds _ (mem_of_getElem? hnid)) hindex
          have hd := hsame.deletes hdeleteId hdid
          have hn := hsame.inserts hinsertId hnid
          rw [hdelete, hd'] at hd
          rw [hinsert, hn'] at hn
          split at hcost
          · rw [← some.inj hd, ← some.inj hn]
            exact .inr (some.inj hcost).symm
          · cases hcost
        · exact hc.known rfl hd' hn' hdid hnid hcost
    · rename_i hfilled
      refine ⟨_, ?_, hc⟩
      have hvalue := (hc.known rfl hdelete hinsert hdeleteId hinsertId hcell).resolve_left hfilled
      rw [hvalue]

end

section
variable {α : Type} {pairCost : α → α → UInt32}

theorem alignRow_exact {r : Replacement α} {i : ℕ}
    {cost : ℕ → PairCostCache → Option (ℕ × PairCostCache)}
    (hfit : CostsFit r.deletes r.inserts) (hi : i < r.deletes.length)
    (hcost : ∀ {j : ℕ} {cache : PairCostCache}, j < r.inserts.length → CacheHolds pairCost r cache →
      ∃ cache', cost (j + 1) cache = some (pairCostAt pairCost r.deletes r.inserts i j, cache') ∧
        CacheHolds pairCost r cache') (cells : ℕ) :
    ∀ (j : ℕ) {cache : PairCostCache}, j + cells = r.inserts.length → CacheHolds pairCost r cache →
      ∃ cache', alignRow cost (rowCosts pairCost r.deletes r.inserts i (r.inserts.length + 1)) cells
          (j + 1) (rowCosts pairCost r.deletes r.inserts (i + 1) (j + 1))
          (tableSteps pairCost r.deletes r.inserts ((i + 1) * (r.inserts.length + 1) + (j + 1)))
          cache = some (rowCosts pairCost r.deletes r.inserts (i + 1) (r.inserts.length + 1),
          tableSteps pairCost r.deletes r.inserts ((i + 2) * (r.inserts.length + 1)), cache') ∧
        CacheHolds pairCost r cache' := by
  induction cells with
  | zero =>
    intro j cache hj hc
    obtain rfl : j = r.inserts.length := hj
    refine ⟨cache, ?_, hc⟩
    rw [alignRow, succ_mul (i + 1)]
  | succ cells ih =>
    intro j cache hj hc
    have hjlt : j < r.inserts.length := by omega
    obtain ⟨cache', hvalue, hc'⟩ := hcost hjlt hc
    obtain ⟨cache'', hrun, hc''⟩ := ih (j + 1) (by omega) hc'
    refine ⟨cache'', ?_, hc''⟩
    have hbest := (bestAt_spec pairCost hfit hi hjlt).1
    rw [alignRow, hvalue, Nat.add_sub_cancel, rowCosts_get (by omega), rowCosts_get (by omega),
      rowCosts_get (by omega)]
    dsimp only [bind_eq_bind, bind_some]
    have hcosts := rowCosts_succ pairCost r.deletes r.inserts (i + 1) (j + 1)
    have hsteps := tableSteps_succ pairCost r.deletes (i := i + 1) (j := j + 1) hjlt
    rw [← hbest] at hcosts
    rw [hcosts] at hrun
    exact (congrArg (fun steps => alignRow _ _ _ _ _ steps _) hsteps).symm.trans hrun

theorem gapCost_eq {lines : ℕ} (h : lines * replacementGapCost ≤ u32Max) :
    gapCost lines = some (lines * replacementGapCost) := by
  have hsmall : asU32 lines = lines := by
    refine mod_eq_of_lt (lt_succ_of_le (le_trans ?_ h))
    exact Nat.le_mul_of_pos_right lines (by decide)
  rw [gapCost, hsmall]
  exact if_pos h

theorem alignTable_exact {r : Replacement α} (hr : Prepared r) (hsame : SameIds r)
    (hfit : CostsFit r.deletes r.inserts) (rows : ℕ) :
    ∀ (i : ℕ) {cache : PairCostCache}, i + rows = r.deletes.length → CacheHolds pairCost r cache →
      alignTable pairCost r rows (i + 1)
          (rowCosts pairCost r.deletes r.inserts i (r.inserts.length + 1))
          (tableSteps pairCost r.deletes r.inserts ((i + 1) * (r.inserts.length + 1))) cache =
        some (tableSteps pairCost r.deletes r.inserts
          ((r.deletes.length + 1) * (r.inserts.length + 1))) := by
  induction rows with
  | zero =>
    intro i cache hi _
    obtain rfl : i = r.deletes.length := hi
    rw [alignTable]
  | succ rows ih =>
    intro i cache hi hc
    have hilt : i < r.deletes.length := by omega
    have hgap : (i + 1) * replacementGapCost ≤ u32Max :=
      (Nat.mul_le_mul_right _ (by omega)).trans hfit
    have hfirst : rowCosts pairCost r.deletes r.inserts (i + 1) (0 + 1) =
        [(i + 1) * replacementGapCost] := by
      rw [rowCosts_succ, prefixCost_left hilt]
      rfl
    obtain ⟨cache', hrow, hc'⟩ := alignRow_exact hfit hilt
      (fun hj hcache => cachedPairCost_exact hr hsame hilt hj hcache) r.inserts.length 0
      (zero_add _) hc
    have hsteps : tableSteps pairCost r.deletes r.inserts
        ((i + 1) * (r.inserts.length + 1) + (0 + 1)) =
        tableSteps pairCost r.deletes r.inserts ((i + 1) * (r.inserts.length + 1)) ++ [.delete] :=
      tableSteps_succ pairCost r.deletes (i := i + 1) (j := 0) (Nat.zero_le _)
    rw [hfirst, hsteps, zero_add] at hrow
    rw [alignTable, gapCost_eq hgap]
    dsimp only [bind_eq_bind, bind_some]
    rw [hrow]
    exact ih (i + 1) (by omega) hc'

section
variable {deletes inserts : List α} {i j cost : ℕ} {ops : List ReplacementOp}

theorem alignmentCost_pair (hi : i < deletes.length) (hj : j < inserts.length)
    (h : alignmentCost pairCost ops (deletes.drop (i + 1)) (inserts.drop (j + 1)) = some cost) :
    alignmentCost pairCost (.pair :: ops) (deletes.drop i) (inserts.drop j) =
      some (cost + pairCostAt pairCost deletes inserts i j) := by
  rw [pairCostAt_eq (getElem?_eq_getElem hi) (getElem?_eq_getElem hj),
    drop_eq_getElem_cons hi, drop_eq_getElem_cons hj, alignmentCost, h]
  rfl

theorem alignmentCost_insert (hj : j < inserts.length)
    (h : alignmentCost pairCost ops (deletes.drop i) (inserts.drop (j + 1)) = some cost) :
    alignmentCost pairCost (.insert :: ops) (deletes.drop i) (inserts.drop j) =
      some (cost + replacementGapCost) := by
  rw [drop_eq_getElem_cons hj, alignmentCost, h]
  rfl

theorem alignmentCost_delete (hi : i < deletes.length)
    (h : alignmentCost pairCost ops (deletes.drop (i + 1)) (inserts.drop j) = some cost) :
    alignmentCost pairCost (.delete :: ops) (deletes.drop i) (inserts.drop j) =
      some (cost + replacementGapCost) := by
  rw [drop_eq_getElem_cons hi, alignmentCost, h]
  rfl

end

theorem traceback_pair {step : List AlignStep} {width i j : ℕ} (fuel : ℕ)
    (aligned : List ReplacementOp) (h : step[(i + 1) * width + (j + 1)]? = some .pair) :
    traceback step width (fuel + 1) (i + 1) (j + 1) aligned =
      traceback step width fuel i j (.pair :: aligned) := by
  rw [traceback, if_pos (.inl i.succ_pos), h]
  dsimp only [bind_eq_bind, bind_some]
  rw [if_pos ⟨rfl, i.succ_pos, j.succ_pos⟩, Nat.add_sub_cancel, Nat.add_sub_cancel]

theorem traceback_insert {step : List AlignStep} {width i j : ℕ} (fuel : ℕ)
    (aligned : List ReplacementOp) (h : step[i * width + (j + 1)]? = some .insert) :
    traceback step width (fuel + 1) i (j + 1) aligned =
      traceback step width fuel i j (.insert :: aligned) := by
  rw [traceback, if_pos (.inr j.succ_pos), h]
  dsimp only [bind_eq_bind, bind_some]
  rw [if_neg fun h => AlignStep.noConfusion h.1, if_pos ⟨rfl, j.succ_pos⟩, Nat.add_sub_cancel]

theorem traceback_delete {step : List AlignStep} {width i j : ℕ} (fuel : ℕ)
    (aligned : List ReplacementOp) (h : step[(i + 1) * width + j]? = some .delete) :
    traceback step width (fuel + 1) (i + 1) j aligned =
      traceback step width fuel i j (.delete :: aligned) := by
  rw [traceback, if_pos (.inl i.succ_pos), h]
  dsimp only [bind_eq_bind, bind_some]
  rw [if_neg fun h => AlignStep.noConfusion h.1, if_neg fun h => AlignStep.noConfusion h.1,
    if_pos ⟨rfl, i.succ_pos⟩, Nat.add_sub_cancel]

theorem traceback_exact {deletes inserts : List α} (hfit : CostsFit deletes inserts) (fuel : ℕ) :
    ∀ (i j : ℕ) {aligned : List ReplacementOp} {cost : ℕ}, i ≤ deletes.length →
      j ≤ inserts.length → i + j ≤ fuel →
      alignmentCost pairCost aligned (deletes.drop i) (inserts.drop j) = some cost →
      ∃ ops, traceback (tableSteps pairCost deletes inserts
          ((deletes.length + 1) * (inserts.length + 1))) (inserts.length + 1) fuel i j aligned =
        some ops ∧ alignmentCost pairCost ops deletes inserts =
          some (cost + prefixCost pairCost deletes inserts i j) := by
  induction fuel with
  | zero =>
    intro i j aligned cost hi hj hfuel hcost
    obtain ⟨rfl, rfl⟩ : i = 0 ∧ j = 0 := by omega
    refine ⟨aligned, rfl, ?_⟩
    rw [prefixCost_top hj, zero_mul, add_zero]
    exact hcost
  | succ fuel ih =>
    intro i j aligned cost hi hj hfuel hcost
    have hget := tableSteps_get pairCost deletes (lt_succ_of_le hi) hj
    cases i with
    | zero =>
      cases j with
      | zero =>
        refine ⟨aligned, rfl, ?_⟩
        rw [prefixCost_top hj, zero_mul, add_zero]
        exact hcost
      | succ j =>
        rw [traceback_insert fuel aligned hget]
        obtain ⟨ops, hops, hopsCost⟩ := ih 0 j hi (by omega) (by omega)
          (alignmentCost_insert hj hcost)
        refine ⟨ops, hops, ?_⟩
        rw [hopsCost, prefixCost_top hj, prefixCost_top (by omega), succ_mul]
        exact congrArg some (by omega)
    | succ i =>
      cases j with
      | zero =>
        rw [traceback_delete fuel aligned hget]
        obtain ⟨ops, hops, hopsCost⟩ := ih i 0 (by omega) hj (by omega)
          (alignmentCost_delete hi hcost)
        refine ⟨ops, hops, ?_⟩
        rw [hopsCost, prefixCost_left hi, prefixCost_left (by omega), succ_mul]
        exact congrArg some (by omega)
      | succ j =>
        rcases (bestAt_spec pairCost hfit hi hj).2 with ⟨hstep, hbest⟩ | ⟨hstep, hbest⟩ |
          ⟨hstep, hbest⟩
        · rw [traceback_pair fuel aligned (hget.trans (congrArg some hstep))]
          obtain ⟨ops, hops, hopsCost⟩ := ih i j (by omega) (by omega) (by omega)
            (alignmentCost_pair hi hj hcost)
          refine ⟨ops, hops, ?_⟩
          rw [hopsCost, hbest]
          exact congrArg some (by omega)
        · rw [traceback_insert fuel aligned (hget.trans (congrArg some hstep))]
          obtain ⟨ops, hops, hopsCost⟩ := ih (i + 1) j hi (by omega) (by omega)
            (alignmentCost_insert hj hcost)
          refine ⟨ops, hops, ?_⟩
          rw [hopsCost, hbest]
          exact congrArg some (by omega)
        · rw [traceback_delete fuel aligned (hget.trans (congrArg some hstep))]
          obtain ⟨ops, hops, hopsCost⟩ := ih i (j + 1) (by omega) hj (by omega)
            (alignmentCost_delete hi hcost)
          refine ⟨ops, hops, ?_⟩
          rw [hopsCost, hbest]
          exact congrArg some (by omega)

end

section
variable {α : Type} [DecidableEq α]

def replacementAlignmentOpsWith (cache : PairCostCache) (pairCost : α → α → UInt32)
    (deletes inserts : List α) : Option (List ReplacementOp) := do
  let r := prepareReplacement deletes inserts
  let n := deletes.length
  let m := inserts.length
  let prevCosts ← (range m).mapM fun j => gapCost (j + 1)
  let step ← alignTable pairCost r n 1 (0 :: prevCosts) (.none :: replicate m .insert) cache
  traceback step (m + 1) (n + m) n m []

def cachedAlignmentOps (pairCost : α → α → UInt32) (deletes inserts : List α) :
    Option (List ReplacementOp) :=
  let r := prepareReplacement deletes inserts
  replacementAlignmentOpsWith (some (replicate (r.deleteUnique * r.insertUnique) u32Max))
    pairCost deletes inserts

def uncachedAlignmentOps (pairCost : α → α → UInt32) (deletes inserts : List α) :
    Option (List ReplacementOp) :=
  replacementAlignmentOpsWith none pairCost deletes inserts

theorem replacementAlignmentOps_with (pairCost : α → α → UInt32) (deletes inserts : List α) :
    replacementAlignmentOps pairCost deletes inserts =
      replacementAlignmentOpsWith (newPairCostCache (prepareReplacement deletes inserts)) pairCost
        deletes inserts := rfl

theorem replacementAlignmentOps_cases (pairCost : α → α → UInt32) (deletes inserts : List α) :
    replacementAlignmentOps pairCost deletes inserts = cachedAlignmentOps pairCost deletes inserts ∨
    replacementAlignmentOps pairCost deletes inserts =
      uncachedAlignmentOps pairCost deletes inserts := by
  rw [replacementAlignmentOps_with, newPairCostCache]
  split
  · exact .inl rfl
  · exact .inr rfl

variable {pairCost : α → α → UInt32} {deletes inserts : List α}

omit [DecidableEq α] in
variable (pairCost) in
theorem firstRow_exact (hfit : CostsFit deletes inserts) :
    ∃ prevCosts, ((range inserts.length).mapM fun j => gapCost (j + 1)) = some prevCosts ∧
      0 :: prevCosts = rowCosts pairCost deletes inserts 0 (inserts.length + 1) ∧
      .none :: replicate inserts.length .insert =
        tableSteps pairCost deletes inserts ((0 + 1) * (inserts.length + 1)) := by
  have hcosts : ∀ j ∈ range inserts.length,
      gapCost (j + 1) = some ((j + 1) * replacementGapCost) := by
    intro j hj
    have hjlt := mem_range.mp hj
    exact gapCost_eq ((Nat.mul_le_mul_right _ (by omega)).trans hfit)
  refine ⟨_, mapM_of_forall hcosts, ?_, ?_⟩
  · rw [rowCosts, range_succ_eq_map, map_cons, List.map_map,
      prefixCost_top (Nat.zero_le _), zero_mul]
    refine congrArg _ (map_congr_left fun j hj => ?_)
    exact (prefixCost_top (mem_range.mp hj)).symm
  · rw [zero_add, one_mul, tableSteps, range_succ_eq_map, map_cons, List.map_map,
      Nat.zero_div, Nat.zero_mod]
    refine congrArg _ (eq_replicate_iff.mpr ⟨?_, ?_⟩).symm
    · rw [length_map, length_range]
    · intro step hstep
      obtain ⟨j, hj, rfl⟩ := mem_map.mp hstep
      have hjlt := succ_lt_succ (mem_range.mp hj)
      rw [Function.comp_apply, div_eq_of_lt hjlt, mod_eq_of_lt hjlt]
      rfl

omit [DecidableEq α] in
theorem costsFit_of_budget (hdeletes : deletes ≠ []) (hinserts : inserts ≠ [])
    (h : deletes.length * inserts.length ≤ replacementAlignCellBudget) :
    CostsFit deletes inserts := by
  have hd := length_pos_iff.mpr hdeletes
  have hi := length_pos_iff.mpr hinserts
  have hdle := (Nat.le_mul_of_pos_right deletes.length hi).trans h
  have hile := (Nat.le_mul_of_pos_left inserts.length hd).trans h
  exact (Nat.mul_le_mul_right _ (Nat.add_le_add hdle hile)).trans (by decide)

theorem replacementAlignmentOpsWith_eq (hfit : CostsFit deletes inserts) {cache : PairCostCache}
    (hc : CacheHolds pairCost (prepareReplacement deletes inserts) cache) :
    replacementAlignmentOpsWith cache pairCost deletes inserts =
      traceback (tableSteps pairCost deletes inserts
          ((deletes.length + 1) * (inserts.length + 1))) (inserts.length + 1)
        (deletes.length + inserts.length) deletes.length inserts.length [] := by
  obtain ⟨prevCosts, hprev, hcosts, hsteps⟩ := firstRow_exact pairCost hfit
  have htable := alignTable_exact (prepareReplacement_prepared deletes inserts)
    (prepareReplacement_sameIds deletes inserts) hfit deletes.length 0 (zero_add _) hc
  rw [replacementAlignmentOpsWith, hprev]
  dsimp only [bind_eq_bind, bind_some]
  rw [hcosts, hsteps]
  exact (congrArg (Option.bind · _) htable).trans rfl

def unequalCost (old new : Char) : UInt32 := if old = new then 0 else 150

end

end GitComet.FileDiff
