import GitComet.FileDiff.Patience
import GitComet.FileDiff.Runs

namespace GitComet.FileDiff
open Slice CommonPrefix EditGraph Text List Nat Option

def sideBySideHistogramLineThreshold : ℕ := 1024
def sideBySideLinearFallbackLineThreshold : ℕ := 100000
def sideBySideSparsePositionalMaxChangedRatioDenominator : ℕ := 4
def sideBySideSparsePositionalMaxBlockLen : ℕ := 1

inductive EofNewline where
  | missingInOld
  | missingInNew
  deriving DecidableEq

def eofNewlineDelta (oldText newText : List Char) : Option EofNewline :=
  match endsWithNewline oldText, endsWithNewline newText with
  | false, true => some .missingInOld
  | true, false => some .missingInNew
  | _, _ => none

structure FileDiffPlan where
  runs : List PlanRun
  rowCount : ℕ
  inlineRowCount : ℕ
  eofNewline : Option EofNewline

def applyEofNewlineToPlan (runs : List PlanRun) (eofNewline : Option EofNewline) :
    List PlanRun × Bool :=
  if eofNewline = none then (runs, false)
  else match runs.getLast? with
    | none => (runs, false)
    | some (.context oldStart newStart len) =>
      if 1 < len then
        (runs.dropLast ++ [.context oldStart newStart (len - 1),
          .modify (satAdd oldStart (len - 1)) (satAdd newStart (len - 1)) 1], true)
      else (runs.dropLast ++ [.modify oldStart newStart 1], true)
    | some _ => (runs, false)

def finishPlan (st : PlanState) (eofNewline : Option EofNewline) : FileDiffPlan :=
  let applied := applyEofNewlineToPlan st.runs eofNewline
  { runs := applied.1
    rowCount := st.rowCount
    inlineRowCount := if applied.2 then satAdd st.inlineRowCount 1 else st.inlineRowCount
    eofNewline := eofNewline }

def pushPairedReplacementRunsByPosition (oldStart oldLen newStart newLen : ℕ) (st : PlanState) :
    PlanState :=
  let paired := min oldLen newLen
  let st := if 0 < paired then pushPlanRunWithCounts st (.modify oldStart newStart paired) else st
  let st := if paired < oldLen then
      pushPlanRunWithCounts st (.remove (satAdd oldStart paired) (oldLen - paired))
    else st
  if paired < newLen then
    pushPlanRunWithCounts st (.add (satAdd newStart paired) (newLen - paired))
  else st

def pushReplacementOps (oldStart newStart : ℕ) :
    List ReplacementOp → ℕ → ℕ → PlanState → PlanState
  | [], _, _, st => st
  | .pair :: ops, localOld, localNew, st =>
    pushReplacementOps oldStart newStart ops (localOld + 1) (localNew + 1)
      (pushPlanRunWithCounts st (.modify (satAdd oldStart localOld) (satAdd newStart localNew) 1))
  | .delete :: ops, localOld, localNew, st =>
    pushReplacementOps oldStart newStart ops (localOld + 1) localNew
      (pushPlanRunWithCounts st (.remove (satAdd oldStart localOld) 1))
  | .insert :: ops, localOld, localNew, st =>
    pushReplacementOps oldStart newStart ops localOld (localNew + 1)
      (pushPlanRunWithCounts st (.add (satAdd newStart localNew) 1))

section
variable {α : Type} [DecidableEq α]

def pushAlignedReplacementRuns (pairCost : α → α → UInt32) (oldLines newLines : List α)
    (oldStart oldEnd newStart newEnd : ℕ) (st : PlanState) : Option PlanState := do
  let deletes ← sliceOf oldLines oldStart oldEnd
  let inserts ← sliceOf newLines newStart newEnd
  if deletes = [] then some (pushPlanRunWithCounts st (.add newStart inserts.length))
  else if inserts = [] then some (pushPlanRunWithCounts st (.remove oldStart deletes.length))
  else if replacementAlignCellBudget < satMul deletes.length inserts.length then
    some (pushPairedReplacementRunsByPosition oldStart deletes.length newStart inserts.length st)
  else do
    let ops ← replacementAlignmentOps pairCost deletes inserts
    some (pushReplacementOps oldStart newStart ops 0 0 st)

def differRun : List α → List α → ℕ
  | o :: old, n :: new => if o = n then 0 else differRun old new + 1
  | _, _ => 0

def sparseRuns (oldLines newLines : List α) : ℕ → ℕ → ℕ → PlanState → Option PlanState
  | 0, _, _, st => some st
  | fuel + 1, ix, changedLines, st =>
    if ix < oldLines.length then
      if oldLines[ix]? = newLines[ix]? then
        let len := slideFrom oldLines newLines ix ix
        sparseRuns oldLines newLines fuel (ix + len) changedLines
          (pushPlanRunWithCounts st (.context ix ix len))
      else
        let blockLen := differRun (oldLines.drop ix) (newLines.drop ix)
        let changedLines := satAdd changedLines blockLen
        if sideBySideSparsePositionalMaxBlockLen < blockLen ∨ oldLines.length <
            satMul changedLines sideBySideSparsePositionalMaxChangedRatioDenominator then none
        else
          sparseRuns oldLines newLines fuel (ix + blockLen) changedLines
            (pushPlanRunWithCounts st (.modify ix ix blockLen))
    else some st

def buildSparsePositionalSideBySidePlan (oldText newText : List Char) (oldLines newLines : List α) :
    Option FileDiffPlan :=
  if oldLines.length ≠ newLines.length then none
  else if oldLines.length = 0 ∨
      satAdd oldLines.length oldLines.length < sideBySideHistogramLineThreshold then none
  else do
    let st ← sparseRuns oldLines newLines oldLines.length 0 0 .empty
    some (finishPlan st (eofNewlineDelta oldText newText))

def buildLinearFallbackSideBySidePlan (pairCost : α → α → UInt32) (oldText newText : List Char)
    (oldLines newLines : List α) : Option FileDiffPlan := do
  let ends := commonEnds oldLines newLines
  let oldMidEnd := oldLines.length - ends.2
  let newMidEnd := newLines.length - ends.2
  let st := pushPlanRunWithCounts .empty (.context 0 0 ends.1)
  let st ← pushAlignedReplacementRuns pairCost oldLines newLines ends.1 oldMidEnd ends.1 newMidEnd
    st
  let st := pushPlanRunWithCounts st (.context oldMidEnd newMidEnd ends.2)
  some (finishPlan st (eofNewlineDelta oldText newText))

def selectSideBySideEdits (old new : List α) : Option (List (Edit α)) :=
  let combined := satAdd old.length new.length
  if sideBySideLinearFallbackLineThreshold ≤ combined then myersFallbackEdits old new
  else if sideBySideHistogramLineThreshold ≤ combined then histogramEdits old new
  else myersEdits old new

omit [DecidableEq α] in
def kindRun (kind : EditKind) (edits : List (Edit α)) : ℕ :=
  (edits.takeWhile fun e => decide (e.kind = kind)).length

def pushDeletedRun (pairCost : α → α → UInt32) (oldLines newLines : List α)
    (oldIx deletes newIx inserts : ℕ) (st : PlanState) : Option PlanState :=
  if inserts = 0 then some (pushPlanRunWithCounts st (.remove oldIx deletes))
  else pushAlignedReplacementRuns pairCost oldLines newLines oldIx (oldIx + deletes) newIx
    (newIx + inserts) st

def planFromEdits (pairCost : α → α → UInt32) (oldLines newLines : List α) :
    ℕ → List (Edit α) → ℕ → ℕ → PlanState → Option PlanState
  | _, [], _, _, st => some st
  | 0, _ :: _, _, _, _ => none
  | fuel + 1, edit :: rest, oldIx, newIx, st =>
    let edits := edit :: rest
    match edit.kind with
    | .equal =>
      let len := kindRun .equal edits
      planFromEdits pairCost oldLines newLines fuel (edits.drop len) (oldIx + len) (newIx + len)
        (pushPlanRunWithCounts st (.context oldIx newIx len))
    | .delete => do
      let deletes := kindRun .delete edits
      let inserts := kindRun .insert (edits.drop deletes)
      let st ← pushDeletedRun pairCost oldLines newLines oldIx deletes newIx inserts st
      planFromEdits pairCost oldLines newLines fuel ((edits.drop deletes).drop inserts)
        (oldIx + deletes) (newIx + inserts) st
    | .insert =>
      let len := kindRun .insert edits
      planFromEdits pairCost oldLines newLines fuel (edits.drop len) oldIx (newIx + len)
        (pushPlanRunWithCounts st (.add newIx len))

def buildSideBySidePlan (pairCost : α → α → UInt32) (oldText newText : List Char)
    (oldLines newLines : List α) : Option FileDiffPlan :=
  if sideBySideLinearFallbackLineThreshold ≤ satAdd oldLines.length newLines.length then
    buildLinearFallbackSideBySidePlan pairCost oldText newText oldLines newLines
  else match buildSparsePositionalSideBySidePlan oldText newText oldLines newLines with
    | some plan => some plan
    | none => do
      let edits ← selectSideBySideEdits oldLines newLines
      let st ← planFromEdits pairCost oldLines newLines edits.length edits 0 0 .empty
      some (finishPlan st (eofNewlineDelta oldText newText))

variable {old new : List α}

omit [DecidableEq α] in
theorem context_last {o n len : ℕ} {q p : Extent} (hc : Covers old new q (.context o n len) p)
    (hlen : 1 < len) :
    Covers old new q (.context o n (len - 1)) ⟨o + (len - 1), n + (len - 1)⟩ ∧
      Covers old new ⟨o + (len - 1), n + (len - 1)⟩
        (.modify (o + (len - 1)) (n + (len - 1)) 1) p := by
  cases hc with
  | context _ _ _ ho hn he =>
    refine ⟨.context _ _ _ (by omega) (by omega) ?_, ?_⟩
    · have h := congrArg (·.take (len - 1)) he
      simp only [slice, take_take] at h
      simp only [slice]
      have eo : min (len - 1) (o + len - o) = o + (len - 1) - o := by omega
      have en : min (len - 1) (n + len - n) = n + (len - 1) - n := by omega
      rwa [eo, en] at h
    · have eo : o + len = o + (len - 1) + 1 := by omega
      have en : n + len = n + (len - 1) + 1 := by omega
      rw [eo, en]
      exact .modify _ _ _ (by omega) (by omega)

structure EofRewrite (old new : List α) (runs : List PlanRun) (p : Extent)
    (result : List PlanRun × Bool) : Prop where
  tiles : Tiles old new result.1 p
  rows : (planRows result.1).length = (planRows runs).length
  inlineRows : (planInlineRows result.1).length =
    (planInlineRows runs).length + if result.2 then 1 else 0

theorem planInlineRows_snoc (runs : List PlanRun) (run : PlanRun) :
    planInlineRows (runs ++ [run]) = planInlineRows runs ++ run.rows.flatMap PlanRow.inlineRows :=
  planInlineRows_eq (planRows_snoc runs run)

omit [DecidableEq α] in
theorem applyEofNewlineToPlan_spec (hb : Bounded old new) {runs : List PlanRun} {p : Extent}
    (h : Tiles old new runs p) (eof : Option EofNewline) :
    EofRewrite old new runs p (applyEofNewlineToPlan runs eof) := by
  have hsame : EofRewrite old new runs p (runs, false) := ⟨h, rfl, rfl⟩
  unfold applyEofNewlineToPlan
  split
  · exact hsame
  split
  · exact hsame
  · rename_i o n len hlast
    obtain ⟨q, htiles, hc, hne⟩ := tiles_last h hlast
    have hruns := (dropLast_append_getLast? _ hlast).symm
    have hlen : (planRows runs).length = (planRows runs.dropLast).length + len := by
      conv => lhs; rw [hruns]
      rw [planRows_snoc, length_append, length_rows]
      rfl
    have hinline : (planInlineRows runs).length = (planInlineRows runs.dropLast).length + len := by
      conv => lhs; rw [hruns]
      rw [planInlineRows_snoc, length_append]
      simp [PlanRun.rows, PlanRow.inlineRows, flatMap_map, length_flatMap]
    split
    · rename_i hlong
      obtain ⟨hc1, hc2⟩ := context_last hc hlong
      have hw := covers_within hc1 (tiles_within htiles)
      unfold Extent.Within at hw
      rw [hb.satAdd_old hw.1, hb.satAdd_new hw.2]
      have happ : runs.dropLast ++ [PlanRun.context o n (len - 1),
          .modify (o + (len - 1)) (n + (len - 1)) 1] = (runs.dropLast ++
            [PlanRun.context o n (len - 1)]) ++ [.modify (o + (len - 1)) (n + (len - 1)) 1] := by
        simp
      rw [happ]
      refine ⟨.snoc (.snoc htiles hc1 ?_) hc2 (by simp [PlanRun.rowLen]), ?_, ?_⟩
      · simp only [PlanRun.rowLen]
        omega
      · simp only [planRows_snoc, length_append, length_rows, PlanRun.rowLen, hlen]
        omega
      · simp only [planInlineRows_snoc, length_append, hinline]
        simp [PlanRun.rows, PlanRow.inlineRows, flatMap_map, length_flatMap]
        omega
    · rename_i hshort
      simp only [PlanRun.rowLen] at hne
      obtain rfl : len = 1 := by omega
      cases hc with
      | context _ _ _ ho hn _ =>
        refine ⟨.snoc htiles (.modify _ _ _ ho hn) (by simp [PlanRun.rowLen]), ?_, ?_⟩
        · simp only [planRows_snoc, length_append, length_rows, PlanRun.rowLen, hlen]
        · simp only [planInlineRows_snoc, length_append, hinline]
          simp [PlanRun.rows, PlanRow.inlineRows]
  · exact hsame

structure PlanTiles (old new : List α) (plan : FileDiffPlan) : Prop where
  oldLines : (planRows plan.runs).filterMap PlanRow.oldLine = range old.length
  newLines : (planRows plan.runs).filterMap PlanRow.newLine = range new.length
  contextPairs : ∀ o n, .context o n ∈ planRows plan.runs →
    ∃ line, old[o]? = some line ∧ new[n]? = some line
  rowCount : plan.rowCount = (planRows plan.runs).length
  inlineRowCount : plan.inlineRowCount = (planInlineRows plan.runs).length

omit [DecidableEq α] in
theorem tiles_contextPairs {runs : List PlanRun} {p : Extent} (h : Tiles old new runs p) :
    ∀ o n, .context o n ∈ planRows runs → ∃ line, old[o]? = some line ∧ new[n]? = some line := by
  induction h with
  | nil => simp [planRows]
  | snoc _ hc _ ih =>
    intro o n hmem
    rw [planRows_snoc, mem_append] at hmem
    rcases hmem with hmem | hmem
    · exact ih o n hmem
    · cases hc with
      | context a b len ho hn he =>
        simp only [PlanRun.rows, List.mem_map, mem_range, PlanRow.context.injEq] at hmem
        obtain ⟨i, hi, rfl, rfl⟩ := hmem
        have hi' : (slice old a (a + len))[i]? = (slice new b (b + len))[i]? := by rw [he]
        rw [getElem?_slice (by omega), getElem?_slice (by omega),
          getElem?_eq_getElem (by omega : a + i < old.length)] at hi'
        exact ⟨_, getElem?_eq_getElem (by omega), hi'.symm⟩
      | remove => simp [PlanRun.rows] at hmem
      | add => simp [PlanRun.rows] at hmem
      | modify => simp [PlanRun.rows] at hmem

def Extent.full (old new : List α) : Extent := ⟨old.length, new.length⟩

omit [DecidableEq α] in
theorem finishPlan_tiles (hb : Bounded old new) {st : PlanState}
    (h : Built old new st (.full old new)) (eof : Option EofNewline) :
    PlanTiles old new (finishPlan st eof) := by
  have hr := applyEofNewlineToPlan_spec hb h.tiles eof
  obtain ⟨hold, hnew⟩ := planRows_oldLines hr.tiles
  refine ⟨hold, hnew, tiles_contextPairs hr.tiles, ?_, ?_⟩
  · simp only [finishPlan, hr.rows, h.rowCount]
  · have hle := (planInlineRows_length_le hr.tiles).1
    have ho := hb.old
    have hn := hb.new
    have hinline := hr.inlineRows
    simp only [finishPlan, h.inlineRowCount]
    generalize applyEofNewlineToPlan st.runs eof = applied at hle hinline ⊢
    obtain ⟨runs, rewritten⟩ := applied
    cases rewritten with
    | false => simpa using hinline.symm
    | true =>
      simp only [if_true] at hinline hle ⊢
      rw [satAdd_eq, hinline]
      simp only [Extent.full] at hle
      unfold isizeMax at ho hn
      unfold usizeMax
      omega

omit [DecidableEq α] in
theorem pushPairedReplacementRunsByPosition_built (hb : Bounded old new) {st : PlanState}
    {o n i j : ℕ} (h : Built old new st ⟨o, n⟩) (ho : o + i ≤ old.length)
    (hn : n + j ≤ new.length) :
    Built old new (pushPairedReplacementRunsByPosition o i n j st) ⟨o + i, n + j⟩ := by
  have hpaired : Built old new (if 0 < min i j then pushPlanRunWithCounts st (.modify o n (min i j))
        else st) ⟨o + min i j, n + min i j⟩ := by
    split
    · exact pushPlanRunWithCounts_built hb h (.modify _ _ _ (by omega) (by omega))
    · rename_i hz
      have hz : min i j = 0 := by omega
      rw [hz]
      exact h
  simp only [pushPairedReplacementRunsByPosition,
    hb.satAdd_old (by omega : o + min i j ≤ old.length),
    hb.satAdd_new (by omega : n + min i j ≤ new.length)]
  generalize (if 0 < min i j then
    pushPlanRunWithCounts st (.modify o n (min i j)) else st) = st1 at hpaired ⊢
  rcases lt_trichotomy i j with hlt | rfl | hgt
  · have hmin : min i j = i := by omega
    rw [hmin] at hpaired ⊢
    rw [if_pos hlt, if_neg (by omega)]
    have hc := Covers.add (x := old) (y := new) (o + i) (n + i) (j - i)
      (by omega)
    have en : n + i + (j - i) = n + j := by omega
    rw [en] at hc
    exact pushPlanRunWithCounts_built hb hpaired hc
  · rw [min_self] at hpaired ⊢
    rw [if_neg (by omega), if_neg (by omega)]
    exact hpaired
  · have hmin : min i j = j := by omega
    rw [hmin] at hpaired ⊢
    rw [if_neg (by omega), if_pos hgt]
    have hc := Covers.remove (x := old) (y := new) (o + j) (n + j) (i - j)
      (by omega)
    have eo : o + j + (i - j) = o + i := by omega
    rw [eo] at hc
    exact pushPlanRunWithCounts_built hb hpaired hc

omit [DecidableEq α] in
theorem pushReplacementOps_built (hb : Bounded old new) {o n : ℕ} (ops : List ReplacementOp) :
    ∀ {i j : ℕ} {st : PlanState}, Built old new st ⟨o + i, n + j⟩ →
      o + i + oldSpan ops ≤ old.length → n + j + newSpan ops ≤ new.length →
      Built old new (pushReplacementOps o n ops i j st)
        ⟨o + i + oldSpan ops, n + j + newSpan ops⟩ := by
  induction ops with
  | nil =>
    intro i j st h _ _
    exact h
  | cons op ops ih =>
    intro i j st h ho hn
    rw [oldSpan_cons] at ho ⊢
    rw [newSpan_cons] at hn ⊢
    cases op with
    | pair =>
      simp only [reduceCtorEq, if_false] at ho hn ⊢
      have hpush := pushPlanRunWithCounts_built hb h (.modify (o + i) (n + j) 1 (by omega)
        (by omega))
      have := ih (i := i + 1) (j := j + 1) hpush (by omega) (by omega)
      simp only [pushReplacementOps, hb.satAdd_old (by omega : o + i ≤ old.length),
        hb.satAdd_new (by omega : n + j ≤ new.length)]
      convert this using 2 <;> omega
    | delete =>
      simp only [reduceCtorEq, if_false, if_true, add_zero] at ho hn ⊢
      have hpush := pushPlanRunWithCounts_built hb h (.remove (o + i) (n + j) 1 (by omega))
      have := ih (i := i + 1) (j := j) hpush (by omega) (by omega)
      simp only [pushReplacementOps, hb.satAdd_old (by omega : o + i ≤ old.length)]
      convert this using 2
      omega
    | insert =>
      simp only [reduceCtorEq, if_false, if_true, add_zero] at ho hn ⊢
      have hpush := pushPlanRunWithCounts_built hb h (.add (o + i) (n + j) 1 (by omega))
      have := ih (i := i) (j := j + 1) hpush (by omega) (by omega)
      simp only [pushReplacementOps, hb.satAdd_new (by omega : n + j ≤ new.length)]
      convert this using 2
      omega

theorem within_budget {n m : ℕ} (hn : 0 < n) (hm : 0 < m)
    (h : ¬replacementAlignCellBudget < satMul n m) :
    n ≤ replacementAlignCellBudget ∧ m ≤ replacementAlignCellBudget := by
  have hmul : n * m ≤ replacementAlignCellBudget := by
    unfold satMul at h
    unfold replacementAlignCellBudget usizeMax at *
    omega
  exact ⟨le_trans (Nat.le_mul_of_pos_right n hm) hmul,
    le_trans (Nat.le_mul_of_pos_left m hn) hmul⟩

theorem pushAlignedReplacementRuns_built (pairCost : α → α → UInt32) (hb : Bounded old new)
    {st : PlanState} {a b c d : ℕ} (h : Built old new st ⟨a, c⟩) (hab : a ≤ b)
    (hbl : b ≤ old.length) (hcd : c ≤ d) (hdl : d ≤ new.length) :
    ∃ st', pushAlignedReplacementRuns pairCost old new a b c d st = some st' ∧
      Built old new st' ⟨b, d⟩ := by
  have hdel := length_slice (l := old) (a := a) hbl
  have hins := length_slice (l := new) (a := c) hdl
  simp only [pushAlignedReplacementRuns, sliceOf_eq hab hbl, sliceOf_eq hcd hdl,
    bind_eq_bind, bind_some]
  have eb : a + (b - a) = b := by omega
  have ed : c + (d - c) = d := by omega
  by_cases hnodel : slice old a b = []
  · rw [if_pos hnodel, hins]
    rw [hnodel, length_nil] at hdel
    obtain rfl : a = b := by omega
    have hc := Covers.add (x := old) (y := new) a c (d - c) (by omega)
    rw [ed] at hc
    exact ⟨_, rfl, pushPlanRunWithCounts_built hb h hc⟩
  rw [if_neg hnodel]
  by_cases hnoins : slice new c d = []
  · rw [if_pos hnoins, hdel]
    rw [hnoins, length_nil] at hins
    obtain rfl : c = d := by omega
    have hc := Covers.remove (x := old) (y := new) a c (b - a) (by omega)
    rw [eb] at hc
    exact ⟨_, rfl, pushPlanRunWithCounts_built hb h hc⟩
  rw [if_neg hnoins]
  by_cases hbudget : replacementAlignCellBudget < satMul (slice old a b).length (slice new c d).length
  · rw [if_pos hbudget, hdel, hins]
    have hp := pushPairedReplacementRunsByPosition_built hb (i := b - a) (j := d - c) h
      (by omega) (by omega)
    rw [eb, ed] at hp
    exact ⟨_, rfl, hp⟩
  rw [if_neg hbudget]
  obtain ⟨hdle, hile⟩ := within_budget (length_pos_of_ne_nil hnodel)
    (length_pos_of_ne_nil hnoins) hbudget
  obtain ⟨ops, hops, hold, hnew⟩ := replacementAlignmentOps_spec pairCost _ _ hdle hile
  rw [hops]
  have hp := pushReplacementOps_built hb (o := a) (n := c) ops (i := 0) (j := 0) h
    (by rw [hold]; omega) (by rw [hnew]; omega)
  rw [hold, hnew, hdel, hins, add_zero, add_zero, eb, ed] at hp
  exact ⟨_, rfl, hp⟩

theorem buildLinearFallbackSideBySidePlan_tiles (pairCost : α → α → UInt32)
    (oldText newText : List Char) (hb : Bounded old new) :
    ∃ plan, buildLinearFallbackSideBySidePlan pairCost oldText newText old new = some plan ∧
      PlanTiles old new plan := by
  have he := commonEnds_spec old new
  have hl := he.left
  have hr := he.right
  have hh := he.head
  have ht := he.tail
  simp only [buildLinearFallbackSideBySidePlan]
  generalize commonEnds old new = ends at *
  have hhead : Covers old new ⟨0, 0⟩ (.context 0 0 ends.1) ⟨0 + ends.1, 0 + ends.1⟩ :=
    .context 0 0 _ (by omega) (by omega) (by simpa only [zero_add] using hh)
  simp only [zero_add] at hhead
  have hstart := pushPlanRunWithCounts_built hb (empty_built old new) hhead
  obtain ⟨st, hst, hmid⟩ := pushAlignedReplacementRuns_built pairCost hb hstart
    (b := old.length - ends.2) (d := new.length - ends.2) (by omega) (by omega) (by omega)
    (by omega)
  have eo : old.length - ends.2 + ends.2 = old.length := by omega
  have en : new.length - ends.2 + ends.2 = new.length := by omega
  have htail := Covers.context (x := old) (y := new) (old.length - ends.2)
    (new.length - ends.2) ends.2 (by omega) (by omega) (by rw [eo, en]; exact ht)
  rw [eo, en] at htail
  have hfull := pushPlanRunWithCounts_built hb hmid htail
  simp only [hst, bind_eq_bind, bind_some]
  exact ⟨_, rfl, finishPlan_tiles hb hfull _⟩

theorem differRun_spec (xs ys : List α) :
    differRun xs ys ≤ xs.length ∧ differRun xs ys ≤ ys.length ∧
      (xs[0]? ≠ ys[0]? → xs ≠ [] → ys ≠ [] → 0 < differRun xs ys) := by
  induction xs generalizing ys with
  | nil => simp [differRun]
  | cons x xs ih =>
    cases ys with
    | nil => simp [differRun]
    | cons y ys =>
      obtain ⟨h1, h2, _⟩ := ih ys
      by_cases h : x = y
      · simp [differRun, h]
      · simp only [differRun, h, if_false, length_cons]
        exact ⟨by omega, by omega, fun _ _ _ => by omega⟩

theorem slice_slideFrom (a b : ℕ) :
    slice old a (a + slideFrom old new a b) = slice new b (b + slideFrom old new a b) := by
  have h := take_commonPrefix (old.drop a) (new.drop b)
  have ea : a + slideFrom old new a b - a = slideFrom old new a b := by omega
  have eb : b + slideFrom old new a b - b = slideFrom old new a b := by omega
  simp only [slice, ea, eb]
  exact h

theorem slideFrom_pos {a : ℕ} (ha : a < old.length) (he : old[a]? = new[a]?) :
    0 < slideFrom old new a a := by
  have hx := getElem?_eq_getElem ha
  have hy := hx ▸ he
  by_contra hzero
  have hz : slideFrom old new a a = 0 := by omega
  have hmax := slideFrom_maximal old new (x := a) (y := a) (a := old[a])
  rw [hz, add_zero] at hmax
  exact hmax hx hy.symm

theorem sparseRuns_built (hb : Bounded old new) (hlen : old.length = new.length) (fuel : ℕ) :
    ∀ {ix changedLines : ℕ} {st st' : PlanState}, Built old new st ⟨ix, ix⟩ →
      ix ≤ old.length → old.length ≤ ix + fuel →
      sparseRuns old new fuel ix changedLines st = some st' →
      Built old new st' (.full old new) := by
  induction fuel with
  | zero =>
    intro ix changedLines st st' h hix hfuel hrun
    cases hrun
    obtain rfl : ix = old.length := by omega
    simpa only [Extent.full, ← hlen] using h
  | succ fuel ih =>
    intro ix changedLines st st' h hix hfuel hrun
    unfold sparseRuns at hrun
    split at hrun
    · rename_i hlt
      split at hrun
      · rename_i heq
        have hpos := slideFrom_pos hlt heq
        have hle := slideFrom_le_left old new ix ix
        have hc := Covers.context (x := old) (y := new) ix ix (slideFrom old new ix ix)
          (by omega) (by omega) (slice_slideFrom ix ix)
        exact ih (pushPlanRunWithCounts_built hb h hc) (by omega) (by omega) hrun
      · rename_i hne
        obtain ⟨hl, hr, hpos⟩ := differRun_spec (old.drop ix) (new.drop ix)
        simp only [length_drop] at hl hr
        have hpos := hpos (by simpa using hne) (by simpa using hlt) (by simpa using hlen ▸ hlt)
        simp only at hrun
        split at hrun
        · simp at hrun
        · have hc := Covers.modify (x := old) (y := new) ix ix
            (differRun (old.drop ix) (new.drop ix)) (by omega) (by omega)
          exact ih (pushPlanRunWithCounts_built hb h hc) (by omega) (by omega) hrun
    · cases hrun
      obtain rfl : ix = old.length := by omega
      simpa only [Extent.full, ← hlen] using h

theorem buildSparsePositionalSideBySidePlan_tiles {oldText newText : List Char}
    (hb : Bounded old new) {plan : FileDiffPlan}
    (h : buildSparsePositionalSideBySidePlan oldText newText old new = some plan) :
    PlanTiles old new plan := by
  unfold buildSparsePositionalSideBySidePlan at h
  split at h
  · simp at h
  · rename_i hlen
    split at h
    · simp at h
    · simp only [bind_eq_bind, bind_eq_some_iff, some.injEq] at h
      obtain ⟨st, hrun, rfl⟩ := h
      have hbuilt := sparseRuns_built hb (not_not.mp hlen) old.length (empty_built old new) (zero_le _)
        (le_add_left _ _) hrun
      exact finishPlan_tiles hb hbuilt _

theorem selectSideBySideEdits_spec (old new : List α) :
    ∃ edits, selectSideBySideEdits old new = some edits ∧ Script old new edits := by
  unfold selectSideBySideEdits
  simp only
  split
  · exact myersFallbackEdits_spec old new
  split
  · exact histogramEdits_spec old new
  · exact myersEdits_spec old new

omit [DecidableEq α] in
theorem kindRun_cons (kind : EditKind) (e : Edit α) (es : List (Edit α)) :
    kindRun kind (e :: es) = if e.kind = kind then kindRun kind es + 1 else 0 := by
  by_cases h : e.kind = kind <;> simp [kindRun, h]

omit [DecidableEq α] in
theorem script_equalRun {xs ys : List α} {es : List (Edit α)} (h : Script xs ys es) :
    kindRun .equal es ≤ xs.length ∧ kindRun .equal es ≤ ys.length ∧
      xs.take (kindRun .equal es) = ys.take (kindRun .equal es) ∧
      Script (xs.drop (kindRun .equal es)) (ys.drop (kindRun .equal es))
        (es.drop (kindRun .equal es)) := by
  induction h with
  | nil => exact ⟨le_refl _, le_refl _, rfl, .nil⟩
  | equal a _ ih =>
    obtain ⟨hl, hr, he, hs⟩ := ih
    simp only [kindRun_cons, Edit.ofEqual, if_true, length_cons, take_succ_cons, drop_succ_cons, he]
    exact ⟨by omega, by omega, trivial, hs⟩
  | delete a h _ => simpa [kindRun_cons, Edit.ofDelete] using Script.delete a h
  | insert a h _ => simpa [kindRun_cons, Edit.ofInsert] using Script.insert a h

omit [DecidableEq α] in
theorem script_deleteRun {xs ys : List α} {es : List (Edit α)} (h : Script xs ys es) :
    kindRun .delete es ≤ xs.length ∧
      Script (xs.drop (kindRun .delete es)) ys (es.drop (kindRun .delete es)) := by
  induction h with
  | nil => exact ⟨le_refl _, .nil⟩
  | delete a _ ih =>
    simp only [kindRun_cons, Edit.ofDelete, if_true, length_cons, drop_succ_cons]
    exact ⟨by omega, ih.2⟩
  | equal a h _ => simpa [kindRun_cons, Edit.ofEqual] using Script.equal a h
  | insert a h _ => simpa [kindRun_cons, Edit.ofInsert] using Script.insert a h

omit [DecidableEq α] in
theorem script_insertRun {xs ys : List α} {es : List (Edit α)} (h : Script xs ys es) :
    kindRun .insert es ≤ ys.length ∧
      Script xs (ys.drop (kindRun .insert es)) (es.drop (kindRun .insert es)) := by
  induction h with
  | nil => exact ⟨le_refl _, .nil⟩
  | insert a _ ih =>
    simp only [kindRun_cons, Edit.ofInsert, if_true, length_cons, drop_succ_cons]
    exact ⟨by omega, ih.2⟩
  | equal a h _ => simpa [kindRun_cons, Edit.ofEqual] using Script.equal a h
  | delete a h _ => simpa [kindRun_cons, Edit.ofDelete] using Script.delete a h

theorem pushDeletedRun_built (pairCost : α → α → UInt32) (hb : Bounded old new)
    {st : PlanState} {o n i j : ℕ} (h : Built old new st ⟨o, n⟩)
    (ho : o + i ≤ old.length) (hn : n + j ≤ new.length) :
    ∃ st', pushDeletedRun pairCost old new o i n j st = some st' ∧
      Built old new st' ⟨o + i, n + j⟩ := by
  unfold pushDeletedRun
  split
  · rename_i hz
    subst hz
    exact ⟨_, rfl, pushPlanRunWithCounts_built hb h (.remove _ _ _ ho)⟩
  · exact pushAlignedReplacementRuns_built pairCost hb h (by omega) ho (by omega) hn

theorem planFromEdits_built (pairCost : α → α → UInt32) (hb : Bounded old new) (fuel : ℕ) :
    ∀ {edits : List (Edit α)} {o n : ℕ} {st : PlanState}, Built old new st ⟨o, n⟩ →
      Script (old.drop o) (new.drop n) edits → edits.length ≤ fuel →
      ∃ st', planFromEdits pairCost old new fuel edits o n st = some st' ∧
        Built old new st' (.full old new) := by
  have hdone : ∀ {o n : ℕ} {st : PlanState}, Built old new st ⟨o, n⟩ →
      Script (old.drop o) (new.drop n) [] → Built old new st (.full old new) := by
    intro o n st h hs
    have hw := tiles_within h.tiles
    simp only [Extent.Within] at hw
    generalize hxs : old.drop o = xs at hs
    generalize hys : new.drop n = ys at hs
    cases hs
    have ho := drop_eq_nil_iff.mp hxs
    have hn := drop_eq_nil_iff.mp hys
    have eo : o = old.length := by omega
    have en : n = new.length := by omega
    rwa [eo, en] at h
  induction fuel with
  | zero =>
    intro edits o n st h hs hlen
    obtain rfl := length_eq_zero_iff.mp (le_zero.mp hlen)
    exact ⟨st, rfl, hdone h hs⟩
  | succ fuel ih =>
    intro edits o n st h hs hlen
    cases edits with
    | nil => exact ⟨st, rfl, hdone h hs⟩
    | cons edit rest =>
      have hw := tiles_within h.tiles
      simp only [Extent.Within] at hw
      simp only [length_cons] at hlen
      unfold planFromEdits
      cases hkind : edit.kind with
      | equal =>
        obtain ⟨hl, hr, he, hs'⟩ := script_equalRun hs
        have hpos : kindRun .equal (edit :: rest) = kindRun .equal rest + 1 := by
          rw [kindRun_cons, if_pos hkind]
        simp only [hpos, length_drop, drop_drop] at hl hr he hs' ⊢
        have hc := Covers.context (x := old) (y := new) o n (kindRun .equal rest + 1)
          (by omega) (by omega) (by simpa [slice, Nat.add_sub_cancel_left] using he)
        exact ih (pushPlanRunWithCounts_built hb h hc) hs' (by simp; omega)
      | delete =>
        obtain ⟨hl, hs'⟩ := script_deleteRun hs
        obtain ⟨hr, hs''⟩ := script_insertRun hs'
        have hpos : kindRun .delete (edit :: rest) = kindRun .delete rest + 1 := by
          rw [kindRun_cons, if_pos hkind]
        simp only [hpos, length_drop, drop_drop] at hl hr hs'' ⊢
        obtain ⟨st', hpush, hbuilt⟩ := pushDeletedRun_built pairCost hb
          (i := kindRun .delete rest + 1)
          (j := kindRun .insert ((edit :: rest).drop (kindRun .delete rest + 1))) h
          (by omega) (by omega)
        simp only [hpush, bind_eq_bind, bind_some]
        exact ih hbuilt hs'' (by simp; omega)
      | insert =>
        obtain ⟨hr, hs'⟩ := script_insertRun hs
        have hpos : kindRun .insert (edit :: rest) = kindRun .insert rest + 1 := by
          rw [kindRun_cons, if_pos hkind]
        simp only [hpos, length_drop, drop_drop] at hr hs' ⊢
        have hc := Covers.add (x := old) (y := new) o n (kindRun .insert rest + 1) (by omega)
        exact ih (pushPlanRunWithCounts_built hb h hc) hs' (by simp; omega)

theorem buildSideBySidePlan_tiles (pairCost : α → α → UInt32) (oldText newText : List Char)
    (hb : Bounded old new) :
    ∃ plan, buildSideBySidePlan pairCost oldText newText old new = some plan ∧
      PlanTiles old new plan := by
  unfold buildSideBySidePlan
  split
  · exact buildLinearFallbackSideBySidePlan_tiles pairCost oldText newText hb
  split
  · rename_i plan hplan
    exact ⟨plan, rfl, buildSparsePositionalSideBySidePlan_tiles hb hplan⟩
  · obtain ⟨edits, hedits, hs⟩ := selectSideBySideEdits_spec old new
    obtain ⟨st, hst, hbuilt⟩ := planFromEdits_built pairCost hb edits.length (empty_built old new)
      (by simpa using hs) le_rfl
    simp only [hedits, hst, bind_eq_bind, bind_some]
    exact ⟨_, rfl, finishPlan_tiles hb hbuilt _⟩

end

def sideBySidePlan (replacementPairCost : List Char → List Char → UInt32) (old new : Str) :
    Option FileDiffPlan :=
  buildSideBySidePlan replacementPairCost old.chars new.chars old.lines new.lines

theorem side_by_side_plan_tiles (replacementPairCost : List Char → List Char → UInt32)
    (old new : Str) :
    ∃ plan, sideBySidePlan replacementPairCost old new = some plan ∧
      PlanTiles old.lines new.lines plan :=
  buildSideBySidePlan_tiles replacementPairCost old.chars new.chars
    ⟨old.lines_bounded, new.lines_bounded⟩

end GitComet.FileDiff
