import GitComet.Merge.Trim
import GitComet.Merge.Blocks
import GitComet.Merge.Contributors

namespace GitComet.Merge
open Text Columns List Option

-- Without barriers a cursor is always its line counter, and no cell of its source is left from
-- there up to the row being looked at.
structure TrimInvariant (texts : Sources) (n look : ℕ) (st : TrimState) : Prop where
  size : st.rows.length = n
  computed : Computed texts st.rows
  bound : ∀ s, st.line.at s ≤ look
  synced : ∀ s, st.cursor.at s = st.line.at s
  clear : ∀ s i, st.line.at s ≤ i → i < look → cellOf st.rows i s = none

section
variable {ctx : TrimContext} {n look : ℕ} {st st' : TrimState}
  {stage : TrimStage} {move : TrimMove}

theorem pairRules_distinct {rule : PairRule} (h : rule ∈ pairRules) : rule.first ≠ rule.second := by
  simp only [pairRules, mem_cons, not_mem_nil, or_false] at h
  rcases h with rfl | rfl | rfl <;> decide

structure OpenMove (look : ℕ) (st : TrimState) (move : TrimMove) : Prop where
  safe : MoveSafe st.rows look move
  before : move.target < look
  next : move.nextLine = move.target + 1

section
variable (h : TrimInvariant ctx.texts n look st)
include h

theorem singleMove_open {source : MergeSource}
    (hlt : st.line.at source < look) : OpenMove look st (singleMove source st) := by
  have hsync := h.synced source
  refine ⟨⟨?_, by simp [singleMove], ?_⟩, ?_, ?_⟩
  · simp only [singleMove]
    omega
  · intro s hs i hi hil
    rw [singleMove, mem_singleton] at hs
    subst hs
    simp only [singleMove] at hi
    exact h.clear s i (by omega) hil
  · simp only [singleMove]
    omega
  · simp only [singleMove]
    omega

theorem pairTarget_open (rule : PairRule) :
    pairTarget st rule = max (st.line.at rule.first) (st.line.at rule.second) := by
  rw [pairTarget, h.synced, h.synced]
  split <;> omega

theorem jointMove_open {rule : PairRule}
    (hrule : rule ∈ pairRules) (hfirst : st.line.at rule.first < look)
    (hsecond : st.line.at rule.second < look) : OpenMove look st (jointMove st rule) := by
  have htarget := pairTarget_open h rule
  refine ⟨⟨?_, ?_, ?_⟩, ?_, ?_⟩
  · simp only [jointMove]
    omega
  · simpa [jointMove] using pairRules_distinct hrule
  · intro s hs i hi hil
    simp only [jointMove, mem_cons, not_mem_nil, or_false] at hs hi
    refine h.clear s i ?_ hil
    rcases hs with rfl | rfl <;> omega
  · simp only [jointMove]
    omega
  · simp only [jointMove]
    omega

theorem stageTaken_open (ht : StageTaken ctx look st stage move) : OpenMove look st move := by
  cases stage with
  | join source =>
    obtain ⟨rfl, hlt, -⟩ := ht
    exact singleMove_open h hlt
  | free source =>
    obtain ⟨rfl, row, -, hready⟩ := ht
    simp only [freeReady, Bool.and_eq_true, decide_eq_true_iff] at hready
    exact singleMove_open h hready.1.1.1.1
  | pair =>
    obtain ⟨row, rule, hrule, rfl, -, hready⟩ := ht
    simp only [pairReady, Bool.and_eq_true, decide_eq_true_iff] at hready
    exact jointMove_open h hrule hready.1.1.1.1.1.1 hready.1.1.1.1.1.2

theorem trimInvariant_move
    (hm : OpenMove look st move) (he : MoveEffect ctx.texts look move st st') :
    TrimInvariant ctx.texts n look st' := by
  have hbefore := hm.before
  have hnext := hm.next
  refine ⟨he.size.trans h.size, he.computed h.computed, fun s => ?_, fun s => ?_,
    fun s i hi hil => ?_⟩
  · rw [he.line]
    split
    · omega
    · exact h.bound s
  · rw [he.cursor, he.line, hnext]
    split
    · rfl
    · exact h.synced s
  · rw [he.line] at hi
    rw [he.cells]
    by_cases hs : s ∈ move.sources
    · rw [if_pos hs] at hi ⊢
      rw [if_neg (by omega), if_neg (by omega)]
      exact hm.safe.clear s hs i (by omega) hil
    · rw [if_neg hs] at hi ⊢
      exact h.clear s i hi hil

theorem trimInvariant_settle
    (hs : Settled look st st') : TrimInvariant ctx.texts n (look + 1) st' := by
  refine ⟨hs.rows ▸ h.size, hs.rows ▸ h.computed, fun s => ?_, fun s => ?_,
    fun s i hi hil => ?_⟩
  · have := h.bound s
    rw [hs.line]
    split <;> omega
  · rw [hs.cursor, hs.line, h.synced]
  · rw [hs.rows]
    rw [hs.line] at hi
    split at hi
    · omega
    · rename_i hnone
      rcases Nat.lt_succ_iff_lt_or_eq.mp hil with hlt | rfl
      · exact h.clear s i hi hlt
      · simpa using hnone

theorem openMove_applies (hlook : look < n) (hm : OpenMove look st move) :
    ∃ st', applyMove ctx.texts look move st = some st' ∧ MoveEffect ctx.texts look move st st' := by
  have hsize := h.size
  have hbefore := hm.before
  exact applyMove_spec ctx.texts hm.safe.distinct (by omega) (by omega)

end

-- A pass keeps `K` when every move a stage can take keeps it and passing a row keeps it.
structure OpenRule (ctx : TrimContext) (n : ℕ) (K : ℕ → TrimState → Prop) : Prop where
  move : ∀ look st st' stage move, look < n → TrimInvariant ctx.texts n look st →
    K look st → StageTaken ctx look st stage move → OpenMove look st move →
    MoveEffect ctx.texts look move st st' → K look st'
  settle : ∀ look st st', look < n → TrimInvariant ctx.texts n look st → K look st →
    Settled look st st' → K (look + 1) st'

theorem trimStep_open {K : ℕ → TrimState → Prop} (hopen : ctx.barriers.isEmpty)
    (hK : OpenRule ctx n K) (hlook : look < n) (h : TrimInvariant ctx.texts n look st)
    (hk : K look st) :
    ∃ st', trimStep ctx look st = some st' ∧ TrimInvariant ctx.texts n (look + 1) st' ∧
      K (look + 1) st' := by
  obtain ⟨st1, e1, h1, hk1⟩ := runStages_rule (c := ctx) (l := look)
    (P := fun st => TrimInvariant ctx.texts n look st ∧ K look st)
    (fun st stage h => stageMove_defined ctx (h.1.size ▸ hlook) (fun s hs => by
      rw [h.1.synced, h.1.size]
      omega) stage)
    (fun st stage move h ht => by
      have hm := stageTaken_open h.1 ht
      obtain ⟨st', e', he⟩ := openMove_applies h.1 hlook hm
      exact ⟨st', e', trimInvariant_move h.1 hm he,
        hK.move look st st' stage move hlook h.1 h.2 ht hm he⟩)
    trimStages st ⟨h, hk⟩
  obtain ⟨st2, e2, hs⟩ := settleRow_spec (l := look) (t := st1) (h1.size ▸ hlook)
  refine ⟨st2, ?_, trimInvariant_settle h1 hs, hK.settle look st1 st2 hlook h1 hk1 hs⟩
  simp only [trimStep, hopen, if_true, e1, bind_eq_bind, bind_some]
  exact e2

theorem openRule_true : OpenRule ctx n fun _ _ => True :=
  ⟨fun _ _ _ _ _ _ _ _ _ _ _ => trivial, fun _ _ _ _ _ _ _ => trivial⟩

theorem openRule_covers (lens : MergeSource → ℕ) :
    OpenRule ctx n fun _ st => ∀ s, CoversLine s st.rows 0 (lens s) := by
  refine ⟨?_, ?_⟩
  · intro look st st' stage move hlook h hk _ hm he s
    exact covers_effect hm.safe he (h.size ▸ hlook) (hk s)
  · intro look st st' _ _ hk hs s
    exact hs.rows ▸ hk s

end

variable {texts : Sources} {rows : List AlignedRow}

theorem covers_occupied {s : MergeSource} {lo hi : ℕ}
    (h : CoversLine s rows lo hi) : CoversLine s (occupiedRows texts rows) lo hi := by
  refine (covers_map fun row => line_recompute texts row s).mpr (covers_filter ?_ h)
  intro row _ hocc
  cases hline : row.line s with
  | none => rfl
  | some line => exact absurd (occupied_iff.mpr ⟨s, line, hline⟩) (by simp [hocc])

theorem computed_occupied (texts : Sources) (rows : List AlignedRow) :
    Computed texts (occupiedRows texts rows) := by
  intro row hrow
  obtain ⟨row, -, rfl⟩ := mem_map.mp hrow
  exact recompute_idem texts row

theorem occupied_occupiedRows (texts : Sources) (rows : List AlignedRow) :
    ∀ row ∈ occupiedRows texts rows, row.occupied := by
  intro row hrow
  obtain ⟨row, hmem, rfl⟩ := mem_map.mp hrow
  rw [occupied_recompute]
  exact (mem_filter.mp hmem).2

theorem trimInvariant_start
    (hcomputed : Computed texts rows) : TrimInvariant texts rows.length 0 ⟨rows, .zero, .zero⟩ :=
  ⟨rfl, hcomputed, fun s => by simp, fun s => rfl, fun s i _ hi => by omega⟩

variable {barriers : AlignmentBarriers}

theorem trimRows_rule {t : Sources} {r : List AlignedRow}
    {K : ℕ → TrimState → Prop} (hopen : barriers.isEmpty)
    (hK : OpenRule ⟨t, barriers, (occupiedRows t r).map barriers.rowSegment⟩
      (occupiedRows t r).length K) (hstart : K 0 ⟨occupiedRows t r, .zero, .zero⟩) :
    ∃ st, trimRows t barriers r = some (occupiedRows t st.rows) ∧
      TrimInvariant t (occupiedRows t r).length (occupiedRows t r).length st ∧
      K (occupiedRows t r).length st := by
  have hcomputed := computed_occupied t r
  have hinv := trimInvariant_start hcomputed
  by_cases hempty : (occupiedRows t r).isEmpty
  · refine ⟨⟨occupiedRows t r, .zero, .zero⟩, ?_, ?_, ?_⟩
    · simp only [trimRows, hempty, if_true]
      rw [List.isEmpty_iff.mp hempty]
      rfl
    · rw [List.isEmpty_iff.mp hempty] at hinv ⊢
      exact hinv
    · rw [List.isEmpty_iff.mp hempty] at hstart ⊢
      exact hstart
  · obtain ⟨st, hrun, hfinal, hk⟩ := trimLoop_rule
      (c := ⟨t, barriers, (occupiedRows t r).map barriers.rowSegment⟩)
      (P := fun look st => TrimInvariant t (occupiedRows t r).length look st ∧
        K look st)
      (fun look st hlook h => trimStep_open hopen hK hlook h.1 h.2)
      (occupiedRows t r).length 0 _ (by omega) ⟨hinv, hstart⟩
    refine ⟨st, ?_, hfinal, hk⟩
    simp only [trimRows, hempty, hrun, bind_eq_bind, bind_some]
    rfl

structure TidyRows (texts : Sources) (rows : List AlignedRow) : Prop where
  computed : Computed texts rows
  occupied : ∀ row ∈ rows, row.occupied = true

theorem tidy_occupiedRows (texts : Sources) (rows : List AlignedRow) :
    TidyRows texts (occupiedRows texts rows) :=
  ⟨computed_occupied texts rows, occupied_occupiedRows texts rows⟩

theorem trimRows_tidy {out : List AlignedRow} (h : trimRows texts barriers rows = some out) :
    TidyRows texts out := by
  simp only [trimRows, bind_eq_bind] at h
  split at h
  · cases h
    exact tidy_occupiedRows texts rows
  · obtain ⟨st, -, h⟩ := bind_eq_some_iff.mp h
    cases h
    exact tidy_occupiedRows texts st.rows

theorem trimRows_defined (texts : Sources)
    (hopen : barriers.isEmpty) (rows : List AlignedRow) :
    ∃ out, trimRows texts barriers rows = some out ∧ TidyRows texts out := by
  obtain ⟨st, hrun, -⟩ := trimRows_rule (t := texts) (r := rows) hopen openRule_true trivial
  exact ⟨_, hrun, tidy_occupiedRows texts st.rows⟩

end GitComet.Merge

namespace GitComet.Merge
open LinkedArena Text Columns

inductive ConflictStyle where
  | merge
  | diff3
  | zdiff3
  deriving DecidableEq

inductive MergeStrategy where
  | normal
  | ours
  | theirs
  | union
  deriving DecidableEq

structure MergeLabels where
  ours : Option (List Char)
  base : Option (List Char)
  theirs : Option (List Char)

def defaultMarkerSize : ℕ := 7

structure MergeOptions where
  style : ConflictStyle
  strategy : MergeStrategy
  labels : MergeLabels
  markerSize : ℕ
  diffAlgorithm : DiffAlgorithm
  alignContributors : Bool

def MergeOptions.default : MergeOptions :=
  { style := .merge
    strategy := .normal
    labels := ⟨none, none, none⟩
    markerSize := defaultMarkerSize
    diffAlgorithm := .myers
    alignContributors := true }

structure MergePlan where
  base : Option (List Char)
  ours : List Char
  theirs : List Char
  rows : List AlignedRow
  blocks : List MergeBlock
  unresolvedBlocks : List ℕ
  lineEnding : List Char

structure PlanTexts where
  a : List Char
  b : List Char
  c : List Char

def planTexts (base : Option (List Char)) (ours theirs : List Char) : PlanTexts :=
  match base with
  | some base => ⟨base, ours, theirs⟩
  | none => ⟨ours, theirs, []⟩

def PlanTexts.sources (texts : PlanTexts) : Sources :=
  ⟨splitLines texts.a, splitLines texts.b, splitLines texts.c⟩

def PlanTexts.differ (texts : PlanTexts) : Bool :=
  decide (texts.a ≠ texts.b) && decide (texts.a ≠ texts.c) && decide (texts.b ≠ texts.c)

def countLineFeeds (text : List Char) : ℕ × ℕ :=
  ((text.zip text.tail).countP fun pair => decide (pair = ('\r', '\n')),
    text.countP fun c => decide (c = '\n'))

def detectLineEnding (base : Option (List Char)) (ours theirs : List Char) : List Char :=
  let counts := [base.getD [], ours, theirs].map countLineFeeds
  let crlf := (counts.map Prod.fst).sum
  let lf := (counts.map fun count => count.2 - count.1).sum
  if lf < crlf then ['\r', '\n'] else ['\n']

def sourceIndicesAreCompleteAndOrdered (rows : List AlignedRow) (source : MergeSource)
    (expectedLen : ℕ) : Bool :=
  decide (rows.filterMap (fun row => row.line source) = List.range expectedLen)

def exactBaseAnchorPairs (rows : List AlignedRow) (contributor : MergeSource) : List (ℕ × ℕ) :=
  rows.filterMap fun row => do
    let base ← row.a
    let contributorLine ← row.line contributor
    if row.equal .a contributor then some (base, contributorLine) else none

def ascending (pairs : List (ℕ × ℕ)) : Bool :=
  decide ((pairs.map Prod.fst).IsChain (· < ·))

def anchorWalk : List (ℕ × ℕ) → List (ℕ × ℕ) → Bool
  | [], _ => true
  | wanted :: baseline, candidate =>
    let candidate := candidate.dropWhile fun found => decide (found.1 < wanted.1)
    if candidate.head? = some wanted then anchorWalk baseline candidate else false

def baseAnchorPairsSubset (baseline candidate : List AlignedRow) (contributor : MergeSource) :
    Bool :=
  let wanted := exactBaseAnchorPairs baseline contributor
  let found := exactBaseAnchorPairs candidate contributor
  if !ascending wanted || !ascending found then wanted.all fun pair => decide (pair ∈ found)
  else anchorWalk wanted found

theorem mem_dropWhile_of {p : α → Bool} {xs : List α} (h : x ∈ xs) (hx : p x = false) :
    x ∈ xs.dropWhile p := by
  rw [← List.takeWhile_append_dropWhile (p := p) (l := xs), List.mem_append] at h
  exact h.resolve_left fun hmem =>
    absurd ((List.all_eq_true.mp List.all_takeWhile x hmem).symm.trans hx) (by decide)

theorem anchorWalk_iff {wanted found : List (ℕ × ℕ)}
    (hwanted : wanted.Pairwise fun a b => a.1 < b.1)
    (hfound : found.Pairwise fun a b => a.1 < b.1) :
    anchorWalk wanted found ↔ ∀ pair ∈ wanted, pair ∈ found := by
  induction wanted generalizing found with
  | nil => simp [anchorWalk]
  | cons first wanted ih =>
    obtain ⟨hfirst, hwanted⟩ := List.pairwise_cons.mp hwanted
    have hsub := List.dropWhile_sublist (fun pair : ℕ × ℕ => decide (pair.1 < first.1)) (l := found)
    have hkeep : ∀ pair ∈ found, first.1 ≤ pair.1 →
        pair ∈ found.dropWhile fun pair => decide (pair.1 < first.1) := fun pair hpair hle =>
      mem_dropWhile_of hpair (decide_eq_false (Nat.not_lt.mpr hle))
    have hrest := hfound.sublist hsub
    rw [anchorWalk, List.forall_mem_cons]
    by_cases hhead : (found.dropWhile fun pair => decide (pair.1 < first.1)).head? = some first
    · rw [if_pos hhead, ih hwanted hrest]
      exact ⟨fun h => ⟨hsub.subset (List.mem_of_head? hhead),
          fun pair hpair => hsub.subset (h pair hpair)⟩,
        fun h pair hpair => hkeep pair (h.2 pair hpair) (Nat.le_of_lt (hfirst pair hpair))⟩
    · rw [if_neg hhead]
      refine ⟨fun h => (by cases h), fun h => ?_⟩
      have hmem := hkeep first h.1 (Nat.le_refl _)
      cases hdrop : found.dropWhile fun pair => decide (pair.1 < first.1) with
      | nil => rw [hdrop] at hmem; cases hmem
      | cons head tail =>
        have hstop := List.head_dropWhile_not (l := found)
          (fun pair : ℕ × ℕ => decide (pair.1 < first.1)) (by rw [hdrop]; simp)
        simp only [hdrop, List.head_cons, decide_eq_false_iff_not] at hstop
        rw [hdrop] at hmem hhead hrest
        rcases List.mem_cons.mp hmem with rfl | htail
        · exact absurd rfl hhead
        · exact absurd ((List.pairwise_cons.mp hrest).1 first htail) hstop

theorem ascending_iff {pairs : List (ℕ × ℕ)} :
    ascending pairs ↔ pairs.Pairwise fun a b => a.1 < b.1 := by
  rw [ascending, decide_eq_true_eq, List.isChain_iff_pairwise, List.pairwise_map]

theorem mem_exactBaseAnchorPairs {rows : List AlignedRow} {contributor : MergeSource}
    {pair : ℕ × ℕ} : pair ∈ exactBaseAnchorPairs rows contributor ↔
      ∃ row ∈ rows, row.a = some pair.1 ∧ row.line contributor = some pair.2 ∧
        row.equal .a contributor := by
  simp only [exactBaseAnchorPairs, List.mem_filterMap, Option.bind_eq_bind, Option.bind_eq_some_iff,
    Option.ite_none_right_eq_some, Option.some.injEq]
  constructor
  · rintro ⟨row, hrow, base, hbase, line, hline, hequal, rfl⟩
    exact ⟨row, hrow, hbase, hline, hequal⟩
  · rintro ⟨row, hrow, hbase, hline, hequal⟩
    exact ⟨row, hrow, pair.1, hbase, pair.2, hline, hequal, rfl⟩

theorem anchor_subset_is_inclusion (baseline candidate : List AlignedRow)
    (contributor : MergeSource) :
    baseAnchorPairsSubset baseline candidate contributor = true ↔
      ∀ row ∈ baseline, ∀ base line, row.a = some base → row.line contributor = some line →
        row.equal .a contributor = true →
        ∃ kept ∈ candidate, kept.a = some base ∧ kept.line contributor = some line ∧
          kept.equal .a contributor = true := by
  have hinclusion : baseAnchorPairsSubset baseline candidate contributor = true ↔
      ∀ pair ∈ exactBaseAnchorPairs baseline contributor,
        pair ∈ exactBaseAnchorPairs candidate contributor := by
    rw [baseAnchorPairsSubset]
    split
    · simp only [List.all_eq_true, decide_eq_true_eq]
    · rename_i hboth
      simp only [Bool.or_eq_true, Bool.not_eq_true', not_or, Bool.not_eq_false] at hboth
      exact anchorWalk_iff (ascending_iff.mp hboth.1) (ascending_iff.mp hboth.2)
  rw [hinclusion]
  simp only [mem_exactBaseAnchorPairs]
  constructor
  · intro h row hrow base line hbase hline hequal
    exact h (base, line) ⟨row, hrow, hbase, hline, hequal⟩
  · rintro h pair ⟨row, hrow, hbase, hline, hequal⟩
    exact h row hrow pair.1 pair.2 hbase hline hequal

def contributorAlignmentPreservesBaseAnchors (texts : Sources)
    (baseline candidate : List AlignedRow) : Bool :=
  sourceIndicesAreCompleteAndOrdered candidate .a texts.a.length &&
    sourceIndicesAreCompleteAndOrdered candidate .b texts.b.length &&
    sourceIndicesAreCompleteAndOrdered candidate .c texts.c.length &&
    baseAnchorPairsSubset baseline candidate .b && baseAnchorPairsSubset baseline candidate .c

def pinHolds (rows : List AlignedRow) (entry : ManualAlignment) (threeWay : Bool) :
    List MergeSource → Option ℕ → Bool
  | [], _ => true
  | source :: sources, anchor =>
    let range := entry.sourceRange source threeWay
    if range.isEmpty then pinHolds rows entry threeWay sources anchor
    else match rows.findIdx? fun row => decide (row.line source = some range.start) with
      | none => false
      | some index =>
        match anchor with
        | none => pinHolds rows entry threeWay sources (some index)
        | some anchor =>
          if anchor = index then pinHolds rows entry threeWay sources (some anchor) else false

def alignmentPreservesManualPins (rows : List AlignedRow) (entries : ManualAlignmentList)
    (threeWay : Bool) : Bool :=
  entries.all fun entry => pinHolds rows entry threeWay [.a, .b, .c] none

structure PlanInput where
  texts : Sources
  threeWay : Bool
  algorithm : DiffAlgorithm
  entries : ManualAlignmentList

def PlanInput.barriers (input : PlanInput) : AlignmentBarriers :=
  .new input.entries input.threeWay

def PlanInput.chunks (input : PlanInput) (left right : MergeSource) : Option (List PairChunk) :=
  diffChunksSegmented input.algorithm (input.texts.lines left) (input.texts.lines right)
    (alignmentSegments input.entries input.threeWay left (input.texts.lines left).length right
      (input.texts.lines right).length)

def twoInputList (input : PlanInput) : Option RowList := do
  let chunks ← input.chunks .a .b
  let list ← buildAb chunks 0 0 .empty
  some (list.recomputeRows input.texts)

def baseAlignedRows (input : PlanInput) : Option (List AlignedRow) := do
  let list ← twoInputList input
  let chunks ← input.chunks .a .c
  let list ← integrateAc chunks 0 0 list list.first
  (list.recomputeRows input.texts).intoRows

def baselineList (input : PlanInput) : Option RowList := do
  let rows ← baseAlignedRows input
  let firstTrim ← trimRows input.texts input.barriers rows
  let list ← RowList.fromRows firstTrim .empty
  some (list.recomputeRows input.texts)

def candidateRows (input : PlanInput) (list : RowList) : Option (List AlignedRow) := do
  let chunks ← input.chunks .b .c
  let list ← integrateBc input.texts chunks list
  let rows ← (list.recomputeRows input.texts).intoRows
  trimRows input.texts input.barriers rows

def acceptCandidate (input : PlanInput) (baseline candidate : List AlignedRow) : Bool :=
  contributorAlignmentPreservesBaseAnchors input.texts baseline candidate &&
    alignmentPreservesManualPins candidate input.entries input.threeWay

def alignedRows (input : PlanInput) (list : RowList) : Option (List AlignedRow) := do
  let baseline ← list.intoRows
  let candidate ← candidateRows input list
  some (if acceptCandidate input baseline candidate then candidate else baseline)

def planRows (input : PlanInput) (alignContributors : Bool) : Option (List AlignedRow) :=
  if input.threeWay then do
    let list ← baselineList input
    if alignContributors then alignedRows input list else list.intoRows
  else do
    let list ← twoInputList input
    list.intoRows

def buildMergePlanWithAlignments (base : Option (List Char)) (ours theirs : List Char)
    (options : MergeOptions) (alignments : ManualAlignmentList) : Option MergePlan := do
  let texts := planTexts base ours theirs
  let input : PlanInput := ⟨texts.sources, base.isSome, options.diffAlgorithm, alignments⟩
  let rows ← planRows input (options.alignContributors && texts.differ)
  let blocks ← buildBlocks texts.sources base.isSome rows
  some
    { base := base
      ours := ours
      theirs := theirs
      rows := rows
      blocks := blocks
      unresolvedBlocks := unresolvedBlocks blocks
      lineEnding := detectLineEnding base ours theirs }

def buildMergePlanWithOptionalBase (base : Option (List Char)) (ours theirs : List Char)
    (options : MergeOptions) : Option MergePlan :=
  buildMergePlanWithAlignments base ours theirs options []

end GitComet.Merge
