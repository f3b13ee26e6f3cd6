import GitComet.Merge.Integrate

namespace GitComet.Merge
open Text Columns List Option

structure Counters where
  a : ℕ
  b : ℕ
  c : ℕ
  deriving DecidableEq

def Counters.zero : Counters := ⟨0, 0, 0⟩

def Counters.at (counters : Counters) : MergeSource → ℕ
  | .a => counters.a
  | .b => counters.b
  | .c => counters.c

def Counters.set (counters : Counters) (source : MergeSource) (n : ℕ) : Counters :=
  match source with
  | .a => { counters with a := n }
  | .b => { counters with b := n }
  | .c => { counters with c := n }

def Counters.setAll (counters : Counters) (sources : List MergeSource) (n : ℕ) : Counters :=
  sources.foldl (fun acc source => acc.set source n) counters

structure TrimState where
  rows : List AlignedRow
  cursor : Counters
  line : Counters

structure TrimContext where
  texts : Sources
  barriers : AlignmentBarriers
  rowSegments : List ℕ

structure TrimMove where
  sources : List MergeSource
  target : ℕ
  nextLine : ℕ
  deriving DecidableEq

inductive TrimStage where
  | join (source : MergeSource)
  | free (source : MergeSource)
  | pair
  deriving DecidableEq

def trimStages : List TrimStage :=
  [.join .a, .join .b, .join .c, .free .a, .free .b, .free .c, .pair]

def others : MergeSource → MergeSource × MergeSource
  | .a => (.b, .c)
  | .b => (.a, .c)
  | .c => (.a, .b)

def allowsMove (ctx : TrimContext) (source : MergeSource) (line : Option ℕ) (target : ℕ) : Bool :=
  match line with
  | none => true
  | some line =>
    if ctx.barriers.isEmpty then true
    else match ctx.rowSegments[target]? with
      | none => true
      | some segment => decide (ctx.barriers.segment source line = segment)

def joinReady (ctx : TrimContext) (source : MergeSource) (cursor : ℕ) (row target : AlignedRow) :
    Bool :=
  let anchor := (others source).1
  (target.line anchor).isSome && target.whitespaceEqual anchor (others source).2 &&
    lineEqual (row.line source) (target.line anchor) (ctx.texts.lines source)
      (ctx.texts.lines anchor) && allowsMove ctx source (row.line source) cursor

def singleMove (source : MergeSource) (st : TrimState) : TrimMove :=
  ⟨[source], st.cursor.at source, st.line.at source + 1⟩

def joinMove (ctx : TrimContext) (look : ℕ) (source : MergeSource) (st : TrimState) :
    Option (Option TrimMove) := do
  let row ← st.rows[look]?
  if st.line.at source < look && (row.line source).isSome then
    let target ← st.rows[st.cursor.at source]?
    some (if joinReady ctx source (st.cursor.at source) row target then
      some (singleMove source st) else none)
  else some none

def freeReady (ctx : TrimContext) (look : ℕ) (source : MergeSource) (row : AlignedRow)
    (st : TrimState) : Bool :=
  decide (st.line.at source < look) && (row.line source).isSome &&
    !row.whitespaceEqual source (others source).1 &&
    !row.whitespaceEqual source (others source).2 &&
    allowsMove ctx source (row.line source) (st.cursor.at source)

def freeMove (ctx : TrimContext) (look : ℕ) (source : MergeSource) (st : TrimState) :
    Option (Option TrimMove) := do
  let row ← st.rows[look]?
  some (if freeReady ctx look source row st then some (singleMove source st) else none)

structure PairRule where
  first : MergeSource
  second : MergeSource
  apart : MergeSource × MergeSource

def pairRules : List PairRule :=
  [⟨.a, .b, (.a, .c)⟩, ⟨.a, .c, (.a, .b)⟩, ⟨.b, .c, (.a, .c)⟩]

def pairTarget (st : TrimState) (rule : PairRule) : ℕ :=
  if st.line.at rule.second < st.line.at rule.first then st.cursor.at rule.first
  else st.cursor.at rule.second

def pairReady (ctx : TrimContext) (look : ℕ) (row : AlignedRow) (st : TrimState)
    (rule : PairRule) : Bool :=
  decide (st.line.at rule.first < look) && decide (st.line.at rule.second < look) &&
    (row.line rule.first).isSome && row.whitespaceEqual rule.first rule.second &&
    !row.whitespaceEqual rule.apart.1 rule.apart.2 &&
    allowsMove ctx rule.first (row.line rule.first) (pairTarget st rule) &&
    allowsMove ctx rule.second (row.line rule.second) (pairTarget st rule)

def jointMove (st : TrimState) (rule : PairRule) : TrimMove :=
  ⟨[rule.first, rule.second], pairTarget st rule,
    max (st.line.at rule.first) (st.line.at rule.second) + 1⟩

def pairMove (ctx : TrimContext) (look : ℕ) (st : TrimState) : Option (Option TrimMove) := do
  let row ← st.rows[look]?
  some ((pairRules.find? (pairReady ctx look row st)).map (jointMove st))

def stageMove (ctx : TrimContext) (look : ℕ) : TrimStage → TrimState → Option (Option TrimMove)
  | .join source => joinMove ctx look source
  | .free source => freeMove ctx look source
  | .pair => pairMove ctx look

def takeLines (look target : ℕ) : List MergeSource → List AlignedRow → Option (List AlignedRow)
  | [], rows => some rows
  | source :: sources, rows => do
    let row ← rows[look]?
    let rows := rows.set look (row.setLine source none)
    let dest ← rows[target]?
    takeLines look target sources (rows.set target (dest.setLine source (row.line source)))

def recomputeAt (texts : Sources) (index : ℕ) (rows : List AlignedRow) :
    Option (List AlignedRow) := do
  let row ← rows[index]?
  some (rows.set index (recomputeRowMetadata texts row))

def applyMove (texts : Sources) (look : ℕ) (move : TrimMove) (st : TrimState) :
    Option TrimState := do
  let rows ← takeLines look move.target move.sources st.rows
  let rows ← recomputeAt texts move.target rows
  let rows ← recomputeAt texts look rows
  some ⟨rows, st.cursor.setAll move.sources (move.target + 1),
    st.line.setAll move.sources move.nextLine⟩

def runStage (ctx : TrimContext) (look : ℕ) (stage : TrimStage) (st : TrimState) :
    Option TrimState := do
  let move ← stageMove ctx look stage st
  match move with
  | none => some st
  | some move => applyMove ctx.texts look move st

def runStages (ctx : TrimContext) (look : ℕ) : List TrimStage → TrimState → Option TrimState
  | [], st => some st
  | stage :: stages, st => do
    let st ← runStage ctx look stage st
    runStages ctx look stages st

def advanceCursor (rowSegments : List ℕ) (wanted look : ℕ) : ℕ → ℕ → Option ℕ
  | 0, cursor => some cursor
  | fuel + 1, cursor =>
    if cursor < look then do
      let segment ← rowSegments[cursor]?
      if segment < wanted then advanceCursor rowSegments wanted look fuel (cursor + 1)
      else some cursor
    else some cursor

def advanceCursors (ctx : TrimContext) (look : ℕ) (st : TrimState) : Option TrimState := do
  let wanted ← ctx.rowSegments[look]?
  let a ← advanceCursor ctx.rowSegments wanted look look st.cursor.a
  let b ← advanceCursor ctx.rowSegments wanted look look st.cursor.b
  let c ← advanceCursor ctx.rowSegments wanted look look st.cursor.c
  some { st with cursor := ⟨a, b, c⟩ }

def settleSource (look : ℕ) (row : AlignedRow) (st : TrimState) (source : MergeSource) :
    TrimState :=
  if (row.line source).isSome then
    { st with cursor := st.cursor.set source (look + 1), line := st.line.set source (look + 1) }
  else st

def settleRow (look : ℕ) (st : TrimState) : Option TrimState := do
  let row ← st.rows[look]?
  some ([MergeSource.a, .b, .c].foldl (settleSource look row) st)

def trimStep (ctx : TrimContext) (look : ℕ) (st : TrimState) : Option TrimState := do
  let st ← if ctx.barriers.isEmpty then some st else advanceCursors ctx look st
  let st ← runStages ctx look trimStages st
  settleRow look st

def trimLoop (ctx : TrimContext) : ℕ → ℕ → TrimState → Option TrimState
  | 0, _, st => some st
  | count + 1, look, st => do
    let st ← trimStep ctx look st
    trimLoop ctx count (look + 1) st

def occupiedRows (texts : Sources) (rows : List AlignedRow) : List AlignedRow :=
  (rows.filter AlignedRow.occupied).map (recomputeRowMetadata texts)

def trimRows (texts : Sources) (barriers : AlignmentBarriers) (rows : List AlignedRow) :
    Option (List AlignedRow) := do
  let rows := occupiedRows texts rows
  if rows.isEmpty then some rows
  else
    let ctx : TrimContext := ⟨texts, barriers, rows.map barriers.rowSegment⟩
    let st ← trimLoop ctx rows.length 0 ⟨rows, .zero, .zero⟩
    some (occupiedRows texts st.rows)

@[simp] theorem at_zero (s : MergeSource) : Counters.zero.at s = 0 := by
  cases s <;> rfl

theorem at_set (counters : Counters) (s t : MergeSource) (n : ℕ) :
    (counters.set s n).at t = if t = s then n else counters.at t := by
  cases s <;> cases t <;> rfl

theorem at_setAll (sources : List MergeSource) (t : MergeSource) (n : ℕ) :
    ∀ counters : Counters,
      (counters.setAll sources n).at t = if t ∈ sources then n else counters.at t := by
  induction sources with
  | nil => exact fun counters => by simp [Counters.setAll]
  | cons s sources ih =>
    intro counters
    have hcons : counters.setAll (s :: sources) n = (counters.set s n).setAll sources n := rfl
    rw [hcons, ih, at_set]
    by_cases hmem : t ∈ sources
    · simp [hmem]
    · by_cases hs : t = s <;> simp [hmem, hs]

def cellOf (rows : List AlignedRow) (index : ℕ) (source : MergeSource) : Option ℕ :=
  (rows[index]?).bind fun row => row.line source

def Computed (texts : Sources) (rows : List AlignedRow) : Prop :=
  ∀ row ∈ rows, recomputeRowMetadata texts row = row

structure MoveSafe (rows : List AlignedRow) (look : ℕ) (move : TrimMove) : Prop where
  le : move.target ≤ look
  distinct : move.sources.Nodup
  clear : ∀ s ∈ move.sources, ∀ i, move.target ≤ i → i < look → cellOf rows i s = none

structure MoveEffect (texts : Sources) (look : ℕ) (move : TrimMove) (st st' : TrimState) :
    Prop where
  size : st'.rows.length = st.rows.length
  cells : ∀ i s, cellOf st'.rows i s =
    if s ∈ move.sources then
      if i = move.target then cellOf st.rows look s
      else if i = look then none else cellOf st.rows i s
    else cellOf st.rows i s
  rest : ∀ i, i ≠ move.target → i ≠ look → st'.rows[i]? = st.rows[i]?
  computed : Computed texts st.rows → Computed texts st'.rows
  cursor : ∀ s, st'.cursor.at s = if s ∈ move.sources then move.target + 1 else st.cursor.at s
  line : ∀ s, st'.line.at s = if s ∈ move.sources then move.nextLine else st.line.at s

theorem cellOf_set (rows : List AlignedRow) {index : ℕ} (row : AlignedRow)
    (h : index < rows.length) (i : ℕ) (s : MergeSource) :
    cellOf (rows.set index row) i s = if i = index then row.line s else cellOf rows i s := by
  rw [cellOf, getElem?_set]
  by_cases hi : index = i
  · subst hi
    simp [h]
  · rw [if_neg hi, if_neg (Ne.symm hi), cellOf]

theorem cellOf_of_getElem? {rows : List AlignedRow} {i : ℕ} {row : AlignedRow}
    (h : rows[i]? = some row) (s : MergeSource) : cellOf rows i s = row.line s := by
  rw [cellOf, h]
  rfl

structure Taken (look target : ℕ) (sources : List MergeSource) (rows rows' : List AlignedRow) :
    Prop where
  size : rows'.length = rows.length
  cells : ∀ i s, cellOf rows' i s =
    if s ∈ sources then
      if i = target then cellOf rows look s
      else if i = look then none else cellOf rows i s
    else cellOf rows i s
  rest : ∀ i, i ≠ target → i ≠ look → rows'[i]? = rows[i]?

variable {look : ℕ}

theorem takeLines_spec {target : ℕ} (sources : List MergeSource) :
    ∀ {r : List AlignedRow}, sources.Nodup → look < r.length → target < r.length →
      ∃ rows', takeLines look target sources r = some rows' ∧
        Taken look target sources r rows' := by
  induction sources with
  | nil =>
    intro r _ _ _
    exact ⟨r, rfl, rfl, by simp, fun _ _ _ => rfl⟩
  | cons source sources ih =>
    intro r hnodup hlook htarget
    obtain ⟨hnot, hnodup⟩ := List.nodup_cons.mp hnodup
    obtain ⟨row, hrow⟩ : ∃ row, r[look]? = some row := ⟨_, getElem?_eq_getElem hlook⟩
    obtain ⟨dest, hdest⟩ : ∃ dest, (r.set look (row.setLine source none))[target]? = some dest :=
      ⟨_, getElem?_eq_getElem (by simpa using htarget)⟩
    obtain ⟨rows', hrun, hsize, hcells, hrest⟩ := ih
      (r := (r.set look (row.setLine source none)).set target
        (dest.setLine source (row.line source))) hnodup (by simpa using hlook)
      (by simpa using htarget)
    have hstep : ∀ i s, cellOf ((r.set look (row.setLine source none)).set target
        (dest.setLine source (row.line source))) i s =
        if s = source then
          if i = target then cellOf r look s
          else if i = look then none else cellOf r i s
        else cellOf r i s := by
      intro i s
      rw [cellOf_set _ _ (by simpa using htarget), cellOf_set _ _ hlook, line_setLine,
        line_setLine, cellOf_of_getElem? hrow]
      have hdest' := cellOf_of_getElem? hdest s
      rw [cellOf_set _ _ hlook, line_setLine] at hdest'
      by_cases hs : s = source
      · subst hs
        simp
      · simp only [hs, if_false] at hdest' ⊢
        by_cases hi : i = target
        · subst hi
          rw [if_pos rfl, ← hdest']
          by_cases hil : i = look
          · rw [if_pos hil, hil, cellOf_of_getElem? hrow]
          · rw [if_neg hil]
        · rw [if_neg hi]
          by_cases hil : i = look
          · rw [if_pos hil, hil, cellOf_of_getElem? hrow]
          · rw [if_neg hil]
    refine ⟨rows', ?_, by simpa using hsize, ?_, ?_⟩
    · simp only [takeLines, hrow, hdest, bind_eq_bind, bind_some]
      exact hrun
    · intro i s
      rw [hcells i s]
      simp only [hstep, mem_cons]
      by_cases hs : s = source
      · subst hs
        simp [hnot]
      · simp [hs]
    · intro i hi hil
      rw [hrest i hi hil, getElem?_set_ne (Ne.symm hi), getElem?_set_ne (Ne.symm hil)]

theorem recomputeAt_spec (texts : Sources) {n : ℕ} {r : List AlignedRow} (h : n < r.length) :
    ∃ rows', recomputeAt texts n r = some rows' ∧ rows'.length = r.length ∧
      (∀ i s, cellOf rows' i s = cellOf r i s) ∧ (∀ i, i ≠ n → rows'[i]? = r[i]?) ∧
      ∀ row, rows'[n]? = some row → recomputeRowMetadata texts row = row := by
  obtain ⟨row, hrow⟩ : ∃ row, r[n]? = some row := ⟨_, getElem?_eq_getElem h⟩
  refine ⟨_, by rw [recomputeAt, hrow]; rfl, by simp, ?_, ?_, ?_⟩
  · intro i s
    rw [cellOf_set _ _ h, line_recompute]
    split
    · rename_i hi
      rw [hi, cellOf_of_getElem? hrow]
    · rfl
  · exact fun i hi => getElem?_set_ne (Ne.symm hi)
  · intro row' hrow'
    rw [getElem?_set_self h] at hrow'
    rw [← some.inj hrow', recompute_idem]

variable {move : TrimMove} {st : TrimState}

theorem applyMove_spec (texts : Sources) (hnodup : move.sources.Nodup)
    (hlook : look < st.rows.length) (htarget : move.target < st.rows.length) :
    ∃ st', applyMove texts look move st = some st' ∧ MoveEffect texts look move st st' := by
  obtain ⟨rows1, e1, hsize1, hcells1, hrest1⟩ := takeLines_spec move.sources hnodup hlook htarget
  obtain ⟨rows2, e2, hsize2, hcells2, hrest2, hcomputed2⟩ := recomputeAt_spec texts
    (r := rows1) (n := move.target) (by omega)
  obtain ⟨rows3, e3, hsize3, hcells3, hrest3, hcomputed3⟩ := recomputeAt_spec texts
    (r := rows2) (n := look) (by omega)
  refine ⟨⟨rows3, st.cursor.setAll move.sources (move.target + 1),
    st.line.setAll move.sources move.nextLine⟩, ?_, by simp only; omega, ?_, ?_, ?_, ?_, ?_⟩
  · simp only [applyMove, e1, e2, e3, bind_eq_bind, bind_some]
  · exact fun i s => by rw [hcells3, hcells2, hcells1]
  · exact fun i hi hil => by rw [hrest3 i hil, hrest2 i hi, hrest1 i hi hil]
  · intro hall row hrow
    obtain ⟨i, hi⟩ := List.mem_iff_getElem?.mp hrow
    by_cases hil : i = look
    · exact hcomputed3 row (hil ▸ hi)
    · rw [hrest3 i hil] at hi
      by_cases hit : i = move.target
      · exact hcomputed2 row (hit ▸ hi)
      · rw [hrest2 i hit, hrest1 i hit hil] at hi
        exact hall row (mem_of_getElem? hi)
  · exact fun s => at_setAll _ _ _ _
  · exact fun s => at_setAll _ _ _ _

theorem covers_effect {texts : Sources} {st' : TrimState} (hsafe : MoveSafe st.rows look move)
    (heffect : MoveEffect texts look move st st') (hlook : look < st.rows.length) {s : MergeSource}
    {lo hi : ℕ} (h : CoversLine s st.rows lo hi) : CoversLine s st'.rows lo hi := by
  by_cases hs : s ∈ move.sources
  · rcases Nat.lt_or_eq_of_le hsafe.le with hlt | heq
    · refine covers_of_move h heffect.size hlt hlook (hsafe.clear s hs) ?_ ?_ ?_
      · exact (heffect.cells move.target s).trans (by rw [if_pos hs, if_pos rfl]; rfl)
      · exact (heffect.cells look s).trans (by rw [if_pos hs, if_neg (by omega), if_pos rfl])
      · intro k hk hk'
        exact (heffect.cells k s).trans (by rw [if_pos hs, if_neg hk, if_neg hk']; rfl)
    · refine covers_of_cells h heffect.size fun k => (heffect.cells k s).trans ?_
      rw [if_pos hs, heq]
      split
      · rename_i hk
        rw [hk]
        rfl
      · rfl
  · exact covers_of_cells h heffect.size fun k =>
      (heffect.cells k s).trans (by rw [if_neg hs]; rfl)

def StageTaken (ctx : TrimContext) (look : ℕ) (st : TrimState) : TrimStage → TrimMove → Prop
  | .join source, move => move = singleMove source st ∧ st.line.at source < look ∧
      ∃ row target, st.rows[look]? = some row ∧ st.rows[st.cursor.at source]? = some target ∧
        (row.line source).isSome = true ∧
        joinReady ctx source (st.cursor.at source) row target = true
  | .free source, move => move = singleMove source st ∧
      ∃ row, st.rows[look]? = some row ∧ freeReady ctx look source row st = true
  | .pair, move => ∃ row rule, rule ∈ pairRules ∧ move = jointMove st rule ∧
      st.rows[look]? = some row ∧ pairReady ctx look row st rule = true

theorem stageMove_taken {ctx : TrimContext} {stage : TrimStage}
    (h : stageMove ctx look stage st = some (some move)) :
    StageTaken ctx look st stage move := by
  cases stage with
  | join source =>
    simp only [stageMove, joinMove, bind_eq_bind, bind_eq_some_iff] at h
    obtain ⟨row, hrow, h⟩ := h
    split at h
    · rename_i hcond
      obtain ⟨target, htarget, h⟩ := bind_eq_some_iff.mp h
      rw [Bool.and_eq_true, decide_eq_true_iff] at hcond
      simp only [some.injEq, ite_none_right_eq_some] at h
      exact ⟨h.2.symm, hcond.1, row, target, hrow, htarget, hcond.2, h.1⟩
    · simp at h
  | free source =>
    simp only [stageMove, freeMove, bind_eq_bind, bind_eq_some_iff,
      some.injEq, ite_none_right_eq_some] at h
    obtain ⟨row, hrow, hready, hmove⟩ := h
    exact ⟨hmove.symm, row, hrow, hready⟩
  | pair =>
    simp only [stageMove, pairMove, bind_eq_bind, bind_eq_some_iff,
      some.injEq, map_eq_some_iff] at h
    obtain ⟨row, hrow, rule, hrule, hmove⟩ := h
    exact ⟨row, rule, mem_of_find?_eq_some hrule, hmove.symm, hrow, find?_some hrule⟩

theorem stageMove_defined (ctx : TrimContext) (hlook : look < st.rows.length)
    (hcursor : ∀ s, st.line.at s < look → st.cursor.at s < st.rows.length) (stage : TrimStage) :
    ∃ move, stageMove ctx look stage st = some move := by
  obtain ⟨row, hrow⟩ : ∃ row, st.rows[look]? = some row := ⟨_, getElem?_eq_getElem hlook⟩
  cases stage with
  | join source =>
    simp only [stageMove, joinMove, hrow, bind_eq_bind, bind_some]
    split
    · rename_i hcond
      rw [Bool.and_eq_true, decide_eq_true_iff] at hcond
      rw [getElem?_eq_getElem (hcursor source hcond.1)]
      exact ⟨_, rfl⟩
    · exact ⟨_, rfl⟩
  | free source => exact ⟨_, by simp only [stageMove, freeMove, hrow]; rfl⟩
  | pair => exact ⟨_, by simp only [stageMove, pairMove, hrow]; rfl⟩

theorem runStages_rule {c : TrimContext} {l : ℕ} {P : TrimState → Prop}
    (hdefined : ∀ st stage, P st → ∃ move, stageMove c l stage st = some move)
    (hmove : ∀ st stage move, P st → StageTaken c l st stage move →
      ∃ st', applyMove c.texts l move st = some st' ∧ P st') (stages : List TrimStage) :
    ∀ st, P st → ∃ st', runStages c l stages st = some st' ∧ P st' := by
  induction stages with
  | nil => exact fun st h => ⟨st, rfl, h⟩
  | cons stage stages ih =>
    intro st h
    obtain ⟨move, hstage⟩ := hdefined st stage h
    obtain ⟨st1, e1, h1⟩ : ∃ st1, runStage c l stage st = some st1 ∧ P st1 := by
      simp only [runStage, hstage, bind_eq_bind, bind_some]
      cases move with
      | none => exact ⟨st, rfl, h⟩
      | some move => exact hmove st stage move h (stageMove_taken hstage)
    obtain ⟨st2, e2, h2⟩ := ih st1 h1
    refine ⟨st2, ?_, h2⟩
    simp only [runStages, e1, bind_eq_bind, bind_some]
    exact e2

structure Settled (look : ℕ) (st st' : TrimState) : Prop where
  rows : st'.rows = st.rows
  cursor : ∀ s, st'.cursor.at s =
    if (cellOf st.rows look s).isSome then look + 1 else st.cursor.at s
  line : ∀ s, st'.line.at s = if (cellOf st.rows look s).isSome then look + 1 else st.line.at s

theorem settleRow_spec {l : ℕ} {t : TrimState} (h : l < t.rows.length) :
    ∃ st', settleRow l t = some st' ∧ Settled l t st' := by
  obtain ⟨row, hrow⟩ : ∃ row, t.rows[l]? = some row := ⟨_, getElem?_eq_getElem h⟩
  refine ⟨[MergeSource.a, .b, .c].foldl (settleSource l row) t, by rw [settleRow, hrow]; rfl,
    ?_, ?_, ?_⟩
  · simp only [foldl_cons, foldl_nil, settleSource]
    split <;> split <;> split <;> rfl
  · intro s
    rw [cellOf_of_getElem? hrow]
    simp only [foldl_cons, foldl_nil, settleSource]
    cases s <;> (split <;> split <;> split) <;> simp_all [at_set]
  · intro s
    rw [cellOf_of_getElem? hrow]
    simp only [foldl_cons, foldl_nil, settleSource]
    cases s <;> (split <;> split <;> split) <;> simp_all [at_set]

theorem trimLoop_rule {c : TrimContext} {n : ℕ} {P : ℕ → TrimState → Prop}
    (hstep : ∀ look st, look < n → P look st →
      ∃ st', trimStep c look st = some st' ∧ P (look + 1) st') (count : ℕ) :
    ∀ look st, look + count = n → P look st →
      ∃ st', trimLoop c count look st = some st' ∧ P n st' := by
  induction count with
  | zero =>
    rintro look st rfl h
    exact ⟨st, rfl, h⟩
  | succ count ih =>
    intro look st hn h
    obtain ⟨st1, e1, h1⟩ := hstep look st (by omega) h
    obtain ⟨st2, e2, h2⟩ := ih (look + 1) st1 (by omega) h1
    refine ⟨st2, ?_, h2⟩
    simp only [trimLoop, e1, bind_eq_bind, bind_some]
    exact e2

end GitComet.Merge
