import GitComet.Merge.OneSided

namespace GitComet.Merge
open Text Columns Option List

def cellFlag (texts : Sources) (rows : List AlignedRow) (i : ℕ) (s t : MergeSource) : Bool :=
  (pairMetadata (cellText (texts.lines s) (cellOf rows i s))
    (cellText (texts.lines t) (cellOf rows i t))).2

variable {texts : Sources} {rows : List AlignedRow} {i : ℕ} {s t : MergeSource}

theorem flag_cells {row : AlignedRow} (hst : s ≠ t) (hcomputed : Computed texts rows)
    (hrow : rows[i]? = some row) : row.whitespaceEqual s t = cellFlag texts rows i s t := by
  rw [← hcomputed row (mem_of_getElem? hrow), whitespaceEqual_recompute texts row hst,
    cellFlag, cellOf_of_getElem? hrow, cellOf_of_getElem? hrow]
  rfl

theorem cellFlag_some (h : cellFlag texts rows i s t) :
    cellOf rows i s ≠ none ∧ cellOf rows i t ≠ none := by
  rw [cellFlag, pairMetadata_whitespaceEqual] at h
  obtain ⟨x, y, hx, hy, -⟩ := h
  constructor
  · intro hnone
    rw [hnone] at hx
    cases hx
  · intro hnone
    rw [hnone] at hy
    cases hy

theorem cellFlag_left
    (t : MergeSource) (h : cellOf rows i s = none) : cellFlag texts rows i s t = false := by
  cases hflag : cellFlag texts rows i s t with
  | false => rfl
  | true => exact absurd h (cellFlag_some hflag).1

theorem cellFlag_right
    (s : MergeSource) (h : cellOf rows i t = none) : cellFlag texts rows i s t = false := by
  cases hflag : cellFlag texts rows i s t with
  | false => rfl
  | true => exact absurd h (cellFlag_some hflag).2

def PairFacts (texts : Sources) (look : ℕ) (st : TrimState) (rule : PairRule) : Prop :=
  st.line.at rule.first < look ∧ st.line.at rule.second < look ∧
    cellOf st.rows look rule.first ≠ none ∧
    cellFlag texts st.rows look rule.first rule.second = true ∧
    cellFlag texts st.rows look rule.apart.1 rule.apart.2 = false

def StageFacts (texts : Sources) (look : ℕ) (st : TrimState) : TrimStage → TrimMove → Prop
  | .join s, move => move = singleMove s st ∧ st.line.at s < look ∧
      cellOf st.rows look s ≠ none ∧ cellOf st.rows (st.line.at s) (others s).1 ≠ none ∧
      cellFlag texts st.rows (st.line.at s) (others s).1 (others s).2 = true
  | .free s, move => move = singleMove s st ∧ st.line.at s < look ∧
      cellOf st.rows look s ≠ none ∧ cellFlag texts st.rows look s (others s).1 = false ∧
      cellFlag texts st.rows look s (others s).2 = false
  | .pair, move => ∃ rule ∈ pairRules, move = jointMove st rule ∧ PairFacts texts look st rule

theorem others_distinct (s : MergeSource) :
    s ≠ (others s).1 ∧ s ≠ (others s).2 ∧ (others s).1 ≠ (others s).2 := by
  cases s <;> decide

theorem apart_distinct {rule : PairRule} (h : rule ∈ pairRules) : rule.apart.1 ≠ rule.apart.2 := by
  simp only [pairRules, mem_cons, not_mem_nil, or_false] at h
  rcases h with rfl | rfl | rfl <;> decide

section
variable {ctx : TrimContext} {n look : ℕ} {st st' : TrimState} {stage : TrimStage}
  {move : TrimMove}

section
variable (h : TrimInvariant ctx.texts n look st)
include h

theorem pairFacts {row : AlignedRow} {rule : PairRule}
    (hrule : rule ∈ pairRules) (hrow : st.rows[look]? = some row)
    (hready : pairReady ctx look row st rule) : PairFacts ctx.texts look st rule := by
  simp only [pairReady, Bool.and_eq_true, Bool.not_eq_true', decide_eq_true_eq] at hready
  refine ⟨hready.1.1.1.1.1.1, hready.1.1.1.1.1.2, ?_, ?_, ?_⟩
  · rw [cellOf_of_getElem? hrow]
    exact isSome_iff_ne_none.mp hready.1.1.1.1.2
  · rw [← flag_cells (pairRules_distinct hrule) h.computed hrow]
    exact hready.1.1.1.2
  · rw [← flag_cells (apart_distinct hrule) h.computed hrow]
    exact hready.1.1.2

theorem stageFacts (ht : StageTaken ctx look st stage move) :
    StageFacts ctx.texts look st stage move := by
  cases stage with
  | join s =>
    obtain ⟨rfl, hlt, row, target, hrow, htarget, hsome, hready⟩ := ht
    simp only [joinReady, Bool.and_eq_true] at hready
    rw [h.synced] at htarget
    refine ⟨rfl, hlt, ?_, ?_, ?_⟩
    · rw [cellOf_of_getElem? hrow]
      exact isSome_iff_ne_none.mp hsome
    · rw [cellOf_of_getElem? htarget]
      exact isSome_iff_ne_none.mp hready.1.1.1
    · rw [← flag_cells (others_distinct s).2.2 h.computed htarget]
      exact hready.1.1.2
  | free s =>
    obtain ⟨rfl, row, hrow, hready⟩ := ht
    simp only [freeReady, Bool.and_eq_true, Bool.not_eq_true', decide_eq_true_eq] at hready
    obtain ⟨hdistinct, hdistinct', -⟩ := others_distinct s
    refine ⟨rfl, hready.1.1.1.1, ?_, ?_, ?_⟩
    · rw [cellOf_of_getElem? hrow]
      exact isSome_iff_ne_none.mp hready.1.1.1.2
    · rw [← flag_cells hdistinct h.computed hrow]
      exact hready.1.1.2
    · rw [← flag_cells hdistinct' h.computed hrow]
      exact hready.1.2
  | pair =>
    obtain ⟨row, rule, hrule, rfl, hrow, hready⟩ := ht
    exact ⟨rule, hrule, rfl, pairFacts h hrule hrow hready⟩

theorem row_at (hlook : look < n) : ∃ row, st.rows[look]? = some row :=
  ⟨_, getElem?_eq_getElem (h.size ▸ hlook)⟩

theorem stage_quiet (hlook : look < n) (hno : ∀ move, ¬StageFacts ctx.texts look st stage move) :
    stageMove ctx look stage st = some none := by
  obtain ⟨move, hmove⟩ := stageMove_defined ctx (h.size ▸ hlook) (fun s hs => by
    rw [h.synced, h.size]
    omega) stage
  cases move with
  | none => exact hmove
  | some move => exact absurd (stageFacts h (stageMove_taken hmove)) (hno move)

end

theorem allowsMove_open (hopen : ctx.barriers.isEmpty) (s : MergeSource)
    (line : Option ℕ) (target : ℕ) : allowsMove ctx s line target := by
  cases line with
  | none => rfl
  | some line => simp [allowsMove, hopen]

theorem free_ready (h : TrimInvariant ctx.texts n look st) (hopen : ctx.barriers.isEmpty)
    (hlook : look < n) (hlt : st.line.at s < look) (hcell : cellOf st.rows look s ≠ none)
    (hfirst : cellFlag ctx.texts st.rows look s (others s).1 = false)
    (hsecond : cellFlag ctx.texts st.rows look s (others s).2 = false) :
    stageMove ctx look (.free s) st = some (some (singleMove s st)) := by
  obtain ⟨row, hrow⟩ := row_at h hlook
  obtain ⟨hdistinct, hdistinct', -⟩ := others_distinct s
  rw [← flag_cells hdistinct h.computed hrow] at hfirst
  rw [← flag_cells hdistinct' h.computed hrow] at hsecond
  rw [cellOf_of_getElem? hrow, ← isSome_iff_ne_none] at hcell
  have hready : freeReady ctx look s row st := by
    simp [freeReady, hlt, hcell, hfirst, hsecond, allowsMove_open hopen]
  simp [stageMove, freeMove, hrow, hready]

theorem pair_ready (h : TrimInvariant ctx.texts n look st) (hopen : ctx.barriers.isEmpty)
    (hlook : look < n) {r : PairRule} (hrule : r ∈ pairRules)
    (hfirst : st.line.at r.first < look) (hsecond : st.line.at r.second < look)
    (hcell : cellOf st.rows look r.first ≠ none)
    (hflag : cellFlag ctx.texts st.rows look r.first r.second)
    (hapart : cellFlag ctx.texts st.rows look r.apart.1 r.apart.2 = false) :
    ∃ rule' ∈ pairRules, stageMove ctx look .pair st = some (some (jointMove st rule')) ∧
      PairFacts ctx.texts look st rule' := by
  obtain ⟨row, hrow⟩ := row_at h hlook
  rw [← flag_cells (pairRules_distinct hrule) h.computed hrow] at hflag
  rw [← flag_cells (apart_distinct hrule) h.computed hrow] at hapart
  rw [cellOf_of_getElem? hrow, ← isSome_iff_ne_none] at hcell
  have hready : pairReady ctx look row st r := by
    simp [pairReady, hfirst, hsecond, hcell, hflag, hapart, allowsMove_open hopen]
  obtain ⟨rule', hfind⟩ : ∃ rule', pairRules.find? (pairReady ctx look row st) = some rule' := by
    cases hfind : pairRules.find? (pairReady ctx look row st) with
    | none => exact absurd hready (List.find?_eq_none.mp hfind r hrule)
    | some rule' => exact ⟨rule', rfl⟩
  have hrule' := mem_of_find?_eq_some hfind
  refine ⟨rule', hrule', ?_, pairFacts h hrule' hrow (find?_some hfind)⟩
  simp [stageMove, pairMove, hrow, hfind]

theorem runStage_quiet (h : stageMove ctx look stage st = some none) :
    runStage ctx look stage st = some st := by
  simp only [runStage, h, bind_eq_bind, bind_some]

theorem runStage_take (h : TrimInvariant ctx.texts n look st) (hlook : look < n)
    (hmove : stageMove ctx look stage st = some (some move)) :
    ∃ st', runStage ctx look stage st = some st' ∧ MoveEffect ctx.texts look move st st' ∧
      TrimInvariant ctx.texts n look st' := by
  have hm := stageTaken_open h (stageMove_taken hmove)
  obtain ⟨st', happly, he⟩ := openMove_applies h hlook hm
  refine ⟨st', ?_, he, trimInvariant_move h hm he⟩
  simp only [runStage, hmove, bind_eq_bind, bind_some, happly]

theorem runStages_append (stages stages' : List TrimStage) (st : TrimState) :
    runStages ctx look (stages ++ stages') st =
      (runStages ctx look stages st).bind (runStages ctx look stages') := by
  induction stages generalizing st with
  | nil => rfl
  | cons stage stages ih =>
    simp only [cons_append, runStages, bind_eq_bind]
    cases runStage ctx look stage st with
    | none => rfl
    | some st1 => exact ih st1

theorem runStages_quiet {stages : List TrimStage}
    (h : ∀ stage ∈ stages, stageMove ctx look stage st = some none) :
    runStages ctx look stages st = some st := by
  induction stages with
  | nil => rfl
  | cons stage stages ih =>
    simp only [runStages, runStage_quiet (h stage mem_cons_self), bind_eq_bind, bind_some]
    exact ih fun stage' hs => h stage' (mem_cons_of_mem _ hs)

theorem quiet_of_absent (h : TrimInvariant ctx.texts n look st) (hlook : look < n)
    (habsent : ∀ t, t ≠ s → cellOf st.rows look t = none)
    (hstage : stage ≠ .join s ∧ stage ≠ .free s) : stageMove ctx look stage st = some none := by
  refine stage_quiet h hlook fun move hf => ?_
  cases stage with
  | join t => exact hf.2.2.1 (habsent t fun he => hstage.1 (he ▸ rfl))
  | free t => exact hf.2.2.1 (habsent t fun he => hstage.2 (he ▸ rfl))
  | pair =>
    obtain ⟨rule, hrule, -, -, -, -, hflag, -⟩ := hf
    have hne := pairRules_distinct hrule
    obtain ⟨hfirst, hsecond⟩ := cellFlag_some hflag
    by_cases hs : rule.first = s
    · exact hsecond (habsent _ fun he => hne (hs.trans he.symm))
    · exact hfirst (habsent _ hs)

theorem stages_split (s : MergeSource) : ∃ before middle after,
    trimStages = before ++ .join s :: (middle ++ .free s :: after) ∧
      ∀ stage ∈ before ++ middle ++ after, stage ≠ .join s ∧ stage ≠ .free s := by
  cases s
  · exact ⟨[], [.join .b, .join .c], [.free .b, .free .c, .pair], rfl, by decide⟩
  · exact ⟨[.join .a], [.join .c, .free .a], [.free .c, .pair], rfl, by decide⟩
  · exact ⟨[.join .a, .join .b], [.free .a, .free .b], [.pair], rfl, by decide⟩

section
variable (h : TrimInvariant ctx.texts n look st)
include h

theorem empty_quiet (hlook : look < n)
    (hempty : ∀ t, cellOf st.rows look t = none) (stages : List TrimStage) :
    runStages ctx look stages st = some st := by
  refine runStages_quiet fun stage _ => stage_quiet h hlook fun move hf => ?_
  cases stage with
  | join t => exact hf.2.2.1 (hempty t)
  | free t => exact hf.2.2.1 (hempty t)
  | pair =>
    obtain ⟨rule, -, -, -, -, hcell, -⟩ := hf
    exact hcell (hempty _)

theorem singleMove_empties
    (hlt : st.line.at s < look) (habsent : ∀ t, t ≠ s → cellOf st.rows look t = none)
    (he : MoveEffect ctx.texts look (singleMove s st) st st') :
    ∀ t, cellOf st'.rows look t = none := by
  intro t
  have hsync := h.synced s
  rw [he.cells]
  by_cases ht : t = s
  · rw [if_pos (by simp [singleMove, ht]), if_neg (by simp only [singleMove]; omega), if_pos rfl]
  · rw [if_neg (by simpa [singleMove] using ht), habsent t ht]

theorem single_run (hopen : ctx.barriers.isEmpty)
    (hlook : look < n) (hlt : st.line.at s < look) (hcell : cellOf st.rows look s ≠ none)
    (habsent : ∀ t, t ≠ s → cellOf st.rows look t = none) :
    ∃ st', runStages ctx look trimStages st = some st' ∧
      MoveEffect ctx.texts look (singleMove s st) st st' := by
  obtain ⟨before, middle, after, hsplit, hother⟩ := stages_split s
  have hquiet : ∀ stages, (∀ stage ∈ stages, stage ∈ before ++ middle ++ after) →
      runStages ctx look stages st = some st := fun stages hsub =>
    runStages_quiet fun stage hmem => quiet_of_absent h hlook habsent (hother stage (hsub stage hmem))
  rw [hsplit, runStages_append, hquiet before (by simp +contextual), bind_some, runStages,
    bind_eq_bind]
  obtain ⟨move, hjoin⟩ := stageMove_defined ctx (h.size ▸ hlook) (fun t ht => by
    rw [h.synced, h.size]
    omega) (.join s)
  cases move with
  | some move =>
    obtain ⟨st1, e1, he, h1⟩ := runStage_take h hlook hjoin
    obtain ⟨rfl, -⟩ := stageFacts h (stageMove_taken hjoin)
    refine ⟨st1, ?_, he⟩
    rw [e1, bind_some]
    exact empty_quiet h1 hlook (singleMove_empties h hlt habsent he) _
  | none =>
    obtain ⟨hdistinct, hdistinct', -⟩ := others_distinct s
    have hfree := free_ready h hopen hlook hlt hcell
      (cellFlag_right s (habsent _ (Ne.symm hdistinct)))
      (cellFlag_right s (habsent _ (Ne.symm hdistinct')))
    obtain ⟨st1, e1, he, h1⟩ := runStage_take h hlook hfree
    refine ⟨st1, ?_, he⟩
    rw [runStage_quiet hjoin, bind_some, runStages_append, hquiet middle (by simp +contextual),
      bind_some, runStages, e1, bind_eq_bind, bind_some]
    exact empty_quiet h1 hlook (singleMove_empties h hlt habsent he) _

theorem stay_run (hlook : look < n)
    (hline : st.line.at s = look) (habsent : ∀ t, t ≠ s → cellOf st.rows look t = none) :
    runStages ctx look trimStages st = some st := by
  refine runStages_quiet fun stage _ => ?_
  by_cases hstage : stage ≠ .join s ∧ stage ≠ .free s
  · exact quiet_of_absent h hlook habsent hstage
  · refine stage_quiet h hlook fun move hf => ?_
    cases stage with
    | join t =>
      obtain rfl : t = s := by simpa using hstage
      have := hf.2.1
      omega
    | free t =>
      obtain rfl : t = s := by simpa using hstage
      have := hf.2.1
      omega
    | pair => simp at hstage

end

structure CellMoved (look : ℕ) (s : MergeSource) (x : ℕ) (st st' : TrimState) : Prop where
  here : ∀ i, cellOf st'.rows i s =
    if i = st.line.at s then some x else if i = look then none else cellOf st.rows i s
  other : ∀ t, t ≠ s → ∀ i, cellOf st'.rows i t = cellOf st.rows i t
  line : st'.line.at s = st.line.at s + 1
  lines : ∀ t, t ≠ s → st'.line.at t = st.line.at t

theorem trimStep_eq (hopen : ctx.barriers.isEmpty)
    (hrun : runStages ctx look trimStages st = some st') (hlook : look < st'.rows.length) :
    ∃ st'', trimStep ctx look st = some st'' ∧ Settled look st' st'' := by
  obtain ⟨st'', hsettle, hs⟩ := settleRow_spec hlook
  refine ⟨st'', ?_, hs⟩
  simp only [trimStep, hopen, if_true, hrun, bind_eq_bind, bind_some]
  exact hsettle

theorem single_step (h : TrimInvariant ctx.texts n look st) (hopen : ctx.barriers.isEmpty)
    (hlook : look < n) {x : ℕ} (hcell : cellOf st.rows look s = some x)
    (habsent : ∀ t, t ≠ s → cellOf st.rows look t = none) :
    ∃ st', trimStep ctx look st = some st' ∧ CellMoved look s x st st' := by
  have hne : cellOf st.rows look s ≠ none := by
    rw [hcell]
    exact some_ne_none x
  have hsync := h.synced s
  rcases Nat.lt_or_eq_of_le (h.bound s) with hlt | heq
  · obtain ⟨st1, hrun, he⟩ := single_run h hopen hlook hlt hne habsent
    obtain ⟨st', hstep, hs⟩ := trimStep_eq hopen hrun (by rw [he.size, h.size]; exact hlook)
    have hempty := singleMove_empties h hlt habsent he
    refine ⟨st', hstep, ?_, ?_, ?_, ?_⟩
    · intro i
      rw [hs.rows, he.cells, if_pos (by simp [singleMove]), hcell]
      simp only [singleMove, hsync]
    · intro t ht i
      rw [hs.rows, he.cells, if_neg (by simpa [singleMove] using ht)]
    · simp only [hs.line, hempty, he.line, singleMove, mem_singleton, isSome_none,
        Bool.false_eq_true, if_false, if_true]
    · intro t ht
      simp only [hs.line, hempty, he.line, singleMove, mem_singleton, isSome_none,
        Bool.false_eq_true, if_false, ht]
  · obtain ⟨st', hstep, hs⟩ := trimStep_eq hopen (stay_run h hlook heq habsent)
      (by rw [h.size]; exact hlook)
    refine ⟨st', hstep, ?_, ?_, ?_, ?_⟩
    · intro i
      rw [hs.rows, heq]
      split
      · rename_i hi
        rw [hi, hcell]
      · rfl
    · exact fun t _ i => by rw [hs.rows]
    · rw [hs.line, hcell, heq]
      rfl
    · intro t ht
      rw [hs.line, habsent t ht]
      rfl

theorem trimStep_frame (h : TrimInvariant ctx.texts n look st) (hopen : ctx.barriers.isEmpty)
    (hlook : look < n) (hstep : trimStep ctx look st = some st') :
    TrimInvariant ctx.texts n (look + 1) st' ∧ ∀ i, look < i → st'.rows[i]? = st.rows[i]? := by
  obtain ⟨st1, e1, h1, hrest⟩ := runStages_rule (c := ctx) (l := look)
    (P := fun s => TrimInvariant ctx.texts n look s ∧ ∀ i, look < i → s.rows[i]? = st.rows[i]?)
    (fun s stage hs => stageMove_defined ctx (hs.1.size ▸ hlook) (fun t ht => by
      rw [hs.1.synced, hs.1.size]
      omega) stage)
    (fun s stage move hs ht => by
      have hm := stageTaken_open hs.1 ht
      have hbefore := hm.before
      obtain ⟨s', e', he⟩ := openMove_applies hs.1 hlook hm
      refine ⟨s', e', trimInvariant_move hs.1 hm he, fun i hi => ?_⟩
      rw [he.rest i (by omega) (by omega), hs.2 i hi])
    trimStages st ⟨h, fun _ _ => rfl⟩
  obtain ⟨st2, e2, hs⟩ := trimStep_eq hopen e1 (h1.size ▸ hlook)
  obtain rfl := some.inj (hstep.symm.trans e2)
  exact ⟨trimInvariant_settle h1 hs, fun i hi => by rw [hs.rows, hrest i hi]⟩

end

end GitComet.Merge
