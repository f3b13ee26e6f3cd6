import GitComet.Merge.TrimRows

namespace GitComet.Merge
open Text Columns CellMoves Option Nat

abbrev MoveTest := List AlignedRow → ℕ → TrimMove → Bool

def moveLands : MoveTest := fun rows _ move => decide (move.target < rows.length)

def cellsClear (rows : List AlignedRow) (look target : ℕ) (source : MergeSource) : Bool :=
  (List.range rows.length).all fun i =>
    decide (i = look) || decide (i < min look target) || decide (max look target < i) ||
      (cellOf rows i source).isNone

-- No other line of a moved source stands from the row it lands on to the row it comes from.
def moveKeeps : MoveTest := fun rows look move =>
  moveLands rows look move && move.sources.all (cellsClear rows look move.target)

def movesMeet (test : MoveTest) (ctx : TrimContext) (look : ℕ) :
    List TrimStage → TrimState → Bool
  | [], _ => true
  | stage :: stages, st =>
    match stageMove ctx look stage st with
    | none => false
    | some none => movesMeet test ctx look stages st
    | some (some move) => test st.rows look move &&
      (applyMove ctx.texts look move st).any (movesMeet test ctx look stages)

def passBarriers (ctx : TrimContext) (look : ℕ) (st : TrimState) : Option TrimState :=
  if ctx.barriers.isEmpty then some st else advanceCursors ctx look st

def stepsMeet (test : MoveTest) (ctx : TrimContext) : ℕ → ℕ → TrimState → Bool
  | 0, _, _ => true
  | count + 1, look, st =>
    (passBarriers ctx look st).any (movesMeet test ctx look trimStages) &&
      (trimStep ctx look st).any (stepsMeet test ctx count (look + 1))

def passMeets (test : MoveTest) (texts : Sources) (barriers : AlignmentBarriers)
    (rows : List AlignedRow) : Bool :=
  let rows := occupiedRows texts rows
  stepsMeet test ⟨texts, barriers, rows.map barriers.rowSegment⟩ rows.length 0
    ⟨rows, .zero, .zero⟩

variable {s : MergeSource} {lens : MergeSource → ℕ}

section
variable {ctx : TrimContext} {n look : ℕ} {st st' : TrimState} {stage : TrimStage}
  {move : TrimMove} {test : MoveTest}

theorem trimStep_bind (ctx : TrimContext) (look : ℕ) (st : TrimState) :
    trimStep ctx look st = (passBarriers ctx look st).bind fun st =>
      (runStages ctx look trimStages st).bind (settleRow look) := by
  simp only [trimStep, passBarriers, bind_eq_bind]
  split <;> rfl

theorem stageTaken_sources (h : StageTaken ctx look st stage move) :
    move.sources ≠ [] ∧ move.sources.Nodup := by
  cases stage with
  | join source =>
    rw [h.1]
    simp [singleMove]
  | free source =>
    rw [h.1]
    simp [singleMove]
  | pair =>
    obtain ⟨-, rule, hrule, rfl, -⟩ := h
    simpa [jointMove] using pairRules_distinct hrule

theorem takeLines_length {look target : ℕ} (sources : List MergeSource) :
    ∀ {r r' : List AlignedRow}, takeLines look target sources r = some r' →
      r'.length = r.length := by
  induction sources with
  | nil =>
    intro r r' h
    rw [← some.inj h]
  | cons source sources ih =>
    intro r r' h
    obtain ⟨row, -, h⟩ := bind_eq_some_iff.mp h
    obtain ⟨dest, -, h⟩ := bind_eq_some_iff.mp h
    have hlen := ih h
    rwa [List.length_set, List.length_set] at hlen

theorem applyMove_lands {texts : Sources} (h : applyMove texts look move st = some st') :
    move.target < st.rows.length := by
  obtain ⟨rows, htake, h⟩ := bind_eq_some_iff.mp h
  obtain ⟨rows', hdest, -⟩ := bind_eq_some_iff.mp h
  obtain ⟨dest, hdest, -⟩ := bind_eq_some_iff.mp hdest
  rw [← takeLines_length move.sources htake]
  exact (List.getElem?_eq_some_iff.mp hdest).1

theorem applyMove_effect (ht : StageTaken ctx look st stage move) (hlook : look < st.rows.length)
    (h : applyMove ctx.texts look move st = some st') : MoveEffect ctx.texts look move st st' := by
  obtain ⟨st1, hrun, he⟩ := applyMove_spec ctx.texts (stageTaken_sources ht).2 hlook
    (applyMove_lands h)
  obtain rfl := some.inj (hrun.symm.trans h)
  exact he

theorem runStage_cases (h : runStage ctx look stage st = some st') :
    stageMove ctx look stage st = some none ∧ st' = st ∨
      ∃ move, stageMove ctx look stage st = some (some move) ∧
        StageTaken ctx look st stage move ∧ applyMove ctx.texts look move st = some st' := by
  obtain ⟨move, hstage, h⟩ := bind_eq_some_iff.mp h
  cases move with
  | none => exact Or.inl ⟨hstage, (some.inj h).symm⟩
  | some move => exact Or.inr ⟨move, hstage, stageMove_taken hstage, h⟩

structure PassRule (ctx : TrimContext) (n : ℕ) (K : ℕ → TrimState → Prop) : Prop where
  size : ∀ look st, K look st → st.rows.length = n
  move : ∀ look st st' stage move, look < n → K look st → StageTaken ctx look st stage move →
    MoveEffect ctx.texts look move st st' → K look st'
  settle : ∀ look st st', look < n → K look st → Settled look st st' → K (look + 1) st'
  barriers : ∀ look st st', K look st → passBarriers ctx look st = some st' → K look st'

variable {K : ℕ → TrimState → Prop}

theorem PassRule.runStages (hK : PassRule ctx n K) (hlook : look < n)
    (stages : List TrimStage) : ∀ {st st' : TrimState}, K look st →
      runStages ctx look stages st = some st' → K look st' := by
  induction stages with
  | nil =>
    intro st st' hk h
    exact some.inj h ▸ hk
  | cons stage stages ih =>
    intro st st' hk h
    obtain ⟨st1, hstage, h⟩ := bind_eq_some_iff.mp h
    rcases runStage_cases hstage with ⟨-, heq⟩ | ⟨move, -, ht, happly⟩
    · exact ih (heq ▸ hk) h
    · have hsize := hK.size look st hk
      exact ih (hK.move look st st1 stage move hlook hk ht
        (applyMove_effect ht (by omega) happly)) h

theorem PassRule.settled (hK : PassRule ctx n K) (hlook : look < n)
    (hk : K look st) (h : settleRow look st = some st') : K (look + 1) st' := by
  have hsize := hK.size look st hk
  obtain ⟨st1, hrun, hs⟩ := settleRow_spec (l := look) (t := st) (by omega)
  obtain rfl := some.inj (hrun.symm.trans h)
  exact hK.settle look st st1 hlook hk hs

theorem PassRule.trimStep (hK : PassRule ctx n K) (hlook : look < n)
    (hk : K look st) (h : trimStep ctx look st = some st') : K (look + 1) st' := by
  rw [trimStep_bind] at h
  obtain ⟨st1, hpass, h⟩ := bind_eq_some_iff.mp h
  obtain ⟨st2, hrun, h⟩ := bind_eq_some_iff.mp h
  exact hK.settled hlook (hK.runStages hlook trimStages (hK.barriers look st st1 hk hpass) hrun) h

theorem PassRule.trimLoop (hK : PassRule ctx n K) (count : ℕ) :
    ∀ {look : ℕ} {st st' : TrimState}, look + count = n → K look st →
      trimLoop ctx count look st = some st' → K n st' := by
  induction count with
  | zero =>
    rintro look st st' rfl hk h
    exact some.inj h ▸ hk
  | succ count ih =>
    intro look st st' hn hk h
    obtain ⟨st1, hstep, h⟩ := bind_eq_some_iff.mp h
    exact ih (by omega) (hK.trimStep (by omega) hk hstep) h

theorem passBarriers_rows (h : passBarriers ctx look st = some st') : st'.rows = st.rows := by
  unfold passBarriers at h
  split at h
  · rw [some.inj h]
  · obtain ⟨_, -, h⟩ := bind_eq_some_iff.mp h
    obtain ⟨_, -, h⟩ := bind_eq_some_iff.mp h
    obtain ⟨_, -, h⟩ := bind_eq_some_iff.mp h
    obtain ⟨_, -, h⟩ := bind_eq_some_iff.mp h
    rw [← some.inj h]

theorem advanceCursor_le {rowSegments : List ℕ} {wanted look : ℕ} (fuel : ℕ) :
    ∀ {cursor out : ℕ}, advanceCursor rowSegments wanted look fuel cursor = some out →
      out ≤ max cursor look := by
  induction fuel with
  | zero =>
    intro cursor out h
    rw [← some.inj h]
    exact le_max_left _ _
  | succ fuel ih =>
    intro cursor out h
    simp only [advanceCursor] at h
    split at h
    · obtain ⟨segment, -, h⟩ := bind_eq_some_iff.mp h
      split at h
      · have := ih h
        omega
      · rw [← some.inj h]
        exact le_max_left _ _
    · rw [← some.inj h]
      exact le_max_left _ _

theorem passBarriers_cursor (h : passBarriers ctx look st = some st') (s : MergeSource) :
    st'.cursor.at s ≤ max (st.cursor.at s) look := by
  unfold passBarriers at h
  split at h
  · rw [← some.inj h]
    exact le_max_left _ _
  · obtain ⟨_, -, h⟩ := bind_eq_some_iff.mp h
    obtain ⟨a, ha, h⟩ := bind_eq_some_iff.mp h
    obtain ⟨b, hb, h⟩ := bind_eq_some_iff.mp h
    obtain ⟨c, hc, h⟩ := bind_eq_some_iff.mp h
    rw [← some.inj h]
    cases s with
    | a => exact advanceCursor_le _ ha
    | b => exact advanceCursor_le _ hb
    | c => exact advanceCursor_le _ hc

-- A cursor runs at most one row ahead of a row that still holds a line of its source.
structure Near (texts : Sources) (n look : ℕ) (st : TrimState) : Prop where
  size : st.rows.length = n
  computed : Computed texts st.rows
  cursor : ∀ s, st.cursor.at s ≤ look + 2
  held : ∀ s, cellOf st.rows look s ≠ none → st.cursor.at s ≤ look + 1

theorem stageTaken_lines (hcomputed : Computed ctx.texts st.rows)
    (ht : StageTaken ctx look st stage move) :
    ∀ s ∈ move.sources, cellOf st.rows look s ≠ none := by
  cases stage with
  | join source =>
    obtain ⟨rfl, -, row, target, hrow, -, hline, -⟩ := ht
    intro s hs
    rw [singleMove, List.mem_singleton] at hs
    rw [cellOf_of_getElem? hrow, hs]
    exact isSome_iff_ne_none.mp hline
  | free source =>
    obtain ⟨rfl, row, hrow, hready⟩ := ht
    simp only [freeReady, Bool.and_eq_true] at hready
    intro s hs
    rw [singleMove, List.mem_singleton] at hs
    rw [cellOf_of_getElem? hrow, hs]
    exact isSome_iff_ne_none.mp hready.1.1.1.2
  | pair =>
    obtain ⟨row, rule, hrule, rfl, hrow, hready⟩ := ht
    simp only [pairReady, Bool.and_eq_true] at hready
    have hflag := hready.1.1.1.2
    rw [flag_cells (pairRules_distinct hrule) hcomputed hrow] at hflag
    intro s hs
    simp only [jointMove, List.mem_cons, List.not_mem_nil, or_false] at hs
    rcases hs with rfl | rfl
    · exact (cellFlag_some hflag).1
    · exact (cellFlag_some hflag).2

theorem stageTaken_near (h : Near ctx.texts n look st) (ht : StageTaken ctx look st stage move) :
    move.target ≤ look + 1 := by
  have hlines := stageTaken_lines h.computed ht
  cases stage with
  | join source =>
    obtain ⟨rfl, -⟩ := ht
    exact h.held source (hlines source (by simp [singleMove]))
  | free source =>
    obtain ⟨rfl, -⟩ := ht
    exact h.held source (hlines source (by simp [singleMove]))
  | pair =>
    obtain ⟨row, rule, hrule, rfl, -⟩ := ht
    have hfirst := h.held rule.first (hlines rule.first (by simp [jointMove]))
    have hsecond := h.held rule.second (hlines rule.second (by simp [jointMove]))
    simp only [jointMove, pairTarget]
    split <;> assumption

theorem passRule_near (ctx : TrimContext) (n : ℕ) : PassRule ctx n (Near ctx.texts n) := by
  refine ⟨fun look st h => h.size, ?_, ?_, ?_⟩
  · intro look st st' stage move hlook h ht he
    have htarget := stageTaken_near h ht
    refine ⟨he.size.trans h.size, he.computed h.computed, fun s => ?_, fun s hs => ?_⟩
    · have := h.cursor s
      rw [he.cursor]
      split <;> omega
    · rw [he.cells] at hs
      rw [he.cursor]
      split
      · rename_i hmem
        rw [if_pos hmem] at hs
        split at hs
        · omega
        · simp at hs
      · rename_i hmem
        rw [if_neg hmem] at hs
        exact h.held s hs
  · intro look st st' hlook h hs
    refine ⟨hs.rows ▸ h.size, hs.rows ▸ h.computed, fun s => ?_, fun s _ => ?_⟩
    · have := h.cursor s
      rw [hs.cursor]
      split <;> omega
    · have := h.cursor s
      rw [hs.cursor]
      split <;> omega
  · intro look st st' h hpass
    have hrows := passBarriers_rows hpass
    refine ⟨hrows ▸ h.size, hrows ▸ h.computed, fun s => ?_, fun s hs => ?_⟩
    · have := h.cursor s
      have := passBarriers_cursor hpass s
      omega
    · rw [hrows] at hs
      have := h.held s hs
      have := passBarriers_cursor hpass s
      omega

def cells (rows : List AlignedRow) (s : MergeSource) : Cells := fun i => cellOf rows i s

structure WholeRows (texts : Sources) (n : ℕ) (lens : MergeSource → ℕ) (look : ℕ)
    (st : TrimState) : Prop where
  near : Near texts n look st
  whole : ∀ s, Whole (lens s) (cells st.rows s)

structure BrokenRows (texts : Sources) (n : ℕ) (lens : MergeSource → ℕ) (look : ℕ)
    (st : TrimState) : Prop where
  near : Near texts n look st
  sound : ∀ s, Sound (lens s) (cells st.rows s)
  broken : ∃ s, Broken (lens s) look (cells st.rows s)

section
variable {texts : Sources} (he : MoveEffect texts look move st st')
include he

theorem cells_moved (hs : s ∈ move.sources) :
    cells st'.rows s = moved (cells st.rows s) look move.target := by
  funext i
  exact (he.cells i s).trans (if_pos hs)

theorem cells_kept (hs : s ∉ move.sources) : cells st'.rows s = cells st.rows s := by
  funext i
  exact (he.cells i s).trans (if_neg hs)

theorem sound_effect (h : ∀ s, Sound (lens s) (cells st.rows s)) :
    ∀ s, Sound (lens s) (cells st'.rows s) := by
  intro s
  by_cases hs : s ∈ move.sources
  · rw [cells_moved he hs]
    exact (h s).moved look move.target
  · rw [cells_kept he hs]
    exact h s

end

theorem passRule_broken (ctx : TrimContext) (n : ℕ) (lens : MergeSource → ℕ) :
    PassRule ctx n (BrokenRows ctx.texts n lens) := by
  have hnear := passRule_near ctx n
  refine ⟨fun look st h => h.near.size, ?_, ?_, ?_⟩
  · intro look st st' stage move hlook h ht he
    obtain ⟨s, hbroken⟩ := h.broken
    refine ⟨hnear.move look st st' stage move hlook h.near ht he, sound_effect he h.sound, s, ?_⟩
    by_cases hs : s ∈ move.sources
    · rw [cells_moved he hs]
      exact hbroken.moved (h.sound s) (le_refl look) move.target
    · rwa [cells_kept he hs]
  · intro look st st' hlook h hs
    obtain ⟨s, hbroken⟩ := h.broken
    refine ⟨hnear.settle look st st' hlook h.near hs, hs.rows ▸ h.sound, s, ?_⟩
    rw [hs.rows]
    exact hbroken.mono (le_succ look)
  · intro look st st' h hpass
    have hrows := passBarriers_rows hpass
    exact ⟨hnear.barriers look st st' h.near hpass, hrows ▸ h.sound, hrows ▸ h.broken⟩

theorem cellsClear_iff {rows : List AlignedRow} {look target : ℕ} :
    cellsClear rows look target s ↔ Clear (cells rows s) look target := by
  simp only [cellsClear, List.all_eq_true, List.mem_range, Bool.or_eq_true, decide_eq_true_iff,
    isNone_iff_eq_none]
  constructor
  · intro h i hi hmin hmax
    by_cases hlt : i < rows.length
    · rcases h i hlt with ((hl | hm) | hm) | hnone
      · exact absurd hl hi
      · omega
      · omega
      · exact hnone
    · simp [cells, cellOf, List.getElem?_eq_none (Nat.le_of_not_lt hlt)]
  · intro h i _
    by_cases hi : i = look
    · exact Or.inl (Or.inl (Or.inl hi))
    · by_cases hmin : i < min look target
      · exact Or.inl (Or.inl (Or.inr hmin))
      · by_cases hmax : max look target < i
        · exact Or.inl (Or.inr hmax)
        · exact Or.inr (h i hi (by omega) (by omega))

theorem wholeRows_move (hlook : look < n)
    (h : WholeRows ctx.texts n lens look st) (ht : StageTaken ctx look st stage move)
    (he : MoveEffect ctx.texts look move st st') (hlands : moveLands st.rows look move) :
    moveKeeps st.rows look move ∧ WholeRows ctx.texts n lens look st' ∨
      moveKeeps st.rows look move = false ∧ BrokenRows ctx.texts n lens look st' := by
  have hnear := (passRule_near ctx n).move look st st' stage move hlook h.near ht he
  cases hkeeps : moveKeeps st.rows look move with
  | true =>
    refine Or.inl ⟨rfl, hnear, fun s => ?_⟩
    rw [moveKeeps, Bool.and_eq_true, List.all_eq_true] at hkeeps
    by_cases hs : s ∈ move.sources
    · rw [cells_moved he hs]
      exact (h.whole s).moved (cellsClear_iff.mp (hkeeps.2 s hs))
    · rw [cells_kept he hs]
      exact h.whole s
  | false =>
    refine Or.inr ⟨rfl, hnear, sound_effect he fun s => (h.whole s).sound, ?_⟩
    rw [moveKeeps, hlands, Bool.true_and, List.all_eq_false] at hkeeps
    obtain ⟨s, hs, hclear⟩ := hkeeps
    obtain ⟨line, hline⟩ := ne_none_iff_exists'.mp (stageTaken_lines h.near.computed ht s hs)
    refine ⟨s, ?_⟩
    rw [cells_moved he hs]
    exact (h.whole s).broken_moved hline (fun hc => hclear (cellsClear_iff.mpr hc))
      (stageTaken_near h.near ht)

theorem runStages_whole (hlook : look < n) (stages : List TrimStage) :
    ∀ {st st' : TrimState}, WholeRows ctx.texts n lens look st →
      runStages ctx look stages st = some st' → movesMeet moveKeeps ctx look stages st ∧
          WholeRows ctx.texts n lens look st' ∨ movesMeet moveKeeps ctx look stages st = false ∧
          BrokenRows ctx.texts n lens look st' := by
  induction stages with
  | nil =>
    intro st st' hw h
    exact Or.inl ⟨rfl, some.inj h ▸ hw⟩
  | cons stage stages ih =>
    intro st st' hw h
    obtain ⟨st1, hstage, h⟩ := bind_eq_some_iff.mp h
    rcases runStage_cases hstage with ⟨hnone, heq⟩ | ⟨move, hmove, ht, happly⟩
    · rw [heq] at h
      simp only [movesMeet, hnone]
      exact ih hw h
    · have hsize := hw.near.size
      have he := applyMove_effect ht (by omega) happly
      have hlands : moveLands st.rows look move := decide_eq_true (applyMove_lands happly)
      simp only [movesMeet, hmove, happly, any_some]
      rcases wholeRows_move hlook hw ht he hlands with ⟨hkeeps, hw1⟩ | ⟨hkeeps, hb1⟩
      · rw [hkeeps, Bool.true_and]
        exact ih hw1 h
      · rw [hkeeps, Bool.false_and]
        exact Or.inr ⟨rfl, (passRule_broken ctx n lens).runStages hlook stages hb1 h⟩

theorem trimStep_whole (hlook : look < n)
    (hw : WholeRows ctx.texts n lens look st) (h : trimStep ctx look st = some st') :
    (passBarriers ctx look st).any (movesMeet moveKeeps ctx look trimStages) ∧
        WholeRows ctx.texts n lens (look + 1) st' ∨
      (passBarriers ctx look st).any (movesMeet moveKeeps ctx look trimStages) = false ∧
        BrokenRows ctx.texts n lens (look + 1) st' := by
  rw [trimStep_bind] at h
  obtain ⟨st1, hpass, h⟩ := bind_eq_some_iff.mp h
  obtain ⟨st2, hrun, h⟩ := bind_eq_some_iff.mp h
  have hrows := passBarriers_rows hpass
  have hw1 : WholeRows ctx.texts n lens look st1 :=
    ⟨(passRule_near ctx n).barriers look st st1 hw.near hpass, hrows ▸ hw.whole⟩
  rw [hpass, any_some]
  rcases runStages_whole hlook trimStages hw1 hrun with ⟨hmeets, hw2⟩ | ⟨hmeets, hb2⟩
  · have hsize := hw2.near.size
    obtain ⟨st3, hsettle, hs⟩ := settleRow_spec (l := look) (t := st2) (by omega)
    obtain rfl := some.inj (hsettle.symm.trans h)
    exact Or.inl ⟨hmeets, (passRule_near ctx n).settle look st2 st3 hlook hw2.near hs,
      hs.rows ▸ hw2.whole⟩
  · exact Or.inr ⟨hmeets, (passRule_broken ctx n lens).settled hlook hb2 h⟩

theorem trimLoop_whole (count : ℕ) : ∀ {look : ℕ} {st st' : TrimState},
    look + count = n → WholeRows ctx.texts n lens look st → trimLoop ctx count look st = some st' →
      stepsMeet moveKeeps ctx count look st ∧ WholeRows ctx.texts n lens n st' ∨
        stepsMeet moveKeeps ctx count look st = false ∧ BrokenRows ctx.texts n lens n st' := by
  induction count with
  | zero =>
    rintro look st st' rfl hw h
    exact Or.inl ⟨rfl, some.inj h ▸ hw⟩
  | succ count ih =>
    intro look st st' hn hw h
    obtain ⟨st1, hstep, h⟩ := bind_eq_some_iff.mp h
    simp only [stepsMeet, hstep, any_some]
    rcases trimStep_whole (by omega) hw hstep with ⟨hmeets, hw1⟩ | ⟨hmeets, hb1⟩
    · rw [hmeets, Bool.true_and]
      exact ih (by omega) hw1 h
    · rw [hmeets, Bool.false_and]
      exact Or.inr ⟨rfl, (passRule_broken ctx n lens).trimLoop count (by omega) hb1 h⟩

theorem runStages_lands (hlook : look < n) (stages : List TrimStage) :
    ∀ {st st' : TrimState}, st.rows.length = n → runStages ctx look stages st = some st' →
      movesMeet moveLands ctx look stages st := by
  induction stages with
  | nil => exact fun _ _ => rfl
  | cons stage stages ih =>
    intro st st' hsize h
    obtain ⟨st1, hstage, h⟩ := bind_eq_some_iff.mp h
    rcases runStage_cases hstage with ⟨hnone, heq⟩ | ⟨move, hmove, ht, happly⟩
    · rw [heq] at h
      simp only [movesMeet, hnone]
      exact ih hsize h
    · have he := applyMove_effect ht (by omega) happly
      simp only [movesMeet, hmove, happly, any_some, Bool.and_eq_true]
      exact ⟨decide_eq_true (applyMove_lands happly), ih (he.size.trans hsize) h⟩

theorem trimLoop_lands (count : ℕ) : ∀ {look : ℕ} {st st' : TrimState}, look + count = n →
    Near ctx.texts n look st → trimLoop ctx count look st = some st' →
      stepsMeet moveLands ctx count look st := by
  induction count with
  | zero => exact fun _ _ _ => rfl
  | succ count ih =>
    intro look st st' hn hnear h
    obtain ⟨st1, hstep, h⟩ := bind_eq_some_iff.mp h
    have hnear1 := (passRule_near ctx n).trimStep (by omega) hnear hstep
    simp only [stepsMeet, hstep, any_some, Bool.and_eq_true]
    refine ⟨?_, ih (by omega) hnear1 h⟩
    rw [trimStep_bind] at hstep
    obtain ⟨st2, hpass, hstep⟩ := bind_eq_some_iff.mp hstep
    obtain ⟨st3, hrun, -⟩ := bind_eq_some_iff.mp hstep
    rw [hpass, any_some]
    exact runStages_lands (by omega) trimStages (passBarriers_rows hpass ▸ hnear.size) hrun

theorem stepsMeet_runs (count : ℕ) : ∀ {look : ℕ} {st : TrimState},
    stepsMeet test ctx count look st → ∃ st', trimLoop ctx count look st = some st' := by
  induction count with
  | zero => exact fun _ => ⟨_, rfl⟩
  | succ count ih =>
    intro look st h
    simp only [stepsMeet, Bool.and_eq_true, any_eq_true] at h
    obtain ⟨-, st1, hstep, h⟩ := h
    obtain ⟨st2, hrun⟩ := ih h
    refine ⟨st2, ?_⟩
    simp only [trimLoop, hstep, bind_eq_bind, bind_some]
    exact hrun

end

section
variable {texts : Sources} {barriers : AlignmentBarriers} {rows out : List AlignedRow}
  {test : MoveTest}

theorem near_start {texts : Sources} {rows : List AlignedRow} (h : Computed texts rows) :
    Near texts rows.length 0 ⟨rows, .zero, .zero⟩ :=
  ⟨rfl, h, fun s => by simp, fun s _ => by simp⟩

theorem trimRows_loop (h : trimRows texts barriers rows = some out) :
    ∃ st, trimLoop ⟨texts, barriers, (occupiedRows texts rows).map barriers.rowSegment⟩
        (occupiedRows texts rows).length 0 ⟨occupiedRows texts rows, .zero, .zero⟩ = some st ∧
      out = occupiedRows texts st.rows := by
  simp only [trimRows, bind_eq_bind] at h
  split at h
  · rename_i hempty
    rw [List.isEmpty_iff] at hempty
    refine ⟨⟨[], .zero, .zero⟩, by rw [hempty]; rfl, ?_⟩
    rw [← some.inj h, hempty]
    rfl
  · obtain ⟨st, hrun, h⟩ := bind_eq_some_iff.mp h
    exact ⟨st, hrun, (some.inj h).symm⟩

theorem passMeets_runs (h : passMeets test texts barriers rows) :
    ∃ out, trimRows texts barriers rows = some out := by
  obtain ⟨st, hrun⟩ := stepsMeet_runs _ h
  simp only [trimRows]
  split
  · exact ⟨_, rfl⟩
  · rw [hrun]
    exact ⟨_, rfl⟩

theorem trimRows_lands (h : trimRows texts barriers rows = some out) :
    passMeets moveLands texts barriers rows := by
  obtain ⟨st, hrun, -⟩ := trimRows_loop h
  exact trimLoop_lands _ (zero_add _) (near_start (computed_occupied texts rows)) hrun

theorem covers_occupied_iff {n : ℕ} :
    CoversLine s (occupiedRows texts rows) 0 n ↔ CoversLine s rows 0 n := by
  refine ⟨fun h => ⟨h.le, ?_⟩, covers_occupied⟩
  rw [← h.eq, occupiedRows, List.filterMap_map, List.filterMap_filter]
  refine List.filterMap_congr fun row _ => ?_
  split
  · exact (line_recompute texts row s).symm
  · rename_i hocc
    cases hline : row.line s with
    | none => rfl
    | some line => exact absurd (occupied_iff.mpr ⟨s, line, hline⟩) hocc

theorem trimRows_keeps_iff (hcovers : ∀ s, CoversLine s rows 0 (lens s))
    (h : trimRows texts barriers rows = some out) :
    passMeets moveKeeps texts barriers rows ↔ ∀ s, CoversLine s out 0 (lens s) := by
  obtain ⟨st, hrun, rfl⟩ := trimRows_loop h
  have hwhole : ∀ {rows : List AlignedRow} {s : MergeSource}, CoversLine s rows 0 (lens s) ↔
      Whole (lens s) (cells rows s) := covers_iff_whole
  have hstart : WholeRows texts (occupiedRows texts rows).length lens 0
      ⟨occupiedRows texts rows, .zero, .zero⟩ :=
    ⟨near_start (computed_occupied texts rows), fun s =>
      hwhole.mp (covers_occupied (hcovers s))⟩
  rcases trimLoop_whole _ (zero_add _) hstart hrun with ⟨hmeets, hw⟩ | ⟨hmeets, hb⟩
  · exact ⟨fun _ s => covers_occupied (hwhole.mpr (hw.whole s)), fun _ => hmeets⟩
  · constructor
    · intro hkeeps
      exact absurd (hmeets.symm.trans hkeeps) (by simp)
    · intro hall
      obtain ⟨s, hbroken⟩ := hb.broken
      exact absurd (hwhole.mp (covers_occupied_iff.mp (hall s))) hbroken.not_whole

end

end GitComet.Merge
