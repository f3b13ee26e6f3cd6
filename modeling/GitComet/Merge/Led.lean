import GitComet.Merge.TrimRows

namespace GitComet.Merge
open Slice Text Columns List Option Nat

-- Rows in which a line of `c` never comes after its copy in `b`. The flag says that `a` has not
-- overtaken `b` on the way here, without which a pair of `a` and `b` could miss the copy.
inductive Led (texts : Sources) : Bool → ℕ → ℕ → List AlignedRow → Prop
  | nil {held : Bool} {b : ℕ} : Led texts held b b []
  | base {held : Bool} {b c : ℕ} {row : AlignedRow} {rows : List AlignedRow} :
      row.line .a ≠ none → row.line .b = none → row.line .c = none → Led texts false b c rows →
      Led texts held b c (row :: rows)
  | theirs {held : Bool} {b c : ℕ} {row : AlignedRow} {rows : List AlignedRow} :
      row.line .a = none → row.line .b = none → row.line .c = some c →
      Led texts held b (c + 1) rows → Led texts held b c (row :: rows)
  | ours {held : Bool} {b c : ℕ} {row : AlignedRow} {rows : List AlignedRow} :
      row.line .a = none → row.line .b = some b → row.line .c = none → b < c →
      Led texts held (b + 1) c rows → Led texts held b c (row :: rows)
  | pair {b c : ℕ} {row : AlignedRow} {rows : List AlignedRow} :
      row.line .a ≠ none → row.line .b = some b → row.line .c = none → b < c →
      Led texts true (b + 1) c rows → Led texts true b c (row :: rows)
  | same {held : Bool} {b : ℕ} {row : AlignedRow} {rows : List AlignedRow} :
      row.line .b = some b → row.line .c = some b →
      (pairMetadata (row.text texts .a) (row.text texts .b)).2 = true →
      Led texts true (b + 1) (b + 1) rows → Led texts held b b (row :: rows)

variable {rows : List AlignedRow}

theorem Led.weaken {texts : Sources} {held : Bool} {b c : ℕ}
    (h : Led texts false b c rows) : Led texts held b c rows := by
  generalize hfalse : false = flag at h
  induction h with
  | nil => exact .nil
  | base ha hb hc hrest _ => exact .base ha hb hc hrest
  | theirs ha hb hc _ ih => exact .theirs ha hb hc (ih hfalse)
  | ours ha hb hc hlt _ ih => exact .ours ha hb hc hlt (ih hfalse)
  | pair => cases hfalse
  | same hb hc hwords hrest _ => exact .same hb hc hwords hrest

theorem Led.occupied {texts : Sources} {held : Bool} {b c : ℕ}
    (h : Led texts held b c rows) : Led texts held b c (occupiedRows texts rows) := by
  have hcons : ∀ {row : AlignedRow} {rows : List AlignedRow}, (∃ s, row.line s ≠ none) →
      occupiedRows texts (row :: rows) =
        recomputeRowMetadata texts row :: occupiedRows texts rows := by
    rintro row rows ⟨s, hs⟩
    obtain ⟨line, hline⟩ := ne_none_iff_exists'.mp hs
    rw [occupiedRows, filter_cons_of_pos (occupied_iff.mpr ⟨s, line, hline⟩)]
    rfl
  induction h with
  | nil => exact .nil
  | base ha hb hc _ ih =>
    rw [hcons ⟨.a, ha⟩]
    exact .base (by simpa using ha) (by simpa using hb) (by simpa using hc) ih
  | theirs ha hb hc _ ih =>
    rw [hcons ⟨.c, by simp [hc]⟩]
    exact .theirs (by simpa using ha) (by simpa using hb) (by simpa using hc) ih
  | ours ha hb hc hlt _ ih =>
    rw [hcons ⟨.b, by simp [hb]⟩]
    exact .ours (by simpa using ha) (by simpa using hb) (by simpa using hc) hlt ih
  | pair ha hb hc hlt _ ih =>
    rw [hcons ⟨.b, by simp [hb]⟩]
    exact .pair (by simpa using ha) (by simpa using hb) (by simpa using hc) hlt ih
  | same hb hc hwords _ ih =>
    rw [hcons ⟨.b, by simp [hb]⟩]
    exact .same (by simpa using hb) (by simpa using hc)
      (by simpa [text_recompute] using hwords) ih

structure Queued (b c : ℕ) (st : TrimState) : Prop where
  le : st.line.at .b ≤ st.line.at .c
  ahead : b + st.line.at .c = c + st.line.at .b
  settled : ∀ i, i < st.line.at .b → cellOf st.rows i .b = cellOf st.rows i .c
  waiting : ∀ i, st.line.at .b ≤ i → i < st.line.at .c →
    cellOf st.rows i .c = some (b + (i - st.line.at .b))

section
variable {ctx : TrimContext} {n look : ℕ} {st st' : TrimState} {stage : TrimStage}
  {move : TrimMove} {b c : ℕ}

theorem queued_theirs (h : TrimInvariant ctx.texts n look st) (hq : Queued b c st)
    (hm : CellMoved look .c c st st') : Queued b (c + 1) st' := by
  have hline := hm.line
  have hother := hm.lines .b (by decide)
  have hle := hq.le
  have hahead := hq.ahead
  have hbound := h.bound .c
  refine ⟨by omega, by omega, fun i hi => ?_, fun i hi hi' => ?_⟩
  · rw [hm.other .b (by decide), hm.here, if_neg (by omega), if_neg (by omega)]
    exact hq.settled i (by omega)
  · rw [hm.here]
    split
    · congr 1
      omega
    · rw [if_neg (by omega), hother]
      exact hq.waiting i (by omega) (by omega)

structure OursMoved (look b : ℕ) (st st' : TrimState) : Prop where
  ours : ∀ i, cellOf st'.rows i .b =
    if i = st.line.at .b then some b else if i = look then none else cellOf st.rows i .b
  theirs : ∀ i, cellOf st'.rows i .c = cellOf st.rows i .c
  line : st'.line.at .b = st.line.at .b + 1
  lines : st'.line.at .c = st.line.at .c

theorem queued_ours (h : TrimInvariant ctx.texts n look st) (hq : Queued b c st) (hlt : b < c)
    (hm : OursMoved look b st st') : Queued (b + 1) c st' := by
  have hline := hm.line
  have hother := hm.lines
  have hle := hq.le
  have hahead := hq.ahead
  have hbound := h.bound .b
  refine ⟨by omega, by omega, fun i hi => ?_, fun i hi hi' => ?_⟩
  · rw [hm.ours, hm.theirs]
    split
    · rename_i hi'
      rw [hq.waiting i (by omega) (by omega), hi', Nat.sub_self, add_zero]
    · rw [if_neg (by omega)]
      exact hq.settled i (by omega)
  · rw [hm.theirs, hq.waiting i (by omega) (by omega)]
    congr 1
    omega

theorem queued_base (hq : Queued b c st) (hours : ∀ i, cellOf st'.rows i .b = cellOf st.rows i .b)
    (htheirs : ∀ i, cellOf st'.rows i .c = cellOf st.rows i .c)
    (hline : st'.line.at .b = st.line.at .b) (hline' : st'.line.at .c = st.line.at .c) :
    Queued b c st' := by
  refine ⟨by rw [hline, hline']; exact hq.le, by rw [hline, hline']; exact hq.ahead,
    fun i hi => ?_, fun i hi hi' => ?_⟩
  · rw [hours, htheirs]
    exact hq.settled i (hline ▸ hi)
  · rw [htheirs, hline]
    exact hq.waiting i (hline ▸ hi) (hline' ▸ hi')

structure BaseMoved (texts : Sources) (n look : ℕ) (st st' : TrimState) : Prop where
  inv : TrimInvariant texts n look st'
  cells : ∀ s, s ≠ .a → ∀ i, cellOf st'.rows i s = cellOf st.rows i s
  line : ∀ s, s ≠ .a → st'.line.at s = st.line.at s

theorem baseMoved_refl (h : TrimInvariant ctx.texts n look st) :
    BaseMoved ctx.texts n look st st := ⟨h, fun _ _ _ => rfl, fun _ _ => rfl⟩

theorem baseMoved_single (h : TrimInvariant ctx.texts n look st')
    (he : MoveEffect ctx.texts look (singleMove .a st) st st') :
    BaseMoved ctx.texts n look st st' := by
  refine ⟨h, fun s hs i => ?_, fun s hs => ?_⟩
  · rw [he.cells, if_neg (by simpa [singleMove] using hs)]
  · rw [he.line, if_neg (by simpa [singleMove] using hs)]

theorem BaseMoved.trans {st'' : TrimState} (h : BaseMoved ctx.texts n look st st')
    (h' : BaseMoved ctx.texts n look st' st'') : BaseMoved ctx.texts n look st st'' :=
  ⟨h'.inv, fun s hs i => (h'.cells s hs i).trans (h.cells s hs i),
    fun s hs => (h'.line s hs).trans (h.line s hs)⟩

section
variable (h : TrimInvariant ctx.texts n look st)
include h

theorem single_gone {s : MergeSource}
    (hlt : st.line.at s < look) (he : MoveEffect ctx.texts look (singleMove s st) st st') :
    cellOf st'.rows look s = none ∧ st'.line.at s = st.line.at s + 1 := by
  have hsync := h.synced s
  constructor
  · rw [he.cells, if_pos (by simp [singleMove]), if_neg (by simp only [singleMove]; omega),
      if_pos rfl]
  · rw [he.line, if_pos (by simp [singleMove])]
    rfl

theorem joinBase_run (hlook : look < n) :
    ∃ st', runStage ctx look (.join .a) st = some st' ∧ BaseMoved ctx.texts n look st st' ∧
      (st' = st ∨ cellOf st'.rows look .a = none ∧ st'.line.at .a ≤ st.line.at .b) := by
  obtain ⟨move, hmove⟩ := stageMove_defined ctx (h.size ▸ hlook) (fun s hs => by
    rw [h.synced, h.size]
    omega) (.join .a)
  cases move with
  | none => exact ⟨st, runStage_quiet hmove, baseMoved_refl h, Or.inl rfl⟩
  | some move =>
    obtain ⟨st1, e1, he, h1⟩ := runStage_take h hlook hmove
    obtain ⟨rfl, hlt, -, hanchor, -⟩ := stageFacts h (stageMove_taken hmove)
    obtain ⟨hgone, hline⟩ := single_gone h hlt he
    refine ⟨st1, e1, baseMoved_single h1 he, Or.inr ⟨hgone, ?_⟩⟩
    rw [hline]
    by_contra hcontra
    exact hanchor (h.clear .b _ (by omega) hlt)

theorem freeBase_run (hopen : ctx.barriers.isEmpty)
    (hlook : look < n) (hlt : st.line.at .a < look) (hc : cellOf st.rows look .c = none) :
    ∃ st', runStage ctx look (.free .a) st = some st' ∧ BaseMoved ctx.texts n look st st' ∧
      (cellOf st'.rows look .a = none ∧ st'.line.at .a ≤ st.line.at .a + 1 ∨
        st' = st ∧ cellFlag ctx.texts st.rows look .a .b) := by
  by_cases ha : cellOf st.rows look .a = none
  · refine ⟨st, runStage_quiet (stage_quiet h hlook fun move hf => hf.2.2.1 ha),
      baseMoved_refl h, Or.inl ⟨ha, le_succ _⟩⟩
  · cases hflag : cellFlag ctx.texts st.rows look .a .b with
    | true =>
      refine ⟨st, runStage_quiet (stage_quiet h hlook fun move hf => ?_), baseMoved_refl h,
        Or.inr ⟨rfl, rfl⟩⟩
      exact flag_absurd hflag hf.2.2.2.1
    | false =>
      obtain ⟨st1, e1, he, h1⟩ := runStage_take h hlook
        (free_ready h hopen hlook hlt ha hflag (cellFlag_right _ hc))
      obtain ⟨hgone, hline⟩ := single_gone h hlt he
      exact ⟨st1, e1, baseMoved_single h1 he, Or.inl ⟨hgone, hline.le⟩⟩

end

theorem cellFlag_comm (texts : Sources) (rows : List AlignedRow) (i : ℕ) (s t : MergeSource) :
    cellFlag texts rows i s t = cellFlag texts rows i t s := by
  rw [cellFlag, cellFlag, pairMetadata_comm]

variable {st1 : TrimState} {x : ℕ}

theorem oursMoved_effect {st2 : TrimState} (hbase : BaseMoved ctx.texts n look st st1)
    (he : MoveEffect ctx.texts look move st1 st2) (hmem : .b ∈ move.sources)
    (hnot : .c ∉ move.sources) (htarget : move.target = st1.line.at .b)
    (hnext : move.nextLine = move.target + 1) (hs : Settled look st2 st')
    (hb : cellOf st.rows look .b = some x) (hc : cellOf st.rows look .c = none)
    (hlt : st.line.at .b < look) : OursMoved look x st st' := by
  have hline := hbase.line .b (by decide)
  have hours : ∀ i, cellOf st2.rows i .b =
      if i = st.line.at .b then some x else if i = look then none else cellOf st.rows i .b := by
    intro i
    rw [he.cells, if_pos hmem, htarget, hline, hbase.cells .b (by decide), hb,
      hbase.cells .b (by decide)]
  have htheirs : ∀ i, cellOf st2.rows i .c = cellOf st.rows i .c := by
    intro i
    rw [he.cells, if_neg hnot, hbase.cells .c (by decide)]
  have hgone : cellOf st2.rows look .b = none := by rw [hours, if_neg (by omega), if_pos rfl]
  refine ⟨fun i => by rw [hs.rows, hours], fun i => by rw [hs.rows, htheirs], ?_, ?_⟩
  · rw [hs.line, hgone, he.line, if_pos hmem, hnext, htarget, hline]
    rfl
  · rw [hs.line, htheirs, hc, he.line, if_neg hnot]
    exact hbase.line .c (by decide)

theorem runStages_cons {stages : List TrimStage} (h : runStage ctx look stage st = some st1) :
    runStages ctx look (stage :: stages) st = runStages ctx look stages st1 := by
  rw [runStages, h, bind_eq_bind, bind_some]

theorem quiet_run (h : TrimInvariant ctx.texts n look st) (hlook : look < n)
    (hno : ∀ move, ¬StageFacts ctx.texts look st stage move) :
    runStage ctx look stage st = some st := runStage_quiet (stage_quiet h hlook hno)

theorem ours_run (hbase : BaseMoved ctx.texts n look st st1)
    (hopen : ctx.barriers.isEmpty) (hlook : look < n)
    (hb : cellOf st.rows look .b = some x) (hc : cellOf st.rows look .c = none)
    (hlt : st.line.at .b < look)
    (ha : cellOf st1.rows look .a = none ∧ st1.line.at .a ≤ st.line.at .b + 1 ∨
      st1.line.at .a ≤ st.line.at .b ∧ cellFlag ctx.texts st1.rows look .a .b) :
    ∃ st2 move, runStages ctx look [.free .b, .free .c, .pair] st1 = some st2 ∧
      MoveEffect ctx.texts look move st1 st2 ∧ .b ∈ move.sources ∧ .c ∉ move.sources ∧
      move.target = st1.line.at .b ∧ move.nextLine = move.target + 1 ∧
      st2.line.at .a ≤ st.line.at .b + 1 ∧ cellOf st2.rows look .a = none := by
  have hinv := hbase.inv
  have hsync := hinv.synced .b
  have hline := hbase.line .b (by decide)
  have hcellb : cellOf st1.rows look .b ≠ none := by
    rw [hbase.cells .b (by decide), hb]
    exact some_ne_none x
  have hcellc : cellOf st1.rows look .c = none := by rw [hbase.cells .c (by decide), hc]
  rcases ha with ⟨hgone, hle⟩ | ⟨hle, hflag⟩
  · obtain ⟨st2, e2, he, h2⟩ := runStage_take hinv hlook (free_ready (s := .b) hinv hopen hlook
      (by omega) hcellb (cellFlag_right _ hgone) (cellFlag_right _ hcellc))
    obtain ⟨hb2, -⟩ := single_gone hinv (by omega) he
    have hothers : ∀ t, t ≠ .b → cellOf st2.rows look t = cellOf st1.rows look t := fun t ht => by
      rw [he.cells, if_neg (by simpa [singleMove] using ht)]
    refine ⟨st2, singleMove .b st1, ?_, he, by simp [singleMove], by simp [singleMove],
      hsync, ?_, ?_, ?_⟩
    · rw [runStages_cons e2]
      refine empty_quiet h2 hlook (fun t => ?_) _
      cases t with
      | a => rw [hothers .a (by decide), hgone]
      | b => exact hb2
      | c => rw [hothers .c (by decide), hcellc]
    · simp only [singleMove, hsync]
    · rw [he.line, if_neg (by simp [singleMove])]
      exact hle
    · rw [hothers .a (by decide), hgone]
  · obtain ⟨rule, hrule, hpair, hfacts⟩ := pair_ready (r := ⟨.a, .b, (.a, .c)⟩) hinv hopen hlook
      (by simp [pairRules]) (by simp only; omega) (by simp only; omega)
      (cellFlag_some hflag).1 hflag (cellFlag_right _ hcellc)
    obtain ⟨st2, e2, he, -⟩ := runStage_take hinv hlook hpair
    have hfreeb : runStage ctx look (.free .b) st1 = some st1 := by
      refine quiet_run hinv hlook fun move hf => ?_
      rw [cellFlag_comm] at hflag
      exact flag_absurd hflag hf.2.2.2.1
    have hfreec : runStage ctx look (.free .c) st1 = some st1 :=
      quiet_run hinv hlook fun move hf => hf.2.2.1 hcellc
    simp only [pairRules, mem_cons, not_mem_nil, or_false] at hrule
    rcases hrule with rfl | rfl | rfl
    · have hmax : pairTarget st1 ⟨.a, .b, (.a, .c)⟩ = st1.line.at .b := by
        rw [pairTarget_open hinv]
        simp only
        omega
      refine ⟨st2, jointMove st1 ⟨.a, .b, (.a, .c)⟩, ?_, he, by simp [jointMove],
        by simp [jointMove], hmax, ?_, ?_, ?_⟩
      · rw [runStages_cons hfreeb, runStages_cons hfreec, runStages_cons e2]
        rfl
      · simp only [jointMove, hmax]
        omega
      · rw [he.line, if_pos (by simp [jointMove])]
        simp only [jointMove]
        omega
      · rw [he.cells, if_pos (by simp [jointMove]), if_neg, if_pos rfl]
        simp only [jointMove, hmax]
        omega
    · exact absurd hcellc (cellFlag_some hfacts.2.2.2.1).2
    · exact absurd hcellc (cellFlag_some hfacts.2.2.2.1).2

theorem pair_step (h : TrimInvariant ctx.texts n look st) (hopen : ctx.barriers.isEmpty)
    (hlook : look < n) (hb : cellOf st.rows look .b = some x) (hc : cellOf st.rows look .c = none)
    (hheld : st.line.at .a ≤ st.line.at .b) (hlt : st.line.at .b < look) :
    ∃ st', trimStep ctx look st = some st' ∧ OursMoved look x st st' ∧
      st'.line.at .a ≤ st'.line.at .b := by
  obtain ⟨st1, e1, h1, hjoin⟩ := joinBase_run h hlook
  have hle1 : st1.line.at .a ≤ st.line.at .b := by
    rcases hjoin with rfl | ⟨-, hle⟩
    · exact hheld
    · exact hle
  have hline1 := h1.line .b (by decide)
  have hcell1 := (h1.cells .c (by decide) look).trans hc
  obtain ⟨st2, e2, h2, hfree⟩ := freeBase_run h1.inv hopen hlook (by omega) hcell1
  obtain ⟨st3, move, e3, he, hmem, hnot, htarget, hnext, hle3, hgone⟩ := ours_run
    (h1.trans h2) hopen hlook hb hc hlt (by
      rcases hfree with ⟨hgone, hle⟩ | ⟨rfl, hflag⟩
      · exact Or.inl ⟨hgone, by omega⟩
      · exact Or.inr ⟨hle1, hflag⟩)
  have hours : runStage ctx look (.join .b) st1 = some st1 := quiet_run h1.inv hlook fun move hf =>
    hf.2.2.2.1 (h1.inv.clear .a _ (by omega) hf.2.1)
  have htheirs : runStage ctx look (.join .c) st1 = some st1 :=
    quiet_run h1.inv hlook fun move hf => hf.2.2.1 hcell1
  have hrun : runStages ctx look trimStages st = some st3 := by
    rw [trimStages, runStages_cons e1, runStages_cons hours, runStages_cons htheirs,
      runStages_cons e2]
    exact e3
  have hsize : look < st3.rows.length := by
    rw [he.size, h2.inv.size]
    exact hlook
  obtain ⟨st', hstep, hs⟩ := trimStep_eq hopen hrun hsize
  have hmoved := oursMoved_effect (h1.trans h2) he hmem hnot htarget hnext hs hb hc hlt
  refine ⟨st', hstep, hmoved, ?_⟩
  rw [hmoved.line, hs.line, hgone]
  exact hle3

structure BothMoved (look x target : ℕ) (st st' : TrimState) : Prop where
  from_line : st.line.at .b ≤ target
  le : target ≤ look
  cells : ∀ s, s ≠ .a → ∀ i, cellOf st'.rows i s =
    if i = target then some x else if i = look then none else cellOf st.rows i s
  line : ∀ s, s ≠ .a → st'.line.at s = target + 1
  base : st'.line.at .a ≤ target + 1

theorem queued_both {target : ℕ} (h : TrimInvariant ctx.texts n look st) (hq : Queued b b st)
    (hm : BothMoved look b target st st') : Queued (b + 1) (b + 1) st' := by
  have hb := hm.line .b (by decide)
  have hc := hm.line .c (by decide)
  have hahead := hq.ahead
  have hle := hm.le
  refine ⟨by omega, by omega, fun i hi => ?_, fun i hi hi' => by omega⟩
  rw [hm.cells .b (by decide), hm.cells .c (by decide)]
  split
  · rfl
  · rw [if_neg (by omega), if_neg (by omega)]
    by_cases hlt : i < st.line.at .b
    · exact hq.settled i hlt
    · rw [h.clear .b i (by omega) (by omega), h.clear .c i (by omega) (by omega)]

theorem same_front (h : TrimInvariant ctx.texts n look st1) (hlook : look < n)
    (hline : st1.line.at .b = st1.line.at .c)
    (hflag : cellFlag ctx.texts st1.rows look .b .c)
    (ha : cellOf st1.rows look .a = none ∨ cellFlag ctx.texts st1.rows look .a .b) :
    runStages ctx look [.join .b, .join .c, .free .a, .free .b, .free .c, .pair] st1 =
      runStage ctx look .pair st1 := by
  have hjoinb : runStage ctx look (.join .b) st1 = some st1 := quiet_run h hlook fun move hf =>
    (cellFlag_some hf.2.2.2.2).2 (h.clear .c _ hline.ge hf.2.1)
  have hjoinc : runStage ctx look (.join .c) st1 = some st1 := quiet_run h hlook fun move hf =>
    (cellFlag_some hf.2.2.2.2).2 (h.clear .b _ hline.le hf.2.1)
  have hfreea : runStage ctx look (.free .a) st1 = some st1 := by
    refine quiet_run h hlook fun move hf => ?_
    rcases ha with hnone | hab
    · exact hf.2.2.1 hnone
    · exact flag_absurd hab hf.2.2.2.1
  have hfreeb : runStage ctx look (.free .b) st1 = some st1 := quiet_run h hlook fun move hf =>
    flag_absurd hflag hf.2.2.2.2
  have hfreec : runStage ctx look (.free .c) st1 = some st1 := by
    refine quiet_run h hlook fun move hf => ?_
    rw [cellFlag_comm] at hflag
    exact flag_absurd hflag hf.2.2.2.2
  rw [runStages_cons hjoinb, runStages_cons hjoinc, runStages_cons hfreea, runStages_cons hfreeb,
    runStages_cons hfreec, runStages]
  cases runStage ctx look .pair st1 <;> rfl

theorem both_run (h : TrimInvariant ctx.texts n look st1)
    (hopen : ctx.barriers.isEmpty) (hlook : look < n)
    (hline : st1.line.at .b = st1.line.at .c)
    (hflag : cellFlag ctx.texts st1.rows look .b .c)
    (hgone : cellOf st1.rows look .a = none) :
    (runStage ctx look .pair st1 = some st1 ∧ st1.line.at .b = look) ∨
      ∃ st2 move, runStage ctx look .pair st1 = some st2 ∧ MoveEffect ctx.texts look move st1 st2 ∧
        (∀ s, s ∈ move.sources ↔ s ≠ .a) ∧ move.target = st1.line.at .b ∧ move.target < look ∧
        move.nextLine = move.target + 1 := by
  have hnobase : ∀ rule ∈ pairRules, PairFacts ctx.texts look st1 rule →
      rule = ⟨.b, .c, (.a, .c)⟩ := by
    intro rule hrule hfacts
    simp only [pairRules, mem_cons, not_mem_nil, or_false] at hrule
    rcases hrule with rfl | rfl | rfl
    · exact absurd hgone hfacts.2.2.1
    · exact absurd hgone hfacts.2.2.1
    · rfl
  rcases lt_or_eq_of_le (h.bound .b) with hlt | heq
  · obtain ⟨rule, hrule, hpair, hfacts⟩ := pair_ready (r := ⟨.b, .c, (.a, .c)⟩) h hopen hlook
      (by simp [pairRules]) hlt (hline ▸ hlt) (cellFlag_some hflag).1 hflag
      (cellFlag_left _ hgone)
    obtain ⟨st2, e2, he, -⟩ := runStage_take h hlook hpair
    obtain rfl := hnobase rule hrule hfacts
    have htarget : pairTarget st1 ⟨.b, .c, (.a, .c)⟩ = st1.line.at .b := by
      rw [pairTarget_open h]
      simp only
      omega
    refine Or.inr ⟨st2, _, e2, he, fun s => ?_, htarget, ?_, ?_⟩
    · cases s <;> simp [jointMove]
    · simp only [jointMove, htarget]
      exact hlt
    · simp only [jointMove, htarget]
      omega
  · refine Or.inl ⟨quiet_run h hlook fun move hf => ?_, heq⟩
    obtain ⟨rule, hrule, -, hfacts⟩ := hf
    obtain rfl := hnobase rule hrule hfacts
    have := hfacts.1
    simp only at this
    omega

theorem same_flags (hsame : ctx.texts.c = ctx.texts.b) (hb : cellOf rows look .b = some x)
    (hc : cellOf rows look .c = some x) (hwords : cellFlag ctx.texts rows look .a .b) :
    cellFlag ctx.texts rows look .a .c ∧ cellFlag ctx.texts rows look .b .c := by
  have hlines : ctx.texts.lines .c = ctx.texts.lines .b := hsame
  constructor
  · rwa [cellFlag, hlines, hc, ← hb]
  · rw [cellFlag, pairMetadata_whitespaceEqual] at hwords ⊢
    obtain ⟨-, y, -, hy, -⟩ := hwords
    exact ⟨y, y, hy, by rwa [hlines, hc, ← hb], rfl⟩

theorem same_step (h : TrimInvariant ctx.texts n look st) (hopen : ctx.barriers.isEmpty)
    (hlook : look < n) (hsame : ctx.texts.c = ctx.texts.b) (hb : cellOf st.rows look .b = some x)
    (hc : cellOf st.rows look .c = some x) (hline : st.line.at .b = st.line.at .c)
    (hwords : cellFlag ctx.texts st.rows look .a .b) :
    ∃ st' target, trimStep ctx look st = some st' ∧ BothMoved look x target st st' := by
  obtain ⟨hac, hbc⟩ := same_flags hsame hb hc hwords
  have hboth : ∀ s, s ≠ .a → cellOf st.rows look s = some x := fun s hs => by
    cases s with
    | a => exact absurd rfl hs
    | b => exact hb
    | c => exact hc
  obtain ⟨st1, e1, h1, hjoin⟩ := joinBase_run h hlook
  have hline1 : st1.line.at .b = st1.line.at .c := by
    rw [h1.line .b (by decide), h1.line .c (by decide), hline]
  have hbc1 : cellFlag ctx.texts st1.rows look .b .c := by
    rwa [cellFlag, h1.cells .b (by decide), h1.cells .c (by decide)]
  have hfront := same_front h1.inv hlook hline1 hbc1
  have hrun : ∀ st2, runStage ctx look .pair st1 = some st2 →
      (cellOf st1.rows look .a = none ∨ cellFlag ctx.texts st1.rows look .a .b) →
      runStages ctx look trimStages st = some st2 := fun st2 e2 ha => by
    rw [trimStages, runStages_cons e1, hfront ha, e2]
  have hstay : runStages ctx look trimStages st = some st1 →
      ∃ st' target, trimStep ctx look st = some st' ∧ BothMoved look x target st st' := by
    intro e
    obtain ⟨st', hstep, hs⟩ := trimStep_eq hopen e (h1.inv.size ▸ hlook)
    refine ⟨st', look, hstep, h.bound .b, le_refl _, fun s hs' i => ?_, fun s hs' => ?_,
      (trimInvariant_settle h1.inv hs).bound .a⟩
    · rw [hs.rows, h1.cells s hs']
      split
      · rename_i hi
        rw [hi, hboth s hs']
      · rfl
    · rw [hs.line, h1.cells s hs', hboth s hs']
      rfl
  rcases hjoin with rfl | ⟨hgone, hle⟩
  · refine hstay (hrun _ (quiet_run h hlook fun move hf => ?_) (Or.inr hwords))
    obtain ⟨rule, hrule, -, hfacts⟩ := hf
    simp only [pairRules, mem_cons, not_mem_nil, or_false] at hrule
    rcases hrule with rfl | rfl | rfl
    · exact flag_absurd hac hfacts.2.2.2.2
    · exact flag_absurd hwords hfacts.2.2.2.2
    · exact flag_absurd hac hfacts.2.2.2.2
  · rcases both_run h1.inv hopen hlook hline1 hbc1 hgone with
      ⟨e2, -⟩ | ⟨st2, move, e2, he, hsources, htarget, hlt, hnext⟩
    · exact hstay (hrun _ e2 (Or.inl hgone))
    · have hsize : look < st2.rows.length := by
        rw [he.size, h1.inv.size]
        exact hlook
      have hline2 := h1.line .b (by decide)
      have hcells : ∀ s, s ≠ .a → ∀ i, cellOf st2.rows i s = if i = move.target then some x
          else if i = look then none else cellOf st.rows i s := fun s hs i => by
        rw [he.cells, if_pos ((hsources s).mpr hs), h1.cells s hs, h1.cells s hs, hboth s hs]
      obtain ⟨st', hstep, hs⟩ := trimStep_eq hopen (hrun _ e2 (Or.inl hgone)) hsize
      refine ⟨st', move.target, hstep, by omega, by omega, fun s hs' i => ?_, fun s hs' => ?_, ?_⟩
      · rw [hs.rows, hcells s hs']
      · have hempty : cellOf st2.rows look s = none := by
          rw [hcells s hs', if_neg (by omega), if_pos rfl]
        rw [hs.line, hempty, he.line, if_pos ((hsources s).mpr hs'), hnext]
        rfl
      · have hnone : cellOf st2.rows look .a = none := by
          rw [he.cells, if_neg (by simp [hsources]), hgone]
        have hlinea : st2.line.at .a = st1.line.at .a := by rw [he.line, if_neg (by simp [hsources])]
        rw [hs.line, hnone, hlinea]
        simp only [isSome_none, Bool.false_eq_true, if_false]
        omega

structure LedState (texts : Sources) (look : ℕ) (st : TrimState) : Prop where
  led : ∃ held b c, Led texts held b c (st.rows.drop look) ∧ Queued b c st ∧
    (held = true → st.line.at .a ≤ st.line.at .b)

theorem ledState_step (h : TrimInvariant ctx.texts n look st) (hopen : ctx.barriers.isEmpty)
    (hlook : look < n) (hsame : ctx.texts.c = ctx.texts.b) (hs : LedState ctx.texts look st) :
    ∃ st', trimStep ctx look st = some st' ∧ TrimInvariant ctx.texts n (look + 1) st' ∧
      LedState ctx.texts (look + 1) st' := by
  obtain ⟨held, b, c, hled, hq, hheld⟩ := hs.led
  obtain ⟨row, hrow⟩ := row_at h hlook
  have hcell := cellOf_of_getElem? hrow
  have hdrop : st.rows.drop look = row :: st.rows.drop (look + 1) := by
    obtain ⟨hlt, rfl⟩ := List.getElem?_eq_some_iff.mp hrow
    exact drop_eq_getElem_cons hlt
  rw [hdrop] at hled
  have hnext : ∀ {st'}, trimStep ctx look st = some st' →
      (∀ rows, rows = st.rows.drop (look + 1) → ∃ held b c, Led ctx.texts held b c rows ∧
        Queued b c st' ∧ (held → st'.line.at .a ≤ st'.line.at .b)) →
      ∃ st', trimStep ctx look st = some st' ∧ TrimInvariant ctx.texts n (look + 1) st' ∧
        LedState ctx.texts (look + 1) st' := by
    intro st' hstep hled'
    obtain ⟨hinv, hrest⟩ := trimStep_frame h hopen hlook hstep
    refine ⟨st', hstep, hinv, ⟨hled' _ (ext_getElem? fun i => ?_)⟩⟩
    rw [getElem?_drop, getElem?_drop, hrest _ (by omega)]
  have habsent : ∀ {s}, (∀ t, t ≠ s → row.line t = none) →
      ∀ t, t ≠ s → cellOf st.rows look t = none := fun hrows t ht => (hcell t).trans (hrows t ht)
  have hwaits : b < c → st.line.at .b < look := by
    intro hlt
    have := hq.ahead
    have := h.bound .c
    omega
  cases hled with
  | @base _ _ _ _ _ ha hb hc hrest =>
    obtain ⟨x, hx⟩ := ne_none_iff_exists'.mp ha
    obtain ⟨st', hstep, hm⟩ := single_step h hopen hlook (s := .a) ((hcell .a).trans hx)
      (habsent fun t ht => by cases t <;> first | exact absurd rfl ht | assumption)
    refine hnext hstep fun rows hrows => ⟨false, b, c, hrows ▸ hrest, ?_, by simp⟩
    exact queued_base hq (hm.other .b (by decide)) (hm.other .c (by decide))
      (hm.lines .b (by decide)) (hm.lines .c (by decide))
  | @theirs _ _ _ _ _ ha hb hc hrest =>
    obtain ⟨st', hstep, hm⟩ := single_step h hopen hlook (s := .c) ((hcell .c).trans hc)
      (habsent fun t ht => by cases t <;> first | exact absurd rfl ht | assumption)
    refine hnext hstep fun rows hrows => ⟨held, b, c + 1, hrows ▸ hrest, queued_theirs h hq hm,
      fun hh => ?_⟩
    rw [hm.lines .a (by decide), hm.lines .b (by decide)]
    exact hheld hh
  | @ours _ _ _ _ _ ha hb hc hlt hrest =>
    obtain ⟨st', hstep, hm⟩ := single_step h hopen hlook (s := .b) ((hcell .b).trans hb)
      (habsent fun t ht => by cases t <;> first | exact absurd rfl ht | assumption)
    refine hnext hstep fun rows hrows => ⟨held, b + 1, c, hrows ▸ hrest, queued_ours h hq hlt
      ⟨hm.here, hm.other .c (by decide), hm.line, hm.lines .c (by decide)⟩, fun hh => ?_⟩
    have := hheld hh
    rw [hm.lines .a (by decide), hm.line]
    omega
  | @pair _ _ _ _ ha hb hc hlt hrest =>
    obtain ⟨st', hstep, hm, hle⟩ := pair_step h hopen hlook ((hcell .b).trans hb)
      ((hcell .c).trans hc) (hheld rfl) (hwaits hlt)
    exact hnext hstep fun rows hrows => ⟨true, b + 1, c, hrows ▸ hrest, queued_ours h hq hlt hm,
      fun _ => hle⟩
  | @same _ _ _ _ hb hc hwords hrest =>
    have hline : st.line.at .b = st.line.at .c := by
      have := hq.ahead
      omega
    have hflag : cellFlag ctx.texts st.rows look .a .b := by
      rw [cellFlag, hcell, hcell]
      exact hwords
    obtain ⟨st', target, hstep, hm⟩ := same_step h hopen hlook hsame ((hcell .b).trans hb)
      ((hcell .c).trans hc) hline hflag
    refine hnext hstep fun rows hrows => ⟨true, b + 1, b + 1, hrows ▸ hrest, queued_both h hq hm,
      fun _ => ?_⟩
    rw [hm.line .b (by decide)]
    exact hm.base

variable (ctx) in
theorem ledState_final (h : TrimInvariant ctx.texts n n st) (hs : LedState ctx.texts n st) :
    ∀ i, cellOf st.rows i .b = cellOf st.rows i .c := by
  obtain ⟨held, b, c, hled, hq, -⟩ := hs.led
  rw [drop_of_length_le h.size.le] at hled
  cases hled
  have hline : st.line.at .b = st.line.at .c := by
    have := hq.ahead
    omega
  intro i
  by_cases hi : i < st.line.at .b
  · exact hq.settled i hi
  · by_cases hn : i < n
    · rw [h.clear .b i (by omega) hn, h.clear .c i (by omega) hn]
    · have hout : st.rows[i]? = none := getElem?_eq_none (by rw [h.size]; omega)
      simp [cellOf, hout]

end

end GitComet.Merge
