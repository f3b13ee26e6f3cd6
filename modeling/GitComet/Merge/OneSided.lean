import GitComet.Merge.Render

namespace GitComet.Merge
open CommonPrefix Slice Text Columns FileDiff List Option

theorem runDiff_nil (algorithm : DiffAlgorithm) :
    runDiff algorithm ([] : List Line) [] = some [] := by
  cases algorithm <;> rfl

theorem diffChunks_self (algorithm : DiffAlgorithm) (lines : List Line) :
    diffChunks algorithm lines lines = some (equalChunk lines.length) := by
  have hslice : sliceOf lines lines.length (lines.length - 0) = some [] := by
    rw [sliceOf_eq (by omega) (by omega), Nat.sub_zero, slice_self]
  simp only [diffChunks, commonEnds_self, hslice, bind_eq_bind, bind_some,
    map_nil, runDiff_nil]
  simp [pairChunks, equalChunk]

variable {s : MergeSource}

section
variable {ctx : TrimContext} {n look : ℕ} {st st' : TrimState} {stage : TrimStage}
  {move : TrimMove}

def Mirrored (t : MergeSource) (rows : List AlignedRow) : Prop :=
  ∀ row ∈ rows, row.line t = row.line .a

structure MirrorState (texts : Sources) (t : MergeSource) (st : TrimState) : Prop where
  complete : CompleteRows texts st.rows
  mirrored : Mirrored t st.rows
  line : st.line.at t = st.line.at .a

def Balanced (t : MergeSource) (move : TrimMove) : Prop := t ∈ move.sources ↔ .a ∈ move.sources

theorem mirrored_cellOf {t : MergeSource} {rows : List AlignedRow} :
    Mirrored t rows ↔ ∀ i, cellOf rows i t = cellOf rows i .a := by
  constructor
  · intro h i
    cases hrow : rows[i]? with
    | none => simp [cellOf, hrow]
    | some row =>
      rw [cellOf_of_getElem? hrow, cellOf_of_getElem? hrow]
      exact h row (mem_of_getElem? hrow)
  · intro h row hrow
    obtain ⟨i, hi⟩ := mem_iff_getElem?.mp hrow
    rw [← cellOf_of_getElem? hi, ← cellOf_of_getElem? hi]
    exact h i

theorem mirrorState_move {texts : Sources} {t : MergeSource} (h : MirrorState texts t st)
    (hb : Balanced t move) (hcomplete : CompleteRows texts st'.rows)
    (he : MoveEffect texts look move st st') : MirrorState texts t st' := by
  have hcells := mirrored_cellOf.mp h.mirrored
  refine ⟨hcomplete, mirrored_cellOf.mpr fun i => ?_, ?_⟩
  · rw [he.cells, he.cells, hcells, hcells]
    exact if_congr hb rfl rfl
  · rw [he.line, he.line, h.line]
    exact if_congr hb rfl rfl

theorem mirrorState_settle {texts : Sources} {t : MergeSource} (h : MirrorState texts t st)
    (hs : Settled look st st') : MirrorState texts t st' := by
  refine ⟨hs.rows ▸ h.complete, hs.rows ▸ h.mirrored, ?_⟩
  rw [hs.line, hs.line, h.line, mirrored_cellOf.mp h.mirrored]

theorem flag_absurd {flag : Bool} {P : Prop} (h : flag) (h' : flag = false) : P :=
  absurd (h.symm.trans h') (by decide)

theorem flag_of_same {texts : Sources} {rows : List AlignedRow} {row : AlignedRow}
    {t : MergeSource} (hst : s ≠ t) (hcomputed : Computed texts rows) (hrow : row ∈ rows)
    (hsame : row.text texts s = row.text texts t) (hsome : (row.text texts s).isSome) :
    row.whitespaceEqual s t := by
  obtain ⟨line, hline⟩ := isSome_iff_exists.mp hsome
  rw [← hcomputed row hrow, whitespaceEqual_recompute texts row hst, pairMetadata_whitespaceEqual]
  exact ⟨line, line, hline, hsame ▸ hline, rfl⟩

theorem flag_some {texts : Sources} {rows : List AlignedRow} {row : AlignedRow}
    {t : MergeSource} (hst : s ≠ t) (hcomputed : Computed texts rows) (hrow : row ∈ rows)
    (h : row.whitespaceEqual s t) :
    (row.line s).isSome ∧ (row.line t).isSome := by
  rw [← hcomputed row hrow, whitespaceEqual_recompute texts row hst,
    pairMetadata_whitespaceEqual] at h
  obtain ⟨x, y, hx, hy, -⟩ := h
  rw [AlignedRow.text, cellText, bind_eq_some_iff] at hx hy
  obtain ⟨l, hl, -⟩ := hx
  obtain ⟨r, hr, -⟩ := hy
  exact ⟨by rw [hl]; rfl, by rw [hr]; rfl⟩

theorem flag_trans {texts : Sources} {rows : List AlignedRow} {row : AlignedRow}
    {t u : MergeSource} (hst : s ≠ t) (htu : t ≠ u) (hsu : s ≠ u)
    (hcomputed : Computed texts rows) (hrow : row ∈ rows) (h : row.whitespaceEqual s t)
    (h' : row.whitespaceEqual t u) : row.whitespaceEqual s u := by
  rw [← hcomputed row hrow] at h h' ⊢
  rw [whitespaceEqual_recompute texts row hst, pairMetadata_whitespaceEqual] at h
  rw [whitespaceEqual_recompute texts row htu, pairMetadata_whitespaceEqual] at h'
  rw [whitespaceEqual_recompute texts row hsu, pairMetadata_whitespaceEqual]
  obtain ⟨x, y, hx, hy, hxy⟩ := h
  obtain ⟨y', z, hy', hz, hyz⟩ := h'
  rw [hy] at hy'
  cases hy'
  exact ⟨x, z, hx, hz, hxy.trans hyz⟩

theorem whitespaceEqual_comm (row : AlignedRow) (s t : MergeSource) :
    row.whitespaceEqual s t = row.whitespaceEqual t s := by
  cases s <;> cases t <;> rfl

variable {t : MergeSource}

theorem mirror_flag (ht : t ≠ .a) (hsame : ctx.texts.lines t = ctx.texts.a)
    (hm : MirrorState ctx.texts t st) (hcomputed : Computed ctx.texts st.rows)
    {row : AlignedRow} (hrow : row ∈ st.rows) (ha : (row.line .a).isSome) :
    row.whitespaceEqual .a t := by
  have htext : row.text ctx.texts .a = row.text ctx.texts t := by
    rw [AlignedRow.text, AlignedRow.text, hm.mirrored row hrow, hsame]
    rfl
  refine flag_of_same (Ne.symm ht) hcomputed hrow htext ?_
  rwa [text_isSome hm.complete hrow]

theorem mirror_cursor (h : TrimInvariant ctx.texts n look st) (hm : MirrorState ctx.texts t st)
    (hs : s = .a ∨ s = t) (hlt : st.line.at s < look) {row : AlignedRow}
    (hrow : st.rows[st.cursor.at s]? = some row) : row.line .a = none ∧ row.line t = none := by
  have hclear := h.clear s (st.cursor.at s) (h.synced s).ge (by rw [h.synced]; exact hlt)
  rw [cellOf_of_getElem? hrow] at hclear
  have hmir := hm.mirrored row (mem_of_getElem? hrow)
  rcases hs with rfl | rfl
  · exact ⟨hclear, hmir.trans hclear⟩
  · exact ⟨hmir.symm.trans hclear, hclear⟩

theorem stage_balanced_c (hsame : ctx.texts.c = ctx.texts.a)
    (h : TrimInvariant ctx.texts n look st) (hm : MirrorState ctx.texts .c st)
    (ht : StageTaken ctx look st stage move) : Balanced .c move := by
  have hflag : ∀ row, st.rows[look]? = some row → (row.line .a).isSome →
      row.whitespaceEqual .a .c := fun row hrow =>
    mirror_flag (by decide) (by exact hsame) hm h.computed (mem_of_getElem? hrow)
  have hmir : ∀ row, st.rows[look]? = some row → row.line .c = row.line .a := fun row hrow =>
    hm.mirrored row (mem_of_getElem? hrow)
  cases stage with
  | join s =>
    obtain ⟨rfl, hlt, row, target, hrow, htarget, hsome, hready⟩ := ht
    simp only [joinReady, Bool.and_eq_true] at hready
    cases s with
    | a =>
      have hnone := mirror_cursor h hm (Or.inl rfl) hlt htarget
      have hc := (flag_some (by decide) h.computed (mem_of_getElem? htarget) hready.1.1.2).2
      exact flag_absurd hc (by rw [others, hnone.2]; rfl)
    | b => simp [Balanced, singleMove]
    | c =>
      have hnone := mirror_cursor h hm (Or.inr rfl) hlt htarget
      have ha := hready.1.1.1
      exact flag_absurd ha (by rw [others, hnone.1]; rfl)
  | free s =>
    obtain ⟨rfl, row, hrow, hready⟩ := ht
    simp only [freeReady, Bool.and_eq_true, Bool.not_eq_true'] at hready
    cases s with
    | a =>
      have := hflag row hrow hready.1.1.1.2
      exact flag_absurd this hready.1.2
    | b => simp [Balanced, singleMove]
    | c =>
      have hsome := hready.1.1.1.2
      rw [hmir row hrow] at hsome
      have := hflag row hrow hsome
      rw [whitespaceEqual_comm] at this
      exact flag_absurd this hready.1.1.2
  | pair =>
    obtain ⟨row, rule, hrule, rfl, hrow, hready⟩ := ht
    simp only [pairReady, Bool.and_eq_true, Bool.not_eq_true'] at hready
    simp only [pairRules, mem_cons, not_mem_nil, or_false] at hrule
    rcases hrule with rfl | rfl | rfl
    · have := hflag row hrow hready.1.1.1.1.2
      exact flag_absurd this hready.1.1.2
    · simp [Balanced, jointMove]
    · have hsome := (flag_some (by decide) h.computed (mem_of_getElem? hrow)
        hready.1.1.1.2).2
      rw [hmir row hrow] at hsome
      have := hflag row hrow hsome
      exact flag_absurd this hready.1.1.2

theorem stage_balanced_b (hsame : ctx.texts.b = ctx.texts.a)
    (h : TrimInvariant ctx.texts n look st) (hm : MirrorState ctx.texts .b st)
    (ht : StageTaken ctx look st stage move) : Balanced .b move := by
  have hflag : ∀ row, st.rows[look]? = some row → (row.line .a).isSome →
      row.whitespaceEqual .a .b := fun row hrow =>
    mirror_flag (by decide) (by exact hsame) hm h.computed (mem_of_getElem? hrow)
  have hmir : ∀ row, st.rows[look]? = some row → row.line .b = row.line .a := fun row hrow =>
    hm.mirrored row (mem_of_getElem? hrow)
  cases stage with
  | join s =>
    obtain ⟨rfl, hlt, row, target, hrow, htarget, hsome, hready⟩ := ht
    simp only [joinReady, Bool.and_eq_true] at hready
    cases s with
    | a =>
      have hnone := mirror_cursor h hm (Or.inl rfl) hlt htarget
      have hb := hready.1.1.1
      exact flag_absurd hb (by rw [others, hnone.2]; rfl)
    | b =>
      have hnone := mirror_cursor h hm (Or.inr rfl) hlt htarget
      have ha := hready.1.1.1
      exact flag_absurd ha (by rw [others, hnone.1]; rfl)
    | c => simp [Balanced, singleMove]
  | free s =>
    obtain ⟨rfl, row, hrow, hready⟩ := ht
    simp only [freeReady, Bool.and_eq_true, Bool.not_eq_true'] at hready
    cases s with
    | a =>
      have := hflag row hrow hready.1.1.1.2
      exact flag_absurd this hready.1.1.2
    | b =>
      have hsome := hready.1.1.1.2
      rw [hmir row hrow] at hsome
      have := hflag row hrow hsome
      rw [whitespaceEqual_comm] at this
      exact flag_absurd this hready.1.1.2
    | c => simp [Balanced, singleMove]
  | pair =>
    obtain ⟨row, rule, hrule, rfl, hrow, hready⟩ := ht
    simp only [pairReady, Bool.and_eq_true, Bool.not_eq_true'] at hready
    simp only [pairRules, mem_cons, not_mem_nil, or_false] at hrule
    rcases hrule with rfl | rfl | rfl
    · simp [Balanced, jointMove]
    · have := hflag row hrow hready.1.1.1.1.2
      exact flag_absurd this hready.1.1.2
    · have hsome := hready.1.1.1.1.2
      rw [hmir row hrow] at hsome
      have := flag_trans (by decide) (by decide) (by decide) h.computed
        (mem_of_getElem? hrow) (hflag row hrow hsome) hready.1.1.1.2
      exact flag_absurd this hready.1.1.2

theorem openRule_mirror (hbalanced : ∀ look st stage move,
      TrimInvariant ctx.texts n look st → MirrorState ctx.texts t st →
      StageTaken ctx look st stage move → Balanced t move) :
    OpenRule ctx n fun _ st => MirrorState ctx.texts t st := by
  refine ⟨?_, fun look st st' _ _ hk hs => mirrorState_settle hk hs⟩
  intro look st st' stage move hlook h hk ht hm he
  exact mirrorState_move hk (hbalanced look st stage move h hk ht)
    (fun s => covers_effect hm.safe he (h.size ▸ hlook) (hk.complete s)) he

end

theorem mirrored_map {texts : Sources} {t : MergeSource} {rows : List AlignedRow}
    (h : Mirrored t rows) : Mirrored t (rows.map (recomputeRowMetadata texts)) := by
  intro row hrow
  obtain ⟨row, hmem, rfl⟩ := mem_map.mp hrow
  rw [line_recompute, line_recompute]
  exact h row hmem

theorem mirrored_occupied {texts : Sources} {t : MergeSource} {rows : List AlignedRow}
    (h : Mirrored t rows) : Mirrored t (occupiedRows texts rows) :=
  mirrored_map fun row hrow => h row (mem_filter.mp hrow).1

theorem mirrored_append {t : MergeSource} {xs ys : List AlignedRow} (h : Mirrored t xs)
    (h' : Mirrored t ys) : Mirrored t (xs ++ ys) := by
  intro row hrow
  rcases mem_append.mp hrow with hrow | hrow
  · exact h row hrow
  · exact h' row hrow

theorem mirrored_none {rows : List AlignedRow} {t : MergeSource} {n : ℕ}
    (ha : CoversLine .a rows n n) (ht : ∀ row ∈ rows, row.line t = none) : Mirrored t rows :=
  fun row hrow => (ht row hrow).trans (ha.none_of_empty row hrow).symm

theorem zipEqual_mirrored (count : ℕ) : ∀ {n line : ℕ} {done rest done' rest' : List AlignedRow},
    zipEqual count line line done rest = some (done', rest') → CoversLine .a rest line n →
    (∀ row ∈ rest, row.line .c = none) → Mirrored .c done →
    Mirrored .c done' ∧ CoversLine .a rest' (line + count) n ∧
      ∀ row ∈ rest', row.line .c = none := by
  induction count with
  | zero =>
    intro n line done rest done' rest' h ha hc hdone
    simp only [zipEqual, some.injEq, Prod.mk.injEq] at h
    obtain ⟨rfl, rfl⟩ := h
    exact ⟨hdone, ha, hc⟩
  | succ count ih =>
    intro n line done rest done' rest' h ha hc hdone
    simp only [zipEqual, bind_eq_bind, bind_eq_some_iff] at h
    obtain ⟨⟨pre, row, post⟩, hsplit, h⟩ := h
    obtain ⟨rfl, hrow, -⟩ := splitAtLine_some hsplit
    obtain ⟨hpre, -, hpost⟩ := ha.split hrow
    have hrest := ih h hpost
      (fun r hr => hc r (mem_append_right _ (mem_cons_of_mem _ hr))) (by
        refine mirrored_append (mirrored_append hdone (mirrored_none hpre fun r hr =>
          hc r (mem_append_left _ hr))) ?_
        intro r hr
        rw [mem_singleton.mp hr, line_setLine_self, line_setLine_ne row _ (by decide), hrow])
    rwa [Nat.add_right_comm, Nat.add_assoc] at hrest

variable {out : List AlignedRow}

theorem zipAc_mirrored {n : ℕ} {rows : List AlignedRow}
    (h : zipAc (equalChunk n) 0 0 [] rows = some out) (ha : CoversLine .a rows 0 n)
    (hc : ∀ row ∈ rows, row.line .c = none) : Mirrored .c out := by
  unfold equalChunk at h
  split at h
  · simp only [zipAc, bind_eq_bind, bind_eq_some_iff] at h
    obtain ⟨⟨done, rest⟩, hzip, hout⟩ := h
    obtain ⟨hdone, hrest, hnone⟩ := zipEqual_mirrored n hzip ha hc (by simp [Mirrored])
    rw [Nat.zero_add] at hrest
    rw [← some.inj hout]
    exact mirrored_append (mirrored_append hdone (by simp [Mirrored, singleRun]))
      (mirrored_none hrest hnone)
  · rename_i hn
    obtain rfl : n = 0 := by omega
    rw [← some.inj h]
    exact mirrored_none ha hc

theorem zipEqual_all {P : AlignedRow → Prop} (hset : ∀ row c, P row → P (row.setLine .c c))
    (count : ℕ) : ∀ {a c : ℕ} {done rest done' rest' : List AlignedRow},
      zipEqual count a c done rest = some (done', rest') → (∀ row ∈ done, P row) →
      (∀ row ∈ rest, P row) → (∀ row ∈ done', P row) ∧ ∀ row ∈ rest', P row := by
  induction count with
  | zero =>
    intro a c done rest done' rest' h hdone hrest
    simp only [zipEqual, some.injEq, Prod.mk.injEq] at h
    obtain ⟨rfl, rfl⟩ := h
    exact ⟨hdone, hrest⟩
  | succ count ih =>
    intro a c done rest done' rest' h hdone hrest
    simp only [zipEqual, bind_eq_bind, bind_eq_some_iff] at h
    obtain ⟨⟨pre, row, post⟩, hsplit, h⟩ := h
    obtain ⟨rfl, -, -⟩ := splitAtLine_some hsplit
    refine ih h ?_ fun r hr => hrest r (mem_append_right _ (mem_cons_of_mem _ hr))
    intro r hr
    simp only [mem_append, mem_singleton] at hr
    rcases hr with (hr | hr) | rfl
    · exact hdone r hr
    · exact hrest r (mem_append_left _ hr)
    · exact hset row _ (hrest row (by simp))

theorem zipAc_all {P : AlignedRow → Prop} (hset : ∀ row c, P row → P (row.setLine .c c))
    (hsingle : ∀ line, P (rowWith .c line)) (cs : List PairChunk) :
    ∀ {a c : ℕ} {done rest out : List AlignedRow}, zipAc cs a c done rest = some out →
      (∀ row ∈ done, P row) → (∀ row ∈ rest, P row) → ∀ row ∈ out, P row := by
  induction cs with
  | nil =>
    intro a c done rest out h hdone hrest row hrow
    rw [← some.inj h] at hrow
    rcases mem_append.mp hrow with hrow | hrow
    · exact hdone row hrow
    · exact hrest row hrow
  | cons chunk cs ih =>
    intro a c done rest out h hdone hrest
    simp only [zipAc, bind_eq_bind, bind_eq_some_iff] at h
    obtain ⟨⟨done', rest'⟩, hzip, h⟩ := h
    obtain ⟨hdone', hrest'⟩ := zipEqual_all hset chunk.equal hzip hdone hrest
    refine ih h ?_ hrest'
    intro row hrow
    rcases mem_append.mp hrow with hrow | hrow
    · exact hdone' row hrow
    · obtain ⟨i, -, rfl⟩ := mem_map.mp hrow
      exact hsingle _

theorem abRows_equalChunk (n : ℕ) : Mirrored .b (abRows (equalChunk n) 0 0) := by
  unfold equalChunk
  split
  · intro row hrow
    simp only [abRows, chunkGroup, pairRun, singleRun, append_nil, Nat.zero_min,
      Nat.sub_self, range_zero, map_nil, List.mem_map] at hrow
    obtain ⟨i, -, rfl⟩ := hrow
    rfl
  · simp [Mirrored, abRows]

section
variable {input : PlanInput}

theorem chunks_self {t : MergeSource} (hentries : input.entries = [])
    (h : input.texts.lines t = input.texts.lines s) :
    input.chunks s t = some (equalChunk (input.texts.len s)) := by
  have hnil : alignmentSegments input.entries input.threeWay s (input.texts.lines s).length t
      (input.texts.lines t).length = [] := by rw [hentries]; rfl
  rw [PlanInput.chunks, hnil, diffChunksSegmented, if_pos rfl, h, diffChunks_self]
  rfl

variable {cs cs' : List PairChunk}

theorem base_mirrored_c (hentries : input.entries = []) (hsame : input.texts.c = input.texts.a)
    (hcs' : input.chunks .a .c = some cs') (hab : Aligned SameWords input.texts.a input.texts.b cs)
    (h : BaseAligned input cs cs' out) : Mirrored .c out := by
  obtain ⟨ha, -, hnone⟩ := covers_abBase hab
  have hself := chunks_self (s := .a) (t := .c) hentries hsame
  have hzip := h.zip
  rw [← some.inj (hself.symm.trans hcs')] at hzip
  exact zipAc_mirrored hzip ha hnone

theorem base_mirrored_b (hentries : input.entries = []) (hsame : input.texts.b = input.texts.a)
    (hcs : input.chunks .a .b = some cs) (h : BaseAligned input cs cs' out) :
    Mirrored .b out := by
  have hself := chunks_self (s := .a) (t := .b) hentries hsame
  have hzip := h.zip
  rw [← some.inj (hself.symm.trans hcs)] at hzip
  refine zipAc_all (P := fun row => row.line .b = row.line .a) ?_ ?_ cs' hzip (by simp)
    (mirrored_map (abRows_equalChunk _))
  · intro row c h
    rwa [line_setLine_ne _ _ (by decide), line_setLine_ne _ _ (by decide)]
  · intro line
    rfl

theorem planRows_baseline {K : ℕ → TrimState → Prop} (hway : input.threeWay)
    (hopen : input.barriers.isEmpty) (h : BaseAligned input cs cs' out)
    (hK : OpenRule ⟨input.texts, input.barriers,
      (occupiedRows input.texts (out.map (recomputeRowMetadata input.texts))).map
        input.barriers.rowSegment⟩
      (occupiedRows input.texts (out.map (recomputeRowMetadata input.texts))).length K)
    (hstart : K 0 ⟨occupiedRows input.texts (out.map (recomputeRowMetadata input.texts)),
      .zero, .zero⟩) :
    ∃ st, planRows input false = some (occupiedRows input.texts st.rows) ∧
      K (occupiedRows input.texts (out.map (recomputeRowMetadata input.texts))).length st := by
  obtain ⟨st, hrun, -, hk⟩ := trimRows_rule hopen hK hstart
  obtain ⟨list, ids, hlist, hh, hrows⟩ := baselineList_spec h.run hrun
    (computed_occupied input.texts st.rows)
  refine ⟨st, ?_, hk⟩
  simp only [planRows, hway, hlist, if_true, Bool.false_eq_true, if_false, bind_eq_bind,
    bind_some]
  rw [holds_intoRows hh, hrows]

theorem planRows_mirrored {t : MergeSource}
    (hway : input.threeWay) (hopen : input.barriers.isEmpty)
    (h : BaseAligned input cs cs' out) (hmirrored : Mirrored t out)
    (hbalanced : ∀ (ctx : TrimContext) n look st stage move, ctx.texts = input.texts →
      TrimInvariant ctx.texts n look st → MirrorState ctx.texts t st →
      StageTaken ctx look st stage move → Balanced t move) :
    ∃ rows, planRows input false = some rows ∧ RowsOk input.texts rows ∧ Mirrored t rows := by
  obtain ⟨st, hplan, hk⟩ := planRows_baseline hway hopen h
    (openRule_mirror fun look st stage move => hbalanced _ _ look st stage move rfl)
    ⟨fun s => covers_occupied (h.complete s), mirrored_occupied (mirrored_map hmirrored), by
      rw [at_zero, at_zero]⟩
  exact ⟨_, hplan, ⟨tidy_occupiedRows _ _, fun s => covers_occupied (hk.complete s)⟩,
    mirrored_occupied hk.mirrored⟩

end

section
variable {texts : Sources} {rows : List AlignedRow} {row : AlignedRow}

theorem equal_iff_text (h : RowsOk texts rows) (hrow : row ∈ rows) {t : MergeSource} (hst : s ≠ t) :
    row.equal s t ↔ row.text texts s = row.text texts t ∧ (row.line s).isSome := by
  rw [← h.tidy.computed row hrow, equal_recompute texts row hst, pairMetadata_equal,
    text_recompute, text_recompute, line_recompute, ← text_isSome h.complete hrow]
  constructor
  · rintro ⟨line, hs, ht⟩
    exact ⟨hs.trans ht.symm, by rw [hs]; rfl⟩
  · rintro ⟨heq, hsome⟩
    obtain ⟨line, hline⟩ := isSome_iff_exists.mp hsome
    exact ⟨line, hline, heq ▸ hline⟩

theorem text_of_same {t : MergeSource} (hsame : texts.lines s = texts.lines t)
    (hmir : row.line s = row.line t) : row.text texts s = row.text texts t := by
  rw [AlignedRow.text, AlignedRow.text, hsame, hmir]

theorem follows_changed_b (h : RowsOk texts rows) (hrow : row ∈ rows) (hsame : texts.c = texts.a)
    (hmir : row.line .c = row.line .a) : Follows texts .b row := by
  have htext : row.text texts .a = row.text texts .c :=
    (text_of_same (s := .c) (t := .a) hsame hmir).symm
  have hac := equal_iff_text h hrow (s := .a) (t := .c) (by decide)
  cases hA : row.a with
  | some i =>
    have hC : row.c = some i := hmir.trans hA
    have hequal : row.equalAc := hac.mpr ⟨htext, by rw [AlignedRow.line, hA]; rfl⟩
    cases hB : row.b with
    | some j =>
      by_cases hab : row.equalAb
      · refine ⟨.noChange, .a, ?_, ((equal_iff_text h hrow (s := .a) (t := .b) (by decide)).mp hab).1⟩
        simp [classify, classifyThreeWay, hA, hB, hC, hab, hequal]
      · refine ⟨.bChanged, .b, ?_, rfl⟩
        simp [classify, classifyThreeWay, hA, hB, hC, hab, hequal]
    | none =>
      refine ⟨.bDeleted, .b, ?_, rfl⟩
      simp [classify, classifyThreeWay, hA, hB, hC, hequal]
  | none =>
    have hC : row.c = none := hmir.trans hA
    have hocc := h.tidy.occupied row hrow
    cases hB : row.b with
    | some j =>
      refine ⟨.bAdded, .b, ?_, rfl⟩
      simp [classify, classifyThreeWay, hA, hB, hC]
    | none => simp [AlignedRow.occupied, hA, hB, hC] at hocc

theorem follows_changed_c (h : RowsOk texts rows) (hrow : row ∈ rows) (hsame : texts.b = texts.a)
    (hmir : row.line .b = row.line .a) : Follows texts .c row := by
  have htext : row.text texts .a = row.text texts .b :=
    (text_of_same (s := .b) (t := .a) hsame hmir).symm
  have hab := equal_iff_text h hrow (s := .a) (t := .b) (by decide)
  cases hA : row.a with
  | some i =>
    have hB : row.b = some i := hmir.trans hA
    have hequal : row.equalAb := hab.mpr ⟨htext, by rw [AlignedRow.line, hA]; rfl⟩
    cases hC : row.c with
    | some j =>
      by_cases hac : row.equalAc
      · refine ⟨.noChange, .a, ?_, ((equal_iff_text h hrow (s := .a) (t := .c) (by decide)).mp hac).1⟩
        simp [classify, classifyThreeWay, hA, hB, hC, hac, hequal]
      · refine ⟨.cChanged, .c, ?_, rfl⟩
        simp [classify, classifyThreeWay, hA, hB, hC, hac, hequal]
    | none =>
      refine ⟨.cDeleted, .c, ?_, rfl⟩
      simp [classify, classifyThreeWay, hA, hB, hC, hequal]
  | none =>
    have hB : row.b = none := hmir.trans hA
    have hocc := h.tidy.occupied row hrow
    cases hC : row.c with
    | some j =>
      refine ⟨.cAdded, .c, ?_, rfl⟩
      simp [classify, classifyThreeWay, hA, hB, hC]
    | none => simp [AlignedRow.occupied, hA, hB, hC] at hocc

end

theorem plan_clean_of_rows {base ours theirs : List Char} {options : MergeOptions}
    {t : MergeSource} {rows : List AlignedRow}
    (hplain : (options.alignContributors && (planTexts (some base) ours theirs).differ) = false)
    (hrows : planRows ⟨(planTexts (some base) ours theirs).sources, true, options.diffAlgorithm,
      []⟩ false = some rows) (hok : RowsOk (planTexts (some base) ours theirs).sources rows)
    (hfollows : ∀ row ∈ rows, Follows (planTexts (some base) ours theirs).sources t row) :
    ∃ plan, buildMergePlanWithOptionalBase (some base) ours theirs options = some plan ∧
      CleanMerge plan ((planTexts (some base) ours theirs).sources.lines t) := by
  rw [← hplain] at hrows
  obtain ⟨plan, hplan, hbase, hours, htheirs, rfl, hblocks, hunresolved, -⟩ :=
    buildPlan_of_rows (b := some base) (o := options) (a := []) hrows
  exact ⟨plan, hplan, plan_clean (by rw [hbase, hours, htheirs]) hok.complete hblocks hunresolved
    hfollows⟩

theorem ours_changed_clean (base changed : List Char) (options : MergeOptions) :
    ∃ plan, buildMergePlanWithOptionalBase (some base) changed base options = some plan ∧
      CleanMerge plan (splitLines changed) := by
  have hplain : (options.alignContributors && (planTexts (some base) changed base).differ) =
      false := by simp [planTexts, PlanTexts.differ]
  obtain ⟨cs, hcs, hab⟩ := chunks_spec ⟨(planTexts (some base) changed base).sources,
    true, options.diffAlgorithm, []⟩ (by simp) .a .b
  obtain ⟨cs', hcs', hac⟩ := chunks_spec ⟨(planTexts (some base) changed base).sources,
    true, options.diffAlgorithm, []⟩ (by simp) .a .c
  obtain ⟨out, hbase⟩ := baseAlignedRows_spec hcs hcs' hab hac
  obtain ⟨rows, hrows, hok, hmirrored⟩ := planRows_mirrored rfl rfl hbase
    (base_mirrored_c rfl rfl hcs' hab hbase) fun ctx n look st stage move hctx h hm ht =>
      stage_balanced_c (by rw [hctx]; rfl) h hm ht
  exact plan_clean_of_rows (t := .b) hplain hrows hok fun row hrow =>
    follows_changed_b hok hrow rfl (hmirrored row hrow)

theorem theirs_changed_clean (base changed : List Char) (options : MergeOptions) :
    ∃ plan, buildMergePlanWithOptionalBase (some base) base changed options = some plan ∧
      CleanMerge plan (splitLines changed) := by
  have hplain : (options.alignContributors && (planTexts (some base) base changed).differ) =
      false := by simp [planTexts, PlanTexts.differ]
  obtain ⟨cs, hcs, hab⟩ := chunks_spec ⟨(planTexts (some base) base changed).sources,
    true, options.diffAlgorithm, []⟩ (by simp) .a .b
  obtain ⟨cs', hcs', hac⟩ := chunks_spec ⟨(planTexts (some base) base changed).sources,
    true, options.diffAlgorithm, []⟩ (by simp) .a .c
  obtain ⟨out, hbase⟩ := baseAlignedRows_spec hcs hcs' hab hac
  obtain ⟨rows, hrows, hok, hmirrored⟩ := planRows_mirrored rfl rfl hbase
    (base_mirrored_b rfl rfl hcs hbase) fun ctx n look st stage move hctx h hm ht =>
      stage_balanced_b (by rw [hctx]; rfl) h hm ht
  exact plan_clean_of_rows (t := .c) hplain hrows hok fun row hrow =>
    follows_changed_c hok hrow rfl (hmirrored row hrow)

theorem one_sided_changes_merge_cleanly (base changed : List Char) (options : MergeOptions) :
    (∃ plan, buildMergePlanWithOptionalBase (some base) changed base options = some plan ∧
      CleanMerge plan (splitLines changed)) ∧
    ∃ plan, buildMergePlanWithOptionalBase (some base) base changed options = some plan ∧
      CleanMerge plan (splitLines changed) :=
  ⟨ours_changed_clean base changed options, theirs_changed_clean base changed options⟩

end GitComet.Merge
