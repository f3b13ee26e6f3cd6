import GitComet.Merge.Led

namespace GitComet.Merge
open Slice Text Columns List Nat

section
variable {texts : Sources} {held : Bool}

theorem led_singles_c (count : ℕ) : ∀ {b c : ℕ} {out : List AlignedRow},
    Led texts held b (c + count) out → Led texts held b c (singleRun .c count c ++ out) := by
  induction count with
  | zero => exact fun h => h
  | succ count ih =>
    intro b c out h
    rw [singleRun_succ, cons_append]
    refine .theirs rfl rfl rfl (ih ?_)
    rwa [Nat.add_right_comm]

theorem led_singles_b (count : ℕ) : ∀ {b c : ℕ} {out : List AlignedRow}, b + count ≤ c →
    Led texts held (b + count) c out →
    Led texts held b c ((singleRun .b count b).map (recomputeRowMetadata texts) ++ out) := by
  induction count with
  | zero => exact fun _ h => h
  | succ count ih =>
    intro b c out hle h
    rw [singleRun_succ, map_cons, cons_append]
    refine .ours rfl rfl rfl (by omega) (ih (by omega) ?_)
    rwa [Nat.add_right_comm]

theorem led_singles_a (count : ℕ) : ∀ {a b c : ℕ} {out : List AlignedRow}, Led texts false b c out →
    Led texts false b c ((singleRun .a count a).map (recomputeRowMetadata texts) ++ out) := by
  induction count with
  | zero => exact fun h => h
  | succ count ih =>
    intro a b c out h
    rw [singleRun_succ, map_cons, cons_append]
    exact .base (Option.some_ne_none a) rfl rfl (ih h)

theorem led_pairs (count : ℕ) : ∀ {a b c : ℕ} {out : List AlignedRow}, b + count ≤ c →
    Led texts true (b + count) c out →
    Led texts true b c ((pairRun count a b).map (recomputeRowMetadata texts) ++ out) := by
  induction count with
  | zero => exact fun _ h => h
  | succ count ih =>
    intro a b c out hle h
    rw [pairRun_succ, map_cons, cons_append]
    refine .pair (Option.some_ne_none a) rfl rfl (by omega) (ih (by omega) ?_)
    rwa [Nat.add_right_comm]

theorem led_group {c : PairChunk} {a b : ℕ} {out : List AlignedRow}
    (h : Led texts false (b + c.right) (b + c.right) out) :
    Led texts true b (b + c.right)
      ((chunkGroup c a b).map (recomputeRowMetadata texts) ++ out) := by
  have hr := Nat.min_le_right c.left c.right
  simp only [chunkGroup, map_append, append_assoc]
  refine led_pairs _ (by omega) (Led.weaken (led_singles_a _ (led_singles_b _ (by omega) ?_)))
  rwa [Nat.add_assoc, Nat.add_sub_cancel' hr]

theorem splitAtLine_append {s : MergeSource} {l : ℕ} {p t : List AlignedRow}
    {o : AlignedRow} (hpre : ∀ r ∈ p, r.line s ≠ some l) (hrow : o.line s = some l) :
    splitAtLine s l (p ++ o :: t) = some (p, o, t) := by
  induction p with
  | nil => simp [splitAtLine, hrow]
  | cons r p ih =>
    have hrest := ih fun q hq => hpre q (mem_cons_of_mem _ hq)
    rw [cons_append, splitAtLine, if_neg (hpre r mem_cons_self), hrest]
    rfl

theorem getElem?_of_drop {lines xs : List Line} {x : Line} {i : ℕ}
    (h : lines.drop i = x :: xs) : lines[i]? = some x ∧ lines.drop (i + 1) = xs := by
  constructor
  · have := congrArg List.head? h
    rwa [head?_drop] at this
  · rw [← tail_drop, h, tail_cons]

theorem zipEqual_led {es es' : List Line} (hes : Forall₂ SameWords es es') :
    ∀ {a b : ℕ} {xs ys : List Line} {d p e : List AlignedRow},
      texts.a.drop a = es ++ xs → texts.b.drop b = es' ++ ys →
      (∀ row ∈ p, ∀ line, row.line .a = some line → line < a) → p = [] ∨ es ≠ [] →
      ∃ same, zipEqual es.length a b d
          (p ++ ((pairRun es.length a b).map (recomputeRowMetadata texts) ++ e)) =
            some (d ++ (p ++ same), e) ∧
        ∀ held out, held = true ∨ es ≠ [] → Led texts true (b + es.length) (b + es.length) out →
          Led texts held b b (same ++ out) := by
  induction hes with
  | nil =>
    intro a b xs ys d p e _ _ _ hpend
    obtain rfl := hpend.resolve_right (by simp)
    refine ⟨[], by simp [zipEqual, pairRun], fun held out hheld h => ?_⟩
    rw [hheld.resolve_right (by simp)]
    exact h
  | @cons x y es es' hxy _ ih =>
    intro a b xs ys d p e hxs hys hpend _
    obtain ⟨hx, hxs'⟩ := getElem?_of_drop hxs
    obtain ⟨hy, hys'⟩ := getElem?_of_drop hys
    obtain ⟨same, hzip, hled⟩ := ih (p := []) (e := e)
      (d := d ++ p ++ [(recomputeRowMetadata texts (pairRow a b)).setLine .c (some b)])
      hxs' hys' (by simp) (Or.inl rfl)
    refine ⟨(recomputeRowMetadata texts (pairRow a b)).setLine .c (some b) :: same, ?_,
      fun held out _ h => ?_⟩
    · have hsplit := splitAtLine_append (s := .a) (l := a) (p := p)
        (o := recomputeRowMetadata texts (pairRow a b))
        (t := (pairRun es.length (a + 1) (b + 1)).map (recomputeRowMetadata texts) ++ e)
        (fun r hr hline => lt_irrefl _ (hpend r hr a hline)) rfl
      simp only [length_cons, pairRun_succ, map_cons, cons_append, zipEqual, hsplit,
        Option.bind_eq_bind, Option.bind_some]
      simpa using hzip
    · refine .same rfl rfl ?_ (hled true out (Or.inl rfl) ?_)
      · exact pairMetadata_whitespaceEqual.mpr ⟨x, y, hx, hy, hxy⟩
      · rwa [length_cons, ← add_assoc, Nat.add_right_comm] at h

theorem zipAc_led {xs ys : List Line} {cs : List PairChunk} (hcs : Aligned SameWords xs ys cs) :
    ∀ {a b : ℕ} {h : Bool} {d p : List AlignedRow}, Chained cs →
      texts.a.drop a = xs → texts.b.drop b = ys →
      (∀ row ∈ p, ∀ line, row.line .a = some line → line < a) →
      (p = [] ∧ h ∨ ∀ chunk ∈ cs.head?, 0 < chunk.equal) →
      ∃ out, zipAc cs a b d (p ++ (abRows cs a b).map (recomputeRowMetadata texts)) =
          some (d ++ (p ++ out)) ∧ Led texts h b b out := by
  induction hcs with
  | nil =>
    intro a b held d p _ _ _ _ _
    exact ⟨[], by simp [zipAc, abRows], .nil⟩
  | @cons es es' ls rs xs ys cs hes _ ih =>
    intro a b held d p hchain hxs hys hpend hstart
    have hnonempty : 0 < es.length → es ≠ [] := fun hlt hnil => by simp [hnil] at hlt
    obtain ⟨hfirst, htail⟩ := isChain_cons.mp hchain
    generalize hgroup : (chunkGroup ⟨es.length, ls.length, rs.length⟩ (a + es.length)
      (b + es.length)).map (recomputeRowMetadata texts) = group
    have hxs' : texts.a.drop a = es ++ (ls ++ xs) := by rw [hxs, append_assoc]
    have hys' : texts.b.drop b = es' ++ (rs ++ ys) := by rw [hys, append_assoc]
    obtain ⟨same, hzip, hled⟩ := zipEqual_led (e := group ++
      (abRows cs (a + es.length + ls.length) (b + es.length + rs.length)).map
        (recomputeRowMetadata texts)) (d := d) hes hxs' hys' hpend (by
      rcases hstart with ⟨h, -⟩ | h
      · exact Or.inl h
      · exact Or.inr (hnonempty (h _ rfl)))
    have hxs'' : texts.a.drop (a + es.length + ls.length) = xs := by
      rw [← drop_drop, ← drop_drop, hxs']
      simp
    have hys'' : texts.b.drop (b + es.length + rs.length) = ys := by
      rw [← drop_drop, ← drop_drop, hys', hes.length_eq]
      simp
    have hbase : ∀ row ∈ group, ∀ line, row.line .a = some line →
        line < a + es.length + ls.length := by
      intro row hrow line hline
      have hcover := (covers_chunkGroup ⟨es.length, ls.length, rs.length⟩ (a + es.length)
        (b + es.length)).1
      rw [← coversLine_recompute (t := texts), hgroup] at hcover
      exact ((covers_mem hcover).mp ⟨row, hrow, hline⟩).2
    obtain ⟨out, hrest, hout⟩ := ih (h := decide (ls = [] ∧ rs = []))
      (d := d ++ (p ++ same) ++ singleRun .c rs.length (b + es.length)) htail
      hxs'' hys'' hbase (by
      by_cases hempty : ls = [] ∧ rs = []
      · refine Or.inl ⟨?_, by simp [hempty]⟩
        simp [← hgroup, hempty.1, hempty.2, chunkGroup, pairRun, singleRun]
      · refine Or.inr fun next hnext => (hfirst next hnext).resolve_left ?_
        simpa using hempty)
    refine ⟨same ++ (singleRun .c rs.length (b + es.length) ++ (group ++ out)), ?_, ?_⟩
    · simp only [abRows, map_append, hgroup, append_assoc, zipAc, hzip,
        Option.bind_eq_bind, Option.bind_some]
      simpa using hrest
    · refine hled held _ ?_ (led_singles_c _ ?_)
      · rcases hstart with ⟨-, h⟩ | h
        · exact Or.inl h
        · exact Or.inr (hnonempty (h _ rfl))
      · by_cases hempty : ls = [] ∧ rs = []
        · rw [← hgroup]
          simpa [hempty.1, hempty.2, chunkGroup, pairRun, singleRun] using hout
        · rw [← hgroup]
          refine led_group (c := ⟨es.length, ls.length, rs.length⟩) ?_
          simpa [hempty] using hout

def Twin (rows : List AlignedRow) : Prop := ∀ row ∈ rows, row.line .b = row.line .c

theorem occupied_recomputed (texts : Sources) (rows : List AlignedRow) :
    occupiedRows texts (rows.map (recomputeRowMetadata texts)) = occupiedRows texts rows := by
  simp only [occupiedRows, filter_map, map_map, Function.comp_def, recompute_idem,
    occupied_recompute]

theorem twin_occupied {rows : List AlignedRow}
    (h : ∀ i, cellOf rows i .b = cellOf rows i .c) : Twin (occupiedRows texts rows) := by
  intro row hrow
  obtain ⟨row, hmem, rfl⟩ := mem_map.mp hrow
  obtain ⟨i, hi⟩ := mem_iff_getElem?.mp (mem_filter.mp hmem).1
  rw [line_recompute, line_recompute, ← cellOf_of_getElem? hi, ← cellOf_of_getElem? hi]
  exact h i

theorem queued_start (rows : List AlignedRow) : Queued 0 0 ⟨rows, .zero, .zero⟩ :=
  ⟨le_refl _, rfl, fun i hi => absurd hi (not_lt_zero i),
    fun i _ hi => absurd hi (not_lt_zero i)⟩

theorem trimRows_twin {barriers : AlignmentBarriers} {rows first : List AlignedRow}
    (hopen : barriers.isEmpty) (hsame : texts.c = texts.b)
    (hled : Led texts true 0 0 (occupiedRows texts rows))
    (hfirst : trimRows texts barriers rows = some first) : Twin first := by
  simp only [trimRows] at hfirst
  split at hfirst
  · rename_i hempty
    rw [← Option.some.inj hfirst, List.isEmpty_iff.mp hempty]
    simp [Twin]
  · let ctx : TrimContext := ⟨texts, barriers, (occupiedRows texts rows).map barriers.rowSegment⟩
    obtain ⟨st, hrun, hinv, hstate⟩ := trimLoop_rule (c := ctx) (n := (occupiedRows texts rows).length)
      (P := fun look st => TrimInvariant texts (occupiedRows texts rows).length look st ∧
        LedState texts look st)
      (fun look st hlook h => ledState_step h.1 hopen hlook hsame h.2)
      (occupiedRows texts rows).length 0 _ (by omega)
      ⟨trimInvariant_start (computed_occupied texts rows),
        ⟨true, 0, 0, hled, queued_start _, fun _ => le_refl _⟩⟩
    obtain ⟨st', hrun', hout⟩ := Option.bind_eq_some_iff.mp hfirst
    obtain rfl := Option.some.inj (hrun.symm.trans hrun')
    rw [← Option.some.inj hout]
    exact twin_occupied (ledState_final ctx hinv hstate)

theorem follows_twin {rows : List AlignedRow} {row : AlignedRow} (h : RowsOk texts rows)
    (hrow : row ∈ rows) (hsame : texts.c = texts.b) (htwin : row.line .b = row.line .c) :
    Follows texts .b row := by
  have htext : row.text texts .b = row.text texts .c := text_of_same (s := .b) (t := .c)
    hsame.symm htwin
  have hab := equal_iff_text h hrow (s := .a) (t := .b) (by decide)
  have hac := equal_iff_text h hrow (s := .a) (t := .c) (by decide)
  have hbc := equal_iff_text h hrow (s := .b) (t := .c) (by decide)
  cases hB : row.b with
  | some j =>
    have hC : row.c = some j := htwin.symm.trans hB
    have hequal : row.equalBc := hbc.mpr ⟨htext, by rw [AlignedRow.line, hB]; rfl⟩
    cases hA : row.a with
    | some i =>
      by_cases heq : row.text texts .a = row.text texts .b
      · have hsome : (row.line .a).isSome := by rw [AlignedRow.line, hA]; rfl
        have hAb : row.equalAb := hab.mpr ⟨heq, hsome⟩
        have hAc : row.equalAc := hac.mpr ⟨heq.trans htext, hsome⟩
        refine ⟨.noChange, .a, ?_, heq⟩
        simp [classify, classifyThreeWay, hA, hB, hC, hAb, hAc]
      · have hAb : row.equalAb = false := by
          rw [Bool.eq_false_iff]
          exact fun hAb => heq (hab.mp hAb).1
        have hAc : row.equalAc = false := by
          rw [Bool.eq_false_iff]
          exact fun hAc => heq ((hac.mp hAc).1.trans htext.symm)
        refine ⟨.bcChangedAndEqual, .c, ?_, htext.symm⟩
        simp [classify, classifyThreeWay, hA, hB, hC, hAb, hAc, hequal]
    | none =>
      refine ⟨.bcAddedAndEqual, .c, ?_, htext.symm⟩
      simp [classify, classifyThreeWay, hA, hB, hC, hequal]
  | none =>
    have hC : row.c = none := htwin.symm.trans hB
    have hocc := h.tidy.occupied row hrow
    cases hA : row.a with
    | some i =>
      refine ⟨.bcDeleted, .c, ?_, htext.symm⟩
      simp [classify, classifyThreeWay, hA, hB, hC]
    | none => simp [AlignedRow.occupied, hA, hB, hC] at hocc

end

theorem chunks_plain {input : PlanInput} (hentries : input.entries = []) (s t : MergeSource) :
    input.chunks s t = diffChunks input.algorithm (input.texts.lines s) (input.texts.lines t) := by
  have hnil : alignmentSegments input.entries input.threeWay s (input.texts.lines s).length t
      (input.texts.lines t).length = [] := by rw [hentries]; rfl
  rw [PlanInput.chunks, hnil, diffChunksSegmented, if_pos rfl]

theorem planRows_twin {i : PlanInput} (hway : i.threeWay)
    (hentries : i.entries = []) (hsame : i.texts.c = i.texts.b) :
    ∃ rows, planRows i false = some rows ∧ RowsOk i.texts rows ∧ Twin rows := by
  have hordered : ∀ entry ∈ i.entries, entry.Ordered := by simp [hentries]
  have hopen : i.barriers.isEmpty := by
    rw [PlanInput.barriers, hentries]
    rfl
  obtain ⟨cs, hcs, hab⟩ := chunks_spec i hordered .a .b
  have hcs' : i.chunks .a .c = some cs := by
    have hlines : i.texts.lines .c = i.texts.lines .b := hsame
    rw [chunks_plain hentries] at hcs ⊢
    rw [hlines, hcs]
  have hac : Aligned SameWords i.texts.a i.texts.c cs := hsame ▸ hab
  have hchain : Chained cs := diffChunks_chained (by rwa [chunks_plain hentries] at hcs)
  obtain ⟨out, hbase⟩ := baseAlignedRows_spec hcs hcs' hab hac
  obtain ⟨out', hzip, hled⟩ := zipAc_led (a := 0) (b := 0) (d := []) (p := [])
    hab hchain rfl rfl (by simp) (Or.inl ⟨rfl, rfl⟩)
  obtain rfl : out = out' := Option.some.inj (hbase.zip.symm.trans hzip)
  obtain ⟨first, hfirst, hok⟩ := firstTrim_open hopen hbase
  obtain ⟨list, ids, hlist, hh, hrows⟩ := baselineList_spec hbase.run hfirst hok.tidy.computed
  refine ⟨first, ?_, hok, trimRows_twin hopen hsame ?_ hfirst⟩
  · simp only [planRows, hway, hlist, if_true, Bool.false_eq_true, if_false, Option.bind_eq_bind,
      Option.bind_some]
    rw [holds_intoRows hh, hrows]
  · rw [occupied_recomputed]
    exact hled.occupied

theorem both_changed_clean (base changed : List Char) (options : MergeOptions) :
    ∃ plan, buildMergePlanWithOptionalBase (some base) changed changed options = some plan ∧
      CleanMerge plan (splitLines changed) := by
  have hplain : (options.alignContributors && (planTexts (some base) changed changed).differ) =
      false := by simp [planTexts, PlanTexts.differ]
  obtain ⟨rows, hrows, hok, htwin⟩ := planRows_twin (i :=
    ⟨(planTexts (some base) changed changed).sources, true, options.diffAlgorithm, []⟩) rfl rfl rfl
  exact plan_clean_of_rows (t := .b) hplain hrows hok fun row hrow =>
    follows_twin hok hrow rfl (htwin row hrow)

theorem identical_changes_merge_cleanly (base changed : List Char) (options : MergeOptions) :
    ∃ plan, buildMergePlanWithOptionalBase (some base) changed changed options = some plan ∧
      CleanMerge plan (splitLines changed) :=
  both_changed_clean base changed options

end GitComet.Merge
