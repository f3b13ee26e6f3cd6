import GitComet.Conflict.MarkerDocument

namespace GitComet.Conflict
open Slice Text Merge Option List Nat

structure Printable (lines : List Line) : Prop where
  plain : Plain lines
  lf : ∀ line ∈ lines, '\r' ∉ line

variable {lines : List Line}

theorem Printable.append {rest : List Line} (h : Printable lines) (h' : Printable rest) :
    Printable (lines ++ rest) := by
  refine ⟨⟨fun line hline => ?_, fun line hline => ?_⟩, fun line hline => ?_⟩
  all_goals rcases mem_append.mp hline with hline | hline
  · exact h.plain.unbroken line hline
  · exact h'.plain.unbroken line hline
  · exact h.plain.free line hline
  · exact h'.plain.free line hline
  · exact h.lf line hline
  · exact h'.lf line hline

theorem Printable.sub {part : List Line} (h : Printable lines) (hpart : part ⊆ lines) :
    Printable part :=
  ⟨⟨fun line hline => h.plain.unbroken line (hpart hline),
    fun line hline => h.plain.free line (hpart hline)⟩, fun line hline => h.lf line (hpart hline)⟩

theorem printable_nil : Printable [] := ⟨⟨by simp [Unbroken], by simp⟩, by simp⟩

theorem Printable.emitted (h : Printable lines) : '\r' ∉ emitLines lines ['\n'] := by
  intro hmem
  obtain ⟨line, hline, hmem⟩ := mem_flatten.mp hmem
  obtain ⟨body, hbody, rfl⟩ := mem_map.mp hline
  rcases mem_append.mp hmem with hmem | hmem
  · exact h.lf body hbody hmem
  · simp at hmem

structure Renderable (plan : MergePlan) : Prop where
  hasBase : plan.hasBase = true
  ending : plan.lineEnding = ['\n']
  printable : ∀ s, Printable (plan.sourceLines s)
  cells : ∀ row ∈ plan.rows, ∀ line, row.a = some line → line < (plan.sourceLines .a).length
  manual : ∀ block ∈ plan.blocks, block.manualContent = none
  inside : ∀ block ∈ plan.blocks,
    block.rows.start ≤ block.rows.stop ∧ block.rows.stop ≤ plan.rows.length

section
variable {plan : MergePlan} {block : MergeBlock} {options : MergeOptions}

theorem blockSourceLines_printable (h : Renderable plan) (hblock : block ∈ plan.blocks)
    (source : MergeSource) :
    ∃ lines, plan.blockSourceLines block source = some lines ∧ Printable lines := by
  obtain ⟨hle, hstop⟩ := h.inside block hblock
  simp only [MergePlan.blockSourceLines, sliceOf_eq hle hstop, bind_eq_bind, bind_some]
  refine ⟨_, rfl, (h.printable source).sub fun line hline => ?_⟩
  obtain ⟨row, -, hcell⟩ := mem_filterMap.mp hline
  obtain ⟨index, -, hindex⟩ := bind_eq_some_iff.mp hcell
  exact mem_of_getElem? hindex

theorem slice_subset {α : Type} (xs : List α) (start stop : ℕ) : slice xs start stop ⊆ xs :=
  ((take_sublist _ _).trans (drop_sublist _ _)).subset

theorem blockAncestorLines_printable (h : Renderable plan) (hblock : block ∈ plan.blocks) :
    ∃ lines, plan.blockAncestorLines block = some lines ∧ Printable lines := by
  obtain ⟨hle, hstop⟩ := h.inside block hblock
  have hbound : ∀ anchor, (slice plan.rows block.rows.stop plan.rows.length).find? anchorRow =
      anchor → (anchor.bind (·.a)).getD (plan.sourceLines .a).length ≤
        (plan.sourceLines .a).length := by
    intro anchor hanchor
    cases hcell : anchor.bind (·.a) with
    | none => exact le_refl _
    | some line =>
      obtain ⟨row, rfl, hrow⟩ := bind_eq_some_iff.mp hcell
      have hmem := slice_subset _ _ _ (mem_of_find?_eq_some hanchor)
      exact le_of_lt (h.cells row hmem line hrow)
  simp only [MergePlan.blockAncestorLines, h.hasBase, if_true,
    sliceOf_eq (zero_le _) (le_trans hle hstop), sliceOf_eq hstop (le_refl _),
    bind_eq_bind, bind_some]
  rw [sliceOf_eq (min_le_right _ _) (hbound _ rfl)]
  exact ⟨_, rfl, (h.printable .a).sub (slice_subset _ _ _)⟩

theorem appendPlanSources_printable (h : Renderable plan) (hblock : block ∈ plan.blocks)
    (sources : List MergeSource) :
    ∃ lines, appendPlanSources plan block sources = some (emitLines lines ['\n']) ∧
      Printable lines := by
  induction sources with
  | nil => exact ⟨[], rfl, printable_nil⟩
  | cons source sources ih =>
    obtain ⟨lines, hlines, hprintable⟩ := blockSourceLines_printable h hblock source
    obtain ⟨rest, hrest, hprintable'⟩ := ih
    refine ⟨lines ++ rest, ?_, hprintable.append hprintable'⟩
    rw [emitLines_append]
    simp only [appendPlanSources, hlines, hrest, h.ending, bind_eq_bind, bind_some]

theorem appendPlanSources_single {source : MergeSource}
    (h : plan.blockSourceLines block source = some lines) :
    appendPlanSources plan block [source] = some (emitLines lines plan.lineEnding) := by
  simp [appendPlanSources, h]

structure Agreement (options : MergeOptions) (plan : MergePlan) (blocks : List MergeBlock)
    (marked : MergeResult) (parsed : List ParsedConflictBlock) (ours theirs : List Line) :
    Prop where
  marker : renderBlocks plan { options with strategy := .normal } blocks = some marked
  oursMerge : renderBlocks plan { options with strategy := .ours } blocks =
    some ⟨emitLines ours ['\n'], 0⟩
  theirsMerge : renderBlocks plan { options with strategy := .theirs } blocks =
    some ⟨emitLines theirs ['\n'], 0⟩
  fragment : Fragment marked.output parsed (emitLines ours ['\n']) (emitLines theirs ['\n'])
  count : parsed.length = marked.conflictCount
  oursPrintable : Printable ours
  theirsPrintable : Printable theirs

theorem agreement_nil : Agreement options plan [] ⟨[], 0⟩ [] [] [] :=
  ⟨rfl, rfl, rfl, fragment_nil, rfl, printable_nil, printable_nil⟩

theorem agreement_cons {blocks : List MergeBlock} {marked marked' : MergeResult}
    {parsed parsed' : List ParsedConflictBlock} {ours ours' theirs theirs' : List Line}
    (h : Agreement options plan [block] marked parsed ours theirs)
    (h' : Agreement options plan blocks marked' parsed' ours' theirs') :
    Agreement options plan (block :: blocks)
      ⟨marked.output ++ marked'.output, marked.conflictCount + marked'.conflictCount⟩
      (parsed ++ parsed') (ours ++ ours') (theirs ++ theirs') := by
  have hsplit : ∀ {opts head rest}, renderBlocks plan opts [block] = some head →
      renderBlocks plan opts blocks = some rest → renderBlocks plan opts (block :: blocks) =
        some ⟨head.output ++ rest.output, head.conflictCount + rest.conflictCount⟩ := by
    intro opts head rest hhead hrest
    obtain ⟨out, hout, heq⟩ := bind_eq_some_iff.mp hhead
    obtain rfl : out = head := by simpa [renderBlocks] using heq
    simp only [renderBlocks, hout, hrest, bind_eq_bind, bind_some]
  refine ⟨hsplit h.marker h'.marker, ?_, ?_, ?_, ?_, h.oursPrintable.append h'.oursPrintable,
    h.theirsPrintable.append h'.theirsPrintable⟩
  · simpa only [emitLines_append] using hsplit h.oursMerge h'.oursMerge
  · simpa only [emitLines_append] using hsplit h.theirsMerge h'.theirsMerge
  · rw [emitLines_append, emitLines_append]
    exact h.fragment.append h'.fragment
  · rw [length_append, h.count, h'.count]

theorem renderBlocks_single {head : MergeResult} (h : renderBlock plan options block = some head) :
    renderBlocks plan options [block] = some head := by
  simp [renderBlocks, h]

theorem renderBlock_selected {selection : OrderedSelection}
    (hmanual : block.manualContent = none) (hending : plan.lineEnding = ['\n'])
    (hselection : strategySelection plan options block = some selection)
    (h : appendPlanSources plan block selection.sources = some (emitLines lines ['\n'])) :
    renderBlock plan options block = some ⟨emitLines lines plan.lineEnding, 0⟩ := by
  simp only [renderBlock, hmanual, hselection, h, hending, map_some]

theorem agreement_selected (h : Renderable plan) (hblock : block ∈ plan.blocks)
    (hselection : block.selection.isEmpty = false) :
    ∃ marked parsed ours theirs, Agreement options plan [block] marked parsed ours theirs := by
  obtain ⟨lines, hlines, hprintable⟩ := appendPlanSources_printable h hblock block.selection.sources
  have hrender : ∀ opts, renderBlocks plan opts [block] = some ⟨emitLines lines ['\n'], 0⟩ := by
    intro opts
    refine renderBlocks_single ?_
    have hchosen : strategySelection plan opts block = some block.selection := by
      simp [strategySelection, hselection]
    have := renderBlock_selected (h.manual block hblock) h.ending hchosen hlines
    rwa [h.ending] at this
  exact ⟨_, [], lines, lines, hrender _, hrender _, hrender _,
    hprintable.plain.context (Or.inl rfl), rfl, hprintable, hprintable⟩

theorem agreement_conflict (h : Renderable plan) (hblock : block ∈ plan.blocks)
    (hemits : Emits ['\n'] options.markerSize options.labels)
    (hselection : block.selection.isEmpty) :
    ∃ marked parsed ours theirs, Agreement options plan [block] marked parsed ours theirs := by
  obtain ⟨ours, hours, hoursPrintable⟩ := blockSourceLines_printable h hblock plan.localSource
  obtain ⟨theirs, htheirs, htheirsPrintable⟩ :=
    blockSourceLines_printable h hblock plan.remoteSource
  obtain ⟨base, hbase, hbasePrintable⟩ := blockAncestorLines_printable h hblock
  obtain ⟨out, parsed, hout, hfragment⟩ := fragment_conflict
    { options with strategy := .normal } hemits hoursPrintable.plain
    htheirsPrintable.plain hbasePrintable.plain
  refine ⟨⟨out, 1⟩, [parsed], ours, theirs, ?_, ?_, ?_, hfragment, rfl, hoursPrintable,
    htheirsPrintable⟩
  · refine renderBlocks_single ?_
    simp only [renderBlock, h.manual block hblock, strategySelection, hselection, if_true,
      renderPlanConflict, hours, htheirs, hbase, h.hasBase, h.ending, hout, bind_eq_bind,
      bind_some, map_some]
  · have hchosen : strategySelection plan { options with strategy := .ours } block =
        some (.fromSource plan.localSource) := by simp [strategySelection, hselection]
    have hlines := appendPlanSources_single hours
    rw [h.ending] at hlines
    have := renderBlock_selected (h.manual block hblock) h.ending hchosen hlines
    rw [h.ending] at this
    exact renderBlocks_single this
  · have hchosen : strategySelection plan { options with strategy := .theirs } block =
        some (.fromSource plan.remoteSource) := by simp [strategySelection, hselection]
    have hlines := appendPlanSources_single htheirs
    rw [h.ending] at hlines
    have := renderBlock_selected (h.manual block hblock) h.ending hchosen hlines
    rw [h.ending] at this
    exact renderBlocks_single this

theorem renderBlocks_agree (h : Renderable plan)
    (hemits : Emits ['\n'] options.markerSize options.labels) (blocks : List MergeBlock)
    (hblocks : blocks ⊆ plan.blocks) :
    ∃ marked parsed ours theirs, Agreement options plan blocks marked parsed ours theirs := by
  induction blocks with
  | nil => exact ⟨_, _, _, _, agreement_nil⟩
  | cons block blocks ih =>
    obtain ⟨hblock, hrest⟩ := cons_subset.mp hblocks
    obtain ⟨_, _, _, _, htail⟩ := ih hrest
    have hhead : ∃ marked parsed ours theirs,
        Agreement options plan [block] marked parsed ours theirs := by
      cases hselection : block.selection.isEmpty with
      | true => exact agreement_conflict h hblock hemits hselection
      | false => exact agreement_selected h hblock hselection
    obtain ⟨_, _, _, _, hhead⟩ := hhead
    exact ⟨_, _, _, _, agreement_cons hhead htail⟩

end

structure Unmarked (text : List Char) : Prop where
  lf : '\r' ∉ text
  free : ∀ line ∈ splitLines text, ∀ c ∈ markerChars, startsWith c line = false

variable {text : List Char}

theorem unmarked_of_check (hlf : text.contains '\r' = false)
    (h : (splitLines text).all (fun line => markerChars.all fun c => !startsWith c line)) :
    Unmarked text := by
  refine ⟨fun hmem => ?_, fun line hline c hc => ?_⟩
  · rw [contains_iff_mem.mpr hmem] at hlf
    cases hlf
  · have hmarks := all_eq_true.mp (all_eq_true.mp h line hline) c hc
    rwa [Bool.not_eq_true'] at hmarks

theorem Unmarked.printable (h : Unmarked text) : Printable (splitLines text) :=
  ⟨⟨splitLines_unbroken text, h.free⟩, fun _ hline hmem => h.lf (splitLines_subset hline hmem)⟩

theorem countLineFeeds_lf (h : '\r' ∉ text) : (countLineFeeds text).1 = 0 := by
  rw [countLineFeeds, countP_eq_zero]
  intro pair hpair
  have hmem := of_mem_zip hpair
  simp only [decide_eq_true_eq]
  rintro rfl
  exact h hmem.1

theorem detectLineEnding_lf {base ours theirs : List Char} (hbase : '\r' ∉ base)
    (hours : '\r' ∉ ours) (htheirs : '\r' ∉ theirs) :
    detectLineEnding (some base) ours theirs = ['\n'] := by
  simp [detectLineEnding, countLineFeeds_lf hbase, countLineFeeds_lf hours,
    countLineFeeds_lf htheirs]

theorem openPlan_renderable {base ours theirs : List Char} {plan : MergePlan}
    (h : OpenPlan (some base) ours theirs plan) (hbase : Unmarked base) (hours : Unmarked ours)
    (htheirs : Unmarked theirs) : Renderable plan := by
  have hsources : ∀ s, plan.sourceLines s = (planTexts (some base) ours theirs).sources.lines s := by
    intro s
    rw [MergePlan.sourceLines, h.baseText, h.oursText, h.theirsText]
  obtain ⟨blocks, runs, hbuild, -, -, hof⟩ := buildBlocks_spec
    (planTexts (some base) ours theirs).sources (some base).isSome plan.rows
  obtain rfl := some.inj (hbuild.symm.trans h.blocks)
  refine ⟨by rw [MergePlan.hasBase, h.baseText]; rfl, ?_, fun s => ?_, ?_, hof.manual, ?_⟩
  · rw [h.lineEnding, detectLineEnding_lf hbase.lf hours.lf htheirs.lf]
  · rw [hsources]
    cases s with
    | a => exact hbase.printable
    | b => exact hours.printable
    | c => exact htheirs.printable
  · intro row hrow line hline
    rw [hsources, ← mem_range, ← h.wellFormed.columns .a]
    exact mem_filterMap.mpr ⟨row, hrow, hline⟩
  · intro block hblock
    obtain ⟨-, hlt, hstop⟩ := tiles_mem h.wellFormed.tiles block.rows (mem_map_of_mem hblock)
    exact ⟨le_of_lt hlt, hstop⟩

theorem decision_cut (hlines : ∀ line ∈ lines, FullLine line) {out : List Char}
    (hout : out = lines.flatten ∨ out = truncateLineEnding lines.flatten) :
    ∃ ending lines', (ending = ['\n'] ∨ ending = ['\r', '\n']) ∧ lines'.flatten = out ∧
      splitInclusive out = lines' ∧ ∀ {blocks ours theirs}, Marked lines blocks ours theirs →
        ∃ ours' theirs', Marked lines' blocks ours' theirs' ∧ EndsWith ending ours ours' ∧
          EndsWith ending theirs theirs' := by
  have hkeep : ∃ ending lines', (ending = ['\n'] ∨ ending = ['\r', '\n']) ∧
      lines'.flatten = lines.flatten ∧ splitInclusive lines.flatten = lines' ∧
      ∀ {blocks ours theirs}, Marked lines blocks ours theirs →
        ∃ ours' theirs', Marked lines' blocks ours' theirs' ∧ EndsWith ending ours ours' ∧
          EndsWith ending theirs theirs' :=
    ⟨['\n'], lines, Or.inl rfl, rfl, splitInclusive_lines hlines,
      fun h => ⟨_, _, h, Or.inl rfl, Or.inl rfl⟩⟩
  have hcut : ∀ ending, (ending = ['\n'] ∨ ending = ['\r', '\n']) →
      ending.isSuffixOf lines.flatten →
      ∃ lines', lines'.flatten = lines.flatten.take (lines.flatten.length - ending.length) ∧
        splitInclusive lines'.flatten = lines' ∧ ∀ {blocks ours theirs},
          Marked lines blocks ours theirs → ∃ ours' theirs', Marked lines' blocks ours' theirs' ∧
            EndsWith ending ours ours' ∧ EndsWith ending theirs theirs' := by
    intro ending hending hsuffix
    obtain ⟨lines', hlast⟩ := lastCut_exists hsuffix hlines hending
    refine ⟨lines', ?_, lastCut_split hlast hlines hending,
      fun h => marked_cut hending h (Or.inr hlast)⟩
    rw [hlast.flatten, length_append, Nat.add_sub_cancel, take_left]
  rcases hout with rfl | rfl
  · exact hkeep
  · unfold truncateLineEnding
    split
    · rename_i hsuffix
      obtain ⟨lines', hflat, hsplit, hmarked⟩ := hcut _ (Or.inr rfl) hsuffix
      rw [hflat] at hsplit
      exact ⟨_, lines', Or.inr rfl, hflat, hsplit, hmarked⟩
    · split
      · rename_i hsuffix
        obtain ⟨lines', hflat, hsplit, hmarked⟩ := hcut _ (Or.inl rfl) hsuffix
        rw [hflat] at hsplit
        exact ⟨_, lines', Or.inl rfl, hflat, hsplit, hmarked⟩
      · exact hkeep

theorem applyTrailingNewlineDecision_cases (output baseText : List Char) (baseLines : List Line)
    (oursText : List Char) (oursLines : List Line) (theirsText : List Char)
    (theirsLines : List Line) :
    applyTrailingNewlineDecision output baseText baseLines oursText oursLines theirsText
        theirsLines = output ∨
      applyTrailingNewlineDecision output baseText baseLines oursText oursLines theirsText
        theirsLines = truncateLineEnding output := by
  unfold applyTrailingNewlineDecision
  split
  · exact Or.inl rfl
  · exact Or.inr rfl

theorem renderMergePlan_cases {plan : MergePlan} {options : MergeOptions} {rendered : MergeResult}
    (hmanual : plan.finalBlockIsManual = false)
    (h : renderBlocks plan options plan.blocks = some rendered) :
    ∃ out, renderMergePlan plan options = some ⟨out, rendered.conflictCount⟩ ∧
      (out = rendered.output ∨ out = truncateLineEnding rendered.output) := by
  simp only [renderMergePlan, h, hmanual, bind_eq_bind, bind_some, Bool.false_eq_true, if_false]
  exact ⟨_, rfl, applyTrailingNewlineDecision_cases _ _ _ _ _ _ _⟩

def UpToFinalNewline (x y : List Char) : Prop := x = y ∨ x = y ++ ['\n'] ∨ y = x ++ ['\n']

theorem endsWith_lf {ending text' : List Char} (h : EndsWith ending text text')
    (hending : ending = ['\n'] ∨ ending = ['\r', '\n']) (hlf : '\r' ∉ text) :
    EndsWith ['\n'] text text' := by
  rcases hending with rfl | rfl
  · exact h
  · rcases h with rfl | rfl
    · exact Or.inl rfl
    · simp at hlf

theorem truncate_endsWith (hlf : '\r' ∉ text) : EndsWith ['\n'] text (truncateLineEnding text) := by
  unfold truncateLineEnding
  split
  · rename_i hsuffix
    obtain ⟨front, rfl⟩ := isSuffixOf_iff_suffix.mp hsuffix
    simp at hlf
  · split
    · rename_i hsuffix
      obtain ⟨front, rfl⟩ := isSuffixOf_iff_suffix.mp hsuffix
      exact Or.inr (by simp)
    · exact Or.inl rfl

theorem upToFinalNewline_of {x y : List Char} (hx : EndsWith ['\n'] text x)
    (hy : EndsWith ['\n'] text y) : UpToFinalNewline x y := by
  rcases hx with rfl | rfl <;> rcases hy with rfl | hy
  · exact Or.inl rfl
  · exact Or.inr (Or.inl hy)
  · exact Or.inr (Or.inr rfl)
  · exact Or.inl (append_cancel_right hy)

structure OutputsAgree (marked oursMerge theirsMerge : MergeResult) : Prop where
  sides : ∃ ours theirs, reconstructConflictMarkerSides marked.output = some (ours, theirs) ∧
    UpToFinalNewline ours oursMerge.output ∧ UpToFinalNewline theirs theirsMerge.output
  count : ∃ segments, parseConflictMarkerSegments marked.output = some segments ∧
    (segments.filterMap (·.block?)).length = marked.conflictCount

theorem agreement_outputs {plan : MergePlan} {options : MergeOptions} {rendered : MergeResult}
    {parsed : List ParsedConflictBlock} {ours theirs : List Line}
    {out oursOut theirsOut : List Char}
    (h : Agreement options plan plan.blocks rendered parsed ours theirs)
    (hout : out = rendered.output ∨ out = truncateLineEnding rendered.output)
    (hours : oursOut = emitLines ours ['\n'] ∨ oursOut = truncateLineEnding (emitLines ours ['\n']))
    (htheirs : theirsOut = emitLines theirs ['\n'] ∨
      theirsOut = truncateLineEnding (emitLines theirs ['\n'])) :
    OutputsAgree ⟨out, rendered.conflictCount⟩ ⟨oursOut, 0⟩ ⟨theirsOut, 0⟩ := by
  obtain ⟨lines, hflat, hlines, hmarked⟩ := h.fragment.lines
  rw [hflat] at hout
  obtain ⟨ending, lines', hending, -, hsplit, hcut⟩ := decision_cut hlines hout
  have hfull := hmarked (.tail (rfl : firstBlock [] = none))
  simp only [append_nil, flatten_nil] at hfull
  obtain ⟨ours', theirs', hmarked', hours', htheirs'⟩ := hcut hfull
  obtain ⟨hparts, hsides⟩ := marked_parse (hsplit ▸ hmarked')
  have hstrategy : ∀ {text cut}, '\r' ∉ text → cut = text ∨ cut = truncateLineEnding text →
      EndsWith ['\n'] text cut := by
    intro text cut hlf hcases
    rcases hcases with rfl | rfl
    · exact Or.inl rfl
    · exact truncate_endsWith hlf
  have hlfOurs := h.oursPrintable.emitted
  have hlfTheirs := h.theirsPrintable.emitted
  refine ⟨⟨ours', theirs', hsides, ?_, ?_⟩, ?_⟩
  · exact upToFinalNewline_of (endsWith_lf hours' hending hlfOurs) (hstrategy hlfOurs hours)
  · exact upToFinalNewline_of (endsWith_lf htheirs' hending hlfTheirs) (hstrategy hlfTheirs htheirs)
  · obtain ⟨parts, hparts, hblocks⟩ := hparts
    exact ⟨parts, hparts, by rw [hblocks, h.count]⟩

theorem marker_and_strategy_outputs_agree (base ours theirs : List Char) (options : MergeOptions)
    (hbase : Unmarked base) (hours : Unmarked ours) (htheirs : Unmarked theirs)
    (hsize : 7 ≤ options.markerSize)
    (hlabels : ∀ label ∈ [options.labels.ours, options.labels.base, options.labels.theirs],
      ∀ text ∈ label, '\n' ∉ text) :
    ∃ marked oursMerge theirsMerge,
      mergeFile base ours theirs { options with strategy := .normal } = some marked ∧
      mergeFile base ours theirs { options with strategy := .ours } = some oursMerge ∧
      mergeFile base ours theirs { options with strategy := .theirs } = some theirsMerge ∧
      OutputsAgree marked oursMerge theirsMerge := by
  obtain ⟨plan, hplan, hopen⟩ := openPlan_exists (some base) ours theirs options
  have hrenderable := openPlan_renderable hopen hbase hours htheirs
  obtain ⟨rendered, parsed, oursLines, theirsLines, hagree⟩ := renderBlocks_agree hrenderable
    ⟨Or.inl rfl, hsize, hlabels⟩ plan.blocks (Subset.refl _)
  have hmanual : plan.finalBlockIsManual = false := by
    rw [MergePlan.finalBlockIsManual]
    cases hlast : plan.blocks.getLast? with
    | none => rfl
    | some block =>
      rw [bind_some, hrenderable.manual block (mem_of_getLast? hlast)]
      rfl
  obtain ⟨out, hout, hcut⟩ := renderMergePlan_cases hmanual hagree.marker
  obtain ⟨oursOut, hoursOut, hoursCut⟩ := renderMergePlan_cases hmanual hagree.oursMerge
  obtain ⟨theirsOut, htheirsOut, htheirsCut⟩ := renderMergePlan_cases hmanual hagree.theirsMerge
  have hmerge : ∀ strategy, mergeFile base ours theirs { options with strategy := strategy } =
      renderMergePlan plan { options with strategy := strategy } := by
    intro strategy
    have hsame : buildMergePlanWithOptionalBase (some base) ours theirs
        { options with strategy := strategy } = some plan := hplan
    simp only [mergeFile, mergeFileWithOptionalBase, hsame, bind_eq_bind, bind_some]
  exact ⟨_, _, _, (hmerge _).trans hout, (hmerge _).trans hoursOut, (hmerge _).trans htheirsOut,
    agreement_outputs hagree hcut hoursCut htheirsCut⟩

theorem outputs_agree_on_an_edited_line :
    ∃ marked oursMerge theirsMerge,
      mergeFile "a\n".toList "b\n".toList "c\n".toList
        { MergeOptions.default with style := .zdiff3, strategy := .normal } = some marked ∧
      mergeFile "a\n".toList "b\n".toList "c\n".toList
        { MergeOptions.default with style := .zdiff3, strategy := .ours } = some oursMerge ∧
      mergeFile "a\n".toList "b\n".toList "c\n".toList
        { MergeOptions.default with style := .zdiff3, strategy := .theirs } = some theirsMerge ∧
      OutputsAgree marked oursMerge theirsMerge :=
  marker_and_strategy_outputs_agree "a\n".toList "b\n".toList "c\n".toList
    { MergeOptions.default with style := .zdiff3 } (unmarked_of_check (by decide) (by decide))
    (unmarked_of_check (by decide) (by decide)) (unmarked_of_check (by decide) (by decide))
    (by decide) (by decide)

end GitComet.Conflict
