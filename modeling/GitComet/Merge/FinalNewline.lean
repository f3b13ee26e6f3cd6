import GitComet.Merge.Identical
import GitComet.Merge.PlanRun

namespace GitComet.Merge
open Slice Text List Option

section
variable {plan : MergePlan} (options : MergeOptions)

theorem appendPlanSources_selected {block : MergeBlock} {sources : List MergeSource} :
    ∀ {lines : List Line}, plan.selectionLines block sources = some lines →
      appendPlanSources plan block sources = some (emitLines lines plan.lineEnding) := by
  induction sources with
  | nil =>
    intro lines h
    cases h
    rfl
  | cons source sources ih =>
    intro lines h
    obtain ⟨own, hown, h⟩ := bind_eq_some_iff.mp h
    obtain ⟨rest, hrest, h⟩ := bind_eq_some_iff.mp h
    cases h
    simp only [appendPlanSources, hown, ih hrest, bind_eq_bind, bind_some]
    simp [emitLines]

theorem renderBlocks_selected {blocks : List MergeBlock}
    (hmanual : ∀ block ∈ blocks, block.manualContent = none)
    (hselected : ∀ block ∈ blocks, block.selection.sources ≠ []) :
    ∀ {lines : List Line}, plan.selectedLinesOf blocks = some lines →
      renderBlocks plan options blocks = some ⟨emitLines lines plan.lineEnding, 0⟩ := by
  induction blocks with
  | nil =>
    intro lines h
    cases h
    rfl
  | cons block blocks ih =>
    intro lines h
    obtain ⟨own, hown, h⟩ := bind_eq_some_iff.mp h
    obtain ⟨rest, hrest, h⟩ := bind_eq_some_iff.mp h
    cases h
    have hselection : block.selection.isEmpty = false := by
      simpa [OrderedSelection.isEmpty] using hselected block mem_cons_self
    have hrendered : renderBlock plan options block =
        some ⟨emitLines own plan.lineEnding, 0⟩ := by
      simp only [renderBlock, hmanual block mem_cons_self, strategySelection, hselection,
        Bool.false_eq_true, if_false, appendPlanSources_selected hown, map_some]
    have hblocks := ih (fun b hb => hmanual b (mem_cons_of_mem _ hb))
      (fun b hb => hselected b (mem_cons_of_mem _ hb)) hrest
    simp only [renderBlocks, hrendered, hblocks, bind_eq_bind, bind_some]
    simp [emitLines]

end

variable {alignments : ManualAlignmentList}

theorem built_manual {base : Option (List Char)} {ours theirs : List Char}
    {options : MergeOptions} {plan : MergePlan}
    (h : buildMergePlanWithAlignments base ours theirs options alignments = some plan) :
    ∀ block ∈ plan.blocks, block.manualContent = none := by
  obtain ⟨rows, -, h⟩ := bind_eq_some_iff.mp h
  obtain ⟨blocks, hblocks, h⟩ := bind_eq_some_iff.mp h
  cases h
  obtain ⟨blocks', runs, hbuilt, rfl, hruns, hof⟩ := buildBlocks_spec
    (planTexts base ours theirs).sources base.isSome rows
  obtain rfl := some.inj (hblocks.symm.trans hbuilt)
  exact hof.manual

structure BuiltFrom (base : Option (List Char)) (ours theirs : List Char) (plan : MergePlan) :
    Prop where
  lineEnding : plan.lineEnding = detectLineEnding base ours theirs
  base : plan.base = base
  ours : plan.ours = ours
  theirs : plan.theirs = theirs

theorem built_from {base : Option (List Char)} {ours theirs : List Char}
    {options : MergeOptions} {plan : MergePlan}
    (h : buildMergePlanWithAlignments base ours theirs options alignments = some plan) :
    BuiltFrom base ours theirs plan := by
  obtain ⟨rows, -, h⟩ := bind_eq_some_iff.mp h
  obtain ⟨blocks, -, h⟩ := bind_eq_some_iff.mp h
  cases h
  exact ⟨rfl, rfl, rfl, rfl⟩

theorem render_clean {base ours theirs : List Char} {plan : MergePlan} {lines : List Line}
    (hbuilt : BuiltFrom (some base) ours theirs plan)
    (hmanual : ∀ block ∈ plan.blocks, block.manualContent = none) (hclean : CleanMerge plan lines)
    (options : MergeOptions) :
    renderMergePlan plan options = some ⟨applyTrailingNewlineDecision
      (emitLines lines plan.lineEnding) base (splitLines base) ours (splitLines ours) theirs
      (splitLines theirs), 0⟩ := by
  have hrendered := renderBlocks_selected options hmanual (fun block hblock => by
    obtain ⟨source, hsource⟩ := hclean.single block hblock
    simp [hsource]) hclean.selected
  have hfinal : plan.finalBlockIsManual = false := by
    rw [MergePlan.finalBlockIsManual]
    cases hlast : plan.blocks.getLast? with
    | none => rfl
    | some block =>
      rw [bind_some, hmanual block (mem_of_getLast? hlast)]
      rfl
  have hlines : ∀ source, plan.sourceLines source =
      (planTexts (some base) ours theirs).sources.lines source := by
    intro source
    rw [MergePlan.sourceLines, hbuilt.base, hbuilt.ours, hbuilt.theirs]
  have hhas : plan.hasBase := by rw [MergePlan.hasBase, hbuilt.base]; rfl
  simp only [renderMergePlan, hrendered, hfinal, hhas, MergePlan.localSource,
    MergePlan.remoteSource, hlines, hbuilt.base, hbuilt.ours, hbuilt.theirs, bind_eq_bind,
    bind_some, Bool.false_eq_true, if_false, if_true]
  rfl

inductive CleanChange (base changed : List Char) : List Char → List Char → Prop where
  | ours : CleanChange base changed changed base
  | theirs : CleanChange base changed base changed
  | both : CleanChange base changed changed changed

theorem cleanChange_plan {base changed ours theirs : List Char}
    (h : CleanChange base changed ours theirs) (options : MergeOptions) :
    ∃ plan, buildMergePlanWithOptionalBase (some base) ours theirs options = some plan ∧
      CleanMerge plan (splitLines changed) := by
  cases h with
  | ours => exact ours_changed_clean base changed options
  | theirs => exact theirs_changed_clean base changed options
  | both => exact both_changed_clean base changed options

section
variable {text : List Char}

variable {line : List Char}

theorem stripSuffix_cons (suffix c : Char) (hne : line ≠ []) :
    stripSuffix suffix (c :: line) = (stripSuffix suffix line).map (c :: ·) := by
  obtain ⟨d, line, rfl⟩ := exists_cons_of_ne_nil hne
  rw [stripSuffix, stripSuffix, getLast?_cons_cons, dropLast_cons_cons]
  split <;> rfl

variable {c : Char}

theorem stripLineEnding_cons (hn : c ≠ '\n') (hr : c ≠ '\r') :
    stripLineEnding (c :: line) = c :: stripLineEnding line := by
  cases line with
  | nil => simp [stripLineEnding, stripSuffix, hn]
  | cons d line =>
    rw [stripLineEnding, stripLineEnding, stripSuffix_cons _ _ (cons_ne_nil _ _)]
    cases hstrip : stripSuffix '\n' (d :: line) with
    | none => rfl
    | some body =>
      rw [map_some]
      cases body with
      | nil => simp [stripSuffix, hr]
      | cons e body =>
        simp only [stripSuffix_cons _ c (cons_ne_nil e body)]
        cases stripSuffix '\r' (e :: body) <;> rfl

theorem splitLines_newline (text : List Char) :
    splitLines ('\n' :: text) = [] :: splitLines text := by
  rw [splitLines, splitInclusive, if_pos rfl]
  rfl

theorem splitLines_cons (hn : c ≠ '\n') (hr : c ≠ '\r') (text : List Char) :
    splitLines (c :: text) = match splitLines text with
      | [] => [[c]]
      | line :: lines => (c :: line) :: lines := by
  rw [splitLines, splitLines, splitInclusive, if_neg hn]
  cases splitInclusive text with
  | nil => simp [stripLineEnding, stripSuffix, hn]
  | cons line lines => simp [stripLineEnding_cons hn hr]

theorem splitLines_nil {text : List Char} (h : splitLines text = []) : text = [] := by
  rw [splitLines, map_eq_nil_iff] at h
  rw [← splitInclusive_flatten text, h]
  rfl

theorem hasTrailing_cons (c d : Char) (text : List Char) :
    hasTrailing (c :: d :: text) = hasTrailing (d :: text) := by
  simp only [hasTrailing, isEmpty_cons, endsWithNewline, getLast?_cons_cons]

theorem emitLines_splitLines (h : '\r' ∉ text) :
    emitLines (splitLines text) ['\n'] = if hasTrailing text then text else text ++ ['\n'] := by
  induction text with
  | nil => rfl
  | cons c text ih =>
    simp only [mem_cons, not_or] at h
    have hrest := ih h.2
    have htrailing : ∀ d rest, text = d :: rest → hasTrailing (c :: text) = hasTrailing text := by
      rintro d rest rfl
      exact hasTrailing_cons c d rest
    by_cases hn : c = '\n'
    · subst hn
      rw [splitLines_newline]
      cases text with
      | nil => rfl
      | cons d rest =>
        rw [htrailing d rest rfl]
        simp only [emitLines, map_cons, flatten_cons, nil_append] at hrest ⊢
        rw [hrest]
        split <;> rfl
    · rw [splitLines_cons hn (Ne.symm h.1)]
      cases hlines : splitLines text with
      | nil =>
        obtain rfl := splitLines_nil hlines
        simp [emitLines, hasTrailing, endsWithNewline, hn]
      | cons line lines =>
        rw [hlines] at hrest
        cases text with
        | nil => cases hlines
        | cons d rest =>
          rw [htrailing d rest rfl]
          simp only [emitLines, map_cons, flatten_cons, cons_append] at hrest ⊢
          rw [hrest]
          split <;> rfl

structure LastLine (text front last : List Char) : Prop where
  opening : front = [] ∨ front.getLast? = some '\n'
  unbroken : '\n' ∉ last
  line : (splitLines text).getLast? = some last

theorem lastLine_exists (h : '\r' ∉ text) (hne : text ≠ []) :
    ∃ front last, LastLine text front last ∧
      (text = front ++ last ∧ last ≠ [] ∨ text = front ++ (last ++ ['\n'])) := by
  obtain ⟨init, line, hsplit, htext, hfront, hne, hfull⟩ := splitInclusive_last hne
  have hopening : init.flatten = [] ∨ init.flatten.getLast? = some '\n' := by
    rcases eq_nil_or_concat' init with rfl | ⟨front, full, rfl⟩
    · exact Or.inl rfl
    · obtain ⟨body, rfl, -⟩ := hfront full (by simp)
      exact Or.inr (by simp)
  have hlast : (splitLines text).getLast? = some (stripLineEnding line) := by
    rw [splitLines, hsplit]
    simp
  rcases hfull with hfree | ⟨body, rfl, hbody⟩
  · rw [stripLineEnding_free hfree] at hlast
    exact ⟨_, line, ⟨hopening, hfree, hlast⟩, Or.inl ⟨htext, hne⟩⟩
  · have hr : '\r' ∉ body := fun hmem => h (by rw [htext]; simp [hmem])
    rw [stripLineEnding_full hr] at hlast
    exact ⟨_, body, ⟨hopening, hbody, hlast⟩, Or.inr htext⟩

def closingLine (text : List Char) : List Char :=
  (text.rdropWhile (· == '\n')).rtakeWhile (· != '\n')

theorem outputLast_eq (h : '\r' ∉ text) : outputLast text = closingLine text := by
  have hdrop : (text.rdropWhile (· == '\n')).rdropWhile (· == '\r') =
      text.rdropWhile (· == '\n') := by
    rw [rdropWhile_eq_self_iff]
    intro hne hlast
    have hmem := ( rdropWhile_prefix (· == '\n') text).subset (getLast_mem hne)
    rw [beq_iff_eq.mp hlast] at hmem
    exact h hmem
  rw [outputLast, hdrop, closingLine]

variable {front last : List Char}

theorem rtakeWhile_last (hfront : front = [] ∨ front.getLast? = some '\n') (hlast : '\n' ∉ last) :
    (front ++ last).rtakeWhile (· != '\n') = last := by
  have hall : ∀ c ∈ last.reverse, (c != '\n') := by
    intro c hc
    rw [bne_iff_ne]
    rintro rfl
    exact hlast (mem_reverse.mp hc)
  have hnone : front.reverse.takeWhile (· != '\n') = [] := by
    rcases hfront with rfl | hfront
    · rfl
    · obtain ⟨init, rfl⟩ := getLast?_eq_some_iff.mp hfront
      simp
  rw [List.rtakeWhile, reverse_append, takeWhile_append_of_pos hall, hnone,
    append_nil, reverse_reverse]

theorem closingLine_newline (text : List Char) :
    closingLine (text ++ ['\n']) = closingLine text := by
  rw [closingLine, rdropWhile_concat_pos _ _ _ (by simp), closingLine]

theorem closingLine_last
    (hfront : front = [] ∨ front.getLast? = some '\n') (hlast : '\n' ∉ last) (hne : last ≠ []) :
    closingLine (front ++ last) = last := by
  have hdrop : (front ++ last).rdropWhile (· == '\n') = front ++ last := by
    rw [rdropWhile_eq_self_iff]
    intro hne' hline
    rw [getLast_append_of_ne_nil _ hne] at hline
    exact hlast (beq_iff_eq.mp hline ▸ getLast_mem hne)
  rw [closingLine, hdrop, rtakeWhile_last hfront hlast]

theorem hasTrailing_newline (text : List Char) : hasTrailing (text ++ ['\n']) := by
  simp [hasTrailing, endsWithNewline]

theorem hasTrailing_open (front : List Char) (hlast : '\n' ∉ last) (hne : last ≠ []) :
    hasTrailing (front ++ last) = false := by
  obtain ⟨init, c, rfl⟩ := (eq_nil_or_concat' last).resolve_left hne
  have hc : c ≠ '\n' := by
    rintro rfl
    simp at hlast
  simp [hasTrailing, endsWithNewline, ← append_assoc, hc]

theorem lastLine_open (h : '\r' ∉ text) (hopen : hasTrailing text = false) :
    ∃ last, (splitLines text).getLast? = some last ∧ last ≠ [] := by
  have hne : text ≠ [] := by
    rintro rfl
    cases hopen
  obtain ⟨front, last, hline, htext⟩ := lastLine_exists h hne
  refine ⟨last, hline.line, ?_⟩
  rcases htext with ⟨-, hlast⟩ | rfl
  · exact hlast
  · rw [← append_assoc, hasTrailing_newline] at hopen
    cases hopen

theorem blankLine_last (h : '\r' ∉ text) (hblank : ['\n', '\n'] <:+ text) :
    (splitLines text).getLast? = some [] := by
  obtain ⟨init, rfl⟩ := hblank
  obtain ⟨front, last, hline, htext⟩ := lastLine_exists h (by simp)
  rw [hline.line]
  have hsplit : init ++ ['\n', '\n'] = init ++ ['\n'] ++ ['\n'] := by simp
  rw [hsplit] at htext
  by_contra hne
  have hlast : last ≠ [] := fun hnil => hne (congrArg some hnil)
  have hopen := hasTrailing_open front hline.unbroken hlast
  rcases htext with ⟨htext, -⟩ | htext
  · rw [← htext, hasTrailing_newline] at hopen
    cases hopen
  · rw [← append_assoc] at htext
    rw [← append_cancel_right htext, hasTrailing_newline] at hopen
    cases hopen

theorem blankLine_of_hidden (h : '\r' ∉ text) (hne : text ≠ [])
    (hhidden : (splitLines text).getLast? ≠ some (closingLine text)) :
    ['\n', '\n'] <:+ text := by
  obtain ⟨front, last, hline, htext⟩ := lastLine_exists h hne
  rw [hline.line] at hhidden
  rcases htext with ⟨rfl, hlast⟩ | rfl
  · exact absurd (congrArg some (closingLine_last hline.opening hline.unbroken hlast).symm) hhidden
  · rw [← append_assoc, closingLine_newline] at hhidden
    by_cases hlast : last = []
    · subst hlast
      rcases hline.opening with rfl | hfront
      · exact absurd rfl hhidden
      · obtain ⟨init, rfl⟩ := getLast?_eq_some_iff.mp hfront
        exact ⟨init, by simp⟩
    · exact absurd (congrArg some (closingLine_last hline.opening hline.unbroken hlast).symm)
        hhidden

theorem truncate_newline (h : '\r' ∉ text) : truncateLineEnding (text ++ ['\n']) = text := by
  have hcrlf : ['\r', '\n'].isSuffixOf (text ++ ['\n']) = false := by
    rw [Bool.eq_false_iff]
    intro hsuffix
    obtain ⟨init, heq⟩ := isSuffixOf_iff_suffix.mp hsuffix
    have hsplit : init ++ ['\r'] ++ ['\n'] = text ++ ['\n'] := by simpa using heq
    exact h (append_cancel_right hsplit ▸ by simp)
  have hlf : ['\n'].isSuffixOf (text ++ ['\n']) :=
    isSuffixOf_iff_suffix.mpr ⟨text, rfl⟩
  rw [truncateLineEnding, if_neg (by rw [hcrlf]; exact Bool.false_ne_true), if_pos hlf]
  simp

end

def FinalNewlineKept (base changed : List Char) : Prop :=
  hasTrailing base = true ∨ ¬['\n', '\n'] <:+ changed ∨
    (splitLines base).getLast? ≠ some (closingLine changed)

section
variable {base changed ours theirs : List Char}

theorem wantTrailing_clean (h : CleanChange base changed ours theirs) (last : Line) :
    wantTrailing last base (splitLines base) ours (splitLines ours) theirs (splitLines theirs) =
      if lastMatches (splitLines changed) last then hasTrailing changed
      else if lastMatches (splitLines base) last then hasTrailing base else true := by
  cases h <;> simp only [wantTrailing] <;>
    generalize lastMatches (splitLines changed) last = m <;>
    generalize lastMatches (splitLines base) last = n <;>
    generalize hasTrailing changed = p <;> generalize hasTrailing base = q <;>
    cases m <;> cases n <;> cases p <;> cases q <;> rfl

theorem decision_keeps (hbase : '\r' ∉ base) (hchanged : '\r' ∉ changed)
    (h : CleanChange base changed ours theirs) :
    applyTrailingNewlineDecision (emitLines (splitLines changed) ['\n']) base (splitLines base)
      ours (splitLines ours) theirs (splitLines theirs) = changed ↔
    FinalNewlineKept base changed := by
  have hlast : outputLast (emitLines (splitLines changed) ['\n']) = closingLine changed := by
    rw [emitLines_splitLines hchanged]
    split
    · exact outputLast_eq hchanged
    · rw [outputLast_eq (by simp [hchanged]), closingLine_newline]
  rw [applyTrailingNewlineDecision, hlast, wantTrailing_clean h, emitLines_splitLines hchanged]
  by_cases hshown : lastMatches (splitLines changed) (closingLine changed)
  · rw [if_pos hshown]
    rw [lastMatches, decide_eq_true_iff] at hshown
    have hkept : FinalNewlineKept base changed := by
      by_cases hopen : hasTrailing base
      · exact Or.inl hopen
      by_cases hblank : ['\n', '\n'] <:+ changed
      · obtain ⟨last, hline, hne⟩ := lastLine_open hbase (Bool.eq_false_iff.mpr hopen)
        refine Or.inr (Or.inr fun heq => hne ?_)
        rw [← hshown, blankLine_last hchanged hblank, hline] at heq
        exact some.inj heq
      · exact Or.inr (Or.inl hblank)
    refine iff_of_true ?_ hkept
    split
    · rfl
    · exact truncate_newline hchanged
  · rw [if_neg hshown]
    rw [lastMatches, decide_eq_true_iff] at hshown
    by_cases hnil : changed = []
    · subst hnil
      refine iff_of_true ?_ (Or.inr (Or.inl (by simp)))
      split
      · split <;> rfl
      · rfl
    have hblank := blankLine_of_hidden hchanged hnil hshown
    obtain ⟨body, hbody⟩ : ∃ body, changed = body ++ ['\n'] := by
      obtain ⟨init, rfl⟩ := hblank
      exact ⟨init ++ ['\n'], by simp⟩
    have hcut : truncateLineEnding changed ≠ changed := by
      rw [hbody, truncate_newline fun hmem => hchanged (by rw [hbody]; simp [hmem])]
      simp
    have htrailing : hasTrailing changed := by rw [hbody, hasTrailing_newline]
    rw [if_pos htrailing, FinalNewlineKept]
    by_cases hmatch : (splitLines base).getLast? = some (closingLine changed)
    · have hm : lastMatches (splitLines base) (closingLine changed) := decide_eq_true hmatch
      rw [if_pos hm]
      simp [hcut, hblank, hmatch]
    · have hm : lastMatches (splitLines base) (closingLine changed) = false :=
        decide_eq_false hmatch
      rw [hm]
      simp [hmatch]

end

theorem lfOnly_lineEnding {base ours theirs : List Char} (hbase : '\r' ∉ base)
    (hours : '\r' ∉ ours) (htheirs : '\r' ∉ theirs) :
    detectLineEnding (some base) ours theirs = ['\n'] := by
  have hnone : ∀ {text : List Char}, '\r' ∉ text → (countLineFeeds text).1 = 0 := by
    intro text htext
    rw [countLineFeeds, countP_eq_zero]
    intro pair hpair heq
    rw [decide_eq_true_iff] at heq
    exact htext (by rw [heq] at hpair; exact (of_mem_zip hpair).1)
  simp [detectLineEnding, hnone hbase, hnone hours, hnone htheirs]

theorem clean_merge_keeps_final_newline {base changed ours theirs : List Char}
    (hbase : '\r' ∉ base) (hchanged : '\r' ∉ changed) (h : CleanChange base changed ours theirs)
    (options : MergeOptions) :
    (∃ result, mergeFile base ours theirs options = some result ∧ result.output = changed) ↔
      FinalNewlineKept base changed := by
  obtain ⟨hours, htheirs⟩ : '\r' ∉ ours ∧ '\r' ∉ theirs := by
    cases h with
    | ours => exact ⟨hchanged, hbase⟩
    | theirs => exact ⟨hbase, hchanged⟩
    | both => exact ⟨hchanged, hchanged⟩
  obtain ⟨plan, hplan, hclean⟩ := cleanChange_plan h options
  have hbuilt := built_from hplan
  have hrender := render_clean hbuilt (built_manual hplan) hclean options
  have hmerge : mergeFile base ours theirs options = renderMergePlan plan options := by
    rw [mergeFile, mergeFileWithOptionalBase, hplan]
    rfl
  rw [hmerge, hrender, hbuilt.lineEnding, lfOnly_lineEnding hbase hours htheirs,
    ← decision_keeps hbase hchanged h]
  constructor
  · rintro ⟨result, hresult, heq⟩
    rw [← some.inj hresult] at heq
    exact heq
  · exact fun heq => ⟨_, rfl, heq⟩

theorem closed_base_keeps_the_blank_line :
    (∃ result, mergeFile "a\n".toList "a\n\n".toList "a\n".toList .default = some result ∧
      result.output = "a\n\n".toList) ↔ FinalNewlineKept "a\n".toList "a\n\n".toList :=
  clean_merge_keeps_final_newline (by decide) (by decide) .ours .default

theorem open_base_loses_the_blank_line :
    CleanChange "a".toList "a\n\n".toList "a\n\n".toList "a".toList ∧
      (mergeFile "a".toList "a\n\n".toList "a".toList .default).map (·.output) = some "a\n".toList ∧
      ¬∃ result, mergeFile "a".toList "a\n\n".toList "a".toList .default = some result ∧
        result.output = "a\n\n".toList := by
  have houtput : (mergeFile "a".toList "a\n\n".toList "a".toList .default).map (·.output) =
      some "a\n".toList := by decide +kernel
  refine ⟨.ours, houtput, ?_⟩
  rintro ⟨result, hresult, heq⟩
  rw [hresult, map_some, heq] at houtput
  revert houtput
  decide

end GitComet.Merge
