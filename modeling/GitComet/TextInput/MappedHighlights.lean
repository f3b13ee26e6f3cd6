import GitComet.TextInput.HighlightPatch
import GitComet.TextInput.HighlightRuns

namespace GitComet.TextInput
open List Nat Kit Bool

variable {Style : Type}

def pushHighlight (clampLen start stop : ℕ) (style : Style) : List (Highlight Style) :=
  let range : Range := ⟨min start clampLen, min stop clampLen⟩
  if range.stop ≤ range.start then [] else [⟨range, style⟩]

def splitHighlight (patch : HighlightEditPatch) (clampLen : ℕ) (highlight : Highlight Style) :
    List (Highlight Style) :=
  let sourceEnd := patch.start + patch.oldLen
  let range := highlight.range
  (if range.start < patch.start then
    pushHighlight clampLen range.start (min range.stop patch.start) highlight.style
  else []) ++
  (if sourceEnd < range.stop then
    pushHighlight clampLen (max range.start sourceEnd - patch.oldLen + patch.newLen)
      (range.stop - patch.oldLen + patch.newLen) highlight.style
  else [])

def rangeLe (highlight later : Highlight Style) : Bool :=
  decide (highlight.range.start < later.range.start) ||
    (decide (highlight.range.start = later.range.start) &&
      decide (highlight.range.stop ≤ later.range.stop))

def mapHighlights (patch : Option HighlightEditPatch) (source : List (Highlight Style))
    (clampLen : ℕ) : List (Highlight Style) :=
  match patch with
  | none =>
    (source.filter fun highlight => decide (highlight.range.start < clampLen) &&
      decide (highlight.range.start < highlight.range.stop)).map fun highlight =>
        { highlight with range := ⟨highlight.range.start, min highlight.range.stop clampLen⟩ }
  | some patch => (source.flatMap (splitHighlight patch clampLen)).mergeSort rangeLe

def sourceByte (patch : Option HighlightEditPatch) (byte : ℕ) : ℕ :=
  match patch with
  | none => byte
  | some patch => if byte < patch.start then byte else byte - patch.newLen + patch.oldLen

def Unedited (patch : Option HighlightEditPatch) (byte : ℕ) : Prop :=
  ∀ edit, patch = some edit → byte < edit.start ∨ edit.start + edit.newLen ≤ byte

structure KeepsColours (patch : Option HighlightEditPatch) (source : List (Highlight Style))
    (clampLen : ℕ) (mapped : List (Highlight Style)) : Prop where
  nonempty : ∀ highlight ∈ mapped, highlight.range.start < highlight.range.stop
  clamped : ∀ highlight ∈ mapped, highlight.range.stop ≤ clampLen
  sorted : SortedByStart mapped
  clear : ∀ highlight ∈ mapped, ∀ byte, highlight.covers byte = true → Unedited patch byte
  styles : ∀ byte < clampLen, Unedited patch byte →
    (lastListed mapped byte).map Highlight.style =
      (lastListed source (sourceByte patch byte)).map Highlight.style

variable {highlight : Highlight Style} {p : Highlight Style → Bool}

section

theorem rangeLe_iff {later : Highlight Style} : rangeLe highlight later ↔
    highlight.range.start < later.range.start ∨ highlight.range.start = later.range.start ∧
      highlight.range.stop ≤ later.range.stop := by
  rw [rangeLe, or_eq_true, and_eq_true, decide_eq_true_eq, decide_eq_true_eq,
    decide_eq_true_eq]

theorem rangeLe_trans (first second third : Highlight Style) (h : rangeLe first second)
    (h' : rangeLe second third) : rangeLe first third := by
  rw [rangeLe_iff] at h h' ⊢
  omega

theorem rangeLe_total (first second : Highlight Style) :
    (rangeLe first second || rangeLe second first) := by
  rw [or_eq_true, rangeLe_iff, rangeLe_iff]
  omega

theorem mergeSort_rangeLe (highlights : List (Highlight Style)) :
    (highlights.mergeSort rangeLe).Pairwise fun highlight later => rangeLe highlight later :=
  pairwise_mergeSort rangeLe_trans rangeLe_total highlights

theorem filter_mergeSort {highlights : List (Highlight Style)}
    (h : (highlights.filter p).Pairwise fun highlight later => rangeLe highlight later) :
    (highlights.mergeSort rangeLe).filter p = highlights.filter p := by
  have hsub := (sublist_mergeSort rangeLe_trans rangeLe_total h filter_sublist).filter p
  rw [filter_filter] at hsub
  simp only [Bool.and_self] at hsub
  exact (hsub.eq_of_length ((mergeSort_perm highlights rangeLe).filter p).length_eq.symm).symm

theorem getLast?_filter_of_upward {highlights : List (Highlight Style)}
    (hsorted : highlights.Pairwise fun highlight later => rangeLe highlight later)
    (hup : ∀ highlight ∈ highlights, ∀ later ∈ highlights, rangeLe highlight later →
      p highlight → p later) (hsome : ∃ highlight ∈ highlights, p highlight) :
    (highlights.filter p).getLast? = highlights.getLast? := by
  rcases eq_nil_or_concat' highlights with rfl | ⟨before, last, rfl⟩
  · obtain ⟨highlight, hmem, -⟩ := hsome
    cases hmem
  · obtain ⟨highlight, hmem, hp⟩ := hsome
    have hlast : last ∈ before ++ [last] := mem_append_right _ (mem_singleton_self last)
    have hpLast : p last := by
      rcases mem_append.mp hmem with hbefore | hsame
      · have hle := (pairwise_append.mp hsorted).2.2 highlight hbefore last
          (mem_singleton_self last)
        exact hup highlight hmem last hlast hle hp
      · rw [← mem_singleton.mp hsame]
        exact hp
    rw [filter_append, filter_cons_of_pos hpLast, filter_nil, getLast?_concat, getLast?_concat]

end

def reachesOver (patch : HighlightEditPatch) (highlight : Highlight Style) : Bool :=
  decide (highlight.range.start ≤ patch.start + patch.oldLen) &&
    decide (patch.start + patch.oldLen < highlight.range.stop)

def liveStop (patch : HighlightEditPatch) (clampLen : ℕ) (highlight : Highlight Style) : ℕ :=
  min (highlight.range.stop - patch.oldLen + patch.newLen) clampLen

def greatestStop (patch : HighlightEditPatch) (clampLen : ℕ) : List (Highlight Style) → ℕ
  | [] => 0
  | highlight :: highlights =>
    max (liveStop patch clampLen highlight) (greatestStop patch clampLen highlights)

def widestOver (patch : HighlightEditPatch) (clampLen : ℕ) (source : List (Highlight Style)) :
    Option (Highlight Style) :=
  let over' := source.filter (reachesOver patch)
  (over'.filter fun highlight =>
    decide (liveStop patch clampLen highlight = greatestStop patch clampLen over')).getLast?

def NothingOvertaken (patch : HighlightEditPatch) (clampLen : ℕ)
    (source : List (Highlight Style)) : Prop :=
  ∀ byte, patch.start + patch.oldLen ≤ byte → byte - patch.oldLen + patch.newLen < clampLen →
    (∀ highlight ∈ source, patch.start + patch.oldLen < highlight.range.start →
      highlight.covers byte = false) →
    ∀ top, lastListed source byte = some top →
      (widestOver patch clampLen source).map Highlight.style = some top.style

section
variable {patch : HighlightEditPatch} {clampLen : ℕ} {highlights : List (Highlight Style)}

theorem le_greatestStop (h : highlight ∈ highlights) :
    liveStop patch clampLen highlight ≤ greatestStop patch clampLen highlights := by
  induction highlights with
  | nil => cases h
  | cons first highlights ih =>
    rw [greatestStop]
    rcases mem_cons.mp h with rfl | hmem
    · exact le_max_left _ _
    · exact (ih hmem).trans (le_max_right _ _)

theorem greatestStop_attained (patch : HighlightEditPatch) (clampLen : ℕ) (h : highlights ≠ []) :
    ∃ highlight ∈ highlights,
      liveStop patch clampLen highlight = greatestStop patch clampLen highlights := by
  induction highlights with
  | nil => exact absurd rfl h
  | cons first highlights ih =>
    rw [greatestStop]
    rcases le_total (greatestStop patch clampLen highlights)
      (liveStop patch clampLen first) with hle | hle
    · exact ⟨first, mem_cons_self, (max_eq_left hle).symm⟩
    · rw [max_eq_right hle]
      rcases eq_nil_or_concat' highlights with rfl | ⟨before, last, hconcat⟩
      · exact ⟨first, mem_cons_self, le_antisymm hle (zero_le _)⟩
      · obtain ⟨highlight, hmem, heq⟩ := ih (by rw [hconcat]; exact concat_ne_nil _ _)
        exact ⟨highlight, mem_cons_of_mem _ hmem, heq⟩

end

section
variable {patch : HighlightEditPatch} {clampLen byte : ℕ} {source : List (Highlight Style)}

theorem covers_iff : highlight.covers byte ↔
    highlight.range.start ≤ byte ∧ byte < highlight.range.stop := by
  rw [Highlight.covers, and_eq_true, decide_eq_true_eq, decide_eq_true_eq]

theorem filter_push (start stop : ℕ) (style : Style) (h : byte < clampLen) :
    (pushHighlight clampLen start stop style).filter (·.covers byte) =
      if start ≤ byte ∧ byte < stop then [⟨⟨min start clampLen, min stop clampLen⟩, style⟩]
      else [] := by
  rw [pushHighlight]
  dsimp only
  split_ifs with hempty hinside hinside
  · omega
  · rfl
  · refine filter_eq_self.mpr fun highlight hmem => ?_
    rw [mem_singleton.mp hmem, covers_iff]
    dsimp only
    omega
  · refine filter_eq_nil_iff.mpr fun highlight hmem => ?_
    rw [mem_singleton.mp hmem, covers_iff]
    dsimp only
    omega

theorem filter_flatMap {split : Highlight Style → List (Highlight Style)}
    {q : Highlight Style → Bool} {piece : Highlight Style → Highlight Style}
    (h : ∀ highlight, (split highlight).filter q = if p highlight then [piece highlight] else [])
    (source : List (Highlight Style)) :
    (source.flatMap split).filter q = (source.filter p).map piece := by
  induction source with
  | nil => rfl
  | cons highlight source ih =>
    rw [flatMap_cons, filter_append, h, ih]
    split_ifs with hp
    · rw [filter_cons_of_pos hp]
      rfl
    · rw [filter_cons_of_neg hp]
      rfl

def leftPiece (patch : HighlightEditPatch) (clampLen : ℕ) (highlight : Highlight Style) :
    Highlight Style :=
  ⟨⟨min highlight.range.start clampLen, min (min highlight.range.stop patch.start) clampLen⟩,
    highlight.style⟩

def rightPiece (patch : HighlightEditPatch) (clampLen : ℕ) (highlight : Highlight Style) :
    Highlight Style :=
  let start := max highlight.range.start (patch.start + patch.oldLen)
  ⟨⟨min (start - patch.oldLen + patch.newLen) clampLen, liveStop patch clampLen highlight⟩,
    highlight.style⟩

theorem filter_split_before (hclamp : byte < clampLen) (hbyte : byte < patch.start)
    (highlight : Highlight Style) :
    (splitHighlight patch clampLen highlight).filter (·.covers byte) =
      if highlight.covers byte then [leftPiece patch clampLen highlight] else [] := by
  rw [splitHighlight, filter_append]
  have hright : ((if patch.start + patch.oldLen < highlight.range.stop then pushHighlight clampLen
        (max highlight.range.start (patch.start + patch.oldLen) - patch.oldLen + patch.newLen)
        (highlight.range.stop - patch.oldLen + patch.newLen) highlight.style else
        []).filter (·.covers byte)) = [] := by
    split_ifs
    · rw [filter_push _ _ _ hclamp, if_neg (by omega)]
    · rfl
  rw [hright, append_nil]
  by_cases hcovers : highlight.covers byte
  · have hinside := covers_iff.mp hcovers
    rw [if_pos hcovers, if_pos (lt_of_le_of_lt hinside.1 hbyte), filter_push _ _ _ hclamp,
      if_pos ⟨hinside.1, Nat.lt_min.mpr ⟨hinside.2, hbyte⟩⟩]
    rfl
  · rw [if_neg hcovers]
    split_ifs with hstart
    · rw [filter_push _ _ _ hclamp, if_neg]
      intro hinside
      exact hcovers (covers_iff.mpr ⟨hinside.1, lt_of_lt_of_le hinside.2 (min_le_left _ _)⟩)
    · rfl

theorem filter_split_after (hclamp : byte - patch.oldLen + patch.newLen < clampLen)
    (hbyte : patch.start + patch.oldLen ≤ byte) (highlight : Highlight Style) :
    (splitHighlight patch clampLen highlight).filter
        (·.covers (byte - patch.oldLen + patch.newLen)) =
      if highlight.covers byte then [rightPiece patch clampLen highlight] else [] := by
  rw [splitHighlight, filter_append]
  have hleft : ((if highlight.range.start < patch.start then
      pushHighlight clampLen highlight.range.start (min highlight.range.stop patch.start)
        highlight.style else
        []).filter (·.covers (byte - patch.oldLen + patch.newLen))) = [] := by
    split_ifs
    · rw [filter_push _ _ _ hclamp, if_neg (by omega)]
    · rfl
  rw [hleft, nil_append]
  by_cases hcovers : highlight.covers byte
  · have hinside := covers_iff.mp hcovers
    rw [if_pos hcovers, if_pos (lt_of_le_of_lt hbyte hinside.2), filter_push _ _ _ hclamp,
      if_pos (by omega)]
    rfl
  · rw [if_neg hcovers]
    split_ifs with hstop
    · rw [filter_push _ _ _ hclamp, if_neg]
      intro hinside
      refine hcovers (covers_iff.mpr ?_)
      omega
    · rfl

theorem pairwise_pieces {piece : Highlight Style → Highlight Style}
    (hsorted : source.Pairwise fun highlight later => rangeLe highlight later)
    (h : ∀ highlight later, p highlight → p later →
      rangeLe highlight later → rangeLe (piece highlight) (piece later)) :
    ((source.filter p).map piece).Pairwise fun highlight later => rangeLe highlight later :=
  pairwise_map.mpr ((hsorted.sublist filter_sublist).imp_of_mem
    fun hmem hmem' hle => h _ _ (mem_filter.mp hmem).2 (mem_filter.mp hmem').2 hle)

theorem lastListed_before
    (hsorted : source.Pairwise fun highlight later => rangeLe highlight later)
    (hclamp : byte < clampLen) (hbyte : byte < patch.start) :
    lastListed (mapHighlights (some patch) source clampLen) byte =
      (lastListed source byte).map (leftPiece patch clampLen) := by
  have hpieces := filter_flatMap (filter_split_before hclamp hbyte) source
  have hordered : ((source.flatMap (splitHighlight patch clampLen)).filter
      (·.covers byte)).Pairwise fun highlight later => rangeLe highlight later := by
    rw [hpieces]
    refine pairwise_pieces hsorted fun highlight later hcovers hcovers' hle => ?_
    have hinside := covers_iff.mp hcovers
    have hinside' := covers_iff.mp hcovers'
    rw [rangeLe_iff] at hle ⊢
    dsimp only [leftPiece]
    omega
  rw [lastListed, mapHighlights, filter_mergeSort hordered, hpieces, getLast?_map, lastListed]

theorem lastListed_mapped {q : Highlight Style → Bool}
    (hclamp : byte - patch.oldLen + patch.newLen < clampLen)
    (hbyte : patch.start + patch.oldLen ≤ byte)
    (hordered : ((source.filter (·.covers byte)).filter fun highlight =>
        q (rightPiece patch clampLen highlight)).Pairwise fun highlight later =>
      rangeLe (rightPiece patch clampLen highlight) (rightPiece patch clampLen later))
    (hup : ∀ highlight ∈ source, highlight.covers byte → ∀ later ∈ source,
      later.covers byte →
      rangeLe (rightPiece patch clampLen highlight) (rightPiece patch clampLen later) →
      q (rightPiece patch clampLen highlight) → q (rightPiece patch clampLen later))
    (hsome : ∃ highlight ∈ source, highlight.covers byte ∧
      q (rightPiece patch clampLen highlight)) :
    lastListed (mapHighlights (some patch) source clampLen) (byte - patch.oldLen + patch.newLen) =
      (((source.filter (·.covers byte)).filter fun highlight =>
        q (rightPiece patch clampLen highlight)).getLast?).map (rightPiece patch clampLen) := by
  have hpieces := filter_flatMap (filter_split_after hclamp hbyte) source
  have hmapped : ((mapHighlights (some patch) source clampLen).filter
      (·.covers (byte - patch.oldLen + patch.newLen))).Perm
        ((source.filter (·.covers byte)).map (rightPiece patch clampLen)) := by
    rw [← hpieces]
    exact (mergeSort_perm _ _).filter _
  have hof : ∀ highlight ∈ (mapHighlights (some patch) source clampLen).filter
      (·.covers (byte - patch.oldLen + patch.newLen)), ∃ origin ∈ source,
        origin.covers byte ∧ rightPiece patch clampLen origin = highlight := by
    intro highlight hmem
    obtain ⟨origin, horigin, heq⟩ := mem_map.mp (hmapped.subset hmem)
    exact ⟨origin, (mem_filter.mp horigin).1, (mem_filter.mp horigin).2, heq⟩
  have hchosen : (source.flatMap (splitHighlight patch clampLen)).filter
      (fun piece => q piece && piece.covers (byte - patch.oldLen + patch.newLen)) =
        ((source.filter (·.covers byte)).filter fun highlight =>
          q (rightPiece patch clampLen highlight)).map (rightPiece patch clampLen) := by
    rw [← filter_filter, hpieces, filter_map]
    rfl
  have hstable : (mapHighlights (some patch) source clampLen).filter
      (fun piece => q piece && piece.covers (byte - patch.oldLen + patch.newLen)) =
        ((source.filter (·.covers byte)).filter fun highlight =>
          q (rightPiece patch clampLen highlight)).map (rightPiece patch clampLen) := by
    rw [mapHighlights, filter_mergeSort, hchosen]
    rw [hchosen]
    exact pairwise_map.mpr hordered
  rw [lastListed, ← getLast?_map, ← hstable, ← filter_filter]
  refine (getLast?_filter_of_upward ((mergeSort_rangeLe _).sublist filter_sublist) ?_ ?_).symm
  · intro highlight hmem later hlater hle hq
    obtain ⟨origin, horigin, hcovers, rfl⟩ := hof highlight hmem
    obtain ⟨origin', horigin', hcovers', rfl⟩ := hof later hlater
    exact hup origin horigin hcovers origin' horigin' hcovers' hle hq
  · obtain ⟨highlight, hmem, hcovers, hq⟩ := hsome
    refine ⟨rightPiece patch clampLen highlight, hmapped.symm.subset ?_, hq⟩
    exact mem_map_of_mem (mem_filter.mpr ⟨hmem, hcovers⟩)

theorem lastListed_late
    (hsorted : source.Pairwise fun highlight later => rangeLe highlight later)
    (hclamp : byte - patch.oldLen + patch.newLen < clampLen)
    (hbyte : patch.start + patch.oldLen ≤ byte)
    (hlate : ∃ highlight ∈ source, highlight.covers byte ∧
      patch.start + patch.oldLen < highlight.range.start) :
    lastListed (mapHighlights (some patch) source clampLen) (byte - patch.oldLen + patch.newLen) =
      (lastListed source byte).map (rightPiece patch clampLen) := by
  let late : Highlight Style → Bool := fun piece =>
    decide (patch.start + patch.newLen < piece.range.start)
  have hlate_iff : ∀ highlight : Highlight Style, highlight.covers byte →
      (late (rightPiece patch clampLen highlight) ↔
        patch.start + patch.oldLen < highlight.range.start) := by
    intro highlight hcovers
    have hinside := covers_iff.mp hcovers
    dsimp only [late, rightPiece]
    rw [decide_eq_true_eq]
    omega
  refine (lastListed_mapped (q := late) hclamp hbyte ?_ ?_ ?_).trans ?_
  · refine ((hsorted.sublist filter_sublist).sublist filter_sublist).imp_of_mem ?_
    intro highlight later hmem hmem' hle
    have hin := mem_filter.mp hmem
    have hin' := mem_filter.mp hmem'
    have hcovers := (mem_filter.mp hin.1).2
    have hcovers' := (mem_filter.mp hin'.1).2
    have hstart := (hlate_iff _ hcovers).mp hin.2
    have hstart' := (hlate_iff _ hcovers').mp hin'.2
    have hinside := covers_iff.mp hcovers
    have hinside' := covers_iff.mp hcovers'
    rw [rangeLe_iff] at hle ⊢
    dsimp only [rightPiece, liveStop]
    omega
  · intro highlight _ _ later _ _ hle hq
    rw [decide_eq_true_eq] at hq ⊢
    rw [rangeLe_iff] at hle
    omega
  · obtain ⟨highlight, hmem, hcovers, hstart⟩ := hlate
    exact ⟨highlight, hmem, hcovers, (hlate_iff _ hcovers).mpr hstart⟩
  · refine congrArg (Option.map _) (getLast?_filter_of_upward
      (hsorted.sublist filter_sublist) ?_ ?_)
    · intro highlight hmem later hmem' hle hq
      have hcovers := (mem_filter.mp hmem).2
      have hcovers' := (mem_filter.mp hmem').2
      rw [hlate_iff _ hcovers] at hq
      rw [hlate_iff _ hcovers']
      rw [rangeLe_iff] at hle
      omega
    · obtain ⟨highlight, hmem, hcovers, hstart⟩ := hlate
      exact ⟨highlight, mem_filter.mpr ⟨hmem, hcovers⟩, (hlate_iff _ hcovers).mpr hstart⟩

theorem lastListed_over (hclamp : byte - patch.oldLen + patch.newLen < clampLen)
    (hbyte : patch.start + patch.oldLen ≤ byte)
    (hover : ∀ highlight ∈ source, patch.start + patch.oldLen < highlight.range.start →
      highlight.covers byte = false) (hsome : ∃ highlight ∈ source, highlight.covers byte) :
    lastListed (mapHighlights (some patch) source clampLen) (byte - patch.oldLen + patch.newLen) =
      (widestOver patch clampLen source).map (rightPiece patch clampLen) := by
  let greatest := greatestStop patch clampLen (source.filter (reachesOver patch))
  let far : Highlight Style → Bool := fun piece => decide (piece.range.stop = greatest)
  have hstart : ∀ highlight ∈ source, highlight.covers byte →
      highlight.range.start ≤ patch.start + patch.oldLen := by
    intro highlight hmem hcovers
    by_contra hlate
    rw [hover highlight hmem (not_le.mp hlate)] at hcovers
    cases hcovers
  have hreaches : ∀ highlight ∈ source, highlight.covers byte →
      reachesOver patch highlight := by
    intro highlight hmem hcovers
    have hbegun := hstart highlight hmem hcovers
    have hinside := covers_iff.mp hcovers
    rw [reachesOver, and_eq_true, decide_eq_true_eq, decide_eq_true_eq]
    omega
  have hgreatest : byte - patch.oldLen + patch.newLen < greatest := by
    obtain ⟨highlight, hmem, hcovers⟩ := hsome
    have hinside := covers_iff.mp hcovers
    have hle : liveStop patch clampLen highlight ≤ greatest :=
      le_greatestStop (mem_filter.mpr ⟨hmem, hreaches highlight hmem hcovers⟩)
    rw [liveStop] at hle
    omega
  have hcoversFar : ∀ highlight : Highlight Style, reachesOver patch highlight →
      liveStop patch clampLen highlight = greatest → highlight.covers byte := by
    intro highlight hreach hstop
    rw [reachesOver, and_eq_true, decide_eq_true_eq, decide_eq_true_eq] at hreach
    rw [liveStop] at hstop
    rw [covers_iff]
    omega
  have hwidest : (source.filter (·.covers byte)).filter
      (fun highlight => far (rightPiece patch clampLen highlight)) =
        (source.filter (reachesOver patch)).filter fun highlight =>
          decide (liveStop patch clampLen highlight = greatest) := by
    rw [filter_filter, filter_filter]
    refine filter_congr fun highlight hmem => ?_
    rw [Bool.eq_iff_iff, and_eq_true, and_eq_true, decide_eq_true_eq, decide_eq_true_eq]
    exact ⟨fun h => ⟨h.1, hreaches highlight hmem h.2⟩,
      fun h => ⟨h.1, hcoversFar highlight h.2 h.1⟩⟩
  have hsame : ∀ highlight ∈ source, highlight.covers byte →
      (rightPiece patch clampLen highlight).range.start =
        min (patch.start + patch.oldLen - patch.oldLen + patch.newLen) clampLen := by
    intro highlight hmem hcovers
    dsimp only [rightPiece]
    rw [max_eq_right (hstart highlight hmem hcovers)]
  refine (lastListed_mapped (q := far) hclamp hbyte ?_ ?_ ?_).trans ?_
  · refine pairwise_of_forall_mem_list fun highlight hmem later hmem' => ?_
    have hin := mem_filter.mp hmem
    have hin' := mem_filter.mp hmem'
    have hfirst := mem_filter.mp hin.1
    have hsecond := mem_filter.mp hin'.1
    rw [rangeLe_iff, hsame highlight hfirst.1 hfirst.2, hsame later hsecond.1 hsecond.2,
      of_decide_eq_true hin.2, of_decide_eq_true hin'.2]
    exact .inr ⟨rfl, le_refl _⟩
  · intro highlight hmem hcovers later hmem' hcovers' hle hq
    have hstop : liveStop patch clampLen later ≤ greatest :=
      le_greatestStop (mem_filter.mpr ⟨hmem', hreaches later hmem' hcovers'⟩)
    rw [rangeLe_iff, hsame highlight hmem hcovers, hsame later hmem' hcovers',
      of_decide_eq_true hq] at hle
    refine decide_eq_true (le_antisymm hstop ?_)
    rcases hle with hlt | hle
    · exact absurd hlt (lt_irrefl _)
    · exact hle.2
  · obtain ⟨first, hfirst, hcovers⟩ := hsome
    obtain ⟨highlight, hmem, hstop⟩ := greatestStop_attained patch clampLen
      (ne_nil_of_mem (mem_filter.mpr
        ⟨hfirst, hreaches first hfirst hcovers⟩))
    have hin := mem_filter.mp hmem
    exact ⟨highlight, hin.1, hcoversFar highlight hin.2 hstop, decide_eq_true hstop⟩
  · rw [hwidest]
    rfl

variable {piece : Highlight Style}

theorem mem_pushHighlight {start stop : ℕ} {style : Style}
    (h : piece ∈ pushHighlight clampLen start stop style) :
    piece.range.start < piece.range.stop ∧ piece.range.stop ≤ clampLen ∧
      start ≤ piece.range.start ∧ piece.range.stop ≤ stop := by
  rw [pushHighlight] at h
  dsimp only at h
  split_ifs at h with hempty
  · cases h
  · rw [mem_singleton.mp h]
    dsimp only
    omega

theorem mem_splitHighlight (h : piece ∈ splitHighlight patch clampLen highlight) :
    piece.range.start < piece.range.stop ∧ piece.range.stop ≤ clampLen ∧
      (piece.range.stop ≤ patch.start ∨ patch.start + patch.newLen ≤ piece.range.start) := by
  rcases mem_append.mp h with hleft | hright
  · split_ifs at hleft
    · obtain ⟨hlt, hclamp, -, hstop⟩ := mem_pushHighlight hleft
      exact ⟨hlt, hclamp, .inl (hstop.trans (min_le_right _ _))⟩
    · cases hleft
  · split_ifs at hright
    · obtain ⟨hlt, hclamp, hstart, -⟩ := mem_pushHighlight hright
      refine ⟨hlt, hclamp, .inr ?_⟩
      omega
    · cases hright

theorem mem_mapped (h : piece ∈ mapHighlights (some patch) source clampLen) :
    ∃ highlight ∈ source, piece ∈ splitHighlight patch clampLen highlight :=
  mem_flatMap.mp (mem_mergeSort.mp h)

theorem rangeLe_start {later : Highlight Style} (h : rangeLe highlight later) :
    highlight.range.start ≤ later.range.start := by
  rw [rangeLe_iff] at h
  omega

section
variable (hsorted : source.Pairwise fun highlight later => rangeLe highlight later)
include hsorted

theorem keeps_exact
    :
    KeepsColours none source clampLen (mapHighlights none source clampLen) where
  nonempty piece hpiece := by
    obtain ⟨highlight, hmem, rfl⟩ := mem_map.mp hpiece
    have hkept := (mem_filter.mp hmem).2
    rw [and_eq_true, decide_eq_true_eq, decide_eq_true_eq] at hkept
    exact Nat.lt_min.mpr ⟨hkept.2, hkept.1⟩
  clamped piece hpiece := by
    obtain ⟨highlight, -, rfl⟩ := mem_map.mp hpiece
    exact min_le_right _ _
  sorted := pairwise_map.mpr ((hsorted.sublist filter_sublist).imp rangeLe_start)
  clear _ _ _ _ _ h := by cases h
  styles byte hclamp _ := by
    have hfilter : (mapHighlights none source clampLen).filter (·.covers byte) =
        (source.filter (·.covers byte)).map fun highlight : Highlight Style =>
          { highlight with
            range := ⟨highlight.range.start, min highlight.range.stop clampLen⟩ } := by
      rw [mapHighlights, filter_map, filter_filter]
      refine congrArg _ (filter_congr fun highlight _ => ?_)
      rw [Bool.eq_iff_iff, and_eq_true, Function.comp_apply, covers_iff, and_eq_true,
        decide_eq_true_eq, decide_eq_true_eq, covers_iff]
      dsimp only
      omega
    rw [lastListed, hfilter, getLast?_map, Option.map_map]
    rfl

theorem styles_after (hclamp : byte - patch.oldLen + patch.newLen < clampLen)
    (hbyte : patch.start + patch.oldLen ≤ byte)
    (h : (∀ highlight ∈ source, patch.start + patch.oldLen < highlight.range.start →
      highlight.covers byte = false) → ∀ top, lastListed source byte = some top →
        (widestOver patch clampLen source).map Highlight.style = some top.style) :
    (lastListed (mapHighlights (some patch) source clampLen)
        (byte - patch.oldLen + patch.newLen)).map Highlight.style =
      (lastListed source byte).map Highlight.style := by
  by_cases hlate : ∃ highlight ∈ source, highlight.covers byte ∧
      patch.start + patch.oldLen < highlight.range.start
  · rw [lastListed_late hsorted hclamp hbyte hlate, Option.map_map]
    rfl
  · have hover : ∀ highlight ∈ source, patch.start + patch.oldLen < highlight.range.start →
        highlight.covers byte = false := by
      intro highlight hmem hstart
      by_contra hcovers
      exact hlate ⟨highlight, hmem, not_eq_false _ ▸ hcovers, hstart⟩
    cases htop : lastListed source byte with
    | some top =>
      have hmem := mem_filter.mp (mem_of_getLast? htop)
      rw [lastListed_over hclamp hbyte hover ⟨top, hmem.1, hmem.2⟩, Option.map_map]
      exact h hover top htop
    | none =>
      have hpieces := filter_flatMap (filter_split_after hclamp hbyte) source
      have hempty : (source.flatMap (splitHighlight patch clampLen)).filter
          (·.covers (byte - patch.oldLen + patch.newLen)) = [] := by
        rw [hpieces, getLast?_eq_none_iff.mp htop]
        rfl
      rw [lastListed, mapHighlights, filter_mergeSort (hempty ▸ .nil), hempty]
      rfl

theorem keeps_patched_iff :
    KeepsColours (some patch) source clampLen (mapHighlights (some patch) source clampLen) ↔
      NothingOvertaken patch clampLen source := by
  constructor
  · intro hkeeps byte hbyte hclamp hover top htop
    have hmem := mem_filter.mp (mem_of_getLast? htop)
    have hunedited : Unedited (some patch) (byte - patch.oldLen + patch.newLen) := by
      intro edit hedit
      cases hedit
      exact .inr (by omega)
    have hstyle := hkeeps.styles _ hclamp hunedited
    have hsource : sourceByte (some patch) (byte - patch.oldLen + patch.newLen) = byte := by
      rw [sourceByte]
      split_ifs <;> omega
    rw [hsource, htop, lastListed_over hclamp hbyte hover ⟨top, hmem.1, hmem.2⟩,
      Option.map_map] at hstyle
    exact hstyle
  · intro hnothing
    refine ⟨fun piece hpiece => ?_, fun piece hpiece => ?_,
      (mergeSort_rangeLe _).imp rangeLe_start, fun piece hpiece byte hcovers edit hedit => ?_,
      fun byte hclamp hunedited => ?_⟩
    · obtain ⟨highlight, -, hmem⟩ := mem_mapped hpiece
      exact (mem_splitHighlight hmem).1
    · obtain ⟨highlight, -, hmem⟩ := mem_mapped hpiece
      exact (mem_splitHighlight hmem).2.1
    · cases hedit
      obtain ⟨highlight, -, hmem⟩ := mem_mapped hpiece
      have hinside := covers_iff.mp hcovers
      exact (mem_splitHighlight hmem).2.2.imp (fun hstop => lt_of_lt_of_le hinside.2 hstop)
        fun hstart => hstart.trans hinside.1
    · rw [sourceByte]
      rcases hunedited patch rfl with hbefore | hafter
      · rw [if_pos hbefore, lastListed_before hsorted hclamp hbefore, Option.map_map]
        rfl
      · rw [if_neg (by omega)]
        have hlive : byte - patch.newLen + patch.oldLen - patch.oldLen + patch.newLen = byte := by
          omega
        have hclamp' : byte - patch.newLen + patch.oldLen - patch.oldLen + patch.newLen <
            clampLen := hlive.symm ▸ hclamp
        have hbyte : patch.start + patch.oldLen ≤ byte - patch.newLen + patch.oldLen := by omega
        have hstyles := styles_after hsorted hclamp' hbyte (hnothing _ hbyte hclamp')
        rw [hlive] at hstyles
        exact hstyles

end

end

theorem map_highlights_keeps_colours_iff (patch : Option HighlightEditPatch)
    (source : List (Highlight Style)) (clampLen : ℕ)
    (hsorted : source.Pairwise fun highlight later => rangeLe highlight later = true) :
    KeepsColours patch source clampLen (mapHighlights patch source clampLen) ↔
      ∀ edit, patch = some edit → NothingOvertaken edit clampLen source := by
  cases patch with
  | none => exact ⟨fun _ _ h => (by cases h), fun _ => keeps_exact hsorted⟩
  | some patch =>
    rw [keeps_patched_iff hsorted]
    exact ⟨fun h edit hedit => Option.some.inj hedit ▸ h, fun h => h patch rfl⟩

def nestedSource : List (Highlight ℕ) := [⟨⟨0, 5⟩, 1⟩, ⟨⟨1, 4⟩, 2⟩]

theorem nestedSource_sorted :
    nestedSource.Pairwise fun highlight later => rangeLe highlight later := by
  rw [nestedSource]
  decide

theorem nested_source_maps :
    (nestedSource.Pairwise fun highlight later => rangeLe highlight later = true) ∧
    (KeepsColours (some ⟨2, 1, 1⟩) nestedSource 5 (mapHighlights (some ⟨2, 1, 1⟩) nestedSource 5) ↔
      ∀ edit, some ⟨2, 1, 1⟩ = some edit → NothingOvertaken edit 5 nestedSource) :=
  ⟨nestedSource_sorted,
    map_highlights_keeps_colours_iff (some ⟨2, 1, 1⟩) nestedSource 5 nestedSource_sorted⟩

theorem nested_highlight_loses_its_colour :
    ¬∀ (patch : Option HighlightEditPatch) (source : List (Highlight ℕ)) (clampLen : ℕ),
      (source.Pairwise fun highlight later => rangeLe highlight later = true) →
        KeepsColours patch source clampLen (mapHighlights patch source clampLen) := by
  intro hkeeps
  have hunedited : Unedited (some ⟨2, 1, 1⟩) 3 := by
    intro edit hedit
    cases hedit
    exact .inr (le_refl _)
  have hstyle := (hkeeps (some ⟨2, 1, 1⟩) nestedSource 5 nestedSource_sorted).styles 3 (by decide)
    hunedited
  have hmapped : lastListed (mapHighlights (some ⟨2, 1, 1⟩) nestedSource 5) 3 =
      (widestOver ⟨2, 1, 1⟩ 5 nestedSource).map (rightPiece ⟨2, 1, 1⟩ 5) :=
    @lastListed_over ℕ ⟨2, 1, 1⟩ 5 3 nestedSource (by decide) (by decide) (by decide) (by decide)
  rw [hmapped] at hstyle
  exact absurd hstyle (by decide)

end GitComet.TextInput
