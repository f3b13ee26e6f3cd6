import Mathlib.Data.List.Infix
import GitComet.Resolver.Blocks
import GitComet.Resolver.MarkerGate

namespace GitComet.Resolver
open Text Merge Conflict Conflict.Output List Option Nat

def chooseOurs : ConflictOutputChoice := ⟨[.ours], nodup_singleton _⟩
def chooseTheirs : ConflictOutputChoice := ⟨[.theirs], nodup_singleton _⟩
def chooseBase : ConflictOutputChoice := ⟨[.base], nodup_singleton _⟩
def chooseBoth : ConflictOutputChoice := ⟨[.ours, .theirs], by decide⟩

def appendPicked (block : ConflictBlock) : List Char → List ConflictOutputSource → Option (List Char)
  | selected, [] => some selected
  | selected, .base :: sources => match block.base with
    | none => none
    | some base => appendPicked block (selected ++ base) sources
  | selected, .ours :: sources => appendPicked block (selected ++ block.ours) sources
  | selected, .theirs :: sources => appendPicked block (selected ++ block.theirs) sources

def contentMatchesBlockChoice (block : ConflictBlock) (content : List Char) : Bool :=
  match appendPicked block [] block.choice.sources with
  | none => false
  | some selected => decide (selected = content)

def mergeSource : Bool → ConflictOutputSource → Option MergeSource
  | true, .base => some .a
  | true, .ours => some .b
  | true, .theirs => some .c
  | false, .base => none
  | false, .ours => some .a
  | false, .theirs => some .b

def resolutionForChoice (choice : ConflictOutputChoice) (hasBase : Bool) :
    ConflictRegionResolution :=
  let selection := OrderedSelection.fromSources (choice.sources.filterMap (mergeSource hasBase))
  if selection.isEmpty then .unresolved else .sources selection

def choiceForResolvedContent (block : ConflictBlock) (content : List Char) :
    Option ConflictOutputChoice :=
  if !block.choice.sources.isEmpty && contentMatchesBlockChoice block content then
    some block.choice
  else if content = block.ours then some chooseOurs
  else if content = block.theirs then some chooseTheirs
  else if block.base.any fun base => decide (content = base) then some chooseBase
  else if content = block.ours ++ block.theirs then some chooseBoth
  else none

def resolutionFromContent (block : ConflictBlock) (content : List Char) :
    ConflictRegionResolution :=
  if !block.resolved && (decide (unresolvedMergeConflictPlaceholder <:+: content) ||
      (!block.choice.sources.isEmpty && contentMatchesBlockChoice block content)) then .unresolved
  else if content.isEmpty && block.choice.sources.isEmpty then .manualEdit []
  else match choiceForResolvedContent block content with
    | some choice => resolutionForChoice choice block.base.isSome
    | none => .manualEdit content

def resolutionFromBlock (block : ConflictBlock) : ConflictRegionResolution :=
  if !block.resolved then .unresolved else resolutionForChoice block.choice block.base.isSome

def regionIndex (blockRegionIndices : List ℕ) (blockIndex : ℕ) : ℕ :=
  blockRegionIndices[blockIndex]?.getD blockIndex

def updatesFromOutput (slice : ℕ → Option (List Char)) (blockRegionIndices : List ℕ) :
    ℕ → List ConflictSegment → Option (List (ℕ × ConflictRegionResolution))
  | _, [] => some []
  | blockIndex, .text _ :: segments =>
    updatesFromOutput slice blockRegionIndices blockIndex segments
  | blockIndex, .block block :: segments => do
    let content ← slice blockIndex
    let rest ← updatesFromOutput slice blockRegionIndices (blockIndex + 1) segments
    some ((regionIndex blockRegionIndices blockIndex, resolutionFromContent block content) :: rest)

def deriveRegionResolutionUpdatesFromOutput (segments : List ConflictSegment)
    (blockRegionIndices : List ℕ) (map : ResolvedOutputBlockMap) (outputText : List Char) :
    Option (List (ℕ × ConflictRegionResolution)) :=
  if !map.isValidFor segments outputText then none
  else updatesFromOutput (map.blockSlice segments outputText) blockRegionIndices 0 segments

def updatesFromSegments (blockRegionIndices : List ℕ) :
    ℕ → List ConflictSegment → List (ℕ × ConflictRegionResolution)
  | _, [] => []
  | blockIndex, .text _ :: segments => updatesFromSegments blockRegionIndices blockIndex segments
  | blockIndex, .block block :: segments =>
    (regionIndex blockRegionIndices blockIndex, resolutionFromBlock block) ::
      updatesFromSegments blockRegionIndices (blockIndex + 1) segments

def deriveRegionResolutionUpdatesFromSegments (segments : List ConflictSegment)
    (blockRegionIndices : List ℕ) : List (ℕ × ConflictRegionResolution) :=
  updatesFromSegments blockRegionIndices 0 segments

structure ConflictStageSafetyCheck where
  hasConflictMarkers : Bool
  unresolvedBlocks : ℕ

def ConflictStageSafetyCheck.blocksSave (check : ConflictStageSafetyCheck) : Bool :=
  check.hasConflictMarkers || decide (0 < check.unresolvedBlocks)

def conflictStageSafetyCheck (outputText : List Char) (segments : List ConflictSegment)
    (map : ResolvedOutputBlockMap) : ConflictStageSafetyCheck :=
  let unresolvedBlocks :=
    match deriveRegionResolutionUpdatesFromOutput segments [] map outputText with
    | some updates => updates.countP fun update => decide (update.2 = .unresolved)
    | none => conflictCount segments
  ⟨textContainsConflictMarkers outputText, unresolvedBlocks⟩

section
variable {segments : List ConflictSegment}

theorem layOut_ordered (segments : List ConflictSegment) : ∀ cursor,
    windowsOrdered (ResolvedOutputBlockMap.layOut cursor segments).1 ∧
      ∀ range ∈ (ResolvedOutputBlockMap.layOut cursor segments).1.head?, cursor ≤ range.start := by
  induction segments with
  | nil => exact fun cursor => ⟨rfl, by simp [ResolvedOutputBlockMap.layOut]⟩
  | cons segment segments ih =>
    intro cursor
    cases segment with
    | text content =>
      obtain ⟨hordered, hhead⟩ := ih (cursor + byteLen content)
      exact ⟨hordered, fun range hrange => (le_add_right _ _).trans (hhead range hrange)⟩
    | block block =>
      obtain ⟨hordered, hhead⟩ := ih (cursor + block.editableConflictBlockLen)
      rw [ResolvedOutputBlockMap.layOut]
      dsimp only
      refine ⟨?_, ?_⟩
      · generalize (ResolvedOutputBlockMap.layOut _ segments).1 = ranges at hordered hhead
        cases ranges with
        | nil => rfl
        | cons next rest =>
          rw [windowsOrdered, Bool.and_eq_true, decide_eq_true_iff]
          exact ⟨hhead next rfl, hordered⟩
      · rintro range ⟨⟩
        exact le_refl _

structure PlacedBlock (output : List Char) (range : TextRange) (block : ConflictBlock) : Prop where
  oriented : range.start ≤ range.stop
  within : range.stop ≤ byteLen output
  starts : ResolvedOutputBlockMap.isCharBoundary output range.start = true
  stops : ResolvedOutputBlockMap.isCharBoundary output range.stop = true
  slice : byteSlice output range.start range.stop = some block.generated

theorem placedBlock (front back : List Char) (block : ConflictBlock) :
    PlacedBlock (front ++ (block.generated ++ back))
      ⟨byteLen front, byteLen front + byteLen block.generated⟩ block := by
  refine ⟨le_add_right _ _, ?_, ?_, ?_, byteSlice_middle _ _ _⟩
  · simp only [byteLen_append]
    omega
  · rw [ResolvedOutputBlockMap.isCharBoundary, splitAtByte_append, isSome_some]
  · rw [ResolvedOutputBlockMap.isCharBoundary, ← byteLen_append, ← append_assoc,
      splitAtByte_append, isSome_some]

theorem layOut_placed (segments : List ConflictSegment) : ∀ front : List Char,
    (ResolvedOutputBlockMap.layOut (byteLen front) segments).2 =
        byteLen (front ++ generateResolvedText segments) ∧
      Forall₂ (PlacedBlock (front ++ generateResolvedText segments))
        (ResolvedOutputBlockMap.layOut (byteLen front) segments).1 (blocksOf segments) := by
  induction segments with
  | nil => exact fun front => ⟨by simp [ResolvedOutputBlockMap.layOut, generateResolvedText], .nil⟩
  | cons segment segments ih =>
    intro front
    rw [generateResolvedText, flatMap_cons, ← generateResolvedText]
    cases segment with
    | text content =>
      have hrest := ih (front ++ content)
      rw [byteLen_append, append_assoc] at hrest
      exact hrest
    | block block =>
      obtain ⟨hlen, hplaced⟩ := ih (front ++ block.generated)
      rw [byteLen_append, append_assoc, block.byteLen_generated] at hlen hplaced
      refine ⟨hlen, .cons ?_ hplaced⟩
      have hblock := placedBlock front (generateResolvedText segments) block
      rwa [block.byteLen_generated] at hblock

theorem fromSegments_valid (segments : List ConflictSegment) :
    (ResolvedOutputBlockMap.fromSegments segments).isValidFor segments
      (generateResolvedText segments) := by
  obtain ⟨hlen, hplaced⟩ := layOut_placed segments []
  rw [nil_append, byteLen_nil] at hlen hplaced
  have hall : ∀ range ∈ (ResolvedOutputBlockMap.layOut 0 segments).1,
      ∃ block, PlacedBlock (generateResolvedText segments) range block := by
    intro range hrange
    obtain ⟨i, hi, rfl⟩ := List.mem_iff_getElem.mp hrange
    exact ⟨_, hplaced.get hi (hplaced.length_eq ▸ hi)⟩
  rw [ResolvedOutputBlockMap.isValidFor, ResolvedOutputBlockMap.fromSegments, conflictCount]
  simp only [Bool.and_eq_true, decide_eq_true_iff, List.all_eq_true]
  refine ⟨⟨⟨hlen, hplaced.length_eq⟩, fun range hrange => ?_⟩, (layOut_ordered segments 0).1⟩
  obtain ⟨block, hblock⟩ := hall range hrange
  exact ⟨⟨⟨hblock.oriented, hblock.within⟩, hblock.starts⟩, hblock.stops⟩

theorem fromSegments_slice {i : ℕ} {block : ConflictBlock}
    (h : (blocksOf segments)[i]? = some block) :
    (ResolvedOutputBlockMap.fromSegments segments).blockSlice segments
      (generateResolvedText segments) i = some block.generated := by
  obtain ⟨-, hplaced⟩ := layOut_placed segments []
  rw [nil_append, byteLen_nil] at hplaced
  obtain ⟨hi, rfl⟩ := List.getElem?_eq_some_iff.mp h
  have hi' := hplaced.length_eq.symm ▸ hi
  have hblock := hplaced.get hi' hi
  rw [ResolvedOutputBlockMap.blockSlice, if_pos (fromSegments_valid segments)]
  simp only [ResolvedOutputBlockMap.fromSegments, getElem?_eq_getElem hi',
    bind_eq_bind, bind_some]
  exact hblock.slice

theorem updates_agree_iff {slice : ℕ → Option (List Char)} (blockRegionIndices : List ℕ)
    (segments : List ConflictSegment) : ∀ k,
    (∀ i block, (blocksOf segments)[i]? = some block → slice (k + i) = some block.generated) →
    (updatesFromOutput slice blockRegionIndices k segments =
        some (updatesFromSegments blockRegionIndices k segments) ↔ ∀ block ∈ blocksOf segments,
        resolutionFromContent block block.generated = resolutionFromBlock block) := by
  induction segments with
  | nil => simp [updatesFromOutput, updatesFromSegments, blocksOf]
  | cons segment segments ih =>
    intro k hslice
    cases segment with
    | text content => exact ih k hslice
    | block block =>
      have hfirst := hslice 0 block rfl
      have hrest := ih (k + 1) fun i other hother => by
        rw [add_assoc, add_comm 1]
        exact hslice (i + 1) other hother
      rw [add_zero] at hfirst
      rw [blocksOf, forall_mem_cons, ← hrest, updatesFromOutput, updatesFromSegments, hfirst]
      simp only [bind_eq_bind, bind_some]
      cases updatesFromOutput slice blockRegionIndices (k + 1) segments with
      | none => simp
      | some updates => simp [and_comm]

theorem derived_agree_iff (segments : List ConflictSegment) (blockRegionIndices : List ℕ) :
    deriveRegionResolutionUpdatesFromOutput segments blockRegionIndices
        (.fromSegments segments) (generateResolvedText segments) =
      some (deriveRegionResolutionUpdatesFromSegments segments blockRegionIndices) ↔
      ∀ block ∈ blocksOf segments,
        resolutionFromContent block block.generated = resolutionFromBlock block := by
  rw [deriveRegionResolutionUpdatesFromOutput, fromSegments_valid, Bool.not_true,
    if_neg Bool.false_ne_true]
  refine updates_agree_iff blockRegionIndices segments 0 fun i block h => ?_
  rw [zero_add]
  exact fromSegments_slice h

end

namespace ConflictBlock

def MissesBase (block : ConflictBlock) : Prop :=
  block.base = none ∧ .base ∈ block.choice.sources

def otherPicks (block : ConflictBlock) : List ConflictOutputSource :=
  block.choice.sources.filter fun source => decide (source ≠ .base)

def Recoverable (block : ConflictBlock) : Prop :=
  if block.resolved then
    block.choice.sources ≠ [] ∧ (block.MissesBase →
      block.otherPicks = [.ours] ∨
      (block.otherPicks = [.theirs] ∧ block.theirs ≠ block.ours) ∨
      (block.otherPicks = [.ours, .theirs] ∧ block.ours ≠ [] ∧ block.theirs ≠ []))
  else if block.choice.sources = [] then block.whitespaceOnly = false
  else block.MissesBase → unresolvedMergeConflictPlaceholder <:+: block.pickedText

variable {block : ConflictBlock} {content : List Char}

theorem appendPicked_eq (sources : List ConflictOutputSource) : ∀ selected : List Char,
    appendPicked block selected sources = if block.base = none ∧ .base ∈ sources then none
      else some (selected ++ sources.flatMap (sourceText block.sides)) := by
  induction sources with
  | nil => simp [appendPicked]
  | cons source sources ih =>
    intro selected
    cases source with
    | base =>
      cases hbase : block.base with
      | none => simp [appendPicked, hbase]
      | some base => simp [appendPicked, hbase, ih, sourceText, sides]
    | ours => simp [appendPicked, ih, sourceText, sides]
    | theirs => simp [appendPicked, ih, sourceText, sides]

theorem matches_iff :
    contentMatchesBlockChoice block content ↔ ¬block.MissesBase ∧ content = block.pickedText := by
  rw [contentMatchesBlockChoice, appendPicked_eq]
  by_cases hmiss : block.MissesBase
  · rw [if_pos (show block.base = none ∧ .base ∈ block.choice.sources from hmiss)]
    simp [hmiss]
  · rw [if_neg (show ¬(block.base = none ∧ .base ∈ block.choice.sources) from hmiss),
      nil_append, ← pickedText]
    simp [hmiss, eq_comm]

def guessed (block : ConflictBlock) (content : List Char) : ConflictRegionResolution :=
  match choiceForResolvedContent block content with
  | some choice => resolutionForChoice choice block.base.isSome
  | none => .manualEdit content

theorem guessed_ne_unresolved
    (h : (!block.choice.sources.isEmpty && contentMatchesBlockChoice block content) = false) :
    block.guessed content ≠ .unresolved := by
  have hours : ∀ hasBase, resolutionForChoice chooseOurs hasBase ≠ .unresolved := by decide
  have htheirs : ∀ hasBase, resolutionForChoice chooseTheirs hasBase ≠ .unresolved := by decide
  have hboth : ∀ hasBase, resolutionForChoice chooseBoth hasBase ≠ .unresolved := by decide
  have hbase : resolutionForChoice chooseBase true ≠ .unresolved := by decide
  rw [guessed, choiceForResolvedContent, h, if_neg Bool.false_ne_true]
  split_ifs with ho ht hb hboth'
  · exact hours _
  · exact htheirs _
  · have hsome : block.base.isSome := by
      cases hnone : block.base with
      | none => simp [hnone] at hb
      | some base => rfl
    rw [hsome]
    exact hbase
  · exact hboth _
  · exact nofun

theorem unresolved_iff (h : block.resolved = false) :
    resolutionFromContent block content = .unresolved ↔
      unresolvedMergeConflictPlaceholder <:+: content ∨
        (block.choice.sources ≠ [] ∧ ¬block.MissesBase ∧ content = block.pickedText) := by
  have hpicks : (!block.choice.sources.isEmpty && contentMatchesBlockChoice block content) ↔
      block.choice.sources ≠ [] ∧ ¬block.MissesBase ∧ content = block.pickedText := by
    rw [Bool.and_eq_true, matches_iff, Bool.not_eq_true', isEmpty_eq_false_iff]
  rw [← hpicks, resolutionFromContent, h, Bool.not_false, Bool.true_and]
  by_cases hshown : unresolvedMergeConflictPlaceholder <:+: content
  · rw [decide_eq_true hshown, Bool.true_or, if_pos rfl]
    exact ⟨fun _ => .inl hshown, fun _ => rfl⟩
  · rw [decide_eq_false hshown, Bool.false_or]
    split
    · rename_i hpicked
      exact ⟨fun _ => .inr hpicked, fun _ => rfl⟩
    · rename_i hpicked
      have hguess := guessed_ne_unresolved (Bool.not_eq_true _ ▸ hpicked)
      refine ⟨fun heq => ?_, fun hor => absurd (hor.resolve_left hshown) hpicked⟩
      split at heq
      · cases heq
      · exact absurd heq hguess

theorem placeholder_shown_iff (block : ConflictBlock) :
    unresolvedMergeConflictPlaceholder <:+: block.unresolvedMergeConflictPlaceholderText ↔
      block.whitespaceOnly = false := by
  have hshown : ∀ ending, unresolvedMergeConflictPlaceholder <:+:
      unresolvedMergeConflictPlaceholder ++ ending := fun ending => ⟨[], ending, rfl⟩
  have hcrlf : ¬unresolvedMergeConflictPlaceholder <:+:
      unresolvedWhitespaceConflictPlaceholder ++ ['\r', '\n'] := by decide +kernel
  have hcr : ¬unresolvedMergeConflictPlaceholder <:+:
      unresolvedWhitespaceConflictPlaceholder ++ ['\r'] := by decide +kernel
  have hlf : ¬unresolvedMergeConflictPlaceholder <:+:
      unresolvedWhitespaceConflictPlaceholder ++ ['\n'] := by decide +kernel
  rw [unresolvedMergeConflictPlaceholderText]
  cases block.whitespaceOnly with
  | false =>
    simp only [Bool.false_eq_true, if_false, iff_true]
    split_ifs <;> exact hshown _
  | true =>
    simp only [if_true, Bool.true_eq_false, iff_false]
    split_ifs
    · exact hcrlf
    · exact hcr
    · exact hlf

theorem recoverable_unresolved (h : block.resolved = false) :
    resolutionFromContent block block.generated = resolutionFromBlock block ↔
      block.Recoverable := by
  rw [resolutionFromBlock, h, Bool.not_false, if_pos rfl, unresolved_iff h, Recoverable, h,
    if_neg Bool.false_ne_true, generated, usesUnresolvedMergeConflictPlaceholder, h,
    Bool.not_false, Bool.true_and]
  by_cases hempty : block.choice.sources = []
  · rw [if_pos hempty, hempty, isEmpty_nil, if_pos rfl, placeholder_shown_iff]
    simp
  · have hisEmpty : block.choice.sources.isEmpty = false := isEmpty_eq_false_iff.mpr hempty
    rw [if_neg hempty, hisEmpty, if_neg Bool.false_ne_true]
    constructor
    · rintro (hshown | ⟨-, hbase, -⟩) hmiss
      · exact hshown
      · exact absurd hmiss hbase
    · intro hmiss
      by_cases hbase : block.MissesBase
      · exact .inl (hmiss hbase)
      · exact .inr ⟨hempty, hbase, rfl⟩

theorem otherPicks_cases (block : ConflictBlock) :
    block.otherPicks = [] ∨ block.otherPicks = [.ours] ∨ block.otherPicks = [.theirs] ∨
      block.otherPicks = [.ours, .theirs] ∨ block.otherPicks = [.theirs, .ours] := by
  have hdistinct : block.otherPicks.Nodup := block.choice.distinct.filter _
  have hother : ∀ source ∈ block.otherPicks, source ≠ .base := fun source hsource => by
    simpa using (mem_filter.mp hsource).2
  generalize block.otherPicks = picks at hdistinct hother
  match picks with
  | [] => exact .inl rfl
  | [x] => cases x <;> simp at hother ⊢
  | [x, y] => cases x <;> cases y <;> simp at hother hdistinct ⊢
  | x :: y :: z :: _ => cases x <;> cases y <;> cases z <;> simp at hother hdistinct

theorem pickedText_otherPicks (h : block.base = none) :
    block.pickedText = block.otherPicks.flatMap (sourceText block.sides) := by
  have hnone : sourceText block.sides .base = [] := by rw [sourceText, sides, h, getD_none]
  rw [pickedText, otherPicks]
  induction block.choice.sources with
  | nil => rfl
  | cons source sources ih =>
    cases source with
    | base =>
      rw [flatMap_cons, hnone, nil_append, ih, filter_cons_of_neg (by decide)]
    | ours => rw [flatMap_cons, ih, filter_cons_of_pos (by decide), flatMap_cons]
    | theirs => rw [flatMap_cons, ih, filter_cons_of_pos (by decide), flatMap_cons]

def resolutionOfPicks (picks : List ConflictOutputSource) : ConflictRegionResolution :=
  let selection := OrderedSelection.fromSources (picks.filterMap (mergeSource false))
  if selection.isEmpty then .unresolved else .sources selection

theorem resolution_otherPicks (block : ConflictBlock) :
    resolutionForChoice block.choice false = resolutionOfPicks block.otherPicks := by
  have hpicks : block.choice.sources.filterMap (mergeSource false) =
      block.otherPicks.filterMap (mergeSource false) := by
    rw [otherPicks]
    induction block.choice.sources with
    | nil => rfl
    | cons source sources ih =>
      cases source with
      | base => rw [filterMap_cons_none rfl, ih, filter_cons_of_neg (by decide)]
      | ours =>
        rw [filter_cons_of_pos (by decide), filterMap_cons, filterMap_cons, ih]
      | theirs =>
        rw [filter_cons_of_pos (by decide), filterMap_cons, filterMap_cons, ih]
  rw [resolutionForChoice, hpicks]
  rfl

theorem guessed_baseless (hbase : block.base = none) (hpicked : .base ∈ block.choice.sources)
    (content : List Char) :
    block.guessed content = if content = block.ours then resolutionOfPicks [.ours]
      else if content = block.theirs then resolutionOfPicks [.theirs]
      else if content = block.ours ++ block.theirs then resolutionOfPicks [.ours, .theirs]
      else .manualEdit content := by
  have hmatch : contentMatchesBlockChoice block content = false := by
    rw [← Bool.not_eq_true, matches_iff]
    exact fun h => h.1 ⟨hbase, hpicked⟩
  rw [guessed, choiceForResolvedContent, hmatch, Bool.and_false, if_neg Bool.false_ne_true, hbase]
  simp only [any_none, Bool.false_eq_true, if_false, isSome_none]
  split_ifs <;> rfl

theorem recoverable_baseless (hmiss : block.MissesBase) :
    block.guessed block.pickedText = resolutionForChoice block.choice block.base.isSome ↔
      block.otherPicks = [.ours] ∨ (block.otherPicks = [.theirs] ∧ block.theirs ≠ block.ours) ∨
      (block.otherPicks = [.ours, .theirs] ∧ block.ours ≠ [] ∧ block.theirs ≠ []) := by
  obtain ⟨hbase, hpicked⟩ := hmiss
  rw [guessed_baseless hbase hpicked, hbase, isSome_none, resolution_otherPicks,
    pickedText_otherPicks hbase]
  have hours : sourceText block.sides .ours = block.ours := rfl
  have htheirs : sourceText block.sides .theirs = block.theirs := rfl
  rcases otherPicks_cases block with h | h | h | h | h <;> rw [h] <;>
    simp only [flatMap_cons, flatMap_nil, append_nil, hours, htheirs]
  · refine iff_of_false ?_ (by simp)
    split_ifs <;> exact nofun
  · exact iff_of_true (if_pos trivial) (.inl trivial)
  · by_cases hsame : block.theirs = block.ours
    · rw [if_pos hsame]
      exact iff_of_false (by decide) (by simp [hsame])
    · rw [if_neg hsame, if_pos trivial]
      exact iff_of_true rfl (by simp [hsame])
  · by_cases ht : block.theirs = []
    · rw [ht, append_nil, if_pos rfl]
      exact iff_of_false (by decide) (by simp)
    · rw [if_neg (by simpa using ht)]
      by_cases ho : block.ours = []
      · rw [ho, nil_append, if_pos rfl]
        exact iff_of_false (by decide) (by simp)
      · rw [if_neg (by simpa using ho), if_pos trivial]
        exact iff_of_true rfl (by simp [ho, ht])
  · refine iff_of_false ?_ (by simp)
    split_ifs
    · decide
    · decide
    · decide
    · exact nofun

theorem recoverable_resolved (h : block.resolved) :
    resolutionFromContent block block.generated = resolutionFromBlock block ↔
      block.Recoverable := by
  have hgenerated : block.generated = block.pickedText := by
    rw [generated, usesUnresolvedMergeConflictPlaceholder, h, Bool.not_true, Bool.false_and,
      if_neg Bool.false_ne_true]
  rw [resolutionFromContent, resolutionFromBlock, hgenerated, Recoverable, h, Bool.not_true,
    Bool.false_and, if_neg Bool.false_ne_true, if_neg Bool.false_ne_true, if_pos rfl]
  by_cases hempty : block.choice.sources = []
  · have hpicked : block.pickedText = [] := by rw [pickedText, hempty, flatMap_nil]
    have hnothing : resolutionForChoice block.choice block.base.isSome = .unresolved := by
      rw [resolutionForChoice, hempty]
      rfl
    rw [hpicked, hnothing, hempty]
    refine iff_of_false ?_ fun hpicks => hpicks.1 rfl
    intro h
    cases h
  · have hisEmpty : block.choice.sources.isEmpty = false := isEmpty_eq_false_iff.mpr hempty
    rw [hisEmpty, Bool.and_false, if_neg Bool.false_ne_true, ← guessed]
    by_cases hmiss : block.MissesBase
    · rw [recoverable_baseless hmiss]
      exact ⟨fun hpicks => ⟨hempty, fun _ => hpicks⟩, fun hpicks => hpicks.2 hmiss⟩
    · have hmatch := matches_iff.mpr ⟨hmiss, rfl⟩
      rw [guessed, choiceForResolvedContent, hisEmpty, hmatch, Bool.not_false, Bool.and_self,
        if_pos rfl]
      exact iff_of_true rfl ⟨hempty, fun hbase => absurd hbase hmiss⟩

theorem recoverable_iff (block : ConflictBlock) :
    resolutionFromContent block block.generated = resolutionFromBlock block ↔
      block.Recoverable := by
  cases h : block.resolved with
  | false => exact recoverable_unresolved h
  | true => exact recoverable_resolved h

end ConflictBlock

structure GateHolds (segments : List ConflictSegment) : Prop where
  agrees : ∀ blockRegionIndices,
    deriveRegionResolutionUpdatesFromOutput segments blockRegionIndices (.fromSegments segments)
        (generateResolvedText segments) =
      some (deriveRegionResolutionUpdatesFromSegments segments blockRegionIndices)
  blocks : ∀ block ∈ blocksOf segments, block.resolved = false →
    (conflictStageSafetyCheck (generateResolvedText segments) segments
      (.fromSegments segments)).blocksSave = true

theorem mem_updatesFromSegments (blockRegionIndices : List ℕ) {block : ConflictBlock}
    (segments : List ConflictSegment) : ∀ k, block ∈ blocksOf segments →
    ∃ i, (i, resolutionFromBlock block) ∈ updatesFromSegments blockRegionIndices k segments := by
  induction segments with
  | nil => simp [blocksOf]
  | cons segment segments ih =>
    intro k hmem
    cases segment with
    | text content => exact ih k hmem
    | block other =>
      rcases mem_cons.mp hmem with rfl | hmem
      · exact ⟨_, mem_cons_self⟩
      · obtain ⟨i, hi⟩ := ih (k + 1) hmem
        exact ⟨i, mem_cons_of_mem _ hi⟩

theorem unresolved_blocks_save {segments : List ConflictSegment}
    (h : deriveRegionResolutionUpdatesFromOutput segments [] (.fromSegments segments)
        (generateResolvedText segments) =
      some (deriveRegionResolutionUpdatesFromSegments segments []))
    {block : ConflictBlock} (hmem : block ∈ blocksOf segments) (hopen : block.resolved = false) :
    (conflictStageSafetyCheck (generateResolvedText segments) segments
      (.fromSegments segments)).blocksSave := by
  obtain ⟨i, hi⟩ := mem_updatesFromSegments [] segments 0 hmem
  rw [conflictStageSafetyCheck, h, ConflictStageSafetyCheck.blocksSave, Bool.or_eq_true,
    decide_eq_true_iff]
  refine .inr (countP_pos_iff.mpr ⟨_, hi, ?_⟩)
  rw [resolutionFromBlock, hopen]
  rfl

theorem save_gate_sees_conflicts_iff (segments : List ConflictSegment) :
    GateHolds segments ↔ ∀ block ∈ blocksOf segments, block.Recoverable := by
  have hblocks : (∀ block ∈ blocksOf segments,
      resolutionFromContent block block.generated = resolutionFromBlock block) ↔
        ∀ block ∈ blocksOf segments, block.Recoverable :=
    forall₂_congr fun block _ => block.recoverable_iff
  rw [← hblocks]
  constructor
  · intro h
    exact (derived_agree_iff segments []).mp (h.agrees [])
  · intro h
    have hagree := fun indices => (derived_agree_iff segments indices).mpr h
    exact ⟨hagree, fun block hmem hopen => unresolved_blocks_save (hagree []) hmem hopen⟩

def respacedLine : List ConflictSegment :=
  [.block ⟨none, ['a', '\n'], ['a', ' ', '\n'], ⟨[], nodup_nil⟩, false, true⟩]

theorem whitespace_conflict_passes_the_gate :
    ¬(deriveRegionResolutionUpdatesFromOutput respacedLine [] (.fromSegments respacedLine)
        (generateResolvedText respacedLine) =
      some (deriveRegionResolutionUpdatesFromSegments respacedLine [])) ∧
    ¬((conflictStageSafetyCheck (generateResolvedText respacedLine) respacedLine
      (.fromSegments respacedLine)).blocksSave = true) := by
  constructor <;> decide +kernel

end GitComet.Resolver
