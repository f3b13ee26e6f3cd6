import GitComet.Basis.Slice
import GitComet.Kit.Rope

namespace GitComet.TextInput
open Option List Nat Kit Splice

structure HighlightEditPatch where
  start : ℕ
  oldLen : ℕ
  newLen : ℕ
  deriving DecidableEq

structure HighlightInterpolation where
  patch : Option HighlightEditPatch
  generation : BitVec 64
  deriving DecidableEq

-- `none` where the source's subtraction would underflow.
def checkedSub (a b : ℕ) : Option ℕ := if b ≤ a then some (a - b) else none

namespace HighlightInterpolation

def reset (interpolation : HighlightInterpolation) : HighlightInterpolation :=
  if interpolation.patch.isNone then interpolation
  else ⟨none, interpolation.generation + 1⟩

def widen (patch : HighlightEditPatch) (replaced inserted : Range) : Option HighlightEditPatch := do
  let unionStart := min patch.start replaced.start
  let unionRight := max (patch.start + patch.newLen) replaced.stop
  let beyondPatch ← checkedSub unionRight patch.newLen
  let sourceRight := beyondPatch + patch.oldLen
  let replacedLen ← checkedSub replaced.stop replaced.start
  let beyondEdit ← checkedSub unionRight replacedLen
  let insertedLen ← checkedSub inserted.stop inserted.start
  let liveRight := beyondEdit + insertedLen
  some ⟨unionStart, sourceRight - unionStart, liveRight - unionStart⟩

def fold (patch : Option HighlightEditPatch) (replaced inserted : Range) :
    Option HighlightEditPatch :=
  match patch with
  | none =>
    some ⟨replaced.start, replaced.stop - replaced.start, inserted.stop - inserted.start⟩
  | some patch => widen patch replaced inserted

def recordEdit (interpolation : HighlightInterpolation) (replaced inserted : Range) :
    Option HighlightInterpolation := do
  let patch ← fold interpolation.patch replaced inserted
  let kept := if patch.oldLen = 0 ∧ patch.newLen = 0 then none else some patch
  some ⟨kept, interpolation.generation + 1⟩

def toSourceOffset (interpolation : HighlightInterpolation) (offset : ℕ) : Option ℕ :=
  match interpolation.patch with
  | none => some offset
  | some patch =>
    if offset ≤ patch.start then some offset
    else if patch.start + patch.newLen ≤ offset then
      (checkedSub offset patch.newLen).map fun beyond => beyond + patch.oldLen
    else
      (checkedSub offset patch.start).map fun inside => patch.start + min inside patch.oldLen

def sourceLookahead (interpolation : HighlightInterpolation) : ℕ :=
  (interpolation.patch.map fun patch => patch.oldLen - patch.newLen).getD 0

end HighlightInterpolation

structure InterpolatedText (α : Type) where
  source : List α
  live : List α
  interpolation : HighlightInterpolation

inductive HighlightEvent (α : Type) where
  | reset
  | edit (range : Range) (new : List α)

def InRange {α : Type} (text : List α) (range : Range) : Prop :=
  range.start ≤ range.stop ∧ range.stop ≤ text.length

instance decidableInRange {α : Type} (text : List α) (range : Range) :
    Decidable (InRange text range) := inferInstanceAs (Decidable (_ ∧ _))

namespace InterpolatedText
variable {α : Type}

def installed (text : List α) (generation : BitVec 64) : InterpolatedText α :=
  ⟨text, text, ⟨none, generation⟩⟩

def step (s : InterpolatedText α) : HighlightEvent α → Option (InterpolatedText α)
  | .reset => some ⟨s.live, s.live, s.interpolation.reset⟩
  | .edit range new =>
    if InRange s.live range then do
      let interpolation ← s.interpolation.recordEdit range ⟨range.start, range.start + new.length⟩
      some ⟨s.source, splice s.live range.start range.stop new, interpolation⟩
    else none

def run (s : InterpolatedText α) : List (HighlightEvent α) → Option (InterpolatedText α)
  | [] => some s
  | event :: events => do
    let s ← s.step event
    run s events

end InterpolatedText

structure Summarises {α : Type} (source live : List α) (patch : HighlightEditPatch) : Prop where
  sourceFits : patch.start + patch.oldLen ≤ source.length
  liveFits : patch.start + patch.newLen ≤ live.length
  before : source.take patch.start = live.take patch.start
  after : source.drop (patch.start + patch.oldLen) = live.drop (patch.start + patch.newLen)

structure MapsOffsets (interpolation : HighlightInterpolation) (sourceLen liveLen : ℕ) : Prop where
  within : ∀ offset ≤ liveLen, ∃ at', interpolation.toSourceOffset offset = some at' ∧
    at' ≤ sourceLen ∧ at' ≤ offset + interpolation.sourceLookahead
  monotone : ∀ offset later, offset ≤ later → ∀ at' after,
    interpolation.toSourceOffset offset = some at' →
    interpolation.toSourceOffset later = some after → at' ≤ after
  exact : interpolation.patch = none → ∀ offset, interpolation.toSourceOffset offset = some offset
  before : ∀ patch, interpolation.patch = some patch → ∀ offset ≤ patch.start,
    interpolation.toSourceOffset offset = some offset
  after : ∀ patch, interpolation.patch = some patch → ∀ offset, patch.start < offset →
    patch.start + patch.newLen ≤ offset → ∃ at', interpolation.toSourceOffset offset = some at' ∧
      at' + patch.newLen = offset + patch.oldLen

structure InterpolatedText.Tracks {α : Type} (s : InterpolatedText α) : Prop where
  exact : s.interpolation.patch = none → s.source = s.live
  patched : ∀ patch, s.interpolation.patch = some patch → Summarises s.source s.live patch

structure InterpolatedText.Sound {α : Type} (s : InterpolatedText α) : Prop where
  exact : s.interpolation.patch = none → s.source = s.live
  patched : ∀ patch, s.interpolation.patch = some patch → Summarises s.source s.live patch
  offsets : MapsOffsets s.interpolation s.source.length s.live.length
  records : ∀ range new, InRange s.live range → (s.step (.edit range new)).isSome = true

theorem checkedSub_of_le {a b : ℕ} (h : b ≤ a) : checkedSub a b = some (a - b) := if_pos h

section
variable {α : Type} {source live new : List α} {range : Range} {patch : HighlightEditPatch}
  {s : InterpolatedText α}

theorem summarises_first (h : source = live) (hrange : InRange live range) :
    Summarises source (splice live range.start range.stop new)
      ⟨range.start, range.stop - range.start, range.start + new.length - range.start⟩ := by
  obtain ⟨hle, hlive⟩ := hrange
  have hstart : range.start ≤ live.length := hle.trans hlive
  have hold : range.start + (range.stop - range.start) = range.stop := Nat.add_sub_cancel' hle
  have hnew : range.start + (range.start + new.length - range.start) =
      range.start + new.length := by
    rw [Nat.add_sub_cancel_left]
  subst h
  refine ⟨hold.symm ▸ hlive, ?_, (take_splice hstart (le_refl _)).symm, ?_⟩
  · rw [length_splice hle hlive]
    exact hnew.le.trans (le_add_right _ _)
  · dsimp only
    rw [hold, hnew, drop_splice hstart]

def unionPatch (patch : HighlightEditPatch) (range : Range) (count : ℕ) : HighlightEditPatch :=
  let unionStart := min patch.start range.start
  let unionRight := max (patch.start + patch.newLen) range.stop
  ⟨unionStart, unionRight - patch.newLen + patch.oldLen - unionStart,
    unionRight - (range.stop - range.start) + count - unionStart⟩

theorem widen_eq (patch : HighlightEditPatch) (hrange : range.start ≤ range.stop) (count : ℕ) :
    HighlightInterpolation.widen patch range ⟨range.start, range.start + count⟩ =
      some (unionPatch patch range count) := by
  have hpatch : patch.newLen ≤ max (patch.start + patch.newLen) range.stop :=
    (le_add_left _ _).trans (Nat.le_max_left _ _)
  have hedit : range.stop - range.start ≤ max (patch.start + patch.newLen) range.stop :=
    (sub_le _ _).trans (Nat.le_max_right _ _)
  rw [HighlightInterpolation.widen]
  dsimp only
  rw [checkedSub_of_le hpatch, checkedSub_of_le hrange, checkedSub_of_le (le_add_right _ _),
    Nat.add_sub_cancel_left, bind_eq_bind, bind_some, bind_some,
    checkedSub_of_le hedit, bind_some, bind_some]
  rfl

theorem Summarises.length_eq (h : Summarises source live patch) :
    source.length + patch.newLen = live.length + patch.oldLen := by
  have hsource := h.sourceFits
  have hlive := h.liveFits
  have hafter := congrArg List.length h.after
  rw [length_drop, length_drop] at hafter
  omega

theorem summarises_union (h : Summarises source live patch) (hrange : InRange live range) :
    Summarises source (splice live range.start range.stop new)
      (unionPatch patch range new.length) := by
  obtain ⟨hle, hlive⟩ := hrange
  have hstart : range.start ≤ live.length := hle.trans hlive
  have hliveFits := h.liveFits
  have hsourceFits := h.sourceFits
  have hlength := h.length_eq
  obtain ⟨beyond, hbeyond⟩ : ∃ beyond, max (patch.start + patch.newLen) range.stop =
      patch.start + patch.newLen + beyond := Nat.exists_eq_add_of_le (le_max_left _ _)
  obtain ⟨rest, hrest⟩ : ∃ rest, max (patch.start + patch.newLen) range.stop =
      range.stop + rest := Nat.exists_eq_add_of_le (le_max_right _ _)
  have hmax : max (patch.start + patch.newLen) range.stop ≤ live.length := max_le hliveFits hlive
  have hsource : (unionPatch patch range new.length).start +
      (unionPatch patch range new.length).oldLen = patch.start + patch.oldLen + beyond := by
    dsimp only [unionPatch]
    omega
  have hnew : (unionPatch patch range new.length).start +
      (unionPatch patch range new.length).newLen = range.start + new.length + rest := by
    dsimp only [unionPatch]
    omega
  refine ⟨?_, ?_, ?_, ?_⟩
  · rw [hsource]
    omega
  · rw [hnew, length_splice hle hlive]
    omega
  · have hunion : (unionPatch patch range new.length).start = min patch.start range.start := rfl
    rw [hunion, take_splice hstart (min_le_right _ _)]
    have hbefore := congrArg (List.take range.start) h.before
    rw [take_take, take_take, min_comm range.start] at hbefore
    exact hbefore
  · rw [hsource, hnew, ← drop_drop, h.after, drop_drop, ← hbeyond, ← drop_drop,
      drop_splice hstart, drop_drop, hrest]

theorem fold_some (h : s.Tracks) (hrange : InRange s.live range) (new : List α) :
    ∃ patch, HighlightInterpolation.fold s.interpolation.patch range
      ⟨range.start, range.start + new.length⟩ = some patch ∧
        Summarises s.source (splice s.live range.start range.stop new) patch := by
  cases hpatch : s.interpolation.patch with
  | none => exact ⟨_, rfl, summarises_first (h.exact hpatch) hrange⟩
  | some patch =>
    exact ⟨_, widen_eq patch hrange.1 new.length, summarises_union (h.patched patch hpatch) hrange⟩

theorem Summarises.eq_of_empty (h : Summarises source live patch)
    (hempty : patch.oldLen = 0 ∧ patch.newLen = 0) : source = live := by
  have hafter := h.after
  rw [hempty.1, hempty.2, add_zero] at hafter
  rw [← take_append_drop patch.start source, h.before, hafter, take_append_drop]

theorem tracks_edit (h : s.Tracks) (hrange : InRange s.live range) (new : List α) :
    ∃ after, s.step (.edit range new) = some after ∧ after.Tracks := by
  obtain ⟨patch, hfold, hsummary⟩ := fold_some h hrange new
  let next : HighlightInterpolation :=
    ⟨if patch.oldLen = 0 ∧ patch.newLen = 0 then none else some patch,
      s.interpolation.generation + 1⟩
  have hrecord : s.interpolation.recordEdit range ⟨range.start, range.start + new.length⟩ =
      some next := by
    rw [HighlightInterpolation.recordEdit, hfold]
    rfl
  refine ⟨⟨s.source, splice s.live range.start range.stop new, next⟩, ?_, ?_⟩
  · rw [InterpolatedText.step, if_pos hrange, hrecord]
    rfl
  · refine ⟨fun hnone => ?_, fun kept hkept => ?_⟩
    · dsimp only [next] at hnone ⊢
      split_ifs at hnone with hempty
      exact hsummary.eq_of_empty hempty
    · dsimp only [next] at hkept ⊢
      split_ifs at hkept with hempty
      cases hkept
      exact hsummary

end

section
variable {interpolation : HighlightInterpolation} {sourceLen liveLen : ℕ}
  {patch : HighlightEditPatch}

def sourceOffset (patch : HighlightEditPatch) (offset : ℕ) : ℕ :=
  if offset ≤ patch.start then offset
  else if patch.start + patch.newLen ≤ offset then offset - patch.newLen + patch.oldLen
  else patch.start + min (offset - patch.start) patch.oldLen

theorem toSourceOffset_exact (h : interpolation.patch = none) (offset : ℕ) :
    interpolation.toSourceOffset offset = some offset := by
  simp only [HighlightInterpolation.toSourceOffset, h]

theorem toSourceOffset_patched (h : interpolation.patch = some patch) (offset : ℕ) :
    interpolation.toSourceOffset offset = some (sourceOffset patch offset) := by
  simp only [HighlightInterpolation.toSourceOffset, h, sourceOffset]
  split_ifs with hbefore hafter
  · rfl
  · rw [checkedSub_of_le ((le_add_left _ _).trans hafter), map_some]
  · rw [checkedSub_of_le (Nat.le_of_not_le hbefore), map_some]

theorem sourceOffset_mono {offset later : ℕ} (h : offset ≤ later) :
    sourceOffset patch offset ≤ sourceOffset patch later := by
  rw [sourceOffset, sourceOffset]
  split_ifs <;> omega

theorem mapsOffsets_exact (h : interpolation.patch = none) (hlength : sourceLen = liveLen) :
    MapsOffsets interpolation sourceLen liveLen where
  within offset hoffset :=
    ⟨offset, toSourceOffset_exact h offset, hlength ▸ hoffset, le_add_right _ _⟩
  monotone offset later hle at' after hat hafter := by
    rw [toSourceOffset_exact h, some.injEq] at hat hafter
    subst hat hafter
    exact hle
  exact _ := toSourceOffset_exact h
  before patch hpatch := by
    rw [h] at hpatch
    cases hpatch
  after patch hpatch := by
    rw [h] at hpatch
    cases hpatch

theorem mapsOffsets_patched (h : interpolation.patch = some patch)
    (hsource : patch.start + patch.oldLen ≤ sourceLen)
    (hlength : sourceLen + patch.newLen = liveLen + patch.oldLen) :
    MapsOffsets interpolation sourceLen liveLen where
  within offset hoffset := by
    have hlookahead : interpolation.sourceLookahead = patch.oldLen - patch.newLen := by
      rw [HighlightInterpolation.sourceLookahead, h]
      rfl
    refine ⟨sourceOffset patch offset, toSourceOffset_patched h offset, ?_, ?_⟩
    · rw [sourceOffset]
      split_ifs <;> omega
    · rw [hlookahead, sourceOffset]
      split_ifs <;> omega
  monotone offset later hle at' after hat hafter := by
    rw [toSourceOffset_patched h, some.injEq] at hat hafter
    subst hat hafter
    exact sourceOffset_mono hle
  exact hnone := by
    rw [h] at hnone
    cases hnone
  before patch' hpatch offset hoffset := by
    rw [h, some.injEq] at hpatch
    subst hpatch
    rw [toSourceOffset_patched h, sourceOffset, if_pos hoffset]
  after patch' hpatch offset hstart hstop := by
    rw [h, some.injEq] at hpatch
    subst hpatch
    refine ⟨_, toSourceOffset_patched h offset, ?_⟩
    rw [sourceOffset, if_neg (not_le.mpr hstart), if_pos hstop]
    omega

end

namespace InterpolatedText
variable {α : Type} {s after : InterpolatedText α}

theorem Tracks.offsets (h : s.Tracks) :
    MapsOffsets s.interpolation s.source.length s.live.length := by
  cases hpatch : s.interpolation.patch with
  | none => exact mapsOffsets_exact hpatch (congrArg List.length (h.exact hpatch))
  | some patch =>
    have hsummary := h.patched patch hpatch
    exact mapsOffsets_patched hpatch hsummary.sourceFits hsummary.length_eq

theorem Tracks.sound (h : s.Tracks) : s.Sound where
  exact := h.exact
  patched := h.patched
  offsets := h.offsets
  records range new hrange := by
    obtain ⟨after, hstep, -⟩ := tracks_edit h hrange new
    rw [hstep]
    rfl

theorem tracks_reset (h : s.interpolation.reset.patch = none) :
    Tracks ⟨s.live, s.live, s.interpolation.reset⟩ :=
  ⟨fun _ => rfl, fun patch hpatch => absurd (h.symm.trans hpatch) (some_ne_none patch).symm⟩

theorem tracks_step (h : s.Tracks) {event : HighlightEvent α} (hstep : s.step event = some after) :
    after.Tracks := by
  cases event with
  | reset =>
    cases hstep
    refine tracks_reset ?_
    rw [HighlightInterpolation.reset]
    split_ifs with hnone
    · exact isNone_iff_eq_none.mp hnone
    · rfl
  | edit range new =>
    by_cases hrange : InRange s.live range
    · obtain ⟨next, hnext, htracks⟩ := tracks_edit h hrange new
      rw [hnext, some.injEq] at hstep
      subst hstep
      exact htracks
    · rw [step, if_neg hrange] at hstep
      cases hstep

theorem tracks_run {events : List (HighlightEvent α)} (h : s.Tracks)
    (hrun : s.run events = some after) : after.Tracks := by
  induction events generalizing s with
  | nil =>
    cases hrun
    exact h
  | cons event events ih =>
    obtain ⟨next, hstep, hrest⟩ := bind_eq_some_iff.mp hrun
    exact ih (tracks_step h hstep) hrest

theorem patch_summarises_edits (text : List α) (generation : BitVec 64)
    (events : List (HighlightEvent α)) (s : InterpolatedText α)
    (hrun : (installed text generation).run events = some s) : s.Sound :=
  (tracks_run ⟨fun _ => rfl, fun _ h => (by cases h)⟩ hrun).sound

theorem two_edits_summarised :
    (installed ['a', 'b', 'c'] 0).run [.edit ⟨1, 2⟩ ['x', 'y'], .edit ⟨2, 3⟩ []] =
      some ⟨['a', 'b', 'c'], ['a', 'x', 'c'], ⟨some ⟨1, 1, 1⟩, 2⟩⟩ ∧
    Sound ⟨['a', 'b', 'c'], ['a', 'x', 'c'], ⟨some ⟨1, 1, 1⟩, 2⟩⟩ :=
  ⟨rfl, patch_summarises_edits ['a', 'b', 'c'] 0 [.edit ⟨1, 2⟩ ['x', 'y'], .edit ⟨2, 3⟩ []] _ rfl⟩

end InterpolatedText

end GitComet.TextInput
