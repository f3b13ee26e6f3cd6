import GitComet.Basis.ByteOrder
import GitComet.Basis.Slice
import GitComet.Kit.Rope
import Mathlib.Data.List.Forall2

namespace GitComet.TextInput
open List ByteOrder Kit Slice Splice Nat

def lineFeed : UInt8 := 10

def editAltersProtectedRange (content : Bytes) (protectedRanges : List Range) (range : Range)
    (newText : Bytes) : Bool :=
  protectedRanges.any fun line =>
    if line.stop ≤ range.start ∨ range.stop < line.start then false
    else if line.start < range.stop ∨ range.start = line.start then true
    else match newText.getLast? with
      | some last => last != lineFeed
      | none => range.start != 0 && (content[range.start - 1]?).any (· != lineFeed)

def shiftProtectedRangesForEdit (protectedRanges : List Range) (old new : Range) : List Range :=
  if protectedRanges.any (fun line => old.start < line.stop && line.start < old.stop) then []
  else
    let shift : ℤ := (new.stop - new.start : ℕ) - (old.stop - old.start : ℕ)
    if shift = 0 then protectedRanges
    else
      let shifted := fun offset : ℕ =>
        if 0 ≤ shift then offset + shift.toNat else offset - shift.natAbs
      protectedRanges.map fun line =>
        if line.stop ≤ old.start then line else ⟨shifted line.start, shifted line.stop⟩

structure ProtectedText where
  content : Bytes
  protectedRanges : List Range
  deriving DecidableEq

structure TextEdit where
  range : Range
  newText : Bytes
  deriving DecidableEq

namespace ProtectedText

-- An edit that would alter a protected line is refused; no state where the range is not one of the
-- buffer.
def replaceTextInRange (s : ProtectedText) (edit : TextEdit) : Option ProtectedText :=
  let range := edit.range
  if range.start ≤ range.stop ∧ range.stop ≤ s.content.length then
    if editAltersProtectedRange s.content s.protectedRanges range edit.newText then some s
    else
      let inserted : Range := ⟨range.start, range.start + edit.newText.length⟩
      some
        ⟨splice s.content range.start range.stop edit.newText,
          shiftProtectedRangesForEdit s.protectedRanges range inserted⟩
  else none

def run (s : ProtectedText) : List TextEdit → Option ProtectedText
  | [] => some s
  | edit :: edits => do
    let s ← s.replaceTextInRange edit
    run s edits

end ProtectedText

structure ProtectedLine (content : Bytes) (line : Range) : Prop where
  within : line.stop ≤ content.length
  own : line.start = 0 ∨ content[line.start - 1]? = some lineFeed
  whole : ∃ body, slice content line.start line.stop = body ++ [lineFeed] ∧ lineFeed ∉ body

structure ProtectedText.Kept (s : ProtectedText) : Prop where
  lines : ∀ line ∈ s.protectedRanges, ProtectedLine s.content line
  apart : s.protectedRanges.Pairwise fun line later => line.stop ≤ later.start

inductive Passes (content : Bytes) (range : Range) (newText : Bytes) (line : Range) : Prop
  | after (h : line.stop ≤ range.start)
  | before (h : range.stop < line.start)
  | upTo (hstop : range.stop = line.start) (hstart : range.start ≠ line.start)
      (hboundary : ∀ last, newText.getLast? = some last → last = lineFeed)
      (hempty : newText = [] → range.start = 0 ∨
        ∀ byte, content[range.start - 1]? = some byte → byte = lineFeed)

section
variable {content newText : Bytes} {protectedRanges : List Range} {range line : Range}

theorem passes_of_kept (h : editAltersProtectedRange content protectedRanges range newText = false)
    (hline : line ∈ protectedRanges) : Passes content range newText line := by
  have hthis := any_eq_false.mp h line hline
  split_ifs at hthis with haway hinside
  · rcases haway with hafter | hbefore
    · exact .after hafter
    · exact .before hbefore
  · exact absurd rfl hthis
  · obtain ⟨hstop, hstart⟩ := not_or.mp hinside
    have hbegin := not_or.mp haway
    refine .upTo (le_antisymm (not_lt.mp hstop) (not_lt.mp hbegin.2)) hstart ?_ ?_
    · intro last hlast
      rw [hlast] at hthis
      by_contra hne
      exact hthis (bne_iff_ne.mpr hne)
    · rintro rfl
      rw [getLast?_nil] at hthis
      by_cases hzero : range.start = 0
      · exact .inl hzero
      · refine .inr fun byte hbyte => ?_
        by_contra hne
        apply hthis
        rw [hbyte, Bool.and_eq_true]
        exact ⟨bne_iff_ne.mpr hzero, bne_iff_ne.mpr hne⟩

theorem ProtectedLine.nonempty (h : ProtectedLine content line) : line.start < line.stop := by
  obtain ⟨body, hbody, -⟩ := h.whole
  by_contra hempty
  rw [slice, Nat.sub_eq_zero_of_le (Nat.not_lt.mp hempty), take_zero] at hbody
  exact absurd hbody.symm (append_ne_nil_of_right_ne_nil _ (cons_ne_nil _ _))

theorem ProtectedLine.of_same_bytes {after : Bytes} {moved : Range}
    (h : ProtectedLine content line) (hwithin : moved.stop ≤ after.length)
    (hown : moved.start = 0 ∨ after[moved.start - 1]? = some lineFeed)
    (hsame : slice after moved.start moved.stop = slice content line.start line.stop) :
    ProtectedLine after moved :=
  ⟨hwithin, hown, hsame ▸ h.whole⟩

def movedLine (range : Range) (newText : Bytes) (line : Range) : Range :=
  if line.stop ≤ range.start then line
  else ⟨line.start - range.stop + (range.start + newText.length),
    line.stop - range.stop + (range.start + newText.length)⟩

theorem Passes.stop_le (h : Passes content range newText line)
    (hafter : ¬line.stop ≤ range.start) : range.stop ≤ line.start := by
  cases h with
  | after h => exact absurd h hafter
  | before h => exact le_of_lt h
  | upTo hstop => exact le_of_eq hstop

section
variable (hrange : range.start ≤ range.stop)
include hrange

theorem shift_eq_map (hpass : ∀ line ∈ protectedRanges, Passes content range newText line)
    (hlines : ∀ line ∈ protectedRanges, line.start < line.stop) :
    shiftProtectedRangesForEdit protectedRanges range ⟨range.start, range.start + newText.length⟩ =
        protectedRanges.map (movedLine range newText) := by
  have happart : protectedRanges.any
      (fun line => range.start < line.stop && line.start < range.stop) = false := by
    refine any_eq_false.mpr fun line hline hoverlap => ?_
    rw [Bool.and_eq_true, decide_eq_true_eq, decide_eq_true_eq] at hoverlap
    have hstop := (hpass line hline).stop_le (not_le.mpr hoverlap.1)
    exact absurd hoverlap.2 (not_lt.mpr hstop)
  rw [shiftProtectedRangesForEdit, happart, if_neg Bool.false_ne_true]
  dsimp only
  split_ifs with hshift hgrows
  · refine (map_id protectedRanges).symm.trans (map_congr_left fun line hline => ?_)
    rw [movedLine]
    split_ifs with hafter
    · rfl
    · have hstop := (hpass line hline).stop_le hafter
      have hnonempty := hlines line hline
      have hstart : line.start - range.stop + (range.start + newText.length) = line.start := by
        omega
      have hend : line.stop - range.stop + (range.start + newText.length) = line.stop := by omega
      rw [hstart, hend]
      rfl
  · refine map_congr_left fun line hline => ?_
    rw [movedLine]
    split_ifs with hafter
    · rfl
    · have hstop := (hpass line hline).stop_le hafter
      have hnonempty := hlines line hline
      rw [Range.mk.injEq]
      omega
  · refine map_congr_left fun line hline => ?_
    rw [movedLine]
    split_ifs with hafter
    · rfl
    · have hstop := (hpass line hline).stop_le hafter
      have hnonempty := hlines line hline
      rw [Range.mk.injEq]
      omega

theorem moved_same_bytes (hcontent : range.stop ≤ content.length) (hline : line.start < line.stop)
    (hpass : Passes content range newText line) :
    slice (splice content range.start range.stop newText) (movedLine range newText line).start
      (movedLine range newText line).stop = slice content line.start line.stop := by
  have hstart : range.start ≤ content.length := hrange.trans hcontent
  rw [movedLine]
  split_ifs with hafter
  · exact slice_splice_before hstart hafter
  · have hstop := hpass.stop_le hafter
    exact slice_splice_after hstart hstop (by dsimp only; omega) (by dsimp only; omega)

theorem moved_own (hcontent : range.stop ≤ content.length)
    (hline : ProtectedLine content line) (hpass : Passes content range newText line) :
    (movedLine range newText line).start = 0 ∨
      (splice content range.start range.stop newText)[(movedLine range newText line).start - 1]? =
        some lineFeed := by
  have hstart : range.start ≤ content.length := hrange.trans hcontent
  have hnonempty := hline.nonempty
  rw [movedLine]
  split_ifs with hafter
  · refine hline.own.imp_right fun hown => ?_
    rw [getElem?_splice_before hstart (by omega)]
    exact hown
  · cases hpass with
    | after h => exact absurd h hafter
    | before h =>
      have hown := hline.own.resolve_left (Nat.ne_of_gt (Nat.zero_lt_of_lt h))
      have hshift : (splice content range.start range.stop newText)[range.start + newText.length +
          (line.start - 1 - range.stop)]? = content[range.stop + (line.start - 1 - range.stop)]? :=
        getElem?_splice_after _ hstart
      have hleft : range.start + newText.length + (line.start - 1 - range.stop) =
          line.start - range.stop + (range.start + newText.length) - 1 := by omega
      have hright : range.stop + (line.start - 1 - range.stop) = line.start - 1 := by omega
      rw [hleft, hright] at hshift
      exact .inr (hshift.trans hown)
    | upTo hstop hne hboundary hempty =>
      dsimp only
      rw [hstop, Nat.sub_self, Nat.zero_add]
      rcases eq_nil_or_concat' newText with rfl | ⟨body, last, rfl⟩
      · rcases hempty rfl with hzero | hbyte
        · exact .inl hzero
        · rcases Nat.eq_zero_or_pos range.start with hzero | hpos
          · exact .inl hzero
          · have hlt : range.start - 1 < content.length := by omega
            refine .inr ?_
            rw [length_nil, Nat.add_zero, getElem?_splice_before hstart (by omega),
              getElem?_eq_getElem hlt]
            exact congrArg some (hbyte _ (getElem?_eq_getElem hlt))
      · refine .inr ?_
        have hlast := hboundary last (by rw [getLast?_concat])
        have hpos : range.start + (body ++ [last]).length - 1 = range.start + body.length := by
          rw [length_append, length_singleton]
          omega
        have hlength : body.length < (body ++ [last]).length := by
          rw [length_append, length_singleton]
          exact Nat.lt_succ_self _
        rw [hpos, getElem?_splice_new hstart hlength, getElem?_concat_length, hlast]

theorem moved_within (hcontent : range.stop ≤ content.length) (hline : ProtectedLine content line) :
    (movedLine range newText line).stop ≤
      (splice content range.start range.stop newText).length := by
  have hwithin := hline.within
  rw [length_splice hrange hcontent, movedLine]
  split_ifs with hafter
  · omega
  · dsimp only
    omega

end

theorem moved_apart {later : Range} (hlater : later.start < later.stop)
    (hpass : Passes content range newText line) (hpass' : Passes content range newText later)
    (hapart : line.stop ≤ later.start) :
    (movedLine range newText line).stop ≤ (movedLine range newText later).start := by
  rw [movedLine, movedLine]
  split_ifs with hafter hafter' hafter'
  · exact hapart
  · have hstop := hpass'.stop_le hafter'
    dsimp only
    omega
  · have hstop := hpass.stop_le hafter
    omega
  · dsimp only
    omega

end

namespace ProtectedText
variable {s after : ProtectedText}

def SameLines (s after : ProtectedText) : Prop :=
  Forall₂ (fun line moved => slice after.content moved.start moved.stop =
    slice s.content line.start line.stop) s.protectedRanges after.protectedRanges

theorem sameLines_refl (s : ProtectedText) : s.SameLines s :=
  forall₂_same.mpr fun _ _ => rfl

theorem SameLines.trans {next : ProtectedText} (h : s.SameLines next) (h' : next.SameLines after) :
    s.SameLines after := by
  refine forall₂_iff_get.mpr ⟨h.length_eq.trans h'.length_eq, fun ix hix hix' => ?_⟩
  have hnext : ix < next.protectedRanges.length := h.length_eq ▸ hix
  exact (h'.get hnext hix').trans (h.get hix hnext)

theorem kept_replace (h : s.Kept) {edit : TextEdit}
    (hedit : s.replaceTextInRange edit = some after) : after.Kept ∧ s.SameLines after := by
  rw [replaceTextInRange] at hedit
  split_ifs at hedit with hrange halters
  · cases hedit
    exact ⟨h, sameLines_refl s⟩
  · have hpass : ∀ line ∈ s.protectedRanges, Passes s.content edit.range edit.newText line :=
      fun line hline => passes_of_kept (Bool.eq_false_iff.mpr halters) hline
    have hnonempty : ∀ line ∈ s.protectedRanges, line.start < line.stop :=
      fun line hline => (h.lines line hline).nonempty
    dsimp only at hedit
    rw [shift_eq_map hrange.1 hpass hnonempty, Option.some.injEq] at hedit
    subst hedit
    refine ⟨⟨fun moved hmoved => ?_, ?_⟩, ?_⟩
    · obtain ⟨line, hline, rfl⟩ := mem_map.mp hmoved
      exact (h.lines line hline).of_same_bytes (moved_within hrange.1 hrange.2 (h.lines line hline))
        (moved_own hrange.1 hrange.2 (h.lines line hline) (hpass line hline))
        (moved_same_bytes hrange.1 hrange.2 (hnonempty line hline) (hpass line hline))
    · refine pairwise_map.mpr (h.apart.imp_of_mem fun {line later} hline hlater hapart => ?_)
      exact moved_apart (hnonempty later hlater) (hpass line hline) (hpass later hlater) hapart
    · refine forall₂_map_right_iff.mpr (forall₂_same.mpr fun line hline => ?_)
      exact moved_same_bytes hrange.1 hrange.2 (hnonempty line hline) (hpass line hline)

theorem protected_lines_survive (edits : List TextEdit) (s after : ProtectedText) (h : s.Kept)
    (hrun : s.run edits = some after) : after.Kept ∧ s.SameLines after := by
  induction edits generalizing s with
  | nil =>
    cases hrun
    exact ⟨h, sameLines_refl _⟩
  | cons edit edits ih =>
    obtain ⟨next, hedit, hrest⟩ := Option.bind_eq_some_iff.mp hrun
    obtain ⟨hkept, hsame⟩ := kept_replace h hedit
    obtain ⟨hafter, hlater⟩ := ih next hkept hrest
    exact ⟨hafter, hsame.trans hlater⟩

theorem second_line_survives :
    Kept ⟨[97, 10, 98, 10], [⟨2, 4⟩]⟩ ∧
    ProtectedText.run ⟨[97, 10, 98, 10], [⟨2, 4⟩]⟩ [⟨⟨0, 1⟩, [97, 97]⟩, ⟨⟨0, 3⟩, []⟩] =
      some ⟨[98, 10], [⟨0, 2⟩]⟩ ∧
    Kept ⟨[98, 10], [⟨0, 2⟩]⟩ ∧ SameLines ⟨[97, 10, 98, 10], [⟨2, 4⟩]⟩ ⟨[98, 10], [⟨0, 2⟩]⟩ := by
  have hkept : Kept ⟨[97, 10, 98, 10], [⟨2, 4⟩]⟩ := by
    refine ⟨fun line hline => ?_, pairwise_singleton _ _⟩
    rw [mem_singleton.mp hline]
    exact ⟨by decide, .inr rfl, [98], rfl, by decide⟩
  have hrun : ProtectedText.run ⟨[97, 10, 98, 10], [⟨2, 4⟩]⟩
      [⟨⟨0, 1⟩, [97, 97]⟩, ⟨⟨0, 3⟩, []⟩] = some ⟨[98, 10], [⟨0, 2⟩]⟩ := by decide
  exact ⟨hkept, hrun, protected_lines_survive [⟨⟨0, 1⟩, [97, 97]⟩, ⟨⟨0, 3⟩, []⟩] _ _ hkept hrun⟩

end ProtectedText

end GitComet.TextInput
