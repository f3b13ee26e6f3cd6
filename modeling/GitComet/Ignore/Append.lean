import GitComet.Ignore.Pattern
import GitComet.Merge.Plan

namespace GitComet.Ignore
open Text List

def detectByDominantCounts (text : List Char) : List Char :=
  let counts := Merge.countLineFeeds text
  if counts.2 - counts.1 < counts.1 then ['\r', '\n'] else ['\n']

def toAppend (present : List (List Char)) :
    List (List Char) → List (List Char) → List (List Char)
  | [], added => added
  | pattern :: patterns, added =>
    let pattern := trimTrailingSpaces pattern
    if pattern = [] then toAppend present patterns added
    else if pattern ∉ present ∧ pattern ∉ added then
      toAppend present patterns (added ++ [pattern])
    else toAppend present patterns added

def presentPatterns (existing : List Char) : List (List Char) :=
  (splitLines existing).map trimTrailingSpaces

def leadingTerminator (existing : List Char) : List Char :=
  if existing ≠ [] ∧ existing.getLast? ≠ some '\n' then detectByDominantCounts existing else []

def appendPatterns (existing : List Char) (patterns : List (List Char)) : Option (List Char) :=
  let terminator := detectByDominantCounts existing
  let added := toAppend (presentPatterns existing) patterns []
  if added = [] then none
  else some (existing ++ leadingTerminator existing ++ (added.map (· ++ terminator)).flatten)

theorem detectByDominantCounts_cases (text : List Char) :
    detectByDominantCounts text = ['\r', '\n'] ∨ detectByDominantCounts text = ['\n'] := by
  unfold detectByDominantCounts
  dsimp only
  split
  · exact Or.inl rfl
  · exact Or.inr rfl

def Trailing (line : List Char) (ix k : ℕ) (run : Option ℕ) : Prop :=
  (run = some k ∧ line = replicate line.length ' ') ∨
    ∃ kept n, line = kept ++ replicate n ' ' ∧ k = ix + kept.length ∧
      trailingRun kept ix run = none

variable {ix k : ℕ} {run : Option ℕ}

variable {rest : List Char}

theorem Trailing.space
    (h : Trailing rest (ix + 1) k (some (run.getD ix))) : Trailing (' ' :: rest) ix k run := by
  rcases h with ⟨hrun, hrest⟩ | ⟨kept, n, hrest, hk, hkept⟩
  · have hline : ' ' :: rest = replicate (rest.length + 1) ' ' := by
      rw [replicate_succ, ← hrest]
    have hk := Option.some.inj hrun
    cases run with
    | none => exact Or.inr ⟨[], rest.length + 1, hline, hk.symm, rfl⟩
    | some start => exact Or.inl ⟨congrArg some hk, hline⟩
  · refine Or.inr ⟨' ' :: kept, n, by rw [hrest]; rfl, ?_, ?_⟩
    · rw [hk, length_cons]
      omega
    · rw [trailingRun_space, hkept]

theorem Trailing.skip {front : List Char} (hskip : ∀ rest, trailingRun (front ++ rest) ix run =
      trailingRun rest (ix + front.length) none)
    (h : Trailing rest (ix + front.length) k none) : Trailing (front ++ rest) ix k run := by
  rcases h with ⟨hrun, -⟩ | ⟨kept, n, hrest, hk, hkept⟩
  · cases hrun
  · refine Or.inr ⟨front ++ kept, n, by rw [hrest, append_assoc], ?_, ?_⟩
    · rw [hk, length_append, Nat.add_assoc]
    · rw [hskip, hkept]

variable {line : List Char}

theorem trailingRun_some (h : trailingRun line ix run = some k) : Trailing line ix k run := by
  fun_induction trailingRun line ix run with
  | case1 ix run => exact Or.inl ⟨h, rfl⟩
  | case2 ix run => exact Trailing.space (Or.inl ⟨h, rfl⟩)
  | case3 => cases h
  | case4 next rest ix run ih => exact Trailing.space (ih h)
  | case5 next rest ix run _ ih =>
    have hskip : ∀ rest, trailingRun (['\\', next] ++ rest) ix run =
        trailingRun rest (ix + ['\\', next].length) none := fun rest => rfl
    exact Trailing.skip hskip (ih h)
  | case6 c next rest ix run hspace hback ih =>
    have hskip : ∀ rest, trailingRun ([c] ++ rest) ix run =
        trailingRun rest (ix + [c].length) none := fun rest =>
      trailingRun_plain hspace hback rest ix run
    exact Trailing.skip hskip (ih h)

theorem trimTrailingSpaces_spec (line : List Char) :
    ∃ n, line = trimTrailingSpaces line ++ replicate n ' ' ∧
      trimTrailingSpaces (trimTrailingSpaces line) = trimTrailingSpaces line := by
  cases hrun : trailingRun line 0 none with
  | none =>
    have hsame : trimTrailingSpaces line = line := by rw [trimTrailingSpaces, hrun]
    exact ⟨0, by simp [hsame], by rw [hsame, hsame]⟩
  | some k =>
    rcases trailingRun_some hrun with ⟨hnone, -⟩ | ⟨kept, n, hline, hk, hkept⟩
    · cases hnone
    · have htrim : trimTrailingSpaces line = kept := by
        rw [trimTrailingSpaces, hrun, hk, hline]
        simp
      have hagain : trimTrailingSpaces kept = kept := by rw [trimTrailingSpaces, hkept]
      exact ⟨n, by rw [htrim]; exact hline, by rw [htrim, hagain]⟩

theorem trimTrailingSpaces_idem (line : List Char) :
    trimTrailingSpaces (trimTrailingSpaces line) = trimTrailingSpaces line := by
  obtain ⟨_, -, h⟩ := trimTrailingSpaces_spec line
  exact h

theorem mem_trimTrailingSpaces {c : Char} (hc : c ≠ ' ') :
    c ∈ trimTrailingSpaces line ↔ c ∈ line := by
  obtain ⟨n, h, -⟩ := trimTrailingSpaces_spec line
  conv_rhs => rw [h]
  simp [hc]

structure Appended (present patterns added : List (List Char)) : Prop where
  nodup : added.Nodup
  fresh : ∀ line ∈ added, line ∉ present
  chosen : ∀ line ∈ added, line ≠ [] ∧ ∃ pattern ∈ patterns, line = trimTrailingSpaces pattern
  covered : ∀ pattern ∈ patterns, trimTrailingSpaces pattern ≠ [] →
    trimTrailingSpaces pattern ∈ present ∨ trimTrailingSpaces pattern ∈ added

variable {present : List (List Char)}

variable {before added : List (List Char)} {pattern : List Char}

theorem Appended.skip
    (h : Appended present before added)
    (hskip : trimTrailingSpaces pattern ≠ [] → trimTrailingSpaces pattern ∈ present ∨
      trimTrailingSpaces pattern ∈ added) :
    Appended present (before ++ [pattern]) added where
  nodup := h.nodup
  fresh := h.fresh
  chosen line hline := by
    obtain ⟨hne, chosen, hmem, heq⟩ := h.chosen line hline
    exact ⟨hne, chosen, mem_append_left _ hmem, heq⟩
  covered other hother hne := by
    rcases mem_append.mp hother with hother | hother
    · exact h.covered other hother hne
    · obtain rfl := mem_singleton.mp hother
      exact hskip hne

theorem Appended.push
    (h : Appended present before added) (hne : trimTrailingSpaces pattern ≠ [])
    (hpresent : trimTrailingSpaces pattern ∉ present)
    (hadded : trimTrailingSpaces pattern ∉ added) :
    Appended present (before ++ [pattern]) (added ++ [trimTrailingSpaces pattern]) where
  nodup := nodup_append.mpr ⟨h.nodup, nodup_singleton _, fun line hline other hother he =>
    hadded (mem_singleton.mp hother ▸ he ▸ hline)⟩
  fresh line hline := by
    rcases mem_append.mp hline with hline | hline
    · exact h.fresh line hline
    · rwa [mem_singleton.mp hline]
  chosen line hline := by
    rcases mem_append.mp hline with hline | hline
    · obtain ⟨hne, chosen, hmem, heq⟩ := h.chosen line hline
      exact ⟨hne, chosen, mem_append_left _ hmem, heq⟩
    · rw [mem_singleton.mp hline]
      exact ⟨hne, pattern, by simp, rfl⟩
  covered other hother hother' := by
    rcases mem_append.mp hother with hother | hother
    · exact (h.covered other hother hother').imp_right (mem_append_left _)
    · obtain rfl := mem_singleton.mp hother
      exact Or.inr (by simp)

theorem toAppend_appended : ∀ {patterns before added},
    Appended present before added →
    Appended present (before ++ patterns) (toAppend present patterns added)
  | [], before, added, h => by rwa [append_nil]
  | pattern :: patterns, before, added, h => by
    have hsplit : before ++ pattern :: patterns = before ++ [pattern] ++ patterns := by simp
    rw [toAppend, hsplit]
    split
    · rename_i hblank
      exact toAppend_appended (h.skip fun hne => absurd hblank hne)
    rename_i hne
    split
    · rename_i hnew
      exact toAppend_appended (h.push hne hnew.1 hnew.2)
    · rename_i hold
      refine toAppend_appended (h.skip fun _ => ?_)
      by_cases hpresent : trimTrailingSpaces pattern ∈ present
      · exact Or.inl hpresent
      · exact Or.inr (Decidable.not_not.mp fun hadded => hold ⟨hpresent, hadded⟩)

theorem appended_all (present patterns : List (List Char)) :
    Appended present patterns (toAppend present patterns []) := by
  have hstart : Appended present [] [] := ⟨nodup_nil, by simp, by simp, by simp⟩
  exact toAppend_appended hstart

def Unbroken (line : List Char) : Prop := '\n' ∉ line ∧ '\r' ∉ line

theorem Unbroken.trim (h : Unbroken line) : Unbroken (trimTrailingSpaces line) :=
  ⟨fun hn => h.1 ((mem_trimTrailingSpaces (by decide)).mp hn),
    fun hr => h.2 ((mem_trimTrailingSpaces (by decide)).mp hr)⟩

section
variable {terminator : List Char} (hterminator : terminator = ['\r', '\n'] ∨ terminator = ['\n'])
include hterminator

theorem terminated_full (h : Unbroken line) : FullLine (line ++ terminator) := by
  rcases hterminator with rfl | rfl
  · exact ⟨line ++ ['\r'], by simp, by simp [h.1]⟩
  · exact ⟨line, rfl, h.1⟩

theorem terminated_read (h : '\r' ∉ line) : stripLineEnding (line ++ terminator) = line := by
  rcases hterminator with rfl | rfl
  · exact stripLineEnding_crlf line
  · exact stripLineEnding_full h

theorem splitLines_written {text : List Char} (htext : text = [] ∨ text.getLast? = some '\n')
    {lines : List (List Char)} (hlines : ∀ line ∈ lines, Unbroken line) :
    splitLines (text ++ (lines.map (· ++ terminator)).flatten) = splitLines text ++ lines := by
  have hfull : ∀ line ∈ splitInclusive text, FullLine line := by
    rcases htext with rfl | htext
    · simp [splitInclusive]
    · exact splitInclusive_full htext
  have hwritten : ∀ line ∈ lines.map (· ++ terminator), FullLine line := by
    intro line hline
    obtain ⟨line, hmem, rfl⟩ := mem_map.mp hline
    exact terminated_full hterminator (hlines line hmem)
  conv_lhs => rw [← splitInclusive_flatten text]
  rw [splitLines, splitInclusive_append hfull, splitInclusive_lines hwritten, map_append,
    map_map, splitLines]
  refine congrArg (_ ++ ·) ((map_congr_left fun line hline => ?_).trans (map_id lines))
  exact terminated_read hterminator (hlines line hline).2

end

theorem leadingTerminator_ends (existing : List Char) :
    existing ++ leadingTerminator existing = [] ∨
      (existing ++ leadingTerminator existing).getLast? = some '\n' := by
  unfold leadingTerminator
  split
  · refine Or.inr ?_
    rcases detectByDominantCounts_cases existing with h | h <;> rw [h] <;> simp
  · rename_i hdone
    rw [append_nil]
    by_cases hempty : existing = []
    · exact Or.inl hempty
    · exact Or.inr (Decidable.not_not.mp fun hlast => hdone ⟨hempty, hlast⟩)

theorem splitLines_led {existing : List Char} (hline : line ∈ splitLines existing)
    (hunbroken : '\r' ∉ line) : line ∈ splitLines (existing ++ leadingTerminator existing) := by
  unfold leadingTerminator
  split
  case isFalse => rwa [append_nil]
  rename_i hopen
  obtain ⟨lines, last, hsplit, htext, hlines, hne, hlast⟩ := splitInclusive_last hopen.1
  have hfree : '\n' ∉ last := by
    refine hlast.resolve_right fun hfull => hopen.2 ?_
    obtain ⟨body, rfl, -⟩ := hfull
    rw [htext]
    simp
  have hterminator := detectByDominantCounts_cases existing
  generalize detectByDominantCounts existing = terminator at hterminator
  have hled : FullLine (last ++ terminator) := by
    rcases hterminator with rfl | rfl
    · exact ⟨last ++ ['\r'], by simp, by simp [hfree]⟩
    · exact ⟨last, rfl, hfree⟩
  have hlines' : splitInclusive (existing ++ terminator) = lines ++ [last ++ terminator] := by
    have hall : ∀ line ∈ lines ++ [last ++ terminator], FullLine line := by
      intro line hline
      rcases mem_append.mp hline with hline | hline
      · exact hlines line hline
      · rwa [mem_singleton.mp hline]
    rw [← splitInclusive_lines hall, htext]
    simp
  rw [splitLines, hsplit, map_append] at hline
  rw [splitLines, hlines', map_append]
  rcases mem_append.mp hline with hline | hline
  · exact mem_append_left _ hline
  · have hsame : line = last := by simpa [stripLineEnding_free hfree] using hline
    refine mem_append_right _ (mem_singleton.mpr ?_)
    rw [terminated_read hterminator (hsame ▸ hunbroken), hsame]

theorem toAppend_none {patterns : List (List Char)}
    (h : ∀ pattern ∈ patterns, trimTrailingSpaces pattern ≠ [] →
      trimTrailingSpaces pattern ∈ present) : toAppend present patterns [] = [] := by
  have happended := appended_all present patterns
  cases hadded : toAppend present patterns [] with
  | nil => rfl
  | cons line rest =>
    have hline : line ∈ toAppend present patterns [] := hadded ▸ mem_cons_self
    obtain ⟨hne, pattern, hpattern, rfl⟩ := happended.chosen line hline
    exact absurd (h pattern hpattern hne) (happended.fresh _ hline)

theorem append_is_union {existing out : List Char} {patterns : List (List Char)}
    (hpatterns : ∀ pattern ∈ patterns, Unbroken pattern)
    (h : appendPatterns existing patterns = some out) :
    existing <+: out ∧ (∀ pattern ∈ patterns, trimTrailingSpaces pattern ≠ [] →
        ∃ line ∈ splitLines out, trimTrailingSpaces line = trimTrailingSpaces pattern) ∧
      (∃ added, splitLines out = splitLines (existing ++ leadingTerminator existing) ++ added ∧
        added.Nodup ∧ ∀ line ∈ added, line ∉ presentPatterns existing ∧
          line ≠ [] ∧ ∃ pattern ∈ patterns, line = trimTrailingSpaces pattern) ∧
      appendPatterns out patterns = none := by
  have happended := appended_all (presentPatterns existing) patterns
  unfold appendPatterns at h
  dsimp only at h
  split at h
  · cases h
  cases h
  have hterminator := detectByDominantCounts_cases existing
  generalize toAppend (presentPatterns existing) patterns [] = added at happended
  have hunbroken : ∀ line ∈ added, Unbroken line := by
    intro line hline
    obtain ⟨-, pattern, hpattern, rfl⟩ := happended.chosen line hline
    exact (hpatterns pattern hpattern).trim
  have hlines := splitLines_written hterminator (leadingTerminator_ends existing) hunbroken
  have hcovered : ∀ pattern ∈ patterns, trimTrailingSpaces pattern ≠ [] →
      trimTrailingSpaces pattern ∈ presentPatterns (existing ++ leadingTerminator existing ++
        (added.map (· ++ detectByDominantCounts existing)).flatten) := by
    intro pattern hpattern hne
    rw [presentPatterns, hlines, map_append]
    rcases happended.covered pattern hpattern hne with hpresent | hadded
    · obtain ⟨line, hline, heq⟩ := mem_map.mp hpresent
      have hreturn : '\r' ∉ line := by
        rw [← mem_trimTrailingSpaces (by decide), heq]
        exact (hpatterns pattern hpattern).trim.2
      rw [← heq]
      exact mem_append_left _ (mem_map_of_mem (splitLines_led hline hreturn))
    · rw [← trimTrailingSpaces_idem pattern]
      exact mem_append_right _ (mem_map_of_mem hadded)
  refine ⟨⟨_, (append_assoc ..).symm⟩, fun pattern hpattern hne => ?_,
    ⟨added, hlines, happended.nodup, fun line hline =>
      ⟨happended.fresh line hline, happended.chosen line hline⟩⟩, ?_⟩
  · obtain ⟨line, hline, heq⟩ := mem_map.mp (hcovered pattern hpattern hne)
    exact ⟨line, hline, heq⟩
  · exact if_pos (toAppend_none hcovered)

theorem append_to_unterminated_file :
    appendPatterns "/target\r\n/z".toList ["/z ".toList, "/b\\ ".toList] =
        some "/target\r\n/z\r\n/b\\ \r\n".toList ∧
      appendPatterns "/target\r\n/z\r\n/b\\ \r\n".toList ["/z ".toList, "/b\\ ".toList] = none := by
  have hpatterns : ∀ pattern ∈ ["/z ".toList, "/b\\ ".toList], Unbroken pattern :=
    forall_mem_cons.mpr ⟨⟨by decide, by decide⟩,
      forall_mem_singleton.mpr ⟨by decide, by decide⟩⟩
  have happend : appendPatterns "/target\r\n/z".toList ["/z ".toList, "/b\\ ".toList] =
      some "/target\r\n/z\r\n/b\\ \r\n".toList := by decide
  exact ⟨happend, (append_is_union hpatterns happend).2.2.2⟩

end GitComet.Ignore
