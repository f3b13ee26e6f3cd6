import Mathlib.Data.List.DropRight
import GitComet.Basis.SplitRows

namespace GitComet.Ignore
open List

abbrev OsStr := List (Char ⊕ UInt8)

def toStr : OsStr → Option (List Char)
  | [] => some []
  | .inl c :: name => (toStr name).map (c :: ·)
  | .inr _ :: _ => none

inductive Component where
  | rootDir
  | curDir
  | parentDir
  | normal (part : OsStr)

def slash : Char ⊕ UInt8 := .inl '/'

def dot : OsStr := [.inl '.']

def component (part : OsStr) : Option Component :=
  if part = [] ∨ part = dot then none
  else if part = dot ++ dot then some .parentDir
  else some (.normal part)

def components (path : OsStr) : List Component :=
  let parts := path.splitOn slash
  let front :=
    if path.head? = some slash then [.rootDir]
    else if parts.head? = some dot then [.curDir]
    else []
  front ++ parts.filterMap component

def collectSegments : List Component → List (List Char) → Option (List (List Char))
  | [], segments => some segments
  | .curDir :: rest, segments => collectSegments rest segments
  | .normal part :: rest, segments => do
    let part ← toStr part
    if '\n' ∈ part ∨ '\r' ∈ part then none else collectSegments rest (segments ++ [part])
  | .parentDir :: _, _ => none
  | .rootDir :: _, _ => none

def relativeSegments (path : OsStr) : Option (List (List Char)) := do
  let segments ← collectSegments (components path) []
  if segments.isEmpty then none else some segments

def isSpecial (c : Char) : Bool := "\\*?[]".toList.contains c

def escapeChar (c : Char) : List Char := if isSpecial c then ['\\', c] else [c]

attribute [local simp] escapeChar

def escapeLiteral (text : List Char) : List Char :=
  if !text.any isSpecial then text else text.flatMap escapeChar

def anchored (segments : List (List Char)) : List Char :=
  segments.flatMap fun segment => '/' :: escapeLiteral segment

attribute [local simp] anchored

def escapeTrailingSpaces (pattern : List Char) : List Char :=
  let kept := pattern.rdropWhile (· = ' ')
  if kept.length = pattern.length then pattern
  else kept ++ (replicate (pattern.length - kept.length) ['\\', ' ']).flatten

def extensionOf (fileName : List Char) : Option (List Char) :=
  let after := fileName.rtakeWhile (· ≠ '.')
  let before := fileName.rdropWhile (· ≠ '.')
  if before.dropLast = [] then none
  else if after = [] then none
  else some after

inductive GitignoreScope where
  | file
  | folder
  | extension
  deriving DecidableEq

def patternFor (path : OsStr) (scope : GitignoreScope) : Option (List Char) := do
  let segments ← relativeSegments path
  match scope with
  | .file => some (escapeTrailingSpaces (anchored segments))
  | .folder =>
    let parent := segments.dropLast
    if parent.isEmpty then none else some (anchored parent ++ ['/'])
  | .extension => do
    let extension ← extensionOf (segments.getLastD [])
    some (escapeTrailingSpaces ("*.".toList ++ escapeLiteral extension))

def trailingRun : List Char → ℕ → Option ℕ → Option ℕ
  | [], _, run => run
  | [c], ix, run => if c = ' ' then some (run.getD ix) else none
  | c :: next :: rest, ix, run =>
    if c = ' ' then trailingRun (next :: rest) (ix + 1) (some (run.getD ix))
    else if c = '\\' then trailingRun rest (ix + 2) none
    else trailingRun (next :: rest) (ix + 1) none

attribute [local simp] trailingRun

def trimTrailingSpaces (line : List Char) : List Char :=
  match trailingRun line 0 none with
  | none => line
  | some ix => line.take ix

def unescape : List Char → Option (List Char)
  | [] => some []
  | [c] => if c = '\\' ∨ c ∈ "*?[".toList then none else some [c]
  | c :: next :: rest =>
    if c = '\\' then (unescape rest).map (next :: ·)
    else if c ∈ "*?[".toList then none
    else (unescape (next :: rest)).map (c :: ·)

attribute [local simp] unescape

def joined (segments : List (List Char)) : List Char := ['/'].intercalate segments

variable {c : Char}

theorem isSpecial_iff : isSpecial c ↔ c = '\\' ∨ c ∈ "*?[".toList ∨ c = ']' := by
  simp [isSpecial, or_assoc]

theorem escapeLiteral_eq (text : List Char) : escapeLiteral text = text.flatMap escapeChar := by
  unfold escapeLiteral
  split
  · rename_i hplain
    induction text with
    | nil => rfl
    | cons c text ih =>
      simp only [any_cons, Bool.not_or, Bool.and_eq_true, Bool.not_eq_true'] at hplain
      rw [flatMap_cons, ← ih (by simpa using hplain.2), escapeChar, hplain.1]
      rfl
  · rfl

theorem anchored_eq : ∀ {segments : List (List Char)}, segments ≠ [] →
    anchored segments = ('/' :: joined segments).flatMap escapeChar
  | [segment], _ => by
    simp [anchored, joined, escapeLiteral_eq, escapeChar, isSpecial]
  | segment :: next :: rest, _ => by
    have ih := anchored_eq (cons_ne_nil next rest)
    simp only [anchored, flatMap_cons, escapeLiteral_eq, joined] at ih ⊢
    rw [ih]
    simp [escapeChar, isSpecial]

theorem joined_inj {left right : List (List Char)} (hleft : left ≠ []) (hright : right ≠ [])
    (hl : ∀ segment ∈ left, '/' ∉ segment) (hr : ∀ segment ∈ right, '/' ∉ segment)
    (h : joined left = joined right) : left = right := by
  rw [← splitOn_intercalate '/' hl hleft, ← splitOn_intercalate '/' hr hright]
  exact congrArg (List.splitOn '/') h

theorem unescape_plain (h : isSpecial c = false) (rest : List Char) :
    unescape (c :: rest) = (unescape rest).map (c :: ·) := by
  have hspecial := mt isSpecial_iff.mpr (Bool.eq_false_iff.mp h)
  have hback : c ≠ '\\' := fun he => hspecial (Or.inl he)
  have hwild : c ∉ "*?[".toList := fun hc => hspecial (Or.inr (Or.inl hc))
  cases rest with
  | nil => exact if_neg (not_or.mpr ⟨hback, hwild⟩)
  | cons next rest => rw [unescape, if_neg hback, if_neg hwild]

theorem unescape_escaped (text rest : List Char) :
    unescape (text.flatMap escapeChar ++ rest) = (unescape rest).map (text ++ ·) := by
  induction text with
  | nil => simp
  | cons c text ih =>
    rw [flatMap_cons, append_assoc, escapeChar]
    by_cases hc : isSpecial c
    · rw [if_pos hc, cons_append, cons_append, nil_append, unescape, if_pos rfl, ih, Option.map_map]
      rfl
    · rw [if_neg hc, cons_append, nil_append,
        unescape_plain (Bool.eq_false_iff.mpr hc), ih, Option.map_map]
      rfl

theorem unescape_spaces (n : ℕ) :
    unescape (replicate n ['\\', ' ']).flatten = some (replicate n ' ') := by
  induction n with
  | zero => rfl
  | succ n ih => simp [replicate_succ, unescape, ih]

theorem trailingRun_space (rest : List Char) (ix : ℕ) (run : Option ℕ) :
    trailingRun (' ' :: rest) ix run = trailingRun rest (ix + 1) (some (run.getD ix)) := by
  cases rest <;> simp [trailingRun]

theorem trailingRun_plain (hspace : c ≠ ' ') (hback : c ≠ '\\') (rest : List Char)
    (ix : ℕ) (run : Option ℕ) :
    trailingRun (c :: rest) ix run = trailingRun rest (ix + 1) none := by
  cases rest <;> simp [trailingRun, hspace, hback]

theorem trailingRun_char (c : Char) (rest : List Char) (ix : ℕ) (run : Option ℕ) :
    trailingRun (escapeChar c ++ rest) ix run = trailingRun rest (ix + (escapeChar c).length)
      (if c = ' ' then some (run.getD ix) else none) := by
  unfold escapeChar
  by_cases hc : isSpecial c
  · have hspace : c ≠ ' ' := fun he => absurd (he ▸ hc) (by decide)
    rw [if_pos hc, if_neg hspace]
    simp [trailingRun]
  · have hback : c ≠ '\\' := fun he => hc (he ▸ by decide)
    rw [if_neg hc]
    by_cases hspace : c = ' '
    · rw [if_pos hspace, hspace]
      exact trailingRun_space rest ix run
    · rw [if_neg hspace]
      exact trailingRun_plain hspace hback rest ix run

theorem trailingRun_escaped (text rest : List Char) (ix : ℕ) (run : Option ℕ) :
    ∃ stop last, trailingRun (text.flatMap escapeChar ++ rest) ix run = trailingRun rest stop last ∧
      (∀ c ∈ text.getLast?, c ≠ ' ' → last = none) := by
  induction text generalizing ix run with
  | nil => exact ⟨ix, run, rfl, by simp⟩
  | cons c text ih =>
    rw [flatMap_cons, append_assoc, trailingRun_char]
    obtain ⟨stop, last, hrun, hlast⟩ := ih (ix + (escapeChar c).length)
      (if c = ' ' then some (run.getD ix) else none)
    cases text with
    | nil =>
      refine ⟨_, _, rfl, fun d hd hspace => ?_⟩
      rw [getLast?_singleton, Option.mem_some] at hd
      rw [hd, if_neg hspace]
    | cons next text =>
      refine ⟨stop, last, hrun, fun d hd => hlast d ?_⟩
      rwa [getLast?_cons_cons] at hd

theorem trailingRun_spaces (n ix : ℕ) :
    trailingRun (replicate n ['\\', ' ']).flatten ix none = none := by
  induction n generalizing ix with
  | zero => rfl
  | succ n ih => simp [replicate_succ, trailingRun, ih]

theorem escaped_getLast (text : List Char) :
    (text.flatMap escapeChar).getLast? = text.getLast? := by
  induction text using reverseRecOn with
  | nil => rfl
  | append_singleton text c =>
    rw [flatMap_append, flatMap_singleton, getLast?_concat, escapeChar]
    split
    · exact getLast?_eq_some_iff.mpr ⟨text.flatMap escapeChar ++ ['\\'], by simp⟩
    · exact getLast?_concat

theorem trailing_spaces (text : List Char) :
    ∃ body n, text = body ++ replicate n ' ' ∧ body.getLast? ≠ some ' ' := by
  refine ⟨text.rdropWhile (· = ' '), (text.rtakeWhile (· = ' ')).length, ?_, fun hlast => ?_⟩
  · have hspaces : text.rtakeWhile (· = ' ') =
        replicate (text.rtakeWhile (· = ' ')).length ' ' :=
      eq_replicate_of_mem fun c hc => by simpa using mem_rtakeWhile_imp hc
    rw [← hspaces, rdropWhile_append_rtakeWhile]
  · have hne : text.rdropWhile (· = ' ') ≠ [] := fun he => by simp [he] at hlast
    refine rdropWhile_last_not (· = ' ') text hne ?_
    rw [getLast?_eq_some_getLast hne] at hlast
    simpa using hlast

variable {body : List Char}

theorem rdropWhile_spaces (h : body.getLast? ≠ some ' ') (n : ℕ) :
    (body ++ replicate n ' ').rdropWhile (· = ' ') = body := by
  induction n with
  | zero =>
    rw [replicate_zero, append_nil, rdropWhile_eq_self_iff]
    intro hne hlast
    rw [getLast?_eq_some_getLast hne] at h
    exact h (congrArg some (by simpa using hlast))
  | succ n ih =>
    rw [replicate_succ', ← append_assoc, rdropWhile_concat_pos _ _ _ (by simp), ih]

theorem escapeTrailingSpaces_eq (h : body.getLast? ≠ some ' ') (n : ℕ) :
    escapeTrailingSpaces ((body ++ replicate n ' ').flatMap escapeChar) =
      body.flatMap escapeChar ++ (replicate n ['\\', ' ']).flatten := by
  have hspaces : (replicate n ' ').flatMap escapeChar = replicate n ' ' := by
    simp [flatMap_replicate, escapeChar, isSpecial]
  have hlast : (body.flatMap escapeChar).getLast? ≠ some ' ' := escaped_getLast body ▸ h
  rw [flatMap_append, hspaces, escapeTrailingSpaces, rdropWhile_spaces hlast]
  cases n with
  | zero => simp
  | succ n => simp

theorem trimTrailingSpaces_spaces (h : body.getLast? ≠ some ' ') (n : ℕ) :
    trimTrailingSpaces (body.flatMap escapeChar ++ (replicate n ['\\', ' ']).flatten) =
      body.flatMap escapeChar ++ (replicate n ['\\', ' ']).flatten := by
  have hrun : trailingRun
      (body.flatMap escapeChar ++ (replicate n ['\\', ' ']).flatten) 0 none = none := by
    obtain ⟨stop, last, hrun, hlast⟩ :=
      trailingRun_escaped body (replicate n ['\\', ' ']).flatten 0 none
    cases hbody : body.getLast? with
    | none =>
      rw [getLast?_eq_none_iff.mp hbody]
      exact trailingRun_spaces n 0
    | some c =>
      rw [hrun, hlast c hbody fun he => h (he ▸ hbody)]
      exact trailingRun_spaces n stop
  rw [trimTrailingSpaces, hrun]

structure Denotes (pattern text : List Char) : Prop where
  kept : trimTrailingSpaces pattern = pattern
  read : unescape pattern = some text
  anchored : pattern.head? = some '/'

theorem escaped_denotes (text : List Char) :
    Denotes (escapeTrailingSpaces (('/' :: text).flatMap escapeChar)) ('/' :: text) := by
  obtain ⟨body, n, htext, hlast⟩ := trailing_spaces ('/' :: text)
  rw [htext, escapeTrailingSpaces_eq hlast]
  refine ⟨trimTrailingSpaces_spaces hlast n, ?_, ?_⟩
  · rw [unescape_escaped, unescape_spaces]
    rfl
  · cases body with
    | nil =>
      cases n with
      | zero => cases htext
      | succ n => simp [replicate_succ] at htext
    | cons c body =>
      obtain ⟨rfl, -⟩ := cons.inj htext
      simp [escapeChar, isSpecial]

theorem folder_denotes (text : List Char) :
    Denotes (('/' :: text).flatMap escapeChar ++ ['/']) ('/' :: text ++ ['/']) := by
  have hslash : ('/' :: text).flatMap escapeChar ++ ['/'] =
      ('/' :: text ++ ['/']).flatMap escapeChar := by
    simp [escapeChar, isSpecial]
  rw [hslash]
  have hlast : ('/' :: text ++ ['/']).getLast? ≠ some ' ' := by
    rw [getLast?_concat]
    decide
  have hden := escaped_denotes (text ++ ['/'])
  have heq := escapeTrailingSpaces_eq hlast 0
  simp only [replicate_zero, append_nil, flatten_nil] at heq
  rwa [← cons_append, heq] at hden

def toOs (text : List Char) : OsStr := text.map Sum.inl

attribute [local simp] toOs

def namedParts (path : OsStr) : List OsStr :=
  (path.splitOn slash).filter fun part => part ≠ [] ∧ part ≠ dot

def Plain (path : OsStr) : Prop := ∀ part ∈ path.splitOn slash, part ≠ [] ∧ part ≠ dot

theorem toStr_some : ∀ {name : OsStr} {text : List Char}, toStr name = some text → name = toOs text
  | [], _, h => by
    cases h
    rfl
  | .inl c :: name, _, h => by
    obtain ⟨text, htext, rfl⟩ := Option.map_eq_some_iff.mp h
    rw [toStr_some htext]
    rfl
  | .inr _ :: _, _, h => nomatch h

variable {segments : List (List Char)}

theorem collectSegments_parts {parts : List OsStr} {out : List (List Char)}
    (h : collectSegments (parts.filterMap component) segments = some out) :
    out.map toOs = segments.map toOs ++ parts.filter fun part => part ≠ [] ∧ part ≠ dot := by
  induction parts generalizing segments with
  | nil =>
    cases h
    simp
  | cons part parts ih =>
    by_cases hskip : part = [] ∨ part = dot
    · have hnone : component part = none := if_pos hskip
      rw [filterMap_cons_none hnone] at h
      rw [filter_cons_of_neg (by simpa [or_iff_not_imp_left] using hskip), ih h]
    by_cases hparent : part = dot ++ dot
    · have hup : component part = some .parentDir := (if_neg hskip).trans (if_pos hparent)
      rw [filterMap_cons_some hup] at h
      cases h
    have hnormal : component part = some (.normal part) := (if_neg hskip).trans (if_neg hparent)
    rw [filterMap_cons_some hnormal] at h
    obtain ⟨text, htext, hrest⟩ := Option.bind_eq_some_iff.mp h
    split at hrest
    · cases hrest
    · rw [ih hrest, filter_cons_of_pos (by simpa using hskip), map_append,
        toStr_some htext]
      simp

instance lawfulPiece : LawfulBEq (Char ⊕ UInt8) where
  eq_of_beq {left right} h := by
    cases left with
    | inl c => cases right with
      | inl d => exact congrArg Sum.inl (eq_of_beq (show (c == d) = true from h))
      | inr b => cases h
    | inr b => cases right with
      | inl d => cases h
      | inr d => exact congrArg Sum.inr (eq_of_beq (show (b == d) = true from h))
  rfl {name} := by
    cases name with
    | inl c => exact BEq.refl c
    | inr b => exact BEq.refl b

variable {path : OsStr}

theorem relativeSegments_parts (h : relativeSegments path = some segments) :
    segments ≠ [] ∧ segments.map toOs = namedParts path := by
  obtain ⟨out, hout, hsome⟩ := Option.bind_eq_some_iff.mp h
  split at hsome
  · cases hsome
  rename_i hne
  cases hsome
  refine ⟨fun he => hne (he ▸ rfl), ?_⟩
  unfold components at hout
  dsimp only at hout
  split at hout
  · cases hout
  · split at hout
    · exact collectSegments_parts hout
    · exact collectSegments_parts hout

theorem segments_free
    (h : segments.map toOs = namedParts path) : ∀ segment ∈ segments, '/' ∉ segment := by
  intro segment hsegment hslash
  have hpart : toOs segment ∈ namedParts path := h ▸ mem_map_of_mem hsegment
  exact SplitRows.not_mem_splitOn path _ (mem_of_mem_filter hpart) (mem_map_of_mem hslash)

theorem toOs_joined : ∀ segments : List (List Char),
    toOs (joined segments) = [slash].intercalate (segments.map toOs)
  | [] => rfl
  | [segment] => by simp [joined]
  | segment :: next :: rest => by
    have ih := toOs_joined (next :: rest)
    simp only [joined, toOs, map_cons, intercalate_cons_cons, map_append] at ih ⊢
    rw [ih]
    rfl

theorem Plain.parts (h : Plain path) : namedParts path = path.splitOn slash :=
  filter_eq_self.mpr fun part hpart => decide_eq_true (h part hpart)

theorem Plain.text (hplain : Plain path)
    (h : segments.map toOs = namedParts path) : path = toOs (joined segments) := by
  rw [toOs_joined, h, hplain.parts, intercalate_splitOn]

variable {pattern : List Char}

theorem file_denotes (h : patternFor path .file = some pattern) :
    ∃ segments, segments ≠ [] ∧ segments.map toOs = namedParts path ∧
      Denotes pattern ('/' :: joined segments) := by
  obtain ⟨segments, hsegments, hpattern⟩ := Option.bind_eq_some_iff.mp h
  obtain ⟨hne, hparts⟩ := relativeSegments_parts hsegments
  cases hpattern
  rw [anchored_eq hne]
  exact ⟨segments, hne, hparts, escaped_denotes _⟩

theorem parent_denotes (h : patternFor path .folder = some pattern) :
    ∃ parent name, parent ≠ [] ∧ (parent ++ [name]).map toOs = namedParts path ∧
      Denotes pattern ('/' :: joined parent ++ ['/']) := by
  obtain ⟨segments, hsegments, hpattern⟩ := Option.bind_eq_some_iff.mp h
  obtain ⟨hne, hparts⟩ := relativeSegments_parts hsegments
  dsimp only at hpattern
  split at hpattern
  · cases hpattern
  rename_i hparent
  have hparent : segments.dropLast ≠ [] := fun he => hparent (he ▸ rfl)
  cases hpattern
  refine ⟨segments.dropLast, segments.getLast hne, hparent, ?_, ?_⟩
  · rw [dropLast_append_getLast hne, hparts]
  · rw [anchored_eq hparent]
    exact folder_denotes _

theorem joined_concat {parent : List (List Char)} (h : parent ≠ []) (name : List Char) :
    joined (parent ++ [name]) = joined parent ++ '/' :: name := by
  induction parent with
  | nil => exact absurd rfl h
  | cons first rest ih =>
    cases rest with
    | nil => simp [joined]
    | cons next rest =>
      have ih := ih (cons_ne_nil next rest)
      simp only [joined, cons_append, intercalate_cons_cons] at ih ⊢
      rw [ih]
      simp

theorem denotes_inj {left right : List Char} (hl : Denotes pattern left)
    (hr : Denotes pattern right) : left = right :=
  Option.some.inj (hl.read.symm.trans hr.read)

theorem patterns_denote_path (path : OsStr) (pattern : List Char) :
    (patternFor path .file = some pattern → ∃ segments, segments.map toOs = namedParts path ∧
        Denotes pattern ('/' :: joined segments) ∧ (Plain path → toOs (joined segments) = path) ∧
        ∀ other, patternFor other .file = some pattern → namedParts other = namedParts path ∧
          (Plain path → Plain other → other = path)) ∧ (patternFor path .folder = some pattern →
        ∃ parent name, (parent ++ [name]).map toOs = namedParts path ∧
          Denotes pattern ('/' :: joined parent ++ ['/']) ∧
          (Plain path → toOs (joined parent ++ '/' :: name) = path) ∧
          ∀ other, patternFor other .folder = some pattern →
            (namedParts other).dropLast = (namedParts path).dropLast) := by
  refine ⟨fun hfile => ?_, fun hfolder => ?_⟩
  · obtain ⟨segments, hne, hparts, hdenotes⟩ := file_denotes hfile
    refine ⟨segments, hparts, hdenotes, fun hplain => (hplain.text hparts).symm,
      fun other hother => ?_⟩
    obtain ⟨segments', hne', hparts', hdenotes'⟩ := file_denotes hother
    have hsame : segments' = segments :=
      joined_inj hne' hne (segments_free hparts') (segments_free hparts)
        (cons.inj (denotes_inj hdenotes' hdenotes)).2
    rw [hsame] at hparts'
    refine ⟨hparts'.symm.trans hparts, fun hplain hplain' => ?_⟩
    rw [hplain'.text hparts', hplain.text hparts]
  · obtain ⟨parent, name, hne, hparts, hdenotes⟩ := parent_denotes hfolder
    refine ⟨parent, name, hparts, hdenotes, fun hplain => ?_, fun other hother => ?_⟩
    · rw [hplain.text hparts, joined_concat hne]
    · obtain ⟨parent', name', hne', hparts', hdenotes'⟩ := parent_denotes hother
      have htext := append_cancel_right (denotes_inj hdenotes' hdenotes)
      have hsame : parent' = parent :=
        joined_inj hne' hne
          (fun s hs => segments_free hparts' s (mem_append_left _ hs))
          (fun s hs => segments_free hparts s (mem_append_left _ hs))
          (cons.inj htext).2
      rw [← hparts', ← hparts, hsame]
      simp

theorem pattern_of_spaced_path :
    ∃ segments, segments.map toOs = namedParts (toOs "a[ ]/b  ".toList) ∧
      Denotes "/a\\[ \\]/b\\ \\ ".toList ('/' :: joined segments) := by
  have hfile : patternFor (toOs "a[ ]/b  ".toList) .file =
      some "/a\\[ \\]/b\\ \\ ".toList := by decide
  obtain ⟨segments, hparts, hdenotes, -⟩ := (patterns_denote_path _ _).1 hfile
  exact ⟨segments, hparts, hdenotes⟩

theorem current_directory_is_dropped :
    ∃ pattern, patternFor (toOs "./a".toList) .file = some pattern ∧
      patternFor (toOs "a".toList) .file = some pattern ∧
      unescape pattern ≠ some ('/' :: "./a".toList) :=
  ⟨"/a".toList, by decide, by decide, by decide⟩

end GitComet.Ignore
