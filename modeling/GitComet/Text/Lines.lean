import Mathlib.Data.List.Basic
import Mathlib.Algebra.Ring.Nat

namespace GitComet.Text
open List

def usizeMax : ℕ := 18446744073709551615
def isizeMax : ℕ := 9223372036854775807
def u32Max : ℕ := 4294967295

def satAdd (a b : ℕ) : ℕ := min (a + b) usizeMax
def satMul (a b : ℕ) : ℕ := min (a * b) usizeMax

theorem satAdd_eq {a b : ℕ} (h : a + b ≤ usizeMax) : satAdd a b = a + b := Nat.min_eq_left h

-- A `str` never holds more than `isize::MAX` bytes, and no character takes less than one.
structure Str where
  chars : List Char
  bounded : chars.length ≤ isizeMax

instance lawfulText : LawfulBEq (List Char) := inferInstance

def splitInclusive : List Char → List (List Char)
  | [] => []
  | c :: cs =>
    if c = '\n' then [c] :: splitInclusive cs
    else match splitInclusive cs with
      | [] => [[c]]
      | line :: lines => (c :: line) :: lines

attribute [local simp] splitInclusive

def stripSuffix (suffix : Char) (line : List Char) : Option (List Char) :=
  if line.getLast? = some suffix then some line.dropLast else none

def stripLineEnding (line : List Char) : List Char :=
  match stripSuffix '\n' line with
  | none => line
  | some line => match stripSuffix '\r' line with
    | none => line
    | some line => line

def splitLines (text : List Char) : List (List Char) :=
  (splitInclusive text).map stripLineEnding

theorem splitInclusive_flatten (text : List Char) : (splitInclusive text).flatten = text := by
  induction text with
  | nil => rfl
  | cons c cs ih =>
    simp only [splitInclusive]
    split
    · simp [ih]
    · split
      · rename_i hnil
        rw [hnil] at ih
        simp [← ih]
      · rename_i line lines hcons
        rw [hcons] at ih
        simp [← ih]

theorem splitInclusive_ne_nil (text : List Char) : ∀ line ∈ splitInclusive text, line ≠ [] := by
  induction text with
  | nil => simp [splitInclusive]
  | cons c cs ih =>
    simp only [splitInclusive]
    split
    · intro line hline
      rcases mem_cons.mp hline with rfl | hline
      · simp
      · exact ih line hline
    · split
      · simp
      · rename_i line lines hcons
        intro l hl
        rcases mem_cons.mp hl with rfl | hl
        · simp
        · exact ih l (by rw [hcons]; exact mem_cons_of_mem _ hl)

def FullLine (line : List Char) : Prop := ∃ body, line = body ++ ['\n'] ∧ '\n' ∉ body

theorem splitInclusive_body {body : List Char} (h : '\n' ∉ body) :
    splitInclusive body = if body = [] then [] else [body] := by
  induction body with
  | nil => rfl
  | cons c body ih =>
    simp only [mem_cons, not_or] at h
    rw [splitInclusive, if_neg (Ne.symm h.1), ih h.2, if_neg (cons_ne_nil _ _)]
    cases body <;> simp

theorem splitInclusive_line {body : List Char} (h : '\n' ∉ body) (rest : List Char) :
    splitInclusive (body ++ ['\n'] ++ rest) = (body ++ ['\n']) :: splitInclusive rest := by
  induction body with
  | nil => simp [splitInclusive]
  | cons c body ih =>
    simp only [mem_cons, not_or] at h
    rw [cons_append, cons_append, splitInclusive, if_neg (Ne.symm h.1), ih h.2]

theorem splitInclusive_lines {lines : List (List Char)} (h : ∀ line ∈ lines, FullLine line) :
    splitInclusive lines.flatten = lines := by
  induction lines with
  | nil => rfl
  | cons line lines ih =>
    obtain ⟨body, rfl, hbody⟩ := h line mem_cons_self
    rw [flatten_cons, splitInclusive_line hbody, ih fun l hl => h l (mem_cons_of_mem _ hl)]

theorem splitInclusive_append {lines : List (List Char)} (h : ∀ line ∈ lines, FullLine line)
    (rest : List Char) : splitInclusive (lines.flatten ++ rest) = lines ++ splitInclusive rest := by
  induction lines with
  | nil => rfl
  | cons line lines ih =>
    obtain ⟨body, rfl, hbody⟩ := h line mem_cons_self
    rw [flatten_cons, append_assoc, splitInclusive_line hbody,
      ih fun l hl => h l (mem_cons_of_mem _ hl), cons_append]

def textOf (lines : List (List Char)) : List Char := lines.flatMap (· ++ ['\n'])

@[simp] theorem textOf_cons (line : List Char) (lines : List (List Char)) :
    textOf (line :: lines) = line ++ ['\n'] ++ textOf lines := flatMap_cons ..

@[simp] theorem textOf_append (front back : List (List Char)) :
    textOf (front ++ back) = textOf front ++ textOf back := flatMap_append ..

theorem textOf_eq_nil {lines : List (List Char)} : textOf lines = [] ↔ lines = [] := by
  cases lines with
  | nil => exact iff_of_true rfl rfl
  | cons line lines => simp

theorem splitInclusive_textOf {lines : List (List Char)} (h : ∀ line ∈ lines, '\n' ∉ line) :
    splitInclusive (textOf lines) = lines.map (· ++ ['\n']) := by
  rw [textOf, flatMap_def]
  refine splitInclusive_lines fun full hfull => ?_
  obtain ⟨line, hline, rfl⟩ := mem_map.mp hfull
  exact ⟨line, rfl, h line hline⟩

theorem textOf_inj {lines lines' : List (List Char)} (h : ∀ line ∈ lines, '\n' ∉ line)
    (h' : ∀ line ∈ lines', '\n' ∉ line) (heq : textOf lines = textOf lines') :
    lines = lines' := by
  have hsplit := splitInclusive_textOf h
  rw [heq, splitInclusive_textOf h'] at hsplit
  exact (map_injective_iff.mpr (append_left_injective ['\n']) hsplit).symm

theorem splitInclusive_cons {text line : List Char} {lines : List (List Char)}
    (h : splitInclusive text = line :: lines) :
    splitInclusive lines.flatten = lines ∧ (FullLine line ∨ lines = [] ∧ '\n' ∉ line) := by
  induction text generalizing line with
  | nil => cases h
  | cons c cs ih =>
    rw [splitInclusive] at h
    by_cases hc : c = '\n'
    · rw [if_pos hc] at h
      obtain ⟨rfl, rfl⟩ := cons.inj h
      exact ⟨by rw [splitInclusive_flatten], Or.inl ⟨[], by rw [hc]; rfl, by simp⟩⟩
    · rw [if_neg hc] at h
      cases hcs : splitInclusive cs with
      | nil =>
        rw [hcs] at h
        obtain ⟨rfl, rfl⟩ := cons.inj h
        exact ⟨rfl, Or.inr ⟨rfl, by simp [Ne.symm hc]⟩⟩
      | cons first rest =>
        rw [hcs] at h
        obtain ⟨rfl, rfl⟩ := cons.inj h
        obtain ⟨hrest, hfirst⟩ := ih hcs
        refine ⟨hrest, ?_⟩
        rcases hfirst with ⟨body, rfl, hbody⟩ | ⟨hnil, hfree⟩
        · exact Or.inl ⟨c :: body, rfl, by simp [Ne.symm hc, hbody]⟩
        · exact Or.inr ⟨hnil, by simp [Ne.symm hc, hfree]⟩

theorem splitInclusive_back {before : List (List Char)} : ∀ {text : List Char}
    {after : List (List Char)}, splitInclusive text = before ++ after →
    splitInclusive after.flatten = after := by
  induction before with
  | nil =>
    intro text after h
    rw [nil_append] at h
    rw [← h, splitInclusive_flatten]
  | cons line before ih => exact fun h => ih (splitInclusive_cons h).1

theorem splitInclusive_front {before : List (List Char)} : ∀ {text line : List Char}
    {after : List (List Char)}, splitInclusive text = before ++ line :: after →
    ∀ l ∈ before, FullLine l := by
  induction before with
  | nil => simp
  | cons first before ih =>
    intro text line after h l hl
    obtain ⟨hrest, hfirst⟩ := splitInclusive_cons h
    rcases mem_cons.mp hl with rfl | hl
    · rcases hfirst with hfull | ⟨hnil, -⟩
      · exact hfull
      · simp at hnil
    · exact ih hrest l hl

theorem splitInclusive_mem {text line : List Char} (h : line ∈ splitInclusive text) :
    '\n' ∉ line ∨ FullLine line := by
  obtain ⟨before, after, hsplit⟩ := append_of_mem h
  rcases (splitInclusive_cons (splitInclusive_back hsplit)).2 with hfull | ⟨-, hfree⟩
  · exact Or.inr hfull
  · exact Or.inl hfree

theorem stripSuffix_some {suffix : Char} {line body : List Char}
    (h : stripSuffix suffix line = some body) : line = body ++ [suffix] := by
  unfold stripSuffix at h
  split at h
  · rename_i hlast
    cases h
    exact (dropLast_append_getLast? suffix hlast).symm
  · cases h

theorem stripLineEnding_spec (line : List Char) :
    ∃ ending, line = stripLineEnding line ++ ending ∧
      (ending = [] ∧ line.getLast? ≠ some '\n' ∨ ending = ['\n'] ∨ ending = ['\r', '\n']) := by
  unfold stripLineEnding
  cases hnl : stripSuffix '\n' line with
  | none =>
    refine ⟨[], by simp, Or.inl ⟨rfl, fun hlast => ?_⟩⟩
    simp [stripSuffix, hlast] at hnl
  | some body =>
    have hbody := stripSuffix_some hnl
    cases hcr : stripSuffix '\r' body with
    | none => exact ⟨['\n'], by simpa [hcr] using hbody, Or.inr (Or.inl rfl)⟩
    | some inner =>
      rw [stripSuffix_some hcr] at hbody
      exact ⟨['\r', '\n'], by simpa [hcr] using hbody, Or.inr (Or.inr rfl)⟩

theorem stripLineEnding_free {line : List Char} (h : '\n' ∉ line) :
    stripLineEnding line = line := by
  have hstrip : stripSuffix '\n' line = none :=
    if_neg fun hlast => h (mem_of_getLast? hlast)
  rw [stripLineEnding, hstrip]

theorem stripLineEnding_full {body : List Char} (h : '\r' ∉ body) :
    stripLineEnding (body ++ ['\n']) = body := by
  have hn : stripSuffix '\n' (body ++ ['\n']) = some body := by simp [stripSuffix]
  have hr : stripSuffix '\r' body = none := if_neg fun hlast => h (mem_of_getLast? hlast)
  rw [stripLineEnding, hn]
  simp only [hr]

theorem stripLineEnding_crlf (body : List Char) :
    stripLineEnding (body ++ ['\r', '\n']) = body := by
  have hn : stripSuffix '\n' (body ++ ['\r', '\n']) = some (body ++ ['\r']) := by
    simp [stripSuffix]
  have hr : stripSuffix '\r' (body ++ ['\r']) = some body := by simp [stripSuffix]
  rw [stripLineEnding, hn]
  simp only [hr]

theorem splitInclusive_last {text : List Char} (h : text ≠ []) :
    ∃ lines last, splitInclusive text = lines ++ [last] ∧ text = lines.flatten ++ last ∧
      (∀ line ∈ lines, FullLine line) ∧ last ≠ [] ∧ ('\n' ∉ last ∨ FullLine last) := by
  have hsplit : splitInclusive text ≠ [] := by
    intro hnil
    rw [← splitInclusive_flatten text, hnil] at h
    exact h rfl
  obtain ⟨lines, last, hsplit⟩ := (eq_nil_or_concat' _).resolve_left hsplit
  have hlast : last ∈ splitInclusive text := by simp [hsplit]
  refine ⟨lines, last, hsplit, ?_, splitInclusive_front hsplit, splitInclusive_ne_nil text _ hlast,
    splitInclusive_mem hlast⟩
  rw [← splitInclusive_flatten text, hsplit]
  simp

theorem splitInclusive_full {text : List Char} (h : text.getLast? = some '\n') :
    ∀ line ∈ splitInclusive text, FullLine line := by
  have hne : text ≠ [] := fun he => by simp [he] at h
  obtain ⟨lines, last, hsplit, htext, hlines, hlast, hfull⟩ := splitInclusive_last hne
  rw [htext, getLast?_append_of_ne_nil _ hlast] at h
  intro line hline
  rw [hsplit] at hline
  rcases mem_append.mp hline with hline | hline
  · exact hlines line hline
  · rw [mem_singleton.mp hline]
    exact hfull.resolve_left fun hfree => hfree (mem_of_getLast? h)

theorem splitLines_unbroken (text : List Char) : ∀ line ∈ splitLines text, '\n' ∉ line := by
  intro line hline hmem
  obtain ⟨full, hfull, rfl⟩ := mem_map.mp hline
  obtain ⟨ending, heq, hending⟩ := stripLineEnding_spec full
  rcases splitInclusive_mem hfull with hfree | ⟨body, rfl, hbody⟩
  · rw [heq] at hfree
    exact hfree (mem_append_left _ hmem)
  · have hsub : stripLineEnding (body ++ ['\n']) ⊆ body := by
      rcases hending with ⟨-, hlast⟩ | rfl | rfl
      · simp at hlast
      · have hcut : body = stripLineEnding (body ++ ['\n']) := append_cancel_right heq
        exact hcut ▸ Subset.refl body
      · have hcut : body = stripLineEnding (body ++ ['\n']) ++ ['\r'] :=
          append_cancel_right (heq.trans (by simp))
        intro c hc
        rw [hcut]
        exact mem_append_left _ hc
    exact hbody (hsub hmem)

theorem splitLines_subset {text line : List Char} (h : line ∈ splitLines text) : line ⊆ text := by
  obtain ⟨full, hfull, rfl⟩ := mem_map.mp h
  obtain ⟨ending, heq, -⟩ := stripLineEnding_spec full
  intro c hc
  rw [← splitInclusive_flatten text]
  refine mem_flatten_of_mem hfull ?_
  rw [heq]
  exact mem_append_left _ hc

theorem length_le_of_flatten {α : Type} {parts : List (List α)} (h : ∀ part ∈ parts, part ≠ []) :
    parts.length ≤ parts.flatten.length := by
  induction parts with
  | nil => simp
  | cons part parts ih =>
    have hpos := length_pos_of_ne_nil (h part mem_cons_self)
    have := ih fun p hp => h p (mem_cons_of_mem _ hp)
    simp only [flatten_cons, length_append, length_cons]
    omega

theorem splitLines_length_le (text : List Char) : (splitLines text).length ≤ text.length := by
  have h := length_le_of_flatten (splitInclusive_ne_nil text)
  rw [splitInclusive_flatten] at h
  simpa [splitLines] using h

def Str.lines (text : Str) : List (List Char) := splitLines text.chars

theorem Str.lines_bounded (text : Str) : text.lines.length ≤ isizeMax :=
  Nat.le_trans (splitLines_length_le text.chars) text.bounded

abbrev Line := List Char

def isWhitespace (c : Char) : Bool :=
  let n := c.toNat
  (9 ≤ n && n ≤ 13) || n == 0x20 || n == 0x85 || n == 0xA0 || n == 0x1680 ||
    (0x2000 ≤ n && n ≤ 0x200A) || n == 0x2028 || n == 0x2029 || n == 0x202F || n == 0x205F ||
    n == 0x3000

def isBlank (line : Line) : Bool := line.all isWhitespace

def normalizedWithoutWhitespace (line : Line) : Line := line.filter fun c => !isWhitespace c

attribute [local simp] normalizedWithoutWhitespace

def equalIgnoringWhitespace (left right : Line) : Bool :=
  decide (left = right) ||
    decide (normalizedWithoutWhitespace left = normalizedWithoutWhitespace right)

theorem equalIgnoringWhitespace_iff {left right : Line} :
    equalIgnoringWhitespace left right ↔
      normalizedWithoutWhitespace left = normalizedWithoutWhitespace right := by
  unfold equalIgnoringWhitespace
  rw [Bool.or_eq_true, decide_eq_true_iff, decide_eq_true_iff]
  exact ⟨fun h => h.elim (fun he => by rw [he]) id, Or.inr⟩

def endsWithNewline (text : List Char) : Bool := decide (text.getLast? = some '\n')

end GitComet.Text

namespace GitComet.Text

def byteLen (text : List Char) : ℕ := (text.map Char.utf8Size).sum

def splitAtByte : ℕ → List Char → Option (List Char × List Char)
  | 0, text => some ([], text)
  | _ + 1, [] => none
  | n + 1, c :: text =>
    if c.utf8Size ≤ n + 1 then
      (splitAtByte (n + 1 - c.utf8Size) text).map fun parts => (c :: parts.1, parts.2)
    else none

def byteSlice (text : List Char) (start stop : ℕ) : Option (List Char) :=
  if start ≤ stop then do
    let tail ← splitAtByte start text
    let middle ← splitAtByte (stop - start) tail.2
    some middle.1
  else none

@[simp] theorem byteLen_nil : byteLen [] = 0 := rfl

@[simp] theorem byteLen_cons (c : Char) (text : List Char) :
    byteLen (c :: text) = c.utf8Size + byteLen text := by
  simp [byteLen]

@[simp] theorem byteLen_append (xs ys : List Char) :
    byteLen (xs ++ ys) = byteLen xs + byteLen ys := by
  simp [byteLen]

theorem byteLen_eq_zero {text : List Char} : byteLen text = 0 ↔ text = [] := by
  cases text with
  | nil => simp
  | cons c text =>
    have := c.utf8Size_pos
    simp only [byteLen_cons, reduceCtorEq, iff_false]
    omega

theorem byteLen_pos {text : List Char} : 0 < byteLen text ↔ text ≠ [] := by
  rw [Nat.pos_iff_ne_zero, ne_eq, byteLen_eq_zero]

@[simp] theorem splitAtByte_zero (text : List Char) : splitAtByte 0 text = some ([], text) := by
  cases text <;> rfl

theorem splitAtByte_cons (c : Char) (n : ℕ) (text : List Char) :
    splitAtByte (c.utf8Size + n) (c :: text) =
      (splitAtByte n text).map fun parts => (c :: parts.1, parts.2) := by
  obtain ⟨k, hk⟩ := Nat.exists_eq_succ_of_ne_zero (Nat.pos_iff_ne_zero.mp c.utf8Size_pos)
  have hsum : c.utf8Size + n = (k + n) + 1 := by omega
  rw [hsum, splitAtByte, if_pos (by omega)]
  congr 2
  omega

theorem splitAtByte_append (pre post : List Char) :
    splitAtByte (byteLen pre) (pre ++ post) = some (pre, post) := by
  induction pre with
  | nil => simp
  | cons c pre ih => rw [byteLen_cons, List.cons_append, splitAtByte_cons, ih, Option.map_some]

theorem byteSlice_middle (pre middle post : List Char) :
    byteSlice (pre ++ (middle ++ post)) (byteLen pre) (byteLen pre + byteLen middle) =
      some middle := by
  rw [byteSlice, if_pos (Nat.le_add_right _ _), splitAtByte_append]
  simp only [Option.bind_eq_bind, Option.bind_some, Nat.add_sub_cancel_left, splitAtByte_append]

theorem byteSlice_of {t p m o : List Char} {start stop : ℕ}
    (h : t = p ++ (m ++ o)) (hstart : start = byteLen p)
    (hstop : stop = byteLen p + byteLen m) : byteSlice t start stop = some m := by
  rw [h, hstart, hstop]
  exact byteSlice_middle p m o

end GitComet.Text
