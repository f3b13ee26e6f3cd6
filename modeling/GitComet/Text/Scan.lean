import GitComet.Text.Lines
import Mathlib.Data.List.DropRight

namespace GitComet.Text
open List

def startsWith (text mark : List Char) : Bool := mark.isPrefixOf text

def stripPrefix (mark text : List Char) : Option (List Char) :=
  if startsWith text mark then some (text.drop mark.length) else none

def trimStart (text : List Char) : List Char := text.dropWhile isWhitespace
def trimEnd (text : List Char) : List Char := text.rdropWhile isWhitespace
def trim (text : List Char) : List Char := trimEnd (trimStart text)

def beforeFirst (mark : List Char) : List Char → List Char
  | [] => []
  | c :: text => if startsWith (c :: text) mark then [] else c :: beforeFirst mark text

def wordsBy (sep : Char → Bool) (text : List Char) : List (List Char) :=
  (text.splitOnP sep).filter fun word => !word.isEmpty

def splitWhitespace (text : List Char) : List (List Char) := wordsBy isWhitespace text

def nextWord (text : List Char) : Option (List Char × List Char) :=
  match trimStart text with
  | [] => none
  | c :: text =>
    let word := (c :: text).takeWhile fun c => !isWhitespace c
    some (word, (c :: text).drop word.length)

def unsigned : List Char → List Char
  | '+' :: digits => digits
  | digits => digits

def parseU32 (text : List Char) : Option UInt32 :=
  let digits := unsigned text
  if digits = [] ∨ ¬ digits.all Char.isDigit then none
  else
    let value := Nat.ofDigitChars 10 digits 0
    if value ≤ u32Max then some (UInt32.ofNat value) else none

variable {text : List Char}

theorem startsWith_iff {mark : List Char} :
    startsWith text mark ↔ ∃ rest, text = mark ++ rest := by
  rw [startsWith, isPrefixOf_iff_prefix]
  exact ⟨fun ⟨rest, h⟩ => ⟨rest, h.symm⟩, fun ⟨rest, h⟩ => ⟨rest, h.symm⟩⟩

theorem startsWith_append (mark rest : List Char) : startsWith (mark ++ rest) mark :=
  startsWith_iff.mpr ⟨rest, rfl⟩

theorem stripPrefix_append (mark rest : List Char) :
    stripPrefix mark (mark ++ rest) = some rest := by
  rw [stripPrefix, if_pos (startsWith_append mark rest), drop_left]

theorem trimStart_space (text : List Char) : trimStart (' ' :: text) = trimStart text := rfl

variable {c : Char}

theorem trimStart_solid (h : isWhitespace c = false) (text : List Char) :
    trimStart (c :: text) = c :: text := by
  rw [trimStart, dropWhile_cons_of_neg (by simp [h])]

theorem trimEnd_space (text : List Char) : trimEnd (text ++ [' ']) = trimEnd text :=
  rdropWhile_concat_pos _ _ _ rfl

theorem trimEnd_solid (h : isWhitespace c = false) (text : List Char) :
    trimEnd (text ++ [c]) = text ++ [c] :=
  rdropWhile_concat_neg _ _ _ (by simp [h])

theorem trim_solid (hc : c ∈ text) (h : isWhitespace c = false) : trim text ≠ [] := by
  rw [trim, trimEnd, ne_eq, rdropWhile_eq_nil_iff]
  intro hall
  rw [← takeWhile_append_dropWhile (p := isWhitespace) (l := text), mem_append] at hc
  rcases hc with hc | hc
  · rw [mem_takeWhile_imp hc] at h
    cases h
  · rw [hall c hc] at h
    cases h

theorem beforeFirst_append {m r : List Char} (h : c ∉ text) :
    beforeFirst (c :: m) (text ++ c :: m ++ r) = text := by
  induction text with
  | nil =>
    rw [nil_append, cons_append, beforeFirst, ← cons_append, if_pos (startsWith_append (c :: m) r)]
  | cons d text ih =>
    simp only [mem_cons, not_or] at h
    simp only [cons_append, beforeFirst]
    rw [if_neg (by simp [startsWith, h.1]), ih h.2]

theorem beforeFirst_none {mark : List Char} (h : c ∉ text) :
    beforeFirst (c :: mark) text = text := by
  induction text with
  | nil => rfl
  | cons d text ih =>
    simp only [mem_cons, not_or] at h
    rw [beforeFirst, if_neg (by simp [startsWith, h.1]), ih h.2]

def Solid (word : List Char) : Prop := ∀ c ∈ word, isWhitespace c = false

variable {word : List Char}

theorem takeWhile_solid (h : Solid word) (rest : List Char) :
    (word ++ rest).takeWhile (fun c => !isWhitespace c) =
      word ++ rest.takeWhile fun c => !isWhitespace c :=
  takeWhile_append_of_pos fun c hc => by simp [h c hc]

theorem nextWord_cons (h : Solid (c :: word)) (rest : List Char) :
    nextWord (c :: word ++ ' ' :: rest) = some (c :: word, ' ' :: rest) := by
  have hc := h c mem_cons_self
  have hword : ((c :: word) ++ ' ' :: rest).takeWhile (fun c => !isWhitespace c) = c :: word := by
    rw [takeWhile_solid h]
    simp [isWhitespace]
  rw [nextWord, cons_append, trimStart_solid hc]
  simp only [← cons_append, hword]
  rw [drop_left]

theorem nextWord_last (h : Solid (c :: word)) :
    nextWord (' ' :: c :: word) = some (c :: word, []) := by
  have hword : (c :: word).takeWhile (fun c => !isWhitespace c) = c :: word := by
    simpa using takeWhile_solid h []
  rw [nextWord, trimStart_space, trimStart_solid (h c mem_cons_self)]
  simp only [hword, drop_length]

def decimal (n : ℕ) : List Char := Nat.toDigits 10 n

theorem decimal_digit {n : ℕ} (h : c ∈ decimal n) : c.isDigit :=
  Nat.isDigit_of_mem_toDigits (by omega) (by omega) h

theorem decimal_ne_nil (n : ℕ) : decimal n ≠ [] := Nat.toDigits_ne_nil

theorem isDigit_bounds (h : c.isDigit) : 48 ≤ c.toNat ∧ c.toNat ≤ 57 := by
  simp only [Char.isDigit, Bool.and_eq_true, decide_eq_true_eq] at h
  exact ⟨h.1, h.2⟩

theorem digit_solid (h : c.isDigit) : isWhitespace c = false := by
  obtain ⟨hlo, hhi⟩ := isDigit_bounds h
  simp [isWhitespace]
  omega

theorem unsigned_decimal (n : ℕ) : unsigned (decimal n) = decimal n := by
  unfold unsigned
  split
  · rename_i digits heq
    have hdigit := decimal_digit (n := n) (c := '+') (by rw [heq]; exact mem_cons_self)
    exact absurd hdigit (by decide)
  · rfl

theorem parseU32_decimal (n : ℕ) :
    parseU32 (decimal n) = if n ≤ u32Max then some (UInt32.ofNat n) else none := by
  have hall : (decimal n).all Char.isDigit :=
    List.all_eq_true.mpr fun c hc => decimal_digit hc
  rw [parseU32, unsigned_decimal, if_neg (by simp [hall, decimal_ne_nil]), decimal,
    Nat.ofDigitChars_ten_toDigits]

end GitComet.Text
