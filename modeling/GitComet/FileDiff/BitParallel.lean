import GitComet.FileDiff.Levenshtein

namespace GitComet.FileDiff
open List Nat ByteOrder Levenshtein Alignment

def asciiBitparallelMaxPatternLen : ℕ := 128

abbrev Word := BitVec 128

def eqMasks : Bytes → ℕ → (UInt8 → Word) → UInt8 → Word
  | [], _, masks => masks
  | byte :: pattern, ix, masks =>
    eqMasks pattern (ix + 1) (Function.update masks byte (masks byte ||| 1#128 <<< ix))

structure BitColumn where
  positive : Word
  negative : Word
  distance : ℕ

def horizontal (eq : Word) (s : BitColumn) : Word × Word :=
  let xh := (((eq &&& s.positive) + s.positive) ^^^ s.positive) ||| eq
  (s.negative ||| ~~~(xh ||| s.positive), s.positive &&& xh)

-- `none` where the count of the distance would underflow.
def bitStep (mask highBit eq : Word) (s : BitColumn) : Option BitColumn :=
  let xv := eq ||| s.negative
  let h := horizontal eq s
  let distance :=
    if h.1 &&& highBit ≠ 0 then some (s.distance + 1)
    else if h.2 &&& highBit ≠ 0 then
      if s.distance = 0 then none else some (s.distance - 1)
    else some s.distance
  let positiveH := ((h.1 <<< 1) ||| 1#128) &&& mask
  let negativeH := (h.2 <<< 1) &&& mask
  distance.map fun distance =>
    { positive := (negativeH ||| ~~~(xv ||| positiveH)) &&& mask
      negative := positiveH &&& xv
      distance := distance }

def bitRun (masks : UInt8 → Word) (mask highBit : Word) : Bytes → BitColumn → Option BitColumn
  | [], s => some s
  | byte :: text, s => (bitStep mask highBit (masks byte) s).bind (bitRun masks mask highBit text)

def patternMask (patternLen : ℕ) : Word :=
  if patternLen = asciiBitparallelMaxPatternLen then BitVec.allOnes 128
  else (1#128 <<< patternLen) - 1#128

-- The outer `none` is a panic, the inner one the answer for a pattern that is too long.
def bitparallelLevenshteinBytes (a b : Bytes) : Option (Option ℕ) :=
  let (pattern, text) := if a.length ≤ b.length then (a, b) else (b, a)
  if pattern.length = 0 then some (some text.length)
  else if asciiBitparallelMaxPatternLen < pattern.length then some none
  else
    let mask := patternMask pattern.length
    let highBit := 1#128 <<< (pattern.length - 1)
    let masks := eqMasks pattern 0 fun _ => 0#128
    (bitRun masks mask highBit text
      { positive := mask, negative := 0#128, distance := pattern.length }).map
        fun s => some s.distance

section

theorem getLsbD_bit {i j : ℕ} (h : i < 128) : (1#128 <<< i).getLsbD j = decide (i = j) := by
  rw [← BitVec.twoPow_eq, BitVec.getLsbD_twoPow, decide_eq_true h, Bool.true_and]

theorem and_highBit {x : Word} {i : ℕ} (h : i < 128) :
    x &&& (1#128 <<< i) ≠ 0 ↔ x.getLsbD i := by
  rw [← BitVec.twoPow_eq, BitVec.and_twoPow]
  cases hbit : x.getLsbD i with
  | false => simp
  | true =>
    refine iff_of_true (fun hzero => ?_) rfl
    rw [if_pos rfl] at hzero
    have hget := congrArg (·.getLsbD i) hzero
    simp [h] at hget

theorem up_iff (down eq opposite up : Bool) :
    (down || !(eq || opposite || up)) ↔
      down ∨ ¬((eq ∨ opposite) ∨ up) := by
  cases down <;> cases eq <;> cases opposite <;> cases up <;> decide

theorem getLsbD_shift (x : Word) {mask : Word} {i : ℕ} (hmask : mask.getLsbD i)
    (hi : i < 128) :
    ((x <<< 1) &&& mask).getLsbD i = (decide (i ≠ 0) && x.getLsbD (i - 1)) := by
  rw [BitVec.getLsbD_and, hmask, Bool.and_true, BitVec.getLsbD_shiftLeft, decide_eq_true hi,
    Bool.true_and]
  cases i <;> rfl

theorem getLsbD_shift_one (x : Word) {mask : Word} {i : ℕ} (hmask : mask.getLsbD i)
    (hi : i < 128) :
    (((x <<< 1) ||| 1#128) &&& mask).getLsbD i = (decide (i = 0) || x.getLsbD (i - 1)) := by
  have hone : (1#128).getLsbD i = decide (i = 0) := by
    rw [BitVec.getLsbD_one]
    exact Bool.true_and _
  rw [BitVec.getLsbD_and, hmask, Bool.and_true, BitVec.getLsbD_or, hone,
    BitVec.getLsbD_shiftLeft, decide_eq_true hi, Bool.true_and]
  cases i with
  | zero => rfl
  | succ i => exact Bool.or_false _

theorem getLsbD_eqMasks (pattern : Bytes) (byte : UInt8) {i : ℕ} :
    ∀ (ix : ℕ) (masks : UInt8 → Word), ix + pattern.length ≤ 128 →
    (eqMasks pattern ix masks byte).getLsbD i =
      ((masks byte).getLsbD i || decide (ix ≤ i ∧ pattern[i - ix]? = some byte)) := by
  induction pattern with
  | nil =>
    intro ix masks _
    simp [eqMasks]
  | cons first pattern ih =>
    intro ix masks hlen
    rw [length_cons] at hlen
    rw [eqMasks, ih (ix + 1) _ (by omega)]
    have hbit : (Function.update masks first (masks first ||| 1#128 <<< ix) byte).getLsbD i =
        ((masks byte).getLsbD i || decide (ix = i ∧ first = byte)) := by
      by_cases hbyte : byte = first
      · rw [hbyte, Function.update_self, BitVec.getLsbD_or, getLsbD_bit (by omega)]
        simp
      · rw [Function.update_of_ne hbyte]
        simp [Ne.symm hbyte]
    rw [hbit, Bool.or_assoc, ← Bool.decide_or]
    refine congrArg _ (decide_eq_decide.mpr ?_)
    rcases lt_trichotomy i ix with hlt | rfl | hlt
    · omega
    · simp
    · obtain ⟨k, rfl⟩ := Nat.exists_eq_add_of_lt hlt
      have hget : (first :: pattern)[ix + k + 1 - ix]? = pattern[ix + k + 1 - (ix + 1)]? := by
        rw [show ix + k + 1 - ix = k + 1 by omega, show ix + k + 1 - (ix + 1) = k by omega,
          getElem?_cons_succ]
      rw [hget]
      constructor
      · rintro (⟨heq, -⟩ | ⟨-, hbyte⟩)
        · omega
        · exact ⟨by omega, hbyte⟩
      · rintro ⟨-, hbyte⟩
        exact .inr ⟨by omega, hbyte⟩

theorem getLsbD_patternMask {patternLen i : ℕ} (h : patternLen ≤ 128) (hi : i < patternLen) :
    (patternMask patternLen).getLsbD i := by
  rw [patternMask]
  split
  · rw [BitVec.getLsbD_allOnes]
    exact decide_eq_true (by omega)
  · rename_i hne
    have hlt : patternLen < 128 := lt_of_le_of_ne h hne
    have hpow : 2 ^ patternLen < 2 ^ 128 := Nat.pow_lt_pow_right (by decide) hlt
    have hone : 0 < 2 ^ patternLen := Nat.two_pow_pos patternLen
    have hmask : (1#128 <<< patternLen) - 1#128 = BitVec.ofNat 128 (2 ^ patternLen - 1) := by
      have hle : 1#128 ≤ BitVec.twoPow 128 patternLen := by
        rw [BitVec.le_def, BitVec.toNat_twoPow_of_lt hlt]
        exact hone
      refine BitVec.eq_of_toNat_eq ?_
      rw [← BitVec.twoPow_eq, BitVec.toNat_sub_of_le hle, BitVec.toNat_twoPow_of_lt hlt,
        BitVec.toNat_ofNat]
      exact (mod_eq_of_lt ((sub_le _ 1).trans_lt hpow)).symm
    rw [hmask, BitVec.getLsbD_ofNat, testBit_two_pow_sub_one]
    exact Bool.and_eq_true_iff.mpr ⟨decide_eq_true (by omega), decide_eq_true hi⟩

end

section
variable {pattern done : Bytes} {eq mask : Word} {s : BitColumn} {byte : UInt8} {i : ℕ}

structure Column (pattern done : Bytes) (s : BitColumn) : Prop where
  positive : ∀ {i : ℕ}, i < pattern.length →
    (s.positive.getLsbD i = true ↔ column pattern done (i + 1) = column pattern done i + 1)
  negative : ∀ {i : ℕ}, i < pattern.length →
    (s.negative.getLsbD i = true ↔ column pattern done (i + 1) + 1 = column pattern done i)
  distance : s.distance = column pattern done pattern.length

def Matches (pattern : Bytes) (byte : UInt8) (eq : Word) : Prop :=
  ∀ {i : ℕ} {x : UInt8}, pattern[i]? = some x → (eq.getLsbD i = true ↔ x = byte)

structure Corners (x y : UInt8) (a b c d : ℕ) : Prop where
  cell : d = min (a + unequal x y) (min (b + 1) (c + 1))
  left : b ≤ a + 1 ∧ a ≤ b + 1
  top : c ≤ a + 1 ∧ a ≤ c + 1

variable {x : UInt8}

theorem corners (h : pattern[i]? = some x) (done : Bytes) (byte : UInt8) :
    Corners x byte (column pattern done i) (column pattern done (i + 1))
      (column pattern (done ++ [byte]) i) (column pattern (done ++ [byte]) (i + 1)) where
  cell := column_cell done h byte
  left := column_vertical done h
  top := column_horizontal done i byte

variable {y : UInt8} {a b c d : ℕ}

theorem Corners.bottom_down (h : Corners x y a b c d) :
    d + 1 = b ↔ b = a + 1 ∧ (x = y ∨ c + 1 = a) := by
  obtain ⟨hcell, ⟨hleft, hleft'⟩, htop, htop'⟩ := h
  rw [unequal] at hcell
  by_cases hxy : x = y
  · rw [if_pos hxy] at hcell
    simp only [hxy, true_or, and_true]
    omega
  · rw [if_neg hxy] at hcell
    simp only [hxy, false_or]
    omega

theorem Corners.bottom_up (h : Corners x y a b c d) :
    d = b + 1 ↔ b + 1 = a ∨ ¬((x = y ∨ c + 1 = a) ∨ b = a + 1) := by
  obtain ⟨hcell, ⟨hleft, hleft'⟩, htop, htop'⟩ := h
  rw [unequal] at hcell
  by_cases hxy : x = y
  · rw [if_pos hxy] at hcell
    simp only [hxy, true_or, not_true, or_false]
    omega
  · rw [if_neg hxy] at hcell
    simp only [hxy, false_or]
    omega

theorem Corners.swap (h : Corners x y a b c d) :
    Corners x y a c b d where
  cell := by rw [h.cell, min_comm (c + 1)]
  left := h.top
  top := h.left

section
variable (heq : Matches pattern byte eq) (hs : Column pattern done s)
include heq hs

theorem spreadCarry_iff : ∀ {i : ℕ}, i ≤ pattern.length → (spreadCarry eq s.positive i ↔
      column pattern (done ++ [byte]) i + 1 = column pattern done i) := by
  intro i
  induction i with
  | zero =>
    intro _
    rw [spreadCarry_zero, column_zero, column_zero, length_append, length_singleton]
    exact iff_of_false Bool.false_ne_true (by omega)
  | succ i ih =>
    intro hi
    have hx := getElem?_eq_getElem (l := pattern) (i := i) hi
    rw [spreadCarry_succ, (corners hx done byte).bottom_down, Bool.and_eq_true, Bool.or_eq_true,
      hs.positive hi, heq hx, ih (le_of_lt hi)]

section
variable (hpattern : pattern.length ≤ 128)
include hpattern

theorem spread_iff (hx : pattern[i]? = some x) :
    (spread eq s.positive).getLsbD i ↔
      x = byte ∨ column pattern (done ++ [byte]) i + 1 = column pattern done i := by
  have hi := (List.getElem?_eq_some_iff.mp hx).1
  rw [getLsbD_spread _ _ (hi.trans_le hpattern), Bool.or_eq_true, heq hx,
    spreadCarry_iff heq hs (le_of_lt hi)]

theorem horizontal_down (hx : pattern[i]? = some x) :
    (horizontal eq s).2.getLsbD i ↔
      column pattern (done ++ [byte]) (i + 1) + 1 = column pattern done (i + 1) := by
  have hi := (List.getElem?_eq_some_iff.mp hx).1
  rw [(corners hx done byte).bottom_down, ← hs.positive hi, ← spread_iff heq hs hpattern hx,
    ← Bool.and_eq_true, ← BitVec.getLsbD_and]
  rfl

theorem horizontal_up (hx : pattern[i]? = some x) :
    (horizontal eq s).1.getLsbD i ↔
      column pattern (done ++ [byte]) (i + 1) = column pattern done (i + 1) + 1 := by
  have hi := (List.getElem?_eq_some_iff.mp hx).1
  have hbits : (horizontal eq s).1.getLsbD i = (s.negative.getLsbD i ||
        !((spread eq s.positive).getLsbD i || s.positive.getLsbD i)) := by
    have hword := hi.trans_le hpattern
    rw [horizontal, BitVec.getLsbD_or, BitVec.getLsbD_not, decide_eq_true hword, Bool.true_and,
      BitVec.getLsbD_or]
    rfl
  rw [(corners hx done byte).bottom_up, hbits, Bool.or_eq_true, hs.negative hi,
    ← spread_iff heq hs hpattern hx, ← hs.positive hi]
  simp

theorem positiveH_iff
    (hmask : mask.getLsbD i) (hx : pattern[i]? = some x) :
    ((((horizontal eq s).1 <<< 1) ||| 1#128) &&& mask).getLsbD i ↔
      column pattern (done ++ [byte]) i = column pattern done i + 1 := by
  have hi := (List.getElem?_eq_some_iff.mp hx).1
  rw [getLsbD_shift_one _ hmask (hi.trans_le hpattern)]
  cases i with
  | zero =>
    rw [column_zero, column_zero, length_append, length_singleton]
    exact iff_of_true rfl rfl
  | succ i =>
    rw [← horizontal_up heq hs hpattern (getElem?_eq_getElem (lt_of_succ_lt hi))]
    exact Bool.eq_iff_iff.mp (Bool.false_or _)

theorem negativeH_iff (hmask : mask.getLsbD i) (hx : pattern[i]? = some x) :
    (((horizontal eq s).2 <<< 1) &&& mask).getLsbD i ↔
      column pattern (done ++ [byte]) i + 1 = column pattern done i := by
  have hi := (List.getElem?_eq_some_iff.mp hx).1
  rw [getLsbD_shift _ hmask (hi.trans_le hpattern)]
  cases i with
  | zero =>
    rw [column_zero, column_zero, length_append, length_singleton]
    exact iff_of_false Bool.false_ne_true (by omega)
  | succ i =>
    rw [← horizontal_down heq hs hpattern (getElem?_eq_getElem (lt_of_succ_lt hi))]
    exact Bool.eq_iff_iff.mp (Bool.true_and _)

theorem bitStep_column
    (hmask : ∀ {i : ℕ}, i < pattern.length → mask.getLsbD i) (hpos : 0 < pattern.length) :
    ∃ s', bitStep mask (1#128 <<< (pattern.length - 1)) eq s = some s' ∧
      Column pattern (done ++ [byte]) s' := by
  have hlast := getElem?_eq_getElem (l := pattern) (i := pattern.length - 1) (by omega)
  have hup := horizontal_up heq hs hpattern hlast
  have hdown := horizontal_down heq hs hpattern hlast
  rw [Nat.sub_add_cancel hpos, ← and_highBit (by omega)] at hup hdown
  have htop : column pattern (done ++ [byte]) pattern.length ≤
      column pattern done pattern.length + 1 ∧ _ := column_horizontal done pattern.length byte
  have hdistance : (if (horizontal eq s).1 &&& (1#128 <<< (pattern.length - 1)) ≠ 0 then
        some (s.distance + 1)
      else if (horizontal eq s).2 &&& (1#128 <<< (pattern.length - 1)) ≠ 0 then
        if s.distance = 0 then none else some (s.distance - 1)
      else some s.distance) = some (column pattern (done ++ [byte]) pattern.length) := by
    rw [hs.distance]
    by_cases h : column pattern (done ++ [byte]) pattern.length =
        column pattern done pattern.length + 1
    · rw [if_pos (hup.mpr h), h]
    · rw [if_neg fun hbit => h (hup.mp hbit)]
      by_cases h' : column pattern (done ++ [byte]) pattern.length + 1 =
          column pattern done pattern.length
      · rw [if_pos (hdown.mpr h'), if_neg (by omega), ← h', Nat.add_sub_cancel]
      · rw [if_neg fun hbit => h' (hdown.mp hbit)]
        exact congrArg some (by omega)
  rw [bitStep, hdistance]
  refine ⟨_, rfl, fun {i} hi => ?_, fun {i} hi => ?_, rfl⟩
  · have hx := getElem?_eq_getElem hi
    have hword := hi.trans_le hpattern
    have hcorners := corners hx done byte
    rw [hcorners.swap.bottom_up, ← negativeH_iff heq hs hpattern (hmask hi) hx,
      ← positiveH_iff heq hs hpattern (hmask hi) hx, ← heq hx, ← hs.negative hi,
      BitVec.getLsbD_and, hmask hi, Bool.and_true, BitVec.getLsbD_or, BitVec.getLsbD_not,
      decide_eq_true hword, Bool.true_and, BitVec.getLsbD_or, BitVec.getLsbD_or]
    exact up_iff _ _ _ _
  · have hx := getElem?_eq_getElem hi
    have hcorners := corners hx done byte
    rw [hcorners.swap.bottom_down, ← positiveH_iff heq hs hpattern (hmask hi) hx, ← heq hx,
      ← hs.negative hi, BitVec.getLsbD_and, BitVec.getLsbD_or]
    simp

end

end

theorem matches_eqMasks (pattern : Bytes) (byte : UInt8) (hpattern : pattern.length ≤ 128) :
    Matches pattern byte (eqMasks pattern 0 (fun _ => 0#128) byte) := by
  intro i x hx
  rw [getLsbD_eqMasks pattern byte 0 _ (by omega), BitVec.getLsbD_zero, Bool.false_or,
    decide_eq_true_iff, Nat.sub_zero, hx, Option.some_inj]
  exact and_iff_right (Nat.zero_le i)

theorem bitRun_column (hpattern : pattern.length ≤ 128) (hpos : 0 < pattern.length)
    (text : Bytes) : ∀ {done : Bytes} {s : BitColumn}, Column pattern done s →
      ∃ s', bitRun (eqMasks pattern 0 fun _ => 0#128) (patternMask pattern.length)
          (1#128 <<< (pattern.length - 1)) text s = some s' ∧ Column pattern (done ++ text) s' := by
  induction text with
  | nil =>
    intro done s hs
    refine ⟨s, rfl, ?_⟩
    rw [append_nil]
    exact hs
  | cons byte text ih =>
    intro done s hs
    obtain ⟨s', hstep, hs'⟩ := bitStep_column (matches_eqMasks pattern byte hpattern) hs hpattern
      (fun hi => getLsbD_patternMask hpattern hi) hpos
    obtain ⟨s'', hrun, hs''⟩ := ih hs'
    refine ⟨s'', ?_, ?_⟩
    · rw [bitRun, hstep]
      exact hrun
    · rw [append_assoc] at hs''
      exact hs''

theorem firstColumn (hpattern : pattern.length ≤ 128) :
    Column pattern [] { positive := patternMask pattern.length, negative := 0#128,
                        distance := pattern.length } where
  positive := fun {i} hi => by
    rw [column_nil pattern hi, column_nil pattern (le_of_lt hi)]
    exact iff_of_true (getLsbD_patternMask hpattern hi) rfl
  negative := fun {i} hi => by
    rw [column_nil pattern hi, column_nil pattern (le_of_lt hi), BitVec.getLsbD_zero]
    exact iff_of_false Bool.false_ne_true (by omega)
  distance := (column_nil pattern le_rfl).symm

end

theorem bitparallel_ordered {pattern text : Bytes} (hpattern : pattern.length ≤ 128) :
    (if pattern.length = 0 then some (some text.length)
      else if asciiBitparallelMaxPatternLen < pattern.length then some none
      else
        (bitRun (eqMasks pattern 0 fun _ => 0#128) (patternMask pattern.length)
          (1#128 <<< (pattern.length - 1)) text
          { positive := patternMask pattern.length, negative := 0#128,
            distance := pattern.length }).map fun s => some s.distance) =
      some (some (levenshtein pattern text)) := by
  by_cases hpos : pattern.length = 0
  · rw [if_pos hpos, eq_nil_of_length_eq_zero hpos, levenshtein_nil_left]
  · have hshort : ¬asciiBitparallelMaxPatternLen < pattern.length := Nat.not_lt.mpr hpattern
    rw [if_neg hpos, if_neg hshort]
    obtain ⟨s, hrun, hs⟩ :=
      bitRun_column hpattern (pos_of_ne_zero hpos) text (firstColumn hpattern)
    rw [hrun, Option.map_some, hs.distance, column_full, nil_append]

theorem bitparallel_distance_is_levenshtein (cache : List ℕ) (a b : Bytes)
    (h : a.length ≤ 128 ∨ b.length ≤ 128) :
    bitparallelLevenshteinBytes a b = some (some (levenshtein a b)) ∧
      (LevenshteinScratch.distance cache a b).map Prod.snd = some (levenshtein a b) := by
  refine ⟨?_, LevenshteinScratch.distance_exact cache a b⟩
  rw [bitparallelLevenshteinBytes]
  by_cases hlen : a.length ≤ b.length
  · rw [if_pos hlen]
    exact bitparallel_ordered (by omega)
  · rw [if_neg hlen, levenshtein_comm]
    exact bitparallel_ordered (by omega)

theorem short_bitparallel_distance_is_levenshtein :
    bitparallelLevenshteinBytes [97, 98, 99] [97, 99] =
        some (some (levenshtein ([97, 98, 99] : Bytes) [97, 99])) ∧
      (LevenshteinScratch.distance [7] [97, 98, 99] [97, 99]).map Prod.snd =
        some (levenshtein ([97, 98, 99] : Bytes) [97, 99]) :=
  bitparallel_distance_is_levenshtein [7] [97, 98, 99] [97, 99] (.inl (by decide))

end GitComet.FileDiff
