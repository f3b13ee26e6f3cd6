import GitComet.Basis.Utf8Encoding
import GitComet.Kit.Boundaries

namespace GitComet.FileDiff
open Text Kit Utf8 WeightedPrefix List Option Nat ByteOrder

def utf8SubsliceBoundaryLookaroundBytes : ℕ := 3

-- A shared line whose range cuts a character of its storage panics when it is read.
structure SharedLineText where
  storage : List Char
  start : ℕ
  len : ℕ
  readable : (byteSlice storage start (satAdd start len)).isSome

def SharedLineText.asRef (line : SharedLineText) : List Char :=
  (byteSlice line.storage line.start (satAdd line.start line.len)).get line.readable

structure FileDiffLineFileSlice where
  file : Bytes
  range : Kit.Range
  asciiOnly : Bool

inductive FileDiffLineText where
  | owned (text : List Char)
  | sharedSlice (text : List Char) (range : Kit.Range)
  | sharedLine (text : SharedLineText)
  | fileSlice (slice : FileDiffLineFileSlice)

def readFileBytes (file : Bytes) (range : Kit.Range) : Option Bytes :=
  if range.start > range.stop then none
  else
    let bytes := (file.drop range.start).take (range.stop - range.start)
    if bytes.length = range.stop - range.start then some bytes else none

def readUtf8FileSlice (file : Bytes) (range : Kit.Range) : Option (List Char) := do
  let bytes ← readFileBytes file range
  (fromUtf8 bytes).toOption

def clampByteUpToCharBoundary (text : List Char) (offset : ℕ) : ℕ :=
  boundaryAbove (strIsCharBoundary text) (byteLen text) (min offset (byteLen text))

def clampByteDownToCharBoundary (text : List Char) (offset : ℕ) : ℕ :=
  boundaryBelow (strIsCharBoundary text) (min offset (byteLen text))

def resolvedUtf8TextSubsliceRange (text : List Char) (range : Kit.Range) : Option Kit.Range :=
  if range.start > range.stop ∨ range.stop > byteLen text then none
  else
    let start := clampByteUpToCharBoundary text range.start
    let stop := max (clampByteDownToCharBoundary text range.stop) start
    some ⟨start, stop⟩

def isContinuationByte (byte : UInt8) : Bool := byte &&& 0b11000000 == 0b10000000

def localStartOf (bytes : Bytes) (requestedStart : ℕ) : ℕ :=
  boundaryAbove (fun ix => !isContinuationByte (bytes.getD ix 0)) bytes.length requestedStart

def localEndOf (bytes : Bytes) (localStart requestedEnd : ℕ) : ℕ :=
  boundaryBelow
    (fun ix => decide (ix ≤ localStart) ||
      (fromUtf8 ((bytes.drop localStart).take (ix - localStart))).isOk)
    (min (max requestedEnd localStart) bytes.length)

def readUtf8FileSubsliceWithRange (file : Bytes) (base subrange : Kit.Range) (asciiOnly : Bool) :
    Option (List Char × Kit.Range) :=
  if subrange.start > subrange.stop ∨ subrange.stop > base.stop - base.start then none
  else
    let start := satAdd base.start subrange.start
    let stop := satAdd base.start subrange.stop
    if asciiOnly then (readUtf8FileSlice file ⟨start, stop⟩).map fun text => (text, subrange)
    else do
      let readStart := max (start - utf8SubsliceBoundaryLookaroundBytes) base.start
      let readEnd := min (satAdd stop utf8SubsliceBoundaryLookaroundBytes) base.stop
      let bytes ← readFileBytes file ⟨readStart, readEnd⟩
      let requestedStart := min (start - readStart) bytes.length
      let requestedEnd := min (stop - readStart) bytes.length
      let localStart := localStartOf bytes requestedStart
      let localEnd := localEndOf bytes localStart requestedEnd
      let resolved : Kit.Range :=
        ⟨satAdd readStart localStart - base.start, satAdd readStart localEnd - base.start⟩
      if localEnd ≤ localStart then some ([], resolved)
      else
        (fromUtf8 ((bytes.drop localStart).take (localEnd - localStart))).toOption.map
          fun text => (text, resolved)

def readUtf8FileSubslice (file : Bytes) (base subrange : Kit.Range) (asciiOnly : Bool) :
    Option (List Char) :=
  (readUtf8FileSubsliceWithRange file base subrange asciiOnly).map Prod.fst

namespace FileDiffLineText

def len : FileDiffLineText → ℕ
  | owned text => byteLen text
  | sharedSlice _ range => range.stop - range.start
  | sharedLine text => text.len
  | fileSlice slice => slice.range.stop - slice.range.start

def strGet (text : List Char) (range : Kit.Range) : List Char :=
  (byteSlice text range.start range.stop).getD []

def sliceText (line : FileDiffLineText) (range : Kit.Range) : Option (List Char) :=
  if range.start > range.stop ∨ range.stop > line.len then none
  else match line with
    | owned text => some (strGet text range)
    | sharedSlice text base =>
      some (strGet text ⟨satAdd base.start range.start, satAdd base.start range.stop⟩)
    | sharedLine text => some (strGet text.asRef range)
    | fileSlice slice => readUtf8FileSubslice slice.file slice.range range slice.asciiOnly

def sliceTextResolved (line : FileDiffLineText) (range : Kit.Range) :
    Option (List Char × Kit.Range) :=
  if range.start > range.stop ∨ range.stop > line.len then none
  else match line with
    | owned text => do
      let resolved ← resolvedUtf8TextSubsliceRange text range
      some (strGet text resolved, resolved)
    | sharedSlice text base => do
      let absolute ← resolvedUtf8TextSubsliceRange text
        ⟨satAdd base.start range.start, satAdd base.start range.stop⟩
      let relative : Kit.Range := ⟨absolute.start - base.start, absolute.stop - base.start⟩
      some (strGet text absolute, relative)
    | sharedLine text => do
      let resolved ← resolvedUtf8TextSubsliceRange text.asRef range
      some (strGet text.asRef resolved, resolved)
    | fileSlice slice =>
      readUtf8FileSubsliceWithRange slice.file slice.range range slice.asciiOnly

-- The line holds the text: no string is longer than `isize::MAX` bytes, and a file slice that is
-- flagged as ASCII is ASCII.
def Stores : FileDiffLineText → List Char → Prop
  | owned stored, text => stored = text
  | sharedSlice stored range, text =>
    byteLen stored ≤ isizeMax ∧ byteSlice stored range.start range.stop = some text
  | sharedLine line, text => line.start ≤ u32Max ∧ line.len ≤ u32Max ∧ line.asRef = text
  | fileSlice slice, text =>
    slice.range.stop ≤ usizeMax ∧ readFileBytes slice.file slice.range = some (utf8 text) ∧
      (slice.asciiOnly = true → isAscii text = true)

end FileDiffLineText

variable {isBoundary : ℕ → Bool} {offset start stop : ℕ}

section

theorem boundaryBelow_spec (isBoundary : ℕ → Bool) (n : ℕ) : boundaryBelow isBoundary n ≤ n ∧
    (boundaryBelow isBoundary n = 0 ∨ isBoundary (boundaryBelow isBoundary n)) ∧
      ∀ m ≤ n, isBoundary m → m ≤ boundaryBelow isBoundary n := by
  induction n with
  | zero => exact ⟨le_refl _, Or.inl rfl, fun m hm _ => hm⟩
  | succ n ih =>
    rw [boundaryBelow]
    split
    · rename_i h
      exact ⟨le_refl _, Or.inr h, fun m hm _ => hm⟩
    · rename_i h
      obtain ⟨hle, hboundary, hgreatest⟩ := ih
      refine ⟨le_succ_of_le hle, hboundary, fun m hm hm' => ?_⟩
      rcases lt_or_eq_of_le hm with hlt | rfl
      · exact hgreatest m (le_of_lt_succ hlt) hm'
      · exact absurd hm' h

theorem boundary_iff {text : List Char} :
    Boundary text offset ↔ Plain.IsCharBoundary text offset := by
  unfold Boundary Plain.IsCharBoundary
  simp only [length_encoding, byteLen]

set_option maxRecDepth 4000 in
theorem isContinuationByte_all : ∀ n : Fin 256,
    isContinuationByte (UInt8.ofNat n.val) = decide (0x80 ≤ n.val ∧ n.val ≤ 0xBF) := by decide

theorem isContinuationByte_iff {byte : UInt8} :
    isContinuationByte byte ↔ IsContinuation byte := by
  have h := isContinuationByte_all ⟨byte.toNat, byte.toNat_lt⟩
  rw [UInt8.ofNat_toNat] at h
  rw [h, decide_eq_true_iff]
  rfl

theorem near_boundary {text : List Char} (h : offset ≤ byteLen text) :
    ∃ next, Plain.IsCharBoundary text next ∧ offset ≤ next ∧ next ≤ offset + 3 := by
  induction text generalizing offset with
  | nil =>
    obtain rfl : offset = 0 := Nat.le_zero.mp h
    exact ⟨0, boundary_zero [], Nat.le_refl _, Nat.zero_le _⟩
  | cons c text ih =>
    have hsize := c.utf8Size_le_four
    rw [byteLen_cons] at h
    rcases Nat.eq_zero_or_pos offset with rfl | hpos
    · exact ⟨0, boundary_zero _, Nat.le_refl _, Nat.zero_le _⟩
    rcases lt_or_ge offset c.utf8Size with hin | hout
    · exact ⟨c.utf8Size, ⟨[c], ⟨text, rfl⟩, by simp⟩, le_of_lt hin, by omega⟩
    · obtain ⟨next, ⟨front, hfront, hlen⟩, hlow, hhigh⟩ :=
        ih (show offset - c.utf8Size ≤ byteLen text by omega)
      refine ⟨c.utf8Size + next, ⟨c :: front, ?_, ?_⟩, by omega, by omega⟩
      · exact cons_prefix_cons.mpr ⟨rfl, hfront⟩
      · rw [byteLen_cons, hlen]

theorem boundary_split {text : List Char} (hle : start ≤ stop)
    (hstart : Plain.IsCharBoundary text start) (hstop : Plain.IsCharBoundary text stop) :
    ∃ front middle back, text = front ++ (middle ++ back) ∧ byteLen front = start ∧
      byteLen front + byteLen middle = stop := by
  obtain ⟨front, hfront, hlen⟩ := hstart
  obtain ⟨upper, ⟨back, rfl⟩, hlen'⟩ := hstop
  have hprefix : front <+: upper := by
    rcases prefix_or_prefix_of_prefix hfront (prefix_append upper back) with h | h
    · exact h
    · have hweight := weight_le_of_prefix Char.utf8Size h
      obtain ⟨rest, rfl⟩ := h
      rw [byteLen_append] at hlen
      have hrest : byteLen rest = 0 := by omega
      rw [byteLen_eq_zero.mp hrest, append_nil]
  obtain ⟨middle, rfl⟩ := hprefix
  exact ⟨front, middle, back, by rw [append_assoc], hlen, by rw [← byteLen_append, hlen']⟩

theorem byteSlice_eq_some {text middle : List Char} :
    byteSlice text start stop = some middle ↔ ∃ front back, text = front ++ (middle ++ back) ∧
      byteLen front = start ∧ byteLen front + byteLen middle = stop := by
  constructor
  · intro h
    rw [byteSlice] at h
    split at h
    case isFalse => cases h
    rename_i hle
    obtain ⟨⟨front, tail⟩, hfront, h⟩ := bind_eq_some_iff.mp h
    obtain ⟨⟨slice, back⟩, hslice, h⟩ := bind_eq_some_iff.mp h
    cases h
    obtain ⟨rfl, hlen⟩ := splitAtByte_some hfront
    obtain ⟨htail, hlen'⟩ := splitAtByte_some hslice
    dsimp only at htail hlen' ⊢
    exact ⟨front, back, by rw [htail], hlen, by omega⟩
  · rintro ⟨front, back, rfl, rfl, rfl⟩
    exact byteSlice_middle front middle back

theorem strGet_of_not {text : List Char} {range : Kit.Range}
    (h : ¬(Plain.IsCharBoundary text range.start ∧ Plain.IsCharBoundary text range.stop)) :
    FileDiffLineText.strGet text range = [] := by
  cases hslice : byteSlice text range.start range.stop with
  | none => rw [FileDiffLineText.strGet, hslice, getD_none]
  | some middle =>
    obtain ⟨front, back, rfl, hstart, hstop⟩ := byteSlice_eq_some.mp hslice
    refine absurd ⟨⟨front, prefix_append _ _, hstart⟩, front ++ middle, ?_, ?_⟩ h
    · rw [← append_assoc]
      exact prefix_append _ _
    · rw [byteLen_append, hstop]

end

structure Inner (text : List Char) (range : Kit.Range) (front middle back : List Char) : Prop where
  parts : text = front ++ (middle ++ back)
  start_le : range.start ≤ byteLen front
  near : byteLen front ≤ range.start + 3
  least : ∀ offset, Plain.IsCharBoundary text offset → range.start ≤ offset →
    byteLen front ≤ offset
  stop_le : middle = [] ∨ byteLen front + byteLen middle ≤ range.stop
  greatest : ∀ offset, Plain.IsCharBoundary text offset → offset ≤ range.stop →
    offset ≤ byteLen front + byteLen middle

theorem inner_exists {text : List Char} {range : Kit.Range} (hrange : range.start ≤ range.stop)
    (hlen : range.stop ≤ byteLen text) :
    ∃ front middle back, Inner text range front middle back := by
  have hcover := le_weight_covering (w := Char.utf8Size) (hrange.trans hlen)
  have hlow := covering_boundary text range.start
  have hhigh := upTo_boundary text range.stop
  have hstop := upTo_le text range.stop
  obtain ⟨next, hnext, hnextLow, hnextHigh⟩ := near_boundary (hrange.trans hlen)
  have hnear := covering_le_boundary hnext hnextLow
  rcases le_total (byteLen (covering Char.utf8Size text range.start))
    (byteLen (Plain.upTo text range.stop)) with hle | hle
  · obtain ⟨front, middle, back, htext, hfront, hmiddle⟩ := boundary_split hle hlow hhigh
    refine ⟨front, middle, back, htext, hfront ▸ hcover, by omega, fun offset h hge => ?_,
      Or.inr (by omega), fun offset h hge => ?_⟩
    · rw [hfront]
      exact covering_le_boundary h hge
    · rw [hmiddle]
      exact boundary_le_upTo h hge
  · obtain ⟨front, ⟨back, htext⟩, hfront⟩ := hlow
    refine ⟨front, [], back, htext.symm, hfront ▸ hcover, by omega, fun offset h hge => ?_,
      Or.inl rfl, fun offset h hge => ?_⟩
    · rw [hfront]
      exact covering_le_boundary h hge
    · have hupTo := boundary_le_upTo h hge
      rw [byteLen_nil]
      omega

namespace Inner
variable {text front middle back : List Char} {range : Kit.Range}

section
variable (h : Inner text range front middle back)
include h

theorem frontBoundary :
    Plain.IsCharBoundary text (byteLen front) := ⟨front, h.parts ▸ prefix_append _ _, rfl⟩

theorem upperBoundary : Plain.IsCharBoundary text (byteLen front + byteLen middle) := by
  refine ⟨front ++ middle, ?_, byteLen_append front middle⟩
  rw [h.parts, ← append_assoc]
  exact prefix_append _ _

theorem upper_le :
    byteLen front + byteLen middle ≤ byteLen text := boundary_le h.upperBoundary

end

def resolved (front middle : List Char) : Kit.Range :=
  ⟨byteLen front, byteLen front + byteLen middle⟩

section
variable (h : Inner text range front middle back)
include h

theorem strGet : FileDiffLineText.strGet text (resolved front middle) = middle := by
  have hslice := byteSlice_eq_some.mpr ⟨front, back, h.parts, rfl, rfl⟩
  show (byteSlice text (byteLen front) (byteLen front + byteLen middle)).getD [] = middle
  rw [hslice, getD_some]

theorem max_below {base : ℕ} (hzero : isBoundary 0)
    (hsame : ∀ m, base ≤ m → m ≤ base + byteLen text →
      (isBoundary m ↔ Plain.IsCharBoundary text (m - base)))
    (hbase : isBoundary base) (hoffset : offset = base + range.stop)
    (hstop : range.stop ≤ byteLen text) :
    max (boundaryBelow isBoundary offset) (base + byteLen front) =
      base + (byteLen front + byteLen middle) := by
  obtain ⟨hle, hends, hgreatest⟩ := boundaryBelow_spec isBoundary offset
  have hboundary := hends.elim (fun hnone => hnone ▸ hzero) id
  generalize boundaryBelow isBoundary offset = below at hboundary hle hgreatest
  have hlow := hgreatest base (by omega) hbase
  have hinside := (hsame below hlow (by omega)).mp hboundary
  have habove := h.greatest (below - base) hinside (by omega)
  rcases h.stop_le with hempty | hupper
  · rw [hempty, byteLen_nil] at habove ⊢
    omega
  · have hupperBoundary : isBoundary (base + (byteLen front + byteLen middle)) := by
      rw [hsame _ (by omega) (Nat.add_le_add_left h.upper_le base), Nat.add_sub_cancel_left]
      exact h.upperBoundary
    have hreach := hgreatest _ (by omega) hupperBoundary
    omega

theorem above {base len : ℕ} (hsame : ∀ m, base ≤ m → m ≤ base + byteLen text →
      (isBoundary m ↔ Plain.IsCharBoundary text (m - base)))
    (hlen : base + byteLen text ≤ len) :
    boundaryAbove isBoundary len (base + range.start) = base + byteLen front := by
  have hstart := h.start_le
  have hupper := h.upper_le
  refine boundaryAbove_eq ?_ (by omega) (by omega) fun m hlow hhigh => ?_
  · rw [hsame _ (by omega) (by omega), Nat.add_sub_cancel_left]
    exact h.frontBoundary
  · rw [← Bool.not_eq_true, hsame m (by omega) (by omega)]
    intro hboundary
    have hleast := h.least (m - base) hboundary (by omega)
    omega

end

end Inner

section
variable {stored before text after : List Char} {range : Kit.Range}

section
variable (hstored : stored = before ++ (text ++ after))
include hstored

theorem boundary_stored {m : ℕ}
    (hlow : byteLen before ≤ m) (hhigh : m ≤ byteLen before + byteLen text) :
    strIsCharBoundary stored m ↔ Plain.IsCharBoundary text (m - byteLen before) := by
  rw [strIsCharBoundary_iff, hstored]
  exact boundary_middle after hlow (by omega)

theorem resolved_stored (hrange : range.start ≤ range.stop) (hstop : range.stop ≤ byteLen text)
    {front middle back : List Char} (h : Inner text range front middle back) :
    resolvedUtf8TextSubsliceRange stored
        ⟨byteLen before + range.start, byteLen before + range.stop⟩ =
      some ⟨byteLen before + byteLen front, byteLen before + (byteLen front + byteLen middle)⟩ := by
  have hlen : byteLen before + byteLen text ≤ byteLen stored := by
    rw [hstored, byteLen_append, byteLen_append]
    omega
  have hsame := fun m => boundary_stored hstored (m := m)
  have hbase : strIsCharBoundary stored (byteLen before) := by
    rw [hsame _ (le_refl _) (le_add_right _ _), Nat.sub_self]
    exact boundary_zero text
  have hup : clampByteUpToCharBoundary stored (byteLen before + range.start) =
      byteLen before + byteLen front := by
    rw [clampByteUpToCharBoundary, min_eq_left (by omega)]
    exact h.above hsame hlen
  have hdown : max (clampByteDownToCharBoundary stored (byteLen before + range.stop))
      (byteLen before + byteLen front) = byteLen before + (byteLen front + byteLen middle) := by
    rw [clampByteDownToCharBoundary, min_eq_left (by omega)]
    exact h.max_below (strIsCharBoundary_iff.mpr (boundary_zero stored)) hsame hbase rfl hstop
  rw [resolvedUtf8TextSubsliceRange, if_neg (by dsimp only; omega)]
  dsimp only
  rw [hup, hdown]

theorem strGet_stored (hrange : range.start ≤ range.stop) (hstop : range.stop ≤ byteLen text) :
    FileDiffLineText.strGet stored ⟨byteLen before + range.start, byteLen before + range.stop⟩ =
      FileDiffLineText.strGet text range := by
  by_cases h : Plain.IsCharBoundary text range.start ∧ Plain.IsCharBoundary text range.stop
  · obtain ⟨front, middle, back, htext, hfront, hmiddle⟩ := boundary_split hrange h.1 h.2
    have hinner := byteSlice_eq_some.mpr ⟨front, back, htext, hfront, hmiddle⟩
    have houter : byteSlice stored (byteLen before + range.start) (byteLen before + range.stop) =
        some middle := by
      refine byteSlice_eq_some.mpr ⟨before ++ front, back ++ after, ?_, ?_, ?_⟩
      · rw [hstored, htext]
        simp
      · rw [byteLen_append, hfront]
      · rw [byteLen_append, ← hmiddle]
        omega
    rw [FileDiffLineText.strGet, FileDiffLineText.strGet, hinner]
    exact congrArg (Option.getD · []) houter
  · rw [strGet_of_not h, strGet_of_not]
    rw [← strIsCharBoundary_iff, ← strIsCharBoundary_iff]
    dsimp only
    rwa [boundary_stored hstored (by omega) (by omega),
      boundary_stored hstored (by omega) (by omega), Nat.add_sub_cancel_left,
      Nat.add_sub_cancel_left]

theorem strGet_inner {front middle back : List Char} (h : Inner text range front middle back) :
    FileDiffLineText.strGet stored
      ⟨byteLen before + byteLen front, byteLen before + (byteLen front + byteLen middle)⟩ =
      middle := by
  have hslice : byteSlice stored (byteLen before + byteLen front)
      (byteLen before + (byteLen front + byteLen middle)) = some middle := by
    refine byteSlice_eq_some.mpr ⟨before ++ front, back ++ after, ?_, byteLen_append _ _, ?_⟩
    · rw [hstored, h.parts]
      simp
    · rw [byteLen_append]
      omega
  rw [FileDiffLineText.strGet, hslice, getD_some]

end

end

section

theorem readFileBytes_length {file bytes : Bytes} {base : Kit.Range}
    (h : readFileBytes file base = some bytes) : base.stop = base.start + bytes.length := by
  rw [readFileBytes] at h
  split at h
  · cases h
  dsimp only at h
  split at h
  case isFalse => cases h
  rename_i hread
  rw [← some.inj h, hread]
  omega

theorem readFileBytes_inside {file : Bytes} {base : Kit.Range} {text : List Char}
    (h : readFileBytes file base = some (utf8 text)) (hle : start ≤ stop)
    (hstop : stop ≤ byteLen text) :
    readFileBytes file ⟨base.start + start, base.start + stop⟩ =
      some (((utf8 text).drop start).take (stop - start)) := by
  rw [readFileBytes] at h
  split at h
  · cases h
  dsimp only at h
  split at h
  case isFalse => cases h
  rename_i hread
  have htext := some.inj h
  have hlen : byteLen text = base.stop - base.start := by rw [← length_utf8, ← htext, hread]
  have hbytes : (file.drop (base.start + start)).take (base.start + stop - (base.start + start)) =
      ((utf8 text).drop start).take (stop - start) := by
    rw [← htext, drop_take, drop_drop, take_take]
    congr 1
    omega
  rw [readFileBytes, if_neg (by dsimp only; omega)]
  dsimp only
  rw [hbytes, if_pos]
  rw [length_take, length_drop, length_utf8]
  omega

variable {text front middle back : List Char} {range : Kit.Range} {first count : ℕ}

def window (text : List Char) (first count : ℕ) : Bytes := ((utf8 text).drop first).take count

theorem window_length (h : first + count ≤ byteLen text) :
    (window text first count).length = count := by
  rw [window, length_take, length_drop, length_utf8]
  omega

theorem window_boundary {ix : ℕ} (h : first + count ≤ byteLen text) (hix : ix < count) :
    (!isContinuationByte ((window text first count).getD ix 0)) ↔
      Plain.IsCharBoundary text (first + ix) := by
  have hlen : first + ix < (utf8 text).length := by
    rw [length_utf8]
    omega
  have hread : (encoding text)[first + ix]? = some (utf8 text)[first + ix] :=
    getElem?_eq_getElem hlen
  have hget : (window text first count).getD ix 0 = (utf8 text)[first + ix] := by
    rw [window, getD_eq_getElem?_getD, getElem?_take_of_lt hix, getElem?_drop,
      getElem?_eq_getElem hlen, getD_some]
  rw [hget, Bool.not_eq_true', ← Bool.not_eq_true, isContinuationByte_iff, continuation_iff hread,
    not_not, boundary_iff]

theorem window_start (h : Inner text range front middle back)
    (hcount : first + count ≤ byteLen text) (hfrom : first ≤ range.start)
    (hfront : byteLen front ≤ first + count) :
    localStartOf (window text first count) (range.start - first) = byteLen front - first := by
  have hstart := h.start_le
  rw [localStartOf, window_length hcount]
  refine boundaryAbove_eq ?_ (by omega) (by omega) fun ix hlow hhigh => ?_
  · rcases lt_or_ge (byteLen front - first) count with hlt | hge
    · rw [window_boundary hcount hlt, Nat.add_sub_cancel' (hfrom.trans hstart)]
      exact h.frontBoundary
    · rw [getD_eq_default _ _ (by rw [window_length hcount]; exact hge)]
      rfl
  · rw [← Bool.not_eq_true, window_boundary hcount (by omega)]
    intro hboundary
    have hleast := h.least _ hboundary (by omega)
    omega

theorem Inner.rest (h : Inner text range front middle back) :
    (utf8 text).drop (byteLen front) = utf8 (middle ++ back) := by
  have happend : utf8 text = utf8 front ++ utf8 (middle ++ back) := by
    rw [h.parts]
    exact flatMap_append
  rw [happend, ← length_utf8, drop_left]

theorem take_utf8 (middle back : List Char) :
    (utf8 (middle ++ back)).take (byteLen middle) = utf8 middle := by
  have happend : utf8 (middle ++ back) = utf8 middle ++ utf8 back := flatMap_append
  rw [happend, ← length_utf8, take_left]

theorem window_slice (h : Inner text range front middle back) (hfrom : first ≤ byteLen front)
    {ix : ℕ} (hix : ix ≤ count) :
    ((window text first count).drop (byteLen front - first)).take (ix - (byteLen front - first)) =
      (utf8 (middle ++ back)).take (ix - (byteLen front - first)) := by
  rw [window, drop_take, drop_drop, Nat.add_sub_cancel' hfrom, h.rest, take_take]
  congr 1
  omega

theorem window_end (h : Inner text range front middle back) (hcount : first + count ≤ byteLen text)
    (hfrom : first ≤ byteLen front) (hfront : byteLen front ≤ first + count)
    (hstop : range.stop ≤ first + count) :
    localEndOf (window text first count) (byteLen front - first) (range.stop - first) =
      byteLen front + byteLen middle - first := by
  have hlower : byteLen front - first ≤ count := by omega
  rw [localEndOf, window_length hcount]
  refine boundaryBelow_eq ?_ ?_ fun ix hlow hhigh => ?_
  · rcases h.stop_le with hempty | hle
    · rw [hempty, byteLen_nil, add_zero, decide_eq_true (le_refl _), Bool.true_or]
    · have hsub : byteLen front + byteLen middle - first - (byteLen front - first) =
          byteLen middle := by omega
      have hvalid : fromUtf8 (utf8 middle) = .ok middle := fromUtf8_encoding middle
      rw [window_slice h hfrom (by omega), hsub, take_utf8, hvalid, Bool.or_eq_true]
      exact Or.inr rfl
  · rcases h.stop_le with hempty | hle
    · rw [hempty, byteLen_nil]
      omega
    · omega
  · have hbound : ix ≤ count := by omega
    rw [Bool.or_eq_false_iff, window_slice h hfrom hbound, decide_eq_false_iff_not]
    refine ⟨by omega, ?_⟩
    cases hread : fromUtf8 ((utf8 (middle ++ back)).take (ix - (byteLen front - first))) with
    | error e => rfl
    | ok read =>
      have hparts := congrArg byteLen h.parts
      rw [byteLen_append] at hparts
      obtain ⟨hfront, hlen⟩ := front_of_fromUtf8 (by
        show _ ≤ (utf8 (middle ++ back)).length
        rw [length_utf8]
        omega) hread
      have hboundary : Plain.IsCharBoundary text (byteLen front + byteLen read) := by
        refine ⟨front ++ read, ?_, byteLen_append front read⟩
        rw [h.parts]
        exact (prefix_append_right_inj front).mpr hfront
      have hread' : byteLen read = ix - (byteLen front - first) := by
        rw [← hlen]
        exact (length_utf8 read).symm
      have hgreatest := h.greatest _ hboundary (by omega)
      omega

theorem ascii_boundary {text : List Char} (h : isAscii text)
    (hle : offset ≤ byteLen text) : Plain.IsCharBoundary text offset := by
  induction text generalizing offset with
  | nil =>
    obtain rfl : offset = 0 := le_zero.mp hle
    exact boundary_zero []
  | cons c text ih =>
    obtain ⟨hc, htext⟩ := forall_mem_cons.mp (all_eq_true.mp h)
    have hsize : c.utf8Size = 1 := by
      have hval : c.val < 128 := by simpa using hc
      have hle : c.val ≤ 127 := UInt32.le_iff_toNat_le.mpr
        (le_of_lt_succ (UInt32.lt_iff_toNat_lt.mp hval))
      exact if_pos hle
    cases offset with
    | zero => exact boundary_zero _
    | succ offset =>
      rw [byteLen_cons, hsize] at hle
      obtain ⟨front, hfront, hlen⟩ := ih (all_eq_true.mpr htext)
        (show offset ≤ byteLen text by omega)
      refine ⟨c :: front, cons_prefix_cons.mpr ⟨rfl, hfront⟩, ?_⟩
      rw [byteLen_cons, hsize, hlen, add_comm]

theorem Inner.ends_of_boundaries (h : Inner text range front middle back)
    (hrange : range.start ≤ range.stop) (hstart : Plain.IsCharBoundary text range.start)
    (hstop : Plain.IsCharBoundary text range.stop) : Inner.resolved front middle = range := by
  have hlow := h.least _ hstart (le_refl _)
  have hge := h.start_le
  have hhigh := h.greatest _ hstop (le_refl _)
  have hupper : byteLen front + byteLen middle ≤ range.stop := by
    rcases h.stop_le with hempty | hle
    · rw [hempty, byteLen_nil]
      omega
    · exact hle
  obtain ⟨start, stop⟩ := range
  dsimp only at hlow hge hhigh hupper
  rw [Inner.resolved, le_antisymm hupper hhigh, le_antisymm hlow hge]

theorem file_resolved {slice : FileDiffLineFileSlice}
    (hstores : (FileDiffLineText.fileSlice slice).Stores text)
    (hrange : range.start ≤ range.stop) (hstop : range.stop ≤ byteLen text)
    (h : Inner text range front middle back) :
    readUtf8FileSubsliceWithRange slice.file slice.range range slice.asciiOnly =
      some (middle, Inner.resolved front middle) := by
  obtain ⟨hbound, hread, hascii⟩ := hstores
  obtain ⟨file, base, asciiOnly⟩ := slice
  dsimp only at hbound hread hascii ⊢
  have hlen : base.stop = base.start + byteLen text := by
    rw [← length_utf8]
    exact readFileBytes_length hread
  have hsat : ∀ offset ≤ byteLen text, satAdd base.start offset = base.start + offset :=
    fun offset hoffset => satAdd_eq (by omega)
  rw [readUtf8FileSubsliceWithRange, if_neg (by omega)]
  dsimp only
  rw [hsat range.start (by omega), hsat range.stop hstop]
  cases asciiOnly with
  | true =>
    have hboundary : ∀ offset ≤ byteLen text, Plain.IsCharBoundary text offset :=
      fun _ => ascii_boundary (hascii rfl)
    have hends := h.ends_of_boundaries hrange (hboundary _ (by omega)) (hboundary _ hstop)
    have hvalid : fromUtf8 (utf8 middle) = .ok middle := fromUtf8_encoding middle
    subst hends
    have hbytes := readFileBytes_inside hread hrange hstop
    simp only [Inner.resolved, Nat.add_sub_cancel_left, h.rest, take_utf8] at hbytes
    rw [if_pos rfl, readUtf8FileSlice]
    dsimp only [Inner.resolved]
    rw [hbytes, bind_eq_bind, bind_some, hvalid]
    rfl
  | false =>
    have hlow := h.start_le
    have hnear := h.near
    have hupper := h.upper_le
    have hreadStart : max (base.start + range.start - utf8SubsliceBoundaryLookaroundBytes)
        base.start = base.start + (range.start - 3) := by
      rw [utf8SubsliceBoundaryLookaroundBytes]
      omega
    have hreadEnd : min (satAdd (base.start + range.stop) utf8SubsliceBoundaryLookaroundBytes)
        base.stop = base.start + min (range.stop + 3) (byteLen text) := by
      have hlook : satAdd (base.start + range.stop) utf8SubsliceBoundaryLookaroundBytes =
          min (base.start + range.stop + 3) usizeMax := rfl
      rw [hlook]
      generalize usizeMax = limit at hbound ⊢
      omega
    have hcount : range.start - 3 + (min (range.stop + 3) (byteLen text) - (range.start - 3)) =
        min (range.stop + 3) (byteLen text) := by omega
    have hbytes := readFileBytes_inside hread
      (show range.start - 3 ≤ min (range.stop + 3) (byteLen text) by omega) (min_le_right _ _)
    rw [if_neg Bool.false_ne_true, hreadStart, hreadEnd, hbytes, bind_eq_bind, bind_some]
    generalize min (range.stop + 3) (byteLen text) - (range.start - 3) = count at hcount ⊢
    have hwindow : ((utf8 text).drop (range.start - 3)).take count =
      window text (range.start - 3) count := rfl
    have hrequested : ∀ offset, range.start - 3 ≤ offset → offset ≤ range.start - 3 + count →
        min (base.start + offset - (base.start + (range.start - 3))) count =
          offset - (range.start - 3) := by omega
    have hlocal : ∀ offset, range.start - 3 ≤ offset → offset ≤ byteLen text →
        satAdd (base.start + (range.start - 3)) (offset - (range.start - 3)) - base.start =
          offset := by
      intro offset hfirst hoffset
      rw [satAdd_eq (by omega)]
      omega
    rw [hwindow, window_length (by omega), hrequested range.start (by omega) (by omega),
      hrequested range.stop (by omega) (by omega),
      window_start h (by omega) (by omega) (by omega),
      window_end h (by omega) (by omega) (by omega) (by omega), hlocal _ (by omega) (by omega),
      hlocal _ (by omega) hupper]
    split
    · rename_i hempty
      obtain rfl : middle = [] := byteLen_eq_zero.mp (by omega)
      rfl
    · rename_i hsome
      have hvalid : fromUtf8 (utf8 middle) = .ok middle := fromUtf8_encoding middle
      have hinside : byteLen front + byteLen middle ≤ range.stop := by
        refine h.stop_le.resolve_left fun hempty => hsome ?_
        rw [hempty, byteLen_nil]
        exact Nat.le_refl _
      have hsub : byteLen front + byteLen middle - (range.start - 3) -
          (byteLen front - (range.start - 3)) = byteLen middle := by omega
      rw [window_slice h (by omega) (by omega), hsub, take_utf8, hvalid]
      rfl

end

namespace FileDiffLineText
variable {line left right : FileDiffLineText} {text : List Char} {range : Kit.Range}

theorem Stores.len_eq (h : line.Stores text) : line.len = byteLen text := by
  cases line with
  | owned stored => exact congrArg byteLen h
  | sharedSlice stored base =>
    obtain ⟨front, back, -, hfront, hback⟩ := byteSlice_eq_some.mp h.2
    rw [len]
    omega
  | sharedLine shared =>
    obtain ⟨hstart, hlen, hread⟩ := h
    have hslice : byteSlice shared.storage shared.start (satAdd shared.start shared.len) =
        some text := by rw [← hread, SharedLineText.asRef, some_get]
    obtain ⟨front, back, -, hfront, hback⟩ := byteSlice_eq_some.mp hslice
    rw [satAdd_eq ((Nat.add_le_add hstart hlen).trans (by decide))] at hback
    rw [len]
    omega
  | fileSlice slice =>
    have hlen := readFileBytes_length h.2.1
    rw [length_utf8] at hlen
    rw [len]
    omega

theorem Stores.resolved (h : line.Stores text) (hrange : range.start ≤ range.stop)
    (hstop : range.stop ≤ byteLen text) {front middle back : List Char}
    (hinner : Inner text range front middle back) :
    line.sliceTextResolved range = some (middle, Inner.resolved front middle) := by
  have hlen := h.len_eq
  unfold sliceTextResolved
  rw [if_neg (by omega)]
  have howned : ∀ stored, stored = text →
      (do
        let resolved ← resolvedUtf8TextSubsliceRange stored range
        some (strGet stored resolved, resolved)) = some (middle, Inner.resolved front middle) := by
    rintro stored rfl
    have hstored : stored = [] ++ (stored ++ []) := by simp
    have hresolved := resolved_stored hstored hrange hstop hinner
    simp only [byteLen_nil, zero_add] at hresolved
    rw [hresolved, bind_eq_bind, bind_some]
    exact congrArg (fun slice => some (slice, Inner.resolved front middle)) hinner.strGet
  cases line with
  | owned stored => exact howned stored h
  | sharedLine shared => exact howned shared.asRef h.2.2
  | sharedSlice stored base =>
    obtain ⟨before, after, hstored, hbefore, hafter⟩ := byteSlice_eq_some.mp h.2
    have hbound := h.1.trans (show isizeMax ≤ usizeMax by decide)
    have hfits : byteLen before + byteLen text ≤ byteLen stored := by
      rw [hstored, byteLen_append, byteLen_append]
      omega
    dsimp only
    rw [← hbefore, satAdd_eq (by omega), satAdd_eq (by omega),
      resolved_stored hstored hrange hstop hinner, bind_eq_bind, bind_some,
      strGet_inner hstored hinner]
    simp only [Nat.add_sub_cancel_left]
    rfl
  | fileSlice slice => exact file_resolved h hrange hstop hinner

theorem Stores.sliced (h : line.Stores text) (hrange : range.start ≤ range.stop)
    (hstop : range.stop ≤ byteLen text) {front middle back : List Char}
    (hinner : Inner text range front middle back) :
    line.sliceText range = some (strGet text range) ∨ line.sliceText range = some middle := by
  have hlen := h.len_eq
  unfold sliceText
  rw [if_neg (by omega)]
  cases line with
  | owned stored => exact Or.inl (congrArg (fun text => some (strGet text range)) h)
  | sharedLine shared => exact Or.inl (congrArg (fun text => some (strGet text range)) h.2.2)
  | sharedSlice stored base =>
    obtain ⟨before, after, hstored, hbefore, hafter⟩ := byteSlice_eq_some.mp h.2
    have hbound := h.1.trans (show isizeMax ≤ usizeMax by decide)
    have hfits : byteLen before + byteLen text ≤ byteLen stored := by
      rw [hstored, byteLen_append, byteLen_append]
      omega
    dsimp only
    rw [← hbefore, satAdd_eq (by omega), satAdd_eq (by omega),
      strGet_stored hstored hrange hstop]
    exact Or.inl rfl
  | fileSlice slice =>
    dsimp only
    rw [readUtf8FileSubslice, file_resolved h hrange hstop hinner]
    exact Or.inr rfl

theorem resolved_slices_agree (hleft : left.Stores text) (hright : right.Stores text) :
    left.sliceTextResolved range = right.sliceTextResolved range := by
  by_cases hrange : range.start > range.stop ∨ range.stop > byteLen text
  · unfold sliceTextResolved
    rw [hleft.len_eq, hright.len_eq, if_pos hrange, if_pos hrange]
  · obtain ⟨hle, hstop⟩ := not_or.mp hrange
    obtain ⟨front, middle, back, hinner⟩ := inner_exists (le_of_not_gt hle)
      (le_of_not_gt hstop)
    rw [hleft.resolved (le_of_not_gt hle) (le_of_not_gt hstop) hinner,
      hright.resolved (le_of_not_gt hle) (le_of_not_gt hstop) hinner]

def SameSlices (text : List Char) (range : Kit.Range) : Prop :=
  ∀ left right : FileDiffLineText, left.Stores text → right.Stores text →
    left.sliceText range = right.sliceText range ∧
      left.sliceTextResolved range = right.sliceTextResolved range

def CutsNothing (text : List Char) (range : Kit.Range) : Prop :=
  range.start > range.stop ∨ range.stop > byteLen text ∨
    (strIsCharBoundary text range.start = true ∧ strIsCharBoundary text range.stop = true) ∨
    ∀ low high, strIsCharBoundary text low = true → strIsCharBoundary text high = true →
      range.start ≤ low → high ≤ range.stop → high ≤ low

theorem strGet_of_cutsNothing (h : CutsNothing text range) (hrange : range.start ≤ range.stop)
    (hstop : range.stop ≤ byteLen text) {front middle back : List Char}
    (hinner : Inner text range front middle back) : strGet text range = middle := by
  by_cases hends : Plain.IsCharBoundary text range.start ∧ Plain.IsCharBoundary text range.stop
  · have hsame := hinner.ends_of_boundaries hrange hends.1 hends.2
    rw [← hsame]
    exact hinner.strGet
  · rw [strGet_of_not hends]
    rcases h with hle | hlen | hboundaries | hnone
    · omega
    · omega
    · exact absurd (hboundaries.imp strIsCharBoundary_iff.mp strIsCharBoundary_iff.mp) hends
    · rcases hinner.stop_le with hempty | hupper
      · exact hempty.symm
      · have hle := hnone _ _ (strIsCharBoundary_iff.mpr hinner.frontBoundary)
          (strIsCharBoundary_iff.mpr hinner.upperBoundary) hinner.start_le hupper
        exact (byteLen_eq_zero.mp (by omega)).symm

theorem file_stores (htext : byteLen text ≤ isizeMax) :
    (fileSlice ⟨utf8 text, ⟨0, byteLen text⟩, false⟩).Stores text := by
  refine ⟨htext.trans (by decide), ?_, fun h => nomatch h⟩
  have hwhole : ((utf8 text).drop 0).take (byteLen text - 0) = utf8 text := by
    rw [drop_zero, Nat.sub_zero, ← length_utf8, take_length]
  rw [readFileBytes, if_neg (not_lt_zero _)]
  dsimp only
  rw [hwhole]
  exact if_pos (length_utf8 text)

theorem same_slices_iff (htext : byteLen text ≤ isizeMax) :
    SameSlices text range ↔ CutsNothing text range := by
  constructor
  · intro hsame
    by_cases hrange : range.start ≤ range.stop
    case neg => exact Or.inl (Nat.lt_of_not_le hrange)
    by_cases hstop : range.stop ≤ byteLen text
    case neg => exact Or.inr (Or.inl (Nat.lt_of_not_le hstop))
    refine Or.inr (Or.inr ?_)
    obtain ⟨front, middle, back, hinner⟩ := inner_exists hrange hstop
    have howned : (owned text).sliceText range = some (strGet text range) := by
      unfold sliceText
      exact if_neg (by rw [len]; omega)
    have hfile : (fileSlice ⟨utf8 text, ⟨0, byteLen text⟩, false⟩).sliceText range =
        some middle := by
      unfold sliceText
      rw [if_neg (by rw [(file_stores htext).len_eq]; omega)]
      exact congrArg (Option.map Prod.fst) (file_resolved (file_stores htext) hrange hstop hinner)
    have hmiddle : strGet text range = middle :=
      some.inj (howned.symm.trans
        ((hsame (owned text) _ rfl (file_stores htext)).1.trans hfile))
    by_cases hends : Plain.IsCharBoundary text range.start ∧ Plain.IsCharBoundary text range.stop
    · exact Or.inl (hends.imp strIsCharBoundary_iff.mpr strIsCharBoundary_iff.mpr)
    · refine Or.inr fun low high hlow hhigh hle hge => ?_
      rw [strGet_of_not hends] at hmiddle
      have hleast := hinner.least _ (strIsCharBoundary_iff.mp hlow) hle
      have hgreatest := hinner.greatest _ (strIsCharBoundary_iff.mp hhigh) hge
      rw [← hmiddle, byteLen_nil] at hgreatest
      omega
  · intro hcuts left right hleft hright
    refine ⟨?_, resolved_slices_agree hleft hright⟩
    by_cases hrange : range.start > range.stop ∨ range.stop > byteLen text
    · unfold sliceText
      rw [hleft.len_eq, hright.len_eq, if_pos hrange, if_pos hrange]
    · obtain ⟨hle, hstop⟩ := not_or.mp hrange
      have hle := le_of_not_gt hle
      have hstop := le_of_not_gt hstop
      obtain ⟨front, middle, back, hinner⟩ := inner_exists hle hstop
      have hmiddle := strGet_of_cutsNothing hcuts hle hstop hinner
      have hsliced : ∀ line : FileDiffLineText, line.Stores text →
          line.sliceText range = some middle := fun line hline =>
        (hline.sliced hle hstop hinner).elim (fun h => hmiddle ▸ h) id
      rw [hsliced left hleft, hsliced right hright]

theorem slices_of_whole_characters : SameSlices ['a', 'é'] ⟨0, 1⟩ :=
  (same_slices_iff (by decide)).mpr (Or.inr (Or.inr (Or.inl ⟨by decide, by decide⟩)))

theorem cut_character_differs :
    ∃ left right : FileDiffLineText, left.Stores ['a', 'é'] ∧ right.Stores ['a', 'é'] ∧
      left.sliceText ⟨0, 2⟩ = some [] ∧ right.sliceText ⟨0, 2⟩ = some ['a'] := by
  have hinner : Inner ['a', 'é'] ⟨0, 2⟩ [] ['a'] ['é'] := by
    refine ⟨rfl, le_refl _, zero_le _, fun _ _ _ => zero_le _, Or.inr (by decide),
      fun offset hboundary hle => ?_⟩
    rcases lt_or_eq_of_le hle with hlt | rfl
    · exact le_of_lt_succ hlt
    · exact absurd (strIsCharBoundary_iff.mpr hboundary) (by decide)
  have hstores := @file_stores ['a', 'é'] (by decide)
  refine ⟨owned ['a', 'é'], _, rfl, hstores, by decide, ?_⟩
  exact congrArg (Option.map Prod.fst) (file_resolved hstores (by decide) (by decide) hinner)

end FileDiffLineText

end GitComet.FileDiff
