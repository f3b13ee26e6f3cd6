import GitComet.Basis.Utf8

namespace Utf8
open List ByteOrder Nat

def encoding (text : List Char) : Bytes := text.flatMap String.utf8EncodeChar

def IsContinuation (byte : UInt8) : Prop := within (0x80, 0xBF) byte

variable {n : ℕ}

section

structure Form (c : Char) (first : UInt8) (tail : Bytes) (ranges : List ByteRange) : Prop where
  leads : follow first.toNat = some ranges
  fits : Forall₂ within ranges tail
  char : charOf (first :: tail) = c

theorem toNat_byte (h : n < 256) : (UInt8.ofNat n).toNat = n := by
  rw [UInt8.toNat_ofNat']
  exact mod_eq_of_lt h

theorem charOf_eq {c : Char} {bytes : Bytes} (h : codePoint bytes = c.val.toNat) :
    charOf bytes = c := by
  rw [charOf, h]
  exact Char.ofNat_toNat c

variable (c : Char)

theorem encode_form : ∃ first tail ranges,
    String.utf8EncodeChar c = first :: tail ∧ Form c first tail ranges := by
  have hvalid : c.val.toNat < 0xD800 ∨ 0xDFFF < c.val.toNat ∧ c.val.toNat < 0x110000 := c.valid
  unfold String.utf8EncodeChar
  dsimp only
  generalize hv : c.val.toNat = v at hvalid
  split_ifs with h1 h2 h3
  · have ha := toNat_byte (n := v) (by omega)
    refine ⟨_, _, [], rfl, ?_, .nil, charOf_eq ?_⟩
    · rw [ha, follow, if_pos h1]
    · rw [codePoint, ha, hv]
  · have ha := toNat_byte (n := v / 64 % 0x20 + 0xc0) (by omega)
    have hb := toNat_byte (n := v % 0x40 + 0x80) (by omega)
    refine ⟨_, _, [(0x80, 0xBF)], rfl, ?_, .cons ?_ .nil, charOf_eq ?_⟩
    · rw [ha, follow, if_neg (by omega), if_neg (by omega), if_pos (by omega)]
    · rw [within, hb]
      exact ⟨by omega, by omega⟩
    · rw [codePoint, ha, hb, hv]
      omega
  · have ha := toNat_byte (n := v / 4096 % 0x10 + 0xe0) (by omega)
    have hb := toNat_byte (n := v / 64 % 0x40 + 0x80) (by omega)
    have hc := toNat_byte (n := v % 0x40 + 0x80) (by omega)
    obtain ⟨range, hrange, hb'⟩ : ∃ range : ByteRange,
        follow (v / 4096 % 0x10 + 0xe0) = some [range, (0x80, 0xBF)] ∧
          within range (UInt8.ofNat (v / 64 % 0x40 + 0x80)) := by
      rw [follow, if_neg (by omega), if_neg (by omega), if_neg (by omega)]
      by_cases hlow : v / 4096 % 0x10 = 0
      · refine ⟨(0xA0, 0xBF), if_pos (by omega), ?_⟩
        rw [within, hb]
        exact ⟨by omega, by omega⟩
      by_cases hhigh : v / 4096 % 0x10 = 0xd
      · refine ⟨(0x80, 0x9F), (if_neg (by omega)).trans (if_pos (by omega)), ?_⟩
        rw [within, hb]
        exact ⟨by omega, by omega⟩
      · refine ⟨(0x80, 0xBF), ?_, ?_⟩
        · rw [if_neg (by omega), if_neg (by omega), if_pos (by omega)]
        · rw [within, hb]
          exact ⟨by omega, by omega⟩
    refine ⟨_, _, [range, (0x80, 0xBF)], rfl, ?_, .cons hb' (.cons ?_ .nil), charOf_eq ?_⟩
    · rw [ha, hrange]
    · rw [within, hc]
      exact ⟨by omega, by omega⟩
    · rw [codePoint, ha, hb, hc, hv]
      omega
  · have ha := toNat_byte (n := v / 262144 % 0x08 + 0xf0) (by omega)
    have hb := toNat_byte (n := v / 4096 % 0x40 + 0x80) (by omega)
    have hc := toNat_byte (n := v / 64 % 0x40 + 0x80) (by omega)
    have hd := toNat_byte (n := v % 0x40 + 0x80) (by omega)
    obtain ⟨range, hrange, hb'⟩ : ∃ range : ByteRange,
        follow (v / 262144 % 0x08 + 0xf0) = some [range, (0x80, 0xBF), (0x80, 0xBF)] ∧
          within range (UInt8.ofNat (v / 4096 % 0x40 + 0x80)) := by
      rw [follow, if_neg (by omega), if_neg (by omega), if_neg (by omega), if_neg (by omega),
        if_neg (by omega), if_neg (by omega)]
      by_cases hlow : v / 262144 % 0x08 = 0
      · refine ⟨(0x90, 0xBF), if_pos (by omega), ?_⟩
        rw [within, hb]
        exact ⟨by omega, by omega⟩
      by_cases hhigh : v / 262144 % 0x08 = 4
      · refine ⟨(0x80, 0x8F), ?_, ?_⟩
        · rw [if_neg (by omega), if_neg (by omega), if_pos (by omega)]
        · rw [within, hb]
          exact ⟨by omega, by omega⟩
      · refine ⟨(0x80, 0xBF), (if_neg (by omega)).trans (if_pos (by omega)), ?_⟩
        rw [within, hb]
        exact ⟨by omega, by omega⟩
    refine ⟨_, _, [range, (0x80, 0xBF), (0x80, 0xBF)], rfl, ?_,
      .cons hb' (.cons ?_ (.cons ?_ .nil)), charOf_eq ?_⟩
    · rw [ha, hrange]
    · rw [within, hc]
      exact ⟨by omega, by omega⟩
    · rw [within, hd]
      exact ⟨by omega, by omega⟩
    · rw [codePoint, ha, hb, hc, hd, hv]
      omega

end

variable {text : List Char}

section

theorem scan_encode (c : Char) (rest : Bytes) :
    scan (String.utf8EncodeChar c ++ rest) = .whole ⟨c.utf8Size, c.utf8Size_pos⟩ := by
  obtain ⟨first, tail, ranges, hencode, hform⟩ := encode_form c
  have hsize : tail.length + 1 = c.utf8Size := by
    rw [← String.length_utf8EncodeChar, hencode, length_cons]
  have hscan : scan (first :: tail) = .whole ⟨c.utf8Size, c.utf8Size_pos⟩ := by
    rw [scan, hform.leads]
    refine (scanTail_fits hform.fits 0).trans (congrArg Sequence.whole (Subtype.ext ?_))
    have hlen := hform.fits.length_eq
    show 0 + ranges.length + 1 = c.utf8Size
    omega
  rw [hencode, scan_append (by rw [hscan]; rintro ⟨⟩), hscan]

theorem fromUtf8_char (c : Char) (rest : Bytes) :
    fromUtf8 (String.utf8EncodeChar c ++ rest) =
      match fromUtf8 rest with
      | .ok text => .ok (c :: text)
      | .error e => .error ⟨c.utf8Size + e.validUpTo, e.errorLen⟩ := by
  obtain ⟨first, tail, ranges, hencode, hform⟩ := encode_form c
  have hfront : (String.utf8EncodeChar c ++ rest).take c.utf8Size = String.utf8EncodeChar c := by
    rw [← String.length_utf8EncodeChar, take_left]
  have hback : (String.utf8EncodeChar c ++ rest).drop c.utf8Size = rest := by
    rw [← String.length_utf8EncodeChar, drop_left]
  have hchar : charOf (String.utf8EncodeChar c) = c := by rw [hencode, hform.char]
  rw [fromUtf8_whole (scan_encode c rest), hback, hfront]
  cases fromUtf8 rest with
  | ok text => exact congrArg (fun first => Except.ok (first :: text)) hchar
  | error e => rfl

theorem fromUtf8_encoding (text : List Char) : fromUtf8 (encoding text) = .ok text := by
  induction text with
  | nil => exact fromUtf8_nil
  | cons c text ih =>
    have hcons : encoding (c :: text) = String.utf8EncodeChar c ++ encoding text :=
      flatMap_cons
    rw [hcons, fromUtf8_char, ih]

theorem scanTail_short {ranges : List ByteRange} {tail : Bytes}
    (h : Forall₂ within ranges tail) (hn : n < tail.length) (k : ℕ) :
    scanTail ranges (tail.take n) k = .incomplete := by
  induction h generalizing n k with
  | nil => cases hn
  | cons hbyte htail ih =>
    cases n with
    | zero => rfl
    | succ n =>
      rw [take_succ_cons, scanTail, if_pos hbyte]
      exact ih (lt_of_succ_lt_succ hn) (k + 1)

theorem scan_cut {c : Char} (h : n < c.utf8Size) :
    scan ((String.utf8EncodeChar c).take n) = .incomplete := by
  obtain ⟨first, tail, ranges, hencode, hform⟩ := encode_form c
  rw [← String.length_utf8EncodeChar, hencode, length_cons] at h
  rw [hencode]
  cases n with
  | zero => rfl
  | succ n =>
    rw [take_succ_cons, scan, hform.leads]
    exact scanTail_short hform.fits (lt_of_succ_lt_succ h) 0

theorem length_encoding (text : List Char) :
    (encoding text).length = (text.map Char.utf8Size).sum := by
  simp [encoding, length_flatMap]

theorem encoding_append (left right : List Char) :
    encoding (left ++ right) = encoding left ++ encoding right :=
  flatMap_append

theorem encoding_cons (c : Char) (text : List Char) :
    encoding (c :: text) = String.utf8EncodeChar c ++ encoding text := flatMap_cons

theorem encoding_of_fromUtf8 {bytes : Bytes} {text : List Char} (h : fromUtf8 bytes = .ok text) :
    encoding text = bytes := by
  induction hlen : bytes.length using Nat.strongRecOn generalizing bytes text with
  | _ n ih =>
    cases bytes with
    | nil =>
      rw [fromUtf8_nil] at h
      cases h
      rfl
    | cons first tail =>
      cases hscan : scan (first :: tail) with
      | whole size =>
        rw [fromUtf8_whole hscan] at h
        rw [scan] at hscan
        cases hfollow : follow first.toNat with
        | none =>
          rw [hfollow] at hscan
          cases hscan
        | some ranges =>
          rw [hfollow] at hscan
          obtain ⟨hsize, front, rest, rfl, hfront⟩ := scanTail_whole hscan
          have hsize : size.val = (first :: front).length := by
            rw [hsize, zero_add, hfront.length_eq, length_cons]
          rw [← cons_append, hsize, drop_left, take_left] at h
          cases hrest : fromUtf8 rest with
          | error e =>
            rw [hrest] at h
            cases h
          | ok text =>
            rw [hrest] at h
            cases h
            have hless : rest.length < n := by
              rw [← hlen, length_cons, length_append]
              omega
            rw [encoding_cons, encode_charOf hfollow hfront, ih _ hless hrest rfl, cons_append]
      | invalid size =>
        rw [fromUtf8, hscan] at h
        cases h
      | incomplete =>
        rw [fromUtf8, hscan] at h
        cases h

theorem front_of_fromUtf8 {front : List Char} (hn : n ≤ (encoding text).length)
    (h : fromUtf8 ((encoding text).take n) = .ok front) :
    front <+: text ∧ (encoding front).length = n := by
  induction text generalizing n front with
  | nil =>
    obtain rfl : n = 0 := Nat.le_zero.mp hn
    rw [take_zero, fromUtf8_nil] at h
    cases h
    exact ⟨ nil_prefix, rfl⟩
  | cons c text ih =>
    have hsize := String.length_utf8EncodeChar c
    rw [encoding_cons] at h hn
    rcases Nat.eq_zero_or_pos n with rfl | hpos
    · rw [take_zero, fromUtf8_nil] at h
      cases h
      exact ⟨ nil_prefix, rfl⟩
    rcases Nat.lt_or_ge n c.utf8Size with hcut | hwhole
    · have htake : (String.utf8EncodeChar c ++ encoding text).take n =
          (String.utf8EncodeChar c).take n := take_append_of_le_length (by omega)
      have hscan := scan_cut hcut
      rw [htake] at h
      cases hbytes : (String.utf8EncodeChar c).take n with
      | nil =>
        have hlen := congrArg length hbytes
        rw [length_take, hsize, length_nil] at hlen
        omega
      | cons first rest =>
        rw [hbytes] at h hscan
        rw [fromUtf8, hscan] at h
        cases h
    · have htake : (String.utf8EncodeChar c ++ encoding text).take n =
          String.utf8EncodeChar c ++ (encoding text).take (n - c.utf8Size) := by
        rw [take_append, hsize, take_of_length_le (by omega)]
      rw [length_append, hsize] at hn
      rw [htake, fromUtf8_char] at h
      cases hrest : fromUtf8 ((encoding text).take (n - c.utf8Size)) with
      | error e =>
        rw [hrest] at h
        cases h
      | ok rest =>
        rw [hrest] at h
        cases h
        obtain ⟨hfront, hlen⟩ := ih (by omega) hrest
        refine ⟨prefix_cons_inj c |>.mpr hfront, ?_⟩
        rw [encoding_cons, length_append, hsize, hlen]
        omega

end

variable {byte : UInt8}

section

def Boundary (text : List Char) (offset : ℕ) : Prop :=
  ∃ front, front <+: text ∧ (encoding front).length = offset

theorem boundary_zero (text : List Char) : Boundary text 0 := ⟨[], nil_prefix, rfl⟩

variable {offset : ℕ}

theorem boundary_cons {c : Char} (h : c.utf8Size ≤ offset) :
    Boundary (c :: text) offset ↔ Boundary text (offset - c.utf8Size) := by
  have hpos := c.utf8Size_pos
  have hsize := String.length_utf8EncodeChar c
  constructor
  · rintro ⟨front, hfront, hlen⟩
    cases front with
    | nil =>
      have hzero : 0 = offset := hlen
      omega
    | cons d front =>
      obtain ⟨rfl, hrest⟩ := cons_prefix_cons.mp hfront
      rw [encoding_cons, length_append, hsize] at hlen
      exact ⟨front, hrest, by omega⟩
  · rintro ⟨front, hfront, hlen⟩
    refine ⟨c :: front, cons_prefix_cons.mpr ⟨rfl, hfront⟩, ?_⟩
    rw [encoding_cons, length_append, hsize, hlen]
    omega

theorem boundary_inside {c : Char} (hpos : 0 < offset)
    (h : offset < c.utf8Size) : ¬Boundary (c :: text) offset := by
  rintro ⟨front, hfront, hlen⟩
  cases front with
  | nil =>
    have hzero : 0 = offset := hlen
    omega
  | cons d front =>
    obtain ⟨rfl, -⟩ := cons_prefix_cons.mp hfront
    rw [encoding_cons, length_append, String.length_utf8EncodeChar] at hlen
    omega

theorem continuation_of_within {first : ℕ} {ranges : List ByteRange} {tail : Bytes}
    (hfollow : follow first = some ranges) (htail : Forall₂ within ranges tail) :
    ∀ byte ∈ tail, IsContinuation byte := by
  have hranges := (follow_spec hfollow).2
  clear hfollow
  induction htail with
  | nil => simp
  | cons hbyte _ ih =>
    obtain ⟨⟨hlow, -, hhigh⟩, hrest⟩ := forall_mem_cons.mp hranges
    exact forall_mem_cons.mpr ⟨within_wide hlow hhigh hbyte, ih hrest⟩

theorem continuation_iff (h : (encoding text)[offset]? = some byte) :
    IsContinuation byte ↔ ¬Boundary text offset := by
  induction text generalizing offset with
  | nil => cases h
  | cons c text ih =>
    obtain ⟨first, tail, ranges, hencode, hform⟩ := encode_form c
    have hsize : tail.length + 1 = c.utf8Size := by
      rw [← String.length_utf8EncodeChar, hencode, length_cons]
    rw [encoding_cons, hencode] at h
    rcases lt_or_ge offset c.utf8Size with hin | hout
    · rw [getElem?_append_left (by rw [length_cons]; omega)] at h
      cases offset with
      | zero =>
        cases h
        refine iff_of_false (fun hcont => ?_) (not_not_intro (boundary_zero _))
        have hnone := follow_continuation hcont.1 hcont.2
        rw [hform.leads] at hnone
        cases hnone
      | succ offset =>
        rw [getElem?_cons_succ] at h
        exact iff_of_true (continuation_of_within hform.leads hform.fits byte (mem_of_getElem? h))
          (boundary_inside (succ_pos _) hin)
    · rw [getElem?_append_right (by rw [length_cons]; omega), length_cons,
        hsize] at h
      rw [ih h, boundary_cons hout]

end

section

theorem ascii_mem_encode {c : Char} (hbyte : byte.toNat < 0x80)
    (h : byte ∈ String.utf8EncodeChar c) : c = Char.ofNat byte.toNat := by
  obtain ⟨first, tail, ranges, hencode, hform⟩ := encode_form c
  rw [hencode] at h
  rcases mem_cons.mp h with rfl | htail
  · have hleads := hform.leads
    rw [follow, if_pos (by omega)] at hleads
    cases hleads
    have hchar := hform.char
    rw [forall₂_nil_left_iff.mp hform.fits] at hchar
    exact hchar.symm
  · have hcont := (continuation_of_within hform.leads hform.fits byte htail).1
    dsimp only at hcont
    omega

theorem ascii_mem_encoding (hbyte : byte.toNat < 0x80)
    (h : byte ∈ encoding text) : Char.ofNat byte.toNat ∈ text := by
  obtain ⟨c, hc, hmem⟩ := mem_flatMap.mp h
  rwa [← ascii_mem_encode hbyte hmem]

theorem encoding_prefix {left right : List Char} :
    encoding left <+: encoding right ↔ left <+: right := by
  constructor
  · intro h
    have htake := prefix_iff_eq_take.mp h
    have hread := fromUtf8_encoding left
    rw [htake] at hread
    exact (front_of_fromUtf8 h.length_le hread).1
  · rintro ⟨rest, rfl⟩
    rw [encoding_append]
    exact prefix_append _ _

end

end Utf8
