import Mathlib.Data.Nat.Digits.Defs
import GitComet.Basis.ByteOrder
import GitComet.Text.Lines

variable {bytes : Bytes}

namespace GitComet.Text.Hex
open ByteOrder Nat List

def nibble (c : Char) : Option UInt8 :=
  if '0' ≤ c ∧ c ≤ '9' then some (UInt8.ofNat (c.toNat - '0'.toNat))
  else if 'a' ≤ c ∧ c ≤ 'f' then some (UInt8.ofNat (c.toNat - 'a'.toNat + 10))
  else if 'A' ≤ c ∧ c ≤ 'F' then some (UInt8.ofNat (c.toNat - 'A'.toNat + 10))
  else none

-- A character outside ASCII takes several bytes, and none of them is a digit.
def decode : List Char → Option Bytes
  | [] => some []
  | [_] => none
  | high :: low :: text => do
    let high ← nibble high
    let low ← nibble low
    let out ← decode text
    some ((high * 16 + low) :: out)

def digits : List Char := "0123456789abcdef".toList

def digit (n : UInt8) : Char := digits.getD n.toNat '0'

def encode : Bytes → List Char
  | [] => []
  | byte :: bytes => digit (byte / 16) :: digit (byte % 16) :: encode bytes

def pairs : List Char → List (Char × Char)
  | high :: low :: text => (high, low) :: pairs text
  | _ => []

def pairMatches (byte : UInt8) (pair : Char × Char) : Bool :=
  match nibble pair.1, nibble pair.2 with
  | some high, some low => byte == high * 16 + low
  | _, _ => false

def matchesHex (bytes : Bytes) (hex : List Char) : Bool :=
  hex.length == bytes.length * 2 &&
    (bytes.zip (pairs hex)).all fun entry => pairMatches entry.1 entry.2

theorem pairMatches_iff {byte : UInt8} {pair : Char × Char} : pairMatches byte pair ↔
    ∃ high low, nibble pair.1 = some high ∧ nibble pair.2 = some low ∧ byte = high * 16 + low := by
  rw [pairMatches]
  cases nibble pair.1 with
  | none => simp
  | some high =>
    cases nibble pair.2 with
    | none => simp
    | some low => simp

theorem decode_cons_cons (high low : Char) (text : List Char) (byte : UInt8) (bytes : Bytes) :
    decode (high :: low :: text) = some (byte :: bytes) ↔
      pairMatches byte (high, low) ∧ decode text = some bytes := by
  rw [pairMatches_iff, decode]
  cases nibble high with
  | none => simp
  | some high =>
    cases nibble low with
    | none => simp
    | some low =>
      cases decode text with
      | none => simp
      | some out => simp [eq_comm]

theorem matchesHex_iff {hex : List Char} :
    matchesHex bytes hex ↔ decode hex = some bytes := by
  induction bytes generalizing hex with
  | nil =>
    match hex with
    | [] => simp [matchesHex, decode]
    | [_] => simp [matchesHex, decode]
    | high :: low :: text =>
      rw [decode]
      cases nibble high <;> cases nibble low <;> cases decode text <;> simp [matchesHex]
  | cons byte bytes ih =>
    match hex with
    | [] => simp [matchesHex, decode]
    | [_] =>
      simp only [matchesHex, decode, Bool.and_eq_true, beq_iff_eq, length_cons,
        length_nil]
      constructor
      · rintro ⟨hlen, -⟩
        omega
      · intro h
        cases h
    | high :: low :: text =>
      rw [decode_cons_cons, ← ih]
      simp only [matchesHex, pairs, zip_cons_cons, all_cons, length_cons,
        Bool.and_eq_true, beq_iff_eq, add_mul]
      constructor
      · rintro ⟨hlen, hpair, hall⟩
        exact ⟨hpair, by omega, hall⟩
      · rintro ⟨hpair, hlen, hall⟩
        exact ⟨by omega, hpair, hall⟩

end GitComet.Text.Hex

namespace GitComet.Text.Hex
open ByteOrder

def nibbles : Bytes → List ℕ
  | [] => []
  | byte :: bytes => byte.toNat / 16 :: byte.toNat % 16 :: nibbles bytes

def hexValue (values : List ℕ) : ℕ := Nat.ofDigits 16 values.reverse

@[simp] theorem nibbles_length (bytes : Bytes) : (nibbles bytes).length = 2 * bytes.length := by
  induction bytes with
  | nil => rfl
  | cons byte bytes ih =>
    rw [nibbles, List.length_cons, List.length_cons, ih, List.length_cons]
    omega

@[simp] theorem nibbles_append (front back : Bytes) :
    nibbles (front ++ back) = nibbles front ++ nibbles back := by
  induction front with
  | nil => rfl
  | cons byte front ih => rw [List.cons_append, nibbles, ih, nibbles]; rfl

theorem nibbles_lt : ∀ value ∈ nibbles bytes, value < 16 := by
  induction bytes with
  | nil => simp [nibbles]
  | cons byte bytes ih =>
    have hbyte : byte.toNat < 256 := byte.toNat_lt
    intro value hvalue
    rw [nibbles, List.mem_cons, List.mem_cons] at hvalue
    rcases hvalue with rfl | rfl | hvalue
    · omega
    · omega
    · exact ih value hvalue

theorem nibbles_replicate (count : ℕ) (byte : UInt8) {value : ℕ} (hhigh : byte.toNat / 16 = value)
    (hlow : byte.toNat % 16 = value) :
    nibbles (List.replicate count byte) = List.replicate (2 * count) value := by
  induction count with
  | zero => rfl
  | succ count ih =>
    rw [List.replicate_succ, nibbles, ih, hhigh, hlow, Nat.mul_succ, List.replicate_succ,
      List.replicate_succ]

theorem nibbles_take (bytes : Bytes) (n : ℕ) :
    nibbles (bytes.take n) = (nibbles bytes).take (2 * n) := by
  induction bytes generalizing n with
  | nil => simp [nibbles]
  | cons byte bytes ih =>
    cases n with
    | zero => rfl
    | succ n => rw [List.take_succ_cons, nibbles, ih, nibbles, Nat.mul_succ, List.take_succ_cons,
        List.take_succ_cons]

theorem hexValue_append (front back : List ℕ) :
    hexValue (front ++ back) = hexValue front * 16 ^ back.length + hexValue back := by
  rw [hexValue, List.reverse_append, Nat.ofDigits_append, List.length_reverse, ← hexValue,
    ← hexValue, Nat.add_comm, Nat.mul_comm]

variable {values : List ℕ}

theorem hexValue_lt (h : ∀ value ∈ values, value < 16) : hexValue values < 16 ^ values.length := by
  rw [← List.length_reverse]
  exact Nat.ofDigits_lt_base_pow_length (by omega) fun value hvalue =>
    h value (List.mem_reverse.mp hvalue)

theorem hexValue_inj {values' : List ℕ} (hlength : values.length = values'.length)
    (h : ∀ value ∈ values, value < 16) (h' : ∀ value ∈ values', value < 16)
    (hvalue : hexValue values = hexValue values') : values = values' := by
  refine List.reverse_injective (Nat.ofDigits_inj_of_len_eq (b := 16) (by omega) ?_ ?_ ?_ hvalue)
  · rw [List.length_reverse, List.length_reverse, hlength]
  · exact fun value hmem => h value (List.mem_reverse.mp hmem)
  · exact fun value hmem => h' value (List.mem_reverse.mp hmem)

theorem bigEndian_eq_hexValue (bytes : Bytes) : bigEndian bytes = hexValue (nibbles bytes) := by
  induction bytes with
  | nil => rfl
  | cons byte bytes ih =>
    have hbyte : hexValue [byte.toNat / 16, byte.toNat % 16] = byte.toNat := by
      simp only [hexValue, List.reverse_cons, List.reverse_nil, List.nil_append,
        List.singleton_append, Nat.ofDigits_cons, Nat.ofDigits_nil]
      omega
    have hsplit := hexValue_append [byte.toNat / 16, byte.toNat % 16] (nibbles bytes)
    rw [List.cons_append, List.singleton_append, hbyte, nibbles_length, Nat.pow_mul] at hsplit
    rw [bigEndian, nibbles, hsplit, ih]

theorem hexValue_highest (count : ℕ) : hexValue (List.replicate count 15) + 1 = 16 ^ count := by
  rw [hexValue, List.reverse_replicate]
  induction count with
  | zero => rfl
  | succ count ih =>
    rw [List.replicate_succ, Nat.ofDigits_cons, Nat.pow_succ, ← ih]
    omega

theorem starts_iff_between {front : List ℕ} (hfront : ∀ value ∈ front, value < 16)
    (hvalues : ∀ value ∈ values, value < 16) {rest : ℕ}
    (hlength : values.length = front.length + rest) :
    front <+: values ↔ hexValue (front ++ List.replicate rest 0) ≤ hexValue values ∧
      hexValue values ≤ hexValue (front ++ List.replicate rest 15) := by
  obtain ⟨start, back, rfl, hstart⟩ : ∃ start back, values = start ++ back ∧
      start.length = front.length :=
    ⟨values.take front.length, values.drop front.length, (List.take_append_drop _ _).symm,
      List.length_take_of_le (by omega)⟩
  have hback : back.length = rest := by
    rw [List.length_append] at hlength
    omega
  have hlow : hexValue (List.replicate rest 0) = 0 := by
    rw [hexValue, List.reverse_replicate, Nat.ofDigits_replicate_zero]
  have hhigh := hexValue_highest rest
  have hlt := hexValue_lt fun value hvalue => hvalues value (List.mem_append_right start hvalue)
  have hequal : front <+: start ++ back ↔ hexValue front = hexValue start := by
    constructor
    · intro h
      have hsame := List.prefix_of_prefix_length_le h (List.prefix_append start back)
        (le_of_eq hstart.symm)
      rw [hsame.eq_of_length hstart.symm]
    · intro h
      rw [hexValue_inj hstart.symm hfront
        (fun value hvalue => hvalues value (List.mem_append_left back hvalue)) h]
      exact List.prefix_append _ _
  rw [hequal, hexValue_append, hexValue_append, hexValue_append, hlow, hback, List.length_replicate,
    List.length_replicate]
  rw [hback] at hlt
  generalize hexValue front = a at *
  generalize hexValue start = b at *
  generalize hexValue back = c at *
  generalize hexValue (List.replicate rest 15) = top at *
  constructor
  · rintro rfl
    omega
  · rintro ⟨hmin, hmax⟩
    have hab : a < b + 1 := by
      refine Nat.lt_of_mul_lt_mul_right (a := 16 ^ rest) ?_
      rw [Nat.succ_mul]
      omega
    have hba : b < a + 1 := by
      refine Nat.lt_of_mul_lt_mul_right (a := 16 ^ rest) ?_
      rw [Nat.succ_mul]
      omega
    omega

theorem encode_eq_nibbles (bytes : Bytes) :
    encode bytes = (nibbles bytes).map fun value => digits.getD value '0' := by
  induction bytes with
  | nil => rfl
  | cons byte bytes ih =>
    rw [encode, nibbles, List.map_cons, List.map_cons, ih, digit, digit, UInt8.toNat_div,
      UInt8.toNat_mod]
    rfl

theorem digits_inj : ∀ value < 16, ∀ value' < 16,
    digits.getD value '0' = digits.getD value' '0' → value = value' := by decide

set_option maxRecDepth 2000 in
theorem nibble_low : ∀ n < 103, (nibble (Char.ofNat n)).all (fun value =>
    value.toNat < 16 ∧ (Char.ofNat n).toLower = digits.getD value.toNat '0') := by decide

variable {c : Char}

theorem utf8Size_low (h : c.toNat < 103) : c.utf8Size = 1 := by
  rw [Char.utf8Size_eq_one_iff, UInt32.le_iff_toNat_le]
  exact le_of_lt (lt_of_lt_of_le h (by decide))

variable {value : UInt8}

theorem nibble_low_char (h : nibble c = some value) : c.toNat < 103 := by
  have hle : ∀ {low high : Char}, low ≤ c ∧ c ≤ high → c.toNat ≤ high.toNat := fun h => h.2
  rw [nibble] at h
  split at h
  · exact lt_of_le_of_lt (hle ‹_›) (by decide)
  split at h
  · exact lt_of_le_of_lt (hle ‹_›) (by decide)
  split at h
  · exact lt_of_le_of_lt (hle ‹_›) (by decide)
  · cases h

theorem nibble_spec (h : nibble c = some value) :
    value.toNat < 16 ∧ c.toLower = digits.getD value.toNat '0' := by
  have hspec := nibble_low c.toNat (nibble_low_char h)
  rw [Char.ofNat_toNat, h] at hspec
  exact of_decide_eq_true hspec

set_option maxRecDepth 2000 in
theorem nibble_some_low : ∀ n < 103, (Char.ofNat n).toLower ∈ digits →
    (nibble (Char.ofNat n)).isSome := by decide

theorem lower_digit_lt (h : c.toLower ∈ digits) : c.toNat < 103 := by
  have hdigits : (digits.all fun d => decide (d.toNat < 103)) := by decide
  have hlower := of_decide_eq_true (List.all_eq_true.mp hdigits _ h)
  unfold Char.toLower at hlower
  split at hlower
  · rename_i hupper
    exact lt_of_le_of_lt hupper.2 (by decide)
  · exact hlower

theorem nibble_isSome (h : c.toLower ∈ digits) : (nibble c).isSome := by
  have hsome := nibble_some_low c.toNat (lower_digit_lt h)
  rw [Char.ofNat_toNat] at hsome
  exact hsome h

variable {text : List Char}

theorem lower_prefix_iff {values : List UInt8}
    (h : List.Forall₂ (fun c value => nibble c = some value) text values) (bytes : Bytes) :
    text.map Char.toLower <+: encode bytes ↔ values.map UInt8.toNat <+: nibbles bytes := by
  rw [encode_eq_nibbles]
  have hlt : ∀ value ∈ nibbles bytes, value < 16 := nibbles_lt
  generalize nibbles bytes = all at hlt
  induction h generalizing all with
  | nil => simp
  | cons hc _ ih =>
    obtain ⟨hvalue, hlower⟩ := nibble_spec hc
    cases all with
    | nil => simp
    | cons first all =>
      have hrest := ih all fun value hmem => hlt value (List.mem_cons_of_mem _ hmem)
      rw [List.map_cons, List.map_cons, List.map_cons, List.cons_prefix_cons,
        List.cons_prefix_cons, hlower]
      refine and_congr ⟨fun heq => ?_, fun heq => by rw [heq]⟩ hrest
      exact digits_inj _ hvalue _ (hlt first List.mem_cons_self) heq

def upperDigits : List Char := "ABCDEF".toList

set_option maxRecDepth 2000 in
theorem lower_nibble_low : ∀ n < 103, Char.ofNat n ∉ upperDigits →
    (nibble (Char.ofNat n)).all (fun value => Char.ofNat n = digit value) := by decide

theorem digit_of_nibble (h : nibble c = some value)
    (hlower : c ∉ upperDigits) : c = digit value := by
  have hspec := lower_nibble_low c.toNat (nibble_low_char h)
  rw [Char.ofNat_toNat, h] at hspec
  exact of_decide_eq_true (hspec hlower)

theorem nibble_digit (h : value.toNat < 16) : nibble (digit value) = some value := by
  have hall : ∀ n < 16, nibble (digit (UInt8.ofNat n)) = some (UInt8.ofNat n) := by decide
  have := hall value.toNat h
  rwa [UInt8.ofNat_toNat] at this

theorem byte_digits {high low : UInt8} (hhigh : high.toNat < 16) (hlow : low.toNat < 16) :
    (high * 16 + low) / 16 = high ∧ (high * 16 + low) % 16 = low := by
  have hvalue : (high * 16 + low).toNat = high.toNat * 16 + low.toNat := by
    rw [UInt8.toNat_add, UInt8.toNat_mul]
    change (high.toNat * 16 % 256 + low.toNat) % 256 = _
    omega
  constructor
  · rw [← UInt8.toNat_inj, UInt8.toNat_div, hvalue]
    change (high.toNat * 16 + low.toNat) / 16 = _
    omega
  · rw [← UInt8.toNat_inj, UInt8.toNat_mod, hvalue]
    change (high.toNat * 16 + low.toNat) % 16 = _
    omega

theorem byte_split (byte : UInt8) : byte / 16 * 16 + byte % 16 = byte ∧ (byte / 16).toNat < 16 ∧
    (byte % 16).toNat < 16 := by
  have hbyte : byte.toNat < 256 := byte.toNat_lt
  have hhigh : (byte / 16).toNat = byte.toNat / 16 := UInt8.toNat_div byte 16
  have hlow : (byte % 16).toNat = byte.toNat % 16 := UInt8.toNat_mod byte 16
  refine ⟨?_, by omega, by omega⟩
  rw [← UInt8.toNat_inj, UInt8.toNat_add, UInt8.toNat_mul, hhigh, hlow]
  change (byte.toNat / 16 * 16 % 256 + byte.toNat % 16) % 256 = byte.toNat
  omega

theorem decode_encode (bytes : Bytes) : decode (encode bytes) = some bytes := by
  induction bytes with
  | nil => rfl
  | cons byte bytes ih =>
    obtain ⟨hsplit, hhigh, hlow⟩ := byte_split byte
    simp only [encode, decode, nibble_digit hhigh, nibble_digit hlow, ih, Option.bind_eq_bind,
      Option.bind_some, hsplit]

theorem decode_lower (hlower : ∀ c ∈ text, c ∉ upperDigits) :
    decode text = some bytes ↔ text = encode bytes := by
  refine ⟨fun h => ?_, fun h => h ▸ decode_encode bytes⟩
  induction text using decode.induct generalizing bytes with
  | case1 =>
    cases h
    rfl
  | case2 => cases h
  | case3 high low text ih =>
    rw [decode] at h
    obtain ⟨highValue, hhigh, h⟩ := Option.bind_eq_some_iff.mp h
    obtain ⟨lowValue, hlow, h⟩ := Option.bind_eq_some_iff.mp h
    obtain ⟨out, hout, h⟩ := Option.bind_eq_some_iff.mp h
    cases h
    obtain ⟨hdiv, hmod⟩ := byte_digits (nibble_spec hhigh).1 (nibble_spec hlow).1
    rw [encode, hdiv, hmod, ← digit_of_nibble hhigh (hlower _ (by simp)),
      ← digit_of_nibble hlow (hlower _ (by simp)),
      ← ih (fun c hc => hlower c (by simp [hc])) hout]

theorem decode_byteLen (h : decode text = some bytes) : byteLen text = bytes.length * 2 := by
  induction text using decode.induct generalizing bytes with
  | case1 =>
    cases h
    rfl
  | case2 => cases h
  | case3 high low text ih =>
    rw [decode] at h
    obtain ⟨highValue, hhigh, h⟩ := Option.bind_eq_some_iff.mp h
    obtain ⟨lowValue, hlow, h⟩ := Option.bind_eq_some_iff.mp h
    obtain ⟨out, hout, h⟩ := Option.bind_eq_some_iff.mp h
    cases h
    rw [byteLen_cons, byteLen_cons, utf8Size_low (nibble_low_char hhigh),
      utf8Size_low (nibble_low_char hlow), ih hout, List.length_cons]
    omega

end GitComet.Text.Hex
