import GitComet.Basis.ByteOrder
import Mathlib.Data.List.Forall2

namespace Utf8
open List Nat ByteOrder

abbrev ByteRange := ℕ × ℕ

def within (range : ByteRange) (byte : UInt8) : Prop :=
  range.1 ≤ byte.toNat ∧ byte.toNat ≤ range.2

instance (range : ByteRange) (byte : UInt8) : Decidable (within range byte) :=
  inferInstanceAs (Decidable (_ ∧ _))

def follow (first : ℕ) : Option (List ByteRange) :=
  if first ≤ 0x7F then some []
  else if first < 0xC2 then none
  else if first ≤ 0xDF then some [(0x80, 0xBF)]
  else if first = 0xE0 then some [(0xA0, 0xBF), (0x80, 0xBF)]
  else if first = 0xED then some [(0x80, 0x9F), (0x80, 0xBF)]
  else if first ≤ 0xEF then some [(0x80, 0xBF), (0x80, 0xBF)]
  else if first = 0xF0 then some [(0x90, 0xBF), (0x80, 0xBF), (0x80, 0xBF)]
  else if first ≤ 0xF3 then some [(0x80, 0xBF), (0x80, 0xBF), (0x80, 0xBF)]
  else if first = 0xF4 then some [(0x80, 0x8F), (0x80, 0xBF), (0x80, 0xBF)]
  else none

abbrev Size := { n : ℕ // 0 < n }

inductive Sequence where
  | whole (size : Size)
  | invalid (size : Size)
  | incomplete
  deriving DecidableEq

def scanTail : List ByteRange → Bytes → ℕ → Sequence
  | [], _, n => .whole ⟨n + 1, n.succ_pos⟩
  | _ :: _, [], _ => .incomplete
  | range :: ranges, byte :: bytes, n =>
    if within range byte then scanTail ranges bytes (n + 1) else .invalid ⟨n + 1, n.succ_pos⟩

attribute [local simp] scanTail

def scan : Bytes → Sequence
  | [] => .incomplete
  | first :: bytes =>
    match follow first.toNat with
    | none => .invalid ⟨1, Nat.one_pos⟩
    | some ranges => scanTail ranges bytes 0

def codePoint : Bytes → ℕ
  | [a] => a.toNat
  | [a, b] => a.toNat % 0x20 * 0x40 + b.toNat % 0x40
  | [a, b, c] => a.toNat % 0x10 * 0x1000 + b.toNat % 0x40 * 0x40 + c.toNat % 0x40
  | [a, b, c, d] =>
    a.toNat % 0x08 * 0x40000 + b.toNat % 0x40 * 0x1000 + c.toNat % 0x40 * 0x40 + d.toNat % 0x40
  | _ => 0

attribute [local simp] codePoint

def charOf (bytes : Bytes) : Char := Char.ofNat (codePoint bytes)

structure Utf8Error where
  validUpTo : ℕ
  errorLen : Option Size

def fromUtf8 : Bytes → Except Utf8Error (List Char)
  | [] => .ok []
  | first :: bytes =>
    match scan (first :: bytes) with
    | .whole size =>
      match fromUtf8 ((first :: bytes).drop size) with
      | .ok text => .ok (charOf ((first :: bytes).take size) :: text)
      | .error e => .error ⟨size + e.validUpTo, e.errorLen⟩
    | .invalid size => .error ⟨0, some size⟩
    | .incomplete => .error ⟨0, none⟩
termination_by bytes => bytes.length
decreasing_by
  have := size.property
  rw [length_drop, length_cons]
  omega

variable {ranges : List ByteRange} {n : ℕ} {size : Size}

section

theorem scanTail_whole {bytes : Bytes} (h : scanTail ranges bytes n = .whole size) :
    size.val = n + ranges.length + 1 ∧
      ∃ tail rest, bytes = tail ++ rest ∧ Forall₂ within ranges tail := by
  induction ranges generalizing bytes n with
  | nil =>
    cases h
    exact ⟨rfl, [], bytes, rfl, .nil⟩
  | cons range ranges ih =>
    cases bytes with
    | nil => cases h
    | cons byte bytes =>
      rw [scanTail] at h
      split_ifs at h with hbyte
      obtain ⟨hsize, tail, rest, rfl, htail⟩ := ih h
      refine ⟨?_, byte :: tail, rest, rfl, .cons hbyte htail⟩
      rw [hsize, length_cons]
      omega

theorem scanTail_incomplete {bytes : Bytes} (h : scanTail ranges bytes n = .incomplete) :
    ∃ met left, ranges = met ++ left ∧ left ≠ [] ∧ Forall₂ within met bytes := by
  induction ranges generalizing bytes n with
  | nil => cases h
  | cons range ranges ih =>
    cases bytes with
    | nil => exact ⟨[], range :: ranges, rfl, cons_ne_nil _ _, .nil⟩
    | cons byte bytes =>
      rw [scanTail] at h
      split_ifs at h with hbyte
      obtain ⟨met, left, rfl, hleft, hmet⟩ := ih h
      exact ⟨range :: met, left, rfl, hleft, .cons hbyte hmet⟩

theorem scanTail_append {bytes : Bytes} (h : scanTail ranges bytes n ≠ .incomplete) (more : Bytes) :
    scanTail ranges (bytes ++ more) n = scanTail ranges bytes n := by
  induction ranges generalizing bytes n with
  | nil => rfl
  | cons range ranges ih =>
    cases bytes with
    | nil => exact absurd rfl h
    | cons byte bytes =>
      rw [scanTail] at h
      rw [cons_append, scanTail, scanTail]
      split_ifs at h ⊢
      · exact ih h
      · rfl

theorem scan_append {bytes : Bytes} (h : scan bytes ≠ .incomplete) (more : Bytes) :
    scan (bytes ++ more) = scan bytes := by
  cases bytes with
  | nil => exact absurd rfl h
  | cons first bytes =>
    rw [scan] at h
    rw [cons_append, scan, scan]
    cases hfollow : follow first.toNat with
    | none => rfl
    | some ranges =>
      rw [hfollow] at h
      exact scanTail_append h more

theorem follow_spec {first : ℕ} (h : follow first = some ranges) :
    ranges.length ≤ 3 ∧ ∀ range ∈ ranges, 0x80 ≤ range.1 ∧ range.1 ≤ range.2 ∧ range.2 ≤ 0xBF := by
  rw [follow] at h
  split_ifs at h <;> obtain rfl := Option.some.inj h <;> decide

theorem follow_continuation {first : ℕ} (hlow : 0x80 ≤ first) (hhigh : first ≤ 0xBF) :
    follow first = none := by
  rw [follow, if_neg (by omega), if_pos (by omega)]

end

variable {byte : UInt8}

section

theorem val_charOf {bytes : Bytes} (h : (codePoint bytes).isValidChar) :
    (charOf bytes).val.toNat = codePoint bytes := by
  rw [charOf, Char.ofNat, dif_pos h]
  rfl

theorem cons_ofNat {codes bytes : Bytes} (hbyte : n = byte.toNat)
    (hbytes : codes = bytes) : UInt8.ofNat n :: codes = byte :: bytes := by
  rw [hbyte, UInt8.ofNat_toNat, hbytes]

variable {a b c d : UInt8}

theorem encode_one (ha : a.toNat ≤ 0x7F) : String.utf8EncodeChar (charOf [a]) = [a] := by
  have hval : (charOf [a]).val.toNat = a.toNat := val_charOf (.inl (by
    rw [codePoint]
    omega))
  rw [String.utf8EncodeChar, hval, if_pos ha]
  exact cons_ofNat rfl rfl

theorem encode_two (ha : 0xC2 ≤ a.toNat ∧ a.toNat ≤ 0xDF) (hb : within (0x80, 0xBF) b) :
    String.utf8EncodeChar (charOf [a, b]) = [a, b] := by
  have hb' : 0x80 ≤ b.toNat ∧ b.toNat ≤ 0xBF := hb
  have hval : (charOf [a, b]).val.toNat = a.toNat % 0x20 * 0x40 + b.toNat % 0x40 :=
    val_charOf (.inl (by
      rw [codePoint]
      omega))
  rw [String.utf8EncodeChar, hval, if_neg (by omega), if_pos (by omega)]
  exact cons_ofNat (by omega) (cons_ofNat (by omega) rfl)

theorem encode_three (ha : 0xE0 ≤ a.toNat ∧ a.toNat ≤ 0xEF) (hb : within (0x80, 0xBF) b)
    (hc : within (0x80, 0xBF) c) (hlong : a.toNat = 0xE0 → 0xA0 ≤ b.toNat)
    (hsurrogate : a.toNat = 0xED → b.toNat ≤ 0x9F) :
    String.utf8EncodeChar (charOf [a, b, c]) = [a, b, c] := by
  have hb' : 0x80 ≤ b.toNat ∧ b.toNat ≤ 0xBF := hb
  have hc' : 0x80 ≤ c.toNat ∧ c.toNat ≤ 0xBF := hc
  have hvalid : (codePoint [a, b, c]).isValidChar := by
    rw [codePoint, Nat.isValidChar]
    omega
  have hval : (charOf [a, b, c]).val.toNat =
      a.toNat % 0x10 * 0x1000 + b.toNat % 0x40 * 0x40 + c.toNat % 0x40 := val_charOf hvalid
  rw [String.utf8EncodeChar, hval, if_neg (by omega), if_neg (by omega), if_pos (by omega)]
  exact cons_ofNat (by omega) (cons_ofNat (by omega) (cons_ofNat (by omega) rfl))

theorem encode_four (ha : 0xF0 ≤ a.toNat ∧ a.toNat ≤ 0xF4) (hb : within (0x80, 0xBF) b)
    (hc : within (0x80, 0xBF) c) (hd : within (0x80, 0xBF) d)
    (hlong : a.toNat = 0xF0 → 0x90 ≤ b.toNat) (hlast : a.toNat = 0xF4 → b.toNat ≤ 0x8F) :
    String.utf8EncodeChar (charOf [a, b, c, d]) = [a, b, c, d] := by
  have hb' : 0x80 ≤ b.toNat ∧ b.toNat ≤ 0xBF := hb
  have hc' : 0x80 ≤ c.toNat ∧ c.toNat ≤ 0xBF := hc
  have hd' : 0x80 ≤ d.toNat ∧ d.toNat ≤ 0xBF := hd
  have hvalid : (codePoint [a, b, c, d]).isValidChar := by
    rw [codePoint, Nat.isValidChar]
    omega
  have hval : (charOf [a, b, c, d]).val.toNat = a.toNat % 0x08 * 0x40000 +
      b.toNat % 0x40 * 0x1000 + c.toNat % 0x40 * 0x40 + d.toNat % 0x40 := val_charOf hvalid
  rw [String.utf8EncodeChar, hval, if_neg (by omega), if_neg (by omega), if_neg (by omega)]
  exact cons_ofNat (by omega)
    (cons_ofNat (by omega) (cons_ofNat (by omega) (cons_ofNat (by omega) rfl)))

theorem within_wide {range : ByteRange} (hlow : 0x80 ≤ range.1)
    (hhigh : range.2 ≤ 0xBF) (h : within range byte) : within (0x80, 0xBF) byte :=
  ⟨hlow.trans h.1, h.2.trans hhigh⟩

theorem encode_charOf {tail : Bytes}
    (hfollow : follow a.toNat = some ranges) (htail : Forall₂ within ranges tail) :
    String.utf8EncodeChar (charOf (a :: tail)) = a :: tail := by
  rw [follow] at hfollow
  split_ifs at hfollow with h1 h2 h3 h4 h5 h6 h7 h8 h9 <;> cases hfollow
  · cases htail
    exact encode_one h1
  · obtain _ | ⟨hb, _ | _⟩ := htail
    exact encode_two (by omega) hb
  · obtain _ | ⟨hb, _ | ⟨hc, _ | _⟩⟩ := htail
    have hlow := hb.1
    exact encode_three (by omega) (within_wide (by decide) (by decide) hb) hc (fun _ => hlow)
      (by omega)
  · obtain _ | ⟨hb, _ | ⟨hc, _ | _⟩⟩ := htail
    have hhigh := hb.2
    exact encode_three (by omega) (within_wide (by decide) (by decide) hb) hc (by omega)
      (fun _ => hhigh)
  · obtain _ | ⟨hb, _ | ⟨hc, _ | _⟩⟩ := htail
    exact encode_three (by omega) hb hc (by omega) (by omega)
  · obtain _ | ⟨hb, _ | ⟨hc, _ | ⟨hd, _ | _⟩⟩⟩ := htail
    have hlow := hb.1
    exact encode_four (by omega) (within_wide (by decide) (by decide) hb) hc hd (fun _ => hlow)
      (by omega)
  · obtain _ | ⟨hb, _ | ⟨hc, _ | ⟨hd, _ | _⟩⟩⟩ := htail
    exact encode_four (by omega) hb hc hd (by omega) (by omega)
  · obtain _ | ⟨hb, _ | ⟨hc, _ | ⟨hd, _ | _⟩⟩⟩ := htail
    have hhigh := hb.2
    exact encode_four (by omega) (within_wide (by decide) (by decide) hb) hc hd (by omega)
      (fun _ => hhigh)

end

section

def completion (ranges : List ByteRange) : Bytes := ranges.map fun range => UInt8.ofNat range.1

theorem within_completion
    (h : ∀ range ∈ ranges, 0x80 ≤ range.1 ∧ range.1 ≤ range.2 ∧ range.2 ≤ 0xBF) :
    Forall₂ within ranges (completion ranges) := by
  induction ranges with
  | nil => exact .nil
  | cons range ranges ih =>
    obtain ⟨⟨-, hle, hhigh⟩, hrest⟩ := forall_mem_cons.mp h
    refine .cons ?_ (ih hrest)
    have hfits : (UInt8.ofNat range.1).toNat = range.1 := by
      rw [UInt8.toNat_ofNat']
      omega
    rw [within, hfits]
    exact ⟨le_refl _, hle⟩

def Unfinished (bytes : Bytes) : Prop :=
  ∃ char : Char, bytes <+: String.utf8EncodeChar char ∧ bytes ≠ String.utf8EncodeChar char

theorem unfinished_nil : Unfinished [] := ⟨'a', nil_prefix, by decide⟩

theorem Unfinished.length_le {bytes : Bytes} (h : Unfinished bytes) : bytes.length ≤ 3 := by
  obtain ⟨char, hfront, hne⟩ := h
  have hlt : bytes.length < (String.utf8EncodeChar char).length :=
    lt_of_le_of_ne hfront.length_le fun heq => hne (hfront.eq_of_length heq)
  rw [String.length_utf8EncodeChar] at hlt
  have := char.utf8Size_le_four
  omega

theorem unfinished_of_incomplete {bytes : Bytes} (h : scan bytes = .incomplete) :
    Unfinished bytes := by
  cases bytes with
  | nil => exact unfinished_nil
  | cons first bytes =>
    rw [scan] at h
    cases hfollow : follow first.toNat with
    | none =>
      rw [hfollow] at h
      cases h
    | some ranges =>
      rw [hfollow] at h
      obtain ⟨met, left, rfl, hleft, hmet⟩ := scanTail_incomplete h
      have hranges := (follow_spec hfollow).2
      have hall : Forall₂ within (met ++ left) (bytes ++ completion left) :=
        rel_append hmet (within_completion fun range hrange =>
          hranges range (mem_append_right _ hrange))
      have hencode := encode_charOf hfollow hall
      refine ⟨charOf (first :: (bytes ++ completion left)), ?_, ?_⟩
      · rw [hencode]
        exact ⟨completion left, rfl⟩
      · rw [hencode]
        intro heq
        have hnone : completion left = [] := by simpa using heq
        exact hleft (map_eq_nil_iff.mp hnone)

theorem continuation_of_incomplete {first : UInt8} {bytes : Bytes}
    (h : scan (first :: bytes) = .incomplete) : ∀ byte ∈ bytes, follow byte.toNat = none := by
  rw [scan] at h
  cases hfollow : follow first.toNat with
  | none =>
    rw [hfollow] at h
    cases h
  | some ranges =>
    rw [hfollow] at h
    obtain ⟨met, left, rfl, -, hmet⟩ := scanTail_incomplete h
    intro byte hbyte
    obtain ⟨range, hrange, hwithin⟩ : ∃ range ∈ met, within range byte := by
      obtain ⟨ix, hix, rfl⟩ := mem_iff_getElem.mp hbyte
      have hlen := hmet.length_eq
      exact ⟨met[ix], getElem_mem _, hmet.get (by omega) hix⟩
    obtain ⟨hlow, -, hhigh⟩ := (follow_spec hfollow).2 range (mem_append_left _ hrange)
    exact follow_continuation (hlow.trans hwithin.1) (hwithin.2.trans hhigh)

end

section

theorem scanTail_invalid {bytes : Bytes}
    (h : scanTail ranges bytes n = .invalid size) : size.val ≤ n + bytes.length := by
  induction ranges generalizing bytes n with
  | nil => cases h
  | cons range ranges ih =>
    cases bytes with
    | nil => cases h
    | cons byte bytes =>
      rw [scanTail] at h
      split_ifs at h
      · have hsize := ih h
        rw [length_cons]
        omega
      · cases h
        exact Nat.add_le_add_left (Nat.succ_le_succ (Nat.zero_le _)) n

theorem size_le {bytes : Bytes}
    (h : scan bytes = .whole size ∨ scan bytes = .invalid size) : size.val ≤ bytes.length := by
  cases bytes with
  | nil => obtain h | h := h <;> cases h
  | cons first bytes =>
    rw [scan] at h
    cases hfollow : follow first.toNat with
    | none =>
      rw [hfollow] at h
      obtain h | h := h <;> cases h
      exact succ_le_succ (zero_le _)
    | some ranges =>
      rw [hfollow] at h
      obtain h | h := h
      · obtain ⟨hsize, tail, rest, rfl, htail⟩ := scanTail_whole h
        have hlen := htail.length_eq
        rw [length_cons, length_append]
        omega
      · have hsize := scanTail_invalid h
        rw [length_cons]
        omega

end

variable {text : List Char}

section
variable (write : UInt8 → List Char)

def lead (bytes : Bytes) : Option (List Char × Size) :=
  match scan bytes with
  | .whole size => some ([charOf (bytes.take size)], size)
  | .invalid size => some ((bytes.take size).flatMap write, size)
  | .incomplete => none

def settle : Bytes → List Char × Bytes
  | [] => ([], [])
  | first :: bytes =>
    match lead write (first :: bytes) with
    | none => ([], first :: bytes)
    | some (text, size) =>
      let settled := settle ((first :: bytes).drop size)
      (text ++ settled.1, settled.2)
termination_by bytes => bytes.length
decreasing_by
  have := size.property
  rw [length_drop, length_cons]
  omega

variable {write} {bytes : Bytes}

theorem lead_none : lead write bytes = none ↔ scan bytes = .incomplete := by
  rw [lead]
  cases scan bytes <;> simp

theorem lead_size (h : lead write bytes = some (text, size)) : size.val ≤ bytes.length := by
  rw [lead] at h
  cases hscan : scan bytes with
  | incomplete =>
    rw [hscan] at h
    cases h
  | whole other =>
    rw [hscan] at h
    cases h
    exact size_le (.inl hscan)
  | invalid other =>
    rw [hscan] at h
    cases h
    exact size_le (.inr hscan)

theorem lead_append (h : lead write bytes = some (text, size))
    (more : Bytes) : lead write (bytes ++ more) = some (text, size) := by
  have hle := lead_size h
  have hscan : scan bytes ≠ .incomplete := fun hnone => by
    rw [lead_none.mpr hnone] at h
    cases h
  rw [lead, scan_append hscan]
  rw [lead] at h
  cases hfound : scan bytes with
  | incomplete => exact absurd hfound hscan
  | whole other =>
    rw [hfound] at h
    cases h
    dsimp only
    rw [take_append_of_le_length hle]
  | invalid other =>
    rw [hfound] at h
    cases h
    dsimp only
    rw [take_append_of_le_length hle]

theorem settle_of_none (h : lead write bytes = none) : settle write bytes = ([], bytes) := by
  cases bytes with
  | nil => rw [settle]
  | cons first bytes => rw [settle, h]

theorem settle_of_some (h : lead write bytes = some (text, size)) :
    settle write bytes = (text ++ (settle write (bytes.drop size)).1,
      (settle write (bytes.drop size)).2) := by
  cases bytes with
  | nil => cases h
  | cons first bytes => rw [settle, h]

variable (write) in
theorem lead_induction {motive : Bytes → Prop}
    (waiting : ∀ bytes, lead write bytes = none → motive bytes)
    (settled : ∀ bytes text size, lead write bytes = some (text, size) →
      motive (bytes.drop size) → motive bytes) (bytes : Bytes) : motive bytes := by
  induction hlen : bytes.length using Nat.strongRecOn generalizing bytes with
  | _ n ih =>
    cases hlead : lead write bytes with
    | none => exact waiting bytes hlead
    | some front =>
      obtain ⟨text, size⟩ := front
      have hle := lead_size hlead
      have hpos := size.property
      refine settled bytes text size hlead (ih _ ?_ _ rfl)
      rw [length_drop]
      omega

theorem settle_append (bytes more : Bytes) :
    settle write (bytes ++ more) =
      ((settle write bytes).1 ++ (settle write ((settle write bytes).2 ++ more)).1,
        (settle write ((settle write bytes).2 ++ more)).2) := by
  induction bytes using lead_induction write with
  | waiting bytes hnone => rw [settle_of_none hnone, nil_append]
  | settled bytes text size hsome ih =>
    have hle := lead_size hsome
    rw [settle_of_some (lead_append hsome more), drop_append_of_le_length hle, ih,
      settle_of_some hsome, append_assoc]

theorem scan_left (bytes : Bytes) : scan (settle write bytes).2 = .incomplete := by
  induction bytes using lead_induction write with
  | waiting bytes hnone =>
    rw [settle_of_none hnone]
    exact lead_none.mp hnone
  | settled bytes text size hsome ih =>
    rw [settle_of_some hsome]
    exact ih

theorem settle_continuation (h : ∀ byte ∈ bytes, follow byte.toNat = none) :
    settle write bytes = (bytes.flatMap write, []) := by
  induction bytes with
  | nil => rw [settle, flatMap_nil]
  | cons byte bytes ih =>
    obtain ⟨hbyte, hrest⟩ := forall_mem_cons.mp h
    have hlead : lead write (byte :: bytes) = some (write byte, ⟨1, one_pos⟩) := by
      rw [lead, scan, hbyte]
      exact congrArg (fun text => some (text, _)) (append_nil _)
    rw [settle_of_some hlead]
    exact congrArg (fun settled => (write byte ++ settled.1, settled.2)) (ih hrest)

end

section
variable {bytes : Bytes}

theorem scanTail_fits {tail : Bytes} (h : Forall₂ within ranges tail) (n : ℕ) :
    scanTail ranges tail n = .whole ⟨n + ranges.length + 1, succ_pos _⟩ := by
  induction h generalizing n with
  | nil => rfl
  | cons hbyte htail ih =>
    rw [scanTail, if_pos hbyte, ih]
    refine congrArg Sequence.whole (Subtype.ext ?_)
    exact congrArg Nat.succ (by rw [length_cons, add_right_comm, add_assoc])

theorem scan_front (h : scan bytes = .whole size) :
    ∃ front rest, bytes = front ++ rest ∧ front.length = size ∧ scan front = .whole size := by
  cases bytes with
  | nil => cases h
  | cons first bytes =>
    rw [scan] at h
    cases hfollow : follow first.toNat with
    | none =>
      rw [hfollow] at h
      cases h
    | some ranges =>
      rw [hfollow] at h
      obtain ⟨hsize, tail, rest, rfl, htail⟩ := scanTail_whole h
      refine ⟨first :: tail, rest, rfl, ?_, ?_⟩
      · rw [length_cons, ← htail.length_eq, hsize, zero_add]
      · rw [scan, hfollow]
        exact (scanTail_fits htail 0).trans (congrArg Sequence.whole (Subtype.ext hsize.symm))

theorem fromUtf8_nil : fromUtf8 [] = .ok [] := by rw [fromUtf8]

theorem fromUtf8_whole (h : scan bytes = .whole size) :
    fromUtf8 bytes =
      match fromUtf8 (bytes.drop size) with
      | .ok text => .ok (charOf (bytes.take size) :: text)
      | .error e => .error ⟨size + e.validUpTo, e.errorLen⟩ := by
  cases bytes with
  | nil => cases h
  | cons first bytes => rw [fromUtf8, h]

theorem fromUtf8_cons (h : byte.toNat ≤ 0x7F) (bytes : Bytes) :
    (fromUtf8 (byte :: bytes)).toOption =
      (fromUtf8 bytes).toOption.map (Char.ofNat byte.toNat :: ·) := by
  have hscan : scan (byte :: bytes) = .whole ⟨1, one_pos⟩ := by
    rw [scan, follow, if_pos h]
    rfl
  have hrest : (byte :: bytes).drop (⟨1, one_pos⟩ : Size) = bytes := rfl
  rw [fromUtf8_whole hscan, hrest]
  cases fromUtf8 bytes <;> rfl

theorem fromUtf8_ok (h : fromUtf8 bytes = .ok text) (write : UInt8 → List Char) :
    settle write bytes = (text, []) := by
  induction hlen : bytes.length using Nat.strongRecOn generalizing bytes text with
  | _ n ih =>
    cases hscan : scan bytes with
    | whole size =>
      have hle := size_le (.inl hscan)
      have hpos := size.property
      rw [fromUtf8_whole hscan] at h
      cases hrest : fromUtf8 (bytes.drop size) with
      | error e =>
        rw [hrest] at h
        cases h
      | ok rest =>
        rw [hrest] at h
        cases h
        have hsettled := ih _ (by rw [length_drop]; omega) hrest rfl
        have hlead : lead write bytes = some ([charOf (bytes.take size)], size) := by
          rw [lead, hscan]
        rw [settle_of_some hlead, hsettled]
        rfl
    | invalid size =>
      cases bytes with
      | nil => cases hscan
      | cons first bytes =>
        rw [fromUtf8, hscan] at h
        cases h
    | incomplete =>
      cases bytes with
      | nil =>
        rw [fromUtf8] at h
        cases h
        exact settle_of_none rfl
      | cons first bytes =>
        rw [fromUtf8, hscan] at h
        cases h

theorem fromUtf8_error {e : Utf8Error} (h : fromUtf8 bytes = .error e) :
    ∃ front rest text, bytes = front ++ rest ∧ front.length = e.validUpTo ∧
      fromUtf8 front = .ok text ∧ scan rest = e.errorLen.elim .incomplete .invalid := by
  induction hlen : bytes.length using Nat.strongRecOn generalizing bytes e with
  | _ n ih =>
    cases hscan : scan bytes with
    | whole size =>
      have hpos := size.property
      obtain ⟨front, rest, rfl, hfront, hwhole⟩ := scan_front hscan
      rw [fromUtf8_whole hscan, ← hfront, drop_left] at h
      cases hrest : fromUtf8 rest with
      | ok text =>
        rw [hrest] at h
        cases h
      | error inner =>
        rw [hrest] at h
        cases h
        have hlt : rest.length < n := by
          rw [← hlen, length_append]
          omega
        obtain ⟨middle, last, text, rfl, hmiddle, hvalid, herror⟩ := ih _ hlt hrest rfl
        refine ⟨front ++ middle, last, charOf front :: text, (append_assoc ..).symm, ?_, ?_, herror⟩
        · rw [length_append, hmiddle]
        · have hscanned : scan (front ++ middle) = .whole size := by
            rw [scan_append (by rw [hwhole]; rintro ⟨⟩), hwhole]
          rw [fromUtf8_whole hscanned, ← hfront, drop_left, take_left, hvalid]
    | invalid size =>
      cases bytes with
      | nil => cases hscan
      | cons first bytes =>
        rw [fromUtf8, hscan] at h
        cases h
        exact ⟨[], first :: bytes, [], rfl, rfl, fromUtf8_nil, hscan⟩
    | incomplete =>
      cases bytes with
      | nil =>
        rw [fromUtf8] at h
        cases h
      | cons first bytes =>
        rw [fromUtf8, hscan] at h
        cases h
        exact ⟨[], first :: bytes, [], rfl, rfl, fromUtf8_nil, hscan⟩

end

end Utf8
