import Mathlib.Data.List.Basic
import Mathlib.Tactic.Ring

namespace ByteOrder
open List Nat

abbrev Bytes := List UInt8

def bigEndian : Bytes → ℕ
  | [] => 0
  | byte :: bytes => byte.toNat * 256 ^ bytes.length + bigEndian bytes

def compareBytes (a b : Bytes) : Ordering := if a < b then .lt else if b < a then .gt else .eq

theorem bigEndian_lt (bytes : Bytes) : bigEndian bytes < 256 ^ bytes.length := by
  induction bytes with
  | nil => exact one_pos
  | cons byte bytes ih =>
    have hbyte : byte.toNat + 1 ≤ 256 := byte.toNat_lt
    have hmul := mul_le_mul_right (256 ^ bytes.length) hbyte
    rw [bigEndian, length_cons, pow_succ, mul_comm _ 256]
    rw [add_mul, one_mul] at hmul
    omega

theorem bigEndian_append (front back : Bytes) :
    bigEndian (front ++ back) = bigEndian front * 256 ^ back.length + bigEndian back := by
  induction front with
  | nil => simp [bigEndian]
  | cons byte front ih =>
    rw [cons_append, bigEndian, bigEndian, ih, length_append, pow_add]
    ring

theorem bigEndian_take (bytes : Bytes) (n : ℕ) :
    bigEndian (bytes.take n) = bigEndian bytes / 256 ^ (bytes.length - n) := by
  have hsplit := bigEndian_append (bytes.take n) (bytes.drop n)
  rw [take_append_drop, length_drop] at hsplit
  have hlt := bigEndian_lt (bytes.drop n)
  rw [length_drop] at hlt
  rw [hsplit, mul_comm, mul_add_div (lt_of_le_of_lt (Nat.zero_le _) hlt),
    div_eq_of_lt hlt, add_zero]

theorem lt_iff {a : Bytes} : ∀ {b : Bytes}, a.length = b.length →
    (a < b ↔ bigEndian a < bigEndian b) := by
  induction a with
  | nil =>
    intro b h
    rw [length_nil] at h
    obtain rfl := eq_nil_of_length_eq_zero h.symm
    simp
  | cons x a ih =>
    intro b h
    cases b with
    | nil => simp at h
    | cons y b =>
      have hlength : a.length = b.length := Nat.succ.inj (by simpa using h)
      have hlowA := bigEndian_lt a
      have hlowB := bigEndian_lt b
      rw [cons_lt_cons_iff, ih hlength, bigEndian, bigEndian, hlength, UInt8.lt_iff_toNat_lt,
        ← UInt8.toNat_inj]
      rw [hlength] at hlowA
      generalize 256 ^ b.length = scale at hlowA hlowB
      rcases Nat.lt_trichotomy x.toNat y.toNat with hlt | heq | hgt
      · have := mul_le_mul_right scale hlt
        rw [succ_mul] at this
        exact ⟨fun _ => by omega, fun _ => Or.inl hlt⟩
      · rw [heq]
        simp
      · have := mul_le_mul_right scale hgt
        rw [succ_mul] at this
        exact ⟨fun h => by omega, fun h => by omega⟩

theorem bigEndian_inj {a b : Bytes} (hlength : a.length = b.length)
    (h : bigEndian a = bigEndian b) : a = b := by
  have hab : ¬ a < b := fun hlt => by
    have := (lt_iff hlength).mp hlt
    omega
  have hba : ¬ b < a := fun hlt => by
    have := (lt_iff hlength.symm).mp hlt
    omega
  exact List.le_antisymm (List.not_lt.mp hba) (List.not_lt.mp hab)

theorem le_iff {a b : Bytes} (h : a.length = b.length) : a ≤ b ↔ bigEndian a ≤ bigEndian b := by
  rw [← List.not_lt, lt_iff h.symm, not_lt]

theorem compareBytes_eq {a b : Bytes} (h : a.length = b.length) :
    compareBytes a b = compare (bigEndian a) (bigEndian b) := by
  unfold compareBytes
  rcases lt_trichotomy (bigEndian a) (bigEndian b) with hlt | heq | hgt
  · rw [if_pos ((lt_iff h).mpr hlt), compare_lt_iff_lt.mpr hlt]
  · rw [if_neg (fun hlt => absurd ((lt_iff h).mp hlt) (by omega)),
      if_neg (fun hlt => absurd ((lt_iff h.symm).mp hlt) (by omega)), compare_eq_iff_eq.mpr heq]
  · rw [if_neg (fun hlt => absurd ((lt_iff h).mp hlt) (by omega)),
      if_pos ((lt_iff h.symm).mpr hgt), compare_gt_iff_gt.mpr hgt]

end ByteOrder
