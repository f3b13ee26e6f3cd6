import Mathlib.Data.List.AList

namespace GitComet.RecentCache
open List Nat

variable {κ α : Type*}

abbrev Entries (κ α : Type*) := AList fun _ : κ => α

def retain (keep : κ → Bool) (entries : Entries κ α) : Entries κ α :=
  ⟨entries.entries.filter fun entry => keep entry.1,
    entries.nodupKeys.sublist filter_sublist⟩

structure Tracks (entries : Entries κ α) (order : List κ) : Prop where
  nodup : order.Nodup
  mem_iff : ∀ key, key ∈ order ↔ key ∈ entries

section

theorem mem_retain {keep : κ → Bool} {entries : Entries κ α} {key : κ} :
    key ∈ retain keep entries ↔ key ∈ entries ∧ keep key := by
  simp only [AList.mem_keys, AList.keys, retain, List.keys, mem_map, mem_filter]
  constructor
  · rintro ⟨entry, ⟨hentry, hkeep⟩, rfl⟩
    exact ⟨⟨entry, hentry, rfl⟩, hkeep⟩
  · rintro ⟨⟨entry, hentry, rfl⟩, hkeep⟩
    exact ⟨entry, ⟨hentry, hkeep⟩, rfl⟩

theorem retain_keys_length (keep : κ → Bool) (entries : Entries κ α) :
    (retain keep entries).keys.length ≤ entries.keys.length := by
  simp only [AList.keys, List.keys, length_map, retain]
  exact length_filter_le _ _

end
theorem Tracks.empty : Tracks (∅ : Entries κ α) [] where
  nodup := nodup_nil
  mem_iff key := by simp

theorem Tracks.length {entries : Entries κ α} {order : List κ} (h : Tracks entries order) :
    order.length = entries.keys.length :=
  ((perm_ext_iff_of_nodup h.nodup entries.keys_nodup).mpr fun key =>
    (h.mem_iff key).trans AList.mem_keys).length_eq

theorem exists_evictable {kept : κ → Bool} {limit : ℕ} {entries : Entries κ α} {order : List κ}
    (htracks : Tracks entries order) (hkept : (order.filter kept).length ≤ limit)
    (hlong : limit < entries.keys.length) : ∃ front oldest back, order = front ++ oldest :: back ∧
      (∀ key ∈ front, kept key) ∧ kept oldest = false := by
  have hsome : ∃ key ∈ order, ¬kept key := by
    by_contra hall
    have hfilter : order.filter kept = order :=
      filter_eq_self.mpr fun key hkey => by_contra fun hnot => hall ⟨key, hkey, hnot⟩
    rw [hfilter, htracks.length] at hkept
    omega
  obtain ⟨key, hkey, hnot⟩ := hsome
  obtain ⟨oldest, hfind⟩ := Option.isSome_iff_exists.mp
    (find?_isSome.mpr ⟨key, hkey, by simpa using hnot⟩ :
      (order.find? fun key => !kept key).isSome)
  obtain ⟨holdest, front, back, horder, hfront⟩ := find?_eq_some_iff_append.mp hfind
  refine ⟨front, oldest, back, horder, fun other hother => ?_, by simpa using holdest⟩
  simpa using hfront other hother

variable [DecidableEq κ]

def touch (order : List κ) (key : κ) : List κ := order.filter (· ≠ key) ++ [key]

def evict (kept : κ → Bool) (limit : ℕ) : ℕ → Entries κ α → List κ → Option (Entries κ α × List κ)
  | 0, _, _ => none
  | fuel + 1, entries, order =>
    if entries.keys.length ≤ limit then some (entries, order)
    else match order with
      | [] => some (entries, [])
      | oldest :: order =>
        if kept oldest then evict kept limit fuel entries (order ++ [oldest])
        else evict kept limit fuel (entries.erase oldest) order

section

variable {entries : Entries κ α} {order : List κ} {key : κ}

theorem mem_touch {other : κ} : other ∈ touch order key ↔ other = key ∨ other ∈ order := by
  simp only [touch, mem_append, mem_filter, mem_singleton, decide_eq_true_eq]
  tauto

theorem nodup_touch (h : order.Nodup) : (touch order key).Nodup := by
  refine nodup_append.mpr ⟨h.filter _, nodup_singleton key, ?_⟩
  intro a ha b hb
  rw [mem_singleton.mp hb]
  simpa using (mem_filter.mp ha).2

theorem Tracks.touch (h : Tracks entries order) (hkey : key ∈ entries) :
    Tracks entries (touch order key) where
  nodup := nodup_touch h.nodup
  mem_iff other := by
    rw [mem_touch, h.mem_iff]
    exact ⟨fun hother => hother.elim (fun heq => heq ▸ hkey) id, Or.inr⟩

theorem Tracks.insert (h : Tracks entries order) (key : κ) (value : α) :
    Tracks (entries.insert key value) (RecentCache.touch order key) where
  nodup := nodup_touch h.nodup
  mem_iff other := by rw [mem_touch, h.mem_iff, AList.mem_insert]

theorem Tracks.erase {oldest : κ} (h : Tracks entries (oldest :: order)) :
    Tracks (entries.erase oldest) order where
  nodup := (nodup_cons.mp h.nodup).2
  mem_iff key := by
    rw [AList.mem_erase, ← h.mem_iff, mem_cons]
    constructor
    · intro hkey
      exact ⟨fun heq => (nodup_cons.mp h.nodup).1 (heq ▸ hkey), Or.inr hkey⟩
    · rintro ⟨hne, heq | hkey⟩
      · exact absurd heq hne
      · exact hkey

theorem keys_length_erase (hkey : key ∈ entries) :
    (entries.erase key).keys.length = entries.keys.length - 1 := by
  rw [AList.keys_erase]
  exact length_erase_of_mem (AList.mem_keys.mp hkey)

theorem keys_length_insert_le (value : α) :
    (entries.insert key value).keys.length ≤ entries.keys.length + 1 := by
  rw [AList.keys_insert, length_cons]
  exact succ_le_succ length_erase_le

end

structure Evicted (kept : κ → Bool) (entries after : Entries κ α) : Prop where
  subset : ∀ key value, after.lookup key = some value → entries.lookup key = some value
  spared : ∀ key, kept key = true → after.lookup key = entries.lookup key

section

variable {kept : κ → Bool} {limit : ℕ} {entries : Entries κ α} {order : List κ}

theorem Evicted.refl : Evicted kept entries entries := ⟨fun _ _ h => h, fun _ _ => rfl⟩

theorem Evicted.trans {after last : Entries κ α} (h : Evicted kept entries after)
    (hlast : Evicted kept after last) : Evicted kept entries last where
  subset key value hvalue := h.subset key value (hlast.subset key value hvalue)
  spared key hkey := (hlast.spared key hkey).trans (h.spared key hkey)

theorem Evicted.erase {key : κ} (hkey : kept key = false) :
    Evicted kept entries (entries.erase key) where
  subset other value hvalue := by
    rcases eq_or_ne other key with rfl | hne
    · rw [AList.lookup_erase] at hvalue
      cases hvalue
    · rwa [AList.lookup_erase_ne hne] at hvalue
  spared other hother := AList.lookup_erase_ne fun heq => by
    rw [heq, hkey] at hother
    cases hother

theorem evict_small (h : entries.keys.length ≤ limit) (fuel : ℕ) :
    evict kept limit (fuel + 1) entries order = some (entries, order) := by
  cases order <;> rw [evict, if_pos h]

theorem evict_front {front back : List κ} {oldest : κ} (hfront : ∀ key ∈ front, kept key)
    (holdest : kept oldest = false) (hlong : limit < entries.keys.length) (fuel : ℕ) :
    evict kept limit (fuel + front.length + 1) entries (front ++ oldest :: back) =
      evict kept limit fuel (entries.erase oldest) (back ++ front) := by
  induction front generalizing back with
  | nil =>
    rw [nil_append, append_nil, length_nil, evict, if_neg (not_le.mpr hlong)]
    rw [if_neg (by rw [holdest]; exact Bool.false_ne_true)]
  | cons key front ih =>
    rw [cons_append, evict, if_neg (not_le.mpr hlong)]
    rw [if_pos (hfront key mem_cons_self), append_assoc, cons_append, length_cons, ← Nat.add_assoc,
      ih fun other hother => hfront other (mem_cons_of_mem key hother)]
    rw [append_assoc, singleton_append]

theorem evict_ends (hkept : (order.filter kept).length ≤ limit) (htracks : Tracks entries order)
    {fuel : ℕ} (hfuel : (entries.keys.length - limit) * entries.keys.length < fuel) :
    ∃ after rest, evict kept limit fuel entries order = some (after, rest) ∧ Tracks after rest ∧
      after.keys.length ≤ limit ∧ Evicted kept entries after := by
  induction hexcess : entries.keys.length - limit generalizing entries order fuel with
  | zero =>
    obtain ⟨fuel, rfl⟩ := Nat.exists_eq_add_of_lt (Nat.zero_lt_of_lt hfuel)
    refine ⟨entries, order, ?_, htracks, by omega, Evicted.refl⟩
    rw [Nat.zero_add]
    exact evict_small (by omega) fuel
  | succ excess ih =>
    have hlong : limit < entries.keys.length := by omega
    obtain ⟨front, oldest, back, rfl, hfront, holdest⟩ := exists_evictable htracks hkept hlong
    have hmem : oldest ∈ entries :=
      (htracks.mem_iff oldest).mp (mem_append_right front mem_cons_self)
    have hlen := keys_length_erase hmem
    have hperm : (front ++ oldest :: back).Perm (oldest :: (back ++ front)) :=
      perm_middle.trans ((perm_append_comm).cons oldest)
    have hrotated : Tracks entries (oldest :: (back ++ front)) :=
      ⟨hperm.nodup htracks.nodup, fun key => hperm.mem_iff.symm.trans (htracks.mem_iff key)⟩
    have hshort : front.length < entries.keys.length := by
      rw [← htracks.length, length_append, length_cons]
      omega
    rw [hexcess] at hfuel
    have hspent : excess * entries.keys.length + entries.keys.length < fuel := by
      rwa [succ_mul] at hfuel
    obtain ⟨rest, rfl⟩ : ∃ rest, fuel = rest + front.length + 1 :=
      ⟨fuel - front.length - 1, by omega⟩
    have hrest : ((entries.erase oldest).keys.length - limit) *
        (entries.erase oldest).keys.length < rest := by
      have hmono : excess * (entries.keys.length - 1) ≤ excess * entries.keys.length :=
        mul_le_mul_left excess (sub_le _ _)
      rw [hlen, show entries.keys.length - 1 - limit = excess by omega]
      omega
    obtain ⟨after, last, hevict, hafter, hsmall, hevicted⟩ :=
      ih (by
        rw [hperm.filter kept |>.length_eq, filter_cons_of_neg (by simp [holdest])] at hkept
        exact hkept) hrotated.erase hrest (by omega)
    refine ⟨after, last, ?_, hafter, hsmall, (Evicted.erase holdest).trans hevicted⟩
    rw [evict_front hfront holdest hlong]
    exact hevict

end

end GitComet.RecentCache
