import GitComet.History.Index

namespace GitComet.History
open Slice ByteOrder BinarySearch Text List Nat Option

structure IdTable (ids : List Bytes) (index : HistoryIndex) : Prop where
  size : index.hashLen = 20 ∨ index.hashLen = 32
  bytes : index.ids = ids.flatten
  length : ∀ id ∈ ids, id.length = index.hashLen
  rows : ids.length ≤ missingParent
  distinct : ids.Nodup

structure IdColumn (ids : List Bytes) (index : HistoryIndex) : Prop where
  size : index.hashLen = 20 ∨ index.hashLen = 32
  bytes : index.ids = ids.flatten
  length : ∀ id ∈ ids, id.length = index.hashLen
  rows : ids.length ≤ missingParent

def rowKey (ids : List Bytes) (row : ℕ) : ℕ := bigEndian (ids.getD row [])

section
variable {ids : List Bytes} {index : HistoryIndex}

theorem IdTable.column (h : IdTable ids index) : IdColumn ids index :=
  ⟨h.size, h.bytes, h.length, h.rows⟩

theorem IdColumn.idBytes (h : IdColumn ids index) (row : ℕ) : index.idBytes row = ids[row]? := by
  have hpos : 0 < index.hashLen := by have := h.size; omega
  have hslice := sliceOf_flatten hpos h.length row
  rw [← h.bytes] at hslice
  rw [HistoryIndex.idBytes]
  split
  · rename_i hover
    refine (getElem?_eq_none ?_).symm
    have hrows := h.rows
    have hsize := h.size
    have hmul := mul_le_mul_left row (show index.hashLen ≤ 32 by omega)
    simp only [missingParent, u32Max, usizeMax] at hrows hover
    omega
  · exact hslice

theorem IdColumn.indexedRow (h : IdColumn ids index) (row : ℕ) :
    index.indexedRow row = ids.getD row [] := by
  rw [HistoryIndex.indexedRow, h.idBytes, getD_eq_getElem?_getD]

variable {row : ℕ}

theorem IdColumn.rowBytes (h : IdColumn ids index) (hrow : row < ids.length) :
    rowBytes index.ids index.hashLen row = ids.getD row [] := by
  have hpos : 0 < index.hashLen := by have := h.size; omega
  have hslice := sliceOf_flatten hpos h.length row
  rw [← h.bytes, getElem?_eq_getElem hrow] at hslice
  unfold sliceOf at hslice
  split at hslice
  · rw [History.rowBytes, some.inj hslice, getD_eq_getElem?_getD, getElem?_eq_getElem hrow]
    rfl
  · cases hslice

theorem IdColumn.getD_length (h : IdColumn ids index) (hrow : row < ids.length) :
    (ids.getD row []).length = index.hashLen := by
  rw [getD_eq_getElem?_getD, getElem?_eq_getElem hrow]
  exact h.length _ (getElem_mem hrow)

theorem IdTable.key_inj (h : IdTable ids index) {row' : ℕ} (hrow : row < ids.length)
    (hrow' : row' < ids.length) (hkey : rowKey ids row = rowKey ids row') : row = row' := by
  have hbytes := bigEndian_inj
    ((h.column.getD_length hrow).trans (h.column.getD_length hrow').symm) hkey
  rw [getD_eq_getElem?_getD, getD_eq_getElem?_getD, getElem?_eq_getElem hrow,
    getElem?_eq_getElem hrow'] at hbytes
  exact (Nodup.getElem_inj_iff h.distinct).mp hbytes

variable {id : Bytes}

theorem search_rows {α : Type} (h : IdTable ids index) {o : α → ℕ} {entries : List α}
    (hsorted : entries.Pairwise fun x y => rowKey ids (o x) < rowKey ids (o y))
    (hrows : ∀ entry ∈ entries, o entry < ids.length) (hid : id.length = index.hashLen)
    (hcomplete : ∀ r : ℕ, ids[r]? = some id → ∃ entry ∈ entries, o entry = r) :
    ∃ result, (match binarySearchBy
        (fun entry => compareBytes (index.indexedRow (o entry)) id) entries with
      | .ok found => (entries[found]?).map fun entry => some (o entry)
      | .error _ => some none) = some result ∧ ∀ r : ℕ, result = some r ↔ ids[r]? = some id := by
  have hcmp : ∀ entry ∈ entries, compareBytes (index.indexedRow (o entry)) id =
      compare (rowKey ids (o entry)) (bigEndian id) := by
    intro entry hentry
    rw [h.column.indexedRow,
      compareBytes_eq ((h.column.getD_length (hrows entry hentry)).trans hid.symm)]
    rfl
  obtain ⟨hfound, hmissing⟩ := binarySearchBy_sorted hsorted hcmp
  by_cases hin : ∃ r : ℕ, ids[r]? = some id
  · obtain ⟨r, hr⟩ := hin
    obtain ⟨entry, hentry, rfl⟩ := hcomplete r hr
    have hkey : rowKey ids (o entry) = bigEndian id := by
      rw [rowKey, getD_eq_getElem?_getD, hr]
      rfl
    obtain ⟨i, hsearch, hget⟩ := hfound entry hentry hkey
    refine ⟨some (o entry), by simp only [hsearch, hget, map_some], fun r' => ?_⟩
    rw [some.injEq]
    refine ⟨fun heq => heq ▸ hr, fun hr' => ?_⟩
    obtain ⟨hlt, -⟩ := List.getElem?_eq_some_iff.mp hr
    exact (getElem?_inj hlt h.distinct).mp (hr.trans hr'.symm)
  · have hnone : ∀ entry ∈ entries, rowKey ids (o entry) ≠ bigEndian id := by
      intro entry hentry hkey
      have hrow := hrows entry hentry
      have hbytes := bigEndian_inj ((h.column.getD_length hrow).trans hid.symm) hkey
      refine hin ⟨o entry, ?_⟩
      rw [getElem?_eq_getElem hrow, some.injEq, ← hbytes,
        getD_eq_getElem?_getD, getElem?_eq_getElem hrow]
      rfl
    obtain ⟨i, hsearch⟩ := hmissing hnone
    refine ⟨none, by rw [hsearch], fun r => ⟨nofun, fun hr => absurd ⟨r, hr⟩ hin⟩⟩

structure SortedRows (ids : List Bytes) (rows : List ℕ) : Prop where
  all : rows.Perm (range ids.length)
  sorted : rows.Pairwise fun a b => rowKey ids a < rowKey ids b

theorem SortedRows.lt (h : SortedRows ids rows) (hrow : row ∈ rows) : row < ids.length := by
  have := h.all.mem_iff.mp hrow
  rwa [mem_range] at this

variable {rows : List ℕ}

theorem SortedRows.complete (h : SortedRows ids rows) (hrow : ids[row]? = some id) : row ∈ rows :=
  h.all.mem_iff.mpr (mem_range.mpr (List.getElem?_eq_some_iff.mp hrow).1)

theorem sortedRows_of_le (h : IdTable ids index) (hperm : rows.Perm (range ids.length))
    (hle : rows.Pairwise fun a b => rowKey ids a ≤ rowKey ids b) : SortedRows ids rows := by
  refine ⟨hperm, ?_⟩
  have hnodup : rows.Nodup := hperm.nodup_iff.mpr nodup_range
  refine (hle.and hnodup).imp_of_mem fun {a b} ha hb hab => ?_
  have hmem : ∀ {row}, row ∈ rows → row < ids.length := fun hrow =>
    mem_range.mp (hperm.mem_iff.mp hrow)
  exact lt_of_le_of_ne hab.1 fun heq => hab.2 (h.key_inj (hmem ha) (hmem hb) heq)

instance rowBytes_total (bytes : Bytes) (hashLen : ℕ) :
    Std.Total fun a b : ℕ => rowBytes bytes hashLen a ≤ rowBytes bytes hashLen b :=
  ⟨fun _ _ => List.le_total _ _⟩

instance rowBytes_trans (bytes : Bytes) (hashLen : ℕ) :
    IsTrans ℕ fun a b => rowBytes bytes hashLen a ≤ rowBytes bytes hashLen b :=
  ⟨fun _ _ _ => List.le_trans⟩

theorem IdColumn.rowBytes_le (h : IdColumn ids index) {a b : ℕ} (ha : a < ids.length)
    (hb : b < ids.length) :
    History.rowBytes index.ids index.hashLen a ≤ History.rowBytes index.ids index.hashLen b ↔
      rowKey ids a ≤ rowKey ids b := by
  rw [h.rowBytes ha, h.rowBytes hb, le_iff ((h.getD_length ha).trans (h.getD_length hb).symm)]
  rfl

structure OrderedRows (ids : List Bytes) (rows : List ℕ) : Prop where
  all : rows.Perm (range ids.length)
  ordered : rows.Pairwise fun a b => rowKey ids a ≤ rowKey ids b

theorem OrderedRows.lt (h : OrderedRows ids rows) (hrow : row ∈ rows) : row < ids.length := by
  have := h.all.mem_iff.mp hrow
  rwa [mem_range] at this

theorem OrderedRows.sorted (h : OrderedRows ids rows) (htable : IdTable ids index) :
    SortedRows ids rows := sortedRows_of_le htable h.all h.ordered

theorem sortRows_ordered (h : IdColumn ids index) :
    OrderedRows ids (sortRows index.ids index.hashLen (range ids.length)) := by
  have hperm := perm_insertionSort
    (fun a b => History.rowBytes index.ids index.hashLen a ≤
      History.rowBytes index.ids index.hashLen b) (range ids.length)
  refine ⟨hperm, (pairwise_insertionSort _ _).imp_of_mem fun {a b} ha hb hab => ?_⟩
  have hmem : ∀ {row}, row ∈ sortRows index.ids index.hashLen (range ids.length) →
      row < ids.length := fun hrow => mem_range.mp (hperm.mem_iff.mp hrow)
  exact (h.rowBytes_le (hmem ha) (hmem hb)).mp hab

theorem sortRows_sorted (h : IdTable ids index) :
    SortedRows ids (sortRows index.ids index.hashLen (range ids.length)) :=
  (sortRows_ordered h.column).sorted h

theorem positionBytes_sorted (h : IdTable ids index) (hsorted : SortedRows ids index.sortedRows)
    (hfanout : index.fanout = []) (id : Bytes) :
    ∃ result, index.positionBytes id = some result ∧ ∀ row : ℕ, result = some row ↔ ids[row]? = some id := by
  unfold HistoryIndex.positionBytes
  by_cases hid : id.length = index.hashLen
  · rw [if_neg (not_not.mpr hid), hfanout]
    exact search_rows h (o := fun row => row) hsorted.sorted (fun row => hsorted.lt) hid
      fun r hr => ⟨r, hsorted.complete hr, rfl⟩
  · rw [if_pos hid]
    refine ⟨none, rfl, fun row => ⟨nofun, fun hrow => ?_⟩⟩
    exact absurd (h.length id (mem_of_getElem? hrow)) hid

def rowBucket (index : HistoryIndex) (ids : List Bytes) (row : ℕ) : ℕ :=
  rowKey ids row / 256 ^ (index.hashLen - 2)

theorem prefix_bucket (h : IdTable ids index) (key : ℕ) :
    key / 256 ^ (index.hashLen - 8) / 2 ^ 48 = key / 256 ^ (index.hashLen - 2) := by
  have hpow : 256 ^ (index.hashLen - 8) * 2 ^ 48 = 256 ^ (index.hashLen - 2) := by
    rcases h.size with hsize | hsize <;> rw [hsize] <;> rfl
  rw [Nat.div_div_eq_div_mul, hpow]

theorem IdColumn.rowPrefix (h : IdColumn ids index) (hrow : row < ids.length) :
    rowPrefix index.ids index.hashLen row = rowKey ids row / 256 ^ (index.hashLen - 8) := by
  have hslice : slice index.ids (row * index.hashLen) (row * index.hashLen + 8) =
      (History.rowBytes index.ids index.hashLen row).take 8 := by
    have hsize := h.size
    simp only [History.rowBytes, slice, Nat.add_sub_cancel_left, take_take]
    rw [Nat.min_eq_left (by omega)]
  rw [History.rowPrefix, hslice, h.rowBytes hrow, bigEndian_take, h.getD_length hrow]
  rfl

theorem bucket_lt (h : IdTable ids index) (hid : id.length = index.hashLen) :
    bigEndian id / 256 ^ (index.hashLen - 2) < 65536 := by
  have hlt := bigEndian_lt id
  have hpow : 256 ^ index.hashLen = 65536 * 256 ^ (index.hashLen - 2) := by
    rcases h.size with hsize | hsize <;> rw [hsize] <;> rfl
  rw [hid, hpow] at hlt
  exact Nat.div_lt_of_lt_mul (Nat.mul_comm _ _ ▸ hlt)

instance keyedOrder_total (bytes : Bytes) (hashLen : ℕ) :
    Std.Total fun a b : ℕ × ℕ =>
      a.1 < b.1 ∨ a.1 = b.1 ∧ rowBytes bytes hashLen a.2 ≤ rowBytes bytes hashLen b.2 where
  total a b := by
    rcases lt_trichotomy a.1 b.1 with hlt | heq | hgt
    · exact Or.inl (Or.inl hlt)
    · rcases List.le_total (rowBytes bytes hashLen a.2) (rowBytes bytes hashLen b.2) with hle | hle
      · exact Or.inl (Or.inr ⟨heq, hle⟩)
      · exact Or.inr (Or.inr ⟨heq.symm, hle⟩)
    · exact Or.inr (Or.inl hgt)

instance keyedOrder_trans (bytes : Bytes) (hashLen : ℕ) :
    IsTrans (ℕ × ℕ) fun a b =>
      a.1 < b.1 ∨ a.1 = b.1 ∧ rowBytes bytes hashLen a.2 ≤ rowBytes bytes hashLen b.2 where
  trans a b c := by
    rintro (hab | ⟨hab, hle⟩) (hbc | ⟨hbc, hle'⟩)
    · exact Or.inl (lt_trans hab hbc)
    · exact Or.inl (hbc ▸ hab)
    · exact Or.inl (hab ▸ hbc)
    · exact Or.inr ⟨hab.trans hbc, List.le_trans hle hle'⟩

structure KeyedRows (index : HistoryIndex) (ids : List Bytes) (keyed : List (ℕ × ℕ)) : Prop where
  rows : SortedRows ids (keyed.map Prod.snd)
  keys : ∀ entry ∈ keyed, entry.1 = rowKey ids entry.2 / 256 ^ (index.hashLen - 8)

theorem keyedRows_ordered (h : IdColumn ids index) :
    let keyed := keyedRows index.ids index.hashLen (range ids.length)
    OrderedRows ids (keyed.map Prod.snd) ∧
      ∀ entry ∈ keyed, entry.1 = rowKey ids entry.2 / 256 ^ (index.hashLen - 8) := by
  intro keyed
  have hperm : keyed.Perm _ := perm_insertionSort (fun a b : ℕ × ℕ =>
    a.1 < b.1 ∨ a.1 = b.1 ∧
      History.rowBytes index.ids index.hashLen a.2 ≤ History.rowBytes index.ids index.hashLen b.2)
    ((range ids.length).map fun row => (History.rowPrefix index.ids index.hashLen row, row))
  have hpair : keyed.Pairwise _ := pairwise_insertionSort (fun a b : ℕ × ℕ =>
    a.1 < b.1 ∨ a.1 = b.1 ∧
      History.rowBytes index.ids index.hashLen a.2 ≤ History.rowBytes index.ids index.hashLen b.2)
    ((range ids.length).map fun row => (History.rowPrefix index.ids index.hashLen row, row))
  generalize keyed = keyed at hperm hpair ⊢
  have hentry : ∀ entry ∈ keyed, entry.2 < ids.length ∧
      entry.1 = rowKey ids entry.2 / 256 ^ (index.hashLen - 8) := by
    intro entry hentry
    obtain ⟨row, hrow, rfl⟩ := mem_map.mp (hperm.mem_iff.mp hentry)
    rw [mem_range] at hrow
    exact ⟨hrow, h.rowPrefix hrow⟩
  refine ⟨⟨?_, ?_⟩, fun entry hmem => (hentry entry hmem).2⟩
  · have hrows := hperm.map Prod.snd
    rwa [List.map_map, show (Prod.snd ∘ fun row =>
      (History.rowPrefix index.ids index.hashLen row, row)) = id from rfl, List.map_id] at hrows
  · rw [pairwise_map]
    refine hpair.imp_of_mem fun {a b} ha hb hab => ?_
    obtain ⟨halt, ha⟩ := hentry a ha
    obtain ⟨hblt, hb⟩ := hentry b hb
    rcases hab with hlt | ⟨-, hle⟩
    · by_contra hgt
      have := Nat.div_le_div_right (c := 256 ^ (index.hashLen - 8)) (Nat.le_of_not_le hgt)
      omega
    · exact (h.rowBytes_le halt hblt).mp hle

theorem keyedRows_sorted (h : IdTable ids index) :
    KeyedRows index ids (keyedRows index.ids index.hashLen (range ids.length)) := by
  obtain ⟨hordered, hkeys⟩ := keyedRows_ordered h.column
  exact ⟨hordered.sorted h, hkeys⟩

variable {keyed : List (ℕ × ℕ)}

theorem fanoutCounts_get : ∀ {counts : List ℕ} (i : ℕ),
    (keyed.foldl (fun fanout entry => fanout.modify (entry.1 / 2 ^ 48 + 1) (· + 1)) counts)[i]? =
      (counts[i]?).map (· + keyed.countP fun entry => decide (entry.1 / 2 ^ 48 + 1 = i)) := by
  induction keyed with
  | nil => simp
  | cons entry keyed ih =>
    intro counts i
    rw [foldl_cons, ih, getElem?_modify, countP_cons]
    cases counts[i]? with
    | none => rfl
    | some count =>
      by_cases hi : entry.1 / 2 ^ 48 + 1 = i
      · simp only [hi, if_true, Option.map_some, decide_true, Option.map_eq_map]
        rw [add_assoc, add_comm 1]
      · simp only [hi, if_false, Option.map_some, decide_false, Bool.false_eq_true,
          Option.map_eq_map, add_zero]

theorem prefixSums_get {counts : List ℕ} : ∀ {sum i : ℕ}, i < counts.length →
    (prefixSums sum counts)[i]? = some (sum + (counts.take (i + 1)).sum) := by
  induction counts with
  | nil => exact fun h => absurd h (not_lt_zero _)
  | cons count counts ih =>
    intro sum i h
    cases i with
    | zero => simp [prefixSums]
    | succ i =>
      rw [prefixSums, getElem?_cons_succ, ih (lt_of_succ_lt_succ h), take_succ_cons,
        sum_cons, add_assoc]

theorem fanout_get (keyed : List (ℕ × ℕ)) {n : ℕ} (hn : n ≤ 65536) :
    (prefixSums 0 (fanoutCounts keyed))[n]? =
      some (keyed.countP fun entry => decide (entry.1 / 2 ^ 48 < n)) := by
  have hget : ∀ i < 65537, (fanoutCounts keyed)[i]? =
      some (keyed.countP fun entry => decide (entry.1 / 2 ^ 48 + 1 = i)) := by
    intro i hi
    rw [fanoutCounts, fanoutCounts_get, getElem?_replicate, if_pos hi, map_some,
      zero_add]
  have hlength : 65537 ≤ (fanoutCounts keyed).length := by
    obtain ⟨hlt, -⟩ := List.getElem?_eq_some_iff.mp (hget 65536 (by omega))
    exact hlt
  have hsum : ∀ i ≤ 65537, ((fanoutCounts keyed).take i).sum =
      keyed.countP fun entry => decide (entry.1 / 2 ^ 48 + 1 < i) := by
    intro i
    induction i with
    | zero => simp
    | succ i ih =>
      intro hi
      rw [take_add_one, hget i (by omega), List.sum_append, ih (by omega),
        countP_below (fun entry : ℕ × ℕ => entry.1 / 2 ^ 48 + 1)]
      simp
  rw [prefixSums_get (by omega), hsum (n + 1) (by omega), zero_add]
  simp only [add_lt_add_iff_right]

theorem KeyedRows.bucket (h : IdTable ids index)
    (hkeyed : KeyedRows index ids keyed) {entry : ℕ × ℕ} (hentry : entry ∈ keyed) :
    entry.1 / 2 ^ 48 = rowBucket index ids entry.2 := by
  rw [hkeyed.keys entry hentry, prefix_bucket h, rowBucket]

theorem KeyedRows.sorted (h : KeyedRows index ids keyed) :
    keyed.Pairwise fun a b => rowKey ids a.2 < rowKey ids b.2 := by
  have := h.rows.sorted
  rwa [pairwise_map] at this

theorem fanout_rows (h : IdTable ids index)
    (hkeyed : KeyedRows index ids keyed) {n : ℕ} (hn : n ≤ 65536) :
    (prefixSums 0 (fanoutCounts keyed))[n]? =
      some ((keyed.map Prod.snd).countP fun row => decide (rowBucket index ids row < n)) := by
  rw [fanout_get keyed hn, countP_map]
  congr 1
  refine countP_congr fun entry hentry => ?_
  rw [hkeyed.bucket h hentry]
  rfl

theorem positionBytes_fanout (h : IdTable ids index)
    (hkeyed : KeyedRows index ids keyed) (hsorted : index.sortedRows = keyed.map Prod.snd)
    (hfanout : index.fanout = prefixSums 0 (fanoutCounts keyed)) (id : Bytes) :
    ∃ result, index.positionBytes id = some result ∧
      ∀ row : ℕ, result = some row ↔ ids[row]? = some id := by
  unfold HistoryIndex.positionBytes
  by_cases hid : id.length = index.hashLen
  · have hsize := h.size
    have hbucket := bucket_lt h hid
    have hfirst : bigEndian (id.take 2) = bigEndian id / 256 ^ (index.hashLen - 2) := by
      rw [bigEndian_take, hid]
    have hne : index.fanout.isEmpty = false := by
      rw [isEmpty_eq_false_iff, hfanout]
      intro hnil
      have := fanout_rows h hkeyed (zero_le 65536)
      rw [hnil] at this
      cases this
    have hmono : index.sortedRows.Pairwise fun a b =>
        rowBucket index ids a ≤ rowBucket index ids b := by
      rw [hsorted]
      exact hkeyed.rows.sorted.imp fun hlt => Nat.div_le_div_right (le_of_lt hlt)
    have hslice := sorted_bucket hmono (bigEndian id / 256 ^ (index.hashLen - 2))
    rw [if_neg (not_not.mpr hid), hne, hfirst]
    simp only [Bool.false_eq_true, if_false, hfanout,
      fanout_rows h hkeyed (le_of_lt hbucket), fanout_rows h hkeyed hbucket,
      bind_eq_bind, bind_some]
    rw [← hsorted, hslice, bind_some]
    refine search_rows h (o := fun row => row) (hsorted ▸ hkeyed.rows.sorted.filter _)
      (fun row hrow => hkeyed.rows.lt (hsorted ▸ mem_of_mem_filter hrow)) hid
      fun r hr => ⟨r, mem_filter.mpr ⟨hsorted ▸ hkeyed.rows.complete hr, ?_⟩, rfl⟩
    rw [decide_eq_true_iff, rowBucket, rowKey, getD_eq_getElem?_getD, hr]
    rfl
  · rw [if_pos hid]
    refine ⟨none, rfl, fun row => ⟨nofun, fun hrow => ?_⟩⟩
    exact absurd (h.length id (mem_of_getElem? hrow)) hid

theorem positionInKeyed_spec (h : IdTable ids index) (hkeyed : KeyedRows index ids keyed)
    (hfanout : index.fanout = prefixSums 0 (fanoutCounts keyed)) (hid : id.length = index.hashLen) :
    ∃ result, index.positionInKeyed keyed id = some result ∧
      ∀ row : ℕ, result = some row ↔ ids[row]? = some id := by
  have hprefix : bigEndian (id.take 8) = bigEndian id / 256 ^ (index.hashLen - 8) := by
    rw [bigEndian_take, hid]
  have hbucket := bucket_lt h hid
  rw [← prefix_bucket h, ← hprefix] at hbucket
  have hmono : keyed.Pairwise fun a b => a.1 ≤ b.1 := by
    refine hkeyed.sorted.imp_of_mem fun {a b} ha hb hlt => ?_
    rw [hkeyed.keys a ha, hkeyed.keys b hb]
    exact Nat.div_le_div_right (le_of_lt hlt)
  have hslice := sorted_bucket (b := fun entry : ℕ × ℕ => entry.1 / 2 ^ 48)
    (hmono.imp fun hle => Nat.div_le_div_right hle) (bigEndian (id.take 8) / 2 ^ 48)
  have hrun := equal_run (hmono.filter fun entry =>
    decide (entry.1 / 2 ^ 48 = bigEndian (id.take 8) / 2 ^ 48)) (bigEndian (id.take 8))
  simp only at hrun
  unfold HistoryIndex.positionInKeyed
  simp only [hfanout, fanout_get keyed (le_of_lt hbucket), fanout_get keyed hbucket,
    bind_eq_bind, bind_some, hslice, hrun]
  refine search_rows h (o := Prod.snd) ((hkeyed.sorted.filter _).filter _)
    (fun entry hentry => hkeyed.rows.lt (mem_map_of_mem
      (mem_of_mem_filter (mem_of_mem_filter hentry)))) hid fun r hr => ?_
  obtain ⟨entry, hentry, rfl⟩ := mem_map.mp (hkeyed.rows.complete hr)
  have hsame : entry.1 = bigEndian (id.take 8) := by
    rw [hkeyed.keys entry hentry, hprefix, rowKey, getD_eq_getElem?_getD, hr]
    rfl
  refine ⟨entry, mem_filter.mpr ⟨mem_filter.mpr ⟨hentry, ?_⟩, ?_⟩, rfl⟩
  · rw [hsame, decide_eq_true_iff]
  · rw [hsame, decide_eq_true_iff]

end

end GitComet.History
