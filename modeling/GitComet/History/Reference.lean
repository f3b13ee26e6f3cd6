import GitComet.History.IndexParents
import GitComet.Text.Hex

namespace GitComet.History
open Slice ByteOrder BinarySearch Text List Option Nat

def refineBound (ix : ℕ) (digit : UInt8) (bounds : Bytes × Bytes) : Bytes × Bytes :=
  if ix % 2 = 0 then
    (bounds.1.set (ix / 2) (digit <<< 4), bounds.2.set (ix / 2) (digit <<< 4 ||| 15))
  else
    let lower := bounds.1.set (ix / 2) (bounds.1.getD (ix / 2) 0 ||| digit)
    (lower, bounds.2.set (ix / 2) (lower.getD (ix / 2) 0))

def refineBounds : ℕ → List Char → Bytes × Bytes → Option (Bytes × Bytes)
  | _, [], bounds => some bounds
  | ix, c :: reference, bounds => do
    let digit ← Hex.nibble c
    refineBounds (ix + 1) reference (refineBound ix digit bounds)

namespace HistoryIndex
variable (index : HistoryIndex)

def commitId (row : ℕ) : Option (List Char) := (index.idBytes row).map Hex.encode

def position (id : List Char) : Option (Option ℕ) :=
  if byteLen id ≠ index.hashLen * 2 then some none
  else match Hex.decode id with
    | none => some none
    | some bytes => do
      let slots := (bytes ++ replicate 32 0).take 32
      let wanted ← sliceOf slots 0 index.hashLen
      index.positionBytes wanted

def resolveReference (reference : List Char) : Option (Option ℕ) :=
  if byteLen reference = index.hashLen * 2 then index.position reference
  else if byteLen reference < 7 ∨ index.hashLen * 2 ≤ byteLen reference then some none
  else match refineBounds 0 reference (replicate 32 0, replicate 32 255) with
    | none => some none
    | some bounds => do
      let lower ← sliceOf bounds.1 0 index.hashLen
      let upper ← sliceOf bounds.2 0 index.hashLen
      let start := partitionPoint (fun row => decide (index.indexedRow row < lower))
        index.sortedRows
      match index.sortedRows[start]? with
      | none => some none
      | some row =>
        match index.idBytes row with
        | none => some none
        | some id =>
          let another := (index.sortedRows[start + 1]?).any fun row =>
            decide (index.indexedRow row ≤ upper)
          if upper < id ∨ another then some none else some (some row)

end HistoryIndex

theorem join_toNat {high low : UInt8} (hhigh : high.toNat < 16) (hlow : low.toNat < 16) :
    (high <<< 4 ||| low).toNat = high.toNat * 16 + low.toNat := by
  have hshift : high.toNat <<< (UInt8.toNat 4 % 8) % 2 ^ 8 = high.toNat <<< 4 := by
    rw [show UInt8.toNat 4 % 8 = 4 from rfl, shiftLeft_eq, mod_eq_of_lt (by omega)]
  rw [UInt8.toNat_or, UInt8.toNat_shiftLeft, hshift, ← shiftLeft_add_eq_or_of_lt (by omega),
    shiftLeft_eq]

inductive Bounds : List ℕ → Bytes × Bytes → Prop
  | whole (front : Bytes) (rest : ℕ) : front.length + rest = 32 →
      Bounds (Hex.nibbles front)
        (front ++ replicate rest 0, front ++ replicate rest 255)
  | half (front : Bytes) (digit : UInt8) (rest : ℕ) : front.length + 1 + rest = 32 →
      digit.toNat < 16 →
      Bounds (Hex.nibbles front ++ [digit.toNat])
        (front ++ (digit <<< 4) :: replicate rest 0,
          front ++ (digit <<< 4 ||| 15) :: replicate rest 255)

variable {values : List ℕ} {bounds : Bytes × Bytes}

theorem refineBound_bounds (h : Bounds values bounds)
    {digit : UInt8} (hdigit : digit.toNat < 16) (hroom : values.length < 64) :
    Bounds (values ++ [digit.toNat]) (refineBound values.length digit bounds) := by
  cases h with
  | whole front rest hlength =>
    rw [Hex.nibbles_length] at hroom
    obtain ⟨rest, rfl⟩ : ∃ less, rest = less + 1 := ⟨rest - 1, by omega⟩
    have hstep : refineBound (Hex.nibbles front).length digit
        (front ++ replicate (rest + 1) 0, front ++ replicate (rest + 1) 255) =
        (front ++ (digit <<< 4) :: replicate rest 0,
          front ++ (digit <<< 4 ||| 15) :: replicate rest 255) := by
      rw [refineBound, Hex.nibbles_length, if_pos (mul_mod_right 2 _),
        Nat.mul_div_cancel_left _ Nat.two_pos, replicate_succ, replicate_succ]
      simp
    rw [hstep]
    exact .half front digit rest (by omega) hdigit
  | half front high rest hlength hhigh =>
    have hstep : refineBound (Hex.nibbles front ++ [high.toNat]).length digit
        (front ++ (high <<< 4) :: replicate rest 0,
          front ++ (high <<< 4 ||| 15) :: replicate rest 255) =
        (front ++ [high <<< 4 ||| digit] ++ replicate rest 0,
          front ++ [high <<< 4 ||| digit] ++ replicate rest 255) := by
      rw [refineBound, length_append, Hex.nibbles_length, length_singleton,
        if_neg (by omega), show (2 * front.length + 1) / 2 = front.length by omega]
      simp
    have hvalues : Hex.nibbles front ++ [high.toNat] ++ [digit.toNat] =
        Hex.nibbles (front ++ [high <<< 4 ||| digit]) := by
      rw [Hex.nibbles_append, Hex.nibbles, join_toNat hhigh hdigit]
      simp [Hex.nibbles]
      omega
    rw [hstep, hvalues]
    exact .whole _ rest (by simpa using hlength)

variable {reference : List Char}

variable {digits : List UInt8}

theorem refineBounds_bounds
    (h : Forall₂ (fun c digit => Hex.nibble c = some digit) reference digits) :
    ∀ {values : List ℕ} {bounds : Bytes × Bytes}, Bounds values bounds →
      values.length + reference.length ≤ 64 →
      ∃ bounds', refineBounds values.length reference bounds = some bounds' ∧
        Bounds (values ++ digits.map UInt8.toNat) bounds' := by
  induction h with
  | nil =>
    intro values bounds hbounds _
    exact ⟨bounds, rfl, by rwa [map_nil, append_nil]⟩
  | @cons c digit reference digits hc _ ih =>
    intro values bounds hbounds hroom
    rw [length_cons] at hroom
    have hnext := refineBound_bounds hbounds (Hex.nibble_spec hc).1 (by omega)
    obtain ⟨bounds', hrun, hresult⟩ := ih hnext (by simp; omega)
    rw [length_append, length_singleton] at hrun
    refine ⟨bounds', by rw [refineBounds, hc, bind_eq_bind, bind_some, hrun], ?_⟩
    rwa [map_cons, append_cons]

theorem Bounds.nibbles (h : Bounds values bounds) :
    Hex.nibbles bounds.1 = values ++ replicate (64 - values.length) 0 ∧
      Hex.nibbles bounds.2 = values ++ replicate (64 - values.length) 15 := by
  cases h with
  | whole front rest hlength =>
    rw [Hex.nibbles_append, Hex.nibbles_append, Hex.nibbles_replicate rest 0 rfl rfl,
      Hex.nibbles_replicate rest 255 rfl rfl, Hex.nibbles_length,
      show 64 - 2 * front.length = 2 * rest by omega]
    exact ⟨rfl, rfl⟩
  | half front digit rest hlength hdigit =>
    have hlow : (digit <<< 4 ||| 0).toNat = digit.toNat * 16 + 0 := join_toNat hdigit (by decide)
    have hhigh : (digit <<< 4 ||| 15).toNat = digit.toNat * 16 + 15 :=
      join_toNat hdigit (by decide)
    rw [UInt8.or_zero] at hlow
    rw [Hex.nibbles_append, Hex.nibbles_append, Hex.nibbles, Hex.nibbles, hlow, hhigh,
      Hex.nibbles_replicate rest 0 rfl rfl, Hex.nibbles_replicate rest 255 rfl rfl,
      length_append, Hex.nibbles_length, length_singleton,
      show 64 - (2 * front.length + 1) = 2 * rest + 1 by omega]
    have hdiv : (digit.toNat * 16 + 15) / 16 = digit.toNat := by omega
    simp [hdiv, replicate_succ]

variable {hashLen : ℕ} {commits : List Push}

variable {builder : HistoryIndexBuilder}

theorem BuiltFrom.column
    (h : BuiltFrom hashLen commits builder) : IdColumn (commitIds commits) builder.index where
  size := h.width ▸ h.size
  bytes := h.ids
  length id hid := (h.idLength id hid).trans h.width.symm
  rows := by
    rw [commitIds, length_map]
    exact h.rows

theorem resolveParents_keeps {lookup : Bytes → Option (Option ℕ)} {all : List Bytes} :
    ∀ {edge : ℕ} {before index : HistoryIndex}, resolveParents lookup edge all before = some index →
      index.hashLen = before.hashLen ∧ index.ids = before.ids ∧
        index.sortedRows = before.sortedRows ∧ index.parentOffsets = before.parentOffsets := by
  induction all with
  | nil =>
    intro edge before index h
    cases h
    exact ⟨rfl, rfl, rfl, rfl⟩
  | cons parent all ih =>
    intro edge before index h
    rw [resolveParents] at h
    obtain ⟨found, -, h⟩ := bind_eq_some_iff.mp h
    have hrest := ih h
    dsimp only at hrest
    split at hrest <;> exact hrest

structure FinishedRows (commits : List Push) (index : HistoryIndex) : Prop where
  column : IdColumn (commitIds commits) index
  ordered : OrderedRows (commitIds commits) index.sortedRows
  len : index.len = commits.length

variable {cancelled : ℕ → Bool}

theorem finish_rows {index : HistoryIndex}
    (h : BuiltFrom hashLen commits builder) (hfinish : builder.finish cancelled = some index) :
    index.hashLen = hashLen ∧ FinishedRows commits index := by
  have hcolumn := h.column
  have hrows : range builder.index.len = range (commitIds commits).length := by
    rw [h.len, commitIds, length_map]
  have hdone : ∀ {lookup all} {rows fanout : List ℕ}, OrderedRows (commitIds commits) rows →
      resolveParents lookup 0 all { builder.index with sortedRows := rows, fanout := fanout } =
        some index → index.hashLen = hashLen ∧ FinishedRows commits index := by
    intro lookup all rows fanout hordered hresolve
    obtain ⟨hlen, hids, hsorted, hoffsets⟩ := resolveParents_keeps hresolve
    refine ⟨hlen.trans h.width, ⟨hlen ▸ hcolumn.size, hids.trans hcolumn.bytes,
      hlen ▸ hcolumn.length, hcolumn.rows⟩, hsorted ▸ hordered, ?_⟩
    rw [HistoryIndex.len, hoffsets]
    exact h.len
  unfold HistoryIndexBuilder.finish at hfinish
  simp only [hrows] at hfinish
  split at hfinish
  · cases hfinish
  split at hfinish
  · exact hdone (keyedRows_ordered hcolumn).1 hfinish
  · exact hdone (sortRows_ordered hcolumn) hfinish

def HistoryIndex.idStarts (index : HistoryIndex) (reference : List Char) (row : ℕ) : Prop :=
  ∃ id, index.commitId row = some id ∧ reference.map Char.toLower <+: id

theorem hex_values (h : ∀ c ∈ reference, c.toLower ∈ Hex.digits) :
    ∃ digits, Forall₂ (fun c digit => Hex.nibble c = some digit) reference digits := by
  induction reference with
  | nil => exact ⟨[], .nil⟩
  | cons c reference ih =>
    obtain ⟨digit, hdigit⟩ := isSome_iff_exists.mp (Hex.nibble_isSome (h c mem_cons_self))
    obtain ⟨digits, hdigits⟩ := ih fun c hc => h c (mem_cons_of_mem _ hc)
    exact ⟨digit :: digits, .cons hdigit hdigits⟩

theorem hex_digit_lt
    (h : Forall₂ (fun c digit => Hex.nibble c = some digit) reference digits) :
    ∀ digit ∈ digits, digit.toNat < 16 := by
  induction h with
  | nil => simp
  | cons hc _ ih =>
    intro digit hdigit
    rcases mem_cons.mp hdigit with rfl | hdigit
    · exact (Hex.nibble_spec hc).1
    · exact ih digit hdigit

theorem hex_byteLen (h : ∀ c ∈ reference, c.toLower ∈ Hex.digits) :
    byteLen reference = reference.length := by
  induction reference with
  | nil => rfl
  | cons c reference ih =>
    have hlow := Hex.lower_digit_lt (h c mem_cons_self)
    rw [byteLen_cons, Hex.utf8Size_low hlow, ih fun c hc => h c (mem_cons_of_mem _ hc),
      length_cons, add_comm]

theorem Bounds.between (h : Bounds values bounds) (hvalues : ∀ value ∈ values, value < 16)
    (size : ℕ) (hsize : size ≤ 32) (hroom : values.length ≤ 2 * size) :
    ∃ lower upper, sliceOf bounds.1 0 size = some lower ∧ sliceOf bounds.2 0 size = some upper ∧
      lower.length = size ∧ upper.length = size ∧
      ∀ id : Bytes, id.length = size → (values <+: Hex.nibbles id ↔
        bigEndian lower ≤ bigEndian id ∧ bigEndian id ≤ bigEndian upper) := by
  obtain ⟨hlower, hupper⟩ := h.nibbles
  have hlength : ∀ {bytes : Bytes} {value : ℕ},
      Hex.nibbles bytes = values ++ replicate (64 - values.length) value →
        bytes.length = 32 := by
    intro bytes value heq
    have := congrArg length heq
    rw [Hex.nibbles_length, length_append, length_replicate] at this
    omega
  have htake : ∀ {bytes : Bytes} {value : ℕ},
      Hex.nibbles bytes = values ++ replicate (64 - values.length) value →
        Hex.nibbles (bytes.take size) =
          values ++ replicate (2 * size - values.length) value := by
    intro bytes value heq
    rw [Hex.nibbles_take, heq, take_append, take_of_length_le hroom,
      take_replicate, min_eq_left (by omega)]
  have hslice : ∀ {bytes : Bytes}, bytes.length = 32 →
      sliceOf bytes 0 size = some (bytes.take size) := by
    intro bytes hbytes
    rw [sliceOf_eq (Nat.zero_le _) (by omega), slice_zero]
  refine ⟨_, _, hslice (hlength hlower), hslice (hlength hupper),
    length_take_of_le ((hlength hlower).symm ▸ hsize),
    length_take_of_le ((hlength hupper).symm ▸ hsize), fun id hid => ?_⟩
  rw [Hex.bigEndian_eq_hexValue, Hex.bigEndian_eq_hexValue, Hex.bigEndian_eq_hexValue,
    htake hlower, htake hupper]
  refine Hex.starts_iff_between hvalues Hex.nibbles_lt ?_
  rw [Hex.nibbles_length, hid]
  omega

section
variable {ids : List Bytes} {index : HistoryIndex}

theorem idStarts_iff (hcolumn : IdColumn ids index) {row : ℕ} :
    index.idStarts reference row ↔
      ∃ id, ids[row]? = some id ∧ reference.map Char.toLower <+: Hex.encode id := by
  simp only [HistoryIndex.idStarts, HistoryIndex.commitId, hcolumn.idBytes, map_eq_some_iff]
  constructor
  · rintro ⟨-, ⟨id, hid, rfl⟩, hstarts⟩
    exact ⟨id, hid, hstarts⟩
  · rintro ⟨id, hid, hstarts⟩
    exact ⟨_, ⟨id, hid, rfl⟩, hstarts⟩

theorem resolveReference_spec (hcolumn : IdColumn ids index)
    (hrows : OrderedRows ids index.sortedRows) (hmin : 7 ≤ reference.length)
    (hmax : reference.length < 2 * index.hashLen) (hhex : ∀ c ∈ reference, c.toLower ∈ Hex.digits) :
    ∃ result, index.resolveReference reference = some result ∧
      ∀ row : ℕ, result = some row ↔ index.idStarts reference row ∧
        ∀ other, index.idStarts reference other → other = row := by
  have hsize := hcolumn.size
  obtain ⟨digits, hdigits⟩ := hex_values hhex
  have hcount := hdigits.length_eq
  obtain ⟨bounds, hrun, hbounds⟩ := refineBounds_bounds hdigits
    (Bounds.whole [] 32 rfl) (by simp [Hex.nibbles]; omega)
  rw [Hex.nibbles, nil_append] at hbounds
  have hvalues : ∀ value ∈ digits.map UInt8.toNat, value < 16 := by
    intro value hvalue
    obtain ⟨digit, hdigit, rfl⟩ := List.mem_map.mp hvalue
    exact hex_digit_lt hdigits digit hdigit
  obtain ⟨lower, upper, hlower, hupper, hlowerLen, hupperLen, hbetween⟩ :=
    hbounds.between hvalues index.hashLen (by omega) (by rw [length_map]; omega)
  have hstarts : ∀ row : ℕ, index.idStarts reference row ↔ row ∈ index.sortedRows ∧
      bigEndian lower ≤ rowKey ids row ∧ rowKey ids row ≤ bigEndian upper := by
    intro row
    rw [idStarts_iff hcolumn, hrows.all.mem_iff, mem_range]
    constructor
    · rintro ⟨id, hid, hstarts⟩
      obtain ⟨hlt, -⟩ := List.getElem?_eq_some_iff.mp hid
      rw [Hex.lower_prefix_iff hdigits,
        hbetween id (hcolumn.length id (mem_of_getElem? hid))] at hstarts
      rw [rowKey, getD_eq_getElem?_getD, hid]
      exact ⟨hlt, hstarts⟩
    · rintro ⟨hlt, hrange⟩
      have hid := getElem?_eq_getElem hlt
      refine ⟨_, hid, ?_⟩
      rw [rowKey, getD_eq_getElem?_getD, hid] at hrange
      rwa [Hex.lower_prefix_iff hdigits, hbetween _ (hcolumn.length _ (getElem_mem hlt))]
  have hkey : ∀ row ∈ index.sortedRows, index.idBytes row = some (index.indexedRow row) ∧
      (index.indexedRow row).length = index.hashLen ∧
        bigEndian (index.indexedRow row) = rowKey ids row := by
    intro row hrow
    have hlt := hrows.lt hrow
    rw [hcolumn.indexedRow, hcolumn.idBytes]
    refine ⟨?_, hcolumn.getD_length hlt, rfl⟩
    rw [getD_eq_getElem?_getD, getElem?_eq_getElem hlt, getD_some]
  have hstart := partitionPoint_key hrows.ordered (bigEndian lower)
    (p := fun row => decide (index.indexedRow row < lower)) fun row hrow => by
      obtain ⟨-, hlength, hvalue⟩ := hkey row hrow
      rw [← hvalue]
      exact decide_eq_decide.mpr (lt_iff (hlength.trans hlowerLen.symm))
  have honly := only_between hrows.ordered (hrows.all.nodup_iff.mpr nodup_range)
    (bigEndian lower) (bigEndian upper)
  have hunique : ∀ row : ℕ, (index.idStarts reference row ∧
      ∀ other, index.idStarts reference other → other = row) ↔ _ := fun row => by
    simp only [hstarts, and_imp]
    exact (honly row).symm
  have hbyteLen := hex_byteLen hhex
  change refineBounds 0 reference (replicate 32 0, replicate 32 255) = some bounds at hrun
  rw [HistoryIndex.resolveReference, hbyteLen, if_neg (by omega), if_neg (by omega), hrun]
  simp only [hlower, hupper, bind_eq_bind, bind_some, hstart, hunique]
  generalize partitionPoint (fun row => decide (rowKey ids row < bigEndian lower))
    index.sortedRows = start
  cases hfirst : index.sortedRows[start]? with
  | none => exact ⟨none, rfl, fun row => ⟨fun h => (by cases h), fun h => (by cases h.1)⟩⟩
  | some first =>
    obtain ⟨hid, hlength, hvalue⟩ := hkey first (mem_of_getElem? hfirst)
    have hover : upper < index.indexedRow first ↔ ¬rowKey ids first ≤ bigEndian upper := by
      rw [lt_iff (hupperLen.trans hlength.symm), hvalue, not_le]
    have hanother : ((index.sortedRows[start + 1]?).any fun row =>
        decide (index.indexedRow row ≤ upper)) ↔
          ¬∀ y : ℕ, index.sortedRows[start + 1]? = some y → ¬rowKey ids y ≤ bigEndian upper := by
      cases hnext : index.sortedRows[start + 1]? with
      | none => simp
      | some next =>
        obtain ⟨-, hlength', hvalue'⟩ := hkey next (mem_of_getElem? hnext)
        simp [le_iff (hlength'.trans hupperLen.symm), hvalue']
    simp only [hid, hover, hanother, ← not_and_or, ite_not, some.injEq]
    split
    · rename_i hgood
      refine ⟨some first, rfl, fun row => ?_⟩
      rw [some.injEq]
      exact ⟨fun heq => heq ▸ ⟨rfl, hgood⟩, fun h => h.1⟩
    · rename_i hbad
      refine ⟨none, rfl, fun row => ⟨fun h => (by cases h), fun h => absurd ?_ hbad⟩⟩
      obtain ⟨rfl, hgood⟩ := h
      exact hgood

end

def buildIndex (hashLen : ℕ) (commits : List Push) (cancelled : ℕ → Bool) :
    Option HistoryIndex := do
  let empty ← HistoryIndexBuilder.new hashLen
  let builder ← empty.pushAll commits
  builder.finish cancelled

theorem buildIndex_some
    {index : HistoryIndex} (h : buildIndex hashLen commits cancelled = some index) :
    ∃ builder, BuiltFrom hashLen commits builder ∧ builder.finish cancelled = some index := by
  obtain ⟨empty, hnew, h⟩ := bind_eq_some_iff.mp h
  obtain ⟨builder, hpush, hfinish⟩ := bind_eq_some_iff.mp h
  have hbuilt := pushAll_built (new_built hnew) hpush
  rw [nil_append] at hbuilt
  exact ⟨builder, hbuilt, hfinish⟩

theorem reference_resolves_exactly {hashLen : ℕ} {commits : List Push} {cancelled : ℕ → Bool}
    {index : HistoryIndex} (hindex : buildIndex hashLen commits cancelled = some index)
    {reference : List Char} (hmin : 7 ≤ reference.length) (hmax : reference.length < 2 * hashLen)
    (hhex : ∀ c ∈ reference, c.toLower ∈ Hex.digits) :
    ∃ result, index.resolveReference reference = some result ∧
      ∀ row : ℕ, result = some row ↔ index.idStarts reference row ∧
        ∀ other, index.idStarts reference other → other = row := by
  obtain ⟨builder, hbuilt, hfinish⟩ := buildIndex_some hindex
  obtain ⟨hwidth, hrows⟩ := finish_rows hbuilt hfinish
  exact resolveReference_spec hrows.column hrows.ordered hmin (hwidth ▸ hmax) hhex

theorem buildIndex_never (haccepted : ((HistoryIndexBuilder.new hashLen).bind fun empty =>
      empty.pushAll commits).isSome) (hdistinct : (commitIds commits).Nodup) :
    ∃ index, buildIndex hashLen commits (fun _ => false) = some index := by
  obtain ⟨builder, hbuilder⟩ := isSome_iff_exists.mp haccepted
  obtain ⟨empty, hnew, hpush⟩ := bind_eq_some_iff.mp hbuilder
  have hbuilt := pushAll_built (new_built hnew) hpush
  rw [nil_append] at hbuilt
  rcases finish_finished hbuilt hdistinct fun _ => false with
    ⟨-, check, hcheck⟩ | ⟨index, -, hfinish, -⟩
  · cases hcheck
  · refine ⟨index, ?_⟩
    simp only [buildIndex, hnew, hpush, bind_eq_bind, bind_some, hfinish]

theorem two_commits_built : ∃ index, buildIndex 20 twoCommits (fun _ => false) = some index :=
  buildIndex_never rfl (by decide)

theorem reference_of_two_commits : ∃ index, buildIndex 20 twoCommits (fun _ => false) = some index ∧
      ∃ result, index.resolveReference "0101010".toList = some result ∧
        ∀ row : ℕ, result = some row ↔ index.idStarts "0101010".toList row ∧
          ∀ other, index.idStarts "0101010".toList other → other = row := by
  obtain ⟨index, hindex⟩ := two_commits_built
  have hhex : ("0101010".toList.all fun c => decide (c.toLower ∈ Hex.digits)) = true := by decide
  exact ⟨index, hindex, reference_resolves_exactly hindex (by decide) (by decide) fun c hc =>
    of_decide_eq_true (all_eq_true.mp hhex c hc)⟩

def BuiltIndex (commits : List Push) (index : HistoryIndex) : Prop :=
  ∃ hashLen cancelled, buildIndex hashLen commits cancelled = some index

theorem BuiltIndex.rows {index : HistoryIndex}
    (h : BuiltIndex commits index) : FinishedRows commits index := by
  obtain ⟨hashLen, cancelled, hindex⟩ := h
  obtain ⟨builder, hbuilt, hfinish⟩ := buildIndex_some hindex
  exact (finish_rows hbuilt hfinish).2

theorem FinishedRows.table {index : HistoryIndex}
    (h : FinishedRows commits index) (hdistinct : (commitIds commits).Nodup) :
    IdTable (commitIds commits) index :=
  ⟨h.column.size, h.column.bytes, h.column.length, h.column.rows, hdistinct⟩

end GitComet.History
