import GitComet.Basis.Slice
import GitComet.FileDiff.LineText

namespace GitComet.Unified
open List Utf8 Slice
open ByteOrder (Bytes)
open FileDiff (isContinuationByte isContinuationByte_iff)

-- A read returns at least one byte or fails; the list ends where the stream does.
inductive Read where
  | bytes (first : UInt8) (rest : Bytes)
  | failed
  deriving DecidableEq

def stream : List Read → Bytes
  | .bytes first rest :: reads => first :: rest ++ stream reads
  | _ => []

def fails : List Read → Bool
  | .bytes _ _ :: reads => fails reads
  | .failed :: _ => true
  | [] => false

-- `take(limit).read_to_end`: nothing is read once the limit is used up.
def readToEnd : List Read → ℕ → Option Bytes
  | [], _ => some []
  | .failed :: _, limit => if limit = 0 then some [] else none
  | .bytes first rest :: reads, limit =>
    if limit ≤ rest.length + 1 then some ((first :: rest).take limit)
    else (readToEnd reads (limit - (rest.length + 1))).map (first :: rest ++ ·)

def lineFeed : UInt8 := 0x0A

def truncationNoticePrefix : String := "... diff truncated"

def truncationNotice (limit : String) : String :=
  truncationNoticePrefix ++ " at the " ++ limit ++ " display limit"

def lineCapacityFromBytes (bytes : Bytes) : ℕ :=
  if bytes = [] then 0
  else bytes.count lineFeed + if bytes.getLast? = some lineFeed then 0 else 1

def lineBoundaryAtOrBefore (bytes : Bytes) (limit : ℕ) : ℕ :=
  let head := bytes.take limit
  match rposition (· == lineFeed) head with
  | some index => index + 1
  | none => Kit.boundaryBelow (fun cut => !bytes[cut]?.any isContinuationByte) head.length

def lineBoundaryAfterLines : Bytes → ℕ → ℕ
  | _, 0 => 0
  | bytes, count + 1 =>
    match bytes.findIdx? (· == lineFeed) with
    | some offset => offset + 1 + lineBoundaryAfterLines (bytes.drop (offset + 1)) count
    | none => bytes.length

inductive UnifiedReadError where
  | read
  | invalidData (error : Utf8Error)

-- `none` where the length cuts a character: `String::truncate` panics there.
def truncate (text : List Char) (len : ℕ) : Option (List Char) :=
  (fromUtf8 ((encoding text).take len)).toOption

def keptBytes (bytes : Bytes) (maxBytes : ℕ) : Bytes :=
  if maxBytes < bytes.length then bytes.take (lineBoundaryAtOrBefore bytes maxBytes) else bytes

def limitLines (text : List Char) (maxLines : ℕ) (notice : Option String) :
    Option (List Char × Option String) :=
  if maxLines < lineCapacityFromBytes (encoding text) then
    (truncate text (lineBoundaryAfterLines (encoding text) maxLines)).map
      (·, some (truncationNotice s!"{maxLines}-line"))
  else some (text, notice)

-- A stream that fits in memory is shorter than `u64::MAX`, so a saturated limit reads no less.
def readUnifiedTextWithLimits (reader : List Read) (maxBytes maxLines : ℕ) :
    Option (Except UnifiedReadError (List Char × Option String)) :=
  match readToEnd reader (maxBytes + 1) with
  | none => some (.error .read)
  | some bytes =>
    match fromUtf8 (keptBytes bytes maxBytes) with
    | .error error => some (.error (.invalidData error))
    | .ok text =>
      let notice :=
        if maxBytes < bytes.length then some (truncationNotice s!"{maxBytes}-byte") else none
      (limitLines text maxLines notice).map .ok

section
variable {bytes front back whole kept : Bytes} {text : List Char} {maxBytes lines n i : ℕ}

theorem readToEnd_eq (reads : List Read) (limit : ℕ) : readToEnd reads limit =
    if limit ≤ (stream reads).length ∨ fails reads = false then some ((stream reads).take limit)
    else none := by
  induction reads generalizing limit with
  | nil => simp [readToEnd, stream, fails]
  | cons read reads ih =>
    cases read with
    | failed => simp [readToEnd, stream, fails]
    | bytes first rest =>
      rw [readToEnd, stream, fails, length_append, length_cons, ih]
      by_cases hfits : limit ≤ rest.length + 1
      · rw [if_pos hfits, if_pos (Or.inl (by omega)), take_append_of_le_length (by simpa)]
      · have hroom : limit - (rest.length + 1) ≤ (stream reads).length ↔
            limit ≤ rest.length + 1 + (stream reads).length := by omega
        simp only [if_neg hfits, hroom, take_append, length_cons,
          take_of_length_le (show (first :: rest).length ≤ limit from le_of_not_ge hfits)]
        split <;> rfl

def LineEnd (bytes : Bytes) : Prop := ∀ byte ∈ bytes.getLast?, byte = lineFeed

theorem lineEnd_append (hfront : LineEnd front) (hback : LineEnd back) :
    LineEnd (front ++ back) := by
  intro byte hbyte
  rw [getLast?_append, Option.mem_def, Option.or_eq_some_iff] at hbyte
  exact hbyte.elim (hback byte) fun hlast => hfront byte hlast.2

theorem lineFeed_mem (h : LineEnd bytes) (hn : n < bytes.length) : lineFeed ∈ bytes.drop n := by
  have hlast := getLast?_drop (l := bytes) (i := n)
  rw [if_neg (by omega)] at hlast
  obtain ⟨last, hsome⟩ := Option.isSome_iff_exists.mp
    (getLast?_isSome.mpr (ne_nil_of_length_pos (Nat.zero_lt_of_lt hn)))
  rw [← h last hsome]
  exact mem_of_getLast? (hlast.trans hsome)

theorem lines_of_lineEnd (h : LineEnd bytes) :
    lineCapacityFromBytes bytes = bytes.count lineFeed := by
  rw [lineCapacityFromBytes]
  split
  · rename_i hnil
    rw [hnil, count_nil]
  · rename_i hne
    obtain ⟨last, hlast⟩ := Option.isSome_iff_exists.mp (getLast?_isSome.mpr hne)
    rw [if_pos (hlast.trans (congrArg some (h last hlast))), Nat.add_zero]

theorem lines_append (hback : back ≠ []) :
    front.count lineFeed < lineCapacityFromBytes (front ++ back) := by
  have hne : front ++ back ≠ [] := append_ne_nil_of_right_ne_nil front hback
  rw [lineCapacityFromBytes, if_neg hne, count_append, getLast?_append_of_ne_nil _ hback]
  split
  · rename_i hlast
    have hpos := count_pos_iff.mpr (mem_of_getLast? hlast)
    omega
  · omega

theorem lines_le (bytes : Bytes) : lineCapacityFromBytes bytes ≤ bytes.count lineFeed + 1 := by
  rw [lineCapacityFromBytes]
  split_ifs <;> omega

theorem afterLines_spec (h : lines ≤ bytes.count lineFeed) :
    (bytes.take (lineBoundaryAfterLines bytes lines)).count lineFeed = lines ∧
      LineEnd (bytes.take (lineBoundaryAfterLines bytes lines)) := by
  induction lines generalizing bytes with
  | zero => exact ⟨by simp [lineBoundaryAfterLines], by simp [lineBoundaryAfterLines, LineEnd]⟩
  | succ lines ih =>
    rw [lineBoundaryAfterLines]
    split
    · rename_i offset hoffset
      obtain ⟨hlt, hfeed, hbefore⟩ := findIdx?_eq_some_iff_getElem.mp hoffset
      have hline : bytes.take (offset + 1) = bytes.take offset ++ [lineFeed] := by
        rw [take_succ_eq_append_getElem hlt, eq_of_beq hfeed]
      have hone : (bytes.take (offset + 1)).count lineFeed = 1 := by
        rw [hline, count_append, count_singleton_self, count_eq_zero.mpr]
        intro hmem
        obtain ⟨i, hi, hget⟩ := getElem_of_mem hmem
        rw [length_take] at hi
        rw [getElem_take] at hget
        exact hbefore i (by omega) (beq_iff_eq.mpr hget)
      have hcount := congrArg (count lineFeed) (take_append_drop (offset + 1) bytes)
      rw [count_append, hone] at hcount
      have hmore : lines ≤ (bytes.drop (offset + 1)).count lineFeed := by omega
      obtain ⟨hrest, hends⟩ := ih hmore
      rw [take_add, count_append, hone, hrest, add_comm]
      exact ⟨rfl, lineEnd_append (by simp [hline, LineEnd]) hends⟩
    · rename_i hnone
      rw [count_eq_zero.mpr fun hmem => ?_] at h
      · cases h
      · exact absurd (findIdx?_eq_none_iff.mp hnone _ hmem) (by decide)

theorem boundary_after_lineFeed (h : (encoding text)[i]? = some lineFeed) :
    Boundary text (i + 1) := by
  have hbefore : Boundary text i := by
    by_contra hinside
    exact absurd ((continuation_iff h).mpr hinside).1 (by decide)
  obtain ⟨left, ⟨right, rfl⟩, rfl⟩ := hbefore
  rw [encoding_append, getElem?_append_right (le_refl _), Nat.sub_self] at h
  cases right with
  | nil => cases h
  | cons c right =>
    have hmem : lineFeed ∈ String.utf8EncodeChar c := by
      rw [encoding_cons, getElem?_append_left (by simpa using c.utf8Size_pos)] at h
      exact mem_of_getElem? h
    obtain rfl := ascii_mem_encode (by decide) hmem
    refine ⟨left ++ [Char.ofNat lineFeed.toNat], by simp, ?_⟩
    rw [encoding_append, length_append]
    rfl

theorem boundary_of_lineEnd (h : LineEnd front) (hfront : front <+: encoding text) :
    Boundary text front.length := by
  rcases eq_nil_or_concat' front with rfl | ⟨init, last, rfl⟩
  · exact boundary_zero text
  · obtain rfl : last = lineFeed := h last getLast?_concat
    obtain ⟨rest, hrest⟩ := hfront
    rw [length_append, length_singleton]
    exact boundary_after_lineFeed (by simp [← hrest])

theorem read_front (h : Boundary text front.length) (hfront : front <+: encoding text) :
    ∃ left, fromUtf8 front = .ok left := by
  obtain ⟨left, ⟨right, rfl⟩, hlength⟩ := h
  rw [encoding_append] at hfront
  have hinside := prefix_of_prefix_length_le hfront (prefix_append _ _) hlength.ge
  exact ⟨left, hinside.eq_of_length hlength.symm ▸ fromUtf8_encoding left⟩

structure FirstLineExceeds (whole : Bytes) (maxBytes : ℕ) : Prop where
  long : maxBytes < whole.length
  unbroken : lineFeed ∉ whole.take maxBytes

def CutsRight (whole : Bytes) (maxBytes : ℕ) (front : Bytes) : Prop :=
  front = whole ∨ LineEnd front ∨
    FirstLineExceeds whole maxBytes ∧ ∀ byte ∈ whole[front.length]?, ¬IsContinuation byte

structure LongestFit (whole : Bytes) (maxBytes : ℕ) (kept : Bytes) : Prop where
  front : kept <+: whole
  fits : kept.length ≤ maxBytes
  ends : CutsRight whole maxBytes kept
  longest : ∀ other, other <+: whole → CutsRight whole maxBytes other →
    other.length ≤ maxBytes → other.length ≤ kept.length

theorem rposition_get {p : UInt8 → Bool} (h : rposition p bytes = some i) :
    ∃ byte, bytes[i]? = some byte ∧ p byte := by
  induction bytes generalizing i with
  | nil => cases h
  | cons byte bytes ih =>
    rw [rposition] at h
    cases hrest : rposition p bytes with
    | some j =>
      rw [hrest] at h
      cases h
      exact ih hrest
    | none =>
      rw [hrest] at h
      obtain ⟨hbyte, rfl⟩ : p byte ∧ 0 = i := by simpa using h
      exact ⟨byte, rfl, hbyte⟩

theorem kept_longest (whole : Bytes) (maxBytes : ℕ) :
    LongestFit whole maxBytes (keptBytes (whole.take (maxBytes + 1)) maxBytes) := by
  rw [keptBytes, length_take]
  split
  · rename_i hlong
    have hhead : (whole.take (maxBytes + 1)).take maxBytes = whole.take maxBytes := by
      rw [take_take, min_eq_left (Nat.le_succ _)]
    have hlength : (whole.take maxBytes).length = maxBytes := length_take_of_le (by omega)
    have hread : ∀ cut ≤ maxBytes, (whole.take (maxBytes + 1))[cut]? = whole[cut]? :=
      fun cut hcut => getElem?_take_of_lt (Nat.lt_succ_of_le hcut)
    have hother : ∀ other, other <+: whole → other.length ≤ maxBytes →
        other <+: whole.take maxBytes ∧ other ≠ whole :=
      fun other hfront hfits => ⟨prefix_take_iff.mpr ⟨hfront, hfits⟩, by rintro rfl; omega⟩
    rw [lineBoundaryAtOrBefore]
    simp only [hhead, hlength]
    cases hfeed : rposition (· == lineFeed) (whole.take maxBytes) with
    | some index =>
      have hlt := rposition_lt hfeed
      obtain ⟨byte, hbyte, hline⟩ := rposition_get hfeed
      obtain rfl := eq_of_beq hline
      rw [hlength] at hlt
      have hcut : (whole.take (index + 1)).length = index + 1 := length_take_of_le (by omega)
      have hget : whole[index]? = some lineFeed := by rwa [getElem?_take_of_lt hlt] at hbyte
      dsimp only
      rw [take_take, min_eq_left (by omega)]
      refine ⟨ take_prefix _ _, by omega, Or.inr (Or.inl ?_), fun other hfront hends hfits => ?_⟩
      · rw [take_add_one, hget]
        exact fun last hlast => (Option.some.inj (getLast?_concat.symm.trans hlast)).symm
      · obtain ⟨hinside, hne⟩ := hother other hfront hfits
        rcases hends with hwhole | hends | ⟨hfirst, -⟩
        · exact absurd hwhole hne
        · by_contra hmore
          have hmem := lineFeed_mem hends (show index + 1 < other.length by omega)
          have hlater := (hinside.drop (index + 1)).subset hmem
          exact absurd (rposition_after hfeed _ hlater) (by decide)
        · exact absurd (mem_of_getElem? hbyte) hfirst.unbroken
    | none =>
      have hunbroken : lineFeed ∉ whole.take maxBytes := fun hmem =>
        absurd (rposition_none.mp hfeed _ hmem) (by decide)
      obtain ⟨hle, hends, hgreatest⟩ := FileDiff.boundaryBelow_spec
        (fun cut => !(whole.take (maxBytes + 1))[cut]?.any isContinuationByte) maxBytes
      dsimp only
      generalize Kit.boundaryBelow _ maxBytes = cut at *
      have hcut : (whole.take cut).length = cut := length_take_of_le (by omega)
      rw [take_take, min_eq_left (by omega)]
      refine ⟨ take_prefix _ _, by omega, ?_, fun other hfront hends hfits => ?_⟩
      · rcases hends with rfl | hends
        · exact Or.inr (Or.inl (by simp [LineEnd]))
        · refine Or.inr (Or.inr ⟨⟨by omega, hunbroken⟩, fun byte hbyte hcont => ?_⟩)
          rw [hcut] at hbyte
          rw [hread cut hle, hbyte, Option.any_some, isContinuationByte_iff.mpr hcont] at hends
          cases hends
      · by_contra hmore
        obtain ⟨hfrontInside, hne⟩ := hother other hfront hfits
        rcases hends with hwhole | hends | ⟨-, hchar⟩
        · exact hne hwhole
        · exact hunbroken (hfrontInside.subset
            (lineFeed_mem hends (show 0 < other.length by omega)))
        · refine hmore (hcut.symm ▸ hgreatest other.length hfits ?_)
          rw [hread _ hfits, Bool.not_eq_true', Option.any_eq_false]
          exact fun byte hbyte => Bool.eq_false_iff.mpr fun hcont =>
            hchar byte hbyte (isContinuationByte_iff.mp hcont)
  · rw [take_of_length_le (by omega)]
    exact ⟨prefix_rfl, by omega, Or.inl rfl, fun other hfront _ _ => hfront.length_le⟩

structure FaithfulPrefix (whole : Bytes) (maxBytes maxLines : ℕ)
    (read : List Char × Option String) : Prop where
  front : encoding read.1 <+: whole
  fits : (encoding read.1).length ≤ maxBytes
  lines : lineCapacityFromBytes (encoding read.1) ≤ maxLines
  ends : CutsRight whole maxBytes (encoding read.1)
  reported : read.2.isSome = true ↔ encoding read.1 ≠ whole
  longest : ∀ other, other <+: whole → CutsRight whole maxBytes other →
    other.length ≤ maxBytes → lineCapacityFromBytes other ≤ maxLines →
    other.length ≤ (encoding read.1).length

theorem limitLines_spec {notice : Option String} (maxLines : ℕ)
    (hkept : LongestFit whole maxBytes (encoding text))
    (hnotice : notice.isSome ↔ encoding text ≠ whole) :
    ∃ read, limitLines text maxLines notice = some read ∧
      FaithfulPrefix whole maxBytes maxLines read := by
  rw [limitLines]
  split
  · rename_i hmany
    have hcapacity := lines_le (encoding text)
    have hroom : maxLines ≤ (encoding text).count lineFeed := by omega
    obtain ⟨hcount, hends⟩ := afterLines_spec hroom
    generalize lineBoundaryAfterLines (encoding text) maxLines = cut at *
    have hinside : (encoding text).take cut <+: encoding text := take_prefix _ _
    obtain ⟨front, hread⟩ := read_front (boundary_of_lineEnd hends hinside) hinside
    rw [← encoding_of_fromUtf8 hread] at hcount hends hinside
    have hlines := lines_of_lineEnd hends
    have hwhole := hinside.trans hkept.front
    rw [truncate, hread]
    refine ⟨_, rfl, hwhole, hinside.length_le.trans hkept.fits, by rw [hlines, hcount],
      Or.inr (Or.inl hends), iff_of_true rfl fun heq => ?_, fun other hother _ _ hfew => ?_⟩
    · have hsame := hinside.eq_of_length_le (by simpa [heq] using hkept.front.length_le)
      rw [hsame] at hlines hcount
      omega
    · by_contra hmore
      dsimp only at hmore
      obtain ⟨rest, hrest⟩ := prefix_of_prefix_length_le hwhole hother (by omega)
      have hne : rest ≠ [] := by
        rintro rfl
        rw [append_nil] at hrest
        exact hmore (congrArg List.length hrest).ge
      have hlarge : (encoding front).count lineFeed < _ := lines_append hne
      rw [hrest, hcount] at hlarge
      omega
  · rename_i hfew
    exact ⟨_, rfl, hkept.front, hkept.fits, le_of_not_gt hfew, hkept.ends, hnotice,
      fun other hother hends hfits _ => hkept.longest other hother hends hfits⟩

theorem kept_reads (h : fromUtf8 whole = .ok text) (maxBytes : ℕ) :
    ∃ left, fromUtf8 (keptBytes (whole.take (maxBytes + 1)) maxBytes) = .ok left := by
  obtain rfl := encoding_of_fromUtf8 h
  have hkept := kept_longest (encoding text) maxBytes
  refine read_front ?_ hkept.front
  rcases hkept.ends with hwhole | hends | ⟨-, hchar⟩
  · exact ⟨text, prefix_rfl, congrArg List.length hwhole.symm⟩
  · exact boundary_of_lineEnd hends hkept.front
  · rcases Nat.lt_or_eq_of_le hkept.front.length_le with hlt | heq
    · by_contra hinside
      have hget := getElem?_eq_getElem hlt
      exact hchar _ hget ((continuation_iff hget).mpr hinside)
    · exact ⟨text, prefix_rfl, heq.symm⟩

structure BoundedRead (reader : List Read) (maxBytes maxLines : ℕ)
    (outcome : Option (Except UnifiedReadError (List Char × Option String))) : Prop where
  total : outcome.isSome = true
  faithful : ∀ read, outcome = some (.ok read) →
    FaithfulPrefix (stream reader) maxBytes maxLines read
  valid : ∀ text, fails reader = false → fromUtf8 (stream reader) = .ok text →
    ∃ read, outcome = some (.ok read)

theorem bounded_read_is_faithful (reader : List Read) (maxBytes maxLines : ℕ) :
    BoundedRead reader maxBytes maxLines (readUnifiedTextWithLimits reader maxBytes maxLines) := by
  have hkept := kept_longest (stream reader) maxBytes
  have hcut : maxBytes < ((stream reader).take (maxBytes + 1)).length ↔
      keptBytes ((stream reader).take (maxBytes + 1)) maxBytes ≠ stream reader := by
    rw [length_take]
    refine ⟨fun hlong heq => ?_, fun hne => ?_⟩
    · have hfits := hkept.fits
      rw [heq] at hfits
      omega
    · by_contra hshort
      rw [keptBytes, length_take, if_neg hshort, take_of_length_le (by omega)] at hne
      exact hne rfl
  rw [readUnifiedTextWithLimits, readToEnd_eq]
  by_cases hread : maxBytes + 1 ≤ (stream reader).length ∨ fails reader = false
  · rw [if_pos hread]
    dsimp only
    cases hutf : fromUtf8 (keptBytes ((stream reader).take (maxBytes + 1)) maxBytes) with
    | error error =>
      refine ⟨rfl, by rintro read ⟨⟩, fun text _ hvalid => ?_⟩
      obtain ⟨left, hleft⟩ := kept_reads hvalid maxBytes
      cases hutf.symm.trans hleft
    | ok text =>
      rw [← encoding_of_fromUtf8 hutf] at hkept hcut
      dsimp only
      generalize hnotice : (if maxBytes < ((stream reader).take (maxBytes + 1)).length then
        some (truncationNotice s!"{maxBytes}-byte") else none) = notice
      have hreported : notice.isSome = true ↔ encoding text ≠ stream reader := by
        rw [← hcut, ← hnotice]
        simp
      obtain ⟨read, hlimited, hfaithful⟩ := limitLines_spec maxLines hkept hreported
      rw [hlimited]
      exact ⟨rfl, by rintro _ ⟨⟩; exact hfaithful, fun _ _ _ => ⟨read, rfl⟩⟩
  · rw [if_neg hread]
    exact ⟨rfl, by rintro _ ⟨⟩, fun _ hok _ => absurd (Or.inr hok) hread⟩

end

end GitComet.Unified
