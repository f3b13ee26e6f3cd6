import GitComet.Kit.RangeReads
import GitComet.Basis.Utf8Encoding

namespace GitComet.Resolver
open Kit Text List Option Nat

structure SourceRow where
  range : Kit.Range
  text : List Char
  deriving DecidableEq

namespace StrSource

variable (text : List Char)

def startsWithAt (offset : ℕ) (needle : List Char) : Bool :=
  match splitAtByte offset text with
  | some (_, tail) => (utf8 needle).isPrefixOf (utf8 tail)
  | none => false

def byteAt (offset : ℕ) : Option UInt8 := (utf8 text)[offset]?

def countNewlinesIn (range : Kit.Range) : ℕ :=
  let len := byteLen text
  let start := min range.start len
  let stop := max (min range.stop len) start
  let start := boundaryBelow (strIsCharBoundary text) start
  let stop := boundaryAbove (strIsCharBoundary text) len stop
  (((utf8 text).take stop).drop start).count newline

def rowCount : ℕ := countNewlinesIn text ⟨0, byteLen text⟩ + 1

-- `none` is a slice cutting into a character.
def rowsFrom (start : ℕ) : List ℕ → Option (List SourceRow)
  | [] =>
    if start ≤ byteLen text then
      (byteSlice text start (byteLen text)).map fun slice => [⟨⟨start, byteLen text⟩, slice⟩]
    else some []
  | newline :: newlines => do
    let slice ← byteSlice text start (newline + 1)
    let rows ← rowsFrom (newline + 1) newlines
    some (⟨⟨start, newline + 1⟩, slice⟩ :: rows)

def rows : Option (List SourceRow) := rowsFrom text 0 ((utf8 text).findIdxs (· == newline))

end StrSource

namespace RopeSource

def matchChunks : List (List UInt8) → ℕ → List UInt8 → Bool
  | [], _, rest => rest.isEmpty
  | bytes :: chunks, skip, rest =>
    if skip ≥ bytes.length then matchChunks chunks (skip - bytes.length) rest
    else
      let tail := bytes.drop skip
      let take := min tail.length rest.length
      if rest.take take != tail.take take then false
      else if (rest.drop take).isEmpty then true
      else matchChunks chunks 0 (rest.drop take)

variable (rope : Rope)

-- The offset sum saturates in the source, which is past the end of every text either way.
def startsWithAt (offset : ℕ) (needle : List Char) : Option Bool :=
  let stop := offset + byteLen needle
  if stop > rope.len then some false
  else (rope.chunksInRange ⟨offset, stop⟩).map fun chunks =>
    matchChunks (chunks.map utf8) (offset - rope.clipOffset offset .left) (utf8 needle)

def byteAt (offset : ℕ) : Option (Option UInt8) :=
  if offset ≥ rope.len then some none
  else
    let start := rope.clipOffset offset .left
    (rope.chunksInRange ⟨start, rope.clipOffset (offset + 1) .right⟩).map fun chunks =>
      chunks.head?.bind fun chunk => (utf8 chunk)[offset - start]?

def countNewlinesIn (range : Kit.Range) : ℕ :=
  let start := (rope.offsetToPoint range.start).row
  let stop := (rope.offsetToPoint (max range.stop range.start)).row
  stop - start

def rowCount : ℕ := rope.lineCount

structure RowScan where
  rowStart : ℕ
  carry : List Char
  visited : List SourceRow

def RowScan.visit (scan : RowScan) (rowEnd : ℕ) (slice : List Char) : RowScan :=
  let row := if scan.carry.isEmpty then slice else scan.carry ++ slice
  ⟨rowEnd, [], scan.visited ++ [⟨⟨scan.rowStart, rowEnd⟩, row⟩]⟩

def scanChunk (base : ℕ) (chunk : List Char) (scan : RowScan) (search : ℕ) : Option (RowScan × ℕ) :=
  match _hfound : memchr newline ((utf8 chunk).drop search) with
  | some found =>
    match byteSlice chunk search (search + found + 1) with
    | some slice =>
      scanChunk base chunk (scan.visit (base + (search + found) + 1) slice) (search + found + 1)
    | none => none
  | none => some (scan, search)
termination_by (utf8 chunk).length - search
decreasing_by
  have := memchr_lt _hfound
  rw [length_drop] at this
  omega

def carryRest (chunk : List Char) (scanned : RowScan × ℕ) : Option RowScan :=
  if scanned.2 < byteLen chunk then
    (byteSlice chunk scanned.2 (byteLen chunk)).map fun slice =>
      { scanned.1 with carry := scanned.1.carry ++ slice }
  else some scanned.1

def scanChunks : ℕ → RowScan → List (List Char) → Option (RowScan × ℕ)
  | base, scan, [] => some (scan, base)
  | base, scan, chunk :: chunks => do
    let scanned ← scanChunk base chunk scan 0
    let scan ← carryRest chunk scanned
    scanChunks (base + byteLen chunk) scan chunks

def rows : Option (List SourceRow) := do
  let chunks ← rope.chunksInRange ⟨0, rope.len⟩
  let scanned ← scanChunks 0 ⟨0, [], []⟩ chunks
  some (scanned.1.visited ++ [⟨⟨scanned.1.rowStart, scanned.2⟩, scanned.1.carry⟩])

end RopeSource

def rowsOf : ℕ → List Char → List Char → List SourceRow
  | start, row, [] => [⟨⟨start, start + byteLen row⟩, row⟩]
  | start, row, c :: rest =>
    if c = '\n' then
      ⟨⟨start, start + byteLen row + 1⟩, row ++ ['\n']⟩ :: rowsOf (start + byteLen row + 1) [] rest
    else rowsOf start (row ++ [c]) rest

variable {row : List Char}

theorem rowsOf_append (hrow : '\n' ∉ row) (start : ℕ) (carry rest : List Char) :
    rowsOf start carry (row ++ rest) = rowsOf start (carry ++ row) rest := by
  induction row generalizing carry with
  | nil => simp
  | cons c row ih =>
    rw [mem_cons, not_or] at hrow
    rw [cons_append, rowsOf, if_neg (Ne.symm hrow.1), ih hrow.2, append_assoc, singleton_append]

theorem rowsOf_line (hrow : '\n' ∉ row) (start : ℕ) (carry rest : List Char) :
    rowsOf start carry (row ++ '\n' :: rest) =
      ⟨⟨start, start + byteLen carry + byteLen row + 1⟩, carry ++ row ++ ['\n']⟩ ::
        rowsOf (start + byteLen carry + byteLen row + 1) [] rest := by
  rw [rowsOf_append hrow, rowsOf, if_pos rfl, byteLen_append, ← add_assoc start]

section

theorem utf8_newline : utf8 ['\n'] = [newline] := by decide

theorem byteLen_newline : byteLen ['\n'] = 1 := by decide

theorem newline_mem_utf8 (h : newline ∈ utf8 row) : '\n' ∈ row := by
  obtain ⟨c, hc, hmem⟩ := mem_flatMap.mp h
  exact newline_mem_encode hmem ▸ hc

theorem memchr_line (hrow : '\n' ∉ row) (rest : List Char) :
    memchr newline (utf8 (row ++ '\n' :: rest)) = some (byteLen row) := by
  rw [← singleton_append, utf8_append, utf8_append, utf8_newline, singleton_append,
    memchr_row (fun hmem => hrow (newline_mem_utf8 hmem)), length_utf8]

theorem utf8_drop (front back : List Char) :
    (utf8 (front ++ back)).drop (byteLen front) = utf8 back := by
  rw [utf8_append, ← length_utf8, drop_left]

end

namespace RopeSource

structure Owes (scan scan' : RowScan) (read : List Char) : Prop where
  rows : ∀ rest, scan.visited ++ rowsOf scan.rowStart scan.carry (read ++ rest) =
    scan'.visited ++ rowsOf scan'.rowStart scan'.carry rest
  place : scan'.rowStart + byteLen scan'.carry = scan.rowStart + byteLen scan.carry + byteLen read

theorem Owes.trans {scan scan' scan'' : RowScan} {read read' : List Char}
    (h : Owes scan scan' read) (h' : Owes scan' scan'' read') :
    Owes scan scan'' (read ++ read') := by
  refine ⟨fun rest => ?_, ?_⟩
  · rw [append_assoc, h.rows, h'.rows]
  · rw [h'.place, h.place, byteLen_append]
    omega

theorem owes_visit {scan : RowScan} {row : List Char} (hrow : '\n' ∉ row) :
    Owes scan (scan.visit (scan.rowStart + byteLen scan.carry + byteLen row + 1) (row ++ ['\n']))
      (row ++ ['\n']) := by
  have hjoined : (if scan.carry.isEmpty then row ++ ['\n'] else scan.carry ++ (row ++ ['\n'])) =
      scan.carry ++ row ++ ['\n'] := by
    cases scan.carry <;> simp
  refine ⟨fun rest => ?_, ?_⟩
  · rw [append_assoc, singleton_append, rowsOf_line hrow, RowScan.visit, hjoined]
    simp
  · simp only [RowScan.visit, byteLen_append, byteLen_nil, byteLen_newline]
    omega

theorem owes_carry {scan : RowScan} (hrow : '\n' ∉ row) :
    Owes scan { scan with carry := scan.carry ++ row } row := by
  refine ⟨fun rest => by rw [rowsOf_append hrow], ?_⟩
  simp only [byteLen_append]
  omega

theorem scanChunk_eq (rest : List Char) : ∀ (done : List Char) (base : ℕ) (scan : RowScan),
    scan.rowStart + byteLen scan.carry = base + byteLen done →
    ∃ scan' read last, scanChunk base (done ++ rest) scan (byteLen done) =
        some (scan', byteLen (done ++ read)) ∧ rest = read ++ last ∧ '\n' ∉ last ∧
      Owes scan scan' read := by
  induction rest using SplitRows.rows_induction '\n' with
  | last row hrow =>
    intro done base scan hplace
    refine ⟨scan, [], row, ?_, rfl, hrow, ⟨fun _ => rfl, rfl⟩⟩
    rw [scanChunk, utf8_drop]
    split
    · rename_i found hfound
      rw [memchr_none fun hmem => hrow (newline_mem_utf8 hmem)] at hfound
      cases hfound
    · rw [append_nil]
  | step row rest hrow ih =>
    intro done base scan hplace
    have hslice : byteSlice (done ++ (row ++ '\n' :: rest)) (byteLen done)
        (byteLen done + byteLen row + 1) = some (row ++ ['\n']) :=
      byteSlice_of (p := done) (m := row ++ ['\n']) (o := rest) (by simp) rfl
        (by rw [byteLen_append, byteLen_newline, add_assoc])
    have hend : base + (byteLen done + byteLen row) + 1 =
        scan.rowStart + byteLen scan.carry + byteLen row + 1 := by omega
    have howes := @owes_visit scan row hrow
    have hread : byteLen done + byteLen row + 1 = byteLen (done ++ (row ++ ['\n'])) := by
      rw [byteLen_append, byteLen_append, byteLen_newline, add_assoc]
    have htext : done ++ (row ++ '\n' :: rest) = done ++ (row ++ ['\n']) ++ rest := by simp
    obtain ⟨scan', read, last, hscan, hrest, hlast, hnext⟩ := ih (done ++ (row ++ ['\n'])) base _
      (by rw [howes.place, byteLen_append done]; omega)
    refine ⟨scan', row ++ ['\n'] ++ read, last, ?_, by rw [hrest]; simp, hlast, howes.trans hnext⟩
    rw [scanChunk, utf8_drop]
    split
    · rename_i found hfound
      obtain rfl : byteLen row = found :=
        Option.some.inj ((memchr_line hrow rest).symm.trans hfound)
      rw [hslice]
      simp only
      rw [hend, hread, htext, hscan, append_assoc]
    · rename_i hnone
      rw [memchr_line hrow] at hnone
      cases hnone

theorem carryRest_eq {done last : List Char} (hlast : '\n' ∉ last) (scan : RowScan) :
    ∃ scan', carryRest (done ++ last) (scan, byteLen done) = some scan' ∧ Owes scan scan' last := by
  have hlen : byteLen (done ++ last) = byteLen done + byteLen last := byteLen_append _ _
  by_cases hnil : last = []
  · refine ⟨scan, ?_, by rw [hnil]; exact ⟨fun _ => rfl, rfl⟩⟩
    rw [carryRest, if_neg (by simp [hnil])]
  · have hpos := byteLen_pos.mpr hnil
    refine ⟨_, ?_, owes_carry hlast⟩
    rw [carryRest, if_pos (by simp only; omega), byteSlice_of (p := done) (m := last) (o := [])
      (by simp) rfl hlen, map_some]

theorem scanChunks_eq (chunks : List (List Char)) : ∀ (base : ℕ) (scan : RowScan),
    scan.rowStart + byteLen scan.carry = base →
    ∃ scan', scanChunks base scan chunks = some (scan', base + byteLen chunks.flatten) ∧
      Owes scan scan' chunks.flatten := by
  induction chunks with
  | nil => exact fun base scan _ => ⟨scan, rfl, fun _ => rfl, rfl⟩
  | cons chunk chunks ih =>
    intro base scan hplace
    obtain ⟨scan', read, last, hscan, rfl, hlast, howes⟩ := scanChunk_eq chunk [] base scan hplace
    obtain ⟨carried, hcarried, hrest⟩ := @carryRest_eq read last hlast scan'
    have hchunk := howes.trans hrest
    obtain ⟨final, hfinal, hlater⟩ := ih (base + byteLen (read ++ last)) carried
      (by rw [hchunk.place, hplace])
    refine ⟨final, ?_, hchunk.trans hlater⟩
    rw [nil_append, byteLen_nil, nil_append] at hscan
    rw [scanChunks, hscan, bind_eq_bind, bind_some, hcarried, bind_eq_bind,
      bind_some, hfinal, flatten_cons, byteLen_append _ chunks.flatten, add_assoc]

theorem rows_eq (rope : Rope) : rows rope = some (rowsOf 0 [] rope.content) := by
  obtain ⟨slices, hslices, hflat, -⟩ := rope.chunksInRange_eq ⟨0, rope.len⟩
  rw [rope.len_eq, plain_slice_all] at hflat
  obtain ⟨scan, hscan, howes⟩ := scanChunks_eq slices 0 ⟨0, [], []⟩ rfl
  have hrows := howes.rows []
  have hplace := howes.place
  rw [append_nil, nil_append, rowsOf, hplace, hflat] at hrows
  rw [rows, hslices, bind_eq_bind, bind_some, hscan, bind_eq_bind, bind_some, hrows, hflat]
  rfl

end RopeSource

namespace StrSource

theorem findIdxs_row (hrow : '\n' ∉ row) (start : ℕ) :
    (utf8 row).findIdxs (· == newline) start = [] :=
  findIdxs_eq_nil_iff.mpr fun _ hbyte => beq_eq_false_iff_ne.mpr fun heq =>
    hrow (newline_mem_utf8 (heq ▸ hbyte))

theorem findIdxs_line (hrow : '\n' ∉ row) (start : ℕ) (rest : List Char) :
    (utf8 (row ++ '\n' :: rest)).findIdxs (· == newline) start =
      (start + byteLen row) :: (utf8 rest).findIdxs (· == newline) (start + byteLen row + 1) := by
  rw [← singleton_append, utf8_append, utf8_append, utf8_newline, singleton_append,
    findIdxs_append, findIdxs_row hrow, nil_append, findIdxs_cons,
    if_pos (BEq.refl _), length_utf8]

theorem rowsFrom_eq (rest : List Char) : ∀ done : List Char,
    rowsFrom (done ++ rest) (byteLen done) ((utf8 rest).findIdxs (· == newline) (byteLen done)) =
      some (rowsOf (byteLen done) [] rest) := by
  induction rest using SplitRows.rows_induction '\n' with
  | last row hrow =>
    intro done
    have hlen : byteLen (done ++ row) = byteLen done + byteLen row := byteLen_append _ _
    have hrows := rowsOf_append hrow (byteLen done) [] []
    rw [append_nil] at hrows
    rw [findIdxs_row hrow, rowsFrom, if_pos (by omega), byteSlice_of (p := done) (m := row)
      (o := []) (by simp) rfl hlen, hrows, rowsOf, hlen]
    rfl
  | step row rest hrow ih =>
    intro done
    have hread : byteLen done + byteLen row + 1 = byteLen (done ++ (row ++ ['\n'])) := by
      rw [byteLen_append, byteLen_append, byteLen_newline, add_assoc]
    have hslice : byteSlice (done ++ (row ++ '\n' :: rest)) (byteLen done)
        (byteLen done + byteLen row + 1) = some (row ++ ['\n']) :=
      byteSlice_of (p := done) (m := row ++ ['\n']) (o := rest) (by simp) rfl
        (by rw [byteLen_append, byteLen_newline, add_assoc])
    have htext : done ++ (row ++ '\n' :: rest) = done ++ (row ++ ['\n']) ++ rest := by simp
    have hnext := ih (done ++ (row ++ ['\n']))
    have hrows := rowsOf_line hrow (byteLen done) [] rest
    simp only [byteLen_nil, add_zero, nil_append] at hrows
    rw [findIdxs_line hrow, rowsFrom, hslice, hrows, hread, htext, bind_eq_bind, bind_some, hnext]
    rfl

theorem rows_eq (text : List Char) : rows text = some (rowsOf 0 [] text) := rowsFrom_eq text []

end StrSource

variable {offset : ℕ} {needle : List Char}

section
variable {text : List Char}

theorem boundary_iff : Utf8.Boundary text offset ↔ Plain.IsCharBoundary text offset :=
  exists_congr fun front => and_congr_right fun _ => by rw [← length_utf8]; rfl

theorem continuation_inside {byte : UInt8} (hbyte : (utf8 text)[offset]? = some byte)
    (h : ¬Plain.IsCharBoundary text offset) : Utf8.IsContinuation byte :=
  (Utf8.continuation_iff hbyte).mpr (mt boundary_iff.mp h)

theorem leads_of_needle {byte : UInt8} {rest : List UInt8}
    (h : utf8 needle = byte :: rest) : ¬Utf8.IsContinuation byte := by
  have hfirst : (Utf8.encoding needle)[0]? = some byte := congrArg (·[0]?) h
  rw [Utf8.continuation_iff hfirst, not_not]
  exact Utf8.boundary_zero needle

theorem newline_leads : ¬Utf8.IsContinuation newline := by
  rintro ⟨hlow, -⟩
  exact absurd hlow (by decide)

theorem prefix_append_iff {rest tail more : List UInt8} :
    rest <+: tail ++ more ↔
      rest.take (min tail.length rest.length) = tail.take (min tail.length rest.length) ∧
        rest.drop (min tail.length rest.length) <+: more := by
  induction tail generalizing rest with
  | nil => simp
  | cons byte tail ih =>
    cases rest with
    | nil => simp
    | cons other rest =>
      simp [cons_prefix_cons, Nat.add_min_add_right, ih, and_assoc]

theorem prefix_at_boundary (hne : needle ≠ [])
    (h : utf8 needle <+: (utf8 text).drop offset) : Plain.IsCharBoundary text offset := by
  by_contra hinside
  cases hneedle : utf8 needle with
  | nil =>
    have hlen := length_utf8 needle
    rw [hneedle] at hlen
    exact hne (byteLen_eq_zero.mp hlen.symm)
  | cons byte rest =>
    rw [hneedle] at h
    obtain ⟨after, hafter⟩ := h
    have hbyte : (utf8 text)[offset]? = some byte := by
      have := congrArg (·[0]?) hafter
      simpa using this.symm
    exact leads_of_needle hneedle (continuation_inside hbyte hinside)

end

namespace StrSource

theorem startsWithAt_iff (text : List Char) (offset : ℕ) (hne : needle ≠ []) :
    startsWithAt text offset needle ↔ utf8 needle <+: (utf8 text).drop offset := by
  rw [startsWithAt]
  cases hsplit : splitAtByte offset text with
  | none =>
    refine iff_of_false Bool.false_ne_true fun hprefix => ?_
    obtain ⟨front, ⟨back, rfl⟩, rfl⟩ := prefix_at_boundary hne hprefix
    rw [splitAtByte_append] at hsplit
    cases hsplit
  | some parts =>
    obtain ⟨front, back⟩ := parts
    obtain ⟨rfl, rfl⟩ := splitAtByte_some hsplit
    rw [utf8_drop]
    exact isPrefixOf_iff_prefix

end StrSource

namespace RopeSource

theorem matchChunks_iff (chunks : List (List UInt8)) : ∀ (skip : ℕ) {rest : List UInt8},
    rest ≠ [] → (matchChunks chunks skip rest ↔ rest <+: chunks.flatten.drop skip) := by
  induction chunks with
  | nil =>
    intro skip rest hne
    rw [matchChunks, flatten_nil, List.drop_nil, prefix_nil, List.isEmpty_iff]
  | cons bytes chunks ih =>
    intro skip rest hne
    rw [matchChunks, flatten_cons]
    by_cases hskip : skip ≥ bytes.length
    · rw [if_pos hskip, ih _ hne, drop_append, drop_eq_nil_of_le hskip, nil_append]
    · have htail : (bytes ++ chunks.flatten).drop skip = bytes.drop skip ++ chunks.flatten :=
        drop_append_of_le_length (by omega)
      rw [if_neg hskip, htail]
      rw [prefix_append_iff]
      generalize bytes.drop skip = tail
      dsimp only
      by_cases hsame : rest.take (min tail.length rest.length) =
          tail.take (min tail.length rest.length)
      · rw [if_neg (by simpa using hsame), and_iff_right hsame]
        cases hdrop : rest.drop (min tail.length rest.length) with
        | nil => exact iff_of_true rfl nil_prefix
        | cons byte later => exact ih 0 (cons_ne_nil _ _)
      · rw [if_pos (bne_iff_ne.mpr hsame)]
        exact iff_of_false Bool.false_ne_true fun h => hsame h.1

theorem utf8_flatten (slices : List (List Char)) :
    utf8 slices.flatten = (slices.map utf8).flatten := by
  induction slices with
  | nil => rfl
  | cons slice slices ih =>
    rw [flatten_cons, utf8_append, ih, map_cons, flatten_cons]

theorem utf8_drop_middle {text front middle back : List Char}
    (htext : text = front ++ (middle ++ back)) (hfront : byteLen front ≤ offset)
    (hmiddle : offset ≤ byteLen front + byteLen middle) :
    (utf8 text).drop offset = (utf8 middle).drop (offset - byteLen front) ++ utf8 back := by
  have hskip : (utf8 front).drop offset = [] :=
    drop_eq_nil_of_le (by rw [length_utf8]; exact hfront)
  have hkeep : (utf8 middle ++ utf8 back).drop (offset - byteLen front) =
      (utf8 middle).drop (offset - byteLen front) ++ utf8 back :=
    drop_append_of_le_length (by rw [length_utf8]; omega)
  rw [htext, utf8_append, utf8_append, drop_append, hskip, nil_append, length_utf8, hkeep]

theorem le_clipRange_stop (text : List Char) (range : Kit.Range) (h : range.stop ≤ byteLen text) :
    range.stop ≤ (Plain.clipRange text range).stop := by
  have hmax : max range.stop (byteLen (Plain.upTo text range.start)) ≤ byteLen text :=
    Nat.max_le.mpr ⟨h, upTo_le_len _ _⟩
  exact (le_max_left _ _).trans (WeightedPrefix.le_weight_covering Char.utf8Size hmax)

theorem slices_prefix {rope : Rope} {slices : List (List Char)} {range : Kit.Range}
    (hflat : slices.flatten = Plain.slice rope.content range) {bytes : List UInt8}
    (hlen : range.start + bytes.length ≤ range.stop) (hstop : range.stop ≤ rope.len) :
    bytes <+: (slices.map utf8).flatten.drop
        (range.start - byteLen (Plain.upTo rope.content range.start)) ↔
      bytes <+: (utf8 rope.content).drop range.start := by
  obtain ⟨back, htext, -, hstart, hend⟩ := clipRange_parts rope.content range
  have hle := upTo_le rope.content range.start
  have hcover := le_clipRange_stop rope.content range (rope.len_eq ▸ hstop)
  have hbytes := utf8_drop_middle htext hle (by omega)
  rw [hbytes, ← utf8_flatten, hflat]
  refine ⟨fun h => h.trans (prefix_append _ _), fun h => ?_⟩
  refine prefix_of_prefix_length_le h (prefix_append _ _) ?_
  rw [length_drop, length_utf8]
  omega

theorem startsWithAt_eq (rope : Rope) (offset : ℕ) (hne : needle ≠ []) :
    startsWithAt rope offset needle = some (StrSource.startsWithAt rope.content offset needle) := by
  have hbytes := length_utf8 needle
  simp only [startsWithAt]
  split_ifs with hpast
  · refine congrArg some (Eq.symm ?_)
    rw [← Bool.not_eq_true, StrSource.startsWithAt_iff _ _ hne]
    intro hprefix
    have hlen := hprefix.length_le
    have hpos := byteLen_pos.mpr hne
    rw [length_drop, length_utf8, length_utf8, ← rope.len_eq] at hlen
    omega
  · obtain ⟨slices, hslices, hflat, -⟩ :=
      rope.chunksInRange_eq ⟨offset, offset + byteLen needle⟩
    have hnone : utf8 needle ≠ [] := fun hnil =>
      hne (byteLen_eq_zero.mp (by rw [← hbytes, hnil]; rfl))
    have hclip : rope.clipOffset offset .left = byteLen (Plain.upTo rope.content offset) := by
      rw [Rope.clipOffset_left, rope.len_eq, upTo_min]
    rw [hslices, map_some, hclip]
    refine congrArg some (Bool.eq_iff_iff.mpr ?_)
    rw [matchChunks_iff _ _ hnone, StrSource.startsWithAt_iff _ _ hne]
    exact slices_prefix hflat (by rw [hbytes]) (Nat.le_of_not_lt hpast)

theorem byteAt_eq (rope : Rope) (offset : ℕ) :
    byteAt rope offset = some (StrSource.byteAt rope.content offset) := by
  simp only [byteAt, StrSource.byteAt]
  split_ifs with hpast
  · rw [getElem?_eq_none (by rw [length_utf8, ← rope.len_eq]; exact hpast)]
  · have hclip : rope.clipOffset offset .left = byteLen (Plain.upTo rope.content offset) := by
      rw [Rope.clipOffset_left, rope.len_eq, upTo_min]
    rw [hclip]
    obtain ⟨slices, hslices, hflat, hne⟩ := rope.chunksInRange_eq
      ⟨byteLen (Plain.upTo rope.content offset), rope.clipOffset (offset + 1) .right⟩
    obtain ⟨back, htext, -, -, hend⟩ := clipRange_parts rope.content
      ⟨byteLen (Plain.upTo rope.content offset), rope.clipOffset (offset + 1) .right⟩
    have hle := upTo_le rope.content offset
    have hsize : offset < byteLen rope.content := by
      rw [← rope.len_eq]
      exact Nat.lt_of_not_le hpast
    simp only [upTo_upTo] at htext hend
    rw [hslices, map_some]
    cases slices with
    | nil =>
      have hright : offset + 1 ≤ rope.clipOffset (offset + 1) .right := by
        rw [Rope.clipOffset_right, rope.len_eq, min_eq_left hsize]
        exact WeightedPrefix.le_weight_covering Char.utf8Size hsize
      have hwide := le_clipRange_stop rope.content
        ⟨byteLen (Plain.upTo rope.content offset), rope.clipOffset (offset + 1) .right⟩ (by
          rw [Rope.clipOffset_right, rope.len_eq]
          exact boundary_le (covering_boundary _ _))
      rw [← hflat, flatten_nil, byteLen_nil] at hend
      simp only at hwide
      omega
    | cons slice slices =>
      rw [flatten_cons] at hflat
      cases slice with
      | nil => exact absurd rfl (hne [] (mem_cons_self ..))
      | cons c slice =>
        rw [← hflat, append_assoc, cons_append] at htext
        have hnext := upTo_next htext
        have hfront : (utf8 (Plain.upTo rope.content offset)).length ≤ offset := by
          rw [length_utf8]
          exact hle
        have hinside : offset - byteLen (Plain.upTo rope.content offset) <
            (utf8 (c :: slice)).length := by
          rw [length_utf8, byteLen_cons]
          omega
        refine congrArg some ?_
        rw [head?_cons, bind_some]
        generalize Plain.upTo rope.content offset = front at *
        rw [htext, utf8_append, getElem?_append_right hfront, length_utf8,
          ← cons_append, utf8_append, getElem?_append_left hinside]

end RopeSource

section
variable (text : List Char)

def newlinesBefore (offset : ℕ) : ℕ := ((utf8 text).take offset).count newline

theorem offsetToPoint_row (offset : ℕ) :
    (Plain.offsetToPoint text offset).row = newlinesBefore text offset := by
  rw [plain_offsetToPoint, ← strOffsetToPoint_eq, strOffsetToPoint, ← take_eq_take_min,
    newlinesBefore]

theorem newlinesBefore_upTo (offset : ℕ) :
    newlinesBefore text (byteLen (Plain.upTo text offset)) = newlinesBefore text offset := by
  rw [← offsetToPoint_row, ← offsetToPoint_row, Plain.offsetToPoint, Plain.offsetToPoint, upTo_upTo]

theorem newlinesBefore_min (offset : ℕ) :
    newlinesBefore text (min offset (byteLen text)) = newlinesBefore text offset := by
  rw [newlinesBefore, newlinesBefore, ← length_utf8, ← take_eq_take_min]

theorem take_between {start stop : ℕ} (h : start ≤ stop) (bytes : List UInt8) :
    (bytes.take stop).count newline =
      (bytes.take start).count newline + ((bytes.take stop).drop start).count newline := by
  have hsplit := take_append_drop start (bytes.take stop)
  rw [take_take, min_eq_left h] at hsplit
  rw [← count_append, hsplit]

theorem newlinesBefore_covering (h : offset ≤ byteLen text) :
    newlinesBefore text (byteLen (WeightedPrefix.covering Char.utf8Size text offset)) =
      newlinesBefore text offset := by
  have hle : offset ≤ byteLen (WeightedPrefix.covering Char.utf8Size text offset) :=
    WeightedPrefix.le_weight_covering Char.utf8Size h
  rw [newlinesBefore, take_between hle, newlinesBefore, add_eq_left, count_eq_zero]
  intro hmem
  obtain ⟨i, hi⟩ := mem_iff_getElem?.mp hmem
  rw [getElem?_drop, getElem?_take] at hi
  split_ifs at hi with hlt
  refine newline_leads (continuation_inside hi fun hboundary => ?_)
  have := covering_le_boundary hboundary (le_add_right offset i)
  omega

theorem str_countNewlinesIn (range : Kit.Range) :
    StrSource.countNewlinesIn text range =
      newlinesBefore text (max range.stop range.start) - newlinesBefore text range.start := by
  have hstop : max (min range.stop (byteLen text)) (min range.start (byteLen text)) =
      min (max range.stop range.start) (byteLen text) := by omega
  have hstart : min range.start (byteLen text) ≤
      min (max range.stop range.start) (byteLen text) := by omega
  have hfloor := upTo_le text (min range.start (byteLen text))
  have hceil : min (max range.stop range.start) (byteLen text) ≤
      byteLen (WeightedPrefix.covering Char.utf8Size text
        (min (max range.stop range.start) (byteLen text))) :=
    WeightedPrefix.le_weight_covering Char.utf8Size (min_le_right _ _)
  have hcut := take_between (hfloor.trans (hstart.trans hceil)) (utf8 text)
  simp only [StrSource.countNewlinesIn]
  rw [boundaryBelow_upTo fun _ => strIsCharBoundary_iff, hstop,
    boundaryAbove_covering (fun _ => strIsCharBoundary_iff) (min_le_right _ _)]
  have hlow := newlinesBefore_upTo text (min range.start (byteLen text))
  have hhigh := newlinesBefore_covering text
    (min_le_right (max range.stop range.start) (byteLen text))
  rw [newlinesBefore_min] at hlow hhigh
  rw [newlinesBefore] at hlow hhigh
  rw [hlow, hhigh] at hcut
  omega

theorem rope_countNewlinesIn (rope : Rope) (range : Kit.Range) :
    RopeSource.countNewlinesIn rope range =
      newlinesBefore rope.content (max range.stop range.start) -
        newlinesBefore rope.content range.start := by
  rw [RopeSource.countNewlinesIn, rope.offsetToPoint_eq, rope.offsetToPoint_eq, offsetToPoint_row,
    offsetToPoint_row]

theorem rowCount_eq (rope : Rope) : RopeSource.rowCount rope = StrSource.rowCount rope.content := by
  have hrow : (endPoint (utf8 rope.content)).row =
      newlinesBefore rope.content (byteLen rope.content) := by
    rw [← offsetToPoint_row, plain_offsetToPoint, ← length_utf8, take_length]
  have hzero : newlinesBefore rope.content 0 = 0 := rfl
  rw [StrSource.rowCount, str_countNewlinesIn, Nat.max_zero, hzero, Nat.sub_zero, ← hrow,
    ← rope.maxPoint_eq]
  rfl

end

structure ReadsAlike (text : List Char) (rope : Rope) : Prop where
  startsWithAt : ∀ offset needle, needle ≠ [] →
    RopeSource.startsWithAt rope offset needle = some (StrSource.startsWithAt text offset needle)
  byteAt : ∀ offset, RopeSource.byteAt rope offset = some (StrSource.byteAt text offset)
  countNewlinesIn : ∀ range,
    RopeSource.countNewlinesIn rope range = StrSource.countNewlinesIn text range
  rowCount : RopeSource.rowCount rope = StrSource.rowCount text
  rows : RopeSource.rows rope = StrSource.rows text ∧ (StrSource.rows text).isSome = true

end GitComet.Resolver
