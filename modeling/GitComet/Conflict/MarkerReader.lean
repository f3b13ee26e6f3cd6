import GitComet.Basis.InOrder
import GitComet.Basis.SplitRows
import GitComet.Basis.Utf8Encoding
import GitComet.Conflict.MarkerParse

namespace GitComet.Conflict
open Text SplitRows InOrder Utf8 List Nat ByteOrder

def newlineByte : UInt8 := 10

structure TakeReader where
  chunks : List Bytes
  limit : ℕ

namespace TakeReader

def fillBuf (reader : TakeReader) : Bytes := (reader.chunks.headD []).take reader.limit

def consume (reader : TakeReader) (amount : ℕ) : TakeReader :=
  let amount := min amount reader.limit
  match reader.chunks with
  | [] => ⟨[], reader.limit - amount⟩
  | chunk :: chunks =>
    ⟨if chunk.length ≤ amount then chunks else chunk.drop amount :: chunks, reader.limit - amount⟩

theorem consume_limit (reader : TakeReader) (amount : ℕ) :
    (reader.consume amount).limit = reader.limit - min amount reader.limit := by
  unfold consume
  split <;> rfl

theorem fillBuf_length (reader : TakeReader) : reader.fillBuf.length ≤ reader.limit := by
  rw [fillBuf, length_take]
  exact min_le_left _ _

def readUntil (delim : UInt8) (reader : TakeReader) : Bytes × TakeReader :=
  let available := reader.fillBuf
  match available.findIdx? (· == delim) with
  | some ix => (available.take (ix + 1), reader.consume (ix + 1))
  | none =>
    if available = [] then ([], reader)
    else
      let next := readUntil delim (reader.consume available.length)
      (available ++ next.1, next.2)
termination_by reader.limit
decreasing_by
  rename_i hne
  have hpos : 0 < reader.fillBuf.length := length_pos_of_ne_nil hne
  have hle := reader.fillBuf_length
  rw [consume_limit]
  omega

theorem readUntil_limit (delim : UInt8) (reader : TakeReader) :
    (readUntil delim reader).1.length + (readUntil delim reader).2.limit = reader.limit := by
  fun_induction readUntil delim reader with
  | case1 reader available ix hix =>
    have hlt := (findIdx?_eq_some_iff_getElem.mp hix).1
    have hle : available.length ≤ reader.limit := reader.fillBuf_length
    rw [length_take, consume_limit]
    omega
  | case2 reader available hix hempty => exact zero_add _
  | case3 reader available hix hne next ih =>
    have hle : available.length ≤ reader.limit := reader.fillBuf_length
    have hnext : next.1.length + next.2.limit = (reader.consume available.length).limit := ih
    rw [consume_limit, min_eq_left hle] at hnext
    show (available ++ next.1).length + next.2.limit = reader.limit
    rw [length_append]
    omega

theorem readUntil_lt {delim : UInt8} {reader : TakeReader}
    (h : (readUntil delim reader).1 ≠ []) : (readUntil delim reader).2.limit < reader.limit := by
  have hpos := length_pos_of_ne_nil h
  have hlimit := readUntil_limit delim reader
  omega

def Filled (reader : TakeReader) : Prop := ∀ chunk ∈ reader.chunks, chunk ≠ []

def rest (reader : TakeReader) : Bytes := reader.chunks.flatten

def allowed (reader : TakeReader) : Bytes := reader.rest.take reader.limit

structure Consumed (reader : TakeReader) (amount : ℕ) (next : TakeReader) : Prop where
  filled : next.Filled
  rest : next.rest = reader.rest.drop amount
  limit : next.limit = reader.limit - amount

variable {reader : TakeReader}

theorem consume_spec (hfilled : reader.Filled) {amount : ℕ}
    (h : amount ≤ reader.fillBuf.length) : Consumed reader amount (reader.consume amount) := by
  have hlimit : amount ≤ reader.limit := h.trans reader.fillBuf_length
  obtain ⟨chunks, limit⟩ := reader
  cases chunks with
  | nil =>
    have hzero : amount = 0 := by simpa [fillBuf] using h
    refine ⟨by simp [consume, Filled], ?_, ?_⟩
    · rw [hzero]
      rfl
    · rw [consume_limit, min_eq_left hlimit]
  | cons chunk chunks =>
    have hlen : amount ≤ chunk.length := by
      rw [fillBuf, length_take] at h
      exact h.trans (min_le_right _ _)
    have hcut : min amount limit = amount := min_eq_left hlimit
    have hconsume : consume ⟨chunk :: chunks, limit⟩ amount =
        ⟨if chunk.length ≤ amount then chunks else chunk.drop amount :: chunks,
          limit - amount⟩ := by
      rw [consume, hcut]
    rw [hconsume]
    refine ⟨?_, ?_, rfl⟩
    · intro other hother
      dsimp only at hother
      split at hother
      · exact hfilled other (mem_cons_of_mem _ hother)
      · rename_i hlt
        rcases mem_cons.mp hother with rfl | hother
        · intro hnil
          exact hlt (drop_eq_nil_iff.mp hnil)
        · exact hfilled other (mem_cons_of_mem _ hother)
    · rw [rest, rest]
      dsimp only
      rw [flatten_cons, drop_append_of_le_length hlen]
      split
      · rename_i hall
        rw [drop_eq_nil_iff.mpr hall, nil_append]
      · rw [flatten_cons]

theorem allowed_split (reader : TakeReader) :
    ∃ more, reader.allowed = reader.fillBuf ++ more ∧
      more = (reader.rest.drop reader.fillBuf.length).take
        (reader.limit - reader.fillBuf.length) := by
  refine ⟨_, ?_, rfl⟩
  obtain ⟨chunks, limit⟩ := reader
  cases chunks with
  | nil => simp [allowed, rest, fillBuf]
  | cons chunk chunks =>
    have hfill : chunk.take limit =
        ((chunk ++ chunks.flatten).take limit).take (min limit chunk.length) := by
      rw [take_take, min_eq_left (min_le_left _ _),
        take_append_of_le_length (min_le_right _ _), take_eq_take_min]
    rw [allowed, rest, fillBuf]
    dsimp only [flatten_cons, headD_cons]
    rw [length_take, ← drop_take, hfill, take_append_drop]

theorem fillBuf_nil (hfilled : reader.Filled) (h : reader.fillBuf = []) : reader.allowed = [] := by
  obtain ⟨chunks, limit⟩ := reader
  cases chunks with
  | nil => simp [allowed, rest]
  | cons chunk chunks =>
    have hne := hfilled chunk mem_cons_self
    have hlimit : limit = 0 := by simpa [fillBuf, take_eq_nil_iff, hne] using h
    rw [allowed, hlimit, take_zero]

theorem findIdx?_split {delim : UInt8} {bytes : Bytes} {ix : ℕ}
    (h : bytes.findIdx? (· == delim) = some ix) :
    ∃ row after, bytes = row ++ delim :: after ∧ delim ∉ row ∧ row.length = ix := by
  induction bytes generalizing ix with
  | nil => cases h
  | cons byte bytes ih =>
    rw [findIdx?_cons] at h
    split at h
    · rename_i hbyte
      cases h
      exact ⟨[], bytes, by rw [eq_of_beq hbyte]; rfl, not_mem_nil, rfl⟩
    · rename_i hbyte
      obtain ⟨ix', hix, rfl⟩ := Option.map_eq_some_iff.mp h
      obtain ⟨row, after, rfl, hrow, rfl⟩ := ih hix
      refine ⟨byte :: row, after, rfl, ?_, rfl⟩
      rw [mem_cons, not_or]
      exact ⟨fun he => hbyte (by rw [he]; exact BEq.refl byte), hrow⟩

theorem Consumed.trans {next last : TakeReader} {first second : ℕ}
    (h : Consumed reader first next) (h' : Consumed next second last) :
    Consumed reader (first + second) last where
  filled := h'.filled
  rest := by rw [h'.rest, h.rest, drop_drop]
  limit := by rw [h'.limit, h.limit, Nat.sub_sub]

theorem readUntil_spec (delim : UInt8) (reader : TakeReader) (hfilled : reader.Filled) :
    (readUntil delim reader).1 = (inclusiveRows delim reader.allowed).headD [] ∧
      Consumed reader (readUntil delim reader).1.length (readUntil delim reader).2 := by
  fun_induction readUntil delim reader with
  | case1 reader available ix hix =>
    obtain ⟨row, after, hrow, hfree, rfl⟩ := findIdx?_split hix
    obtain ⟨more, hallowed, -⟩ := reader.allowed_split
    have hline : available.take (row.length + 1) = row ++ [delim] := by
      rw [hrow, take_append, take_of_length_le (Nat.le_succ _), Nat.add_sub_cancel_left]
      rfl
    have hsplit : reader.allowed = row ++ delim :: (after ++ more) := by
      rw [hallowed, show reader.fillBuf = row ++ delim :: after from hrow, append_assoc,
        cons_append]
    have hlen : (row ++ [delim]).length = row.length + 1 := length_append
    rw [hline, hsplit, inclusiveRows_row hfree, hlen]
    refine ⟨rfl, consume_spec hfilled ?_⟩
    rw [show reader.fillBuf = row ++ delim :: after from hrow, length_append,
      length_cons]
    omega
  | case2 reader available hix hempty =>
    rw [fillBuf_nil hfilled hempty]
    exact ⟨rfl, hfilled, rfl, rfl⟩
  | case3 reader available hix hne next ih =>
    have hconsumed := consume_spec hfilled (le_refl reader.fillBuf.length)
    obtain ⟨hline, hnext⟩ := ih hconsumed.filled
    obtain ⟨more, hallowed, hmore⟩ := reader.allowed_split
    have hrest : (reader.consume reader.fillBuf.length).allowed = more := by
      rw [allowed, hconsumed.rest, hconsumed.limit, hmore]
    have hfree : delim ∉ reader.fillBuf := by
      intro hmem
      have hnone := findIdx?_eq_none_iff.mp hix delim hmem
      rw [BEq.refl] at hnone
      cases hnone
    refine ⟨?_, ?_⟩
    · rw [hallowed, inclusiveRows_prepend hfree hne, headD_cons, ← hrest]
      exact congrArg (reader.fillBuf ++ ·) hline
    · rw [length_append]
      exact hconsumed.trans hnext

end TakeReader

def lineStartsWith (marker : UInt8) (line : Bytes) : Bool :=
  (replicate 7 marker).isPrefixOf line

def openerByte : UInt8 := 60
def separatorByte : UInt8 := 61
def closerByte : UInt8 := 62

def readerLoop (sawOpener sawSeparator : Bool) (reader : TakeReader) : Bool :=
  let read := reader.readUntil newlineByte
  if read.1 = [] then sawOpener && decide (read.2.limit = 0)
  else if lineStartsWith openerByte read.1 then readerLoop true sawSeparator read.2
  else if sawOpener && lineStartsWith separatorByte read.1 then readerLoop sawOpener true read.2
  else if sawSeparator && lineStartsWith closerByte read.1 then true
  else readerLoop sawOpener sawSeparator read.2
termination_by reader.limit
decreasing_by
  all_goals exact TakeReader.readUntil_lt (by assumption)

def readerHasConflictMarkers (chunks : List Bytes) (budget : ℕ) : Bool :=
  readerLoop false false ⟨chunks, budget⟩

def scanLines (spent : Bool) : Bool → Bool → List Bytes → Bool
  | sawOpener, _, [] => sawOpener && spent
  | sawOpener, sawSeparator, line :: lines =>
    if lineStartsWith openerByte line then scanLines spent true sawSeparator lines
    else if sawOpener && lineStartsWith separatorByte line then scanLines spent sawOpener true lines
    else if sawSeparator && lineStartsWith closerByte line then true
    else scanLines spent sawOpener sawSeparator lines

attribute [local simp] scanLines

theorem readerLoop_eq (sawOpener sawSeparator : Bool) (reader : TakeReader)
    (hfilled : reader.Filled) :
    readerLoop sawOpener sawSeparator reader =
      scanLines (decide (reader.limit ≤ reader.rest.length)) sawOpener sawSeparator
        (inclusiveRows newlineByte reader.allowed) := by
  induction hlimit : reader.limit using Nat.strongRecOn
    generalizing reader sawOpener sawSeparator with
  | _ limit ih =>
    obtain ⟨hline, hnext⟩ := TakeReader.readUntil_spec newlineByte reader hfilled
    have hlower := @TakeReader.readUntil_lt newlineByte reader
    rw [readerLoop]
    generalize reader.readUntil newlineByte = read at hline hnext hlower ⊢
    obtain ⟨line, next⟩ := read
    dsimp only at hline hnext hlower ⊢
    have hlen : reader.allowed.length = min reader.limit reader.rest.length := length_take
    cases hrows : inclusiveRows newlineByte reader.allowed with
    | nil =>
      rw [hrows] at hline
      obtain rfl : line = [] := hline
      have hempty := congrArg flatten hrows
      rw [inclusiveRows_flatten] at hempty
      have hspent : next.limit = 0 ↔ limit ≤ reader.rest.length := by
        rw [hempty, flatten_nil, length_nil] at hlen
        rw [hnext.limit, length_nil]
        omega
      rw [if_pos rfl, scanLines, decide_eq_decide.mpr hspent]
    | cons row rows =>
      obtain ⟨hrow, hallowed, hrows'⟩ := inclusiveRows_cons hrows
      rw [hrows] at hline
      obtain rfl : line = row := hline
      have hle : line.length ≤ reader.allowed.length := by
        rw [hallowed, length_append]
        omega
      have hmore : next.allowed = rows.flatten := by
        rw [TakeReader.allowed, hnext.rest, hnext.limit, ← drop_take]
        exact (congrArg (List.drop line.length) hallowed).trans drop_left
      have hspent : next.limit ≤ next.rest.length ↔ limit ≤ reader.rest.length := by
        rw [hnext.limit, hnext.rest, length_drop]
        omega
      have hstep : ∀ sawOpener sawSeparator, readerLoop sawOpener sawSeparator next =
          scanLines (decide (limit ≤ reader.rest.length)) sawOpener sawSeparator rows := by
        intro sawOpener sawSeparator
        rw [ih next.limit (hlimit ▸ hlower hrow) sawOpener sawSeparator next hnext.filled rfl,
          hmore, hrows', decide_eq_decide.mpr hspent]
      rw [if_neg hrow, hstep, hstep, hstep, scanLines]

def isConflict : ParsedConflictSegmentRanges → Bool
  | .text _ => false
  | .conflict _ => true

def textHasConflictMarkers (text : List Char) : Bool :=
  (parseConflictMarkerRanges text).any isConflict

variable {marker : Char}

section

theorem lineStartsWith_other {marker other : UInt8} (h : marker ≠ other) {line : Bytes}
    (hline : lineStartsWith marker line) : lineStartsWith other line = false := by
  cases line with
  | nil => rfl
  | cons byte line =>
    have hmarker : marker = byte := by
      have hhead := (Bool.and_eq_true _ _ ▸ hline).1
      exact eq_of_beq hhead
    have hother : (other == byte) = false := by
      rw [← hmarker]
      exact beq_eq_false_iff_ne.mpr (Ne.symm h)
    show ((other == byte) && _) = false
    rw [hother, Bool.false_and]

def byteMarkers : List (Bytes → Bool) :=
  [lineStartsWith openerByte, lineStartsWith separatorByte, lineStartsWith closerByte]

theorem scanLines_separated (lines : List Bytes) :
    scanLines false true true lines = inOrder [lineStartsWith closerByte] lines := by
  induction lines with
  | nil => rfl
  | cons line lines ih =>
    rw [scanLines, inOrder, ih]
    by_cases hopen : lineStartsWith openerByte line
    · rw [if_pos hopen, lineStartsWith_other (by decide) hopen]
      rfl
    by_cases hsep : lineStartsWith separatorByte line
    · rw [if_neg hopen, if_pos (by rw [hsep]; rfl), lineStartsWith_other (by decide) hsep]
      rfl
    · rw [if_neg hopen, if_neg (by rw [Bool.true_and]; exact hsep), Bool.true_and, inOrder]

theorem scanLines_opened (lines : List Bytes) : scanLines false true false lines =
    inOrder [lineStartsWith separatorByte, lineStartsWith closerByte] lines := by
  induction lines with
  | nil => rfl
  | cons line lines ih =>
    rw [scanLines, inOrder, ih, scanLines_separated]
    by_cases hopen : lineStartsWith openerByte line
    · rw [if_pos hopen, lineStartsWith_other (by decide) hopen]
      rfl
    · rw [if_neg hopen]
      rfl

theorem scanLines_unspent (lines : List Bytes) :
    scanLines false false false lines = inOrder byteMarkers lines := by
  induction lines with
  | nil => rfl
  | cons line lines ih =>
    rw [scanLines, byteMarkers, inOrder, scanLines_opened, ← byteMarkers, ← ih]
    rfl

theorem scanLines_spent_opened (sawSeparator : Bool) (lines : List Bytes) :
    scanLines true true sawSeparator lines := by
  induction lines generalizing sawSeparator with
  | nil => rfl
  | cons line lines ih => simp only [scanLines, ih, ite_self]

theorem scanLines_spent (lines : List Bytes) :
    scanLines true false false lines = lines.any (lineStartsWith openerByte) := by
  induction lines with
  | nil => rfl
  | cons line lines ih =>
    rw [scanLines, scanLines_spent_opened, ih, any_cons]
    cases lineStartsWith openerByte line <;> rfl

theorem splitInclusive_rows (text : List Char) : splitInclusive text = inclusiveRows '\n' text := by
  induction text with
  | nil => rfl
  | cons c text ih =>
    rw [splitInclusive, inclusiveRows, ih]
    by_cases hc : c = '\n'
    · rw [if_pos hc, if_pos (by rw [hc]; rfl), hc]
    · rw [if_neg hc, if_neg (by simpa using hc)]
      cases inclusiveRows '\n' text <;> rfl

theorem rows_encoding (text : List Char) :
    inclusiveRows newlineByte (encoding text) = (splitInclusive text).map encoding := by
  have hfree : ∀ {row : List Char}, '\n' ∉ row → newlineByte ∉ encoding row :=
    fun hrow hmem => hrow (ascii_mem_encoding (by decide) hmem)
  rw [splitInclusive_rows]
  induction text using rows_induction '\n' with
  | last row h =>
    by_cases hne : row = []
    · rw [hne]
      rfl
    · have hne' : encoding row ≠ [] := fun he => hne (by
        have hlen := congrArg length he
        rw [length_encoding] at hlen
        exact byteLen_eq_zero.mp hlen)
      rw [inclusiveRows_free h hne, inclusiveRows_free (hfree h) hne']
      rfl
  | step row rest h ih =>
    have hrow : encoding (row ++ '\n' :: rest) = encoding row ++ newlineByte :: encoding rest :=
      encoding_append row ('\n' :: rest)
    rw [hrow, inclusiveRows_row (hfree h), inclusiveRows_row h, ih, map_cons, encoding_append]
    rfl

theorem lineStartsWith_encoding {byte : UInt8}
    (h : String.utf8EncodeChar marker = [byte]) (line : Line) :
    lineStartsWith byte (encoding line) = startsWith marker line := by
  have hmarkers : replicate 7 byte = encoding (replicate 7 marker) := by
    simp [encoding, replicate_succ, h]
  rw [Bool.eq_iff_iff, lineStartsWith, startsWith, isPrefixOf_iff_prefix,
    isPrefixOf_iff_prefix, hmarkers, encoding_prefix]

def markers : List (Line → Bool) := [startsWith '<', startsWith '=', startsWith '>']

theorem inOrder_encoding (lines : List Line) :
    inOrder byteMarkers (lines.map encoding) = inOrder markers lines := by
  have hmarkers : byteMarkers.map (· ∘ encoding) = markers := by
    simp only [byteMarkers, markers, map_cons, map_nil]
    congr 1
    · exact funext (lineStartsWith_encoding (by decide))
    congr 1
    · exact funext (lineStartsWith_encoding (by decide))
    congr 1
    exact funext (lineStartsWith_encoding (by decide))
  rw [inOrder_map, hmarkers]

end

section

inductive Stops (marker : Char) (lines : List Line) :
    Option ℕ → List (TextRange × Line) → Prop
  | never (h : ∀ line ∈ lines, startsWith marker line = false) : Stops marker lines none []
  | found (before : List Line) (line : Line) (after : List Line) (stop : ℕ)
      (hlines : lines = before ++ line :: after)
      (hbefore : ∀ line ∈ before, startsWith marker line = false)
      (hline : startsWith marker line = true) :
      Stops marker lines (some stop) (lineCursor stop after)

variable {lines : List Line}

variable {stop : Option ℕ} {rest : List (TextRange × Line)}

theorem Stops.skip {line : Line} (h : Stops marker lines stop rest)
    (hline : startsWith marker line = false) : Stops marker (line :: lines) stop rest := by
  cases h with
  | never h => exact .never (forall_mem_cons.mpr ⟨hline, h⟩)
  | found before mark after stop hlines hbefore hmark =>
    refine .found (line :: before) mark after stop (by rw [hlines]; rfl) ?_ hmark
    exact forall_mem_cons.mpr ⟨hline, hbefore⟩

theorem Stops.meets (h : Stops marker lines stop rest) (ps : List (Line → Bool)) :
    (stop = none ∧ rest = [] ∧ inOrder (startsWith marker :: ps) lines = false) ∨
      ∃ offset after, stop = some offset ∧ rest = lineCursor offset after ∧
        inOrder (startsWith marker :: ps) lines = inOrder ps after := by
  cases h with
  | never h => exact Or.inl ⟨rfl, rfl, inOrder_none h ps⟩
  | found before mark after offset hlines hbefore hmark =>
    exact Or.inr ⟨offset, after, rfl, rfl, hlines ▸ inOrder_found hbefore hmark ps⟩

theorem scanBase_stops (lines : List Line) : ∀ baseEnd offset : ℕ,
    Stops '=' lines ((scanBase baseEnd (lineCursor offset lines)).2.1.map (·.stop))
      (scanBase baseEnd (lineCursor offset lines)).2.2 := by
  induction lines with
  | nil => exact fun _ _ => .never (by simp)
  | cons line lines ih =>
    intro baseEnd offset
    rw [lineCursor, scanBase]
    split
    · rename_i hline
      exact .found [] line lines _ rfl (by simp) hline
    · rename_i hline
      exact (ih _ _).skip (Bool.eq_false_iff.mpr hline)

theorem scanOurs_stops (lines : List Line) : ∀ oursEnd offset : ℕ,
    Stops '=' lines ((scanOurs oursEnd (lineCursor offset lines)).separator.map (·.stop))
      (scanOurs oursEnd (lineCursor offset lines)).rest := by
  induction lines with
  | nil => exact fun _ _ => .never (by simp)
  | cons line lines ih =>
    intro oursEnd offset
    rw [lineCursor, scanOurs]
    split
    · rename_i hline
      exact .found [] line lines _ rfl (by simp) hline
    rename_i hline
    split
    · exact (scanBase_stops lines _ _).skip (Bool.eq_false_iff.mpr hline)
    · exact (ih _ _).skip (Bool.eq_false_iff.mpr hline)

theorem scanTheirs_stops (lines : List Line) : ∀ theirsEnd offset : ℕ,
    Stops '>' lines (scanTheirs theirsEnd (lineCursor offset lines)).2.1
      (scanTheirs theirsEnd (lineCursor offset lines)).2.2 := by
  induction lines with
  | nil => exact fun _ _ => .never (by simp)
  | cons line lines ih =>
    intro theirsEnd offset
    rw [lineCursor, scanTheirs]
    split
    · rename_i hline
      exact .found [] line lines _ rfl (by simp) hline
    · rename_i hline
      exact (ih _ _).skip (Bool.eq_false_iff.mpr hline)

theorem any_context (start stop : ℕ) : (contextRange start stop).any isConflict = false := by
  unfold contextRange
  split <;> rfl

theorem parseLoop_any {fuel : ℕ} (h : lines.length ≤ fuel) :
    ∀ start offset : ℕ, (parseLoop fuel start (lineCursor offset lines)).1.any isConflict =
      inOrder markers lines := by
  induction fuel generalizing lines with
  | zero =>
    obtain rfl := length_eq_zero_iff.mp (Nat.le_zero.mp h)
    exact fun _ _ => rfl
  | succ fuel ih =>
    intro start offset
    cases lines with
    | nil => rfl
    | cons line lines =>
      have hlines : lines.length ≤ fuel := le_of_succ_le_succ h
      by_cases hline : startsWith '<' line
      case neg =>
        rw [parseLoop_context (Bool.eq_false_iff.mpr hline), ih hlines, markers, inOrder,
          if_neg hline]
      have hours := (scanOurs_stops lines (offset + byteLen line) (offset + byteLen line)).meets
        [startsWith '>']
      simp only [lineCursor, parseLoop, hline, Bool.not_true, Bool.false_eq_true, if_false]
      rw [markers, inOrder, if_pos hline]
      rcases hours with ⟨hsep, hrest, hnone⟩ | ⟨stop, after, hsep, hrest, hsome⟩
      · rw [Option.map_eq_none_iff.mp hsep, hrest, hnone]
        simp only [parseLoop_nil, append_nil, any_context]
      · obtain ⟨separator, hseparator, rfl⟩ := Option.map_eq_some_iff.mp hsep
        rw [hseparator, hrest, hsome]
        have htheirs := (scanTheirs_stops after separator.stop separator.stop).meets []
        rcases htheirs with ⟨hend, hrest', hnone⟩ | ⟨stop, after', hend, hrest', hsome'⟩
        · rw [hnone]
          simp only [hend, hrest', parseLoop_nil, append_nil, any_context]
        · rw [hsome', inOrder]
          simp only [hend, any_append, any_cons, isConflict, Bool.true_or, Bool.or_true]

theorem textHasConflictMarkers_eq (text : List Char) :
    textHasConflictMarkers text = inOrder markers (splitInclusive text) := by
  rw [textHasConflictMarkers, parseConflictMarkerRanges,
    any_append, any_context, Bool.or_false, parseLoop_any (le_refl _)]

end

def CompleteAt (text : List Char) (before : List Line) : Prop :=
  ∃ opener ours separator theirs closer after,
    splitInclusive text =
      before ++ opener :: (ours ++ separator :: (theirs ++ closer :: after)) ∧
      startsWith '<' opener = true ∧ startsWith '=' separator = true ∧
      startsWith '>' closer = true

theorem completeAt_iff {text : List Char} :
    inOrder markers (splitInclusive text) ↔ ∃ before, CompleteAt text before := by
  rw [markers, inOrder_cons_iff]
  constructor
  · rintro ⟨before, opener, rest, hlines, hopener, hrest⟩
    obtain ⟨ours, separator, rest, rfl, hseparator, hrest⟩ := inOrder_cons_iff.mp hrest
    obtain ⟨theirs, closer, after, rfl, hcloser, -⟩ := inOrder_cons_iff.mp hrest
    exact ⟨before, opener, ours, separator, theirs, closer, after, hlines, hopener, hseparator,
      hcloser⟩
  · rintro ⟨before, opener, ours, separator, theirs, closer, after, hlines, hopener, hseparator,
      hcloser⟩
    refine ⟨before, opener, _, hlines, hopener, inOrder_cons_iff.mpr ?_⟩
    refine ⟨ours, separator, _, rfl, hseparator, inOrder_cons_iff.mpr ?_⟩
    exact ⟨theirs, closer, after, rfl, hcloser, by rw [inOrder]⟩

section
variable {chunks : List Bytes} {text : List Char} {budget : ℕ}

section
variable (hfilled : ∀ chunk ∈ chunks, chunk ≠ [])
include hfilled

theorem readerHasConflictMarkers_eq (hbytes : chunks.flatten = encoding text) :
    readerHasConflictMarkers chunks budget =
      scanLines (decide (budget ≤ (encoding text).length)) false false
        (inclusiveRows newlineByte ((encoding text).take budget)) := by
  rw [← hbytes]
  exact readerLoop_eq false false ⟨chunks, budget⟩ hfilled

theorem reader_within_budget
    (hbytes : chunks.flatten = encoding text) (hbudget : (encoding text).length < budget) :
    readerHasConflictMarkers chunks budget = textHasConflictMarkers text := by
  rw [readerHasConflictMarkers_eq hfilled hbytes, decide_eq_false (not_le_of_gt hbudget),
    scanLines_unspent, take_of_length_le (le_of_lt hbudget), rows_encoding,
    inOrder_encoding, textHasConflictMarkers_eq]

theorem reader_spent
    (hbytes : chunks.flatten = encoding text) (hbudget : budget ≤ (encoding text).length) :
    readerHasConflictMarkers chunks budget ↔
      ∃ line ∈ inclusiveRows newlineByte ((encoding text).take budget),
        lineStartsWith openerByte line := by
  rw [readerHasConflictMarkers_eq hfilled hbytes, decide_eq_true hbudget, scanLines_spent,
    any_eq_true]

end

variable {before : List Line}

theorem rows_after_lines (h : ∀ line ∈ before, FullLine line) (rest : Bytes) :
    inclusiveRows newlineByte (encoding before.flatten ++ rest) =
      before.map encoding ++ inclusiveRows newlineByte rest := by
  induction before with
  | nil => rfl
  | cons line before ih =>
    obtain ⟨⟨body, rfl, hbody⟩, hbefore⟩ := forall_mem_cons.mp h
    have hfree : newlineByte ∉ encoding body := fun hmem =>
      hbody (ascii_mem_encoding (by decide) hmem)
    have hline : encoding (body ++ ['\n']) = encoding body ++ [newlineByte] :=
      encoding_append body ['\n']
    rw [flatten_cons, encoding_append, hline, append_assoc, append_assoc,
      singleton_append, inclusiveRows_row hfree, ih hbefore, map_cons, hline,
      cons_append]

theorem opener_in_front (hblock : CompleteAt text before)
    (hbudget : byteLen before.flatten + 7 ≤ budget) :
    ∃ line ∈ inclusiveRows newlineByte ((encoding text).take budget),
      lineStartsWith openerByte line := by
  obtain ⟨opener, ours, separator, theirs, closer, after, hlines, hopener, -, -⟩ := hblock
  obtain ⟨tail, htail⟩ := isPrefixOf_iff_prefix.mp hopener
  have hfull := splitInclusive_front hlines
  have hlen : (encoding before.flatten).length = byteLen before.flatten := length_encoding _
  generalize ours ++ separator :: (theirs ++ closer :: after) = rest at hlines
  have htext : encoding text = encoding before.flatten ++
      (replicate 7 openerByte ++ encoding (tail ++ rest.flatten)) := by
    have hmarker : encoding (replicate 7 '<') = replicate 7 openerByte := by decide
    have hsplit : text = before.flatten ++ (replicate 7 '<' ++ (tail ++ rest.flatten)) := by
      rw [← append_assoc (replicate 7 '<'), htail, ← flatten_cons,
        ← flatten_append, ← hlines, splitInclusive_flatten]
    rw [← hmarker, ← encoding_append, ← encoding_append, ← hsplit]
  obtain ⟨k, rfl⟩ := Nat.exists_eq_add_of_le hbudget
  have htake : (encoding text).take (byteLen before.flatten + 7 + k) = encoding before.flatten ++
        (replicate 7 openerByte ++ (encoding (tail ++ rest.flatten)).take k) := by
    have hopen : (replicate 7 openerByte ++ encoding (tail ++ rest.flatten)).take (7 + k) =
        replicate 7 openerByte ++ (encoding (tail ++ rest.flatten)).take k := by
      rw [take_append, length_replicate, take_of_length_le (by simp),
        Nat.add_sub_cancel_left]
    rw [htext, ← hlen, add_assoc, take_length_add_append, hopen]
  have hfree : newlineByte ∉ replicate 7 openerByte := by decide
  rw [htake, rows_after_lines hfull, inclusiveRows_prepend hfree (by decide)]
  refine ⟨_, mem_append_right _ mem_cons_self, ?_⟩
  exact isPrefixOf_iff_prefix.mpr (prefix_append _ _)

theorem reader_detects_markers (hfilled : ∀ chunk ∈ chunks, chunk ≠ [])
    (hbytes : chunks.flatten = encoding text) :
    (textHasConflictMarkers text = true ↔ ∃ before, CompleteAt text before) ∧
      ((encoding text).length < budget →
        readerHasConflictMarkers chunks budget = textHasConflictMarkers text) ∧
      (budget ≤ (encoding text).length → (readerHasConflictMarkers chunks budget = true ↔
        ∃ line ∈ inclusiveRows newlineByte ((encoding text).take budget),
          lineStartsWith openerByte line = true)) ∧
      ∀ before, CompleteAt text before → byteLen before.flatten + 7 ≤ budget →
        readerHasConflictMarkers chunks budget = true := by
  have hcomplete : textHasConflictMarkers text = true ↔ ∃ before, CompleteAt text before := by
    rw [textHasConflictMarkers_eq, completeAt_iff]
  refine ⟨hcomplete, reader_within_budget hfilled hbytes, reader_spent hfilled hbytes,
    fun before hblock hbudget => ?_⟩
  rcases lt_or_ge (encoding text).length budget with hlt | hge
  · rw [reader_within_budget hfilled hbytes hlt]
    exact hcomplete.mpr ⟨before, hblock⟩
  · exact (reader_spent hfilled hbytes hge).mpr (opener_in_front hblock hbudget)

end

theorem reader_detects_in_two_chunks :
    readerHasConflictMarkers [encoding "<<<<<<<\n==".toList, encoding "=====\n>>>>>>>\n".toList]
      100 = true := by
  have hdetects := @reader_detects_markers
    [encoding "<<<<<<<\n==".toList, encoding "=====\n>>>>>>>\n".toList]
    "<<<<<<<\n=======\n>>>>>>>\n".toList 100
    (forall_mem_cons.mpr ⟨by decide, forall_mem_singleton.mpr (by decide)⟩) (by decide)
  rw [hdetects.2.1 (by decide)]
  decide

theorem cut_marker_is_missed :
    CompleteAt "<<<<<<<\n=======\n>>>>>>>\n".toList [] ∧
      readerHasConflictMarkers [encoding "<<<<<<<\n=======\n>>>>>>>\n".toList] 3 = false := by
  refine ⟨⟨"<<<<<<<\n".toList, [], "=======\n".toList, [], ">>>>>>>\n".toList, [], by decide,
    by decide, by decide, by decide⟩, ?_⟩
  rw [readerHasConflictMarkers_eq (forall_mem_singleton.mpr (by decide))
    (append_nil (encoding "<<<<<<<\n=======\n>>>>>>>\n".toList))]
  decide

end GitComet.Conflict
