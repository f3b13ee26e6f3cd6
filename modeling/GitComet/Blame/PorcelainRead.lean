import GitComet.Blame.Porcelain

namespace GitComet.Blame
open List ByteOrder Text Process Utf8 Option

variable {c : Char} {text : List Char}

section

def KeyChar (c : Char) : Prop := 33 ≤ c.toNat ∧ c.toNat < 128

theorem asciiByte (h : c.toNat < 128) : (UInt8.ofNat c.toNat).toNat = c.toNat := by
  rw [UInt8.toNat_ofNat']
  omega

theorem not_mem_ascii {byte : UInt8} {low : ℕ} (hbyte : byte.toNat < low)
    (h : ∀ c ∈ text, low ≤ c.toNat ∧ c.toNat < 128) : byte ∉ ascii text := by
  intro hmem
  obtain ⟨c, hc, rfl⟩ := mem_map.mp hmem
  have hbounds := h c hc
  rw [asciiByte hbounds.2] at hbyte
  omega

theorem ascii_injective {key key' : List Char} (h : ∀ c ∈ key, KeyChar c)
    (h' : ∀ c ∈ key', KeyChar c) (heq : ascii key = ascii key') : key = key' := by
  induction key generalizing key' with
  | nil => exact (map_eq_nil_iff.mp heq.symm).symm
  | cons c key ih =>
    cases key' with
    | nil => cases heq
    | cons c' key' =>
      obtain ⟨hhead, htail⟩ := cons.inj heq
      have hc := (h c mem_cons_self).2
      have hc' := (h' c' mem_cons_self).2
      have hnat := congrArg UInt8.toNat hhead
      rw [asciiByte hc, asciiByte hc'] at hnat
      rw [Char.toNat_inj.mp hnat, ih (fun d hd => h d (mem_cons_of_mem _ hd))
        (fun d hd => h' d (mem_cons_of_mem _ hd)) htail]

theorem fromUtf8_ascii (h : ∀ c ∈ text, c.toNat < 128) (bytes : Bytes) :
    (fromUtf8 (ascii text ++ bytes)).toOption = (fromUtf8 bytes).toOption.map (text ++ ·) := by
  induction text with
  | nil =>
    rw [ascii, map_nil, nil_append]
    exact map_id'.symm
  | cons c text ih =>
    have hc := h c mem_cons_self
    have hrest := ih fun d hd => h d (mem_cons_of_mem _ hd)
    rw [ascii, map_cons, cons_append, Utf8.fromUtf8_cons (by rw [asciiByte hc]; omega),
      asciiByte hc, Char.ofNat_toNat]
    rw [ascii] at hrest
    rw [hrest, Option.map_map]
    rfl

end

variable {value : Bytes}

section
variable {key : List Char}

structure Key (key : List Char) : Prop where
  nonempty : key ≠ []
  chars : ∀ c ∈ key, KeyChar c

instance (c : Char) : Decidable (KeyChar c) := inferInstanceAs (Decidable (_ ∧ _))

theorem hexDigit_key (h : isAsciiHexDigit c) : KeyChar c := by
  rw [isAsciiHexDigit, Bool.or_eq_true, contains_iff_mem] at h
  rcases h with hdigit | hletter
  · obtain ⟨hlow, hhigh⟩ := isDigit_bounds hdigit
    exact ⟨by omega, by omega⟩
  · have hletters : "abcdefABCDEF".toList.all (fun c => decide (KeyChar c)) := by decide
    exact of_decide_eq_true (all_eq_true.mp hletters c hletter)

def isKey (key : List Char) : Bool := !key.isEmpty && key.all fun c => decide (KeyChar c)

theorem key_of_check (h : isKey key) : Key key := by
  rw [isKey, Bool.and_eq_true] at h
  refine ⟨fun hnil => ?_, fun c hc => of_decide_eq_true (all_eq_true.mp h.2 c hc)⟩
  rw [hnil] at h
  cases h.1

theorem objectId_key (id : ObjectId) : Key id.val := by
  have hid := Bool.and_eq_true_iff.mp id.property
  refine ⟨fun hnil => ?_, fun c hc => hexDigit_key (all_eq_true.mp hid.2 c hc)⟩
  have hlen := of_decide_eq_true hid.1
  rw [hnil] at hlen
  revert hlen
  decide

theorem keyed_head (h : Key key) (value : Bytes) : (keyed key value).head? ≠ some tab := by
  obtain ⟨c, key, rfl⟩ := exists_cons_of_ne_nil h.nonempty
  intro htab
  have hmem : tab ∈ ascii (c :: key) := by
    rw [← some.inj htab]
    exact mem_cons_self
  exact not_mem_ascii (by decide) h.chars hmem

theorem keyed_newline (h : Key key) (hvalue : newline ∉ value) : newline ∉ keyed key value := by
  rw [keyed, mem_append, mem_cons]
  rintro (hmem | hmem | hmem)
  · exact not_mem_ascii (by decide) h.chars hmem
  · exact absurd hmem (by decide)
  · exact hvalue hmem

theorem splitOnce_keyed (h : Key key) (value : List Char) :
    splitOnce (key ++ ' ' :: value) = (key, value) := by
  have hkey : ∀ c ∈ key, decide (c ≠ ' ') := by
    intro c hc
    refine decide_eq_true fun hspace => ?_
    have hbound := (h.chars c hc).1
    rw [hspace] at hbound
    exact absurd hbound (by decide)
  rw [splitOnce, takeWhile_append_of_pos hkey, dropWhile_append_of_pos hkey]
  simp

theorem filenameKey : Key "filename".toList := key_of_check (by decide)

theorem stripBytes_filename (value : Bytes) :
    stripBytes (ascii "filename ".toList) (keyed "filename".toList value) = some value := by
  have hsplit : keyed "filename".toList value = ascii "filename ".toList ++ value := rfl
  rw [stripBytes, hsplit, if_pos ( isPrefixOf_iff_prefix.mpr (prefix_append _ _)), drop_left]

theorem stripBytes_keyed (h : Key key) (hne : key ≠ "filename".toList) (value : Bytes) :
    stripBytes (ascii "filename ".toList) (keyed key value) = none := by
  refine if_neg fun hfront => ?_
  obtain ⟨rest, hrest⟩ := isPrefixOf_iff_prefix.mp hfront
  have hheads := congrArg (List.takeWhile fun byte => decide (byte ≠ space)) hrest
  have hword : ∀ {word : List Char}, Key word → ∀ rest : Bytes,
      (ascii word ++ space :: rest).takeWhile (fun byte => decide (byte ≠ space)) = ascii word := by
    intro word hword rest
    have hsolid : ∀ byte ∈ ascii word, decide (byte ≠ space) := by
      intro byte hbyte
      refine decide_eq_true fun hspace => ?_
      rw [hspace] at hbyte
      exact not_mem_ascii (by decide) hword.chars hbyte
    rw [takeWhile_append_of_pos hsolid]
    simp
  have hsplit : ascii "filename ".toList ++ rest = ascii "filename".toList ++ space :: rest := rfl
  rw [hsplit, hword filenameKey, keyed, hword h] at hheads
  exact hne (ascii_injective filenameKey.chars h.chars hheads).symm

def valueText (value : Bytes) : Option (List Char) := (fromUtf8 value).toOption

theorem readLine_keyed (h : Key key) (hne : key ≠ "filename".toList) (state : BlameState)
    (value : Bytes) :
    state.readLine (keyed key value) = (valueText value).elim state (state.set key) := by
  have hread : (fromUtf8 (keyed key value)).toOption =
      (valueText value).map fun text => key ++ ' ' :: text := by
    rw [keyed, fromUtf8_ascii fun c hc => (h.chars c hc).2, Utf8.fromUtf8_cons (by decide),
      Option.map_map]
    rfl
  rw [BlameState.readLine, stripBytes_keyed h hne]
  dsimp only
  cases hvalue : valueText value with
  | none =>
    rw [hvalue] at hread
    cases hline : fromUtf8 (keyed key value) with
    | error e => rfl
    | ok line =>
      rw [hline] at hread
      cases hread
  | some text =>
    rw [hvalue] at hread
    cases hline : fromUtf8 (keyed key value) with
    | error e =>
      rw [hline] at hread
      cases hread
    | ok line =>
      rw [hline] at hread
      cases hread
      dsimp only
      rw [splitOnce_keyed h]
      rfl

end

section
variable {state : BlameState}

def unreadKeys : List (List Char) :=
  ["author-mail", "author-tz", "committer", "committer-mail", "committer-time",
    "committer-tz"].map String.toList

def keywords : List (List Char) :=
  ["author", "author-time", "summary", "previous"].map String.toList ++ unreadKeys

theorem keyword_key {key : List Char} (h : key ∈ keywords) : Key key ∧ key ≠ "filename".toList := by
  have hall : keywords.all (fun key => isKey key && decide (key ≠ "filename".toList)) := by
    decide
  have hkey := all_eq_true.mp hall key h
  rw [Bool.and_eq_true] at hkey
  exact ⟨key_of_check hkey.1, of_decide_eq_true hkey.2⟩

theorem readLine_keyword {key : List Char} (h : key ∈ keywords) (state : BlameState)
    (value : Bytes) :
    state.readLine (keyed key value) = (valueText value).elim state (state.set key) :=
  readLine_keyed (keyword_key h).1 (keyword_key h).2 state value

theorem set_unread {key : List Char} (h : key ∈ unreadKeys) (text : List Char) :
    state.set key text = state := by
  have hall : ∀ key ∈ unreadKeys, state.set key text = state := by
    simp only [unreadKeys, map_cons, map_nil, forall_mem_cons]
    exact ⟨rfl, rfl, rfl, rfl, rfl, rfl, by simp⟩
  exact hall key h

theorem readLine_unread {key : List Char} (h : key ∈ unreadKeys) (value : Bytes) :
    state.readLine (keyed key value) = state := by
  rw [readLine_keyword (mem_append_right _ h)]
  cases valueText value with
  | none => rfl
  | some text => exact set_unread h text

theorem set_objectId (id : ObjectId) (text : List Char) :
    state.set id.val text = { state with commitId := some id.val } := by
  have hother : ∀ {key : List Char}, isHexObjectId key = false → id.val ≠ key := by
    rintro key hkey rfl
    rw [id.property] at hkey
    cases hkey
  rw [BlameState.set, if_neg (hother (by decide)), if_neg (hother (by decide)),
    if_neg (hother (by decide)), if_neg (hother (by decide)), if_pos id.property]

theorem valueText_ascii (h : ∀ c ∈ text, c.toNat < 128) : valueText (ascii text) = some text := by
  have hread := fromUtf8_ascii h []
  rw [append_nil, Utf8.fromUtf8_nil] at hread
  rw [valueText, hread]
  exact congrArg some (append_nil text)

theorem trim_solid {word : List Char} (h : Solid word) : trim word = word := by
  cases word with
  | nil => rfl
  | cons c word =>
    obtain ⟨init, d, hlast⟩ :=
      (eq_nil_or_concat' (c :: word)).resolve_left (cons_ne_nil _ _)
    rw [trim, trimStart_solid (h c mem_cons_self), hlast]
    exact trimEnd_solid (h d (by rw [hlast]; simp)) init

theorem parseI64_decimal (n : ℕ) :
    parseI64 (trim (decimal n)) = if n ≤ i64Max then some (n : ℤ) else none := by
  have hall : (decimal n).all Char.isDigit :=
    all_eq_true.mpr fun c hc => decimal_digit hc
  have hdigits : readDigits (decimal n) = some n := by
    rw [readDigits, if_neg (by simp [hall, decimal_ne_nil]), decimal, Nat.ofDigitChars_ten_toDigits]
  have hunsigned := unsigned_decimal n
  rw [trim_solid fun c hc => digit_solid (decimal_digit hc), parseI64.eq_def]
  split
  · rename_i digits heq
    exact absurd (decimal_digit (n := n) (by rw [heq]; exact mem_cons_self)) (by decide)
  · rw [hunsigned, hdigits]
    rfl

theorem decimal_ascii {n : ℕ} (h : c ∈ decimal n) : 32 ≤ c.toNat ∧ c.toNat < 128 := by
  have hbounds := isDigit_bounds (decimal_digit h)
  omega

theorem position_ascii (record : PorcelainRecord) :
    ∀ c ∈ record.position, 32 ≤ c.toNat ∧ c.toNat < 128 := by
  have hspaced : ∀ {n : ℕ} {c : Char}, c ∈ ' ' :: decimal n → 32 ≤ c.toNat ∧ c.toNat < 128 := by
    intro n c hc
    rcases mem_cons.mp hc with rfl | hc
    · decide
    · exact decimal_ascii hc
  intro c hc
  rw [PorcelainRecord.position, append_assoc] at hc
  rcases mem_append.mp hc with hc | hc
  · exact decimal_ascii hc
  · rcases mem_append.mp hc with hc | hc
    · exact hspaced hc
    · cases hgroup : record.groupLines with
      | none =>
        rw [hgroup] at hc
        cases hc
      | some lines =>
        rw [hgroup] at hc
        exact hspaced hc

theorem readLine_objectId (id : ObjectId) (h : ∀ c ∈ text, c.toNat < 128) :
    state.readLine (keyed id.val (ascii text)) = { state with commitId := some id.val } := by
  have hne : id.val ≠ "filename".toList := by
    intro heq
    have hid := id.property
    rw [heq] at hid
    revert hid
    decide
  rw [readLine_keyed (objectId_key id) hne, valueText_ascii h]
  exact set_objectId id text

theorem readLine_author (h : state.author = none) (value : Bytes) :
    state.readLine (keyed "author".toList value) = { state with author := valueText value } := by
  rw [readLine_keyword (by decide)]
  cases valueText value with
  | none =>
    cases state
    cases h
    rfl
  | some text => rfl

theorem readLine_authorTime (time : ℕ) :
    state.readLine (keyed "author-time".toList (ascii (decimal time))) =
      { state with authorTimeUnix := if time ≤ i64Max then some (time : ℤ) else none } := by
  rw [readLine_keyword (by decide), valueText_ascii fun c hc => (decimal_ascii hc).2,
    ← parseI64_decimal]
  rfl

theorem readLine_summary (h : state.summary = none) (value : Bytes) :
    state.readLine (keyed "summary".toList value) = { state with summary := valueText value } := by
  rw [readLine_keyword (by decide)]
  cases valueText value with
  | none =>
    cases state
    cases h
    rfl
  | some text => rfl

theorem readLine_filename (value : Bytes) :
    state.readLine (keyed "filename".toList value) = { state with filename := some value } := by
  rw [BlameState.readLine, stripBytes_filename]

theorem readLine_boundary : state.readLine (ascii "boundary".toList) = state := by
  have hname : stripBytes (ascii "filename ".toList) (ascii "boundary".toList) = none := rfl
  have hread : valueText (ascii "boundary".toList) = some "boundary".toList :=
    valueText_ascii fun c hc => ((key_of_check (by decide)).chars c hc).2
  rw [valueText] at hread
  rw [BlameState.readLine, hname]
  cases hline : fromUtf8 (ascii "boundary".toList) with
  | error e => rfl
  | ok line =>
    rw [hline] at hread
    cases hread
    rfl

theorem authorLines_read (h : state.author = none) (author : Signature) :
    (author.lines "author".toList).foldl BlameState.readLine state =
      { state with
        author := valueText author.name.val
        authorTimeUnix := if author.time ≤ i64Max then some (author.time : ℤ) else none } := by
  have hmail : "author".toList ++ "-mail".toList ∈ unreadKeys := by decide
  have hzone : "author".toList ++ "-tz".toList ∈ unreadKeys := by decide
  have htime : "author".toList ++ "-time".toList = "author-time".toList := by decide
  simp only [Signature.lines, foldl_cons, foldl_nil]
  rw [readLine_author h, readLine_unread hmail, htime, readLine_authorTime, readLine_unread hzone]

theorem committerLines_read (committer : Signature) :
    (committer.lines "committer".toList).foldl BlameState.readLine state = state := by
  have hname : "committer".toList ∈ unreadKeys := by decide
  have hmail : "committer".toList ++ "-mail".toList ∈ unreadKeys := by decide
  have htime : "committer".toList ++ "-time".toList ∈ unreadKeys := by decide
  have hzone : "committer".toList ++ "-tz".toList ∈ unreadKeys := by decide
  simp only [Signature.lines, foldl_cons, foldl_nil]
  rw [readLine_unread hname, readLine_unread hmail, readLine_unread htime, readLine_unread hzone]

end

section
variable {record : PorcelainRecord}

def PorcelainRecord.previousText (record : PorcelainRecord) : Option (List Char) :=
  record.previous.bind fun rest => valueText rest.val

def PorcelainRecord.state (record : PorcelainRecord) : BlameState where
  commitId := some record.commitId.val
  author := valueText record.author.name.val
  authorTimeUnix := if record.author.time ≤ i64Max then some (record.author.time : ℤ) else none
  summary := valueText record.summary.val
  priorExists := record.previousText.isSome
  priorCommit := record.previousText.bind fun rest => (nextWord rest).map Prod.fst
  filename := some record.filename.val

theorem boundaryLine_read (boundary : Bool) (state : BlameState) :
    (if boundary then [ascii "boundary".toList] else []).foldl BlameState.readLine state =
      state := by
  cases boundary with
  | false => rfl
  | true => exact readLine_boundary

theorem previousLine_read {state : BlameState} (hexists : state.priorExists = false)
    (hcommit : state.priorCommit = none) (record : PorcelainRecord) :
    (record.previous.toList.map fun rest => keyed "previous".toList rest.val).foldl
        BlameState.readLine state =
      { state with
        priorExists := record.previousText.isSome
        priorCommit := record.previousText.bind fun rest => (nextWord rest).map Prod.fst } := by
  have hstate : state = { state with priorExists := false, priorCommit := none } := by
    rw [← hexists, ← hcommit]
  rw [PorcelainRecord.previousText]
  cases record.previous with
  | none => exact hstate
  | some rest =>
    have hkey : "previous".toList ∈ keywords := by decide
    refine (readLine_keyword hkey state rest.val).trans ?_
    rw [bind_some]
    cases valueText rest.val with
    | none => exact hstate
    | some text => rfl

theorem headerLines_read (record : PorcelainRecord) :
    record.headerLines.foldl BlameState.readLine {} = record.state := by
  simp only [PorcelainRecord.headerLines, foldl_cons, foldl_append, foldl_nil]
  rw [readLine_objectId _ fun c hc => (position_ascii record c hc).2, authorLines_read rfl,
    committerLines_read, readLine_summary rfl, boundaryLine_read, previousLine_read rfl rfl,
    readLine_filename]
  rfl

def HeaderLine (line : Bytes) : Prop := line.head? ≠ some tab ∧ newline ∉ line

theorem keyed_header {key : List Char} (h : Key key) (hvalue : newline ∉ value) :
    HeaderLine (keyed key value) := ⟨keyed_head h value, keyed_newline h hvalue⟩

theorem signature_header (signature : Signature) {role : List Char}
    (h : ∀ field ∈ ["", "-mail", "-time", "-tz"], role ++ field.toList ∈ keywords) :
    ∀ line ∈ signature.lines role, HeaderLine line := by
  have hkey : ∀ field ∈ ["", "-mail", "-time", "-tz"], Key (role ++ field.toList) :=
    fun field hfield => (keyword_key (h field hfield)).1
  simp only [forall_mem_cons] at hkey
  obtain ⟨hname, hmail, htime, hzone, -⟩ := hkey
  rw [show "".toList = [] from rfl, append_nil] at hname
  simp only [Signature.lines, forall_mem_cons]
  refine ⟨keyed_header hname signature.name.property, keyed_header hmail signature.mail.property,
    keyed_header htime ?_, keyed_header hzone signature.zone.property, by simp⟩
  exact not_mem_ascii (by decide) fun c hc => decimal_ascii hc

theorem headerLines_mem (record : PorcelainRecord) : ∀ line ∈ record.headerLines,
    HeaderLine line := by
  have hsummary : "summary".toList ∈ keywords := by decide
  have hprevious : "previous".toList ∈ keywords := by decide
  simp only [PorcelainRecord.headerLines, forall_mem_cons, forall_mem_append]
  refine ⟨?_, ⟨⟨⟨⟨⟨?_, ?_⟩, ?_, ?_⟩, ?_⟩, ?_⟩, ?_, ?_⟩⟩
  · exact keyed_header (objectId_key _)
      (not_mem_ascii (by decide) fun c hc => position_ascii record c hc)
  · exact signature_header _ (by decide)
  · exact signature_header _ (by decide)
  · exact keyed_header (keyword_key hsummary).1 record.summary.property
  · simp
  · have hboundary : HeaderLine (ascii "boundary".toList) := ⟨by decide, by decide⟩
    cases record.boundary with
    | false => simp
    | true => simpa using hboundary
  · intro line hline
    obtain ⟨rest, -, rfl⟩ := mem_map.mp hline
    exact keyed_header (keyword_key hprevious).1 rest.property
  · exact keyed_header filenameKey record.filename.property
  · simp

theorem parseLines_header (blamedPath : Bytes) {headers : List Bytes}
    (h : ∀ line ∈ headers, line.head? ≠ some tab) (rest : List Bytes) :
    ∀ state, parseLines blamedPath state (headers ++ rest) =
      parseLines blamedPath (headers.foldl BlameState.readLine state) rest := by
  induction headers with
  | nil => exact fun _ => rfl
  | cons line headers ih =>
    intro state
    rw [cons_append, parseLines, if_neg (h line mem_cons_self),
      ih fun found hfound => h found (mem_cons_of_mem _ hfound)]
    rfl

theorem blameLineText_spec {bytes : Bytes} (h : newline ∉ bytes) :
    ∃ text, blameLineText bytes = some text ∧
      bytesToTextPreservingUtf8 (stripByte carriageReturn bytes) = some text := by
  have hopen : stripByte newline bytes = bytes := if_neg fun hlast => h (mem_of_getLast? hlast)
  rw [blameLineText, hopen]
  cases hread : fromUtf8 (stripByte carriageReturn bytes) with
  | ok text =>
    refine ⟨text, rfl, ?_⟩
    rw [bytesToTextPreservingUtf8_eq, written, Utf8.fromUtf8_ok hread]
    exact congrArg some (append_nil text)
  | error e => exact ⟨_, bytesToTextPreservingUtf8_eq _, bytesToTextPreservingUtf8_eq _⟩

theorem parseLines_record (blamedPath : Bytes) (record : PorcelainRecord) (rest : List Bytes) :
    ∃ text, bytesToTextPreservingUtf8 (stripByte carriageReturn record.content.val) = some text ∧
      parseLines blamedPath {} (record.lines ++ rest) =
        (parseLines blamedPath {} rest).map (record.state.entry text blamedPath :: ·) := by
  obtain ⟨text, htext, hdecoded⟩ := blameLineText_spec record.content.property
  refine ⟨text, hdecoded, ?_⟩
  rw [PorcelainRecord.lines, append_assoc,
    parseLines_header blamedPath (fun line hline => (headerLines_mem record line hline).1),
    headerLines_read, singleton_append, parseLines, if_pos head?_cons, tail_cons,
    htext]
  cases parseLines blamedPath {} rest <;> rfl

theorem lines_unbroken (record : PorcelainRecord) : ∀ line ∈ record.lines, newline ∉ line := by
  simp only [PorcelainRecord.lines, forall_mem_append, forall_mem_cons]
  refine ⟨fun line hline => (headerLines_mem record line hline).2, ?_, by simp⟩
  rw [mem_cons, not_or]
  exact ⟨by decide, record.content.property⟩

theorem entry_line (state : BlameState) (text : List Char) (blamedPath : Bytes) :
    (state.entry text blamedPath).line = text := by
  rw [BlameState.entry]
  split <;> rfl

structure EntryOf (blamedPath : Bytes) (record : PorcelainRecord) (line : BlameLine) : Prop where
  text : bytesToTextPreservingUtf8 (stripByte carriageReturn record.content.val) = some line.line
  entry : line = record.state.entry line.line blamedPath

theorem parseLines_records (blamedPath : Bytes) {tail : List Bytes}
    (htail : parseLines blamedPath {} tail = some []) (records : List PorcelainRecord) :
    ∃ lines, parseLines blamedPath {} (records.flatMap PorcelainRecord.lines ++ tail) =
      some lines ∧ Forall₂ (EntryOf blamedPath) records lines := by
  induction records with
  | nil => exact ⟨[], htail, .nil⟩
  | cons record records ih =>
    obtain ⟨lines, hlines, hall⟩ := ih
    obtain ⟨text, htext, hrecord⟩ := parseLines_record blamedPath record
      (records.flatMap PorcelainRecord.lines ++ tail)
    have hline := entry_line record.state text blamedPath
    refine ⟨record.state.entry text blamedPath :: lines, ?_, .cons ⟨?_, ?_⟩ hall⟩
    · rw [flatMap_cons, append_assoc, hrecord, hlines]
      rfl
    · rw [hline, htext]
    · rw [hline]

theorem splitOn_porcelain (records : List PorcelainRecord) (closed : Bool) :
    ∃ tail, (porcelain records closed).splitOn newline =
      records.flatMap PorcelainRecord.lines ++ tail ∧ (tail = [] ∨ tail = [[]]) := by
  have hunbroken : ∀ line ∈ records.flatMap PorcelainRecord.lines, newline ∉ line := by
    intro line hline
    obtain ⟨record, -, hline⟩ := mem_flatMap.mp hline
    exact lines_unbroken record line hline
  rw [porcelain]
  generalize records.flatMap PorcelainRecord.lines = lines at hunbroken ⊢
  cases closed with
  | true =>
    refine ⟨[[]], splitOn_intercalate _ ?_ (by simp), .inr rfl⟩
    rw [forall_mem_append]
    exact ⟨hunbroken, by simp⟩
  | false =>
    rw [if_neg Bool.false_ne_true, append_nil]
    cases lines with
    | nil => exact ⟨[[]], rfl, .inr rfl⟩
    | cons line lines =>
      refine ⟨[], ?_, .inl rfl⟩
      rw [append_nil]
      exact splitOn_intercalate _ hunbroken (cons_ne_nil _ _)

theorem parse_porcelain (records : List PorcelainRecord) (closed : Bool) (blamedPath : Bytes) :
    ∃ lines, parseBlamePorcelain (porcelain records closed) blamedPath = some lines ∧
      Forall₂ (EntryOf blamedPath) records lines := by
  obtain ⟨tail, hsplit, htail⟩ := splitOn_porcelain records closed
  rw [parseBlamePorcelain, hsplit]
  refine parseLines_records blamedPath ?_ records
  rcases htail with rfl | rfl <;> rfl

end

section

structure OwnRecord (record : PorcelainRecord) (line : BlameLine) : Prop where
  commitId : line.commitId = record.commitId.val
  text : bytesToTextPreservingUtf8 (stripByte carriageReturn record.content.val) = some line.line
  author : isUncommittedCommitId record.commitId.val = false → ∀ name,
    fromUtf8 record.author.name.val = .ok name → line.author = name
  authorTime : isUncommittedCommitId record.commitId.val = false → line.authorTimeUnix =
    if record.author.time ≤ i64Max then some (record.author.time : ℤ) else none
  summary : isUncommittedCommitId record.commitId.val = false → ∀ summary,
    fromUtf8 record.summary.val = .ok summary → line.summary = summary
  uncommitted : isUncommittedCommitId record.commitId.val = true →
    line.author = notCommitted ∧ line.summary = notCommitted ∧ line.authorTimeUnix = none

theorem entry_committed (state : BlameState) (text : List Char) (blamedPath : Bytes)
    (h : isUncommittedCommitId (state.commitId.getD []) = false) :
    (state.entry text blamedPath).author = state.author.getD [] ∧
      (state.entry text blamedPath).authorTimeUnix = state.authorTimeUnix ∧
      (state.entry text blamedPath).summary = state.summary.getD [] := by
  simp only [BlameState.entry, h, Bool.false_eq_true, if_false, and_self]

theorem entry_uncommitted (state : BlameState) (text : List Char) (blamedPath : Bytes)
    (h : isUncommittedCommitId (state.commitId.getD [])) :
    (state.entry text blamedPath).author = notCommitted ∧
      (state.entry text blamedPath).summary = notCommitted ∧
      (state.entry text blamedPath).authorTimeUnix = none := by
  simp only [BlameState.entry, h, if_true, and_self]

theorem entry_commitId (state : BlameState) (text : List Char) (blamedPath : Bytes) :
    (state.entry text blamedPath).commitId = state.commitId.getD [] := by
  rw [BlameState.entry]
  split <;> rfl

theorem valueText_getD (h : fromUtf8 value = .ok text) : (valueText value).getD [] = text := by
  rw [valueText, h]
  rfl

theorem ownRecord_of_entry {blamedPath : Bytes} {record : PorcelainRecord} {line : BlameLine}
    (h : EntryOf blamedPath record line) : OwnRecord record line where
  commitId := by
    rw [h.entry, entry_commitId]
    rfl
  text := h.text
  author := by
    intro hcommitted name hname
    rw [h.entry, (entry_committed record.state _ _ hcommitted).1]
    exact valueText_getD hname
  authorTime := by
    intro hcommitted
    rw [h.entry, (entry_committed record.state _ _ hcommitted).2.1]
    rfl
  summary := by
    intro hcommitted summary hsummary
    rw [h.entry, (entry_committed record.state _ _ hcommitted).2.2]
    exact valueText_getD hsummary
  uncommitted := by
    intro hlocal
    rw [h.entry]
    exact entry_uncommitted record.state _ _ hlocal

theorem blame_entries_keep_their_records (records : List PorcelainRecord) (closed : Bool)
    (blamedPath : Bytes) :
    ∃ lines, parseBlamePorcelain (porcelain records closed) blamedPath = some lines ∧
      Forall₂ OwnRecord records lines := by
  obtain ⟨lines, hlines, hall⟩ := parse_porcelain records closed blamedPath
  exact ⟨lines, hlines, hall.imp fun _ _ => ownRecord_of_entry⟩

structure FromRecord (record : PorcelainRecord) (line : BlameLine) : Prop where
  commitId : line.commitId = record.commitId.val
  author : fromUtf8 record.author.name.val = .ok line.author
  authorTime : line.authorTimeUnix = some (record.author.time : ℤ)
  summary : fromUtf8 record.summary.val = .ok line.summary
  text : bytesToTextPreservingUtf8 (stripByte carriageReturn record.content.val) = some line.line

def localSignature : Signature where
  name := ⟨ascii "Not Committed Yet".toList, by decide⟩
  mail := ⟨ascii "<not.committed.yet>".toList, by decide⟩
  time := 1700000100
  zone := ⟨ascii "+0000".toList, by decide⟩

def localChange : PorcelainRecord where
  commitId := ⟨replicate 40 '0', by decide⟩
  originalLine := 2
  finalLine := 2
  groupLines := some 1
  author := localSignature
  committer := localSignature
  summary := ⟨ascii "Version of src/lib.rs from src/lib.rs".toList, by decide⟩
  boundary := false
  previous := some ⟨ascii "1111111111111111111111111111111111111111 src/lib.rs".toList, by decide⟩
  filename := ⟨ascii "src/lib.rs".toList, by decide⟩
  content := ⟨ascii "uncommitted line".toList, by decide⟩

theorem local_change_is_relabelled :
    ¬∃ lines, parseBlamePorcelain (porcelain [localChange] true) (ascii "src/lib.rs".toList) =
        some lines ∧ Forall₂ FromRecord [localChange] lines := by
  rintro ⟨lines, hlines, hall⟩
  obtain ⟨found, hfound, hentries⟩ :=
    parse_porcelain [localChange] true (ascii "src/lib.rs".toList)
  obtain rfl := some.inj (hlines.symm.trans hfound)
  cases hall with
  | cons hown hnone =>
    cases hentries with
    | cons hentry hrest =>
      have htime := ((ownRecord_of_entry hentry).uncommitted (by decide)).2.2
      rw [hown.authorTime] at htime
      cases htime

end

end GitComet.Blame
