import GitComet.Basis.Utf8
import GitComet.Text.Hex

namespace GitComet.Process
open List Option ByteOrder Text Utf8 Nat

def escape (byte : UInt8) : List Char := '\\' :: 'x' :: Hex.encode [byte]

def escaped (bytes : Bytes) : List Char := bytes.flatMap escape

-- The text of a slice that was found valid; no text where `expect` would panic.
def expectUtf8 (bytes : Bytes) : Option (List Char) := (fromUtf8 bytes).toOption

def bytesToTextPreservingUtf8 : Bytes → Option (List Char)
  | [] => some []
  | first :: bytes =>
    match fromUtf8 (first :: bytes) with
    | .ok text => some text
    | .error e =>
      let rest := (first :: bytes).drop e.validUpTo
      let invalid := (e.errorLen.getD ⟨1, Nat.one_pos⟩).val
      (expectUtf8 ((first :: bytes).take e.validUpTo)).bind fun valid =>
        (bytesToTextPreservingUtf8 (rest.drop invalid)).map fun text =>
          valid ++ escaped (rest.take invalid) ++ text
termination_by bytes => bytes.length
decreasing_by
  have := (e.errorLen.getD ⟨1, Nat.one_pos⟩).property
  rw [length_drop, length_drop, length_cons]
  omega

def decodePending (eof : Bool) : Bytes → Option (List Char × Bytes)
  | [] => some ([], [])
  | first :: bytes =>
    match fromUtf8 (first :: bytes) with
    | .ok text => some (text, [])
    | .error e =>
      let rest := (first :: bytes).drop e.validUpTo
      (expectUtf8 ((first :: bytes).take e.validUpTo)).bind fun valid =>
        match e.errorLen with
        | none => some (if eof then (valid ++ escaped rest, []) else (valid, rest))
        | some size =>
          (decodePending eof (rest.drop size)).map fun decoded =>
            (valid ++ escaped (rest.take size) ++ decoded.1, decoded.2)
termination_by bytes => bytes.length
decreasing_by
  have := size.property
  rw [length_drop, length_drop, length_cons]
  omega

def decodeStreamChunk (pending bytes : Bytes) (eof : Bool) : Option (List Char × Bytes) :=
  decodePending eof (pending ++ bytes)

def decodeChunks (pending : Bytes) : List Bytes → Option (List (List Char) × Bytes)
  | [] => some ([], pending)
  | chunk :: chunks =>
    (decodeStreamChunk pending chunk false).bind fun decoded =>
      (decodeChunks decoded.2 chunks).map fun texts => (decoded.1 :: texts.1, texts.2)

section

theorem scan_settled (bytes : Bytes) : Utf8.scan (settle escape bytes).2 = .incomplete :=
  Utf8.scan_left bytes

def written (bytes : Bytes) : List Char :=
  (settle escape bytes).1 ++ escaped (settle escape bytes).2

variable {rest : Bytes} {text : List Char}

theorem settle_error {front : Bytes} (h : fromUtf8 front = .ok text) :
    settle escape (front ++ rest) = (text ++ (settle escape rest).1, (settle escape rest).2) := by
  rw [Utf8.settle_append, Utf8.fromUtf8_ok h, nil_append]

theorem settle_invalid {size : Utf8.Size} (h : Utf8.scan rest = .invalid size) :
    settle escape rest = (escaped (rest.take size) ++ (settle escape (rest.drop size)).1,
      (settle escape (rest.drop size)).2) := by
  have hlead : Utf8.lead escape rest = some (escaped (rest.take size), size) := by
    rw [Utf8.lead, h]
    rfl
  exact Utf8.settle_of_some hlead

theorem settle_incomplete (h : Utf8.scan rest = .incomplete) :
    settle escape rest = ([], rest) := Utf8.settle_of_none (Utf8.lead_none.mpr h)

theorem expectUtf8_ok {bytes : Bytes} (h : fromUtf8 bytes = .ok text) :
    expectUtf8 bytes = some text := by
  rw [expectUtf8, h]
  rfl

theorem written_error {front : Bytes} (h : fromUtf8 front = .ok text) :
    written (front ++ rest) = text ++ written rest := by
  rw [written, settle_error h, written, append_assoc]

theorem written_invalid {size : Utf8.Size} (h : Utf8.scan rest = .invalid size) :
    written rest = escaped (rest.take size) ++ written (rest.drop size) := by
  rw [written, settle_invalid h, written, append_assoc]

theorem written_incomplete (h : Utf8.scan rest = .incomplete) :
    written rest = escaped (rest.take 1) ++ written (rest.drop 1) := by
  rw [written, settle_incomplete h]
  cases rest with
  | nil =>
    rw [written, settle_incomplete rfl]
    rfl
  | cons first bytes =>
    have hrest : settle escape bytes = (escaped bytes, []) :=
      Utf8.settle_continuation (Utf8.continuation_of_incomplete h)
    rw [written, drop_one, tail_cons, hrest]
    exact (congrArg (escape first ++ ·) (append_nil _).symm :)

theorem written_error_len {errorLen : Option Utf8.Size}
    (h : Utf8.scan rest = errorLen.elim .incomplete .invalid) :
    written rest = escaped (rest.take (errorLen.getD ⟨1, Nat.one_pos⟩)) ++
      written (rest.drop (errorLen.getD ⟨1, Nat.one_pos⟩)) := by
  cases errorLen with
  | none => exact written_incomplete h
  | some size => exact written_invalid h

end

theorem bytesToTextPreservingUtf8_eq (bytes : Bytes) :
    bytesToTextPreservingUtf8 bytes = some (written bytes) := by
  induction hlen : bytes.length using Nat.strongRecOn generalizing bytes with
  | _ n ih =>
    cases bytes with
    | nil =>
      rw [bytesToTextPreservingUtf8, written, settle_incomplete rfl]
      rfl
    | cons first bytes =>
      rw [bytesToTextPreservingUtf8]
      cases hread : fromUtf8 (first :: bytes) with
      | ok text =>
        rw [written, Utf8.fromUtf8_ok hread]
        exact congrArg some (append_nil text).symm
      | error e =>
        obtain ⟨front, rest, valid, hsplit, hfront, hvalid, hscan⟩ := Utf8.fromUtf8_error hread
        have hpos := (e.errorLen.getD ⟨1, Nat.one_pos⟩).property
        have hlt : (rest.drop (e.errorLen.getD ⟨1, Nat.one_pos⟩)).length < n := by
          rw [hsplit, length_append] at hlen
          have hne := congrArg List.length hsplit
          rw [length_cons, length_append] at hne
          rw [length_drop]
          omega
        dsimp only
        rw [hsplit, ← hfront, take_left, drop_left, expectUtf8_ok hvalid,
          bind_some, written_error hvalid, ih _ hlt _ rfl, written_error_len hscan]
        exact congrArg some (append_assoc ..)

theorem decodePending_eq (eof : Bool) (bytes : Bytes) :
    decodePending eof bytes = some (if eof then (written bytes, []) else settle escape bytes) := by
  induction hlen : bytes.length using Nat.strongRecOn generalizing bytes with
  | _ n ih =>
    cases bytes with
    | nil =>
      rw [decodePending, written, settle_incomplete rfl]
      cases eof <;> rfl
    | cons first bytes =>
      rw [decodePending]
      cases hread : fromUtf8 (first :: bytes) with
      | ok text =>
        rw [written, Utf8.fromUtf8_ok hread]
        cases eof with
        | true => exact congrArg (fun text => some (text, [])) (append_nil text).symm
        | false => rfl
      | error e =>
        obtain ⟨front, rest, valid, hsplit, hfront, hvalid, hscan⟩ := Utf8.fromUtf8_error hread
        dsimp only
        rw [hsplit, ← hfront, take_left, drop_left, expectUtf8_ok hvalid,
          bind_some, written_error hvalid, settle_error hvalid]
        cases herror : e.errorLen with
        | none =>
          rw [herror] at hscan
          rw [written, settle_incomplete hscan, append_nil]
          rfl
        | some size =>
          rw [herror] at hscan
          have hpos := size.property
          have hlt : (rest.drop size).length < n := by
            rw [hsplit, length_append] at hlen
            have hne := congrArg List.length hsplit
            rw [length_cons, length_append] at hne
            rw [length_drop]
            omega
          dsimp only
          rw [ih _ hlt _ rfl, map_some, written_invalid hscan, settle_invalid hscan]
          cases eof with
          | true => exact congrArg (fun text => some (text, [])) (append_assoc ..)
          | false =>
            exact congrArg (fun text => some (text, _)) (append_assoc ..)

theorem decodeChunks_settles {pending : Bytes} (h : Utf8.scan pending = .incomplete)
    (chunks : List Bytes) :
    ∃ texts left, decodeChunks pending chunks = some (texts, left) ∧
      settle escape (pending ++ chunks.flatten) = (texts.flatten, left) ∧
      Utf8.scan left = .incomplete := by
  induction chunks generalizing pending with
  | nil =>
    refine ⟨[], pending, rfl, ?_, h⟩
    rw [flatten_nil, append_nil, settle_incomplete h, flatten_nil]
  | cons chunk chunks ih =>
    obtain ⟨texts, left, hrun, hsettled, hleft⟩ :=
      ih (scan_settled (pending ++ chunk))
    refine ⟨(settle escape (pending ++ chunk)).1 :: texts, left, ?_, ?_, hleft⟩
    · rw [decodeChunks, decodeStreamChunk, decodePending_eq, bind_some]
      exact congrArg (Option.map _) hrun
    · rw [flatten_cons, ← append_assoc, Utf8.settle_append, hsettled, flatten_cons]

theorem stream_decoding_eq_whole (chunks : List Bytes) :
    ∃ texts pending last, decodeChunks [] chunks = some (texts, pending) ∧
      Utf8.Unfinished pending ∧ pending.length ≤ 3 ∧
      decodeStreamChunk pending [] true = some (last, []) ∧
      bytesToTextPreservingUtf8 chunks.flatten = some (texts.flatten ++ last) := by
  have hnone : Utf8.scan [] = .incomplete := rfl
  obtain ⟨texts, pending, hrun, hsettled, hpending⟩ := decodeChunks_settles hnone chunks
  have hunfinished := Utf8.unfinished_of_incomplete hpending
  refine ⟨texts, pending, escaped pending, hrun, hunfinished, hunfinished.length_le, ?_, ?_⟩
  · rw [decodeStreamChunk, decodePending_eq, append_nil, written, settle_incomplete hpending]
    rfl
  · rw [bytesToTextPreservingUtf8_eq, written, ← nil_append chunks.flatten, hsettled]

end GitComet.Process
