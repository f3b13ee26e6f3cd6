import GitComet.Resolver.SplitRowSearch

namespace GitComet.Resolver
open Text Kit Conflict List FileDiff

structure Hits (start : ℕ) (found : ℕ → Prop) (hits : List ℕ) : Prop where
  sorted : hits.Pairwise (· < ·)
  mem_iff : ∀ hit, hit ∈ hits ↔ ∃ ix, found ix ∧ hit = start + ix

def LineFound (needle : List UInt8) (lines : List (List Char)) (ix : ℕ) : Prop :=
  ∃ line, lines[ix]? = some line ∧ HoldsNeedle needle line

def RowFound (needle : List UInt8) (rows : List FileDiffRow) (ix : ℕ) : Prop :=
  ∃ row, rows[ix]? = some row ∧ RowHolds needle row

section
variable {start n : ℕ} {found other : ℕ → Prop} {hits more : List ℕ} {needle : List UInt8}
  {text : List Char} {segments : List ConflictSegment}

theorem Hits.none (h : ∀ ix, ¬found ix) : Hits start found [] :=
  ⟨.nil, fun _ => ⟨fun hmem => absurd hmem not_mem_nil, fun hin => by
    obtain ⟨ix, hix, -⟩ := hin
    exact absurd hix (h ix)⟩⟩

theorem Hits.congr (h : Hits start found hits) (heq : ∀ ix, found ix ↔ other ix) :
    Hits start other hits := ⟨h.sorted, fun hit => by
  rw [h.mem_iff]
  exact exists_congr fun ix => and_congr_left fun _ => heq ix⟩

theorem Hits.mem_zero (h : Hits 0 found hits) (ix : ℕ) : ix ∈ hits ↔ found ix := by
  rw [h.mem_iff]
  simp only [Nat.zero_add, exists_eq_right']

theorem Hits.cons {line : ℕ} (h : Hits start found hits) (hbeyond : ∀ ix, found ix → line < ix) :
    Hits start (fun ix => ix = line ∨ found ix) ((start + line) :: hits) := by
  refine ⟨pairwise_cons.mpr ⟨fun hit hhit => ?_, h.sorted⟩, fun hit => ?_⟩
  · obtain ⟨ix, hix, rfl⟩ := (h.mem_iff hit).mp hhit
    exact Nat.add_lt_add_left (hbeyond ix hix) start
  · rw [mem_cons, h.mem_iff]
    constructor
    · rintro (rfl | ⟨ix, hix, rfl⟩)
      · exact ⟨line, .inl rfl, rfl⟩
      · exact ⟨ix, .inr hix, rfl⟩
    · rintro ⟨ix, rfl | hix, rfl⟩
      · exact .inl rfl
      · exact .inr ⟨ix, hix, rfl⟩

theorem Hits.append (h : Hits start found hits) (hwithin : ∀ ix, found ix → ix < n)
    (hmore : Hits (start + n) other more) :
    Hits start (fun ix => found ix ∨ n ≤ ix ∧ other (ix - n)) (hits ++ more) := by
  refine ⟨pairwise_append.mpr ⟨h.sorted, hmore.sorted, fun a ha b hb => ?_⟩, fun hit => ?_⟩
  · obtain ⟨ix, hix, rfl⟩ := (h.mem_iff a).mp ha
    obtain ⟨behind, -, rfl⟩ := (hmore.mem_iff b).mp hb
    have := hwithin ix hix
    omega
  · rw [mem_append, h.mem_iff, hmore.mem_iff]
    constructor
    · rintro (⟨ix, hix, rfl⟩ | ⟨ix, hix, rfl⟩)
      · exact ⟨ix, .inl hix, rfl⟩
      · refine ⟨n + ix, .inr ⟨Nat.le_add_right _ _, ?_⟩, Nat.add_assoc _ _ _⟩
        rwa [Nat.add_sub_cancel_left]
    · rintro ⟨ix, hix | ⟨hle, hix⟩, rfl⟩
      · exact .inl ⟨ix, hix, rfl⟩
      · exact .inr ⟨ix - n, hix, by omega⟩

theorem linesContaining_hits (hne : needle ≠ []) (hfree : newline ∉ needle)
    (haddressable : Addressable text) : ∃ lines,
      (SparseLineIndex.forText text).linesContainingAsciiCaseInsensitive text needle
        (SparseLineIndex.forText text).lineCount = some lines ∧
      Hits 0 (LineFound needle (linesOf text)) lines := by
  have hmatched := matched_line hne hfree text
  have hinside : ∀ ix, LineFound needle (linesOf text) ix ↔
      ∃ pos, MatchAt needle (utf8 text) pos ∧ lineOf (newlines text) pos = ix := by
    intro ix
    rw [hmatched]
    refine exists_congr fun line => ⟨fun h => ⟨?_, h.2⟩, fun h => ⟨?_, h.2⟩⟩
    · have hlt := (List.getElem?_eq_some_iff.mp h.1).1
      rw [length_linesOf] at hlt
      rw [← getElem?_linesOf hlt]
      exact h.1
    · rw [getElem?_linesOf (matched_inside hne h.1 h.2)]
      exact h.1
  rw [SparseLineIndex.linesContainingAsciiCaseInsensitive]
  split
  · have hfirst := head?_eq_some_head hne
    have hlast := getLast?_eq_some_getLast hne
    rw [hfirst, hlast]
    dsimp only
    have hpositions : ∀ pos, pos ∈ needlePositions (utf8 text) needle (needle.head hne)
        (needle.getLast hne) ↔ MatchAt needle (utf8 text) pos :=
      fun pos => mem_needlePositions hfirst hlast
    have hunseen : ∀ line, (none : Option ℕ) = some line → line ≤ 0 := fun line h => by cases h
    have hlimit := lineTotal_fits haddressable
    rw [← (SparseLineIndex.forText_fits text).count] at hlimit
    obtain ⟨lines, hlines, hsorted, hmem⟩ := matchingLinesFrom_spec hlimit
      (needlePositions (utf8 text) needle (needle.head hne) (needle.getLast hne))
      (needlePositions_sorted _ _ _ _) (pairwise_findIdxs : (newlines text).Pairwise (· < ·))
      hunseen fun pos hpos => by
        obtain ⟨row, hrow, hholds⟩ := (hmatched _).mp ⟨pos, (hpositions pos).mp hpos, rfl⟩
        rw [Nat.zero_add, (SparseLineIndex.forText_fits text).count]
        exact matched_inside hne hrow hholds
    refine ⟨lines, hlines, hsorted, fun line => ?_⟩
    rw [hmem]
    constructor
    · rintro ⟨-, pos, hpos, rfl⟩
      exact ⟨_, (hinside _).mpr ⟨pos, (hpositions pos).mp hpos, rfl⟩, rfl⟩
    · rintro ⟨ix, hix, rfl⟩
      obtain ⟨pos, hpos, rfl⟩ := (hinside ix).mp hix
      exact ⟨fun hnone => (by cases hnone), pos, (hpositions pos).mpr hpos, rfl⟩
  · rename_i hfilter
    refine ⟨[], rfl, Hits.none fun ix hix => hfilter ?_⟩
    obtain ⟨pos, hpos, -⟩ := (hinside ix).mp hix
    exact maybeContains_of_match hpos

theorem contextRowOf_some {entry : SplitLayoutEntry} {leading trailing line hit : ℕ} :
    contextRowOf entry leading trailing line = some hit ↔
      line < leading ∧ hit = entry.rowStart + line ∨ leading ≤ line ∧ trailing ≤ line ∧
        leading + (line - trailing) < entry.rowCount ∧
          hit = entry.rowStart + (leading + (line - trailing)) := by
  simp only [contextRowOf]
  split_ifs <;> simp <;> omega

theorem Hits.context {entry : SplitLayoutEntry} {leading trailing total : ℕ}
    (h : Hits 0 found hits) (hwithin : ∀ ix, found ix → ix < total) (hleading : leading ≤ trailing)
    (hcount : entry.rowCount = leading + (total - trailing)) :
    Hits entry.rowStart
      (fun ix => if ix < leading then found ix else found (trailing + (ix - leading)))
      (extendContextLineMatches entry leading trailing hits) := by
  have hmem := h.mem_zero
  refine ⟨h.sorted.filterMap _ fun a b hlt x hx y hy => ?_, fun hit => ?_⟩
  · have hfirst := contextRowOf_some.mp hx
    have hsecond := contextRowOf_some.mp hy
    omega
  · rw [extendContextLineMatches, mem_filterMap]
    constructor
    · rintro ⟨line, hline, hrow⟩
      have hfound := (hmem line).mp hline
      rcases contextRowOf_some.mp hrow with ⟨hlt, rfl⟩ | ⟨-, hge, -, rfl⟩
      · exact ⟨line, by rwa [if_pos hlt], rfl⟩
      · have hsum : trailing + (leading + (line - trailing) - leading) = line := by omega
        exact ⟨_, by rwa [if_neg (by omega), hsum], rfl⟩
    · rintro ⟨ix, hix, rfl⟩
      split at hix
      · rename_i hlt
        exact ⟨ix, (hmem ix).mpr hix, contextRowOf_some.mpr (.inl ⟨hlt, rfl⟩)⟩
      · rename_i hge
        have hlt := hwithin _ hix
        refine ⟨_, (hmem _).mpr hix, contextRowOf_some.mpr (.inr ?_)⟩
        omega

theorem extendBlockLineMatches_hits {entry : SplitLayoutEntry} (ours theirs : List ℕ) :
    ours.Pairwise (· < ·) → theirs.Pairwise (· < ·) →
      (∀ line, line ∈ ours ∨ line ∈ theirs → line < entry.rowCount) →
      Hits entry.rowStart (fun line => line ∈ ours ∨ line ∈ theirs)
        (extendBlockLineMatches entry ours theirs) := by
  induction ours, theirs using extendBlockLineMatches.induct entry with
  | case1 =>
    intro _ _ _
    rw [extendBlockLineMatches]
    exact Hits.none fun ix hix => hix.elim not_mem_nil not_mem_nil
  | case2 line ours hout =>
    intro _ _ hwithin
    exact absurd (hwithin line (.inl mem_cons_self)) (Nat.not_lt.mpr hout)
  | case3 line ours hin ih =>
    intro hours htheirs hwithin
    obtain ⟨hbehind, hrest⟩ := pairwise_cons.mp hours
    rw [extendBlockLineMatches, if_neg hin]
    refine ((ih hrest htheirs fun ix hix => hwithin ix ?_).cons fun ix hix => ?_).congr fun ix => ?_
    · exact hix.imp_left (mem_cons_of_mem line)
    · exact hbehind ix (hix.resolve_right not_mem_nil)
    · rw [mem_cons, or_assoc]
  | case4 line theirs hout =>
    intro _ _ hwithin
    exact absurd (hwithin line (.inr mem_cons_self)) (Nat.not_lt.mpr hout)
  | case5 line theirs hin ih =>
    intro hours htheirs hwithin
    obtain ⟨hbehind, hrest⟩ := pairwise_cons.mp htheirs
    rw [extendBlockLineMatches, if_neg hin]
    refine ((ih hours hrest fun ix hix => hwithin ix ?_).cons fun ix hix => ?_).congr fun ix => ?_
    · exact hix.imp_right (mem_cons_of_mem line)
    · exact hbehind ix (hix.resolve_left not_mem_nil)
    · rw [mem_cons, or_left_comm]
  | case6 oursLine ours theirsLine theirs hout =>
    intro _ _ hwithin
    have hfirst := hwithin oursLine (.inl mem_cons_self)
    omega
  | case7 oursLine ours theirsLine theirs hin ihBoth ihOurs ihTheirs =>
    intro hours htheirs hwithin
    obtain ⟨hbehindOurs, hrestOurs⟩ := pairwise_cons.mp hours
    obtain ⟨hbehindTheirs, hrestTheirs⟩ := pairwise_cons.mp htheirs
    rw [extendBlockLineMatches, if_neg hin]
    split
    · rename_i heq
      obtain rfl := heq
      rw [Nat.min_self]
      refine ((ihBoth hrestOurs hrestTheirs fun ix hix => hwithin ix ?_).cons
        fun ix hix => hix.elim (hbehindOurs ix) (hbehindTheirs ix)).congr fun ix => ?_
      · exact hix.imp (mem_cons_of_mem _) (mem_cons_of_mem _)
      · simp only [mem_cons]
        tauto
    · split
      · rename_i hlt
        rw [Nat.min_eq_left hlt.le]
        refine ((ihOurs hrestOurs htheirs fun ix hix => hwithin ix ?_).cons
          fun ix hix => ?_).congr fun ix => ?_
        · exact hix.imp_left (mem_cons_of_mem _)
        · rcases hix with hix | hix
          · exact hbehindOurs ix hix
          · rcases mem_cons.mp hix with rfl | hix
            · exact hlt
            · exact hlt.trans (hbehindTheirs ix hix)
        · rw [mem_cons (a := ix) (b := oursLine), or_assoc]
      · rename_i hne hge
        have hlt : theirsLine < oursLine := by omega
        rw [Nat.min_eq_right hlt.le]
        refine ((ihTheirs hours hrestTheirs fun ix hix => hwithin ix ?_).cons
          fun ix hix => ?_).congr fun ix => ?_
        · exact hix.imp_right (mem_cons_of_mem _)
        · rcases hix with hix | hix
          · rcases mem_cons.mp hix with rfl | hix
            · exact hlt
            · exact hlt.trans (hbehindOurs ix hix)
          · exact hbehindTheirs ix hix
        · rw [mem_cons (a := ix) (b := theirsLine), or_left_comm]

end

section
variable {segments : List ConflictSegment} {entry : SplitLayoutEntry} {rows : List FileDiffRow}
  {needle : List UInt8}

variable {oursLine theirsLine ix : ℕ}

theorem rowHolds_context {line : List Char} :
    RowHolds needle (contextRow oursLine theirsLine ix line) ↔ HoldsNeedle needle line := by
  constructor
  · rintro ⟨other, hother | hother, hholds⟩ <;> exact Option.some.inj hother ▸ hholds
  · exact fun h => ⟨line, .inl rfl, h⟩

theorem rowFound_context {lines : List (List Char)} :
    RowFound needle (lines.mapIdx (contextRow oursLine theirsLine)) ix ↔
      LineFound needle lines ix := by
  simp only [RowFound, LineFound, getElem?_mapIdx, Option.map_eq_some_iff]
  constructor
  · rintro ⟨_, ⟨line, hline, rfl⟩, hholds⟩
    exact ⟨line, hline, rowHolds_context.mp hholds⟩
  · rintro ⟨line, hline, hholds⟩
    exact ⟨_, ⟨line, hline, rfl⟩, rowHolds_context.mpr hholds⟩

theorem rowFound_append {front back : List FileDiffRow} :
    RowFound needle (front ++ back) ix ↔ if ix < front.length then RowFound needle front ix
      else RowFound needle back (ix - front.length) := by
  rw [RowFound, getElem?_append]
  split <;> rfl

theorem rowFound_take {n : ℕ} (h : ix < n) :
    RowFound needle (rows.take n) ix ↔ RowFound needle rows ix := by
  rw [RowFound, getElem?_take_of_lt h, RowFound]

theorem rowFound_drop {n : ℕ} :
    RowFound needle (rows.drop n) ix ↔ RowFound needle rows (n + ix) := by
  rw [RowFound, getElem?_drop, RowFound]

theorem LineFound.lt {lines : List (List Char)} (h : LineFound needle lines ix) :
    ix < lines.length := by
  obtain ⟨line, hline, -⟩ := h
  exact (List.getElem?_eq_some_iff.mp hline).1

theorem RowFound.lt (h : RowFound needle rows ix) : ix < rows.length := by
  obtain ⟨row, hrow, -⟩ := h
  exact (List.getElem?_eq_some_iff.mp hrow).1

theorem plainBlockRows_get {block : ConflictBlock}
    (h : ix < max (linesOf block.ours).length (linesOf block.theirs).length) :
    (plainBlockRows oursLine theirsLine block)[ix]? =
      splitRow oursLine theirsLine ix (linesOf block.ours)[ix]? (linesOf block.theirs)[ix]? := by
  have hsome := splitRow_isSome oursLine theirsLine block
  obtain ⟨row, hrow⟩ := Option.isSome_iff_exists.mp (hsome ix h)
  have hslice := congrArg (·[0]?) (filterMap_slice hsome (Nat.le_succ ix) h)
  simp only [Nat.succ_eq_add_one, Nat.add_sub_cancel_left, getElem?_take_of_lt Nat.one_pos,
    getElem?_drop, Nat.add_zero] at hslice
  rw [plainBlockRows, hslice, hrow]
  simp [range_one, hrow]

theorem rowFound_block {block : ConflictBlock} :
    RowFound needle (plainBlockRows oursLine theirsLine block) ix ↔
      LineFound needle (linesOf block.ours) ix ∨ LineFound needle (linesOf block.theirs) ix := by
  constructor
  · rintro ⟨row, hrow, line, hside, hholds⟩
    have hlt := (List.getElem?_eq_some_iff.mp hrow).1
    rw [length_plainBlockRows] at hlt
    rw [plainBlockRows_get hlt] at hrow
    obtain ⟨kind, -, rfl⟩ := Option.map_eq_some_iff.mp hrow
    exact hside.imp (fun hline => ⟨line, hline, hholds⟩) fun hline => ⟨line, hline, hholds⟩
  · intro h
    have hlt : ix < max (linesOf block.ours).length (linesOf block.theirs).length :=
      h.elim (fun hours => lt_max_of_lt_left hours.lt)
        fun htheirs => lt_max_of_lt_right htheirs.lt
    obtain ⟨row, hrow⟩ := Option.isSome_iff_exists.mp
      (splitRow_isSome oursLine theirsLine block ix hlt)
    have hget := (plainBlockRows_get hlt).trans hrow
    obtain ⟨kind, -, rfl⟩ := Option.map_eq_some_iff.mp hrow
    rcases h with ⟨line, hline, hholds⟩ | ⟨line, hline, hholds⟩
    · exact ⟨_, hget, line, .inl hline, hholds⟩
    · exact ⟨_, hget, line, .inr hline, hholds⟩

theorem EntryFor.finds (h : EntryFor segments entry rows) (hne : needle ≠ [])
    (hfree : newline ∉ needle) : ∃ hits, entryMatches segments needle entry = some hits ∧
      Hits entry.rowStart (RowFound needle rows) hits := by
  cases h with
  | @context text leading trailing oursLine theirsLine hat haddressable hkind hleading htrailing
      hcount =>
    obtain ⟨lines, hlines, hhits⟩ := linesContaining_hits hne hfree haddressable
    have hlength : ((linesOf text).mapIdx (contextRow oursLine theirsLine)).length =
        lineTotal (rowsIn text) := by rw [length_mapIdx, length_linesOf]
    have hwithin : ∀ ix, LineFound needle (linesOf text) ix → ix < lineTotal (rowsIn text) :=
      fun ix hix => length_linesOf text ▸ hix.lt
    refine ⟨_, ?_, (hhits.context hwithin hleading hcount).congr fun ix => ?_⟩
    · simp only [entryMatches, hkind, hat]
      rw [hlines, Option.map_some]
    · rw [rowFound_append, length_take, hlength, Nat.min_eq_left (by omega)]
      split
      · rename_i hlt
        rw [rowFound_take hlt, rowFound_context]
      · rw [rowFound_drop, rowFound_context]
  | @block block oursLine theirsLine hat hours htheirs hkind hcount =>
    obtain ⟨ours, hoursLines, hoursHits⟩ := linesContaining_hits hne hfree hours
    obtain ⟨theirs, htheirsLines, htheirsHits⟩ := linesContaining_hits hne hfree htheirs
    have hwithin : ∀ line, line ∈ ours ∨ line ∈ theirs → line < entry.rowCount := by
      intro line hline
      rw [hoursHits.mem_zero, htheirsHits.mem_zero] at hline
      rw [hcount, ← length_linesOf, ← length_linesOf]
      exact hline.elim (fun h => lt_max_of_lt_left h.lt) fun h => lt_max_of_lt_right h.lt
    refine ⟨_, ?_, (extendBlockLineMatches_hits ours theirs hoursHits.sorted htheirsHits.sorted
      hwithin).congr fun ix => ?_⟩
    · simp only [entryMatches, hkind, hat]
      rw [hoursLines, htheirsLines]
      rfl
    · rw [hoursHits.mem_zero, htheirsHits.mem_zero, rowFound_block]

theorem LaidOut.finds {start : ℕ} {entries : List SplitLayoutEntry}
    (h : LaidOut segments start entries rows) (hne : needle ≠ []) (hfree : newline ∉ needle) :
    ∃ hits, entriesMatches segments needle entries = some hits ∧
      Hits start (RowFound needle rows) hits := by
  induction h with
  | nil start => exact ⟨[], rfl, Hits.none fun ix hix => absurd hix.lt (Nat.not_lt_zero _)⟩
  | @cons start entry entries rows rest hstart hown hrest ih =>
    obtain ⟨own, hownMatches, hownHits⟩ := hown.finds hne hfree
    obtain ⟨more, hmore, hmoreHits⟩ := ih
    rw [hstart] at hownHits
    refine ⟨own ++ more, ?_, (hownHits.append (fun ix hix => hix.lt) hmoreHits).congr fun ix => ?_⟩
    · rw [entriesMatches, hownMatches, hmore]
      rfl
    · rw [rowFound_append]
      split
      · rename_i hlt
        exact ⟨fun hix => hix.resolve_right fun hout => Nat.not_le.mpr hlt hout.1, .inl⟩
      · rename_i hge
        exact ⟨fun hix => (hix.resolve_left fun hin => hge hin.lt).2,
          fun hix => .inr ⟨Nat.le_of_not_lt hge, hix⟩⟩

end

theorem split_rows_plain (segments : List ConflictSegment) (contextLines : ℕ)
    (haddressable : SidesAddressable segments) :
    (∀ accesses, (ConflictSplitRowIndex.new segments contextLines).readRows segments accesses =
      some (accesses.map fun rowIx => (plainRows segments contextLines)[rowIx]?)) ∧
    ∀ needle, needle ≠ [] → newline ∉ needle → ∃ hits,
      (ConflictSplitRowIndex.new segments contextLines).searchAsciiCaseInsensitiveMatchingRows
        segments needle = some hits ∧ hits.Pairwise (· < ·) ∧
      ∀ rowIx, rowIx ∈ hits ↔ ∃ row, (plainRows segments contextLines)[rowIx]? = some row ∧
        RowHolds needle row := by
  have hserves : (ConflictSplitRowIndex.new segments contextLines).Serves segments
      (plainRows segments contextLines) := new_serves haddressable
  refine ⟨fun accesses => readRows_serves accesses hserves, fun needle hne hfree => ?_⟩
  obtain ⟨hits, hsearch, hhits⟩ := hserves.entries.finds hne hfree
  refine ⟨hits, ?_, hhits.sorted, hhits.mem_zero⟩
  rw [ConflictSplitRowIndex.searchAsciiCaseInsensitiveMatchingRows,
    if_neg (mt List.isEmpty_iff.mp hne)]
  exact hsearch

theorem addressable_short {text : List Char} (h : lineTotal (rowsIn text) ≤ 256) :
    Addressable text := by
  intro c hc
  simp only [conflictSplitLineCheckpointStride, conflictSplitPageSize] at hc ⊢
  obtain rfl : c = 0 := by omega
  rw [Nat.zero_mul, rowStart_zero]
  exact Nat.zero_le _

def unevenBlock : List ConflictSegment :=
  [.text "a\nb\n".toList,
    .block ⟨none, "x\n".toList, "x\nY".toList, ⟨[.ours], nodup_singleton _⟩, false, false⟩,
    .text "c\nd".toList]

theorem unevenBlock_addressable : SidesAddressable unevenBlock := by
  have hshort : ∀ segment ∈ unevenBlock, ∀ text ∈ sideTexts segment,
      lineTotal (rowsIn text) ≤ 256 := by decide
  exact fun segment hsegment text htext => addressable_short (hshort segment hsegment text htext)

theorem uneven_block_rows :
    (ConflictSplitRowIndex.new unevenBlock 1).readRows unevenBlock [3, 0, 9] =
      some ([3, 0, 9].map fun rowIx => (plainRows unevenBlock 1)[rowIx]?) ∧
    ∃ hits, (ConflictSplitRowIndex.new unevenBlock 1).searchAsciiCaseInsensitiveMatchingRows
        unevenBlock [121] = some hits ∧ hits.Pairwise (· < ·) ∧
      ∀ rowIx, rowIx ∈ hits ↔ ∃ row, (plainRows unevenBlock 1)[rowIx]? = some row ∧
        RowHolds [121] row :=
  ⟨(split_rows_plain unevenBlock 1 unevenBlock_addressable).1 [3, 0, 9],
    (split_rows_plain unevenBlock 1 unevenBlock_addressable).2 [121] (by decide) (by decide)⟩

def farLine (m : ℕ) : List Char :=
  replicate m 'a' ++ (['a'] ++ '\n' :: (replicate 255 '\n' ++ ['b']))

def farBlock (m : ℕ) : List ConflictSegment :=
  [.block ⟨none, farLine m, [], ⟨[.ours], nodup_singleton _⟩, false, false⟩]

section
variable (m : ℕ)

theorem rowsIn_blank (k : ℕ) :
    rowsIn (replicate k '\n' ++ ['b']) = replicate k [] ++ [['b']] := by
  induction k with
  | zero => exact rowsIn_row (by decide)
  | succ k ih =>
    rw [replicate_succ, replicate_succ, cons_append, cons_append, ← ih]
    exact rowsIn_line not_mem_nil _

theorem byteLen_replicate : byteLen (replicate m 'a') = m := by
  induction m with
  | zero => rfl
  | succ m ih =>
    have hsize : Char.utf8Size 'a' = 1 := rfl
    rw [replicate_succ, byteLen_cons, ih, hsize, Nat.add_comm]

theorem rowsIn_farLine : rowsIn (farLine m) =
    (replicate m 'a' ++ ['a']) :: (replicate 255 [] ++ [['b']]) := by
  have hfree : '\n' ∉ replicate m 'a' ++ ['a'] := by
    simp [mem_replicate]
  rw [farLine, ← append_assoc, rowsIn_line hfree, rowsIn_blank]

theorem lineTotal_farLine : lineTotal (rowsIn (farLine m)) = 257 := by
  rw [rowsIn_farLine, lineTotal, ← cons_append, getLast?_concat, if_neg (by decide),
    length_append, length_cons, length_replicate]
  rfl

theorem rowStart_farLine : rowStart (rowsIn (farLine m)) 256 = m + 257 := by
  have hblank : ∀ k, rowStart (replicate k [] ++ [['b']]) k = k := fun k => by
    induction k with
    | zero => rfl
    | succ k ih => rw [replicate_succ, cons_append, rowStart_cons, ih, byteLen_nil,
        Nat.zero_add, Nat.add_comm]
  rw [rowsIn_farLine, rowStart_cons, hblank, byteLen_append, byteLen_replicate]
  rfl

theorem farLine_last : (linesOf (farLine m))[256]? = some ['b'] := by
  rw [getElem?_linesOf (by rw [lineTotal_farLine]; decide), rowsIn_farLine]
  rfl

theorem lineRangesInto_farLine (h : m = u32Max) :
    (SparseLineIndex.forText (farLine m)).lineRangesInto (farLine m) 256 1 = [⟨m, m + 1⟩] := by
  have hfits := SparseLineIndex.forText_fits (farLine m)
  have hcheckpoint := hfits.checkpoints 1 (by rw [lineTotal_farLine]; decide)
  have hoffset : checkpointOffset (rowStart (rowsIn (farLine m)) (1 * 256)) = m := by
    rw [Nat.one_mul, rowStart_farLine, checkpointOffset, ← h]
    omega
  have hdrop : (utf8 (farLine m)).drop m =
      utf8 (['a'] ++ '\n' :: (replicate 255 '\n' ++ ['b'])) := by
    have hfront := utf8_drop (replicate m 'a')
      (['a'] ++ '\n' :: (replicate 255 '\n' ++ ['b']))
    rwa [byteLen_replicate] at hfront
  have hend : lineEndFrom (utf8 (farLine m)) m = m + 1 := by
    rw [lineEndFrom, hdrop, utf8_line]
    rfl
  have hinside : m ≤ (utf8 (farLine m)).length := by
    rw [length_utf8, farLine, byteLen_append, byteLen_replicate]
    exact Nat.le_add_right _ _
  rw [hoffset] at hcheckpoint
  rw [SparseLineIndex.lineRangesInto, hfits.count, lineTotal_farLine, if_neg (by decide)]
  simp only [conflictSplitLineCheckpointStride, conflictSplitPageSize]
  rw [hcheckpoint]
  show collectRanges _ 256 1 1 256 m [] = _
  rw [collectRanges, if_pos ⟨hinside, Nat.one_pos⟩, hend]
  rfl

theorem far_row (contextLines : ℕ) : (plainRows (farBlock m) contextLines)[256]? =
    some ⟨.remove, some 257, none, some ['b'], none, none⟩ := by
  have hlength : 256 < (linesOf (farLine m)).length := by
    rw [length_linesOf, lineTotal_farLine]
    decide
  rw [plainRows, farBlock, plainRowsFrom, plainRowsFrom, append_nil,
    plainBlockRows_get (lt_max_of_lt_left hlength), farLine_last]
  rfl

theorem byteSlice_farLine : byteSlice (farLine m) m (m + 1) = some ['a'] :=
  byteSlice_of rfl (byteLen_replicate m).symm (by rw [byteLen_replicate]; rfl)

def farEntry : SplitLayoutEntry :=
  ⟨0, 257, 0, some 0, .block (SparseLineIndex.forText (farLine m)) (SparseLineIndex.forText []) 1 1⟩

theorem new_farBlock (contextLines : ℕ) :
    ConflictSplitRowIndex.new (farBlock m) contextLines = ⟨[farEntry m], 257, 256, none⟩ := by
  have hours := (SparseLineIndex.forText_fits (farLine m)).count
  rw [lineTotal_farLine] at hours
  simp only [ConflictSplitRowIndex.new, ConflictSplitRowIndex.layOut, farBlock, zipIdx_cons,
    zipIdx_nil, foldl_cons, foldl_nil, SplitLayout.push, hours]
  rfl

theorem entryRows_farBlock (h : m = u32Max) :
    entryRows (farEntry m) (.block ⟨none, farLine m, [], ⟨[.ours], nodup_singleton _⟩, false,
      false⟩) 256 257 = some [⟨.remove, some 257, none, some ['a'], none, none⟩] := by
  have hours := (SparseLineIndex.forText_fits (farLine m)).count
  rw [lineTotal_farLine] at hours
  have hmin : min 1 (257 - 256) = 1 := rfl
  simp only [entryRows, farEntry, hours, if_pos (by decide : 256 < 257), Nat.reduceSub, hmin,
    lineRangesInto_farLine m h]
  simp only [range_one, filterMap_cons, getElem?_cons_zero, Option.bind_some, byteSlice_farLine]
  rfl

theorem far_line_misread (contextLines : ℕ) (h : m = u32Max) :
    (ConflictSplitRowIndex.new (farBlock m) contextLines).buildPage (farBlock m) 1 =
      some [⟨.remove, some 257, none, some ['a'], none, none⟩] := by
  have hentry : (⟨[farEntry m], 257, 256, none⟩ : ConflictSplitRowIndex).entryForRow 256 =
      some (farEntry m) := rfl
  have hbounds : (⟨[farEntry m], 257, 256, none⟩ : ConflictSplitRowIndex).pageBounds 1 =
      some (256, 257) := rfl
  have hsegment : (farBlock m)[(farEntry m).segmentIx]? = some (.block ⟨none, farLine m, [],
      ⟨[.ours], nodup_singleton _⟩, false, false⟩) := rfl
  rw [new_farBlock, ConflictSplitRowIndex.buildPage, hbounds, Option.bind_some,
    ConflictSplitRowIndex.buildRows, if_pos (by decide), hentry, Option.bind_eq_bind,
    Option.bind_some, hsegment, Option.bind_eq_bind, Option.bind_some]
  have hend : min ((farEntry m).rowStart + (farEntry m).rowCount) 257 = 257 := rfl
  have hstart : (farEntry m).rowStart = 0 := rfl
  rw [hend, hstart, Nat.sub_zero, Nat.sub_zero, entryRows_farBlock m h, Option.bind_eq_bind,
    Option.bind_some]
  have hfuel : 257 - 256 = 1 := rfl
  rw [hfuel, ConflictSplitRowIndex.buildRows, if_neg (by decide)]
  rfl

theorem far_row_read (contextLines : ℕ) (h : m = u32Max) :
    (ConflictSplitRowIndex.new (farBlock m) contextLines).readRows (farBlock m) [256] =
      some [some ⟨.remove, some 257, none, some ['a'], none, none⟩] := by
  have hpage := far_line_misread m contextLines h
  have hcached : (ConflictSplitRowIndex.new (farBlock m) contextLines).cachedPage 1 = none := rfl
  have htotal : (ConflictSplitRowIndex.new (farBlock m) contextLines).totalRows = 257 := by
    rw [new_farBlock]
  rw [ConflictSplitRowIndex.readRows, ConflictSplitRowIndex.rowAt, htotal, if_neg (by decide)]
  have hsize : (ConflictSplitRowIndex.new (farBlock m) contextLines).pageSize = 256 := by
    rw [new_farBlock]
  have hdiv : 256 / 256 = 1 := rfl
  rw [hsize, hdiv, ConflictSplitRowIndex.loadPage, hcached, hpage]
  rfl

theorem far_row_misread (contextLines : ℕ) (h : m = u32Max) :
    (ConflictSplitRowIndex.new (farBlock m) contextLines).readRows (farBlock m) [256] ≠
      some ([256].map fun rowIx => (plainRows (farBlock m) contextLines)[rowIx]?) := by
  rw [far_row_read m contextLines h, map_singleton, far_row]
  decide

end
theorem empty_needle_finds_nothing : newline ∉ ([] : List UInt8) ∧
    ¬∃ hits, (ConflictSplitRowIndex.new unevenBlock 1).searchAsciiCaseInsensitiveMatchingRows
        unevenBlock [] = some hits ∧
      ∀ rowIx, rowIx ∈ hits ↔ ∃ row, (plainRows unevenBlock 1)[rowIx]? = some row ∧
        RowHolds [] row := by
  refine ⟨not_mem_nil, fun h => ?_⟩
  obtain ⟨hits, hsearch, hmem⟩ := h
  obtain rfl : [] = hits := Option.some.inj hsearch
  have hrow : (plainRows unevenBlock 1)[0]? =
      some ⟨.context, some 2, some 2, some "b".toList, some "b".toList, none⟩ := by decide +kernel
  exact not_mem_nil ((hmem 0).mpr ⟨_, hrow, _, .inl rfl, nil_infix⟩)

theorem split_rows_differ :
    (¬∃ hits, (ConflictSplitRowIndex.new unevenBlock 1).searchAsciiCaseInsensitiveMatchingRows
        unevenBlock [] = some hits ∧
      ∀ rowIx, rowIx ∈ hits ↔ ∃ row, (plainRows unevenBlock 1)[rowIx]? = some row ∧
        RowHolds [] row) ∧
    (ConflictSplitRowIndex.new (farBlock u32Max) 1).readRows (farBlock u32Max) [256] ≠
      some ([256].map fun rowIx => (plainRows (farBlock u32Max) 1)[rowIx]?) :=
  ⟨empty_needle_finds_nothing.2, far_row_misread u32Max 1 rfl⟩

end GitComet.Resolver
