import GitComet.Resolver.SplitRowIndex

namespace GitComet.Resolver
open Text Kit Conflict BinarySearch RecentCache Option Nat FileDiff

inductive LaidOut (segments : List ConflictSegment) :
    ℕ → List SplitLayoutEntry → List FileDiffRow → Prop where
  | nil (start : ℕ) : LaidOut segments start [] []
  | cons {start : ℕ} {entry : SplitLayoutEntry} {entries : List SplitLayoutEntry}
      {rows rest : List FileDiffRow} (hstart : entry.rowStart = start)
      (hown : EntryFor segments entry rows)
      (hrest : LaidOut segments (start + rows.length) entries rest) :
      LaidOut segments start (entry :: entries) (rows ++ rest)

def sideTexts : ConflictSegment → List (List Char)
  | .text text => [text]
  | .block block => [block.ours, block.theirs]

def SidesAddressable (segments : List ConflictSegment) : Prop :=
  ∀ segment ∈ segments, ∀ text ∈ sideTexts segment, Addressable text

structure SplitLayout.Holds (segments : List ConflictSegment) (layout : SplitLayout)
    (rows : List FileDiffRow) (oursLine theirsLine : ℕ) : Prop where
  entries : LaidOut segments 0 layout.entries rows
  totalRows : layout.totalRows = rows.length
  oursLine : layout.oursLine = u32Of oursLine
  theirsLine : layout.theirsLine = u32Of theirsLine

variable {start : ℕ} {entries : List SplitLayoutEntry}

section
variable {segments : List ConflictSegment} {layout : SplitLayout} {rows : List FileDiffRow}
  {oursLine theirsLine ix : ℕ}

theorem LaidOut.concat {entry : SplitLayoutEntry}
    {own : List FileDiffRow} (h : LaidOut segments start entries rows)
    (hstart : entry.rowStart = start + rows.length) (hown : EntryFor segments entry own) :
    LaidOut segments start (entries ++ [entry]) (rows ++ own) := by
  induction h with
  | nil start =>
    have hnil := LaidOut.cons hstart hown (LaidOut.nil _)
    rwa [List.append_nil] at hnil
  | cons hfirst hfirstOwn _ ih =>
    rw [List.append_assoc, List.cons_append]
    refine LaidOut.cons hfirst hfirstOwn (ih ?_)
    rw [hstart, List.length_append, add_assoc]

theorem push_text (contextLines : ℕ) {text : List Char}
    (h : layout.Holds segments rows oursLine theirsLine)
    (hat : segments[ix]? = some (.text text)) (haddressable : Addressable text) :
    (SplitLayout.push segments contextLines layout (.text text, ix)).Holds segments
      (rows ++ plainContextRows contextLines (decide (ix > 0) && isBlock segments[ix - 1]?)
        (isBlock segments[ix + 1]?) oursLine theirsLine text)
      (oursLine + (linesOf text).length) (theirsLine + (linesOf text).length) := by
  have hcount := (SparseLineIndex.forText_fits text).count
  have hlength : ((linesOf text).mapIdx (contextRow oursLine theirsLine)).length =
      lineTotal (rowsIn text) := by rw [List.length_mapIdx, length_linesOf]
  simp only [SplitLayout.push, plainContextRows, hcount, hlength]
  generalize hleading : (if (decide (ix > 0) && isBlock segments[ix - 1]?) = true then
    min contextLines (lineTotal (rowsIn text)) else 0) = leading
  generalize htrailing : max leading (lineTotal (rowsIn text) -
    if isBlock segments[ix + 1]? = true then min contextLines (lineTotal (rowsIn text)) else 0) =
      trailing
  have hle : leading ≤ lineTotal (rowsIn text) := by
    rw [← hleading]
    split <;> omega
  have hown : ((((linesOf text).mapIdx (contextRow oursLine theirsLine)).take leading) ++
      (((linesOf text).mapIdx (contextRow oursLine theirsLine)).drop trailing)).length =
        leading + (lineTotal (rowsIn text) - trailing) := by
    rw [List.length_append, List.length_take, List.length_drop, hlength, min_eq_left hle]
  refine ⟨?_, ?_, ?_, ?_⟩
  · dsimp only
    split
    · refine h.entries.concat ?_ (.context hat haddressable ?_ (by omega) (by omega) rfl)
      · rw [zero_add, ← h.totalRows]
      · rw [h.oursLine, h.theirsLine]
    · rename_i hnone
      rw [List.eq_nil_of_length_eq_zero (hown.trans (Nat.eq_zero_of_not_pos hnone)),
        List.append_nil]
      exact h.entries
  · dsimp only
    rw [List.length_append, hown, ← h.totalRows]
    split <;> omega
  · rw [length_linesOf, ← satAddU32_of, ← h.oursLine]
  · rw [length_linesOf, ← satAddU32_of, ← h.theirsLine]

theorem push_block (contextLines : ℕ) {block : ConflictBlock}
    (h : layout.Holds segments rows oursLine theirsLine)
    (hat : segments[ix]? = some (.block block)) (hours : Addressable block.ours)
    (htheirs : Addressable block.theirs) :
    (SplitLayout.push segments contextLines layout (.block block, ix)).Holds segments
      (rows ++ plainBlockRows oursLine theirsLine block)
      (oursLine + (linesOf block.ours).length) (theirsLine + (linesOf block.theirs).length) := by
  have hown : EntryFor segments ⟨layout.totalRows, max (lineTotal (rowsIn block.ours))
      (lineTotal (rowsIn block.theirs)), ix, some layout.conflictIx,
      .block (SparseLineIndex.forText block.ours) (SparseLineIndex.forText block.theirs)
        layout.oursLine layout.theirsLine⟩ (plainBlockRows oursLine theirsLine block) :=
    .block hat hours htheirs (by rw [h.oursLine, h.theirsLine]) rfl
  simp only [SplitLayout.push, (SparseLineIndex.forText_fits block.ours).count,
    (SparseLineIndex.forText_fits block.theirs).count]
  refine ⟨h.entries.concat ?_ hown, ?_, ?_, ?_⟩
  · rw [zero_add, ← h.totalRows]
  · rw [List.length_append, ← hown.shows.count, ← h.totalRows]
  · rw [length_linesOf, ← satAddU32_of, ← h.oursLine]
  · rw [length_linesOf, ← satAddU32_of, ← h.theirsLine]

theorem layOut_from (contextLines : ℕ) (haddressable : SidesAddressable segments)
    (back : List ConflictSegment) : ∀ (front : List ConflictSegment), segments = front ++ back →
      ∀ {layout rows oursLine theirsLine}, layout.Holds segments rows oursLine theirsLine →
        ∃ ours theirs,
          ((back.zipIdx front.length).foldl (SplitLayout.push segments contextLines) layout).Holds
            segments (rows ++ plainRowsFrom contextLines (isBlock front.getLast?) oursLine
              theirsLine back) ours theirs := by
  induction back with
  | nil =>
    intro front _ layout rows oursLine theirsLine h
    exact ⟨oursLine, theirsLine, by rwa [plainRowsFrom, List.append_nil]⟩
  | cons segment back ih =>
    intro front hsegments layout rows oursLine theirsLine h
    have hat : segments[front.length]? = some segment := by
      rw [hsegments, List.getElem?_append_right (le_refl _), Nat.sub_self]
      rfl
    have hnext : segments[front.length + 1]? = back.head? := by
      rw [hsegments, List.getElem?_append_right (le_succ _), succ_sub (le_refl _),
        Nat.sub_self, List.getElem?_cons_succ, List.head?_eq_getElem?]
    have hprev : (decide (front.length > 0) && isBlock segments[front.length - 1]?) =
        isBlock front.getLast? := by
      rcases List.eq_nil_or_concat' front with rfl | ⟨init, last, rfl⟩
      · rfl
      · rw [hsegments, List.getLast?_concat, List.getElem?_append_left (by simp),
          List.length_append, List.length_singleton, Nat.add_sub_cancel,
          List.getElem?_concat_length]
        simp
    have hmem := haddressable segment (hsegments ▸ List.mem_append_right _ List.mem_cons_self)
    have hfront : segments = (front ++ [segment]) ++ back := by
      rw [hsegments, List.append_assoc, List.singleton_append]
    have hlength : (front ++ [segment]).length = front.length + 1 := by
      rw [List.length_append, List.length_singleton]
    rw [List.zipIdx_cons, List.foldl_cons, ← hlength]
    cases segment with
    | text text =>
      have hpush := push_text contextLines h hat (hmem text (List.mem_singleton_self text))
      rw [hprev, hnext] at hpush
      have hrest := ih (front ++ [.text text]) hfront hpush
      rwa [List.getLast?_concat, List.append_assoc] at hrest
    | block block =>
      have hpush := push_block contextLines h hat (hmem block.ours List.mem_cons_self)
        (hmem block.theirs (List.mem_cons_of_mem _ (List.mem_singleton_self _)))
      have hrest := ih (front ++ [.block block]) hfront hpush
      rwa [List.getLast?_concat, List.append_assoc] at hrest

end

variable {pageIx : ℕ}

section
variable {segments : List ConflictSegment} {plain : List FileDiffRow}

theorem LaidOut.start_le
    (h : LaidOut segments start entries plain) : ∀ entry ∈ entries, start ≤ entry.rowStart := by
  induction h with
  | nil => exact fun entry hentry => absurd hentry List.not_mem_nil
  | cons hstart _ _ ih =>
    intro entry hentry
    rcases List.mem_cons.mp hentry with rfl | hentry
    · exact hstart.ge
    · exact le_trans (le_add_right _ _) (ih entry hentry)

variable {rowIx : ℕ}

theorem LaidOut.entry_of_row
    (h : LaidOut segments start entries plain) (hrow : rowIx < plain.length) :
    ∃ before entry after front rows back, entries = before ++ entry :: after ∧
      plain = front ++ (rows ++ back) ∧ EntryFor segments entry rows ∧
      entry.rowStart = start + front.length ∧ front.length ≤ rowIx ∧
      rowIx < front.length + rows.length ∧
      (∀ other ∈ before ++ [entry], other.rowStart ≤ start + rowIx) ∧
      ∀ other ∈ after, start + rowIx < other.rowStart := by
  induction h generalizing rowIx with
  | nil => exact absurd hrow (not_lt_zero _)
  | @cons start entry entries rows rest hstart hown hrest ih =>
    by_cases hin : rowIx < rows.length
    · refine ⟨[], entry, entries, [], rows, rest, rfl, rfl, hown, hstart, zero_le _,
        by simpa using hin, fun other hother => ?_, fun other hother => ?_⟩
      · rw [List.mem_singleton.mp hother, hstart]
        exact le_add_right _ _
      · exact lt_of_lt_of_le (Nat.add_lt_add_left hin start) (hrest.start_le other hother)
    · rw [List.length_append] at hrow
      obtain ⟨before, found, after, front, own, back, rfl, rfl, hfound, hat, hge, hlt, hbefore,
        hafter⟩ := @ih (rowIx - rows.length) (by omega)
      have hsum : start + rows.length + (rowIx - rows.length) = start + rowIx := by omega
      rw [hsum] at hbefore hafter
      refine ⟨entry :: before, found, after, rows ++ front, own, back, rfl,
        (List.append_assoc _ _ _).symm, hfound, ?_, ?_, ?_, fun other hother => ?_, hafter⟩
      · rw [hat, List.length_append, add_assoc]
      · rw [List.length_append]
        omega
      · rw [List.length_append]
        omega
      · rcases List.mem_cons.mp hother with rfl | hother
        · rw [hstart]
          exact le_add_right _ _
        · exact hbefore other hother

def pageOf (plain : List FileDiffRow) (pageIx : ℕ) : List FileDiffRow :=
  (plain.drop (pageIx * conflictSplitPageSize)).take conflictSplitPageSize

structure ConflictSplitPageCache.Holds (cache : ConflictSplitPageCache)
    (plain : List FileDiffRow) : Prop where
  tracks : Tracks cache.pages cache.lru
  page : ∀ pageIx page, cache.pages.lookup pageIx = some page → page = pageOf plain pageIx

structure ConflictSplitRowIndex.Serves (index : ConflictSplitRowIndex)
    (segments : List ConflictSegment) (plain : List FileDiffRow) : Prop where
  entries : LaidOut segments 0 index.entries plain
  totalRows : index.totalRows = plain.length
  pageSize : index.pageSize = conflictSplitPageSize
  pages : ∀ cache, index.pages = some cache → cache.Holds plain

variable {index : ConflictSplitRowIndex}

theorem new_serves {contextLines : ℕ} (haddressable : SidesAddressable segments) :
    (ConflictSplitRowIndex.new segments contextLines).Serves segments
      (plainRows segments contextLines) := by
  have hstart : SplitLayout.Holds segments ⟨[], 0, 1, 1, 0⟩ [] 1 1 := ⟨.nil 0, rfl, rfl, rfl⟩
  obtain ⟨ours, theirs, hlayout⟩ :=
    layOut_from contextLines haddressable segments [] rfl hstart
  exact ⟨hlayout.entries, hlayout.totalRows, rfl, fun cache hcache => by cases hcache⟩

theorem entryForRow_at (h : index.Serves segments plain)
    (hrow : rowIx < plain.length) : ∃ entry front rows back, index.entryForRow rowIx = some entry ∧
      plain = front ++ (rows ++ back) ∧ EntryShows segments entry rows ∧
      entry.rowStart = front.length ∧ front.length ≤ rowIx ∧
      rowIx < front.length + rows.length := by
  obtain ⟨before, entry, after, front, rows, back, hentries, hplain, hown, hat, hge, hlt, hbefore,
    hafter⟩ := h.entries.entry_of_row hrow
  have hshows := hown.shows
  rw [zero_add] at hat hbefore hafter
  refine ⟨entry, front, rows, back, ?_, hplain, hshows, hat, hge, hlt⟩
  have hpoint : partitionPoint (fun entry : SplitLayoutEntry => decide (entry.rowStart ≤ rowIx))
      index.entries = before.length + 1 := by
    have hsplit : index.entries = (before ++ [entry]) ++ after := by
      rw [hentries, List.append_assoc, List.singleton_append]
    rw [hsplit, partitionPoint_append (fun other hother => decide_eq_true (hbefore other hother))
      fun other hother => decide_eq_false (not_le.mpr (hafter other hother)),
      List.length_append, List.length_singleton]
  rw [ConflictSplitRowIndex.entryForRow, h.totalRows, if_neg (not_le.mpr hrow), hpoint,
    Nat.add_sub_cancel]
  dsimp only
  rw [hentries, List.getElem?_append_right (le_refl _), Nat.sub_self,
    List.getElem?_cons_zero, bind_eq_bind, bind_some, hat, hshows.count,
    if_pos ⟨hge, hlt⟩]

theorem buildRows_eq (h : index.Serves segments plain) {stop : ℕ} (hstop : stop ≤ plain.length)
    (fuel : ℕ) : ∀ {rowIx}, rowIx ≤ stop → stop - rowIx < fuel →
      index.buildRows segments stop fuel rowIx = some ((plain.drop rowIx).take (stop - rowIx)) := by
  induction fuel with
  | zero => exact fun _ hfuel => absurd hfuel (not_lt_zero _)
  | succ fuel ih =>
    intro rowIx hle hfuel
    rw [ConflictSplitRowIndex.buildRows]
    split
    · rename_i hlt
      obtain ⟨entry, front, rows, back, hentry, hplain, hshows, hat, hge, hin⟩ :=
        entryForRow_at h (lt_of_lt_of_le hlt hstop)
      obtain ⟨segment, hsegment, hread⟩ := hshows.read
      rw [hentry, bind_eq_bind, bind_some, hsegment, bind_eq_bind,
        bind_some, hat, hshows.count, hread _ _ (by omega) (by omega), bind_eq_bind,
        bind_some, ih (by omega) (by omega), bind_some]
      generalize hnext : min (front.length + rows.length) stop = next
      have hparts : stop - rowIx = (next - rowIx) + (stop - next) := by omega
      have hsame : next - front.length - (rowIx - front.length) = next - rowIx := by omega
      have hdrop : rowIx + (next - rowIx) = next := by omega
      rw [hparts, List.take_add, List.drop_drop, hdrop, hsame]
      congr 2
      rw [hplain, List.drop_append, List.drop_eq_nil_of_le hge, List.nil_append, List.drop_append,
        List.take_append_of_le_length]
      rw [List.length_drop]
      omega
    · rename_i hdone
      have hzero : stop - rowIx = 0 := by omega
      rw [hzero, List.take_zero]

theorem buildPage_eq (h : index.Serves segments plain)
    (hpage : pageIx * conflictSplitPageSize < plain.length) :
    index.buildPage segments pageIx = some (pageOf plain pageIx) := by
  rw [ConflictSplitRowIndex.buildPage, ConflictSplitRowIndex.pageBounds, h.pageSize, h.totalRows,
    if_pos hpage, bind_some, buildRows_eq h (min_le_right _ _) _ (by omega) (by omega),
    pageOf]
  rcases le_total (pageIx * conflictSplitPageSize + conflictSplitPageSize) plain.length
    with hfull | hshort
  · rw [min_eq_left hfull, Nat.add_sub_cancel_left]
  · rw [min_eq_right hshort, List.take_of_length_le (by rw [List.length_drop]),
      List.take_of_length_le (by rw [List.length_drop]; omega)]

end

section
variable {segments : List ConflictSegment} {plain : List FileDiffRow}
  {cache : ConflictSplitPageCache} {index : ConflictSplitRowIndex}

theorem touchQueue_eq {order : List ℕ} {key : ℕ} (h : order.Nodup) :
    ConflictSplitPageCache.touchQueue order key = touch order key := by
  rw [ConflictSplitPageCache.touchQueue]
  split
  · rename_i hlast
    obtain ⟨init, rfl⟩ := List.getLast?_eq_some_iff.mp hlast
    have hnot : key ∉ init := fun hkey =>
      (List.nodup_append.mp h).2.2 key hkey key (List.mem_singleton_self key) rfl
    have hkept : init.filter (· ≠ key) = init := List.filter_eq_self.mpr fun other hother =>
      decide_eq_true fun heq : other = key => hnot (heq ▸ hother)
    rw [touch, List.filter_append, hkept]
    simp
  · rw [h.erase_eq_filter, touch]
    congr 2
    funext other
    simp [bne, beq_eq_decide]

theorem evictOldest_holds {lru : List ℕ} : ∀ {pages},
    ConflictSplitPageCache.Holds ⟨pages, lru⟩ plain → ∃ after,
      ConflictSplitPageCache.evictOldest lru pages = some after ∧ after.Holds plain ∧
      after.pages.keys.length ≤ conflictSplitPageCacheMaxPages := by
  induction lru with
  | nil =>
    intro pages h
    have hnone : pages.keys.length = 0 := h.tracks.length.symm
    have hsmall : pages.keys.length ≤ conflictSplitPageCacheMaxPages := hnone ▸ zero_le _
    exact ⟨⟨pages, []⟩, if_neg (not_lt.mpr hsmall), h, hsmall⟩
  | cons oldest lru ih =>
    intro pages h
    rw [ConflictSplitPageCache.evictOldest]
    split
    · refine ih ⟨h.tracks.erase, fun pageIx page hpage => h.page pageIx page ?_⟩
      rcases eq_or_ne pageIx oldest with rfl | hne
      · rw [AList.lookup_erase] at hpage
        cases hpage
      · rwa [AList.lookup_erase_ne hne] at hpage
    · rename_i hsmall
      exact ⟨⟨pages, oldest :: lru⟩, rfl, h, not_lt.mp hsmall⟩

theorem insert_holds (h : cache.Holds plain) (pageIx : ℕ) :
    ∃ after, cache.insert pageIx (pageOf plain pageIx) = some after ∧ after.Holds plain ∧
      after.pages.keys.length ≤ conflictSplitPageCacheMaxPages := by
  refine evictOldest_holds ⟨?_, fun other page hpage => ?_⟩
  · rw [touchQueue_eq h.tracks.nodup]
    exact h.tracks.insert pageIx _
  · rcases eq_or_ne other pageIx with rfl | hne
    · rw [AList.lookup_insert, some.injEq] at hpage
      exact hpage.symm
    · rw [AList.lookup_insert_ne hne] at hpage
      exact h.page other page hpage

variable {page : List FileDiffRow} {after : ConflictSplitPageCache}

theorem get_holds (h : cache.Holds plain) (hget : cache.get pageIx = some (page, after)) :
    page = pageOf plain pageIx ∧ after.Holds plain := by
  obtain ⟨found, hfound, hafter⟩ := map_eq_some_iff.mp hget
  obtain ⟨rfl, rfl⟩ := Prod.mk.inj hafter
  have hmem : pageIx ∈ cache.pages := AList.lookup_isSome.mp (by rw [hfound]; rfl)
  refine ⟨h.page _ _ hfound, ?_, h.page⟩
  rw [touchQueue_eq h.tracks.nodup]
  exact h.tracks.touch hmem

theorem cachedPage_holds (h : index.Serves segments plain)
    (hcached : index.cachedPage pageIx = some (page, after)) :
    page = pageOf plain pageIx ∧ after.Holds plain := by
  obtain ⟨cache, hcache, hread⟩ := bind_eq_some_iff.mp hcached
  have hholds := h.pages cache hcache
  split at hread
  · rename_i found hfound
    split at hread
    · obtain ⟨rfl, rfl⟩ := Prod.mk.inj (some.inj hread)
      exact ⟨hholds.page _ _ hfound, hholds⟩
    · exact get_holds hholds hread
  · exact get_holds hholds hread

theorem loadPage_serves (h : index.Serves segments plain)
    (hpage : pageIx * conflictSplitPageSize < plain.length) :
    ∃ after, index.loadPage segments pageIx = some (some (pageOf plain pageIx), after) ∧
      after.Serves segments plain := by
  have hkeep : ∀ {cache : ConflictSplitPageCache}, cache.Holds plain →
      ({ index with pages := some cache } : ConflictSplitRowIndex).Serves segments plain :=
    fun hcache => ⟨h.entries, h.totalRows, h.pageSize, fun other hother =>
      some.inj hother ▸ hcache⟩
  rw [ConflictSplitRowIndex.loadPage]
  cases hcached : index.cachedPage pageIx with
  | some found =>
    obtain ⟨hfound, hafter⟩ := cachedPage_holds h hcached
    exact ⟨_, by rw [← hfound], hkeep hafter⟩
  | none =>
    rw [buildPage_eq h hpage]
    have hbefore : (index.pages.getD ⟨∅, []⟩).Holds plain := by
      cases hpages : index.pages with
      | some cache => exact h.pages cache hpages
      | none => exact ⟨Tracks.empty, fun _ _ hlookup => by simp at hlookup⟩
    obtain ⟨after, hafter, hholds, _⟩ := insert_holds hbefore pageIx
    refine ⟨_, ?_, hkeep hholds⟩
    dsimp only
    rw [hafter, map_some]

theorem rowAt_serves (h : index.Serves segments plain) (rowIx : ℕ) :
    ∃ after, index.rowAt segments rowIx = some (plain[rowIx]?, after) ∧
      after.Serves segments plain := by
  rw [ConflictSplitRowIndex.rowAt, h.totalRows]
  split
  · rename_i hbehind
    exact ⟨index, by rw [List.getElem?_eq_none hbehind], h⟩
  · rename_i hin
    have hdiv := div_add_mod rowIx conflictSplitPageSize
    have hpos : 0 < conflictSplitPageSize := by decide
    have hmod := mod_lt rowIx hpos
    rw [mul_comm] at hdiv
    rw [h.pageSize]
    have hpage : rowIx / conflictSplitPageSize * conflictSplitPageSize < plain.length := by omega
    obtain ⟨after, hload, hafter⟩ := loadPage_serves h hpage
    refine ⟨after, ?_, hafter⟩
    rw [hload, map_some, bind_some, pageOf, List.getElem?_take_of_lt hmod, List.getElem?_drop, hdiv]

theorem readRows_serves (accesses : List ℕ) : ∀ {index : ConflictSplitRowIndex},
    index.Serves segments plain →
      index.readRows segments accesses = some (accesses.map fun rowIx => plain[rowIx]?) := by
  induction accesses with
  | nil => exact fun _ => rfl
  | cons rowIx accesses ih =>
    intro index h
    obtain ⟨after, hread, hafter⟩ := rowAt_serves h rowIx
    rw [ConflictSplitRowIndex.readRows, hread, bind_eq_bind, bind_some, ih hafter,
      bind_eq_bind, bind_some, List.map_cons]

end

end GitComet.Resolver
