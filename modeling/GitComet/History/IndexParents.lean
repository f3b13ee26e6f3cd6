import GitComet.History.IndexLookup

namespace GitComet.History
open Slice ByteOrder BinarySearch Text List Option Nat

def rankOf (lookup : Bytes → Option (Option ℕ)) (parent : Bytes) : ℕ :=
  ((lookup parent).getD none).getD missingParent

def externalEntries (rank : Bytes → ℕ) (edge : ℕ) (parents : List Bytes) : List (Bytes × ℕ) :=
  (parents.zipIdx edge).filter fun entry => decide (rank entry.1 = missingParent)

structure ResolvedFrom (before index : HistoryIndex) (rank : Bytes → ℕ) (edge : ℕ)
    (all : List Bytes) : Prop where
  hashLen : index.hashLen = before.hashLen
  ids : index.ids = before.ids
  sortedRows : index.sortedRows = before.sortedRows
  parentOffsets : index.parentOffsets = before.parentOffsets
  fanout : index.fanout = before.fanout
  stashes : index.probableStashes = before.probableStashes
  parents : index.parents = before.parents ++ all.map rank
  externalEdges : index.externalEdges =
    before.externalEdges ++ (externalEntries rank edge all).map Prod.snd
  externalIds : index.externalIds =
    before.externalIds ++ ((externalEntries rank edge all).map Prod.fst).flatten

variable {lookup : Bytes → Option (Option ℕ)}

theorem resolveParents_spec {all : List Bytes} :
    ∀ {e : ℕ} {b : HistoryIndex}, (∀ parent ∈ all, (lookup parent).isSome) →
      e + all.length ≤ u32Max + 1 → ∃ index, resolveParents lookup e all b = some index ∧
        ResolvedFrom b index (rankOf lookup) e all := by
  induction all with
  | nil =>
    intro e b _ _
    exact ⟨b, rfl, rfl, rfl, rfl, rfl, rfl, rfl, by simp, by simp [externalEntries],
      by simp [externalEntries]⟩
  | cons parent all ih =>
    intro e b htotal hroom
    rw [length_cons] at hroom
    obtain ⟨found, hfound⟩ := isSome_iff_exists.mp (htotal parent mem_cons_self)
    have hrank : rankOf lookup parent = found.getD missingParent := by
      rw [rankOf, hfound]
      rfl
    have hedge : asU32 e = e := by
      rw [asU32, mod_eq_of_lt (by omega)]
    have htotal' : ∀ p ∈ all, (lookup p).isSome :=
      fun p hp => htotal p (mem_cons_of_mem _ hp)
    simp only [resolveParents, hfound, bind_eq_bind, bind_some, ← hrank, hedge]
    by_cases hmissing : rankOf lookup parent = missingParent
    · rw [if_pos hmissing]
      obtain ⟨index, hindex, hrest⟩ := ih (e := e + 1)
        (b := { b with
          externalEdges := b.externalEdges ++ [e]
          externalIds := b.externalIds ++ parent
          parents := b.parents ++ [rankOf lookup parent] }) htotal' (by omega)
      have hentries : externalEntries (rankOf lookup) e (parent :: all) =
          (parent, e) :: externalEntries (rankOf lookup) (e + 1) all := by
        rw [externalEntries, zipIdx_cons,
          filter_cons_of_pos (by simpa using hmissing), externalEntries]
      refine ⟨index, hindex, hrest.hashLen, hrest.ids, hrest.sortedRows, hrest.parentOffsets,
        hrest.fanout, hrest.stashes, ?_, ?_, ?_⟩
      · rw [hrest.parents]
        simp
      · rw [hrest.externalEdges, hentries]
        simp
      · rw [hrest.externalIds, hentries]
        simp
    · rw [if_neg hmissing]
      obtain ⟨index, hindex, hrest⟩ := ih (e := e + 1)
        (b := { b with parents := b.parents ++ [rankOf lookup parent] }) htotal'
        (by omega)
      have hentries : externalEntries (rankOf lookup) e (parent :: all) =
          externalEntries (rankOf lookup) (e + 1) all := by
        rw [externalEntries, zipIdx_cons,
          filter_cons_of_neg (by simpa using hmissing), externalEntries]
      refine ⟨index, hindex, hrest.hashLen, hrest.ids, hrest.sortedRows, hrest.parentOffsets,
        hrest.fanout, hrest.stashes, ?_, ?_, ?_⟩
      · rw [hrest.parents]
        simp
      · rw [hrest.externalEdges, hentries]
      · rw [hrest.externalIds, hentries]

def commitIds (commits : List Push) : List Bytes := commits.map Push.id

variable {parent : Bytes}

theorem ranks_of_lookup {ids : List Bytes} (h : ∃ result, lookup parent = some result ∧
      ∀ row : ℕ, result = some row ↔ ids[row]? = some parent) (r : ℕ) :
    rankOf lookup parent = r ↔ ids[r]? = some parent ∨ r = missingParent ∧ parent ∉ ids := by
  obtain ⟨result, hlookup, hresult⟩ := h
  rw [rankOf, hlookup, getD_some]
  cases result with
  | none =>
    have habsent : ∀ row : ℕ, ids[row]? ≠ some parent := fun row hrow =>
      nomatch (hresult row).mpr hrow
    have hnot : parent ∉ ids := fun hmem => by
      obtain ⟨row, hrow⟩ := mem_iff_getElem?.mp hmem
      exact habsent row hrow
    simp only [getD_none, habsent r, hnot, not_false_eq_true, and_true, false_or]
    exact eq_comm
  | some row =>
    have hrow := (hresult row).mp rfl
    rw [getD_some]
    constructor
    · rintro rfl
      exact Or.inl hrow
    · rintro (hr | ⟨-, hnot⟩)
      · exact some.inj ((hresult r).mpr hr)
      · exact absurd (mem_of_getElem? hrow) hnot

structure Finished (commits : List Push) (index : HistoryIndex) (rank : Bytes → ℕ) : Prop where
  table : IdTable (commitIds commits) index
  lookup : ∀ id, ∃ result, index.positionBytes id = some result ∧
    ∀ row : ℕ, result = some row ↔ (commitIds commits)[row]? = some id
  offsets : ∀ row : ℕ, index.parentOffsets[row]? =
    if row ≤ commits.length then some (edgesBefore commits row) else none
  ranks : ∀ parent ∈ parentIdsOf commits, ∀ r : ℕ, rank parent = r ↔
    (commitIds commits)[r]? = some parent ∨ r = missingParent ∧ parent ∉ commitIds commits
  parents : index.parents = (parentIdsOf commits).map rank
  externalEdges : index.externalEdges =
    (externalEntries rank 0 (parentIdsOf commits)).map Prod.snd
  externalIds : index.externalIds =
    ((externalEntries rank 0 (parentIdsOf commits)).map Prod.fst).flatten
  parentLength : ∀ parent ∈ parentIdsOf commits, parent.length = index.hashLen
  edges : (parentIdsOf commits).length ≤ u32Max

section
variable {hashLen : ℕ} {commits : List Push} {builder : HistoryIndexBuilder}

variable {before : HistoryIndex}

theorem IdTable.congr {ids : List Bytes} {index : HistoryIndex} (h : IdTable ids before)
    (hlen : index.hashLen = before.hashLen) (hids : index.ids = before.ids) : IdTable ids index :=
  ⟨hlen ▸ h.size, hids.trans h.bytes, hlen ▸ h.length, h.rows, h.distinct⟩

theorem positionBytes_congr {index : HistoryIndex} (hlen : index.hashLen = before.hashLen)
    (hids : index.ids = before.ids) (hrows : index.sortedRows = before.sortedRows)
    (hfanout : index.fanout = before.fanout) (id : Bytes) :
    index.positionBytes id = before.positionBytes id := by
  simp only [HistoryIndex.positionBytes, HistoryIndex.indexedRow, HistoryIndex.idBytes, hlen, hids,
    hrows, hfanout]

section
variable (h : BuiltFrom hashLen commits builder)
include h

theorem BuiltFrom.table
    (hdistinct : (commitIds commits).Nodup) : IdTable (commitIds commits) builder.index where
  size := h.width ▸ h.size
  bytes := h.ids
  length id hid := (h.idLength id hid).trans h.width.symm
  rows := by
    rw [commitIds, length_map]
    exact h.rows
  distinct := hdistinct

theorem resolved_finished
    (hdistinct : (commitIds commits).Nodup)
    (hbefore : before = { builder.index with
      sortedRows := before.sortedRows, fanout := before.fanout })
    (hposition : ∀ id, ∃ result, before.positionBytes id = some result ∧
      ∀ row : ℕ, result = some row ↔ (commitIds commits)[row]? = some id)
    (hlookup : ∀ parent ∈ parentIdsOf commits, ∃ result, lookup parent = some result ∧
      ∀ row : ℕ, result = some row ↔ (commitIds commits)[row]? = some parent) :
    ∃ index, resolveParents lookup 0 (parentIdsOf commits) before = some index ∧
      Finished commits index (rankOf lookup) := by
  have htotal : ∀ parent ∈ parentIdsOf commits, (lookup parent).isSome := by
    intro parent hparent
    obtain ⟨result, hresult, -⟩ := hlookup parent hparent
    rw [hresult]
    rfl
  have hroom := h.edges
  obtain ⟨index, hindex, hres⟩ := resolveParents_spec (e := 0) (b := before) htotal
    (by omega)
  have hlen : before.hashLen = builder.index.hashLen := by rw [hbefore]
  have hids : before.ids = builder.index.ids := by rw [hbefore]
  have htable := h.table hdistinct
  refine ⟨index, hindex, htable.congr (hres.hashLen.trans hlen) (hres.ids.trans hids),
    fun id => ?_, fun row => ?_, fun parent hparent =>
      ranks_of_lookup (hlookup parent hparent), ?_, ?_, ?_, ?_, h.edges⟩
  · rw [positionBytes_congr hres.hashLen hres.ids hres.sortedRows hres.fanout]
    exact hposition id
  · rw [hres.parentOffsets, hbefore]
    exact h.offset row
  · rw [hres.parents, hbefore]
    simp only [h.parents, nil_append]
  · rw [hres.externalEdges, hbefore]
    simp only [h.externalEdges, nil_append]
  · rw [hres.externalIds, hbefore]
    simp only [h.externalIds, nil_append]
  · intro parent hparent
    rw [hres.hashLen, hlen, h.width]
    exact h.parentLength parent hparent

theorem finish_finished (hdistinct : (commitIds commits).Nodup) (cancelled : ℕ → Bool) :
    (builder.finish cancelled = none ∧ ∃ check, cancelled check) ∨
      ∃ index rank, builder.finish cancelled = some index ∧ Finished commits index rank := by
  unfold HistoryIndexBuilder.finish
  simp only [h.chunks]
  split
  · rename_i hcancelled
    obtain ⟨check, -, hcheck⟩ := any_eq_true.mp hcancelled
    exact Or.inl ⟨rfl, check, hcheck⟩
  refine Or.inr ?_
  have htable := h.table hdistinct
  have hrows : range builder.index.len = range (commitIds commits).length := by
    rw [h.len, commitIds, length_map]
  have hlengths : ∀ parent ∈ parentIdsOf commits, parent.length = builder.index.hashLen :=
    fun parent hparent => (h.parentLength parent hparent).trans h.width.symm
  rw [hrows]
  split
  · have hkeyed := keyedRows_sorted htable
    generalize keyedRows builder.index.ids builder.index.hashLen
      (range (commitIds commits).length) = keyed at hkeyed
    have hbefore : IdTable (commitIds commits) { builder.index with
        sortedRows := keyed.map Prod.snd, fanout := prefixSums 0 (fanoutCounts keyed) } :=
      htable.congr rfl rfl
    have hkeyed' : KeyedRows { builder.index with
        sortedRows := keyed.map Prod.snd, fanout := prefixSums 0 (fanoutCounts keyed) }
        (commitIds commits) keyed := ⟨hkeyed.rows, hkeyed.keys⟩
    obtain ⟨index, hindex, hfinished⟩ := resolved_finished h hdistinct rfl
      (positionBytes_fanout hbefore hkeyed' rfl rfl)
      fun parent hparent => positionInKeyed_spec hbefore hkeyed' rfl (hlengths parent hparent)
    exact ⟨index, _, hindex, hfinished⟩
  · have hsorted := sortRows_sorted htable
    generalize sortRows builder.index.ids builder.index.hashLen
      (range (commitIds commits).length) = rows at hsorted
    have hbefore : IdTable (commitIds commits) { builder.index with sortedRows := rows } :=
      htable.congr rfl rfl
    have hposition := positionBytes_sorted hbefore hsorted h.fanout
    obtain ⟨index, hindex, hfinished⟩ := resolved_finished h hdistinct rfl hposition
      fun parent _ => hposition parent
    exact ⟨index, _, hindex, hfinished⟩

end

end

variable {row : ℕ} {commit : Push}

theorem parentIds_split {commits : List Push} (h : commits[row]? = some commit) : ∃ front back,
      parentIdsOf commits = front ++ (commit.parents ++ back) ∧
        front.length = edgesBefore commits row ∧
        edgesBefore commits (row + 1) = edgesBefore commits row + commit.parents.length := by
  obtain ⟨before, after, rfl, rfl⟩ := split_at_index h
  refine ⟨parentIdsOf before, parentIdsOf after, ?_, ?_, ?_⟩
  · simp [parentIdsOf]
  · rw [edgesBefore, take_left]
  · rw [edgesBefore, edgesBefore, take_left, take_append, take_of_length_le (by omega),
      Nat.add_sub_cancel_left]
    simp [parentIdsOf]

theorem externalEntries_mem {rank : Bytes → ℕ} {all : List Bytes} {edge : ℕ} :
    (parent, edge) ∈ externalEntries rank 0 all ↔
      all[edge]? = some parent ∧ rank parent = missingParent := by
  rw [externalEntries, mem_filter, mem_zipIdx_iff_getElem?, decide_eq_true_iff]

theorem externalEntries_sorted (rank : Bytes → ℕ) (all : List Bytes) :
    ((externalEntries rank 0 all).map Prod.snd).Pairwise (· < ·) := by
  have hall : (all.zipIdx 0).Pairwise fun a b => a.2 < b.2 := by
    rw [← pairwise_map (f := Prod.snd) (R := (· < ·)), zipIdx_map_snd]
    exact pairwise_lt_range'
  rw [pairwise_map]
  exact hall.filter _

section
variable {commits : List Push} {index : HistoryIndex} {rank : Bytes → ℕ}

section
variable (h : Finished commits index rank)
include h

theorem Finished.parentsOf (hrow : commits[row]? = some commit) :
    index.parentsOf row = some (commit.parents.map rank) := by
  obtain ⟨front, back, hsplit, hfront, hstop⟩ := parentIds_split hrow
  obtain ⟨hlt, -⟩ := List.getElem?_eq_some_iff.mp hrow
  rw [HistoryIndex.parentsOf, h.offsets row, h.offsets (row + 1), if_pos (by omega),
    if_pos (by omega)]
  dsimp only
  rw [h.parents, hsplit, hstop, ← hfront, map_append, map_append,
    sliceOf_eq (le_add_right _ _) (by simp), slice, Nat.add_sub_cancel_left]
  have hdrop : front.length = (front.map rank).length := by rw [length_map]
  have htake : commit.parents.length = (commit.parents.map rank).length := by rw [length_map]
  rw [hdrop, drop_left, htake, take_left]

theorem Finished.outside (hrow : commits.length ≤ row) : index.parentsOf row = some [] := by
  rw [HistoryIndex.parentsOf, h.offsets (row + 1), if_neg (by omega)]
  cases index.parentOffsets[row]? <;> rfl

theorem Finished.external {edge : ℕ}
    (hparent : (parentIdsOf commits)[edge]? = some parent) (hrank : rank parent = missingParent) :
    ∃ found, binarySearchBy (fun other => compare other (asU32 edge)) index.externalEdges =
        .ok found ∧
      sliceOf index.externalIds (found * index.hashLen) (found * index.hashLen + index.hashLen) =
        some parent := by
  have hpos : 0 < index.hashLen := by have := h.table.size; omega
  obtain ⟨hlt, -⟩ := List.getElem?_eq_some_iff.mp hparent
  have hedge : asU32 edge = edge := by
    have := h.edges
    rw [asU32, mod_eq_of_lt (by omega)]
  have hmem : edge ∈ index.externalEdges := by
    rw [h.externalEdges]
    exact mem_map_of_mem (f := Prod.snd) (externalEntries_mem.mpr ⟨hparent, hrank⟩)
  have hsorted := externalEntries_sorted rank (parentIdsOf commits)
  rw [← h.externalEdges] at hsorted
  obtain ⟨found, hsearch, hget⟩ := (binarySearchBy_sorted hsorted
    fun _ _ => rfl).1 edge hmem rfl
  refine ⟨found, by rw [hedge]; exact hsearch, ?_⟩
  rw [h.externalEdges, getElem?_map, map_eq_some_iff] at hget
  obtain ⟨⟨other, edge'⟩, hother, rfl⟩ := hget
  obtain ⟨hsame, -⟩ := externalEntries_mem.mp (mem_of_getElem? hother)
  obtain rfl := some.inj (hparent.symm.trans hsame)
  have hlengths : ∀ piece ∈ (externalEntries rank 0 (parentIdsOf commits)).map Prod.fst,
      piece.length = index.hashLen := by
    intro piece hpiece
    obtain ⟨⟨piece, at'⟩, hentry, rfl⟩ := List.mem_map.mp hpiece
    exact h.parentLength _ (mem_of_getElem? (externalEntries_mem.mp hentry).1)
  rw [h.externalIds, sliceOf_flatten hpos hlengths, getElem?_map, hother]
  rfl

theorem Finished.parentIdBytes (hrow : commits[row]? = some commit) (k : ℕ) :
    index.parentIdBytes row k = some commit.parents[k]? := by
  obtain ⟨front, back, hsplit, hfront, -⟩ := parentIds_split hrow
  rw [HistoryIndex.parentIdBytes, h.parentsOf hrow]
  simp only [bind_eq_bind, bind_some, getElem?_map]
  cases hk : commit.parents[k]? with
  | none => rfl
  | some parent =>
    obtain ⟨hklt, -⟩ := List.getElem?_eq_some_iff.mp hk
    have hedge : (parentIdsOf commits)[edgesBefore commits row + k]? = some parent := by
      rw [hsplit, ← hfront, getElem?_append_right (by omega), Nat.add_sub_cancel_left,
        getElem?_append_left hklt, hk]
    simp only [map_some]
    split
    · rename_i hknown
      have hranks := (h.ranks parent (mem_of_getElem? hedge) (rank parent)).mp rfl
      rw [h.table.column.idBytes]
      exact congrArg some (hranks.resolve_right fun hmissing => hknown hmissing.1)
    · rename_i hunknown
      obtain ⟨hlt, -⟩ := List.getElem?_eq_some_iff.mp hrow
      obtain ⟨found, hsearch, hslice⟩ := h.external hedge (not_not.mp hunknown)
      rw [h.offsets row, if_pos (le_of_lt hlt)]
      simp only [hsearch, hslice]

end

end

structure IndexesHistory (commits : List Push) (index : HistoryIndex) : Prop where
  position : ∀ id, ∃ result, index.positionBytes id = some result ∧
    ∀ row : ℕ, result = some row ↔ ∃ commit, commits[row]? = some commit ∧ commit.id = id
  parents : ∀ (row : ℕ) commit, commits[row]? = some commit →
    ∃ ranks, index.parentsOf row = some ranks ∧ ranks.length = commit.parents.length ∧
      ∀ (k : ℕ) parent, commit.parents[k]? = some parent → ∃ rank, ranks[k]? = some rank ∧
        ((∃ found, commits[rank]? = some found ∧ found.id = parent) ∨
          rank = missingParent ∧ ∀ found ∈ commits, found.id ≠ parent)
  parentIds : ∀ (row : ℕ) commit, commits[row]? = some commit →
    ∀ k, index.parentIdBytes row k = some commit.parents[k]?
  outside : ∀ row, commits.length ≤ row →
    index.parentsOf row = some [] ∧ ∀ k, index.parentIdBytes row k = some none

theorem finished_indexes {commits : List Push} {index : HistoryIndex} {rank : Bytes → ℕ}
    (h : Finished commits index rank) : IndexesHistory commits index := by
  have hids : ∀ {row : ℕ} {id : Bytes}, (commitIds commits)[row]? = some id ↔
      ∃ commit, commits[row]? = some commit ∧ commit.id = id := by
    intro row id
    rw [commitIds, getElem?_map, map_eq_some_iff]
  refine ⟨fun id => ?_, fun row commit hrow => ?_, fun row commit => h.parentIdBytes,
    fun row hrow => ⟨h.outside hrow, fun k => ?_⟩⟩
  · obtain ⟨result, hresult, hiff⟩ := h.lookup id
    exact ⟨result, hresult, fun row => (hiff row).trans hids⟩
  · refine ⟨_, h.parentsOf hrow, length_map _, fun k parent hk => ?_⟩
    refine ⟨rank parent, by rw [getElem?_map, hk]; rfl, ?_⟩
    have hmem : parent ∈ parentIdsOf commits := mem_flatMap.mpr
      ⟨commit, mem_of_getElem? hrow, mem_of_getElem? hk⟩
    rcases (h.ranks parent hmem _).mp rfl with hknown | ⟨hmissing, habsent⟩
    · exact Or.inl (hids.mp hknown)
    · exact Or.inr ⟨hmissing, fun found hfound heq =>
        habsent (heq ▸ mem_map_of_mem hfound)⟩
  · rw [HistoryIndex.parentIdBytes, h.outside hrow]
    rfl

theorem built_index_is_faithful {hashLen : ℕ} {empty builder : HistoryIndexBuilder}
    {commits : List Push} (hnew : HistoryIndexBuilder.new hashLen = some empty)
    (hpush : empty.pushAll commits = some builder) (hdistinct : (commits.map Push.id).Nodup)
    (cancelled : ℕ → Bool) :
    (∀ index, builder.finish cancelled = some index → IndexesHistory commits index) ∧
      ((∀ check, cancelled check = false) → ∃ index, builder.finish cancelled = some index) := by
  have hbuilt := pushAll_built (new_built hnew) hpush
  rw [nil_append] at hbuilt
  rcases finish_finished hbuilt hdistinct cancelled with
    ⟨hnone, check, hcheck⟩ | ⟨index, rank, hindex, hfinished⟩
  · refine ⟨fun index hindex => ?_, fun hnever => ?_⟩
    · rw [hnone] at hindex
      cases hindex
    · rw [hnever check] at hcheck
      cases hcheck
  · refine ⟨fun other hother => ?_, fun _ => ⟨index, hindex⟩⟩
    obtain rfl := some.inj (hindex.symm.trans hother)
    exact finished_indexes hfinished

def twoCommits : List Push :=
  [⟨replicate 20 2, [replicate 20 1, replicate 20 9], false⟩,
    ⟨replicate 20 1, [], true⟩]

theorem two_commits_are_indexed : ∃ empty builder index,
    HistoryIndexBuilder.new 20 = some empty ∧ empty.pushAll twoCommits = some builder ∧
      builder.finish (fun _ => false) = some index ∧ IndexesHistory twoCommits index := by
  obtain ⟨empty, hnew⟩ : ∃ empty, HistoryIndexBuilder.new 20 = some empty := ⟨_, rfl⟩
  obtain ⟨builder, hpush⟩ : ∃ builder, empty.pushAll twoCommits = some builder := by
    cases hnew
    exact ⟨_, rfl⟩
  obtain ⟨hfaithful, hfinishes⟩ := built_index_is_faithful hnew hpush (by decide) fun _ => false
  obtain ⟨index, hindex⟩ := hfinishes fun _ => rfl
  exact ⟨empty, builder, index, hnew, hpush, hindex, hfaithful index hindex⟩

end GitComet.History
