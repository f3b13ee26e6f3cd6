import Mathlib.Data.List.Sort
import GitComet.Basis.BinarySearch
import GitComet.Basis.ByteOrder
import GitComet.Text.Lines

namespace GitComet.History
open Slice ByteOrder BinarySearch Text

def missingParent : ℕ := u32Max

def fanoutThreshold : ℕ := 65536

structure HistoryIndex where
  hashLen : ℕ
  ids : Bytes
  sortedRows : List ℕ
  parentOffsets : List ℕ
  parents : List ℕ
  externalEdges : List ℕ
  externalIds : Bytes
  fanout : List ℕ
  probableStashes : List ℕ

def asU32 (n : ℕ) : ℕ := n % (u32Max + 1)

namespace HistoryIndex
variable (index : HistoryIndex)

def len : ℕ := index.parentOffsets.length - 1

def idBytes (row : ℕ) : Option Bytes :=
  let start := row * index.hashLen
  if start > usizeMax ∨ start + index.hashLen > usizeMax then none
  else sliceOf index.ids start (start + index.hashLen)

def indexedRow (row : ℕ) : Bytes := (index.idBytes row).getD []

def positionBytes (id : Bytes) : Option (Option ℕ) :=
  if id.length ≠ index.hashLen then some none
  else do
    let rows ←
      if index.fanout.isEmpty then some index.sortedRows
      else do
        let first := bigEndian (id.take 2)
        let start ← index.fanout[first]?
        let stop ← index.fanout[first + 1]?
        sliceOf index.sortedRows start stop
    match binarySearchBy (fun row => compareBytes (index.indexedRow row) id) rows with
    | .ok found => (rows[found]?).map some
    | .error _ => some none

def positionInKeyed (keyed : List (ℕ × ℕ)) (id : Bytes) : Option (Option ℕ) := do
  let idPrefix := bigEndian (id.take 8)
  let first := idPrefix / 2 ^ 48
  let start ← index.fanout[first]?
  let stop ← index.fanout[first + 1]?
  let bucket ← sliceOf keyed start stop
  let run := bucket.drop (partitionPoint (fun entry => decide (entry.1 < idPrefix)) bucket)
  let run := run.take (partitionPoint (fun entry => decide (entry.1 = idPrefix)) run)
  match binarySearchBy (fun entry => compareBytes (index.indexedRow entry.2) id) run with
  | .ok found => (run[found]?).map fun entry => some entry.2
  | .error _ => some none

def parentsOf (row : ℕ) : Option (List ℕ) :=
  match index.parentOffsets[row]?, index.parentOffsets[row + 1]? with
  | some start, some stop => sliceOf index.parents start stop
  | _, _ => some []

def parentIdBytes (row parent : ℕ) : Option (Option Bytes) := do
  let ranks ← index.parentsOf row
  match ranks[parent]? with
  | none => some none
  | some rank =>
    if rank ≠ missingParent then some (index.idBytes rank)
    else match index.parentOffsets[row]? with
      | none => some none
      | some offset =>
        match binarySearchBy (fun edge => compare edge (asU32 (offset + parent)))
            index.externalEdges with
        | .error _ => some none
        | .ok found =>
          let start := found * index.hashLen
          some (sliceOf index.externalIds start (start + index.hashLen))

def isProbableStash (row : ℕ) : Bool :=
  if row > u32Max then false
  else match binarySearchBy (fun stash => compare stash row) index.probableStashes with
    | .ok _ => true
    | .error _ => false

end HistoryIndex

structure HistoryIndexBuilder where
  index : HistoryIndex
  parentIds : Bytes

structure Push where
  id : Bytes
  parents : List Bytes
  probableStash : Bool

namespace HistoryIndexBuilder

def new (hashLen : ℕ) : Option HistoryIndexBuilder :=
  if hashLen ≠ 20 ∧ hashLen ≠ 32 then none
  else some
    { index :=
        { hashLen := hashLen
          ids := []
          sortedRows := []
          parentOffsets := [0]
          parents := []
          externalEdges := []
          externalIds := []
          fanout := []
          probableStashes := [] }
      parentIds := [] }

variable (builder : HistoryIndexBuilder)

def len : ℕ := builder.index.len

def appendParents (hashLen : ℕ) : Bytes → List Bytes → Option Bytes
  | parentIds, [] => some parentIds
  | parentIds, parent :: parents =>
    if parent.length ≠ hashLen then none else appendParents hashLen (parentIds ++ parent) parents

def push (commit : Push) : HistoryIndexBuilder × Bool :=
  if commit.id.length ≠ builder.index.hashLen ∨ builder.len ≥ missingParent then (builder, false)
  else match appendParents builder.index.hashLen builder.parentIds commit.parents with
    | none => (builder, false)
    | some parentIds =>
      let stop := parentIds.length / builder.index.hashLen
      if stop > u32Max then ({ builder with parentIds := parentIds }, false)
      else
        let stash := asU32 (builder.index.parentOffsets.length - 1)
        ({ index :=
            { builder.index with
              ids := builder.index.ids ++ commit.id
              parentOffsets := builder.index.parentOffsets ++ [stop]
              probableStashes := builder.index.probableStashes ++
                if commit.probableStash then [stash] else [] }
           parentIds := parentIds }, true)

def pushAll : HistoryIndexBuilder → List Push → Option HistoryIndexBuilder
  | builder, [] => some builder
  | builder, commit :: commits =>
    let pushed := builder.push commit
    if pushed.2 then pushAll pushed.1 commits else none

end HistoryIndexBuilder

def rowBytes (ids : Bytes) (hashLen row : ℕ) : Bytes :=
  slice ids (row * hashLen) (row * hashLen + hashLen)

def rowPrefix (ids : Bytes) (hashLen row : ℕ) : ℕ :=
  bigEndian (slice ids (row * hashLen) (row * hashLen + 8))

def keyedRows (ids : Bytes) (hashLen : ℕ) (rows : List ℕ) : List (ℕ × ℕ) :=
  (rows.map fun row => (rowPrefix ids hashLen row, row)).insertionSort fun a b =>
    a.1 < b.1 ∨ a.1 = b.1 ∧ rowBytes ids hashLen a.2 ≤ rowBytes ids hashLen b.2

def sortRows (ids : Bytes) (hashLen : ℕ) (rows : List ℕ) : List ℕ :=
  rows.insertionSort fun a b => rowBytes ids hashLen a ≤ rowBytes ids hashLen b

def fanoutCounts (keyed : List (ℕ × ℕ)) : List ℕ :=
  keyed.foldl (fun fanout entry => fanout.modify (entry.1 / 2 ^ 48 + 1) (· + 1))
    (List.replicate 65537 0)

def prefixSums : ℕ → List ℕ → List ℕ
  | _, [] => []
  | sum, count :: counts => (sum + count) :: prefixSums (sum + count) counts

def chunksExact {α : Type} (size : ℕ) : ℕ → List α → List (List α)
  | 0, _ => []
  | fuel + 1, xs =>
    if xs.length < size ∨ size = 0 then []
    else xs.take size :: chunksExact size fuel (xs.drop size)

def resolveParents (lookup : Bytes → Option (Option ℕ)) :
    ℕ → List Bytes → HistoryIndex → Option HistoryIndex
  | _, [], index => some index
  | edge, parent :: parents, index => do
    let found ← lookup parent
    let rank := found.getD missingParent
    let index :=
      if rank = missingParent then
        { index with
          externalEdges := index.externalEdges ++ [asU32 edge]
          externalIds := index.externalIds ++ parent }
      else index
    resolveParents lookup (edge + 1) parents { index with parents := index.parents ++ [rank] }

def cancellationChecks (edges : ℕ) : ℕ := 3 + (edges + 1023) / 1024

def HistoryIndexBuilder.finish (builder : HistoryIndexBuilder) (cancelled : ℕ → Bool) :
    Option HistoryIndex :=
  let hashLen := builder.index.hashLen
  let ids := builder.index.ids
  let chunks := chunksExact hashLen builder.parentIds.length builder.parentIds
  if (List.range (cancellationChecks chunks.length)).any cancelled then none
  else
    let rows := List.range builder.index.len
    if fanoutThreshold ≤ builder.index.len then
      let keyed := keyedRows ids hashLen rows
      let index :=
        { builder.index with
          sortedRows := keyed.map Prod.snd
          fanout := prefixSums 0 (fanoutCounts keyed) }
      resolveParents (index.positionInKeyed keyed) 0 chunks index
    else
      let index := { builder.index with sortedRows := sortRows ids hashLen rows }
      resolveParents index.positionBytes 0 chunks index

end GitComet.History

namespace GitComet.History
open Slice ByteOrder BinarySearch Text

def parentIdsOf (commits : List Push) : List Bytes := commits.flatMap Push.parents

def edgesBefore (commits : List Push) (row : ℕ) : ℕ := (parentIdsOf (commits.take row)).length

structure BuiltFrom (hashLen : ℕ) (commits : List Push) (builder : HistoryIndexBuilder) : Prop where
  width : builder.index.hashLen = hashLen
  size : hashLen = 20 ∨ hashLen = 32
  ids : builder.index.ids = (commits.map Push.id).flatten
  offsets : builder.index.parentOffsets =
    (List.range (commits.length + 1)).map (edgesBefore commits)
  parentIds : builder.parentIds = (parentIdsOf commits).flatten
  idLength : ∀ id ∈ commits.map Push.id, id.length = hashLen
  parentLength : ∀ parent ∈ parentIdsOf commits, parent.length = hashLen
  rows : commits.length ≤ missingParent
  edges : (parentIdsOf commits).length ≤ u32Max
  parents : builder.index.parents = []
  externalEdges : builder.index.externalEdges = []
  externalIds : builder.index.externalIds = []
  fanout : builder.index.fanout = []
  stashes : builder.index.probableStashes =
    commits.zipIdx.filterMap fun entry => if entry.1.probableStash then some entry.2 else none

theorem flatten_length {pieces : List Bytes} {size : ℕ}
    (h : ∀ piece ∈ pieces, piece.length = size) :
    pieces.flatten.length = pieces.length * size := by
  induction pieces with
  | nil => simp
  | cons piece pieces ih =>
    rw [List.flatten_cons, List.length_append, h piece List.mem_cons_self,
      ih fun p hp => h p (List.mem_cons_of_mem _ hp), List.length_cons, Nat.succ_mul, Nat.add_comm]

theorem new_built {hashLen : ℕ} {builder : HistoryIndexBuilder}
    (h : HistoryIndexBuilder.new hashLen = some builder) : BuiltFrom hashLen [] builder := by
  unfold HistoryIndexBuilder.new at h
  split at h
  · cases h
  · rename_i hsize
    cases h
    exact ⟨rfl, by omega, rfl, rfl, rfl, by simp, by simp [parentIdsOf], by simp [missingParent],
      by simp [parentIdsOf], rfl, rfl, rfl, rfl, rfl⟩

theorem appendParents_some {hashLen : ℕ} {parents : List Bytes} : ∀ {before after : Bytes},
    HistoryIndexBuilder.appendParents hashLen before parents = some after →
      after = before ++ parents.flatten ∧ ∀ parent ∈ parents, parent.length = hashLen := by
  induction parents with
  | nil =>
    intro before after h
    cases h
    simp
  | cons parent parents ih =>
    intro before after h
    rw [HistoryIndexBuilder.appendParents] at h
    split at h
    · cases h
    · rename_i hlength
      obtain ⟨rfl, hrest⟩ := ih h
      refine ⟨by simp, fun p hp => ?_⟩
      rcases List.mem_cons.mp hp with rfl | hp
      · exact not_not.mp hlength
      · exact hrest p hp

theorem edgesBefore_snoc (commits : List Push) (commit : Push) {row : ℕ}
    (h : row ≤ commits.length) : edgesBefore (commits ++ [commit]) row = edgesBefore commits row := by
  rw [edgesBefore, List.take_append_of_le_length h, edgesBefore]

theorem edgesBefore_all (commits : List Push) :
    edgesBefore commits commits.length = (parentIdsOf commits).length := by
  rw [edgesBefore, List.take_length]

theorem push_built {hashLen : ℕ} {commits : List Push} {builder : HistoryIndexBuilder}
    (h : BuiltFrom hashLen commits builder) {commit : Push}
    (haccepted : (builder.push commit).2) :
    BuiltFrom hashLen (commits ++ [commit]) (builder.push commit).1 := by
  have hlen : builder.index.parentOffsets.length - 1 = commits.length := by
    rw [h.offsets]
    simp
  unfold HistoryIndexBuilder.push at haccepted ⊢
  split at haccepted
  · cases haccepted
  rename_i hvalid
  rw [if_neg hvalid]
  rw [not_or, not_not, HistoryIndexBuilder.len, HistoryIndex.len, hlen, Nat.not_le] at hvalid
  split at haccepted
  · cases haccepted
  rename_i parentIds happend
  dsimp only at haccepted
  dsimp only
  by_cases hroom : parentIds.length / builder.index.hashLen > u32Max
  · rw [if_pos hroom] at haccepted
    cases haccepted
  rw [if_neg hroom]
  obtain ⟨rfl, hparents⟩ := appendParents_some happend
  have hall : parentIdsOf (commits ++ [commit]) = parentIdsOf commits ++ commit.parents := by
    simp [parentIdsOf]
  have hlength : ∀ parent ∈ parentIdsOf (commits ++ [commit]), parent.length = hashLen := by
    intro parent hparent
    rw [hall, List.mem_append] at hparent
    rcases hparent with hparent | hparent
    · exact h.parentLength parent hparent
    · exact h.width ▸ hparents parent hparent
  have hstop : (builder.parentIds ++ commit.parents.flatten).length / builder.index.hashLen =
      (parentIdsOf (commits ++ [commit])).length := by
    have hpos : 0 < hashLen := by have := h.size; omega
    rw [h.parentIds, ← List.flatten_append, ← hall, flatten_length hlength, h.width,
      Nat.mul_div_cancel _ hpos]
  rw [hstop] at hroom ⊢
  refine ⟨h.width, h.size, ?_, ?_, ?_, ?_, hlength, ?_, by omega, h.parents, h.externalEdges,
    h.externalIds, h.fanout, ?_⟩
  · simp [h.ids]
  · have hfront : (List.range (commits.length + 1)).map (edgesBefore (commits ++ [commit])) =
        builder.index.parentOffsets := by
      rw [h.offsets]
      refine List.map_congr_left fun row hrow => ?_
      rw [List.mem_range] at hrow
      exact edgesBefore_snoc commits commit (by omega)
    have hlast := edgesBefore_all (commits ++ [commit])
    rw [List.length_append, List.length_singleton] at hlast ⊢
    rw [List.range_succ, List.map_append, hfront, List.map_singleton, hlast]
  · rw [h.parentIds, hall, List.flatten_append]
  · intro id hid
    rw [List.map_append, List.mem_append] at hid
    rcases hid with hid | hid
    · exact h.idLength id hid
    · rw [List.map_singleton, List.mem_singleton] at hid
      rw [hid, ← h.width]
      exact hvalid.1
  · rw [List.length_append, List.length_singleton]
    exact hvalid.2
  · have hrow : asU32 commits.length = commits.length := by
      have := hvalid.2
      rw [asU32, Nat.mod_eq_of_lt]
      simp only [missingParent] at this
      omega
    rw [h.stashes, hlen, hrow, List.zipIdx_append, List.filterMap_append, Nat.zero_add]
    by_cases hstash : commit.probableStash <;> simp [hstash]

theorem pushAll_built {hashLen : ℕ} {commits : List Push} : ∀ {before : List Push}
    {builder built : HistoryIndexBuilder}, BuiltFrom hashLen before builder →
      builder.pushAll commits = some built → BuiltFrom hashLen (before ++ commits) built := by
  induction commits with
  | nil =>
    intro before builder built h hpush
    cases hpush
    rwa [List.append_nil]
  | cons commit commits ih =>
    intro before builder built h hpush
    rw [HistoryIndexBuilder.pushAll] at hpush
    split at hpush
    · rename_i haccepted
      have hnext := ih (push_built h haccepted) hpush
      rwa [List.append_assoc] at hnext
    · cases hpush

theorem chunksExact_flatten {pieces : List Bytes} {size : ℕ} (hsize : 0 < size)
    (h : ∀ piece ∈ pieces, piece.length = size) : ∀ {fuel : ℕ}, pieces.length ≤ fuel →
      chunksExact size fuel pieces.flatten = pieces := by
  induction pieces with
  | nil =>
    intro fuel _
    cases fuel with
    | zero => rfl
    | succ fuel => rw [chunksExact, if_pos (Or.inl (by simpa using hsize))]
  | cons piece pieces ih =>
    intro fuel hfuel
    cases fuel with
    | zero => simp at hfuel
    | succ fuel =>
      have hpiece := h piece List.mem_cons_self
      have hrest := ih (fun p hp => h p (List.mem_cons_of_mem _ hp))
        (Nat.le_of_succ_le_succ (by simpa using hfuel))
      have hroom : ¬ ((piece :: pieces).flatten.length < size ∨ size = 0) := by
        simp only [List.flatten_cons, List.length_append, hpiece]
        omega
      rw [chunksExact, if_neg hroom, List.flatten_cons, ← hpiece, List.take_left, List.drop_left,
        hpiece, hrest]

section
variable {hashLen : ℕ} {commits : List Push} {builder : HistoryIndexBuilder}

section
variable (h : BuiltFrom hashLen commits builder)
include h

theorem BuiltFrom.pos : 0 < hashLen := by
  have := h.size
  omega

theorem BuiltFrom.len : builder.index.len = commits.length := by
  rw [HistoryIndex.len, h.offsets]
  simp

theorem BuiltFrom.chunks :
    chunksExact builder.index.hashLen builder.parentIds.length builder.parentIds =
      parentIdsOf commits := by
  have hlength := flatten_length h.parentLength
  rw [h.width, h.parentIds]
  refine chunksExact_flatten h.pos h.parentLength ?_
  rw [hlength]
  exact Nat.le_mul_of_pos_right _ h.pos

theorem BuiltFrom.offset (row : ℕ) :
    builder.index.parentOffsets[row]? =
      if row ≤ commits.length then some (edgesBefore commits row) else none := by
  rw [h.offsets, List.getElem?_map]
  by_cases hrow : row ≤ commits.length
  · rw [if_pos hrow, List.getElem?_range (by omega)]
    rfl
  · rw [if_neg hrow, List.getElem?_eq_none (by rw [List.length_range]; omega)]
    rfl

end

end

end GitComet.History
