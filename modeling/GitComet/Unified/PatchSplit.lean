import GitComet.Unified.Lines
import GitComet.FileDiff.PlanRows
import Mathlib.Order.MinMax
import Mathlib.Data.List.Perm.Basic

namespace GitComet.Unified
open Text List Option FileDiff Nat Bool

-- A range of a line's bytes; reading it panics where the range cuts a character.
structure SharedSlice where
  text : List Char
  start : ℕ
  stop : ℕ
  deriving DecidableEq

def SharedSlice.asRef (slice : SharedSlice) : Option (List Char) :=
  byteSlice slice.text slice.start slice.stop

def sliceOf (text : List Char) (start stop : ℕ) : Option SharedSlice :=
  if start > stop ∨ stop > byteLen text then none else some ⟨text, start, stop⟩

def contentStart : DiffLineKind → ℕ
  | .add => 1
  | .remove => 1
  | .context => 1
  | .header => 0
  | .hunk => 0

def diffContentLineText (line : AnnotatedDiffLine) : SharedSlice :=
  (sliceOf line.text (contentStart line.kind) (byteLen line.text)).getD
    ⟨line.text, 0, byteLen line.text⟩

structure FileDiffRow where
  kind : RowKind
  oldLine : Option UInt32
  newLine : Option UInt32
  old : Option SharedSlice
  new : Option SharedSlice
  eofNewline : Option EofNewline
  deriving DecidableEq

inductive DiffClickKind where
  | line
  | hunkHeader
  | fileHeader
  deriving DecidableEq

inductive PatchSplitRow where
  | raw (srcIx : ℕ) (clickKind : DiffClickKind)
  | aligned (row : FileDiffRow) (oldSrcIx newSrcIx : Option ℕ)
  deriving DecidableEq

def pendingKind : Bool → Bool → RowKind
  | true, true => .modify
  | true, false => .remove
  | false, true => .add
  | false, false => .context

def pendingRow (diff : List AnnotatedDiffLine) (leftIx rightIx : Option ℕ) : PatchSplitRow :=
  let left := leftIx.bind (diff[·]?)
  let right := rightIx.bind (diff[·]?)
  .aligned
    { kind := pendingKind leftIx.isSome rightIx.isSome
      oldLine := left.bind (·.oldLine)
      newLine := right.bind (·.newLine)
      old := left.map diffContentLineText
      new := right.map diffContentLineText
      eofNewline := none }
    leftIx rightIx

structure SplitState where
  out : List PatchSplitRow
  pendingRemoves : List ℕ
  pendingAdds : List ℕ
  inHunk : Bool
  deriving DecidableEq

def pendingRows (diff : List AnnotatedDiffLine) (removes adds : List ℕ) : List PatchSplitRow :=
  (range (max removes.length adds.length)).map fun i => pendingRow diff removes[i]? adds[i]?

def SplitState.flushPending (diff : List AnnotatedDiffLine) (st : SplitState) : SplitState :=
  { st with
    out := st.out ++ pendingRows diff st.pendingRemoves st.pendingAdds
    pendingRemoves := []
    pendingAdds := [] }

def SplitState.push (st : SplitState) (row : PatchSplitRow) : SplitState :=
  { st with out := st.out ++ [row] }

def isGitHeader (line : AnnotatedDiffLine) : Bool :=
  decide (line.kind = .header) && isFileHeader line

def contextRow (line : AnnotatedDiffLine) (ix : ℕ) : PatchSplitRow :=
  let text := diffContentLineText line
  .aligned ⟨.context, line.oldLine, line.newLine, some text, some text, none⟩ (some ix) (some ix)

def readHunkLine (diff : List AnnotatedDiffLine) (st : SplitState) (ix : ℕ)
    (line : AnnotatedDiffLine) : SplitState :=
  match line.kind with
  | .context => (st.flushPending diff).push (contextRow line ix)
  | .remove => { st with pendingRemoves := st.pendingRemoves ++ [ix] }
  | .add => { st with pendingAdds := st.pendingAdds ++ [ix] }
  | .header => (st.flushPending diff).push (.raw ix .line)
  | .hunk => (st.flushPending diff).push (.raw ix .line)

def readDiffLine (diff : List AnnotatedDiffLine) (st : SplitState) (ix : ℕ)
    (line : AnnotatedDiffLine) : SplitState :=
  if isGitHeader line then
    { (st.flushPending diff).push (.raw ix .fileHeader) with inHunk := false }
  else if isHunk line then
    { (st.flushPending diff).push (.raw ix .hunkHeader) with inHunk := true }
  else if st.inHunk then readHunkLine diff st ix line
  else st.push (.raw ix .line)

def buildPatchSplitRows (diff : List AnnotatedDiffLine) : List PatchSplitRow :=
  ((diff.zipIdx.foldl (fun st entry => readDiffLine diff st entry.2 entry.1)
    ⟨[], [], [], false⟩).flushPending diff).out

def PatchSplitRow.mentions : PatchSplitRow → List ℕ
  | .raw srcIx _ => [srcIx]
  | .aligned _ old new => if old = new then old.toList else old.toList ++ new.toList

def PatchSplitRow.oldSide : PatchSplitRow → Option ℕ
  | .raw srcIx _ => some srcIx
  | .aligned _ old _ => old

def PatchSplitRow.newSide : PatchSplitRow → Option ℕ
  | .raw srcIx _ => some srcIx
  | .aligned _ _ new => new

structure Cell (diff : List AnnotatedDiffLine) (number : AnnotatedDiffLine → Option UInt32)
    (ix : Option ℕ) (text : Option SharedSlice) (lineNumber : Option UInt32) : Prop where
  named : ∀ i, ix = some i → ∃ line, diff[i]? = some line ∧
    text = some (diffContentLineText line) ∧ lineNumber = number line
  empty : ix = none → text = none ∧ lineNumber = none

def OfKind (diff : List AnnotatedDiffLine) (kind : DiffLineKind) (ix : ℕ) : Prop :=
  ∃ line, diff[ix]? = some line ∧ line.kind = kind

def clickKindOf (line : AnnotatedDiffLine) : DiffClickKind :=
  if isGitHeader line then .fileHeader else if isHunk line then .hunkHeader else .line

def Sides (diff : List AnnotatedDiffLine) (old new : Option ℕ) : Prop :=
  (∃ ix, old = some ix ∧ new = some ix ∧ OfKind diff .context ix) ∨
    ((∀ ix, old = some ix → OfKind diff .remove ix) ∧
      (∀ ix, new = some ix → OfKind diff .add ix) ∧ (old.isSome ∨ new.isSome))

def PatchSplitRow.Carries (diff : List AnnotatedDiffLine) : PatchSplitRow → Prop
  | .raw srcIx clickKind => ∃ line, diff[srcIx]? = some line ∧ clickKind = clickKindOf line
  | .aligned row old new => Cell diff (·.oldLine) old row.old row.oldLine ∧
      Cell diff (·.newLine) new row.new row.newLine ∧ Sides diff old new

structure LosesNoLine (diff : List AnnotatedDiffLine) (rows : List PatchSplitRow) : Prop where
  once : (rows.flatMap PatchSplitRow.mentions).Perm (range diff.length)
  oldOrder : (rows.filterMap PatchSplitRow.oldSide).Pairwise (· < ·)
  newOrder : (rows.filterMap PatchSplitRow.newSide).Pairwise (· < ·)
  carried : ∀ row ∈ rows, row.Carries diff
  paired : ∀ ix, OfKind diff .context ix → (enclosingHunkSrcIx diff ix).isSome →
    ∃ row, .aligned row (some ix) (some ix) ∈ rows
  texts : ∀ line ∈ diff, contentStart line.kind = 1 →
    (∀ marker, line.text.head? = some marker → marker.utf8Size = 1) →
    (diffContentLineText line).asRef = some line.text.tail

theorem diffContentLineText_asRef {line : AnnotatedDiffLine} (hkind : contentStart line.kind = 1)
    (hmarker : ∀ marker, line.text.head? = some marker → marker.utf8Size = 1) :
    (diffContentLineText line).asRef = some line.text.tail := by
  cases htext : line.text with
  | nil =>
    rw [diffContentLineText, hkind, htext]
    rfl
  | cons marker rest =>
    have hsize : marker.utf8Size = 1 := hmarker marker (by rw [htext]; rfl)
    have hstart : byteLen [marker] = 1 := by rw [byteLen_cons, hsize, byteLen_nil]
    have hstop : byteLen (marker :: rest) = byteLen [marker] + byteLen rest := by
      rw [← byteLen_append, singleton_append]
    have hslice : sliceOf (marker :: rest) 1 (byteLen (marker :: rest)) =
        some ⟨marker :: rest, 1, byteLen (marker :: rest)⟩ := by
      rw [sliceOf, if_neg (by omega)]
    have htail : byteSlice (marker :: rest) 1 (byteLen (marker :: rest)) = some rest :=
      byteSlice_of (p := [marker]) (o := []) (by rw [append_nil]; rfl) hstart.symm hstop
    rw [diffContentLineText, hkind, htext, hslice]
    exact htail

theorem filterMap_getElem? {α : Type} (xs : List α) {n : ℕ} (h : xs.length ≤ n) :
    (range n).filterMap (xs[·]?) = xs := by
  induction xs generalizing n with
  | nil => exact filterMap_eq_nil_iff.mpr fun _ _ => rfl
  | cons x xs ih =>
    cases n with
    | zero => cases h
    | succ n =>
      rw [range_succ_eq_map, filterMap_cons, filterMap_map]
      exact congrArg (x :: ·) (ih (le_of_succ_le_succ h))

variable {xs : List ℕ} {ix : ℕ}

section
variable {diff : List AnnotatedDiffLine} {removes adds : List ℕ}

theorem pending_old :
    (pendingRows diff removes adds).filterMap PatchSplitRow.oldSide = removes := by
  rw [pendingRows, filterMap_map]
  exact filterMap_getElem? removes (le_max_left _ _)

theorem pending_new : (pendingRows diff removes adds).filterMap PatchSplitRow.newSide = adds := by
  rw [pendingRows, filterMap_map]
  exact filterMap_getElem? adds (le_max_right _ _)

variable {kind : DiffLineKind} {i : ℕ}

theorem ofKind_get (h : ∀ ix ∈ xs, OfKind diff kind ix)
    {j : ℕ} (hget : xs[i]? = some j) : OfKind diff kind j :=
  h j (mem_of_getElem? hget)

theorem ofKind_unique {other : DiffLineKind} (h : OfKind diff kind ix)
    (h' : OfKind diff other ix) : kind = other := by
  obtain ⟨line, hline, hkind⟩ := h
  obtain ⟨line', hline', hkind'⟩ := h'
  rw [hline, some.injEq] at hline'
  rw [← hkind, ← hkind', hline']

theorem pending_apart (hremoves : ∀ ix ∈ removes, OfKind diff .remove ix)
    (hadds : ∀ ix ∈ adds, OfKind diff .add ix) (hi : i < max removes.length adds.length) :
    removes[i]? ≠ adds[i]? := by
  intro heq
  rcases lt_max_iff.mp hi with hi | hi
  · have hget := getElem?_eq_getElem hi
    have hkind := ofKind_unique (ofKind_get hremoves hget) (ofKind_get hadds (heq ▸ hget))
    cases hkind
  · have hget := getElem?_eq_getElem hi
    have hkind := ofKind_unique (ofKind_get hremoves (heq ▸ hget)) (ofKind_get hadds hget)
    cases hkind

theorem pending_mentions (hremoves : ∀ ix ∈ removes, OfKind diff .remove ix)
    (hadds : ∀ ix ∈ adds, OfKind diff .add ix) :
    ((pendingRows diff removes adds).flatMap PatchSplitRow.mentions).Perm (removes ++ adds) := by
  have hrows : (pendingRows diff removes adds).flatMap PatchSplitRow.mentions =
      (range (max removes.length adds.length)).flatMap
        fun i => (removes[i]?).toList ++ (adds[i]?).toList := by
    rw [pendingRows, flatMap_map]
    refine flatMap_congr fun i hi => ?_
    exact if_neg (pending_apart hremoves hadds (mem_range.mp hi))
  rw [hrows]
  refine (flatMap_append_perm _ _ _).symm.trans ?_
  rw [← filterMap_eq_flatMap_toList, ← filterMap_eq_flatMap_toList,
    filterMap_getElem? removes (le_max_left _ _), filterMap_getElem? adds (le_max_right _ _)]

theorem cell_of_line {number : AnnotatedDiffLine → Option UInt32} {ix : Option ℕ}
    (h : ∀ i, ix = some i → ∃ line, diff[i]? = some line) :
    Cell diff number ix ((ix.bind (diff[·]?)).map diffContentLineText)
      ((ix.bind (diff[·]?)).bind number) := by
  refine ⟨fun i hi => ?_, fun hnone => by rw [hnone]; exact ⟨rfl, rfl⟩⟩
  obtain ⟨line, hline⟩ := h i hi
  refine ⟨line, hline, ?_⟩
  rw [hi, bind_some, hline]
  exact ⟨rfl, rfl⟩

theorem pending_carries (hremoves : ∀ ix ∈ removes, OfKind diff .remove ix)
    (hadds : ∀ ix ∈ adds, OfKind diff .add ix) :
    ∀ row ∈ pendingRows diff removes adds, row.Carries diff := by
  intro row hrow
  obtain ⟨i, hi, rfl⟩ := mem_map.mp hrow
  have hleft : ∀ ix, removes[i]? = some ix → OfKind diff .remove ix := fun _ => ofKind_get hremoves
  have hright : ∀ ix, adds[i]? = some ix → OfKind diff .add ix := fun _ => ofKind_get hadds
  refine ⟨cell_of_line fun ix hix => (hleft ix hix).imp fun _ h => h.1,
    cell_of_line fun ix hix => (hright ix hix).imp fun _ h => h.1, .inr ⟨hleft, hright, ?_⟩⟩
  rcases lt_max_iff.mp (mem_range.mp hi) with hi | hi
  · exact .inl (by rw [getElem?_eq_getElem hi, isSome_some])
  · exact .inr (by rw [getElem?_eq_getElem hi, isSome_some])

end

def insideBefore (diff : List AnnotatedDiffLine) : ℕ → Bool
  | 0 => false
  | ix + 1 => (enclosingFrom diff ix).isSome

structure Flowing (diff : List AnnotatedDiffLine) (n : ℕ) (st : SplitState) : Prop where
  removes : ∀ ix ∈ st.pendingRemoves, OfKind diff .remove ix
  adds : ∀ ix ∈ st.pendingAdds, OfKind diff .add ix
  once : (st.out.flatMap PatchSplitRow.mentions ++ (st.pendingRemoves ++ st.pendingAdds)).Perm
    (range n)
  oldOrder : (st.out.filterMap PatchSplitRow.oldSide ++ st.pendingRemoves).Pairwise (· < ·)
  newOrder : (st.out.filterMap PatchSplitRow.newSide ++ st.pendingAdds).Pairwise (· < ·)
  carried : ∀ row ∈ st.out, row.Carries diff
  idle : st.inHunk = false → st.pendingRemoves = [] ∧ st.pendingAdds = []
  inside : st.inHunk = insideBefore diff n
  paired : ∀ ix < n, OfKind diff .context ix → (enclosingFrom diff ix).isSome →
    ∃ row, .aligned row (some ix) (some ix) ∈ st.out

section
variable {diff : List AnnotatedDiffLine} {n : ℕ} {st : SplitState} {line : AnnotatedDiffLine}

variable {row : PatchSplitRow}

theorem mentions_oldSide (h : row.oldSide = some ix) : ix ∈ row.mentions := by
  cases row with
  | raw srcIx clickKind =>
    cases h
    exact mem_singleton_self ix
  | aligned row old new =>
    obtain rfl : old = some ix := h
    by_cases heq : some ix = new
    · rw [PatchSplitRow.mentions, if_pos heq]
      exact mem_singleton_self ix
    · rw [PatchSplitRow.mentions, if_neg heq]
      exact mem_append_left _ (mem_singleton_self ix)

theorem mentions_newSide (h : row.newSide = some ix) : ix ∈ row.mentions := by
  cases row with
  | raw srcIx clickKind =>
    cases h
    exact mem_singleton_self ix
  | aligned row old new =>
    obtain rfl : new = some ix := h
    by_cases heq : old = some ix
    · rw [PatchSplitRow.mentions, if_pos heq, heq]
      exact mem_singleton_self ix
    · rw [PatchSplitRow.mentions, if_neg heq]
      exact mem_append_right _ (mem_singleton_self ix)

theorem Flowing.below (h : Flowing diff n st) {side : PatchSplitRow → Option ℕ}
    (hside : ∀ {row ix}, side row = some ix → ix ∈ row.mentions) :
    ∀ ix ∈ st.out.filterMap side, ix < n := by
  intro ix hix
  obtain ⟨row, hrow, hrowix⟩ := mem_filterMap.mp hix
  have hmem := mem_flatMap.mpr ⟨row, hrow, hside hrowix⟩
  exact mem_range.mp (h.once.mem_iff.mp (mem_append_left _ hmem))

theorem Flowing.pending_below (h : Flowing diff n st) :
    ∀ ix ∈ st.pendingRemoves ++ st.pendingAdds, ix < n :=
  fun _ hix => mem_range.mp (h.once.mem_iff.mp (mem_append_right _ hix))

theorem pairwise_lt_concat (h : xs.Pairwise (· < ·)) (hbound : ∀ x ∈ xs, x < n) :
    (xs ++ [n]).Pairwise (· < ·) :=
  pairwise_append.mpr ⟨h, pairwise_singleton _ n, fun x hx _ hy =>
    mem_singleton.mp hy ▸ hbound x hx⟩

theorem Flowing.flush (h : Flowing diff n st) : Flowing diff n (st.flushPending diff) where
  removes := by intro ix hix; cases hix
  adds := by intro ix hix; cases hix
  once := by
    refine Perm.trans ?_ h.once
    simp only [SplitState.flushPending, flatMap_append, append_nil]
    exact (pending_mentions h.removes h.adds).append_left _
  oldOrder := by
    simp only [SplitState.flushPending, filterMap_append, pending_old, append_nil]
    exact h.oldOrder
  newOrder := by
    simp only [SplitState.flushPending, filterMap_append, pending_new, append_nil]
    exact h.newOrder
  carried row hrow := (mem_append.mp hrow).elim (h.carried row)
    (pending_carries h.removes h.adds row)
  idle _ := ⟨rfl, rfl⟩
  inside := h.inside
  paired ix hix hkind hin :=
    (h.paired ix hix hkind hin).imp fun _ hrow => mem_append_left _ hrow

theorem Flowing.pushed (h : Flowing diff n st)
    (hidle : st.pendingRemoves = [] ∧ st.pendingAdds = [])
    (hmentions : row.mentions = [n]) (hold : row.oldSide = some n)
    (hnew : row.newSide = some n) (hcarried : row.Carries diff) {inHunk : Bool}
    (hinside : inHunk = (enclosingFrom diff n).isSome)
    (hpaired : OfKind diff .context n → inHunk →
      ∃ cells, row = .aligned cells (some n) (some n)) :
    Flowing diff (n + 1) { st.push row with inHunk } where
  removes := h.removes
  adds := h.adds
  once := by
    have honce := h.once
    rw [hidle.1, hidle.2, append_nil, append_nil] at honce
    simp only [SplitState.push, hidle.1, hidle.2, append_nil, flatMap_append,
      flatMap_singleton, hmentions, range_succ]
    exact honce.append_right [n]
  oldOrder := by
    have horder := h.oldOrder
    rw [hidle.1, append_nil] at horder
    simp only [SplitState.push, hidle.1, append_nil, filterMap_append]
    rw [filterMap_cons_some hold, filterMap_nil]
    exact pairwise_lt_concat horder (h.below mentions_oldSide)
  newOrder := by
    have horder := h.newOrder
    rw [hidle.2, append_nil] at horder
    simp only [SplitState.push, hidle.2, append_nil, filterMap_append]
    rw [filterMap_cons_some hnew, filterMap_nil]
    exact pairwise_lt_concat horder (h.below mentions_newSide)
  carried other hother := (mem_append.mp hother).elim (h.carried other)
    fun hrow => mem_singleton.mp hrow ▸ hcarried
  idle _ := hidle
  inside := hinside
  paired ix hix hkind hin := by
    rcases Nat.lt_succ_iff_lt_or_eq.mp hix with hix | rfl
    · exact (h.paired ix hix hkind hin).imp fun _ hrow => mem_append_left _ hrow
    · obtain ⟨cells, hrow⟩ := hpaired hkind (hinside.trans hin)
      exact ⟨cells, mem_append_right _ (hrow ▸ mem_singleton_self _)⟩

theorem enclosing_gitHeader (hline : diff[n]? = some line) (hheader : isGitHeader line) :
    enclosingFrom diff n = none := by
  rw [isGitHeader, and_eq_true, decide_eq_true_eq] at hheader
  unfold enclosingFrom
  rw [hline]
  exact if_pos hheader

theorem enclosing_hunk (hline : diff[n]? = some line) (hheader : ¬isGitHeader line)
    (hhunk : isHunk line) : enclosingFrom diff n = some n := by
  rw [isGitHeader, and_eq_true, decide_eq_true_eq] at hheader
  unfold enclosingFrom
  rw [hline]
  exact (if_neg hheader).trans (if_pos hhunk)

theorem enclosing_body (hline : diff[n]? = some line) (hheader : ¬isGitHeader line)
    (hhunk : ¬isHunk line) : (enclosingFrom diff n).isSome = insideBefore diff n := by
  rw [isGitHeader, and_eq_true, decide_eq_true_eq] at hheader
  unfold enclosingFrom
  rw [hline]
  simp only [if_neg hheader, if_neg hhunk]
  cases n with
  | zero => rfl
  | succ n => rfl

theorem Flowing.removed (h : Flowing diff n st) (hkind : OfKind diff .remove n)
    (hinside : st.inHunk = (enclosingFrom diff n).isSome) (hin : st.inHunk) :
    Flowing diff (n + 1) { st with pendingRemoves := st.pendingRemoves ++ [n] } where
  removes ix hix := (mem_append.mp hix).elim (h.removes ix)
    fun hlast => mem_singleton.mp hlast ▸ hkind
  adds := h.adds
  once := by
    have hrest : (st.pendingRemoves ++ [n] ++ st.pendingAdds).Perm
        (st.pendingRemoves ++ st.pendingAdds ++ [n]) := by
      rw [append_assoc, append_assoc]
      exact perm_append_comm.append_left _
    rw [range_succ]
    refine (hrest.append_left _).trans ?_
    rw [← append_assoc]
    exact h.once.append_right [n]
  oldOrder := by
    rw [← append_assoc]
    refine pairwise_lt_concat h.oldOrder fun ix hix => ?_
    exact (mem_append.mp hix).elim (h.below mentions_oldSide ix)
      fun hpending => h.pending_below ix (mem_append_left _ hpending)
  newOrder := h.newOrder
  carried := h.carried
  idle hout := absurd (hin.symm.trans hout) true_eq_false.mp
  inside := hinside
  paired ix hix hcontext hin := by
    rcases Nat.lt_succ_iff_lt_or_eq.mp hix with hix | rfl
    · exact h.paired ix hix hcontext hin
    · cases ofKind_unique hkind hcontext

theorem Flowing.added (h : Flowing diff n st) (hkind : OfKind diff .add n)
    (hinside : st.inHunk = (enclosingFrom diff n).isSome) (hin : st.inHunk) :
    Flowing diff (n + 1) { st with pendingAdds := st.pendingAdds ++ [n] } where
  removes := h.removes
  adds ix hix := (mem_append.mp hix).elim (h.adds ix)
    fun hlast => mem_singleton.mp hlast ▸ hkind
  once := by
    rw [range_succ, ← append_assoc, ← append_assoc]
    have honce := h.once
    rw [← append_assoc] at honce
    exact honce.append_right [n]
  oldOrder := h.oldOrder
  newOrder := by
    rw [← append_assoc]
    refine pairwise_lt_concat h.newOrder fun ix hix => ?_
    exact (mem_append.mp hix).elim (h.below mentions_newSide ix)
      fun hpending => h.pending_below ix (mem_append_right _ hpending)
  carried := h.carried
  idle hout := absurd (hin.symm.trans hout) true_eq_false.mp
  inside := hinside
  paired ix hix hcontext hin := by
    rcases Nat.lt_succ_iff_lt_or_eq.mp hix with hix | rfl
    · exact h.paired ix hix hcontext hin
    · cases ofKind_unique hkind hcontext

theorem contextRow_carries (hline : diff[n]? = some line) (hkind : line.kind = .context) :
    (contextRow line n).Carries diff := by
  have hcell : ∀ number : AnnotatedDiffLine → Option UInt32,
      Cell diff number (some n) (some (diffContentLineText line)) (number line) :=
    fun number => ⟨fun i hi => ⟨line, some.inj hi ▸ hline, rfl, rfl⟩,
      fun hnone => by cases hnone⟩
  exact ⟨hcell _, hcell _, .inl ⟨n, rfl, rfl, line, hline, hkind⟩⟩

theorem raw_carries (hline : diff[n]? = some line) {clickKind : DiffClickKind}
    (hclick : clickKind = clickKindOf line) : (PatchSplitRow.raw n clickKind).Carries diff :=
  ⟨line, hline, hclick⟩

theorem Flowing.hunkLine (h : Flowing diff n st) (hline : diff[n]? = some line)
    (hheader : ¬isGitHeader line) (hhunk : ¬isHunk line) (hin : st.inHunk) :
    Flowing diff (n + 1) (readHunkLine diff st n line) := by
  have hinside : st.inHunk = (enclosingFrom diff n).isSome :=
    h.inside.trans (enclosing_body hline hheader hhunk).symm
  have hclick : DiffClickKind.line = clickKindOf line := by
    rw [clickKindOf, if_neg hheader, if_neg hhunk]
  cases hkind : line.kind with
  | context =>
    simp only [readHunkLine, hkind]
    have hmentions : (contextRow line n).mentions = [n] := if_pos rfl
    exact h.flush.pushed ⟨rfl, rfl⟩ hmentions rfl rfl (contextRow_carries hline hkind) hinside
      fun _ _ => ⟨_, rfl⟩
  | remove =>
    simp only [readHunkLine, hkind]
    exact h.removed ⟨line, hline, hkind⟩ hinside hin
  | add =>
    simp only [readHunkLine, hkind]
    exact h.added ⟨line, hline, hkind⟩ hinside hin
  | header =>
    simp only [readHunkLine, hkind]
    refine h.flush.pushed ⟨rfl, rfl⟩ rfl rfl rfl (raw_carries hline hclick) hinside
      fun hcontext => ?_
    cases ofKind_unique ⟨line, hline, hkind⟩ hcontext
  | hunk => exact absurd (decide_eq_true hkind) hhunk

theorem Flowing.read (h : Flowing diff n st) (hline : diff[n]? = some line) :
    Flowing diff (n + 1) (readDiffLine diff st n line) := by
  by_cases hheader : isGitHeader line
  · rw [readDiffLine, if_pos hheader]
    have hclick : DiffClickKind.fileHeader = clickKindOf line := (if_pos hheader).symm
    refine h.flush.pushed ⟨rfl, rfl⟩ rfl rfl rfl (raw_carries hline hclick) ?_
      fun _ hin => by cases hin
    rw [enclosing_gitHeader hline hheader, isSome_none]
  · by_cases hhunk : isHunk line
    · rw [readDiffLine, if_neg hheader, if_pos hhunk]
      have hclick : DiffClickKind.hunkHeader = clickKindOf line := by
        rw [clickKindOf, if_neg hheader, if_pos hhunk]
      refine h.flush.pushed ⟨rfl, rfl⟩ rfl rfl rfl (raw_carries hline hclick) ?_ fun hcontext => ?_
      · rw [enclosing_hunk hline hheader hhunk, isSome_some]
      · cases ofKind_unique ⟨line, hline, of_decide_eq_true hhunk⟩ hcontext
    · rw [readDiffLine, if_neg hheader, if_neg hhunk]
      by_cases hin : st.inHunk
      · rw [if_pos hin]
        exact h.hunkLine hline hheader hhunk hin
      · rw [if_neg hin]
        have hclick : DiffClickKind.line = clickKindOf line := by
          rw [clickKindOf, if_neg hheader, if_neg hhunk]
        exact h.pushed (h.idle (eq_false_of_not_eq_true hin)) rfl rfl rfl
          (raw_carries hline hclick) (h.inside.trans (enclosing_body hline hheader hhunk).symm)
          fun _ hrow => absurd hrow hin

theorem Flowing.run (front rest : List AnnotatedDiffLine) (hdiff : diff = front ++ rest)
    (h : Flowing diff front.length st) :
    Flowing diff diff.length ((rest.zipIdx front.length).foldl
      (fun st entry => readDiffLine diff st entry.2 entry.1) st) := by
  induction rest generalizing front st with
  | nil =>
    rw [append_nil] at hdiff
    rw [hdiff] at h ⊢
    exact h
  | cons line rest ih =>
    have hline : diff[front.length]? = some line := by
      rw [hdiff, getElem?_append_right (le_refl _), Nat.sub_self, getElem?_cons_zero]
    have hlen : (front ++ [line]).length = front.length + 1 := length_append
    have hrun := ih (front ++ [line]) (by rw [hdiff, append_assoc, singleton_append])
      (hlen ▸ h.read hline)
    rw [hlen] at hrun
    rw [zipIdx_cons, foldl_cons]
    exact hrun

end

theorem flowing_start (diff : List AnnotatedDiffLine) : Flowing diff 0 ⟨[], [], [], false⟩ where
  removes := by intro ix hix; cases hix
  adds := by intro ix hix; cases hix
  once := .nil
  oldOrder := .nil
  newOrder := .nil
  carried := by intro row hrow; cases hrow
  idle _ := ⟨rfl, rfl⟩
  inside := rfl
  paired ix hix := absurd hix (not_lt_zero ix)

theorem patch_split_loses_no_line (diff : List AnnotatedDiffLine) :
    LosesNoLine diff (buildPatchSplitRows diff) := by
  have h := ((flowing_start diff).run [] diff rfl).flush
  refine ⟨?_, ?_, ?_, h.carried, fun ix hkind hin => ?_,
    fun line _ hkind hmarker => diffContentLineText_asRef hkind hmarker⟩
  · have honce := h.once
    rw [← append_nil (flatMap _ _)]
    exact honce
  · have horder := h.oldOrder
    rw [← append_nil (List.filterMap _ _)]
    exact horder
  · have horder := h.newOrder
    rw [← append_nil (List.filterMap _ _)]
    exact horder
  · obtain ⟨line, hline, hcontext⟩ := hkind
    have hix := List.getElem?_eq_some_iff.mp hline |>.1
    rw [enclosingHunkSrcIx, min_eq_left (le_sub_one_of_lt hix)] at hin
    exact h.paired ix hix ⟨line, hline, hcontext⟩ hin

end GitComet.Unified
