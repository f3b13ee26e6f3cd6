import Mathlib.Data.List.Destutter
import GitComet.Merge.Integrate

namespace GitComet.Merge
open LinkedArena Text Columns List Option Nat

def movedRow (source : MergeSource) (withBase : Bool) (row : AlignedRow) : AlignedRow :=
  (AlignedRow.ofCells (if withBase then row.a else none) none none).setLine source
    (row.line source)

def strippedRow (source : MergeSource) (withBase : Bool) (row : AlignedRow) : AlignedRow :=
  (if withBase then row.setLine .a none else row).setLine source none

def moveRow (source : MergeSource) (target id : ℕ) (withBase : Bool) (row : AlignedRow)
    (rows : RowList) (changed : List ℕ) : Option (RowList × List ℕ) :=
  if (row.line source).isSome || (withBase && row.a.isSome) then do
    let rows ← rows.setValue id (strippedRow source withBase)
    let (rows, inserted) ← rows.insertBefore (some target) (movedRow source withBase row)
    some (rows, changed ++ [id, inserted])
  else some (rows, changed)

def moveBetween (source : MergeSource) (target : ℕ) (lastEqualA : Option ℕ) :
    List ℕ → Bool → RowList → List ℕ → Option (RowList × List ℕ)
  | [], _, rows, changed => some (rows, changed)
  | id :: between, beforeOrOnEqualA, rows, changed => do
    let row ← rows.valueAt id
    let (rows, changed) ← moveRow source target id beforeOrOnEqualA row rows changed
    moveBetween source target lastEqualA between
      (if some id = lastEqualA then false else beforeOrOnEqualA) rows changed

def clearBetween (source : MergeSource) (target : ℕ) (between : List ℕ) (rows : RowList) :
    Option (RowList × List ℕ) := do
  let values ← between.mapM rows.valueAt
  if values.any fun row => (row.line source).isSome then
    let lastEqualA := ((between.zip values).reverse.find? fun entry =>
      entry.2.whitespaceEqual .a source).map Prod.fst
    moveBetween source target lastEqualA between lastEqualA.isSome rows []
  else some (rows, [])

def pullLine (source : MergeSource) (line target holder : ℕ) (rows : RowList) :
    Option (RowList × List ℕ) := do
  let between ← Arena.idsBetween rows holder rows.nodes.length (some target)
  let (rows, changed) ← clearBetween source target between rows
  let rows ← rows.setValue holder fun row => row.setLine source none
  let rows ← rows.setValue target fun row => row.setLine source (some line)
  some (rows, changed ++ [holder, target])

def joinRows (rowB rowC b c : ℕ) (rows : RowList) : Option (RowList × List ℕ) :=
  if rowB = rowC then some (rows, [])
  else do
    let valueB ← rows.valueAt rowB
    let valueC ← rows.valueAt rowC
    let firstC ← Arena.comesBefore rows rowB rows.nodes.length (some rowC)
    let firstB ← Arena.comesBefore rows rowC rows.nodes.length (some rowB)
    if firstC && !valueB.whitespaceEqual .a .b then pullLine .b b rowC rowB rows
    else if firstB && !valueC.whitespaceEqual .a .c then pullLine .c c rowB rowC rows
    else some (rows, [])

def recomputeChanged (texts : Sources) : List ℕ → RowList → Option RowList
  | [], rows => some rows
  | id :: ids, rows => do
    let rows ← rows.setValue id (recomputeRowMetadata texts)
    recomputeChanged texts ids rows

structure BcCursor where
  rows : RowList
  cursorB : Option ℕ
  cursorC : Option ℕ
  b : ℕ
  c : ℕ

def alignEqual (texts : Sources) : ℕ → BcCursor → Option BcCursor
  | 0, st => some st
  | equal + 1, st => do
    let foundB ← st.rows.findFrom st.cursorB .b st.b
    let rowB ← foundB
    let foundC ← st.rows.findFrom st.cursorC .c st.c
    let rowC ← foundC
    let (rows, changed) ← joinRows rowB rowC st.b st.c st.rows
    let rows ← recomputeChanged texts ((changed.mergeSort).destutter (· ≠ ·)) rows
    alignEqual texts equal ⟨rows, rows.next rowB, rows.next rowC, st.b + 1, st.c + 1⟩

def detachLine (found : ℕ) (st : BcCursor) : Option BcCursor := do
  let row ← st.rows.valueAt found
  if some found ≠ st.cursorB ∧ row.whitespaceEqual .a .b = false then
    let rows ← st.rows.setValue found fun row => row.setLine .b none
    let (rows, _) ← rows.insertBefore st.cursorB (rowWith .b st.b)
    some { st with rows := rows }
  else some { st with cursorB := some found }

def alignChanged : ℕ → ℕ → BcCursor → Option BcCursor
  | 0, right, st => some { st with c := st.c + right }
  | left + 1, right, st => do
    let result ← st.rows.findFrom st.cursorB .b st.b
    let found ← result
    let st ← detachLine found st
    alignChanged left (right - 1)
      ⟨st.rows, st.cursorB.bind st.rows.next, st.cursorC, st.b + 1,
        if 0 < right then st.c + 1 else st.c⟩

def alignChunks (texts : Sources) : List PairChunk → BcCursor → Option BcCursor
  | [], st => some st
  | chunk :: chunks, st => do
    let st ← alignEqual texts chunk.equal st
    let st ← alignChanged chunk.left chunk.right st
    alignChunks texts chunks st

def integrateBc (texts : Sources) (chunks : List PairChunk) (rows : RowList) : Option RowList :=
  (alignChunks texts chunks ⟨rows, rows.first, rows.first, 0, 0⟩).map BcCursor.rows

def cellAt (rows : RowList) (source : MergeSource) (id : ℕ) : Option ℕ :=
  (rows.valueAt id).bind fun row => row.line source

-- `rest` is still the end of the list; only base cells, cells of `source` and the rows in
-- `touched` may have changed in it.
structure Shifted (source : MergeSource) (rows rows' : RowList) (rest touched : List ℕ) :
    Prop where
  holds : ∃ l, Holds rows' (l ++ rest)
  size : rows.nodes.length ≤ rows'.nodes.length
  other : ∀ id ∈ rest, ∀ t, t ≠ .a → t ≠ source → cellAt rows' t id = cellAt rows t id
  kept : ∀ id ∈ rest, id ∉ touched → ∀ t, cellAt rows' t id = cellAt rows t id

variable {source : MergeSource} {rows : RowList} {l rest : List ℕ}

theorem Shifted.refl (h : Holds rows (l ++ rest)) : Shifted source rows rows rest [] :=
  ⟨⟨l, h⟩, le_refl _, fun _ _ _ _ _ => rfl, fun _ _ _ _ => rfl⟩

variable {rows' : RowList}

variable {touched touched' : List ℕ}

theorem Shifted.trans {rows'' : RowList}
    (h : Shifted source rows rows' rest touched) (h' : Shifted source rows' rows'' rest touched') :
    Shifted source rows rows'' rest (touched ++ touched') := by
  refine ⟨h'.holds, le_trans h.size h'.size, ?_, ?_⟩
  · intro id hid t ha hs
    rw [h'.other id hid t ha hs, h.other id hid t ha hs]
  · intro id hid hnot t
    simp only [mem_append, not_or] at hnot
    rw [h'.kept id hid hnot.2 t, h.kept id hid hnot.1 t]

theorem Shifted.weaken (h : Shifted source rows rows' rest touched)
    (hsub : touched ⊆ touched') : Shifted source rows rows' rest touched' :=
  ⟨h.holds, h.size, h.other, fun id hid hnot => h.kept id hid fun hmem => hnot (hsub hmem)⟩

variable {id : ℕ}

theorem cellAt_congr (h : rows'.valueAt id = rows.valueAt id)
    (t : MergeSource) : cellAt rows' t id = cellAt rows t id := by
  rw [cellAt, cellAt, h]

variable {s : MergeSource} {i : ℕ}

theorem shifted_set (h : Holds rows (l ++ rest)) (hid : i ∈ rest) {f : AlignedRow → AlignedRow}
    (hf : ∀ row t, t ≠ .a → t ≠ s → (f row).line t = row.line t) :
    ∃ rows', rows.setValue i f = some rows' ∧ Shifted s rows rows' rest [i] := by
  obtain ⟨rows', hset, hu⟩ := setValue_spec h (mem_append_right l hid) f
  refine ⟨rows', hset, ⟨l, hu.holds⟩, hu.size.ge, ?_, ?_⟩
  · intro j _ t ha hs
    by_cases hj : j = i
    · subst hj
      rw [cellAt, hu.here, cellAt]
      cases rows.valueAt j with
      | none => rfl
      | some row => exact hf row t ha hs
    · exact cellAt_congr (hu.other j hj) t
  · intro j _ hj t
    exact cellAt_congr (hu.other j (by simpa using hj)) t

theorem shifted_insert (h : Holds rows (l ++ rest)) (row : AlignedRow) :
    ∃ rows' id, rows.insertBefore rest.head? row = some (rows', id) ∧
      Shifted s rows rows' rest [] ∧ id < rows'.nodes.length := by
  obtain ⟨rows', hins, hi⟩ := insertBefore_spec h row
  have hsame : ∀ id ∈ rest, ∀ t, cellAt rows' t id = cellAt rows t id := by
    intro id hid t
    refine cellAt_congr (hi.old id fun he => holds_fresh h ?_) t
    exact mem_append_right _ (he ▸ hid)
  refine ⟨rows', _, hins, ⟨⟨l ++ [rows.nodes.length], by simpa using hi.holds⟩, ?_, ?_, ?_⟩, ?_⟩
  · have := hi.size
    omega
  · exact fun id hid t _ _ => hsame id hid t
  · exact fun id hid _ t => hsame id hid t
  · have := hi.size
    omega

variable {t : MergeSource}

theorem line_strippedRow (source : MergeSource) (withBase : Bool) (row : AlignedRow)
    (ha : t ≠ .a) (hs : t ≠ source) :
    (strippedRow source withBase row).line t = row.line t := by
  rw [strippedRow, line_setLine_ne _ _ hs]
  split
  · rw [line_setLine_ne _ _ ha]
  · rfl

variable {target : ℕ}

theorem moveRow_spec {changed : List ℕ}
    (h : Holds rows (l ++ target :: rest)) (hid : id ∈ target :: rest)
    (hchanged : ∀ j ∈ changed, j < rows.nodes.length) (withBase : Bool) (row : AlignedRow) :
    ∃ rows' changed', moveRow s target id withBase row rows changed = some (rows', changed') ∧
      Shifted s rows rows' (target :: rest) [id] ∧ ∀ j ∈ changed', j < rows'.nodes.length := by
  unfold moveRow
  split
  · obtain ⟨rows1, e1, h1⟩ := shifted_set (s := s) h hid
      (f := strippedRow s withBase) fun row t => line_strippedRow s withBase row
    obtain ⟨l1, hl1⟩ := h1.holds
    obtain ⟨rows2, new, e2, h2, hnew⟩ := shifted_insert (s := s) hl1 (movedRow s withBase row)
    refine ⟨rows2, changed ++ [id, new], ?_, h1.trans h2, ?_⟩
    · simp only [e1, bind_eq_bind, bind_some]
      rw [head?_cons] at e2
      rw [e2]
      rfl
    · have hlt := linked_lt h.linked id (mem_append_right _ hid)
      have hs1 := h1.size
      have hs2 := h2.size
      intro j hj
      simp only [mem_append, mem_cons, not_mem_nil, or_false] at hj
      rcases hj with hj | rfl | rfl
      · have := hchanged j hj
        omega
      · omega
      · exact hnew
  · exact ⟨rows, changed, rfl, (Shifted.refl h).weaken (nil_subset _), hchanged⟩

theorem moveBetween_spec {lastEqualA : Option ℕ}
    (between : List ℕ) : ∀ {rows : RowList} {l changed : List ℕ}
    {w : Bool}, Holds rows (l ++ target :: rest) → between ⊆ target :: rest →
      (∀ j ∈ changed, j < rows.nodes.length) →
      ∃ rows' changed', moveBetween source target lastEqualA between w rows changed =
          some (rows', changed') ∧ Shifted source rows rows' (target :: rest) between ∧
        ∀ j ∈ changed', j < rows'.nodes.length := by
  induction between with
  | nil => exact fun h _ hchanged => ⟨_, _, rfl, .refl h, hchanged⟩
  | cons id between ih =>
    intro rows l changed w h hsub hchanged
    obtain ⟨hid, hsub⟩ := cons_subset.mp hsub
    obtain ⟨row, hrow⟩ := valueAt_isSome h (mem_append_right _ hid)
    obtain ⟨rows1, changed1, e1, h1, hc1⟩ := moveRow_spec (s := source) h hid hchanged w row
    obtain ⟨l1, hl1⟩ := h1.holds
    obtain ⟨rows2, changed2, e2, h2, hc2⟩ := ih hl1 hsub hc1
      (w := if some id = lastEqualA then false else w)
    refine ⟨rows2, changed2, ?_, h1.trans h2, hc2⟩
    simp only [moveBetween, hrow, e1, bind_eq_bind, bind_some]
    exact e2

variable {ids : List ℕ}

theorem mapM_valueAt (h : ∀ id ∈ ids, ∃ row, rows.valueAt id = some row) :
    ∃ values, ids.mapM rows.valueAt = some values := by
  induction ids with
  | nil => exact ⟨[], rfl⟩
  | cons id ids ih =>
    obtain ⟨row, hrow⟩ := h id mem_cons_self
    obtain ⟨values, hvalues⟩ := ih fun j hj => h j (mem_cons_of_mem _ hj)
    exact ⟨row :: values, by simp [mapM_cons, hrow, hvalues]⟩

theorem clearBetween_spec {b : List ℕ} (h : Holds rows (l ++ target :: rest))
    (hsub : b ⊆ target :: rest) :
    ∃ rows' changed, clearBetween s target b rows = some (rows', changed) ∧
      Shifted s rows rows' (target :: rest) b ∧ ∀ j ∈ changed, j < rows'.nodes.length := by
  obtain ⟨values, hvalues⟩ := mapM_valueAt fun id hid =>
    valueAt_isSome h (mem_append_right l (hsub hid))
  simp only [clearBetween, hvalues, bind_eq_bind, bind_some]
  split
  · exact moveBetween_spec b h hsub (by simp)
  · exact ⟨rows, [], rfl, (Shifted.refl h).weaken (nil_subset _), by simp⟩

variable {r : List ℕ} {holder : ℕ}

variable {m : List ℕ}

theorem idsBetween_eq (h : Holds rows (l ++ target :: (m ++ holder :: r))) :
    Arena.idsBetween rows holder rows.nodes.length (some target) = some (target :: m) := by
  have hlinked := (linked_append.mp h.linked).2
  have hrun := idsBetween_spec (s := holder) (target :: (m ++ holder :: r)) hlinked
    (n := rows.nodes.length) (by rw [← h.size, length_append]; omega)
  rw [head?_cons] at hrun
  rw [hrun]
  have hnodup := (nodup_append.mp h.nodup).2.1
  rw [← cons_append, nodup_middle, nodup_cons] at hnodup
  have hnotin : holder ∉ target :: m := fun hmem => hnodup.1 (mem_append_left _ hmem)
  rw [← cons_append, takeWhile_append_of_pos, takeWhile_cons_of_neg (by simp),
    append_nil]
  intro id hid
  exact decide_eq_true fun he => hnotin (he ▸ hid)

theorem pullLine_spec (h : Holds rows (l ++ target :: (m ++ holder :: r))) :
    ∃ rows' changed, pullLine s i target holder rows = some (rows', changed) ∧
      Shifted s rows rows' (target :: (m ++ holder :: r)) (target :: (m ++ [holder])) ∧
      ∀ j ∈ changed, j < rows'.nodes.length := by
  have hset : ∀ (cell : Option ℕ) (row : AlignedRow) (t : MergeSource), t ≠ .a → t ≠ s →
      (row.setLine s cell).line t = row.line t := fun cell row t _ hs =>
    line_setLine_ne row cell hs
  obtain ⟨rows1, changed1, e1, h1, hc1⟩ := clearBetween_spec (s := s)
    (b := target :: m) h (cons_subset_cons _ (subset_append_left _ _))
  obtain ⟨l1, hl1⟩ := h1.holds
  obtain ⟨rows2, e2, h2⟩ := shifted_set (s := s) hl1 (i := holder) (by simp)
    (hset none)
  obtain ⟨l2, hl2⟩ := h2.holds
  obtain ⟨rows3, e3, h3⟩ := shifted_set (s := s) hl2 (i := target) (by simp)
    (hset (some i))
  refine ⟨rows3, changed1 ++ [holder, target], ?_, ((h1.trans h2).trans h3).weaken ?_, ?_⟩
  · simp only [pullLine, idsBetween_eq h, e1, e2, e3, bind_eq_bind, bind_some]
  · intro j
    simp only [mem_append, mem_cons, not_mem_nil, or_false]
    tauto
  · have hs2 := h2.size
    have hs3 := h3.size
    have hlt := linked_lt hl2.linked holder (by simp)
    have hlt' := linked_lt hl2.linked target (by simp)
    intro j hj
    simp only [mem_append, mem_cons, not_mem_nil, or_false] at hj
    rcases hj with hj | rfl | rfl
    · have := hc1 j hj
      omega
    · omega
    · omega

theorem recomputeChanged_spec (texts : Sources) (ids : List ℕ) : ∀ {rows : RowList}
    {all : List ℕ}, Holds rows all → (∀ id ∈ ids, id < rows.nodes.length) →
      ∃ rows', recomputeChanged texts ids rows = some rows' ∧ Holds rows' all ∧
        ∀ id t, cellAt rows' t id = cellAt rows t id := by
  induction ids with
  | nil => exact fun h _ => ⟨_, rfl, h, fun _ _ => rfl⟩
  | cons id ids ih =>
    intro rows all h hids
    obtain ⟨rows1, e1, h1⟩ := setValue_spec h (holds_mem h (hids id mem_cons_self))
      (recomputeRowMetadata texts)
    obtain ⟨rows2, e2, h2, hcell⟩ := ih h1.holds fun j hj => by
      rw [h1.size]
      exact hids j (mem_cons_of_mem _ hj)
    refine ⟨rows2, ?_, h2, fun j t => ?_⟩
    · simp only [recomputeChanged, e1, bind_eq_bind, bind_some]
      exact e2
    · rw [hcell]
      by_cases hj : j = id
      · subst hj
        rw [cellAt, h1.here, cellAt]
        cases rows.valueAt j with
        | none => rfl
        | some row => exact line_recompute texts row t
      · exact cellAt_congr (h1.other j hj) t

structure Reaches (rows : RowList) (ids : List ℕ) (source : MergeSource) (cursor : Option ℕ)
    (lo hi : ℕ) : Prop where
  split : ∃ l r, ids = l ++ r ∧ cursor = r.head? ∧ Covers (cellAt rows source) r lo hi

structure FoundAt (rows : RowList) (ids : List ℕ) (source : MergeSource) (cursor : Option ℕ)
    (lo line hi id : ℕ) (l pre post : List ℕ) : Prop where
  split : ids = l ++ (pre ++ id :: post)
  head : cursor = (pre ++ id :: post).head?
  run : rows.findFrom cursor source line = some (some id)
  skipped : Covers (cellAt rows source) pre lo line
  rest : Covers (cellAt rows source) post (line + 1) hi

variable {cursor : Option ℕ} {lo hi : ℕ}

theorem reaches_find {line : ℕ} (h : Holds rows ids) (hr : Reaches rows ids source cursor lo hi)
    (hlo : lo ≤ line) (hhi : line < hi) :
    ∃ id l pre post, FoundAt rows ids source cursor lo line hi id l pre post := by
  obtain ⟨l, r, rfl, rfl, hcover⟩ := hr.split
  have hlinked := (linked_append.mp h.linked).2
  have hrun := findFrom_spec (p := fun row : AlignedRow => decide (row.line source = some line)) r
    hlinked (n := rows.nodes.length) (by rw [← h.size, length_append]; omega)
  have hcell : ∀ id, (rows.valueAt id).any (fun row => decide (row.line source = some line)) =
      decide (cellAt rows source id = some line) := by
    intro id
    rw [cellAt]
    cases rows.valueAt id <;> rfl
  simp only [hcell] at hrun
  obtain ⟨x, hx, hxline⟩ := (covers_mem hcover).mpr ⟨hlo, hhi⟩
  cases hfind : r.find? fun id => decide (cellAt rows source id = some line) with
  | none =>
    have := find?_eq_none.mp hfind x hx
    simp [hxline] at this
  | some id =>
    obtain ⟨hid, pre, post, rfl, -⟩ := find?_eq_some_iff_append.mp hfind
    rw [decide_eq_true_eq] at hid
    obtain ⟨hpre, -, hpost⟩ := hcover.split hid
    refine ⟨id, l, pre, post, rfl, rfl, ?_, hpre, hpost⟩
    rw [hfind] at hrun
    exact hrun

variable {l' : List ℕ}

variable {r' : List ℕ}

theorem split_after {x y : ℕ} (hnodup : ids.Nodup)
    (hx : ids = l ++ x :: r) (hy : ids = l' ++ y :: r') (hmem : y ∈ r) :
    ∃ m, r = m ++ y :: r' := by
  obtain ⟨m, r'', rfl⟩ := append_of_mem hmem
  rw [hx] at hnodup hy
  rw [← cons_append, ← append_assoc] at hnodup hy
  rw [hy, nodup_middle, nodup_cons, mem_append, not_or] at hnodup
  obtain ⟨-, -, rfl⟩ := (append_cons_inj_of_notMem hnodup.1.1 hnodup.1.2).mp hy.symm
  exact ⟨m, rfl⟩

structure Joined (rows rows' : RowList) (rowB rowC : ℕ) (restB restC : List ℕ) : Prop where
  holds : ∃ ids, Holds rows' ids ∧ (∃ l, ids = l ++ rowB :: restB) ∧ ∃ l, ids = l ++ rowC :: restC
  cellsB : ∀ id ∈ restB, cellAt rows' .b id = cellAt rows .b id
  cellsC : ∀ id ∈ restC, cellAt rows' .c id = cellAt rows .c id

theorem pullLine_joins (ht : t ≠ .a) (hts : t ≠ s) (h : Holds rows ids)
    (htarget : ids = l ++ target :: r) (hholder : ids = l' ++ holder :: r') (hmem : holder ∈ r) :
    ∃ rows' changed ids', pullLine s i target holder rows = some (rows', changed) ∧
      Holds rows' ids' ∧ (∃ k, ids' = k ++ target :: r) ∧ (∃ k, ids' = k ++ holder :: r') ∧
      (∀ id ∈ r, cellAt rows' t id = cellAt rows t id) ∧
      (∀ id ∈ r', cellAt rows' s id = cellAt rows s id) ∧
      ∀ j ∈ changed, j < rows'.nodes.length := by
  obtain ⟨m, rfl⟩ := split_after h.nodup htarget hholder hmem
  subst htarget
  obtain ⟨rows', changed, hrun, hshift, hchanged⟩ := pullLine_spec (s := s) (i := i) h
  obtain ⟨k, hk⟩ := hshift.holds
  have hnodup := (nodup_append.mp h.nodup).2.1
  have hdisjoint : ∀ id ∈ r', id ∉ target :: (m ++ [holder]) := by
    have hsplit : target :: (m ++ holder :: r') = (target :: (m ++ [holder])) ++ r' := by simp
    rw [hsplit] at hnodup
    exact fun id hid hmem => (nodup_append.mp hnodup).2.2 id hmem id hid rfl
  refine ⟨rows', changed, _, hrun, hk, ⟨k, rfl⟩, ⟨k ++ target :: m, by simp⟩, ?_, ?_, hchanged⟩
  · exact fun id hid => hshift.other id (mem_cons_of_mem _ hid) t ht hts
  · intro id hid
    exact hshift.kept id (by simp [hid]) (hdisjoint id hid) s

theorem joinRows_spec {restB restC : List ℕ} {rowB rowC b c : ℕ}
    (h : Holds rows ids) (hb : ids = l ++ rowB :: restB) (hc : ids = l' ++ rowC :: restC) :
    ∃ rows' changed, joinRows rowB rowC b c rows = some (rows', changed) ∧
      Joined rows rows' rowB rowC restB restC ∧ ∀ j ∈ changed, j < rows'.nodes.length := by
  have hsame : Joined rows rows rowB rowC restB restC :=
    ⟨⟨ids, h, ⟨l, hb⟩, ⟨l', hc⟩⟩, fun _ _ => rfl, fun _ _ => rfl⟩
  unfold joinRows
  by_cases heq : rowB = rowC
  · rw [if_pos heq]
    exact ⟨rows, [], rfl, hsame, by simp⟩
  rw [if_neg heq]
  obtain ⟨valueB, hvalueB⟩ := valueAt_isSome h (hb ▸ by simp : rowB ∈ ids)
  obtain ⟨valueC, hvalueC⟩ := valueAt_isSome h (hc ▸ by simp : rowC ∈ ids)
  have hsize : ∀ {k r : List ℕ}, ids = k ++ r → r.length ≤ rows.nodes.length := by
    intro k r hk
    rw [← h.size, hk, length_append]
    omega
  have hfirstC := comesBefore_spec (r := rowB) (rowC :: restC)
    (linked_append.mp (hc ▸ h.linked)).2 (hsize hc)
  have hfirstB := comesBefore_spec (r := rowC) (rowB :: restB)
    (linked_append.mp (hb ▸ h.linked)).2 (hsize hb)
  rw [head?_cons] at hfirstC hfirstB
  simp only [hvalueB, hvalueC, hfirstC, hfirstB, bind_eq_bind, bind_some,
    Bool.and_eq_true, decide_eq_true_eq]
  split
  · rename_i hcond
    obtain ⟨rows', changed, ids', hrun, hh, ht, hr, hother, hkept, hchanged⟩ :=
      pullLine_joins (s := .b) (t := .c) (by decide) (by decide) (i := b) h
        hc hb ((mem_cons.mp hcond.1).resolve_left heq)
    exact ⟨rows', changed, hrun, ⟨⟨ids', hh, hr, ht⟩, hkept, hother⟩, hchanged⟩
  split
  · rename_i hcond
    obtain ⟨rows', changed, ids', hrun, hh, ht, hr, hother, hkept, hchanged⟩ :=
      pullLine_joins (s := .c) (t := .b) (by decide) (by decide) (i := c) h
        hb hc ((mem_cons.mp hcond.1).resolve_left (Ne.symm heq))
    exact ⟨rows', changed, hrun, ⟨⟨ids', hh, ht, hr⟩, hother, hkept⟩, hchanged⟩
  · exact ⟨rows, [], rfl, hsame, by simp⟩

-- The lines of `b` from the cursor on are exactly the ones still to be placed; the cursor of `c`
-- may be behind its line counter, because changed lines of `c` are counted without being visited.
structure BcInvariant (nb nc : ℕ) (st : BcCursor) : Prop where
  ids : ∃ ids start, Holds st.rows ids ∧ start ≤ st.c ∧
    Reaches st.rows ids .b st.cursorB st.b nb ∧ Reaches st.rows ids .c st.cursorC start nc

variable {nb nc : ℕ} {st : BcCursor}

theorem alignEqual_step {t : Sources} (h : BcInvariant nb nc st) (hb : st.b < nb) (hc : st.c < nc) :
    ∃ rowB rowC rows changed rows', st.rows.findFrom st.cursorB .b st.b = some (some rowB) ∧
      st.rows.findFrom st.cursorC .c st.c = some (some rowC) ∧
      joinRows rowB rowC st.b st.c st.rows = some (rows, changed) ∧
      recomputeChanged t ((changed.mergeSort).destutter (· ≠ ·)) rows = some rows' ∧
      BcInvariant nb nc ⟨rows', rows'.next rowB, rows'.next rowC, st.b + 1, st.c + 1⟩ := by
  obtain ⟨ids, start, hh, hstart, hB, hC⟩ := h.ids
  obtain ⟨rowB, lB, preB, postB, hfB⟩ := reaches_find hh hB (le_refl _) hb
  obtain ⟨rowC, lC, preC, postC, hfC⟩ := reaches_find hh hC hstart hc
  have hsB : ids = (lB ++ preB) ++ rowB :: postB := by simpa using hfB.split
  have hsC : ids = (lC ++ preC) ++ rowC :: postC := by simpa using hfC.split
  obtain ⟨rows, changed, hjoin, hjoined, hchanged⟩ := joinRows_spec (b := st.b) (c := st.c) hh
    hsB hsC
  obtain ⟨ids', hh', ⟨kB, hkB⟩, ⟨kC, hkC⟩⟩ := hjoined.holds
  obtain ⟨rows', hre, hh'', hcell⟩ := recomputeChanged_spec t
    ((changed.mergeSort).destutter (· ≠ ·)) hh' fun id hid =>
      hchanged id (mem_mergeSort.mp ((destutter_sublist _ _).subset hid))
  refine ⟨rowB, rowC, rows, changed, rows', hfB.run, hfC.run, hjoin, hre,
    ⟨ids', st.c + 1, hh'', le_refl _, ⟨kB ++ [rowB], postB, by simpa using hkB, ?_, ?_⟩,
      ⟨kC ++ [rowC], postC, by simpa using hkC, ?_, ?_⟩⟩⟩
  · exact next_spec (hkB ▸ hh'')
  · exact covers_congr hfB.rest fun id hid => by rw [hcell, hjoined.cellsB id hid]
  · exact next_spec (hkC ▸ hh'')
  · exact covers_congr hfC.rest fun id hid => by rw [hcell, hjoined.cellsC id hid]

theorem alignEqual_spec (texts : Sources) (count : ℕ) : ∀ {nb nc : ℕ} {st : BcCursor},
    BcInvariant nb nc st → st.b + count ≤ nb → st.c + count ≤ nc →
      ∃ st', alignEqual texts count st = some st' ∧ BcInvariant nb nc st' ∧
        st'.b = st.b + count ∧ st'.c = st.c + count := by
  induction count with
  | zero => exact fun h _ _ => ⟨_, rfl, h, rfl, rfl⟩
  | succ count ih =>
    intro nb nc st h hb hc
    obtain ⟨rowB, rowC, rows, changed, rows', e1, e2, e3, e4, h1⟩ :=
      alignEqual_step (t := texts) h (by omega) (by omega)
    obtain ⟨st', hrun, h2, hb2, hc2⟩ := ih h1 (by simp only; omega) (by simp only; omega)
    refine ⟨st', ?_, h2, by simp only at hb2; omega, by simp only at hc2; omega⟩
    simp only [alignEqual, e1, e2, e3, e4, bind_eq_bind, bind_some]
    exact hrun

theorem reaches_congr (h : Reaches rows ids source cursor lo hi)
    (hsame : ∀ id ∈ ids, cellAt rows' source id = cellAt rows source id) :
    Reaches rows' ids source cursor lo hi := by
  obtain ⟨l, r, rfl, hcursor, hcover⟩ := h.split
  exact ⟨l, r, rfl, hcursor, covers_congr hcover fun id hid =>
    hsame id (mem_append_right _ hid)⟩

theorem reaches_insert {new : ℕ} (h : Reaches rows (l ++ r) source cursor lo hi)
    (hnew : cellAt rows source new = none) : Reaches rows (l ++ new :: r) source cursor lo hi := by
  obtain ⟨l', r', heq, rfl, hcover⟩ := h.split
  rcases append_eq_append_iff.mp heq with ⟨m, rfl, rfl⟩ | ⟨m, rfl, rfl⟩
  · exact ⟨l ++ new :: m, r', by simp, rfl, hcover⟩
  · cases m with
    | nil => exact ⟨l' ++ [new], r, by simp, rfl, hcover⟩
    | cons x m =>
      refine ⟨l', (x :: m) ++ new :: r, by simp, rfl, ?_⟩
      obtain ⟨mid, hm, hr⟩ := covers_append_iff.mp hcover
      exact hm.append ((covers_none_cons hnew).mpr hr)

theorem detachLine_spec (h : BcInvariant nb nc st) (hb : st.b < nb) :
    ∃ found st', st.rows.findFrom st.cursorB .b st.b = some (some found) ∧
      detachLine found st = some st' ∧ st'.b = st.b ∧ st'.c = st.c ∧ ∀ c, st.c ≤ c →
        BcInvariant nb nc ⟨st'.rows, st'.cursorB.bind st'.rows.next, st'.cursorC, st.b + 1, c⟩ := by
  obtain ⟨ids, start, hh, hstart, hB, hC⟩ := h.ids
  obtain ⟨found, l, pre, post, hf⟩ := reaches_find hh hB (le_refl _) hb
  obtain ⟨row, hrow⟩ := valueAt_isSome hh (hf.split ▸ by simp : found ∈ ids)
  obtain rfl := hf.split
  refine ⟨found, ?_⟩
  simp only [detachLine, hrow, bind_eq_bind, bind_some]
  split
  · rename_i hcond
    cases pre with
    | nil => exact absurd hf.head.symm hcond.1
    | cons k pre =>
      obtain ⟨rows1, e1, h1⟩ := setValue_spec hh (i := found) (by simp)
        fun row => row.setLine .b none
      obtain ⟨rows2, e2, h2⟩ := insertBefore_spec h1.holds (rowWith .b st.b)
      have hcell1 : ∀ j, cellAt rows1 .c j = cellAt st.rows .c j := by
        intro j
        by_cases hj : j = found
        · subst hj
          rw [cellAt, h1.here, hrow, cellAt, hrow]
          exact line_setLine_ne row none (by decide : MergeSource.c ≠ .b)
        · exact cellAt_congr (h1.other j hj) .c
      have hold : ∀ j ∈ l ++ ((k :: pre) ++ found :: post), ∀ t,
          cellAt rows2 t j = cellAt rows1 t j := by
        intro j hj t
        exact cellAt_congr (h2.old j fun he => holds_fresh h1.holds (he ▸ hj)) t
      have hnew : cellAt rows2 .c rows1.nodes.length = none := by
        rw [cellAt, h2.new]
        rfl
      have hnodup := (nodup_append.mp hh.nodup).2.1
      rw [nodup_middle, nodup_cons, mem_append, not_or] at hnodup
      have hB1 : ∀ j ∈ pre ++ post, cellAt rows2 .b j = cellAt st.rows .b j := by
        intro j hj
        have hne : j ≠ found := by
          rintro rfl
          rcases mem_append.mp hj with hj | hj
          · exact hnodup.1.1 (mem_cons_of_mem _ hj)
          · exact hnodup.1.2 hj
        rw [hold j (by
          simp only [mem_append, mem_cons] at hj ⊢
          tauto) .b, cellAt_congr (h1.other j hne)]
      refine ⟨⟨rows2, st.cursorB, st.cursorC, st.b, st.c⟩, hf.run, ?_, rfl, rfl, fun c hc =>
        ⟨_, start, h2.holds, le_trans hstart hc, ?_, ?_⟩⟩
      · rw [e1, bind_some, hf.head, e2]
        rfl
      · refine ⟨l ++ [rows1.nodes.length, k], pre ++ found :: post, by simp, ?_, ?_⟩
        · rw [hf.head]
          exact next_spec (l := l ++ [rows1.nodes.length]) (by simpa using h2.holds)
        · have hnone : ∀ j ∈ pre, cellAt rows2 .b j = none := by
            intro j hj
            rw [hB1 j (mem_append_left _ hj)]
            exact hf.skipped.none_of_empty j (mem_cons_of_mem _ hj)
          have hfound : cellAt rows2 .b found = none := by
            rw [hold found (by simp) .b, cellAt, h1.here, hrow]
            exact line_setLine_self row .b none
          refine (covers_none hnone (st.b + 1)).append ((covers_none_cons hfound).mpr ?_)
          exact covers_congr hf.rest fun j hj => hB1 j (mem_append_right _ hj)
      · refine reaches_insert (reaches_congr hC fun j hj => ?_) hnew
        rw [hold j hj .c, hcell1]
  · refine ⟨⟨st.rows, some found, st.cursorC, st.b, st.c⟩, hf.run, rfl, rfl, rfl, fun c hc =>
      ⟨_, start, hh, le_trans hstart hc, ?_, hC⟩⟩
    refine ⟨(l ++ pre) ++ [found], post, by simp, ?_, hf.rest⟩
    exact next_spec (l := l ++ pre) (by simpa using hh)

theorem alignChanged_spec (left : ℕ) : ∀ {nb nc r : ℕ} {st : BcCursor},
    BcInvariant nb nc st → st.b + left ≤ nb →
      ∃ st', alignChanged left r st = some st' ∧ BcInvariant nb nc st' ∧
        st'.b = st.b + left ∧ st'.c = st.c + r := by
  induction left with
  | zero =>
    intro nb nc r st h _
    obtain ⟨ids, start, hh, hstart, hB, hC⟩ := h.ids
    exact ⟨_, rfl, ⟨ids, start, hh, le_trans hstart (le_add_right _ _), hB, hC⟩, rfl, rfl⟩
  | succ left ih =>
    intro nb nc r st h hb
    obtain ⟨found, st1, e1, e2, hb1, hc1, h1⟩ := detachLine_spec h (by omega)
    obtain ⟨st', hrun, h2, hb2, hc2⟩ := ih (r := r - 1)
      (h1 (if 0 < r then st1.c + 1 else st1.c) (by split <;> omega)) (by simp only; omega)
    refine ⟨st', ?_, h2, by simp only at hb2; omega, ?_⟩
    · simp only [alignChanged, e1, e2, bind_eq_bind, bind_some]
      rw [hb1]
      exact hrun
    · simp only at hc2
      split at hc2 <;> omega

theorem alignChunks_spec (texts : Sources) (chunks : List PairChunk) : ∀ {nb nc : ℕ}
    {st : BcCursor}, BcInvariant nb nc st → st.b + leftSpan chunks ≤ nb →
      st.c + rightSpan chunks ≤ nc → ∃ st', alignChunks texts chunks st = some st' ∧
        ∃ ids, Holds st'.rows ids := by
  induction chunks with
  | nil =>
    intro nb nc st h _ _
    obtain ⟨ids, start, hh, -⟩ := h.ids
    exact ⟨st, rfl, ids, hh⟩
  | cons chunk chunks ih =>
    intro nb nc st h hb hc
    simp only [leftSpan, rightSpan, map_cons, sum_cons] at hb hc
    obtain ⟨st1, e1, h1, hb1, hc1⟩ := alignEqual_spec texts chunk.equal h (by omega) (by omega)
    obtain ⟨st2, e2, h2, hb2, hc2⟩ := alignChanged_spec chunk.left (r := chunk.right) h1
      (by omega)
    obtain ⟨st3, e3, hids⟩ := ih h2 (by simp only [leftSpan]; omega)
      (by simp only [rightSpan]; omega)
    refine ⟨st3, ?_, hids⟩
    simp only [alignChunks, e1, e2, bind_eq_bind, bind_some]
    exact e3

theorem integrateBc_spec (texts : Sources) {u : List PairChunk} (h : Holds rows ids)
    (hb : Covers (cellAt rows .b) ids 0 (leftSpan u))
    (hc : Covers (cellAt rows .c) ids 0 (rightSpan u)) :
    ∃ rows' ids', integrateBc texts u rows = some rows' ∧ Holds rows' ids' := by
  have hinv : BcInvariant (leftSpan u) (rightSpan u) ⟨rows, rows.first, rows.first, 0, 0⟩ :=
    ⟨ids, 0, h, le_refl _, ⟨[], ids, rfl, h.first, hb⟩, ⟨[], ids, rfl, h.first, hc⟩⟩
  obtain ⟨st, hrun, ids', hids⟩ := alignChunks_spec texts u hinv (by simp) (by simp)
  exact ⟨st.rows, ids', by rw [integrateBc, hrun]; rfl, hids⟩

end GitComet.Merge
