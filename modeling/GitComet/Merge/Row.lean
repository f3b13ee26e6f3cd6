import Mathlib.Data.List.Nodup
import GitComet.Text.Lines

namespace GitComet.Merge
open Text Option Bool

inductive MergeSource where
  | a
  | b
  | c
  deriving DecidableEq

structure Sources where
  a : List Line
  b : List Line
  c : List Line

def Sources.lines (texts : Sources) : MergeSource → List Line
  | .a => texts.a
  | .b => texts.b
  | .c => texts.c

structure AlignedRow where
  a : Option ℕ
  b : Option ℕ
  c : Option ℕ
  equalAb : Bool
  equalAc : Bool
  equalBc : Bool
  whitespaceEqualAb : Bool
  whitespaceEqualAc : Bool
  whitespaceEqualBc : Bool
  whitespaceA : Bool
  whitespaceB : Bool
  whitespaceC : Bool
  deriving DecidableEq

def AlignedRow.ofCells (a b c : Option ℕ) : AlignedRow :=
  { a := a
    b := b
    c := c
    equalAb := false
    equalAc := false
    equalBc := false
    whitespaceEqualAb := false
    whitespaceEqualAc := false
    whitespaceEqualBc := false
    whitespaceA := true
    whitespaceB := true
    whitespaceC := true }

def AlignedRow.line (row : AlignedRow) : MergeSource → Option ℕ
  | .a => row.a
  | .b => row.b
  | .c => row.c

def AlignedRow.setLine (row : AlignedRow) (source : MergeSource) (line : Option ℕ) : AlignedRow :=
  match source with
  | .a => { row with a := line }
  | .b => { row with b := line }
  | .c => { row with c := line }

def AlignedRow.occupied (row : AlignedRow) : Bool :=
  row.a.isSome || row.b.isSome || row.c.isSome

def AlignedRow.whitespaceEqual (row : AlignedRow) : MergeSource → MergeSource → Bool
  | .a, .b | .b, .a => row.whitespaceEqualAb
  | .a, .c | .c, .a => row.whitespaceEqualAc
  | .b, .c | .c, .b => row.whitespaceEqualBc
  | _, _ => true

def AlignedRow.equal (row : AlignedRow) : MergeSource → MergeSource → Bool
  | .a, .b | .b, .a => row.equalAb
  | .a, .c | .c, .a => row.equalAc
  | .b, .c | .c, .b => row.equalBc
  | _, _ => true

def cellText (lines : List Line) (cell : Option ℕ) : Option Line := cell.bind (lines[·]?)

def AlignedRow.text (row : AlignedRow) (texts : Sources) (source : MergeSource) : Option Line :=
  cellText (texts.lines source) (row.line source)

def pairMetadata (left right : Option Line) : Bool × Bool :=
  match left, right with
  | some left, some right =>
    (decide (left = right), decide (left = right) || equalIgnoringWhitespace left right)
  | _, _ => (false, false)

def whitespaceCell (cell : Option Line) : Bool :=
  match cell with
  | some line => isBlank line
  | none => true

def recomputeRowMetadata (texts : Sources) (row : AlignedRow) : AlignedRow :=
  let a := row.text texts .a
  let b := row.text texts .b
  let c := row.text texts .c
  { row with
    equalAb := (pairMetadata a b).1
    equalAc := (pairMetadata a c).1
    equalBc := (pairMetadata b c).1
    whitespaceEqualAb := (pairMetadata a b).2
    whitespaceEqualAc := (pairMetadata a c).2
    whitespaceEqualBc := (pairMetadata b c).2
    whitespaceA := whitespaceCell a
    whitespaceB := whitespaceCell b
    whitespaceC := whitespaceCell c }

def lineEqual (left right : Option ℕ) (leftLines rightLines : List Line) : Bool :=
  match left, right with
  | some left, some right => decide (leftLines[left]? = rightLines[right]?)
  | _, _ => false

@[simp] theorem line_recompute (texts : Sources) (row : AlignedRow) (source : MergeSource) :
    (recomputeRowMetadata texts row).line source = row.line source := by
  cases source <;> rfl

theorem line_setLine (row : AlignedRow) (s t : MergeSource) (line : Option ℕ) :
    (row.setLine s line).line t = if t = s then line else row.line t := by
  cases s <;> cases t <;> rfl

@[simp] theorem line_setLine_self (row : AlignedRow) (s : MergeSource) (line : Option ℕ) :
    (row.setLine s line).line s = line := by
  simp [line_setLine]

variable {s t : MergeSource}

theorem line_setLine_ne (row : AlignedRow) (line : Option ℕ) (h : t ≠ s) :
    (row.setLine s line).line t = row.line t := by
  simp [line_setLine, h]

theorem text_recompute (texts : Sources) (row : AlignedRow) (source : MergeSource) :
    (recomputeRowMetadata texts row).text texts source = row.text texts source := by
  simp [AlignedRow.text]

variable {row : AlignedRow}

theorem occupied_iff : row.occupied ↔ ∃ source line, row.line source = some line := by
  simp only [AlignedRow.occupied, or_eq_true, isSome_iff_exists]
  constructor
  · rintro ((⟨line, h⟩ | ⟨line, h⟩) | ⟨line, h⟩)
    · exact ⟨.a, line, h⟩
    · exact ⟨.b, line, h⟩
    · exact ⟨.c, line, h⟩
  · rintro ⟨source, line, h⟩
    cases source with
    | a => exact Or.inl (Or.inl ⟨line, h⟩)
    | b => exact Or.inl (Or.inr ⟨line, h⟩)
    | c => exact Or.inr ⟨line, h⟩

variable {row' : AlignedRow}

theorem occupied_congr
    (h : ∀ source, row'.line source = row.line source) : row'.occupied = row.occupied := by
  rw [Bool.eq_iff_iff, occupied_iff, occupied_iff]
  simp only [h]

@[simp] theorem occupied_recompute (texts : Sources) (row : AlignedRow) :
    (recomputeRowMetadata texts row).occupied = row.occupied :=
  occupied_congr fun source => line_recompute texts row source

theorem recompute_congr (texts : Sources) (h : ∀ source, row'.line source = row.line source) :
    recomputeRowMetadata texts row' = recomputeRowMetadata texts row := by
  have ha : row'.a = row.a := h .a
  have hb : row'.b = row.b := h .b
  have hc : row'.c = row.c := h .c
  simp [recomputeRowMetadata, AlignedRow.text, AlignedRow.line, ha, hb, hc]

@[simp] theorem recompute_idem (texts : Sources) (row : AlignedRow) :
    recomputeRowMetadata texts (recomputeRowMetadata texts row) = recomputeRowMetadata texts row :=
  recompute_congr texts fun source => line_recompute texts row source

variable {left right : Option Line}

theorem pairMetadata_equal :
    (pairMetadata left right).1 ↔ ∃ line, left = some line ∧ right = some line := by
  unfold pairMetadata
  split
  · rw [decide_eq_true_iff]
    constructor
    · rintro rfl
      exact ⟨_, rfl, rfl⟩
    · rintro ⟨line, hl, hr⟩
      rw [some.inj hl, some.inj hr]
  · rename_i hnone
    simp only [false_eq_true, false_iff]
    rintro ⟨line, rfl, rfl⟩
    exact hnone line line rfl rfl

theorem pairMetadata_whitespaceEqual :
    (pairMetadata left right).2 ↔ ∃ x y, left = some x ∧ right = some y ∧
      normalizedWithoutWhitespace x = normalizedWithoutWhitespace y := by
  unfold pairMetadata
  split
  · rw [or_eq_true, decide_eq_true_iff, equalIgnoringWhitespace_iff]
    constructor
    · rintro (rfl | h)
      · exact ⟨_, _, rfl, rfl, rfl⟩
      · exact ⟨_, _, rfl, rfl, h⟩
    · rintro ⟨x, y, hx, hy, h⟩
      rw [some.inj hx, some.inj hy]
      exact Or.inr h
  · rename_i hnone
    simp only [false_eq_true, false_iff]
    rintro ⟨x, y, rfl, rfl, -⟩
    exact hnone x y rfl rfl

theorem pairMetadata_comm (left right : Option Line) :
    pairMetadata left right = pairMetadata right left := by
  apply Prod.ext
  · rw [Bool.eq_iff_iff, pairMetadata_equal, pairMetadata_equal]
    exact ⟨fun ⟨l, h, h'⟩ => ⟨l, h', h⟩, fun ⟨l, h, h'⟩ => ⟨l, h', h⟩⟩
  · rw [Bool.eq_iff_iff, pairMetadata_whitespaceEqual, pairMetadata_whitespaceEqual]
    exact ⟨fun ⟨x, y, hx, hy, h⟩ => ⟨y, x, hy, hx, h.symm⟩,
      fun ⟨x, y, hx, hy, h⟩ => ⟨y, x, hy, hx, h.symm⟩⟩

theorem equal_recompute (texts : Sources) (row : AlignedRow) (h : s ≠ t) :
    (recomputeRowMetadata texts row).equal s t =
      (pairMetadata (row.text texts s) (row.text texts t)).1 := by
  cases s <;> cases t <;> first
    | exact absurd rfl h
    | rfl
    | rw [pairMetadata_comm]; rfl

theorem whitespaceEqual_recompute (texts : Sources) (row : AlignedRow) (h : s ≠ t) :
    (recomputeRowMetadata texts row).whitespaceEqual s t =
      (pairMetadata (row.text texts s) (row.text texts t)).2 := by
  cases s <;> cases t <;> first
    | exact absurd rfl h
    | rfl
    | rw [pairMetadata_comm]; rfl

end GitComet.Merge

namespace GitComet.Merge

structure OrderedSelection where
  sources : List MergeSource
  distinct : sources.Nodup
  deriving DecidableEq

def OrderedSelection.new : OrderedSelection := ⟨[], List.nodup_nil⟩

def OrderedSelection.fromSource (source : MergeSource) : OrderedSelection :=
  ⟨[source], List.nodup_singleton source⟩

def OrderedSelection.isEmpty (selection : OrderedSelection) : Bool := selection.sources.isEmpty

def OrderedSelection.append (selection : OrderedSelection) (source : MergeSource) :
    OrderedSelection :=
  if h : source ∈ selection.sources then selection
  else ⟨selection.sources ++ [source],
    List.nodup_append.mpr ⟨selection.distinct, List.nodup_singleton source, by
      rintro x hx y hy rfl
      rw [List.mem_singleton] at hy
      exact h (hy ▸ hx)⟩⟩

def OrderedSelection.fromSources (sources : List MergeSource) : OrderedSelection :=
  sources.foldl OrderedSelection.append .new

def OrderedSelection.toggle (selection : OrderedSelection) (source : MergeSource) :
    OrderedSelection :=
  if source ∈ selection.sources then
    ⟨selection.sources.erase source, selection.distinct.erase source⟩
  else selection.append source

end GitComet.Merge
