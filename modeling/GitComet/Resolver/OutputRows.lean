import GitComet.Resolver.SparseLines

namespace GitComet.Resolver
open Text List Nat Option

abbrev Marked := Option ℕ × Char

def marked : ℕ → List ConflictSegment → List Marked
  | _, [] => []
  | k, .text content :: segments => content.map (none, ·) ++ marked k segments
  | k, .block block :: segments => block.generated.map (some k, ·) ++ marked (k + 1) segments

def lineFeeds (chars : List Marked) : ℕ := (chars.map Prod.snd).count '\n'

def HoldsText (chars : List Marked) (k row : ℕ) : Prop :=
  ∃ read c rest, chars = read ++ (some k, c) :: rest ∧ row = lineFeeds read

def RowsApart (chars : List Marked) : Prop :=
  ∀ row j k, HoldsText chars j row → HoldsText chars k row → j = k

structure OutputRows where
  closed : List (List Char × Option ℕ)
  row : List Char
  mark : Option ℕ

namespace OutputRows

def start : OutputRows := ⟨[], [], none⟩

def put (rows : OutputRows) (x : Marked) : OutputRows :=
  if x.2 = '\n' then ⟨rows.closed ++ [(rows.row, rows.mark.or x.1)], [], none⟩
  else ⟨rows.closed, rows.row ++ [x.2], rows.mark.or x.1⟩

def write (rows : OutputRows) (chars : List Marked) : OutputRows := chars.foldl put rows

def all (rows : OutputRows) : List (List Char × Option ℕ) :=
  rows.closed ++ [(rows.row, rows.mark)]

variable {rows : OutputRows} {text row : List Char} {mark : Option ℕ}

theorem write_append (rows : OutputRows) (front back : List Marked) :
    rows.write (front ++ back) = (rows.write front).write back := foldl_append

theorem write_row (h : '\n' ∉ row) (hne : row ≠ []) (mark : Option ℕ) (rows : OutputRows) :
    rows.write (row.map (mark, ·)) = ⟨rows.closed, rows.row ++ row, rows.mark.or mark⟩ := by
  induction row generalizing rows with
  | nil => exact absurd rfl hne
  | cons c row ih =>
    rw [mem_cons, not_or] at h
    have hput : rows.put (mark, c) = ⟨rows.closed, rows.row ++ [c], rows.mark.or mark⟩ :=
      if_neg (Ne.symm h.1)
    rw [map_cons, write, foldl_cons, hput]
    cases row with
    | nil => rfl
    | cons d row =>
      have hrest := ih h.2 (cons_ne_nil d row) ⟨rows.closed, rows.row ++ [c], rows.mark.or mark⟩
      rw [write] at hrest
      rw [hrest, append_assoc, singleton_append, Option.or_assoc, Option.or_self]

theorem write_line (h : '\n' ∉ row) (mark : Option ℕ) (rows : OutputRows) :
    rows.write ((row ++ ['\n']).map (mark, ·)) =
      ⟨rows.closed ++ [(rows.row ++ row, rows.mark.or mark)], [], none⟩ := by
  rw [map_append, write_append]
  by_cases hne : row = []
  · rw [hne, append_nil]
    rfl
  · rw [write_row h hne]
    show OutputRows.mk _ _ _ = _
    rw [Option.or_assoc, Option.or_self]

theorem write_lines {lines : List (List Char)} (h : ∀ line ∈ lines, '\n' ∉ line)
    (mark : Option ℕ) (hrow : rows.row = []) (hmark : rows.mark = none) :
    rows.write ((textOf lines).map (mark, ·)) = ⟨rows.closed ++ lines.map (·, mark), [], none⟩ := by
  induction lines generalizing rows with
  | nil =>
    rw [map_nil, append_nil]
    exact congrArg₂ (OutputRows.mk rows.closed) hrow hmark
  | cons line lines ih =>
    rw [forall_mem_cons] at h
    rw [textOf_cons, map_append, write_append, write_line h.1, hrow, hmark, ih h.2 rfl rfl,
      none_or, nil_append, append_assoc]
    rfl

variable {first last : List Char} {middle : List (List Char)}

theorem rowsIn_text (h : rowsIn text = first :: (middle ++ [last])) :
    '\n' ∉ first ∧ (∀ line ∈ middle, '\n' ∉ line) ∧ '\n' ∉ last ∧
      text = first ++ ['\n'] ++ textOf middle ++ last := by
  induction middle generalizing first text with
  | nil =>
    obtain ⟨hfirst, ⟨hnil, -⟩ | ⟨rest, rfl, hrest⟩⟩ := rowsIn_head h
    · cases hnil
    · obtain ⟨hlast, ⟨-, rfl⟩ | ⟨back, -, hback⟩⟩ := rowsIn_head hrest
      · exact ⟨hfirst, fun line hline => (by cases hline), hlast, by simp [textOf]⟩
      · exact absurd hback (rowsIn_ne_nil back)
  | cons line middle ih =>
    obtain ⟨hfirst, ⟨hnil, -⟩ | ⟨rest, rfl, hrest⟩⟩ := rowsIn_head h
    · cases hnil
    · obtain ⟨hline, hmiddle, hlast, rfl⟩ := ih hrest
      exact ⟨hfirst, forall_mem_cons.mpr ⟨hline, hmiddle⟩, hlast, by simp⟩

theorem write_text
    (h : rowsIn text = first :: (middle ++ [last])) (mark : Option ℕ) (rows : OutputRows) :
    rows.write (text.map (mark, ·)) =
      ⟨rows.closed ++ (rows.row ++ first, rows.mark.or mark) :: middle.map (·, mark), last,
        if last = [] then none else mark⟩ := by
  obtain ⟨hfirst, hmiddle, hlast, rfl⟩ := rowsIn_text h
  rw [map_append, map_append, write_append, write_append, write_line hfirst,
    write_lines hmiddle mark rfl rfl, append_assoc, singleton_append]
  by_cases hempty : last = []
  · rw [hempty, if_pos rfl]
    rfl
  · rw [write_row hlast hempty, if_neg hempty, none_or, nil_append]

theorem all_put (rows : OutputRows) (x : Marked) : (rows.put x).all =
    if x.2 = '\n' then rows.closed ++ [(rows.row, rows.mark.or x.1), ([], none)]
    else rows.closed ++ [(rows.row ++ [x.2], rows.mark.or x.1)] := by
  unfold put
  split
  · rw [all, append_assoc]
    rfl
  · rfl

theorem texts_put (h : rows.all.map Prod.fst = rowsIn text) (x : Marked) :
    (rows.put x).all.map Prod.fst = rowsIn (text ++ [x.2]) := by
  obtain ⟨mark, c⟩ := x
  rw [all, map_append, map_singleton] at h
  rw [all_put]
  by_cases hc : c = '\n'
  · have hfeed : rowsIn [c] = [] :: [[]] := by rw [hc]; rfl
    rw [rowsIn, SplitRows.splitOn_append h.symm hfeed, if_pos hc, map_append, append_nil]
    rfl
  · have hsolid : rowsIn [c] = [[c]] := rowsIn_row (by simpa using Ne.symm hc)
    rw [rowsIn, SplitRows.splitOn_append h.symm hsolid, if_neg hc, map_append]
    rfl

theorem texts_write (chars : List Marked) :
    (start.write chars).all.map Prod.fst = rowsIn (chars.map Prod.snd) := by
  induction chars using reverseRecOn with
  | nil => rfl
  | append_singleton chars x ih =>
    rw [write_append, map_append]
    exact texts_put ih x

end OutputRows

def InBlockOrder (chars : List Marked) : Prop :=
  chars.Pairwise fun x y => ∀ j k, x.1 = some j → y.1 = some k → j ≤ k

structure Leads (chars : List Marked) (k row : ℕ) : Prop where
  holds : HoldsText chars k row
  least : ∀ j, HoldsText chars j row → k ≤ j

section
variable {chars : List Marked} {x : Marked} {j k row : ℕ}

theorem lineFeeds_append (front back : List Marked) :
    lineFeeds (front ++ back) = lineFeeds front + lineFeeds back := by
  rw [lineFeeds, map_append, count_append]
  rfl

theorem holdsText_append {front back : List Marked} : HoldsText (front ++ back) k row ↔
    HoldsText front k row ∨ ∃ below, HoldsText back k below ∧ row = lineFeeds front + below := by
  constructor
  · rintro ⟨read, c, rest, heq, rfl⟩
    rcases append_eq_append_iff.mp heq with ⟨more, rfl, hmore⟩ | ⟨more, rfl, hmore⟩
    · exact .inr ⟨_, ⟨more, c, rest, hmore, rfl⟩, lineFeeds_append front more⟩
    · cases more with
      | nil =>
        refine .inr ⟨0, ⟨[], c, rest, hmore.symm, rfl⟩, ?_⟩
        rw [append_nil, add_zero]
      | cons y more =>
        obtain ⟨rfl, -⟩ := cons.inj hmore
        exact .inl ⟨read, c, more, rfl, rfl⟩
  · rintro (⟨read, c, rest, rfl, hrow⟩ | ⟨below, ⟨read, c, rest, rfl, rfl⟩, hrow⟩)
    · exact ⟨read, c, rest ++ back, by simp, hrow⟩
    · exact ⟨front ++ read, c, rest, by simp, by rw [hrow, lineFeeds_append]⟩

theorem holdsText_singleton : HoldsText [x] k row ↔ x.1 = some k ∧ row = 0 := by
  constructor
  · rintro ⟨read, c, rest, heq, rfl⟩
    cases read with
    | nil =>
      obtain ⟨rfl, -⟩ := cons.inj heq
      exact ⟨rfl, rfl⟩
    | cons y read => cases (append_eq_nil_iff.mp (cons.inj heq).2.symm).2
  · rintro ⟨hmark, rfl⟩
    exact ⟨[], x.2, [], by rw [← hmark]; rfl, rfl⟩

theorem holdsText_concat : HoldsText (chars ++ [x]) k row ↔
    HoldsText chars k row ∨ x.1 = some k ∧ row = lineFeeds chars := by
  rw [holdsText_append]
  refine or_congr_right ⟨?_, fun ⟨hx, hrow⟩ => ⟨0, holdsText_singleton.mpr ⟨hx, rfl⟩, hrow⟩⟩
  rintro ⟨below, hbelow, hrow⟩
  obtain ⟨hx, rfl⟩ := holdsText_singleton.mp hbelow
  exact ⟨hx, hrow⟩

theorem not_holdsText (h : ∀ x ∈ chars, x.1 ≠ some k) : ¬HoldsText chars k row := by
  rintro ⟨read, c, rest, rfl, -⟩
  exact h (some k, c) (by simp) rfl

theorem HoldsText.le (h : HoldsText chars k row) : row ≤ lineFeeds chars := by
  obtain ⟨read, c, rest, rfl, rfl⟩ := h
  rw [lineFeeds_append]
  exact le_add_right _ _

theorem HoldsText.le_last (h : HoldsText chars j row) (horder : InBlockOrder (chars ++ [x]))
    (hx : x.1 = some k) : j ≤ k := by
  obtain ⟨read, c, rest, rfl, -⟩ := h
  exact (pairwise_append.mp horder).2.2 (some j, c) (by simp) x (by simp) j k rfl hx

theorem HoldsText.ordered {row' : ℕ} (h : HoldsText chars k row) (h' : HoldsText chars j row')
    (horder : InBlockOrder chars) (hlt : row < row') : k ≤ j := by
  obtain ⟨read, c, rest, hchars, rfl⟩ := h
  obtain ⟨read', c', rest', rfl, rfl⟩ := h'
  rcases append_eq_append_iff.mp hchars with ⟨more, hread, -⟩ | ⟨more, rfl, hrest⟩
  · rw [hread, lineFeeds_append] at hlt
    omega
  · cases more with
    | nil =>
      rw [append_nil] at hlt
      omega
    | cons y more =>
      obtain ⟨rfl, -⟩ := cons.inj hrest
      exact (pairwise_append.mp horder).2.2 (some k, c) (by simp) (some j, c') (by simp)
        k j rfl rfl

def MarkIs (chars : List Marked) (row : ℕ) : Option ℕ → Prop
  | none => ∀ k, ¬HoldsText chars k row
  | some k => Leads chars k row

theorem markIs_iff {mark : Option ℕ} (h : MarkIs chars row mark) :
    mark = some k ↔ Leads chars k row := by
  cases mark with
  | none => exact ⟨fun he => (by cases he), fun hleads => absurd hleads.holds (h k)⟩
  | some j =>
    refine ⟨fun he => some.inj he ▸ h, fun hleads => congrArg some ?_⟩
    exact le_antisymm (h.least k hleads.holds) (hleads.least j h.holds)

theorem MarkIs.of_holds {chars' : List Marked} {mark : Option ℕ} (h : MarkIs chars row mark)
    (hsame : ∀ k, HoldsText chars' k row ↔ HoldsText chars k row) : MarkIs chars' row mark := by
  cases mark with
  | none => exact fun k hk => h k ((hsame k).mp hk)
  | some k => exact ⟨(hsame k).mpr h.holds, fun j hj => h.least j ((hsame j).mp hj)⟩

theorem MarkIs.concat {mark : Option ℕ} (h : MarkIs chars (lineFeeds chars) mark)
    (horder : InBlockOrder (chars ++ [x])) :
    MarkIs (chars ++ [x]) (lineFeeds chars) (mark.or x.1) := by
  cases mark with
  | some k =>
    refine ⟨holdsText_concat.mpr (.inl h.holds), fun j hj => ?_⟩
    rcases holdsText_concat.mp hj with hold | ⟨hx, -⟩
    · exact h.least j hold
    · exact h.holds.le_last horder hx
  | none =>
    rw [none_or]
    cases hx : x.1 with
    | none =>
      intro k hk
      rcases holdsText_concat.mp hk with hold | ⟨hmark, -⟩
      · exact h k hold
      · rw [hx] at hmark
        cases hmark
    | some k =>
      refine ⟨holdsText_concat.mpr (.inr ⟨hx, rfl⟩), fun j hj => ?_⟩
      rcases holdsText_concat.mp hj with hold | ⟨hmark, -⟩
      · exact absurd hold (h j)
      · exact (some.inj (hx.symm.trans hmark)).le

structure OutputRows.Marks (rows : OutputRows) (chars : List Marked) : Prop where
  fed : rows.closed.length = lineFeeds chars
  closed : ∀ r row mark, rows.closed[r]? = some (row, mark) → MarkIs chars r mark
  last : MarkIs chars (lineFeeds chars) rows.mark

theorem OutputRows.Marks.put {rows : OutputRows} (h : rows.Marks chars)
    (horder : InBlockOrder (chars ++ [x])) : (rows.put x).Marks (chars ++ [x]) := by
  have hlast := h.last.concat horder
  have hold : ∀ r row mark, rows.closed[r]? = some (row, mark) → MarkIs (chars ++ [x]) r mark := by
    intro r row mark hget
    have hr := (List.getElem?_eq_some_iff.mp hget).1
    refine (h.closed r row mark hget).of_holds fun k => ?_
    rw [holdsText_concat]
    refine ⟨fun hk => hk.resolve_right fun he => ?_, .inl⟩
    rw [h.fed] at hr
    omega
  have hfeeds : lineFeeds (chars ++ [x]) = lineFeeds chars + if x.2 = '\n' then 1 else 0 := by
    rw [lineFeeds_append]
    refine congrArg _ ?_
    rw [lineFeeds, map_singleton, count_singleton]
    simp only [beq_iff_eq]
  unfold OutputRows.put
  split
  · rename_i hfeed
    rw [if_pos hfeed] at hfeeds
    refine ⟨?_, fun r row mark hget => ?_, ?_⟩
    · rw [hfeeds, ← h.fed, length_append, length_singleton]
    · by_cases hr : r < rows.closed.length
      · exact hold r row mark (by rwa [getElem?_append_left hr] at hget)
      · rw [getElem?_append_right (Nat.le_of_not_lt hr)] at hget
        have hzero := (List.getElem?_eq_some_iff.mp hget).1
        rw [length_singleton] at hzero
        obtain rfl : r = rows.closed.length := by omega
        rw [Nat.sub_self] at hget
        cases hget
        rw [h.fed]
        exact hlast
    · intro k hk
      rcases holdsText_concat.mp hk with hin | ⟨-, hrow⟩
      · have := hin.le
        omega
      · omega
  · rename_i hsolid
    rw [if_neg hsolid, add_zero] at hfeeds
    exact ⟨h.fed.trans hfeeds.symm, hold, by rwa [hfeeds]⟩

theorem OutputRows.marks_write (horder : InBlockOrder chars) :
    (OutputRows.start.write chars).Marks chars := by
  induction chars using reverseRecOn with
  | nil =>
    have hnone : ∀ k r, ¬HoldsText [] k r := by
      rintro k r ⟨read, c, rest, heq, -⟩
      cases append_eq_nil_iff.mp heq.symm |>.2
    exact ⟨rfl, fun r row mark hget => (by cases hget), fun k => hnone k 0⟩
  | append_singleton chars x ih =>
    rw [OutputRows.write_append]
    exact (ih (pairwise_append.mp horder).1).put horder

theorem OutputRows.mark_iff (horder : InBlockOrder chars) {rowText : List Char}
    {mark : Option ℕ} (h : (OutputRows.start.write chars).all[row]? = some (rowText, mark)) :
    mark = some k ↔ Leads chars k row := by
  have hmarks := OutputRows.marks_write horder
  refine markIs_iff ?_
  rw [OutputRows.all] at h
  by_cases hr : row < (OutputRows.start.write chars).closed.length
  · exact hmarks.closed row rowText mark (by rwa [getElem?_append_left hr] at h)
  · rw [getElem?_append_right (Nat.le_of_not_lt hr)] at h
    have hzero := (List.getElem?_eq_some_iff.mp h).1
    rw [length_singleton] at hzero
    obtain rfl : row = (OutputRows.start.write chars).closed.length := by omega
    rw [Nat.sub_self] at h
    cases h
    rw [hmarks.fed]
    exact hmarks.last

end

theorem rows_reached (text : List Char) : ∀ r, (∃ read c rest, text = read ++ c :: rest ∧
    read.count '\n' = r) ↔ r < lineTotal (rowsIn text) := by
  induction text using SplitRows.rows_induction '\n' with
  | last row hrow =>
    intro r
    rw [rowsIn_row hrow]
    cases row with
    | nil =>
      refine ⟨fun ⟨read, c, rest, heq, _⟩ => ?_, fun h => absurd h (not_lt_zero r)⟩
      cases (append_eq_nil_iff.mp heq.symm).2
    | cons c row =>
      rw [show lineTotal [c :: row] = 1 from rfl, lt_one_iff]
      constructor
      · rintro ⟨read, d, rest, heq, rfl⟩
        rw [heq, mem_append, not_or] at hrow
        exact count_eq_zero_of_not_mem hrow.1
      · rintro rfl
        exact ⟨[], c, row, rfl, rfl⟩
  | step row rest hrow ih =>
    intro r
    have htotal : lineTotal (row :: rowsIn rest) = lineTotal (rowsIn rest) + 1 := by
      obtain ⟨first, more, hrows⟩ := exists_cons_of_ne_nil (rowsIn_ne_nil rest)
      rw [hrows]
      simp only [lineTotal, getLast?_cons_cons, length_cons]
      split <;> omega
    rw [rowsIn_line hrow, htotal]
    constructor
    · rintro ⟨read, d, back, heq, rfl⟩
      rcases append_eq_append_iff.mp heq with ⟨more, rfl, hmore⟩ | ⟨more, hread, -⟩
      · cases more with
        | nil =>
          rw [append_nil, count_eq_zero_of_not_mem hrow]
          exact succ_pos _
        | cons e more =>
          obtain ⟨rfl, hback⟩ := cons.inj hmore
          have hless := (ih _).mp ⟨more, d, back, hback, rfl⟩
          rw [count_append, count_eq_zero_of_not_mem hrow, count_cons_self]
          omega
      · rw [hread, mem_append, not_or] at hrow
        rw [count_eq_zero_of_not_mem hrow.1]
        exact succ_pos _
    · intro hr
      cases r with
      | zero =>
        cases row with
        | nil => exact ⟨[], '\n', rest, rfl, rfl⟩
        | cons c row => exact ⟨[], c, row ++ '\n' :: rest, rfl, rfl⟩
      | succ r =>
        obtain ⟨read, d, back, rfl, rfl⟩ := (ih r).mpr (lt_of_succ_lt_succ hr)
        refine ⟨row ++ '\n' :: read, d, back, by simp, ?_⟩
        rw [count_append, count_eq_zero_of_not_mem hrow, count_cons_self, zero_add]

section
variable {chars before after : List Marked} {k row : ℕ}

structure Placed (chars : List Marked) (k : ℕ) (text : List Char) (before after : List Marked) :
    Prop where
  split : chars = before ++ (text.map (some k, ·) ++ after)
  before : ∀ x ∈ before, x.1 ≠ some k
  after : ∀ x ∈ after, x.1 ≠ some k

theorem holdsText_block (text : List Char) :
    HoldsText (text.map (some k, ·)) k row ↔ row < lineTotal (rowsIn text) := by
  have hfeeds : ∀ read : List Char, lineFeeds (read.map (some k, ·)) = read.count '\n' := by
    intro read
    rw [lineFeeds, List.map_map, show (Prod.snd ∘ fun c : Char => (some k, c)) = id from rfl,
      List.map_id]
  rw [← rows_reached]
  constructor
  · rintro ⟨read, c, rest, heq, rfl⟩
    obtain ⟨read, back, rfl, rfl, hback⟩ := map_eq_append_iff.mp heq
    obtain ⟨d, rest, rfl, -, -⟩ := map_eq_cons_iff.mp hback
    exact ⟨read, d, rest, rfl, (hfeeds read).symm⟩
  · rintro ⟨read, c, rest, rfl, rfl⟩
    exact ⟨read.map (some k, ·), c, rest.map (some k, ·), by simp, (hfeeds read).symm⟩

theorem Placed.holdsText_iff {text : List Char} (h : Placed chars k text before after) :
    HoldsText chars k row ↔
      lineFeeds before ≤ row ∧ row < lineFeeds before + lineTotal (rowsIn text) := by
  rw [h.split]
  simp only [holdsText_append]
  constructor
  · rintro (hin | ⟨below, hin | ⟨lower, hin, -⟩, rfl⟩)
    · exact absurd hin (not_holdsText h.before)
    · rw [holdsText_block] at hin
      exact ⟨le_add_right _ _, Nat.add_lt_add_left hin _⟩
    · exact absurd hin (not_holdsText h.after)
  · rintro ⟨hle, hlt⟩
    exact .inr ⟨row - lineFeeds before, .inl ((holdsText_block text).mpr (by omega)), by omega⟩

end

def Hull (rows : ℕ → Prop) : Option Conflict.TextRange → Prop
  | none => ∀ row, ¬rows row
  | some range => rows range.start ∧ (∃ last, rows last ∧ range.stop = last + 1) ∧
      ∀ row, rows row → range.start ≤ row ∧ row < range.stop

def InRange (range : Conflict.TextRange) (row : ℕ) : Prop := range.start ≤ row ∧ row < range.stop

section
variable {segments : List ConflictSegment} {x : Marked} {k n : ℕ}

theorem marked_from : ∀ {segments : List ConflictSegment} {n}, x ∈ marked n segments →
    x.1 = some k → n ≤ k ∧ k < n + conflictCount segments
  | [], n, h, _ => by cases h
  | .text content :: segments, n, h, hx => by
    rcases mem_append.mp h with hin | hin
    · obtain ⟨c, -, rfl⟩ := mem_map.mp hin
      cases hx
    · have hrest := marked_from hin hx
      exact hrest
  | .block block :: segments, n, h, hx => by
    have hcount : conflictCount (.block block :: segments) = conflictCount segments + 1 := rfl
    rcases mem_append.mp h with hin | hin
    · obtain ⟨c, -, rfl⟩ := mem_map.mp hin
      cases hx
      omega
    · have := marked_from hin hx
      omega

theorem marked_order : ∀ (segments : List ConflictSegment) n, InBlockOrder (marked n segments)
  | [], n => .nil
  | .text content :: segments, n => by
    refine pairwise_append.mpr ⟨?_, marked_order segments n, fun x hx y _ j k hj => ?_⟩
    · refine pairwise_map.mpr (pairwise_of_forall fun c d j k hj => ?_)
      cases hj
    · obtain ⟨c, -, rfl⟩ := mem_map.mp hx
      cases hj
  | .block block :: segments, n => by
    refine pairwise_append.mpr
      ⟨?_, marked_order segments (n + 1), fun x hx y hy j k hj hk => ?_⟩
    · refine pairwise_map.mpr (pairwise_of_forall fun c d j k hj hk => ?_)
      exact (some.inj (hj.symm.trans hk)).le
    · obtain ⟨c, -, rfl⟩ := mem_map.mp hx
      cases hj
      have := marked_from hy hk
      omega

theorem marked_placed : ∀ (segments : List ConflictSegment) n k,
    (∀ x ∈ marked n segments, x.1 ≠ some k) ∨
      ∃ text before after, Placed (marked n segments) k text before after
  | [], n, k => .inl fun x hx => (by cases hx)
  | .text content :: segments, n, k => by
    have hplain : ∀ x ∈ content.map ((none : Option ℕ), ·), x.1 ≠ some k := by
      rintro x hx
      obtain ⟨c, -, rfl⟩ := mem_map.mp hx
      exact some_ne_none k |>.symm
    rcases marked_placed segments n k with hfree | ⟨text, before, after, hplaced⟩
    · exact .inl fun x hx => (mem_append.mp hx).elim (hplain x) (hfree x)
    · refine .inr ⟨text, content.map (none, ·) ++ before, after, ?_, fun x hx => ?_, hplaced.after⟩
      · rw [marked, hplaced.split, append_assoc]
      · exact (mem_append.mp hx).elim (hplain x) (hplaced.before x)
  | .block block :: segments, n, k => by
    by_cases hk : n = k
    · subst hk
      refine .inr ⟨block.generated, [], marked (n + 1) segments, rfl, fun x hx => (by cases hx),
        fun x hx he => ?_⟩
      have := marked_from hx he
      omega
    · have hother : ∀ x ∈ block.generated.map (some n, ·), x.1 ≠ some k := by
        rintro x hx
        obtain ⟨c, -, rfl⟩ := mem_map.mp hx
        exact fun he => hk (some.inj he)
      rcases marked_placed segments (n + 1) k with hfree | ⟨text, before, after, hplaced⟩
      · exact .inl fun x hx => (mem_append.mp hx).elim (hother x) (hfree x)
      · refine .inr ⟨text, block.generated.map (some n, ·) ++ before, after, ?_, fun x hx => ?_,
          hplaced.after⟩
        · rw [marked, hplaced.split, append_assoc]
        · exact (mem_append.mp hx).elim (hother x) (hplaced.before x)

theorem marked_texts : ∀ (segments : List ConflictSegment) n,
    (marked n segments).map Prod.snd = generateResolvedText segments
  | [], n => rfl
  | .text content :: segments, n => by
    rw [marked, map_append, marked_texts segments n, List.map_map]
    exact congrArg (· ++ _) (map_id _)
  | .block block :: segments, n => by
    rw [marked, map_append, marked_texts segments (n + 1), List.map_map]
    exact congrArg (· ++ _) (map_id _)

theorem HoldsText.between {chars : List Marked} {a b row : ℕ}
    (hchars : chars = marked n segments) (ha : HoldsText chars k a) (hb : HoldsText chars k b)
    (hle : a ≤ row) (hlt : row ≤ b) : HoldsText chars k row := by
  rcases marked_placed segments n k with hfree | ⟨text, before, after, hplaced⟩
  · exact absurd (hchars ▸ ha) (not_holdsText hfree)
  · rw [← hchars] at hplaced
    rw [hplaced.holdsText_iff] at ha hb ⊢
    omega

theorem hulls_exact_iff {slots : ℕ → Option Conflict.TextRange} {anchors : ℕ → ℕ}
    (hhull : ∀ k < conflictCount segments, Hull (Leads (marked 0 segments) k) (slots k)) :
    (∀ k < conflictCount segments, ∀ row,
      InRange ((slots k).getD ⟨anchors k, anchors k⟩) row ↔ HoldsText (marked 0 segments) k row) ↔
        RowsApart (marked 0 segments) := by
  have horder := marked_order segments 0
  have hnumber : ∀ {k row}, HoldsText (marked 0 segments) k row → k < conflictCount segments := by
    rintro k row ⟨read, c, rest, hchars, -⟩
    have hmem : (some k, c) ∈ marked 0 segments := by rw [hchars]; simp
    have := marked_from hmem rfl
    omega
  constructor
  · intro hexact
    have hless : ∀ row j k, HoldsText (marked 0 segments) j row →
        HoldsText (marked 0 segments) k row → ¬j < k := by
      intro row j k hj hk hlt
      have hnot : ¬Leads (marked 0 segments) k row := fun hleads =>
        absurd (hleads.least j hj) (Nat.not_le_of_lt hlt)
      have hin := (hexact k (hnumber hk) row).mpr hk
      have hslot := hhull k (hnumber hk)
      cases hslotk : slots k with
      | none =>
        rw [hslotk] at hin
        obtain ⟨hlow, hhigh⟩ := hin
        exact absurd hhigh (Nat.not_lt_of_le hlow)
      | some range =>
        rw [hslotk] at hin hslot
        obtain ⟨hlow, -⟩ := hin
        have hfirst : range.start < row := by
          refine lt_of_le_of_ne hlow fun he => hnot ?_
          rw [← he]
          exact hslot.1
        exact absurd (hslot.1.holds.ordered hj horder hfirst) (Nat.not_le_of_lt hlt)
    intro row j k hj hk
    exact le_antisymm (Nat.le_of_not_lt (hless row k j hk hj))
      (Nat.le_of_not_lt (hless row j k hj hk))
  · intro hapart k hk row
    have hleads : ∀ {row}, HoldsText (marked 0 segments) k row →
        Leads (marked 0 segments) k row := fun hrow =>
      ⟨hrow, fun j hj => (hapart _ j k hj hrow).ge⟩
    have hslot := hhull k hk
    cases hslotk : slots k with
    | none =>
      rw [hslotk] at hslot
      refine iff_of_false (fun hin => ?_) fun hrow => hslot row (hleads hrow)
      obtain ⟨hlow, hhigh⟩ := hin
      exact absurd hhigh (Nat.not_lt_of_le hlow)
    | some range =>
      rw [hslotk] at hslot
      obtain ⟨hfirst, ⟨last, hlast, hstop⟩, hall⟩ := hslot
      refine ⟨fun hin => ?_, fun hrow => hall row (hleads hrow)⟩
      obtain ⟨hlow, hhigh⟩ := hin
      rw [getD_some] at hlow hhigh
      exact HoldsText.between rfl hfirst.holds hlast.holds hlow (by omega)

end

end GitComet.Resolver
