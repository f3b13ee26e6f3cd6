import GitComet.Merge.Alignment
import GitComet.Basis.Columns

namespace GitComet.Merge
open LinkedArena Text Columns List Option

def pairRun (count a b : ℕ) : List AlignedRow :=
  (range count).map fun i => pairRow (a + i) (b + i)

def singleRun (source : MergeSource) (count line : ℕ) : List AlignedRow :=
  (range count).map fun i => rowWith source (line + i)

def chunkGroup (chunk : PairChunk) (a b : ℕ) : List AlignedRow :=
  let paired := min chunk.left chunk.right
  pairRun paired a b ++ singleRun .a (chunk.left - paired) (a + paired) ++
    singleRun .b (chunk.right - paired) (b + paired)

def abRows : List PairChunk → ℕ → ℕ → List AlignedRow
  | [], _, _ => []
  | chunk :: chunks, a, b =>
    pairRun chunk.equal a b ++ chunkGroup chunk (a + chunk.equal) (b + chunk.equal) ++
      abRows chunks (a + chunk.equal + chunk.left) (b + chunk.equal + chunk.right)

theorem range_succ_map {β : Type} (f : ℕ → β) (n : ℕ) :
    (List.range (n + 1)).map f = f 0 :: (List.range n).map fun i => f (i + 1) := by
  rw [range_succ_eq_map, map_cons, List.map_map]
  rfl

theorem pairRun_succ (count a b : ℕ) :
    pairRun (count + 1) a b = pairRow a b :: pairRun count (a + 1) (b + 1) := by
  simp only [pairRun, range_succ_map, Nat.add_zero]
  refine congrArg _ (map_congr_left fun i _ => ?_)
  rw [Nat.add_comm i 1, Nat.add_assoc, Nat.add_assoc]

theorem singleRun_succ (source : MergeSource) (count line : ℕ) :
    singleRun source (count + 1) line =
      rowWith source line :: singleRun source count (line + 1) := by
  simp only [singleRun, range_succ_map, Nat.add_zero]
  refine congrArg _ (map_congr_left fun i _ => ?_)
  rw [Nat.add_comm i 1, Nat.add_assoc]

theorem singleRun_add (source : MergeSource) (m n line : ℕ) :
    singleRun source (m + n) line = singleRun source m line ++ singleRun source n (line + m) := by
  induction m generalizing line with
  | zero => simp [singleRun]
  | succ m ih =>
    rw [Nat.succ_add, singleRun_succ, ih, singleRun_succ, cons_append,
      Nat.add_right_comm line 1 m, Nat.add_assoc line m 1]

theorem pushPairs_spec (count : ℕ) : ∀ {a b : ℕ} {rows : RowList} {done : List AlignedRow},
    Represents rows none done [] → ∃ rows', pushPairs count a b rows = some rows' ∧
      Represents rows' none (done ++ pairRun count a b) [] := by
  induction count with
  | zero =>
    intro a b rows done h
    exact ⟨rows, rfl, by simpa [pairRun] using h⟩
  | succ count ih =>
    intro a b rows done h
    obtain ⟨rows1, id, hpush, h1⟩ := represents_push h (pairRow a b)
    obtain ⟨rows2, hrun, h2⟩ := ih (a := a + 1) (b := b + 1) h1
    refine ⟨rows2, ?_, by simpa [pairRun_succ] using h2⟩
    simp only [pushPairs, hpush, bind_eq_bind, bind_some]
    exact hrun

theorem pushSingles_spec (source : MergeSource) (count : ℕ) :
    ∀ {line : ℕ} {rows : RowList} {done : List AlignedRow}, Represents rows none done [] →
      ∃ rows', pushSingles source count line rows = some rows' ∧
        Represents rows' none (done ++ singleRun source count line) [] := by
  induction count with
  | zero =>
    intro line rows done h
    exact ⟨rows, rfl, by simpa [singleRun] using h⟩
  | succ count ih =>
    intro line rows done h
    obtain ⟨rows1, id, hpush, h1⟩ := represents_push h (rowWith source line)
    obtain ⟨rows2, hrun, h2⟩ := ih h1
    refine ⟨rows2, ?_, by simpa [singleRun_succ] using h2⟩
    simp only [pushSingles, hpush, bind_eq_bind, bind_some]
    exact hrun

theorem buildAb_spec (chunks : List PairChunk) : ∀ {a b : ℕ} {rows : RowList}
    {done : List AlignedRow}, Represents rows none done [] →
      ∃ rows', buildAb chunks a b rows = some rows' ∧
        Represents rows' none (done ++ abRows chunks a b) [] := by
  induction chunks with
  | nil =>
    intro a b rows done h
    exact ⟨rows, rfl, by simpa [abRows] using h⟩
  | cons chunk chunks ih =>
    intro a b rows done h
    obtain ⟨r1, e1, h1⟩ := pushPairs_spec chunk.equal (a := a) (b := b) h
    obtain ⟨r2, e2, h2⟩ := pushPairs_spec (min chunk.left chunk.right) (a := a + chunk.equal)
      (b := b + chunk.equal) h1
    obtain ⟨r3, e3, h3⟩ := pushSingles_spec .a (chunk.left - min chunk.left chunk.right) h2
    obtain ⟨r4, e4, h4⟩ := pushSingles_spec .b (chunk.right - min chunk.left chunk.right) h3
    obtain ⟨r5, e5, h5⟩ := ih (a := a + chunk.equal + chunk.left)
      (b := b + chunk.equal + chunk.right) h4
    refine ⟨r5, ?_, by simpa [abRows, chunkGroup, append_assoc] using h5⟩
    simp only [buildAb, e1, e2, e3, e4, bind_eq_bind, bind_some]
    exact e5

def splitAtLine (source : MergeSource) (line : ℕ) :
    List AlignedRow → Option (List AlignedRow × AlignedRow × List AlignedRow)
  | [] => none
  | row :: rows =>
    if row.line source = some line then some ([], row, rows)
    else (splitAtLine source line rows).map fun parts => (row :: parts.1, parts.2)

def zipEqual : ℕ → ℕ → ℕ → List AlignedRow → List AlignedRow →
    Option (List AlignedRow × List AlignedRow)
  | 0, _, _, done, rest => some (done, rest)
  | count + 1, a, c, done, rest => do
    let (pre, row, post) ← splitAtLine .a a rest
    zipEqual count (a + 1) (c + 1) (done ++ pre ++ [row.setLine .c (some c)]) post

def zipAc : List PairChunk → ℕ → ℕ → List AlignedRow → List AlignedRow →
    Option (List AlignedRow)
  | [], _, _, done, rest => some (done ++ rest)
  | chunk :: chunks, a, c, done, rest => do
    let (done, rest) ← zipEqual chunk.equal a c done rest
    zipAc chunks (a + chunk.equal + chunk.left) (c + chunk.equal + chunk.right)
      (done ++ singleRun .c chunk.right (c + chunk.equal)) rest

variable {source : MergeSource} {line : ℕ} {rows : List AlignedRow}

variable {row : AlignedRow}

theorem splitAtLine_some {pre post : List AlignedRow}
    (h : splitAtLine source line rows = some (pre, row, post)) :
    rows = pre ++ row :: post ∧ row.line source = some line ∧
      ∀ r ∈ pre, r.line source ≠ some line := by
  induction rows generalizing pre with
  | nil => simp [splitAtLine] at h
  | cons r rows ih =>
    simp only [splitAtLine] at h
    split at h
    · rename_i hr
      simp only [some.injEq, Prod.mk.injEq] at h
      obtain ⟨rfl, rfl, rfl⟩ := h
      exact ⟨rfl, hr, by simp⟩
    · rename_i hr
      obtain ⟨⟨pre', row', post'⟩, hsplit, hparts⟩ := map_eq_some_iff.mp h
      simp only [Prod.mk.injEq] at hparts
      obtain ⟨rfl, rfl, rfl⟩ := hparts
      obtain ⟨rfl, hrow, hpre⟩ := ih hsplit
      refine ⟨rfl, hrow, fun q hq => ?_⟩
      rcases mem_cons.mp hq with rfl | hq
      · exact hr
      · exact hpre q hq

theorem attachEqual_refines (count : ℕ) : ∀ {a c : ℕ} {rows : RowList} {cursor : Option ℕ}
    {done rest done' rest' : List AlignedRow}, Represents rows cursor done rest →
      zipEqual count a c done rest = some (done', rest') →
      ∃ rows' cursor', attachEqual count a c rows cursor = some (rows', cursor') ∧
        Represents rows' cursor' done' rest' := by
  induction count with
  | zero =>
    intro a c rows cursor done rest done' rest' h hz
    simp only [zipEqual, some.injEq, Prod.mk.injEq] at hz
    obtain ⟨rfl, rfl⟩ := hz
    exact ⟨rows, cursor, rfl, h⟩
  | succ count ih =>
    intro a c rows cursor done rest done' rest' h hz
    simp only [zipEqual, bind_eq_bind, bind_eq_some_iff] at hz
    obtain ⟨⟨pre, row, post⟩, hsplit, hz⟩ := hz
    obtain ⟨rfl, hrow, hpre⟩ := splitAtLine_some hsplit
    obtain ⟨id, rows1, hfind, hset, h1⟩ := represents_attach h hpre hrow
      fun row => row.setLine .c (some c)
    obtain ⟨rows2, cursor2, hrun, h2⟩ := ih h1 hz
    refine ⟨rows2, cursor2, ?_, h2⟩
    simp only [attachEqual, hfind, hset, bind_eq_bind, bind_some]
    exact hrun

theorem insertSingles_refines (source : MergeSource) (count : ℕ) :
    ∀ {l : ℕ} {rows : RowList} {cursor : Option ℕ} {done rest : List AlignedRow},
      Represents rows cursor done rest →
      ∃ rows', insertSingles source count l rows cursor = some rows' ∧
        Represents rows' cursor (done ++ singleRun source count l) rest := by
  induction count with
  | zero =>
    intro l rows cursor done rest h
    exact ⟨rows, rfl, by simpa [singleRun] using h⟩
  | succ count ih =>
    intro l rows cursor done rest h
    obtain ⟨rows1, id, hpush, h1⟩ := represents_insert h (rowWith source l)
    obtain ⟨rows2, hrun, h2⟩ := ih (l := l + 1) h1
    refine ⟨rows2, ?_, by simpa [singleRun_succ] using h2⟩
    simp only [insertSingles, hpush, bind_eq_bind, bind_some]
    exact hrun

theorem integrateAc_refines (chunks : List PairChunk) : ∀ {a c : ℕ} {rows : RowList}
    {cursor : Option ℕ} {done rest out : List AlignedRow}, Represents rows cursor done rest →
      zipAc chunks a c done rest = some out →
      ∃ rows' cursor' done' rest', integrateAc chunks a c rows cursor = some rows' ∧
        Represents rows' cursor' done' rest' ∧ done' ++ rest' = out := by
  induction chunks with
  | nil =>
    intro a c rows cursor done rest out h hz
    exact ⟨rows, cursor, done, rest, rfl, h, some.inj hz⟩
  | cons chunk chunks ih =>
    intro a c rows cursor done rest out h hz
    simp only [zipAc, bind_eq_bind, bind_eq_some_iff] at hz
    obtain ⟨⟨done1, rest1⟩, hequal, hz⟩ := hz
    obtain ⟨r1, cursor1, e1, h1⟩ := attachEqual_refines chunk.equal h hequal
    obtain ⟨r2, e2, h2⟩ := insertSingles_refines .c (min chunk.left chunk.right)
      (l := c + chunk.equal) h1
    obtain ⟨r3, e3, h3⟩ := insertSingles_refines .c (chunk.right - min chunk.left chunk.right) h2
    rw [append_assoc, ← singleRun_add, Nat.add_sub_cancel' (Nat.min_le_right _ _)] at h3
    obtain ⟨r4, cursor4, done4, rest4, e4, h4, hout⟩ := ih h3 hz
    refine ⟨r4, cursor4, done4, rest4, ?_, h4, hout⟩
    simp only [integrateAc, e1, e2, e3, bind_eq_bind, bind_some]
    exact e4

abbrev CoversLine (source : MergeSource) : List AlignedRow → ℕ → ℕ → Prop :=
  Covers fun row => row.line source

theorem coversLine_cons {lo hi : ℕ} (h : row.line source = some line) :
    CoversLine source (row :: rows) lo hi ↔
      line = lo ∧ lo < hi ∧ CoversLine source rows (lo + 1) hi :=
  covers_some_cons (f := fun row : AlignedRow => row.line source) h

structure AcInvariant (na nb a c : ℕ) (done rest : List AlignedRow) : Prop where
  base : ∃ start, start ≤ a ∧ CoversLine .a done 0 start ∧ CoversLine .a rest start na
  ours : CoversLine .b (done ++ rest) 0 nb
  theirs : CoversLine .c done 0 c
  pending : ∀ row ∈ rest, row.line .c = none

theorem covers_pairRun (count a b : ℕ) :
    CoversLine .a (pairRun count a b) a (a + count) ∧
      CoversLine .b (pairRun count a b) b (b + count) ∧
      ∀ row ∈ pairRun count a b, row.line .c = none := by
  induction count generalizing a b with
  | zero => exact ⟨covers_nil _ a, covers_nil _ b, by simp [pairRun]⟩
  | succ count ih =>
    obtain ⟨ha, hb, hc⟩ := ih (a + 1) (b + 1)
    rw [pairRun_succ]
    have hline : (pairRow a b).line .a = some a := rfl
    have hline' : (pairRow a b).line .b = some b := rfl
    refine ⟨(coversLine_cons hline).mpr ⟨rfl, by omega, ?_⟩,
      (coversLine_cons hline').mpr ⟨rfl, by omega, ?_⟩, ?_⟩
    · rwa [Nat.add_right_comm] at ha
    · rwa [Nat.add_right_comm] at hb
    · intro row hrow
      rcases mem_cons.mp hrow with rfl | hrow
      · rfl
      · exact hc row hrow

theorem line_rowWith (source t : MergeSource) (line : ℕ) :
    (rowWith source line).line t = if t = source then some line else none := by
  cases source <;> cases t <;> rfl

theorem covers_singleRun (source : MergeSource) (count line : ℕ) :
    CoversLine source (singleRun source count line) line (line + count) := by
  induction count generalizing line with
  | zero => exact covers_nil _ line
  | succ count ih =>
    rw [singleRun_succ]
    refine (coversLine_cons (by rw [line_rowWith, if_pos rfl])).mpr ⟨rfl, by omega, ?_⟩
    have h := ih (line + 1)
    rwa [Nat.add_right_comm] at h

theorem singleRun_other {s t : MergeSource} (h : t ≠ s) (count line : ℕ) :
    ∀ row ∈ singleRun s count line, row.line t = none := by
  intro row hrow
  obtain ⟨i, -, rfl⟩ := mem_map.mp hrow
  rw [line_rowWith, if_neg h]

theorem covers_chunkGroup (chunk : PairChunk) (a b : ℕ) :
    CoversLine .a (chunkGroup chunk a b) a (a + chunk.left) ∧
      CoversLine .b (chunkGroup chunk a b) b (b + chunk.right) ∧
      ∀ row ∈ chunkGroup chunk a b, row.line .c = none := by
  obtain ⟨ha, hb, hc⟩ := covers_pairRun (min chunk.left chunk.right) a b
  have hl := Nat.min_le_left chunk.left chunk.right
  have hr := Nat.min_le_right chunk.left chunk.right
  have ha' := covers_singleRun .a (chunk.left - min chunk.left chunk.right)
    (a + min chunk.left chunk.right)
  have hb' := covers_singleRun .b (chunk.right - min chunk.left chunk.right)
    (b + min chunk.left chunk.right)
  rw [Nat.add_assoc, Nat.add_sub_cancel' hl] at ha'
  rw [Nat.add_assoc, Nat.add_sub_cancel' hr] at hb'
  have hab := covers_none (singleRun_other (s := .b) (t := .a) (by decide)
    (chunk.right - min chunk.left chunk.right) (b + min chunk.left chunk.right)) (a + chunk.left)
  have hba := covers_none (singleRun_other (s := .a) (t := .b) (by decide)
    (chunk.left - min chunk.left chunk.right) (a + min chunk.left chunk.right))
    (b + min chunk.left chunk.right)
  refine ⟨(ha.append ha').append hab, (hb.append hba).append hb', ?_⟩
  intro row hrow
  simp only [chunkGroup, mem_append] at hrow
  rcases hrow with (hrow | hrow) | hrow
  · exact hc row hrow
  · exact singleRun_other (by decide) _ _ row hrow
  · exact singleRun_other (by decide) _ _ row hrow

theorem covers_abRows (chunks : List PairChunk) : ∀ a b : ℕ,
    CoversLine .a (abRows chunks a b) a (a + leftSpan chunks) ∧
      CoversLine .b (abRows chunks a b) b (b + rightSpan chunks) ∧
      ∀ row ∈ abRows chunks a b, row.line .c = none := by
  induction chunks with
  | nil => exact fun a b => ⟨covers_nil _ a, covers_nil _ b, by simp [abRows]⟩
  | cons chunk chunks ih =>
    intro a b
    obtain ⟨ha, hb, hc⟩ := covers_pairRun chunk.equal a b
    obtain ⟨ha', hb', hc'⟩ := covers_chunkGroup chunk (a + chunk.equal) (b + chunk.equal)
    obtain ⟨ha'', hb'', hc''⟩ := ih (a + chunk.equal + chunk.left) (b + chunk.equal + chunk.right)
    have hsum : a + leftSpan (chunk :: chunks) =
        a + chunk.equal + chunk.left + leftSpan chunks := by
      simp only [leftSpan, map_cons, sum_cons]
      omega
    have hsum' : b + rightSpan (chunk :: chunks) =
        b + chunk.equal + chunk.right + rightSpan chunks := by
      simp only [rightSpan, map_cons, sum_cons]
      omega
    rw [hsum, hsum']
    refine ⟨(ha.append ha').append ha'', (hb.append hb').append hb'', ?_⟩
    intro row hrow
    simp only [abRows, mem_append] at hrow
    rcases hrow with (hrow | hrow) | hrow
    · exact hc row hrow
    · exact hc' row hrow
    · exact hc'' row hrow

theorem splitAtLine_exists (h : ∃ row ∈ rows, row.line source = some line) :
    ∃ pre row post, splitAtLine source line rows = some (pre, row, post) := by
  induction rows with
  | nil => simp at h
  | cons row rows ih =>
    simp only [splitAtLine]
    by_cases hrow : row.line source = some line
    · exact ⟨[], row, rows, if_pos hrow⟩
    · obtain ⟨found, hmem, hfound⟩ := h
      rcases mem_cons.mp hmem with rfl | hmem
      · exact absurd hfound hrow
      · obtain ⟨pre, x, post, hsplit⟩ := ih ⟨found, hmem, hfound⟩
        exact ⟨row :: pre, x, post, by rw [if_neg hrow, hsplit]; rfl⟩

variable {na nb a c : ℕ} {done rest : List AlignedRow}

theorem zipEqual_step (h : AcInvariant na nb a c done rest) (ha : a < na) :
    ∃ pre row post, splitAtLine .a a rest = some (pre, row, post) ∧
      AcInvariant na nb (a + 1) (c + 1) (done ++ pre ++ [row.setLine .c (some c)]) post := by
  obtain ⟨start, hstart, hdone, hrest⟩ := h.base
  obtain ⟨pre, row, post, hsplit⟩ := splitAtLine_exists ((covers_mem hrest).mpr ⟨hstart, ha⟩)
  obtain ⟨rfl, hrow, -⟩ := splitAtLine_some hsplit
  obtain ⟨hpre, -, hpost⟩ := hrest.split hrow
  have hlast : ∀ t, t ≠ .c → (row.setLine .c (some c)).line t = row.line t :=
    fun t ht => line_setLine_ne row _ ht
  refine ⟨pre, row, post, hsplit, ⟨a + 1, Nat.le_refl _, ?_, hpost⟩, ?_, ?_, ?_⟩
  · refine (hdone.append hpre).append ((coversLine_cons ?_).mpr ⟨rfl, Nat.lt_succ_self a,
      covers_nil _ _⟩)
    rw [hlast .a (by decide), hrow]
  · have hours := h.ours
    refine ⟨hours.le, ?_⟩
    rw [← hours.eq]
    simp only [filterMap_append, append_assoc, cons_append, nil_append,
      filterMap_cons, hlast .b (by decide)]
  · have hnone := covers_none (f := fun row : AlignedRow => row.line .c) (s := pre)
      (fun r hr => h.pending r (mem_append_left _ hr)) c
    refine (h.theirs.append hnone).append ((coversLine_cons ?_).mpr ⟨rfl, Nat.lt_succ_self c,
      covers_nil _ _⟩)
    exact line_setLine_self row .c (some c)
  · intro r hr
    exact h.pending r (mem_append_right _ (mem_cons_of_mem _ hr))

theorem zipEqual_spec (count : ℕ) : ∀ {na nb a c : ℕ} {done rest : List AlignedRow},
    AcInvariant na nb a c done rest → a + count ≤ na →
      ∃ done' rest', zipEqual count a c done rest = some (done', rest') ∧
        AcInvariant na nb (a + count) (c + count) done' rest' := by
  induction count with
  | zero => exact fun h _ => ⟨_, _, rfl, h⟩
  | succ count ih =>
    intro na nb a c done rest h hle
    obtain ⟨pre, row, post, hsplit, h1⟩ := zipEqual_step h (by omega)
    obtain ⟨done', rest', hrun, h2⟩ := ih h1 (by omega)
    refine ⟨done', rest', ?_, ?_⟩
    · simp only [zipEqual, hsplit, bind_eq_bind, bind_some]
      exact hrun
    · rwa [Nat.add_right_comm a, Nat.add_right_comm c] at h2

theorem acInvariant_insert (left right : ℕ) (h : AcInvariant na nb a c done rest) :
    AcInvariant na nb (a + left) (c + right) (done ++ singleRun .c right c) rest := by
  obtain ⟨start, hstart, hdone, hrest⟩ := h.base
  refine ⟨⟨start, by omega, ?_, hrest⟩, ?_, h.theirs.append (covers_singleRun .c right c),
    h.pending⟩
  · exact hdone.append (covers_none (singleRun_other (by decide) _ _) start)
  · obtain ⟨mid, hd, hr⟩ := covers_append_iff.mp h.ours
    exact (hd.append (covers_none (singleRun_other (by decide) _ _) mid)).append hr

theorem zipAc_spec (chunks : List PairChunk) : ∀ {na nb a c : ℕ} {done rest : List AlignedRow},
    AcInvariant na nb a c done rest → a + leftSpan chunks = na →
      ∃ out, zipAc chunks a c done rest = some out ∧ CoversLine .a out 0 na ∧
        CoversLine .b out 0 nb ∧ CoversLine .c out 0 (c + rightSpan chunks) := by
  induction chunks with
  | nil =>
    intro na nb a c done rest h hna
    obtain ⟨start, -, hdone, hrest⟩ := h.base
    exact ⟨done ++ rest, rfl, hdone.append hrest, h.ours, h.theirs.append (covers_none h.pending c)⟩
  | cons chunk chunks ih =>
    intro na nb a c done rest h hna
    simp only [leftSpan, map_cons, sum_cons] at hna
    obtain ⟨done', rest', hrun, h1⟩ := zipEqual_spec chunk.equal h (by omega)
    obtain ⟨out, hout, hcover⟩ := ih (acInvariant_insert chunk.left chunk.right h1) (by
      simp only [leftSpan]
      omega)
    refine ⟨out, ?_, ?_⟩
    · simp only [zipAc, hrun, bind_eq_bind, bind_some]
      exact hout
    · have hsum : c + rightSpan (chunk :: chunks) =
          c + chunk.equal + chunk.right + rightSpan chunks := by
        simp only [rightSpan, map_cons, sum_cons]
        omega
      rwa [hsum]

end GitComet.Merge
