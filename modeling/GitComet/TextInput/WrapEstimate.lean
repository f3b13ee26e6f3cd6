import Mathlib.Data.List.DropRight

namespace GitComet.TextInput
open List Option Nat

def textInputWrapTabStopColumns : ℕ := 4

structure WrapPoint where
  rows : ℕ
  column : ℕ
  deriving DecidableEq

-- `none` where a subtraction of the source would underflow.
def advanceAsciiSegment (p : WrapPoint) (segmentLen wrapColumns : ℕ) : Option WrapPoint :=
  if wrapColumns < p.column then none
  else
    let remaining := wrapColumns - p.column
    if segmentLen ≤ remaining then some ⟨p.rows, p.column + segmentLen⟩
    else
      let after := segmentLen - remaining
      some ⟨p.rows + (1 + after / wrapColumns), after % wrapColumns⟩

def advanceAsciiTabCommon (p : WrapPoint) (wrapColumns : ℕ) : Option WrapPoint :=
  let tabStop := textInputWrapTabStopColumns
  let tabWidth := tabStop - (p.column &&& (tabStop - 1))
  if wrapColumns < tabWidth then none
  else if wrapColumns - tabWidth < p.column then some ⟨p.rows + 1, tabWidth⟩
  else some ⟨p.rows, p.column + tabWidth⟩

def tabWidth (column : ℕ) : ℕ :=
  if column % textInputWrapTabStopColumns = 0 then textInputWrapTabStopColumns
  else textInputWrapTabStopColumns - column % textInputWrapTabStopColumns

def advanceWidth (wrapColumns width : ℕ) (p : WrapPoint) : WrapPoint :=
  if wrapColumns ≤ width then
    { rows := (if 0 < p.column then p.rows + 1 else p.rows) + width / wrapColumns
      column := if width % wrapColumns = 0 then wrapColumns else width % wrapColumns }
  else if wrapColumns < p.column + width then ⟨p.rows + 1, width⟩
  else ⟨p.rows, p.column + width⟩

def advanceAsciiTabGeneral (p : WrapPoint) (wrapColumns : ℕ) : WrapPoint :=
  advanceWidth wrapColumns (tabWidth p.column) p

def advanceChar (wrapColumns : ℕ) (p : WrapPoint) (ch : Char) : WrapPoint :=
  advanceWidth wrapColumns (if ch = '\t' then tabWidth p.column else 1) p

def characterLoop (wrapColumns : ℕ) (line : List Char) : WrapPoint :=
  line.foldl (advanceChar wrapColumns) ⟨1, 0⟩

def advanceAsciiTab (p : WrapPoint) (wrapColumns : ℕ) : Option WrapPoint :=
  if textInputWrapTabStopColumns < wrapColumns then advanceAsciiTabCommon p wrapColumns
  else some (advanceAsciiTabGeneral p wrapColumns)

def passSegment (p : WrapPoint) (seg wrapColumns : ℕ) : Option WrapPoint :=
  if 0 < seg then advanceAsciiSegment p seg wrapColumns else some p

-- The loop over the tabs: `seg` bytes lie between `pos` and the rest of the line.
def segmentLoop (wrapColumns : ℕ) : List Char → ℕ → WrapPoint → Option WrapPoint
  | [], trailing, p => passSegment p trailing wrapColumns
  | ch :: rest, seg, p =>
    if ch = '\t' then do
      let p ← passSegment p seg wrapColumns
      let p ← advanceAsciiTab p wrapColumns
      segmentLoop wrapColumns rest 0 p
    else segmentLoop wrapColumns rest (seg + 1) p

def estimateWrapRowsForLine (line : List Char) (wrapColumns : ℕ) : Option ℕ :=
  if line = [] then some 1
  else
    let wrapColumns := max wrapColumns 1
    if line.all fun c => decide (c.toNat < 128) then
      (segmentLoop wrapColumns line 0 ⟨1, 0⟩).map fun p => max p.rows 1
    else some (max (characterLoop wrapColumns line).rows 1)

variable {w n r : ℕ} {p : WrapPoint} {line : List Char}

theorem succ_div_mod (hw : 0 < w) (n : ℕ) :
    (n % w + 1 = w ∧ (n + 1) / w = n / w + 1 ∧ (n + 1) % w = 0) ∨
      (n % w + 1 < w ∧ (n + 1) / w = n / w ∧ (n + 1) % w = n % w + 1) := by
  have hmod := Nat.mod_lt n hw
  have hsplit := Nat.mod_add_div n w
  rcases Nat.lt_or_ge (n % w + 1) w with hlt | hge
  · refine Or.inr ⟨hlt, (Nat.div_mod_unique hw).mpr ⟨?_, hlt⟩⟩
    omega
  · refine Or.inl ⟨by omega, (Nat.div_mod_unique hw).mpr ⟨?_, hw⟩⟩
    rw [Nat.mul_succ]
    omega

theorem advanceWidth_one (hw : 1 < w) (r n : ℕ) :
    advanceWidth w 1 ⟨r + n / w, n % w + 1⟩ = ⟨r + (n + 1) / w, (n + 1) % w + 1⟩ := by
  rw [advanceWidth, if_neg (by omega)]
  rcases succ_div_mod (zero_lt_of_lt hw) n with ⟨hfull, hdiv, hmod⟩ | ⟨hroom, hdiv, hmod⟩
  · rw [if_pos (by simp only; omega), hdiv, hmod]
    rfl
  · rw [if_neg (by simp only; omega), hdiv, hmod]

theorem run_point (hw : 1 < w) (hcol : p.column ≤ w) {run : List Char} (hrun : '\t' ∉ run)
    (hne : run ≠ []) : run.foldl (advanceChar w) p =
      ⟨p.rows + (p.column + run.length - 1) / w, (p.column + run.length - 1) % w + 1⟩ := by
  induction run using reverseRecOn with
  | nil => exact absurd rfl hne
  | append_singleton front c ih =>
    rw [mem_append, not_or, List.mem_singleton] at hrun
    rw [foldl_append, foldl_cons, foldl_nil, advanceChar, if_neg (Ne.symm hrun.2), length_append,
      length_singleton]
    by_cases hfront : front = []
    · subst hfront
      obtain ⟨rows, column⟩ := p
      cases column with
      | zero =>
        rw [foldl_nil, advanceWidth, if_neg (by omega), if_neg (by simp only; omega)]
        simp
      | succ column =>
        have hstep := advanceWidth_one hw rows column
        rw [div_eq_of_lt hcol, mod_eq_of_lt hcol] at hstep
        exact hstep
    · have hpos := length_pos_of_ne_nil hfront
      rw [ih hrun.1 hfront, advanceWidth_one hw]
      have hsum : p.column + front.length - 1 + 1 = p.column + (front.length + 1) - 1 := by omega
      rw [hsum]

def Fills (w column len : ℕ) : Prop := w < column + len ∧ (column + len) % w = 0

instance decidableFills (w column len : ℕ) : Decidable (Fills w column len) :=
  inferInstanceAs (Decidable (_ ∧ _))

theorem passSegment_run (hcol : p.column ≤ w) {run : List Char} (hrun : '\t' ∉ run)
    (hwide : 1 < w ∨ run = []) :
    passSegment p run.length w =
      some (if Fills w p.column run.length then ⟨(run.foldl (advanceChar w) p).rows + 1, 0⟩
        else run.foldl (advanceChar w) p) := by
  by_cases hne : run = []
  · subst hne
    rw [if_neg fun h => absurd h.1 (by simp only [length_nil]; omega)]
    rfl
  · have hw := hwide.resolve_right hne
    have hpos := length_pos_of_ne_nil hne
    obtain ⟨n, hn⟩ : ∃ n, p.column + run.length = n + 1 := ⟨p.column + run.length - 1, by omega⟩
    rw [run_point hw hcol hrun hne, passSegment, if_pos hpos, advanceAsciiSegment,
      if_neg (by omega), hn, Nat.add_sub_cancel]
    rcases Nat.lt_or_ge w (n + 1) with hlong | hshort
    · have hafter : run.length - (w - p.column) = n + 1 - w := by omega
      have hdiv : 1 + (n + 1 - w) / w = (n + 1) / w := by
        rw [Nat.div_eq_sub_div (by omega) hlong.le, Nat.add_comm]
      have hmod := Nat.mod_eq_sub_mod hlong.le
      rw [if_neg (by omega), hafter]
      simp only [hdiv, ← hmod]
      rcases succ_div_mod (w := w) (by omega) n with ⟨-, hdiv, hmod⟩ | ⟨-, hdiv, hmod⟩
      · rw [if_pos ⟨hn ▸ hlong, hn ▸ hmod⟩, hdiv, hmod, Nat.add_assoc]
      · rw [if_neg fun h => absurd ((hn ▸ h.2).symm.trans hmod) (by omega), hdiv, hmod]
    · rw [if_pos (by omega), if_neg fun h => absurd (hn ▸ h.1) (by omega), Nat.div_eq_of_lt hshort,
        Nat.mod_eq_of_lt hshort]
      simp only [Nat.add_zero]

theorem filled_column (hcol : p.column ≤ w) {run : List Char} (hrun : '\t' ∉ run)
    (hwide : 1 < w ∨ run = []) (hfills : Fills w p.column run.length) :
    (run.foldl (advanceChar w) p).column = w := by
  obtain ⟨hlong, hfull⟩ := hfills
  have hne : run ≠ [] := by
    rintro rfl
    simp only [length_nil] at hlong
    omega
  have hw := hwide.resolve_right hne
  rw [run_point hw hcol hrun hne]
  obtain ⟨n, hn⟩ : ∃ n, p.column + run.length = n + 1 := ⟨p.column + run.length - 1, by omega⟩
  rw [hn] at hfull ⊢
  rcases succ_div_mod (w := w) (by omega) n with ⟨hend, -, -⟩ | ⟨-, -, hmod⟩
  · exact hend
  · exact absurd (hfull.symm.trans hmod) (by omega)

theorem tabWidth_bounds (column : ℕ) : 0 < tabWidth column ∧ tabWidth column ≤ 4 := by
  rw [tabWidth]
  split_ifs <;> simp only [textInputWrapTabStopColumns] at * <;> omega

theorem advanceWidth_column_le (hw : 0 < w) (width : ℕ) (p : WrapPoint) :
    (advanceWidth w width p).column ≤ w := by
  rw [advanceWidth]
  split
  · change (if width % w = 0 then w else width % w) ≤ w
    split
    · exact le_refl w
    · exact (mod_lt _ hw).le
  · split <;> simp only <;> omega

theorem advanceWidth_rows_le (w width : ℕ) (p : WrapPoint) :
    p.rows ≤ (advanceWidth w width p).rows := by
  rw [advanceWidth]
  split
  · change p.rows ≤ (if 0 < p.column then p.rows + 1 else p.rows) + width / w
    split
    · exact (le_succ _).trans (le_add_right _ _)
    · exact le_add_right _ _
  · split <;> simp only <;> omega

theorem characterLoop_column_le (hw : 0 < w) (line : List Char) :
    (characterLoop w line).column ≤ w := by
  induction line using reverseRecOn with
  | nil => exact zero_le w
  | append_singleton front c _ =>
    rw [characterLoop, foldl_append]
    exact advanceWidth_column_le hw _ _

theorem characterLoop_rows_pos (w : ℕ) (line : List Char) : 1 ≤ (characterLoop w line).rows := by
  induction line using reverseRecOn with
  | nil => exact le_refl 1
  | append_singleton front c ih =>
    rw [characterLoop, foldl_append]
    exact ih.trans (advanceWidth_rows_le _ _ _)

theorem advanceAsciiTab_eq (p : WrapPoint) (w : ℕ) :
    advanceAsciiTab p w = some (advanceChar w p '\t') := by
  have hbounds := tabWidth_bounds p.column
  have hmask : 4 - (p.column &&& (4 - 1)) = tabWidth p.column := by
    rw [show 4 - 1 = 2 ^ 2 - 1 from rfl, and_two_pow_sub_one_eq_mod, tabWidth]
    have hrem : p.column % textInputWrapTabStopColumns = p.column % 4 := rfl
    by_cases h : p.column % textInputWrapTabStopColumns = 0
    · rw [if_pos h, ← hrem, h, textInputWrapTabStopColumns]
    · rw [if_neg h, hrem, textInputWrapTabStopColumns]
  rw [advanceAsciiTab, advanceChar, if_pos rfl]
  split
  · rename_i hwide
    simp only [textInputWrapTabStopColumns] at hwide
    simp only [advanceAsciiTabCommon, textInputWrapTabStopColumns, hmask]
    rw [advanceWidth, if_neg (show ¬w < tabWidth p.column by omega),
      if_neg (show ¬w ≤ tabWidth p.column by omega)]
    by_cases hroom : w < p.column + tabWidth p.column
    · rw [if_pos hroom, if_pos (show w - tabWidth p.column < p.column by omega)]
    · rw [if_neg hroom, if_neg (show ¬w - tabWidth p.column < p.column by omega)]
  · rfl

theorem tab_settles (h : 4 ∣ w) (hw : 0 < w) (r : ℕ) :
    advanceChar w ⟨r + 1, 0⟩ '\t' = advanceChar w ⟨r, w⟩ '\t' := by
  obtain ⟨k, rfl⟩ := h
  have hwidth : tabWidth (4 * k) = tabWidth 0 := by
    rw [tabWidth, tabWidth, textInputWrapTabStopColumns, mul_mod_right]
  simp only [advanceChar, if_true, hwidth]
  rw [show tabWidth 0 = 4 from rfl, advanceWidth, advanceWidth]
  rcases lt_or_ge 4 (4 * k) with hwide | hnarrow
  · rw [if_neg (by omega), if_neg (by simp only; omega), if_neg (by omega),
      if_pos (by simp only; omega)]
  · rw [if_pos hnarrow, if_pos hnarrow, if_neg (by simp), if_pos hw]

theorem passSegment_total (hw : 0 < w) (hcol : p.column ≤ w) (seg : ℕ) :
    ∃ q, passSegment p seg w = some q ∧ q.column ≤ w := by
  rw [passSegment, advanceAsciiSegment, if_neg (show ¬w < p.column by omega)]
  split
  · simp only
    split
    · exact ⟨_, rfl, by simp only; omega⟩
    · exact ⟨_, rfl, (mod_lt _ hw).le⟩
  · exact ⟨p, rfl, hcol⟩

theorem segmentLoop_total (hw : 0 < w) (rest : List Char) : ∀ {seg : ℕ} {p : WrapPoint},
    p.column ≤ w → ∃ q, segmentLoop w rest seg p = some q ∧ q.column ≤ w := by
  induction rest with
  | nil => exact fun hcol => passSegment_total hw hcol _
  | cons ch rest ih =>
    intro seg p hcol
    rw [segmentLoop]
    split
    · obtain ⟨q, hq, hle⟩ := passSegment_total hw hcol seg
      simp only [hq, advanceAsciiTab_eq, bind_eq_bind, bind_some]
      exact ih (advanceWidth_column_le hw _ _)
    · exact ih hcol

def Starts (before : List Char) : Prop := before = [] ∨ before.getLast? = some '\t'

structure Calm (w : ℕ) (line : List Char) : Prop where
  wide : 1 < w ∨ ∀ c ∈ line, c = '\t'
  inner : ∀ before run after, line = before ++ run ++ '\t' :: after → Starts before →
    '\t' ∉ run → 4 ∣ w ∨ ¬Fills w (characterLoop w before).column run.length

theorem Calm.run_wide (h : Calm w line) {run : List Char} (hsub : run ⊆ line) (hrun : '\t' ∉ run) :
    1 < w ∨ run = [] := by
  rcases h.wide with hw | htabs
  · exact Or.inl hw
  · refine Or.inr (eq_nil_iff_forall_not_mem.mpr fun c hc => hrun ?_)
    rwa [← htabs c (hsub hc)]

def LastFills (w : ℕ) (line : List Char) : Prop :=
  ∃ before run, line = before ++ run ∧ Starts before ∧ '\t' ∉ run ∧
    Fills w (characterLoop w before).column run.length

theorem starts_tail {before late : List Char} (h : Starts (before ++ late)) (hlate : '\t' ∉ late) :
    late = [] := by
  by_contra hne
  rcases h with hnil | hlast
  · exact hne (append_eq_nil_iff.mp hnil).2
  · rw [getLast?_append_of_ne_nil _ hne] at hlast
    exact hlate (mem_of_getLast? hlast)

theorem last_run {before run before' run' : List Char} (h : before ++ run = before' ++ run')
    (hbefore : Starts before) (hrun : '\t' ∉ run) (hbefore' : Starts before')
    (hrun' : '\t' ∉ run') : before = before' ∧ run = run' := by
  rcases append_eq_append_iff.mp h with ⟨late, rfl, rfl⟩ | ⟨late, rfl, rfl⟩
  · obtain rfl := starts_tail hbefore' fun hmem => hrun (mem_append_left _ hmem)
    exact ⟨(append_nil _).symm, nil_append _⟩
  · obtain rfl := starts_tail hbefore fun hmem => hrun' (mem_append_left _ hmem)
    exact ⟨append_nil _, (nil_append _).symm⟩

theorem segmentLoop_run (hw : 0 < w) (rest : List Char) : ∀ {before run : List Char},
    Calm w (before ++ run ++ rest) → Starts before → '\t' ∉ run →
    ∃ q, segmentLoop w rest run.length (characterLoop w before) = some q ∧
      (LastFills w (before ++ run ++ rest) →
        q.rows = (characterLoop w (before ++ run ++ rest)).rows + 1) ∧
      (¬LastFills w (before ++ run ++ rest) → q = characterLoop w (before ++ run ++ rest)) := by
  induction rest with
  | nil =>
    intro before run hcalm hbefore hrun
    rw [append_nil] at hcalm ⊢
    have hlast : LastFills w (before ++ run) ↔
        Fills w (characterLoop w before).column run.length := by
      refine ⟨fun ⟨before', run', heq, hbefore', hrun', hfills⟩ => ?_, fun hfills =>
        ⟨before, run, rfl, hbefore, hrun, hfills⟩⟩
      obtain ⟨rfl, rfl⟩ := last_run heq hbefore hrun hbefore' hrun'
      exact hfills
    have hwide := hcalm.run_wide (subset_append_right _ _) hrun
    have hloop : characterLoop w (before ++ run) =
        run.foldl (advanceChar w) (characterLoop w before) := foldl_append
    rw [segmentLoop, passSegment_run (characterLoop_column_le hw before) hrun hwide, hlast, hloop]
    refine ⟨_, rfl, fun hfills => ?_, fun hfills => ?_⟩
    · rw [if_pos hfills]
    · rw [if_neg hfills]
  | cons ch rest ih =>
    intro before run hcalm hbefore hrun
    rw [segmentLoop]
    split
    · rename_i htab
      subst htab
      have hwide := hcalm.run_wide (by simp) hrun
      have hcol := characterLoop_column_le hw before
      have htab : before ++ run ++ '\t' :: rest = before ++ run ++ ['\t'] ++ [] ++ rest := by simp
      have hnext : ∀ q, passSegment (characterLoop w before) run.length w = some q →
          advanceAsciiTab q w = some (characterLoop w (before ++ run ++ ['\t'])) := by
        intro q hq
        have hrunLoop : run.foldl (advanceChar w) (characterLoop w before) =
            characterLoop w (before ++ run) := foldl_append.symm
        have htabLoop : characterLoop w (before ++ run ++ ['\t']) =
            advanceChar w (characterLoop w (before ++ run)) '\t' := foldl_append
        rw [passSegment_run hcol hrun hwide, some.injEq] at hq
        rw [← hq, htabLoop]
        split
        · rename_i hfills
          have hfour := (hcalm.inner before run rest rfl hbefore hrun).resolve_right
            (not_not.mpr hfills)
          have hfull := filled_column hcol hrun hwide hfills
          rw [hrunLoop] at hfull
          have hpoint : WrapPoint.mk (characterLoop w (before ++ run)).rows w =
              characterLoop w (before ++ run) := congrArg (WrapPoint.mk _) hfull.symm
          rw [advanceAsciiTab_eq, tab_settles hfour hw, hrunLoop, hpoint]
        · rw [hrunLoop, advanceAsciiTab_eq]
      obtain ⟨q, hq, -⟩ := passSegment_total hw hcol run.length
      simp only [hq, hnext q hq, bind_eq_bind, bind_some]
      rw [htab] at hcalm ⊢
      exact ih hcalm (Or.inr getLast?_concat) not_mem_nil
    · rename_i htab
      have hmore : before ++ run ++ ch :: rest = before ++ (run ++ [ch]) ++ rest := by simp
      rw [hmore] at hcalm ⊢
      have hlen : run.length + 1 = (run ++ [ch]).length := by simp
      rw [hlen]
      exact ih hcalm hbefore (by simp [hrun, Ne.symm htab])

structure EstimatesAgree (w : ℕ) (line : List Char) : Prop where
  rows : estimateWrapRowsForLine line w = some (max (characterLoop w line).rows 1)
  untabbed : '\t' ∉ line →
    estimateWrapRowsForLine line w = some (max 1 ((line.length + w - 1) / w))
  columns : ∀ front, front <+: line →
    ∃ q, segmentLoop w front 0 ⟨1, 0⟩ = some q ∧ q.column ≤ w

theorem untabbed_rows (hw : 1 < w) (h : '\t' ∉ line) :
    (characterLoop w line).rows = max 1 ((line.length + w - 1) / w) := by
  by_cases hne : line = []
  · subst hne
    rw [length_nil, div_eq_of_lt (by omega)]
    rfl
  · have hpos := length_pos_of_ne_nil hne
    have hsum : line.length + w - 1 = line.length - 1 + w := by omega
    rw [characterLoop, run_point hw (zero_le w) h hne, hsum, add_div_right _ (by omega)]
    simp only [Nat.zero_add]
    rw [max_eq_right (le_add_left 1 _), Nat.add_comm]

theorem wrap_estimates_agree_iff (hascii : ∀ c ∈ line, c.toNat < 128) (hw : 0 < w)
    (hcalm : Calm w line) : EstimatesAgree w line ↔ ¬LastFills w line := by
  obtain ⟨q, hq, hfills, hplain⟩ := segmentLoop_run hw line
    (show Calm w ([] ++ [] ++ line) from hcalm) (Or.inl rfl) not_mem_nil
  simp only [nil_append] at hfills hplain
  have hpos := characterLoop_rows_pos w line
  have hestimate : line ≠ [] → estimateWrapRowsForLine line w = some (max q.rows 1) := by
    intro hne
    rw [estimateWrapRowsForLine, if_neg hne]
    simp only [max_eq_left (show 1 ≤ w from hw)]
    rw [if_pos (by simpa using hascii), show segmentLoop w line 0 ⟨1, 0⟩ = some q from hq]
    rfl
  constructor
  · intro hagree hlast
    have hne : line ≠ [] := by
      rintro rfl
      obtain ⟨before, run, heq, -, -, hlong, -⟩ := hlast
      obtain ⟨rfl, rfl⟩ := append_eq_nil_iff.mp heq.symm
      exact absurd hlong (not_lt_zero w)
    have hrows := hagree.rows
    rw [hestimate hne, hfills hlast, some.injEq] at hrows
    omega
  · intro hlast
    have hrows : estimateWrapRowsForLine line w = some (max (characterLoop w line).rows 1) := by
      by_cases hne : line = []
      · rw [hne]
        rfl
      · rw [hestimate hne, hplain hlast]
    refine ⟨hrows, fun htab => ?_, fun front _ => segmentLoop_total hw front (zero_le w)⟩
    rw [hrows, some.injEq]
    by_cases hne : line = []
    · rw [hne, length_nil, Nat.zero_add, div_eq_of_lt (by omega)]
      rfl
    · have hwide := (hcalm.run_wide (Subset.refl line) htab).resolve_right hne
      rw [untabbed_rows hwide htab]
      omega

theorem padded_cell_estimates_agree : 0 < 8 ∧ (∀ c ∈ ['a', '\t', 'b'], c.toNat < 128) ∧
    Calm 8 ['a', '\t', 'b'] ∧
    (EstimatesAgree 8 ['a', '\t', 'b'] ↔ ¬LastFills 8 ['a', '\t', 'b']) :=
  ⟨by decide, by simp, ⟨Or.inl (by decide), fun _ _ _ _ _ _ => Or.inl ⟨2, rfl⟩⟩,
    wrap_estimates_agree_iff (by simp) (by decide)
      ⟨Or.inl (by decide), fun _ _ _ _ _ _ => Or.inl ⟨2, rfl⟩⟩⟩

theorem two_full_rows_count_three :
    estimateWrapRowsForLine (replicate 8 'a') 4 = some 3 ∧
      max (characterLoop 4 (replicate 8 'a')).rows 1 = 2 ∧
      ¬EstimatesAgree 4 (replicate 8 'a') :=
  ⟨by decide, by decide, fun h => absurd h.rows (by decide)⟩

end GitComet.TextInput
