import GitComet.FileDiff.Replacement

namespace GitComet.FileDiff
open Slice Text List Nat Option

inductive PlanRun where
  | context (oldStart newStart len : ℕ)
  | remove (oldStart len : ℕ)
  | add (newStart len : ℕ)
  | modify (oldStart newStart len : ℕ)
  deriving DecidableEq

def PlanRun.rowLen : PlanRun → ℕ
  | .context _ _ len => len
  | .remove _ len => len
  | .add _ len => len
  | .modify _ _ len => len

def PlanRun.inlineRowLen : PlanRun → ℕ
  | .modify _ _ len => satMul len 2
  | run => run.rowLen

inductive PlanRow where
  | context (old new : ℕ)
  | remove (old : ℕ)
  | add (new : ℕ)
  | modify (old new : ℕ)
  deriving DecidableEq

def PlanRun.rows : PlanRun → List PlanRow
  | .context old new len => (range len).map fun i => .context (old + i) (new + i)
  | .remove old len => (range len).map fun i => .remove (old + i)
  | .add new len => (range len).map fun i => .add (new + i)
  | .modify old new len => (range len).map fun i => .modify (old + i) (new + i)

def PlanRow.oldLine : PlanRow → Option ℕ
  | .context old _ => some old
  | .remove old => some old
  | .add _ => none
  | .modify old _ => some old

def PlanRow.newLine : PlanRow → Option ℕ
  | .context _ new => some new
  | .remove _ => none
  | .add new => some new
  | .modify _ new => some new

def PlanRow.inlineRows : PlanRow → List PlanRow
  | .modify old new => [.remove old, .add new]
  | row => [row]

def planRows (runs : List PlanRun) : List PlanRow := runs.flatMap PlanRun.rows
def planInlineRows (runs : List PlanRun) : List PlanRow := (planRows runs).flatMap PlanRow.inlineRows

def mergeRun : PlanRun → PlanRun → Option PlanRun
  | .context lastOld lastNew lastLen, .context old new len =>
    if satAdd lastOld lastLen = old ∧ satAdd lastNew lastLen = new then
      some (.context lastOld lastNew (satAdd lastLen len))
    else none
  | .remove lastOld lastLen, .remove old len =>
    if satAdd lastOld lastLen = old then some (.remove lastOld (satAdd lastLen len)) else none
  | .add lastNew lastLen, .add new len =>
    if satAdd lastNew lastLen = new then some (.add lastNew (satAdd lastLen len)) else none
  | .modify lastOld lastNew lastLen, .modify old new len =>
    if satAdd lastOld lastLen = old ∧ satAdd lastNew lastLen = new then
      some (.modify lastOld lastNew (satAdd lastLen len))
    else none
  | _, _ => none

def pushPlanRun (runs : List PlanRun) (run : PlanRun) : List PlanRun :=
  if run.rowLen = 0 then runs
  else match runs.getLast? with
    | none => runs ++ [run]
    | some last => match mergeRun last run with
      | some merged => runs.dropLast ++ [merged]
      | none => runs ++ [run]

structure PlanState where
  runs : List PlanRun
  rowCount : ℕ
  inlineRowCount : ℕ

def PlanState.empty : PlanState := ⟨[], 0, 0⟩

def pushPlanRunWithCounts (st : PlanState) (run : PlanRun) : PlanState :=
  if run.rowLen = 0 then st
  else
    { runs := pushPlanRun st.runs run
      rowCount := satAdd st.rowCount run.rowLen
      inlineRowCount := satAdd st.inlineRowCount run.inlineRowLen }

section
variable {α : Type} {old new : List α}

structure Extent where
  old : ℕ
  new : ℕ

inductive Covers (x y : List α) : Extent → PlanRun → Extent → Prop
  | context (o n len : ℕ) : o + len ≤ x.length → n + len ≤ y.length →
      slice x o (o + len) = slice y n (n + len) →
      Covers x y ⟨o, n⟩ (.context o n len) ⟨o + len, n + len⟩
  | remove (o n len : ℕ) : o + len ≤ x.length →
      Covers x y ⟨o, n⟩ (.remove o len) ⟨o + len, n⟩
  | add (o n len : ℕ) : n + len ≤ y.length →
      Covers x y ⟨o, n⟩ (.add n len) ⟨o, n + len⟩
  | modify (o n len : ℕ) : o + len ≤ x.length → n + len ≤ y.length →
      Covers x y ⟨o, n⟩ (.modify o n len) ⟨o + len, n + len⟩

inductive Tiles (old new : List α) : List PlanRun → Extent → Prop
  | nil : Tiles old new [] ⟨0, 0⟩
  | snoc {runs run p q} : Tiles old new runs p → Covers old new p run q → run.rowLen ≠ 0 →
      Tiles old new (runs ++ [run]) q

def Extent.Within (p : Extent) (old new : List α) : Prop :=
  p.old ≤ old.length ∧ p.new ≤ new.length

variable {p q : Extent} {run : PlanRun}

theorem covers_within (h : Covers old new p run q) (hp : p.Within old new) : q.Within old new := by
  unfold Extent.Within at *
  cases h <;> simp only at * <;> omega

variable {runs : List PlanRun}

theorem tiles_within (h : Tiles old new runs p) : p.Within old new := by
  induction h with
  | nil => exact ⟨zero_le _, zero_le _⟩
  | snoc _ hc _ ih => exact covers_within hc ih

theorem tiles_last {last : PlanRun} (h : Tiles old new runs p) (hlast : runs.getLast? = some last) :
    ∃ q, Tiles old new runs.dropLast q ∧ Covers old new q last p ∧ last.rowLen ≠ 0 := by
  cases h with
  | nil => simp at hlast
  | snoc hr hc hne =>
    simp only [getLast?_append, getLast?_singleton, some_or, some.injEq] at hlast
    subst hlast
    exact ⟨_, by simpa using hr, hc, hne⟩

structure Bounded (old new : List α) : Prop where
  old : old.length ≤ isizeMax
  new : new.length ≤ isizeMax

theorem Bounded.satAdd_old (h : Bounded old new) {a b : ℕ} (hab : a + b ≤ old.length) :
    satAdd a b = a + b :=
  satAdd_eq (by have := h.old; unfold isizeMax at this; unfold usizeMax; omega)

theorem Bounded.satAdd_new (h : Bounded old new) {a b : ℕ} (hab : a + b ≤ new.length) :
    satAdd a b = a + b :=
  satAdd_eq (by have := h.new; unfold isizeMax at this; unfold usizeMax; omega)

theorem range_split {β : Type} (f : ℕ → β) (a b : ℕ) :
    (List.range (a + b)).map f = (List.range a).map f ++ (List.range b).map fun i => f (a + i) := by
  rw [range_add, map_append, List.map_map]
  rfl

structure Merges (old new : List α) (p r : Extent) (last run merged : PlanRun) : Prop where
  covers : Covers old new p merged r
  rows : merged.rows = last.rows ++ run.rows

theorem mergeRun_merges (hb : Bounded old new) {r : Extent} {last merged : PlanRun}
    (hlast : Covers old new p last q) (hrun : Covers old new q run r)
    (h : mergeRun last run = some merged) : Merges old new p r last run merged := by
  cases hlast with
  | context o n len ho hn he =>
    cases hrun with
    | context _ _ len' ho' hn' he' =>
      simp only [mergeRun, hb.satAdd_old ho, hb.satAdd_new hn, and_self, if_true,
        some.injEq, hb.satAdd_old (a := len) (b := len') (by omega)] at h
      subst h
      refine ⟨?_, ?_⟩
      · simp only [add_assoc] at ho' hn' he' ⊢
        refine .context o n _ ho' hn' ?_
        rw [← slice_append old (b := o + len) (by omega) (by omega),
          ← slice_append new (b := n + len) (by omega) (by omega), he, he']
      · simp only [PlanRun.rows, range_split, add_assoc]
    | remove => simp [mergeRun] at h
    | add => simp [mergeRun] at h
    | modify => simp [mergeRun] at h
  | remove o n len ho =>
    cases hrun with
    | remove _ _ len' ho' =>
      simp only [mergeRun, hb.satAdd_old ho, if_true,
        some.injEq, hb.satAdd_old (a := len) (b := len') (by omega)] at h
      subst h
      refine ⟨?_, ?_⟩
      · simp only [add_assoc] at ho' ⊢
        exact .remove o n _ ho'
      · simp only [PlanRun.rows, range_split, add_assoc]
    | context => simp [mergeRun] at h
    | add => simp [mergeRun] at h
    | modify => simp [mergeRun] at h
  | add o n len hn =>
    cases hrun with
    | add _ _ len' hn' =>
      simp only [mergeRun, hb.satAdd_new hn, if_true,
        some.injEq, hb.satAdd_new (a := len) (b := len') (by omega)] at h
      subst h
      refine ⟨?_, ?_⟩
      · simp only [add_assoc] at hn' ⊢
        exact .add o n _ hn'
      · simp only [PlanRun.rows, range_split, add_assoc]
    | context => simp [mergeRun] at h
    | remove => simp [mergeRun] at h
    | modify => simp [mergeRun] at h
  | modify o n len ho hn =>
    cases hrun with
    | modify _ _ len' ho' hn' =>
      simp only [mergeRun, hb.satAdd_old ho, hb.satAdd_new hn, and_self, if_true,
        some.injEq, hb.satAdd_old (a := len) (b := len') (by omega)] at h
      subst h
      refine ⟨?_, ?_⟩
      · simp only [add_assoc] at ho' hn' ⊢
        exact .modify o n _ ho' hn'
      · simp only [PlanRun.rows, range_split, add_assoc]
    | context => simp [mergeRun] at h
    | remove => simp [mergeRun] at h
    | add => simp [mergeRun] at h

theorem length_rows (run : PlanRun) : run.rows.length = run.rowLen := by
  cases run <;> simp [PlanRun.rows, PlanRun.rowLen]

theorem planRows_snoc (runs : List PlanRun) (run : PlanRun) :
    planRows (runs ++ [run]) = planRows runs ++ run.rows := by
  simp [planRows]

theorem pushPlanRun_tiles (hb : Bounded old new) (h : Tiles old new runs p)
    (hrun : Covers old new p run q) (hne : run.rowLen ≠ 0) :
    Tiles old new (pushPlanRun runs run) q ∧
      planRows (pushPlanRun runs run) = planRows runs ++ run.rows := by
  have hpush : Tiles old new (runs ++ [run]) q ∧
      planRows (runs ++ [run]) = planRows runs ++ run.rows :=
    ⟨.snoc h hrun hne, planRows_snoc runs run⟩
  rw [pushPlanRun, if_neg hne]
  split
  · exact hpush
  · rename_i last hlast
    split
    · rename_i merged hmerged
      obtain ⟨r, htiles, hcovers, hlastne⟩ := tiles_last h hlast
      have hm := mergeRun_merges hb hcovers hrun hmerged
      have hruns : runs = runs.dropLast ++ [last] :=
        (dropLast_append_getLast? last hlast).symm
      refine ⟨.snoc htiles hm.covers ?_, ?_⟩
      · have hlen := congrArg length hm.rows
        rw [length_append, length_rows, length_rows, length_rows] at hlen
        omega
      · rw [planRows_snoc, hm.rows]
        conv => rhs; rw [hruns]
        rw [planRows_snoc, append_assoc]
    · exact hpush

structure Built (old new : List α) (st : PlanState) (p : Extent) : Prop where
  tiles : Tiles old new st.runs p
  rowCount : st.rowCount = (planRows st.runs).length
  inlineRowCount : st.inlineRowCount = (planInlineRows st.runs).length

theorem length_inlineRows (run : PlanRun) (h : run.rowLen ≤ isizeMax) :
    (run.rows.flatMap PlanRow.inlineRows).length = run.inlineRowLen := by
  have hmul : ∀ len, len ≤ isizeMax → satMul len 2 = len * 2 := by
    intro len hlen
    unfold isizeMax at hlen
    exact min_eq_left (by unfold usizeMax; omega)
  cases run with
  | modify o n len =>
    simp only [PlanRun.rowLen] at h
    simp [PlanRun.rows, PlanRun.inlineRowLen, PlanRow.inlineRows, hmul len h, flatMap_map,
      length_flatMap]
  | _ => simp [PlanRun.rows, PlanRun.inlineRowLen, PlanRun.rowLen, PlanRow.inlineRows,
      flatMap_map, length_flatMap]

theorem planInlineRows_eq {runs' : List PlanRun} (h : planRows runs' = planRows runs ++ run.rows) :
    planInlineRows runs' = planInlineRows runs ++ run.rows.flatMap PlanRow.inlineRows := by
  rw [planInlineRows, h, flatMap_append, ← planInlineRows]

theorem planRows_oldLines (h : Tiles old new runs p) :
    (planRows runs).filterMap PlanRow.oldLine = range p.old ∧
      (planRows runs).filterMap PlanRow.newLine = range p.new := by
  induction h with
  | nil => exact ⟨rfl, rfl⟩
  | snoc _ hc _ ih =>
    rw [planRows_snoc, filterMap_append, filterMap_append, ih.1, ih.2]
    cases hc <;>
      simp [PlanRun.rows, PlanRow.oldLine, PlanRow.newLine, filterMap_map, range_add,
        Function.comp_def]

theorem planInlineRows_length_le (h : Tiles old new runs p) :
    (planInlineRows runs).length ≤ p.old + p.new ∧ (planRows runs).length ≤ p.old + p.new := by
  induction h with
  | nil => exact ⟨zero_le _, zero_le _⟩
  | snoc _ hc _ ih =>
    rw [planInlineRows_eq (planRows_snoc _ _), planRows_snoc, length_append, length_append]
    cases hc <;>
      simp [PlanRun.rows, PlanRow.inlineRows, flatMap_map, length_flatMap] at ih ⊢ <;>
      omega

theorem covers_empty (h : Covers old new p run q) (hlen : run.rowLen = 0) : q = p := by
  cases h <;> simp_all [PlanRun.rowLen]

theorem covers_rowLen (h : Covers old new p run q)
    (hp : p.Within old new) (hb : Bounded old new) : run.rowLen ≤ isizeMax := by
  have hq := covers_within h hp
  have ho := hb.old
  have hn := hb.new
  unfold Extent.Within at hq
  cases h <;> simp only [PlanRun.rowLen] at hq ⊢ <;> omega

theorem pushPlanRunWithCounts_built (hb : Bounded old new) {st : PlanState}
    (h : Built old new st p) (hrun : Covers old new p run q) :
    Built old new (pushPlanRunWithCounts st run) q := by
  unfold pushPlanRunWithCounts
  by_cases hlen : run.rowLen = 0
  · rw [if_pos hlen, covers_empty hrun hlen]
    exact h
  rw [if_neg hlen]
  obtain ⟨htiles, hrows⟩ := pushPlanRun_tiles hb h.tiles hrun hlen
  have hinline := planInlineRows_eq hrows
  obtain ⟨hinlineLe, hrowsLe⟩ := planInlineRows_length_le htiles
  have hwithin := tiles_within htiles
  have ho := hb.old
  have hn := hb.new
  unfold Extent.Within at hwithin
  have hcap : q.old + q.new ≤ usizeMax := by
    unfold isizeMax at ho hn
    unfold usizeMax
    omega
  rw [hinline, length_append,
    length_inlineRows run (covers_rowLen hrun (tiles_within h.tiles) hb)] at hinlineLe
  rw [hrows, length_append, length_rows] at hrowsLe
  refine ⟨htiles, ?_, ?_⟩
  · simp only [h.rowCount]
    rw [satAdd_eq (by omega), hrows, length_append, length_rows]
  · simp only [h.inlineRowCount]
    rw [satAdd_eq (by omega), hinline, length_append,
      length_inlineRows run (covers_rowLen hrun (tiles_within h.tiles) hb)]

theorem empty_built (old new : List α) : Built old new .empty ⟨0, 0⟩ := ⟨.nil, rfl, rfl⟩

end

end GitComet.FileDiff
