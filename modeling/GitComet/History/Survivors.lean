import Mathlib.Data.List.TakeWhile
import GitComet.Basis.Closest
import GitComet.History.Projection
import GitComet.History.Reference

namespace GitComet.History
open Slice ByteOrder BinarySearch Ranks Closest Text List Option Nat

inductive Checkpoint where
  | row (ix : ℕ)
  | gap (start : ℕ)
  | fill (ix : ℕ)
  | last

namespace HistoryProjection
variable (old next : HistoryProjection) (cancelled : Checkpoint → Bool)

def mapRows : ℕ → ℕ → List ℕ → List ℕ → Option (List ℕ)
  | _, _, [], mapped => some mapped
  | ix, right, left :: lefts, mapped =>
    if ix % 1024 = 0 ∧ cancelled (.row ix) then none
    else
      let id := old.index.indexedRow left
      let right := runEnd (fun row => decide (next.index.indexedRow row < id))
        next.index.sortedRows right
      let mapped :=
        match next.index.sortedRows[right]? with
        | none => mapped
        | some row =>
          if next.index.indexedRow row = id then
            mapped.set left (((next.visiblePosition row).map asU32).getD missingParent)
          else mapped
      mapRows (ix + 1) right lefts mapped

def retainVisible (mapped : List ℕ) : List ℕ :=
  (mapped.zipIdx.filter fun entry => (old.visiblePosition entry.2).isSome).map Prod.fst

def gapValue (left right : Option (ℕ × ℕ)) (ix : ℕ) : ℕ :=
  match left, right with
  | some (a, row), some (b, row') => if ix - a < b - ix then row else row'
  | none, some (_, row) => row
  | some (_, row), none => row
  | none, none => missingParent

def fillGaps : ℕ → ℕ → List ℕ → Option (List ℕ)
  | 0, _, mapped => some mapped
  | fuel + 1, start, mapped =>
    match mapped[start]? with
    | none => some mapped
    | some value =>
      if start % 1024 = 0 ∧ cancelled (.gap start) then none
      else if value ≠ missingParent then fillGaps fuel (start + 1) mapped
      else
        let stop := runEnd (fun value => decide (value = missingParent)) mapped (start + 1)
        let left := if start = 0 then none else (mapped[start - 1]?).map fun row => (start - 1, row)
        let right := (mapped[stop]?).map fun row => (stop, row)
        let places := range' start (stop - start)
        if places.any fun ix => ix % 1024 = 0 && cancelled (.fill ix) then none
        else fillGaps fuel stop
          (mapped.take start ++ (places.map (gapValue left right) ++ mapped.drop stop))

def nearestSurvivors : Option (List ℕ) := do
  let mapped ← mapRows old next cancelled 0 0 old.index.sortedRows
    (replicate old.index.len missingParent)
  let mapped := old.retainVisible mapped
  let mapped ← fillGaps cancelled mapped.length 0 mapped
  if cancelled .last then none else some mapped

end HistoryProjection

open HistoryProjection

def survivor (old next : HistoryProjection) (raw : ℕ) : Option ℕ :=
  (next.index.sortedRows.find? fun row =>
    decide (next.index.indexedRow row = old.index.indexedRow raw)).map fun row =>
      ((next.visiblePosition row).map asU32).getD missingParent

section
variable {old next : HistoryProjection} {cancelled : Checkpoint → Bool}

def setSurvivor (old next : HistoryProjection) (mapped : List ℕ) (left : ℕ) : List ℕ :=
  match survivor old next left with
  | none => mapped
  | some value => mapped.set left value

theorem runEnd_below {α : Type} {p : α → Bool} {rows : List α} {right : ℕ}
    (hroom : right ≤ rows.length) (hbelow : ∀ row ∈ rows.take right, p row) :
    runEnd p rows right = (rows.takeWhile p).length := by
  nth_rewrite 2 [← take_append_drop right rows]
  rw [takeWhile_append_of_pos hbelow, length_append, length_take_of_le hroom, runEnd]

theorem row_after_below {o : ℕ → Bytes} {rows : List ℕ}
    (hsorted : rows.Pairwise fun a b => o a < o b) (id : Bytes) {β : Type} (none' : β)
    (some' : ℕ → β) :
    (match rows[(rows.takeWhile fun row => decide (o row < id)).length]? with
      | none => none'
      | some row => if o row = id then some' row else none') =
      match rows.find? fun row => decide (o row = id) with
      | none => none'
      | some row => some' row := by
  obtain ⟨hbelow, hstop⟩ := takeWhile_run (fun row => decide (o row < id)) rows
  generalize (rows.takeWhile fun row => decide (o row < id)).length = first at hbelow hstop
  cases hfind : rows.find? fun row => decide (o row = id) with
  | none =>
    rw [find?_eq_none] at hfind
    cases hfirst : rows[first]? with
    | none => rfl
    | some row =>
      have hne : o row ≠ id := by simpa using hfind row (mem_of_getElem? hfirst)
      exact if_neg hne
  | some row =>
    have heq : o row = id := by simpa using find?_some hfind
    obtain ⟨i, hi⟩ := List.mem_iff_getElem?.mp (mem_of_find?_eq_some hfind)
    have hfirst : first = i := by
      rcases lt_trichotomy first i with hlt | rfl | hgt
      · obtain ⟨hroom, hget⟩ := List.getElem?_eq_some_iff.mp hi
        have hat := getElem?_eq_getElem (lt_trans hlt hroom)
        have hstep := List.pairwise_iff_getElem.mp hsorted first i (lt_trans hlt hroom) hroom
          hlt
        rw [hget, heq] at hstep
        simpa [hstep] using hstop _ hat
      · rfl
      · have := hbelow i hgt row hi
        rw [decide_eq_true_eq, heq] at this
        exact absurd this (List.lt_irrefl _)
    rw [hfirst, hi]
    exact if_pos heq

variable {lefts : List ℕ}

theorem mapRows_eq (hright : next.index.sortedRows.Pairwise fun a b =>
      next.index.indexedRow a < next.index.indexedRow b) :
    ∀ {ix right : ℕ} {mapped : List ℕ},
      lefts.Pairwise (fun a b => old.index.indexedRow a < old.index.indexedRow b) →
      right ≤ next.index.sortedRows.length →
      (∀ left ∈ lefts, ∀ row ∈ next.index.sortedRows.take right,
        next.index.indexedRow row < old.index.indexedRow left) →
      mapRows old next cancelled ix right lefts mapped =
          some (lefts.foldl (setSurvivor old next) mapped) ∨
        mapRows old next cancelled ix right lefts mapped = none ∧
          ∃ check, cancelled check := by
  induction lefts with
  | nil => exact fun _ _ _ => Or.inl rfl
  | cons left lefts ih =>
    intro ix right mapped hleft hroom hbelow
    obtain ⟨hfirst, hrest⟩ := pairwise_cons.mp hleft
    rw [mapRows]
    split
    · rename_i hcancelled
      exact Or.inr ⟨rfl, _, hcancelled.2⟩
    have hend := runEnd_below hroom fun row hrow =>
      decide_eq_true (hbelow left mem_cons_self row hrow)
    have hset := row_after_below hright (old.index.indexedRow left) mapped fun row =>
      mapped.set left (((next.visiblePosition row).map asU32).getD missingParent)
    have hstep : (match next.index.sortedRows.find? fun row =>
          decide (next.index.indexedRow row = old.index.indexedRow left) with
        | none => mapped
        | some row => mapped.set left
            (((next.visiblePosition row).map asU32).getD missingParent)) =
        setSurvivor old next mapped left := by
      rw [setSurvivor, survivor]
      cases next.index.sortedRows.find? fun row =>
        decide (next.index.indexedRow row = old.index.indexedRow left) <;> rfl
    simp only [hend, hset, hstep, foldl_cons]
    refine ih hrest ?_ fun later hlater row hrow => ?_
    · exact ( takeWhile_prefix _).length_le
    · rw [← prefix_iff_eq_take.mp ( takeWhile_prefix _)] at hrow
      have hlt := mem_takeWhile_imp hrow
      exact List.lt_trans (of_decide_eq_true hlt) (hfirst later hlater)

theorem setSurvivor_get (mapped : List ℕ) (left raw : ℕ) :
    (setSurvivor old next mapped left)[raw]? =
      if raw = left then (mapped[raw]?).map fun value => (survivor old next raw).getD value
      else mapped[raw]? := by
  rw [setSurvivor]
  by_cases hraw : raw = left
  · subst hraw
    cases hvalue : survivor old next raw with
    | none => simp
    | some value =>
      rw [getElem?_set_self', if_pos rfl]
      cases mapped[raw]? <;> rfl
  · rw [if_neg hraw]
    cases survivor old next left with
    | none => rfl
    | some value => exact getElem?_set_ne (Ne.symm hraw)

theorem foldl_setSurvivor (lefts : List ℕ) : ∀ (mapped : List ℕ) (raw : ℕ),
    (lefts.foldl (setSurvivor old next) mapped)[raw]? =
      if raw ∈ lefts then (mapped[raw]?).map fun value => (survivor old next raw).getD value
      else mapped[raw]? := by
  induction lefts with
  | nil => simp
  | cons left lefts ih =>
    intro mapped raw
    rw [foldl_cons, ih, setSurvivor_get]
    by_cases hraw : raw = left
    · subst hraw
      simp only [if_true, mem_cons_self]
      split
      · cases mapped[raw]? with
        | none => rfl
        | some value => cases survivor old next raw <;> rfl
      · rfl
    · simp only [hraw, if_false, mem_cons, false_or]

theorem mapped_rows {n : ℕ} (hall : lefts.Perm (range n)) :
    lefts.foldl (setSurvivor old next) (replicate n missingParent) =
      (range n).map fun raw => (survivor old next raw).getD missingParent := by
  refine ext_getElem? fun raw => ?_
  have hmem : raw ∈ lefts ↔ raw < n := hall.mem_iff.trans mem_range
  rw [foldl_setSurvivor, getElem?_map, getElem?_replicate]
  by_cases hraw : raw < n
  · rw [if_pos (hmem.mpr hraw), if_pos hraw, getElem?_range hraw]
    rfl
  · rw [if_neg fun h => hraw (hmem.mp h), if_neg hraw,
      getElem?_eq_none (by rw [length_range]; omega)]
    rfl

theorem retained {β : Type} (p : ℕ → Bool) (f : ℕ → β) (n : ℕ) :
    ((((range n).map f).zipIdx).filter fun entry => p entry.2).map Prod.fst =
      ((range n).filter p).map f := by
  induction n with
  | zero => rfl
  | succ n ih =>
    rw [range_succ, map_append, zipIdx_append, filter_append, map_append,
      ih, filter_append, map_append]
    congr 1
    simp only [map_cons, map_nil, length_map, length_range, zero_add,
      zipIdx_cons, zipIdx_nil, filter_cons, filter_nil]
    cases p n <;> rfl

theorem retainVisible_map (f : ℕ → ℕ) :
    old.retainVisible ((range old.index.len).map f) = old.visibleRows.map f := by
  rw [HistoryProjection.retainVisible, retained fun raw => (old.visiblePosition raw).isSome]
  refine congrArg (List.map f) (filter_congr fun raw hraw => ?_)
  rw [mem_range] at hraw
  rw [Bool.eq_iff_iff, isSome_iff_exists]
  constructor
  · rintro ⟨visible, hvisible⟩
    exact (kept_get.mp (old.visiblePosition_some.mp hvisible)).1.2
  · exact fun hshown => ⟨_, old.visiblePosition_some.mpr (kept_get.mpr ⟨⟨hraw, hshown⟩, rfl⟩)⟩

end

section
variable (mapped : List ℕ)

def survives (place : ℕ) : Prop := ∃ value, mapped[place]? = some value ∧ value ≠ missingParent

def Filled (place value : ℕ) : Prop :=
  (∃ found, IsClosest (survives mapped) place found ∧ mapped[found]? = some value) ∨
    (∀ found, ¬survives mapped found) ∧ value = missingParent

structure Progress (start : ℕ) (current : List ℕ) : Prop where
  length : current.length = mapped.length
  ahead : ∀ place, start ≤ place → current[place]? = mapped[place]?
  done : ∀ place < start, ∀ value, current[place]? = some value → Filled mapped place value
  edge : start = 0 ∨ survives mapped (start - 1) ∨ survives mapped start ∨
    mapped.length ≤ start

variable {mapped} {start stop place : ℕ} {left right : Option (ℕ × ℕ)}

variable {value : ℕ}

theorem Filled.self (h : survives mapped place) (hfilled : Filled mapped place value) :
    mapped[place]? = some value := by
  rcases hfilled with ⟨found, hclosest, hfound⟩ | ⟨hnone, -⟩
  · rwa [(closest_self h).unique hclosest]
  · exact absurd h (hnone place)

def LeftOf (mapped : List ℕ) (start : ℕ) (left : Option (ℕ × ℕ)) : Prop :=
  left = none ∧ start = 0 ∨
    ∃ a value, left = some (a, value) ∧ a + 1 = start ∧ mapped[a]? = some value ∧ survives mapped a

def RightOf (mapped : List ℕ) (stop : ℕ) (right : Option (ℕ × ℕ)) : Prop :=
  right = none ∧ mapped.length ≤ stop ∨
    ∃ value, right = some (stop, value) ∧ mapped[stop]? = some value ∧ survives mapped stop

theorem gap_filled (hgap : ∀ place, start ≤ place → place < stop → ¬survives mapped place)
    (hleft : LeftOf mapped start left) (hright : RightOf mapped stop right) (hstart : start ≤ place)
    (hstop : place < stop) : Filled mapped place (gapValue left right place) := by
  rcases hleft with ⟨rfl, rfl⟩ | ⟨a, value, rfl, rfl, ha, hsurvives⟩
  · rcases hright with ⟨rfl, hlength⟩ | ⟨value, rfl, hvalue, hsurvives⟩
    · refine Or.inr ⟨fun found hfound => ?_, rfl⟩
      obtain ⟨value, hvalue, -⟩ := id hfound
      obtain ⟨hlt, -⟩ := List.getElem?_eq_some_iff.mp hvalue
      exact hgap found (zero_le _) (by omega) hfound
    · exact Or.inl ⟨stop, closest_after hsurvives hstop
        (fun other hother => hgap other (by omega))
        (fun other hother hmarked => absurd hmarked (hgap other (by omega) (by omega))), hvalue⟩
  · have hbetween : ∀ other, a < other → other < stop → ¬survives mapped other :=
      fun other hother => hgap other hother
    rcases hright with ⟨rfl, hlength⟩ | ⟨value', rfl, hvalue, hsurvives'⟩
    · refine Or.inl ⟨a, closest_before hsurvives (by omega)
        (fun other hother hle => hbetween other hother (by omega)) (fun other hother hmarked => ?_),
        ha⟩
      obtain ⟨value, hvalue, -⟩ := id hmarked
      obtain ⟨hlt, -⟩ := List.getElem?_eq_some_iff.mp hvalue
      exact absurd hmarked (hbetween other (by omega) (by omega))
    · have hbeyond : ∀ other, survives mapped other → other ≤ a ∨ stop ≤ other := by
        intro other hmarked
        by_contra hbad
        exact hbetween other (by omega) (by omega) hmarked
      rw [gapValue]
      split
      · rename_i hnear
        refine Or.inl ⟨a, closest_before hsurvives (by omega)
          (fun other hother hle => hbetween other hother (by omega))
          (fun other hother hmarked => ?_), ha⟩
        have := hbeyond other hmarked
        omega
      · rename_i hfar
        refine Or.inl ⟨stop, closest_after hsurvives' hstop
          (fun other hother hlt => hbetween other (by omega) hlt)
          (fun other hother hmarked => ?_), hvalue⟩
        have := hbeyond other hmarked
        omega

variable {current : List ℕ}

theorem Progress.leftOf (h : Progress mapped start current)
    (hroom : start < mapped.length) (hgap : ¬survives mapped start) :
    LeftOf mapped start
      (if start = 0 then none else (current[start - 1]?).map fun row => (start - 1, row)) := by
  by_cases hzero : start = 0
  · exact Or.inl ⟨if_pos hzero, hzero⟩
  have hbefore : survives mapped (start - 1) := by
    rcases h.edge with hstart | hbefore | hhere | hend
    · exact absurd hstart hzero
    · exact hbefore
    · exact absurd hhere hgap
    · omega
  have hget := getElem?_eq_getElem (show start - 1 < current.length by
    have := h.length
    omega)
  have hfilled := h.done (start - 1) (by omega) _ hget
  rw [if_neg hzero, hget]
  exact Or.inr ⟨start - 1, _, rfl, by omega, hfilled.self hbefore, hbefore⟩

theorem Progress.pass (h : Progress mapped start current)
    (hvalue : mapped[start]? = some value) (hmarked : value ≠ missingParent) :
    Progress mapped (start + 1) current where
  length := h.length
  ahead place hplace := h.ahead place (by omega)
  done place hplace other hother := by
    rcases Nat.lt_succ_iff_lt_or_eq.mp hplace with hlt | rfl
    · exact h.done place hlt other hother
    · rw [h.ahead place (le_refl _)] at hother
      exact Or.inl ⟨place, closest_self ⟨value, hvalue, hmarked⟩, hother⟩
  edge := Or.inr (Or.inl ⟨value, hvalue, hmarked⟩)

theorem Progress.fill (h : Progress mapped start current)
    (hroom : start < mapped.length) (hlt : start < stop) (hstop : stop ≤ mapped.length)
    (hgap : ∀ place, start ≤ place → place < stop → ¬survives mapped place)
    (hend : ∀ value, mapped[stop]? = some value → value ≠ missingParent) :
    Progress mapped stop (current.take start ++ ((range' start (stop - start)).map (gapValue
        (if start = 0 then none else (current[start - 1]?).map fun row => (start - 1, row))
        ((current[stop]?).map fun row => (stop, row))) ++ current.drop stop)) := by
  have hlength := h.length
  have hleft := h.leftOf hroom (hgap start (le_refl _) hlt)
  have hright : RightOf mapped stop ((current[stop]?).map fun row => (stop, row)) := by
    rw [h.ahead stop (le_of_lt hlt)]
    cases hvalue : mapped[stop]? with
    | none => exact Or.inl ⟨rfl, getElem?_eq_none_iff.mp hvalue⟩
    | some value => exact Or.inr ⟨value, rfl, hvalue, value, hvalue, hend value hvalue⟩
  generalize (if start = 0 then none else (current[start - 1]?).map fun row => (start - 1, row)) =
    left at hleft ⊢
  generalize ((current[stop]?).map fun row => (stop, row)) = right at hright ⊢
  have htake : (current.take start).length = start := length_take_of_le (by omega)
  refine ⟨?_, fun place hplace => ?_, fun place hplace value hvalue => ?_, ?_⟩
  · simp only [length_append, htake, length_map, length_range', length_drop]
    omega
  · rw [getElem?_append_right (by omega), htake, getElem?_append_right (by simp; omega),
      length_map, length_range', getElem?_drop,
      show stop + (place - start - (stop - start)) = place by omega]
    exact h.ahead place (by omega)
  · rcases lt_or_ge place start with hbefore | hinside
    · rw [getElem?_append_left (by omega), getElem?_take_of_lt hbefore] at hvalue
      exact h.done place hbefore value hvalue
    · rw [getElem?_append_right (by omega), htake,
        getElem?_append_left (by simp; omega), getElem?_map,
        getElem?_range' (by omega), map_some, some.injEq] at hvalue
      rw [one_mul, Nat.add_sub_cancel' hinside] at hvalue
      exact hvalue ▸ gap_filled hgap hleft hright hinside hplace
  · rcases lt_or_eq_of_le hstop with hin | heq
    · have hget := getElem?_eq_getElem hin
      exact Or.inr (Or.inr (Or.inl ⟨_, hget, hend _ hget⟩))
    · exact Or.inr (Or.inr (Or.inr (le_of_eq heq.symm)))

structure AllFilled (mapped result : List ℕ) : Prop where
  length : result.length = mapped.length
  filled : ∀ (place value : ℕ), result[place]? = some value → Filled mapped place value

theorem Progress.finished (h : Progress mapped start current)
    (hend : mapped.length ≤ start) : AllFilled mapped current where
  length := h.length
  filled place value hvalue := by
    obtain ⟨hlt, -⟩ := List.getElem?_eq_some_iff.mp hvalue
    exact h.done place (by have := h.length; omega) value hvalue

theorem fillGaps_eq {cancelled : Checkpoint → Bool} : ∀ {fuel start : ℕ} {current : List ℕ},
    Progress mapped start current → mapped.length ≤ start + fuel →
      (∃ result, fillGaps cancelled fuel start current = some result ∧ AllFilled mapped result) ∨
        fillGaps cancelled fuel start current = none ∧ ∃ check, cancelled check := by
  intro fuel
  induction fuel with
  | zero => exact fun h hfuel => Or.inl ⟨_, rfl, h.finished hfuel⟩
  | succ fuel ih =>
    intro start current h hfuel
    rw [fillGaps]
    cases hvalue : current[start]? with
    | none =>
      rw [h.ahead start (le_refl _), getElem?_eq_none_iff] at hvalue
      exact Or.inl ⟨current, rfl, h.finished hvalue⟩
    | some value =>
      rw [h.ahead start (le_refl _)] at hvalue
      obtain ⟨hroom, -⟩ := List.getElem?_eq_some_iff.mp hvalue
      dsimp only
      split
      · rename_i hcancelled
        exact Or.inr ⟨rfl, _, hcancelled.2⟩
      split
      · rename_i hmarked
        exact ih (h.pass hvalue hmarked) (by omega)
      · rename_i hmissing
        rw [not_not] at hmissing
        subst hmissing
        have hruns : runEnd (fun value => decide (value = missingParent)) current (start + 1) =
            runEnd (fun value => decide (value = missingParent)) mapped (start + 1) := by
          have hdrop : current.drop (start + 1) = mapped.drop (start + 1) :=
            ext_getElem? fun k => by
              rw [getElem?_drop, getElem?_drop, h.ahead _ (by omega)]
          rw [runEnd, hdrop, runEnd]
        rw [hruns]
        generalize hstop : runEnd (fun value => decide (value = missingParent)) mapped (start + 1) =
          stop
        have hlt : start < stop := by
          have : start + 1 ≤ stop := hstop ▸ le_runEnd
          omega
        split
        · rename_i hcancelled
          obtain ⟨ix, -, hix⟩ := List.any_eq_true.mp hcancelled
          exact Or.inr ⟨rfl, _, (Bool.and_eq_true_iff.mp hix).2⟩
        · refine ih (h.fill hroom hlt (hstop ▸ runEnd_le (by omega)) (fun place hge hplace => ?_)
            fun value hvalue => ?_) (by omega)
          · rintro ⟨value, hplaceValue, hmarked⟩
            rcases lt_or_eq_of_le hge with hafter | rfl
            · have hrun := in_run (p := fun value => decide (value = missingParent)) hafter
                (hstop ▸ hplace) hplaceValue
              exact hmarked (of_decide_eq_true hrun)
            · exact hmarked (some.inj (hplaceValue.symm.trans hvalue))
          · subst hstop
            exact of_decide_eq_false
              (at_runEnd (p := fun value => decide (value = missingParent)) hvalue)

end

theorem FinishedRows.ascending {commits : List Push} {index : HistoryIndex}
    (h : FinishedRows commits index) (hdistinct : (commitIds commits).Nodup) :
    index.sortedRows.Pairwise fun a b => index.indexedRow a < index.indexedRow b := by
  have hsorted := h.ordered.sorted (h.table hdistinct)
  refine hsorted.sorted.imp_of_mem fun {a b} ha hb hab => ?_
  have hlength : ∀ {row}, row ∈ index.sortedRows →
      (index.indexedRow row).length = index.hashLen := fun hrow => by
    rw [h.column.indexedRow]
    exact h.column.getD_length (hsorted.lt hrow)
  rw [lt_iff ((hlength ha).trans (hlength hb).symm), h.column.indexedRow, h.column.indexedRow]
  exact hab

def Survives (old next : HistoryProjection) (place position : ℕ) : Prop :=
  ∃ raw raw' id, old.rawPosition place = some raw ∧ next.rawPosition position = some raw' ∧
    old.index.idBytes raw = some id ∧ next.index.idBytes raw' = some id

section
variable {commits commits' : List Push} {old next : HistoryProjection}

variable {raw : ℕ}

theorem FinishedRows.getElem (h : FinishedRows commits old.index) (hraw : raw < old.index.len) :
    (commitIds commits)[raw]? = some (old.index.indexedRow raw) := by
  have hlength : raw < (commitIds commits).length := by
    rwa [commitIds, length_map, ← h.len]
  rw [h.column.indexedRow, getD_eq_getElem?_getD, getElem?_eq_getElem hlength, getD_some]

theorem position_small (hnext : FinishedRows commits' next.index) {position : ℕ}
    (h : next.rawPosition position = some raw) :
    raw < next.index.len ∧ asU32 position = position ∧ position ≠ missingParent := by
  rw [next.rawPosition_eq] at h
  obtain ⟨⟨hraw, hshown⟩, rfl⟩ := kept_get.mp h
  have hlt := rank_lt hraw hshown
  have hle := rank_le next.shown next.index.len
  have hrows := hnext.column.rows
  rw [commitIds, length_map, ← hnext.len] at hrows
  rw [asU32, mod_eq_of_lt (by simp only [missingParent] at hrows; omega)]
  exact ⟨hraw, rfl, by omega⟩

theorem survivor_iff (hold : FinishedRows commits old.index)
    (hnext : FinishedRows commits' next.index) (hdistinct' : (commitIds commits').Nodup)
    (hraw : raw < old.index.len) (position : ℕ) :
    (survivor old next raw).getD missingParent = position ∧ position ≠ missingParent ↔
      ∃ raw' id, next.rawPosition position = some raw' ∧ old.index.idBytes raw = some id ∧
        next.index.idBytes raw' = some id := by
  have hrow : ∀ {row : ℕ}, row ∈ next.index.sortedRows ↔ row < next.index.len := fun {row} => by
    rw [hnext.ordered.all.mem_iff, mem_range, commitIds, length_map, hnext.len]
  have hvisible : ∀ {row visible : ℕ}, next.visiblePosition row = some visible ↔
      next.rawPosition visible = some row := fun {row visible} => by
    rw [next.visiblePosition_some, next.rawPosition_eq]
  rw [hold.column.idBytes, hold.getElem hraw]
  constructor
  · rintro ⟨hvalue, hmissing⟩
    rw [survivor] at hvalue
    cases hfind : next.index.sortedRows.find? fun row =>
        decide (next.index.indexedRow row = old.index.indexedRow raw) with
    | none =>
      rw [hfind] at hvalue
      exact absurd hvalue.symm hmissing
    | some row =>
      have hsame : next.index.indexedRow row = old.index.indexedRow raw := by
        simpa using find?_some hfind
      have hlt := hrow.mp (mem_of_find?_eq_some hfind)
      rw [hfind, map_some, getD_some] at hvalue
      cases hposition : next.visiblePosition row with
      | none =>
        rw [hposition] at hvalue
        exact absurd hvalue.symm hmissing
      | some visible =>
        rw [hposition, map_some, getD_some,
          (position_small hnext (hvisible.mp hposition)).2.1] at hvalue
        subst hvalue
        exact ⟨row, _, hvisible.mp hposition, rfl, by
          rw [hnext.column.idBytes, hnext.getElem hlt, hsame]⟩
  · rintro ⟨raw', id, hraw', hid, hid'⟩
    obtain ⟨hlt, hasU32, hsmall⟩ := position_small hnext hraw'
    cases hid
    rw [hnext.column.idBytes] at hid'
    cases hfind : next.index.sortedRows.find? fun row =>
        decide (next.index.indexedRow row = old.index.indexedRow raw) with
    | none =>
      rw [find?_eq_none] at hfind
      have hne := hfind raw' (hrow.mpr hlt)
      rw [hnext.getElem hlt, some.injEq] at hid'
      simp [hid'] at hne
    | some row =>
      have hsame : next.index.indexedRow row = old.index.indexedRow raw := by
        simpa using find?_some hfind
      have hrowLt := hrow.mp (mem_of_find?_eq_some hfind)
      have hget := hnext.getElem hrowLt
      rw [hsame] at hget
      obtain ⟨hin, -⟩ := List.getElem?_eq_some_iff.mp hget
      obtain rfl := (getElem?_inj hin hdistinct').mp (hget.trans hid'.symm)
      rw [survivor, hfind, map_some, getD_some, hvisible.mpr hraw', map_some, getD_some]
      exact ⟨hasU32, hsmall⟩

def shownNow (old next : HistoryProjection) : List ℕ :=
  old.visibleRows.map fun raw => (survivor old next raw).getD missingParent

theorem shownNow_survives (hold : FinishedRows commits old.index)
    (hnext : FinishedRows commits' next.index) (hdistinct' : (commitIds commits').Nodup)
    (place position : ℕ) :
    (shownNow old next)[place]? = some position ∧ position ≠ missingParent ↔
      Survives old next place position := by
  rw [shownNow, getElem?_map, map_eq_some_iff]
  constructor
  · rintro ⟨⟨raw, hraw, hvalue⟩, hmissing⟩
    have hlt := (kept_get.mp hraw).1.1
    obtain ⟨raw', id, hraw', hid, hid'⟩ :=
      (survivor_iff hold hnext hdistinct' hlt position).mp ⟨hvalue, hmissing⟩
    exact ⟨raw, raw', id, by rw [old.rawPosition_eq, hraw], hraw', hid, hid'⟩
  · rintro ⟨raw, raw', id, hraw, hraw', hid, hid'⟩
    rw [old.rawPosition_eq] at hraw
    have hlt := (kept_get.mp hraw).1.1
    obtain ⟨hvalue, hmissing⟩ :=
      (survivor_iff hold hnext hdistinct' hlt position).mpr ⟨raw', id, hraw', hid, hid'⟩
    exact ⟨⟨raw, hraw, hvalue⟩, hmissing⟩

theorem nearestSurvivors_cases (hold : FinishedRows commits old.index)
    (hdistinct : (commitIds commits).Nodup) (hnext : FinishedRows commits' next.index)
    (hdistinct' : (commitIds commits').Nodup) (cancelled : Checkpoint → Bool) :
    (∃ result, old.nearestSurvivors next cancelled = some result ∧
        AllFilled (shownNow old next) result) ∨
      old.nearestSurvivors next cancelled = none ∧ ∃ check, cancelled check := by
  have hperm : old.index.sortedRows.Perm (range old.index.len) := by
    rw [hold.len, ← length_map Push.id, ← commitIds]
    exact hold.ordered.all
  rw [HistoryProjection.nearestSurvivors]
  have hrows : mapRows old next cancelled 0 0 old.index.sortedRows
        (replicate old.index.len missingParent) = some _ ∨ _ :=
    mapRows_eq (hnext.ascending hdistinct') (hold.ascending hdistinct) (zero_le _) (by simp)
  rcases hrows with hmapped | ⟨hnone, hcancelled⟩
  · rw [hmapped, mapped_rows hperm, bind_eq_bind, bind_some, retainVisible_map, ← shownNow]
    dsimp only
    have hstart : Progress (shownNow old next) 0 (shownNow old next) :=
      ⟨rfl, fun _ _ => rfl, fun place hplace => absurd hplace (not_lt_zero place), Or.inl rfl⟩
    have hgaps : (∃ result, fillGaps cancelled _ 0 (shownNow old next) = some result ∧ _) ∨ _ :=
      fillGaps_eq hstart (le_of_eq (zero_add _).symm)
    rcases hgaps with ⟨result, hresult, hfilled⟩ | ⟨hnone, hcancelled⟩
    · rw [hresult, bind_some]
      split
      · exact Or.inr ⟨rfl, _, ‹_›⟩
      · exact Or.inl ⟨result, rfl, hfilled⟩
    · rw [hnone]
      exact Or.inr ⟨rfl, hcancelled⟩
  · rw [hnone]
    exact Or.inr ⟨rfl, hcancelled⟩

theorem nearest_survivors_exact (hold : BuiltIndex commits old.index)
    (hdistinct : (commits.map Push.id).Nodup) (hnext : BuiltIndex commits' next.index)
    (hdistinct' : (commits'.map Push.id).Nodup) (cancelled : Checkpoint → Bool) :
    (∀ mapped, old.nearestSurvivors next cancelled = some mapped →
      mapped.length = old.len ∧ ∀ place < old.len, (∃ found position,
          IsClosest (fun other => ∃ position, Survives old next other position) place found ∧
            Survives old next found position ∧ position ≠ missingParent ∧
              mapped[place]? = some position) ∨
        (∀ found position, ¬Survives old next found position) ∧
          mapped[place]? = some missingParent) ∧ ((∀ check, cancelled check = false) →
        ∃ mapped, old.nearestSurvivors next cancelled = some mapped) := by
  have hcases := nearestSurvivors_cases hold.rows hdistinct hnext.rows hdistinct' cancelled
  have hshown := shownNow_survives hold.rows hnext.rows hdistinct'
  have hsurvives : ∀ place, survives (shownNow old next) place ↔
      ∃ position, Survives old next place position :=
    fun place => exists_congr (hshown place)
  have hlength : (shownNow old next).length = old.len := by
    rw [shownNow, length_map, old.len_eq]
  refine ⟨fun mapped hmapped => ?_, fun hnever => ?_⟩
  · rcases hcases with ⟨result, hresult, hfilled⟩ | ⟨hnone, -⟩
    · obtain rfl := some.inj (hresult.symm.trans hmapped)
      refine ⟨hfilled.length.trans hlength, fun place hplace => ?_⟩
      have hget := getElem?_eq_getElem (l := result) (i := place)
        (by rwa [hfilled.length, hlength])
      rw [hget]
      rcases hfilled.filled place _ hget with ⟨found, hclosest, hfound⟩ | ⟨hnone, hvalue⟩
      · obtain ⟨value, hvalue, hmarked⟩ := hclosest.here
        obtain rfl := some.inj (hvalue.symm.trans hfound)
        exact Or.inl ⟨found, _, hclosest.congr hsurvives, (hshown _ _).mp ⟨hfound, hmarked⟩,
          hmarked, rfl⟩
      · refine Or.inr ⟨fun found position h => hnone found ?_, congrArg some hvalue⟩
        exact (hsurvives found).mpr ⟨position, h⟩
    · rw [hnone] at hmapped
      cases hmapped
  · rcases hcases with ⟨result, hresult, -⟩ | ⟨-, check, hcheck⟩
    · exact ⟨result, hresult⟩
    · rw [hnever check] at hcheck
      cases hcheck

end

theorem survivors_of_two_commits : ∃ index, BuiltIndex twoCommits index ∧
    let old := HistoryProjection.new index []
    let next := HistoryProjection.new index [0]
    ∃ mapped, old.nearestSurvivors next (fun _ => false) = some mapped ∧
      mapped.length = old.len := by
  obtain ⟨index, hbuilt⟩ := two_commits_built
  have hindex : BuiltIndex twoCommits index := ⟨20, _, hbuilt⟩
  have hexact := @nearest_survivors_exact twoCommits twoCommits (HistoryProjection.new index [])
    (HistoryProjection.new index [0]) hindex (by decide) hindex (by decide) fun _ => false
  obtain ⟨mapped, hmapped⟩ := hexact.2 fun _ => rfl
  exact ⟨index, hindex, mapped, hmapped, (hexact.1 mapped hmapped).1⟩

end GitComet.History
