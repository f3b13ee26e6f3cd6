import GitComet.Basis.EditGraph
import GitComet.FileDiff.Edit
import GitComet.Text.Lines
import Mathlib.Data.List.Nodup

namespace GitComet.FileDiff
open Slice CommonPrefix EditGraph Text List Nat Option

def u32Succ (x : ℕ) : Option ℕ := if x + 1 ≤ u32Max then some (x + 1) else none

def asU32 (x : ℕ) : ℕ := x % (u32Max + 1)

def stepsDown (read : ℤ → Option ℕ) (d k : ℤ) : Option Bool :=
  if k = -d then some true
  else if k = d then some false
  else do
    let left ← read (k - 1)
    let right ← read (k + 1)
    some (decide (left < right))

def forwardX (v : List ℕ) (offset d k : ℤ) : Option ℕ := do
  let down ← stepsDown (fun j => vecGet v (offset + j)) d k
  if down then vecGet v (offset + k + 1)
  else do
    let left ← vecGet v (offset + k - 1)
    u32Succ left

def diagonals (d : ℕ) : List ℤ := (range (d + 1)).map fun i : ℕ => -(d : ℤ) + 2 * i

section
variable {α : Type} [DecidableEq α] (old new : List α)

def followSnake (x : ℕ) (y : ℤ) : Option ℕ :=
  if x < old.length ∧ y < new.length then
    if y < 0 then none else some (x + slideFrom old new x y.toNat)
  else some x

def forwardDiagonals (offset d : ℤ) : List ℤ → List ℕ → Option (List ℕ × Bool)
  | [], v => some (v, false)
  | k :: ks, v => do
    let start ← forwardX v offset d k
    let x ← followSnake old new start (start - k)
    let v ← vecSet v (offset + k) (asU32 x)
    if old.length ≤ x ∧ (new.length : ℤ) ≤ x - k then some (v, true)
    else forwardDiagonals offset d ks v

def forwardSearch (offset : ℤ) : ℕ → ℕ → List ℕ → List ℕ → Option (List ℕ × List ℕ × ℕ)
  | 0, _, v, trace => some (v, trace, 0)
  | fuel + 1, d, v, trace => do
    let (v, found) ← forwardDiagonals old new offset d (diagonals d) v
    let row ← (diagonals d).mapM fun k => vecGet v (offset + k)
    if found then some (v, trace ++ row, d)
    else forwardSearch offset fuel (d + 1) v (trace ++ row)

def compactTraceGet (cells : List ℕ) (depth : ℕ) (k : ℤ) : Option ℕ :=
  let index := (k + depth).tdiv 2
  if index < 0 then none else cells[depth * (depth + 1) / 2 + index.toNat]?

def popEqual : ℕ → ℤ → ℤ → List (Edit α) → Option (List (Edit α))
  | 0, _, _, acc => some acc
  | steps + 1, x, y, acc => do
    let o ← vecGet old (x - 1)
    let n ← vecGet new (y - 1)
    popEqual steps (x - 1) (y - 1) (.ofEqual o n :: acc)

def popDelete : ℕ → ℤ → List (Edit α) → Option (List (Edit α))
  | 0, _, acc => some acc
  | steps + 1, x, acc => do
    let o ← vecGet old (x - 1)
    popDelete steps (x - 1) (.ofDelete o :: acc)

def popInsert : ℕ → ℤ → List (Edit α) → Option (List (Edit α))
  | 0, _, acc => some acc
  | steps + 1, y, acc => do
    let n ← vecGet new (y - 1)
    popInsert steps (y - 1) (.ofInsert n :: acc)

def backtrack (trace : List ℕ) : ℕ → ℤ → ℤ → List (Edit α) → Option (List (Edit α))
  | 0, x, y, acc => do
    let steps := min x.toNat y.toNat
    let acc ← popEqual old new steps x y acc
    let acc ← popDelete old (x - steps).toNat (x - steps) acc
    popInsert new (y - steps).toNat (y - steps) acc
  | d + 1, x, y, acc => do
    let k := x - y
    let down ← stepsDown (compactTraceGet trace d) (d + 1) k
    let prevK := if down then k + 1 else k - 1
    let prevX ← compactTraceGet trace d prevK
    let prevY := (prevX : ℤ) - prevK
    let steps := min (x - prevX).toNat (y - prevY).toNat
    let acc ← popEqual old new steps x y acc
    if x - steps = prevX then do
      let n ← vecGet new (y - steps - 1)
      backtrack trace d (x - steps) (y - steps - 1) (.ofInsert n :: acc)
    else do
      let o ← vecGet old (x - steps - 1)
      backtrack trace d (x - steps - 1) (y - steps) (.ofDelete o :: acc)

def myersTrace : Option (List ℕ × List ℕ × ℕ) := do
  let max := old.length + new.length
  let offset : ℤ := max
  let v ← vecSet (replicate (max * 2 + 1) 0) offset (asU32 (slideFrom old new 0 0))
  let first ← vecGet v offset
  if asU32 old.length ≤ first ∧ asU32 new.length ≤ first then some (v, [first], 0)
  else forwardSearch old new offset max 1 v [first]

def myersSearch : Option (List (Edit α)) := do
  let (v, trace, lastD) ← myersTrace old new
  if old.length = 0 ∧ new.length = 0 then some []
  else do
    let first ← vecGet v (old.length + new.length : ℕ)
    if lastD = 0 ∧ old.length = new.length ∧ first = asU32 old.length then
      some (old.map fun s => .ofEqual s s)
    else backtrack old new trace lastD old.length new.length []

def myersEdits : Option (List (Edit α)) :=
  if old = [] ∨ new = [] then myersFallbackEdits old new
  else if usizeMax < old.length + new.length then myersFallbackEdits old new
  else if isizeMax < old.length + new.length then myersFallbackEdits old new
  else if u32Max < old.length + new.length then myersFallbackEdits old new
  else if usizeMax < (old.length + new.length) * 2 + 1 then myersFallbackEdits old new
  else myersSearch old new


def WentDown (f : ℤ → ℕ) (d : ℕ) (k : ℤ) : Prop :=
  k = -((d : ℤ) + 1) ∨ (k ≠ (d : ℤ) + 1 ∧ f (k - 1) < f (k + 1))

instance (f : ℤ → ℕ) (d : ℕ) (k : ℤ) : Decidable (WentDown f d k) :=
  inferInstanceAs (Decidable (_ ∨ _))

variable {f : ℤ → ℕ} {d : ℕ} {k : ℤ}

theorem stepsDown_spec {read : ℤ → Option ℕ}
    (h : ∀ j, Diagonal d j → read j = some (f j)) (hk : Diagonal (d + 1) k) :
    stepsDown read ((d : ℤ) + 1) k = some (decide (WentDown f d k)) := by
  unfold stepsDown
  by_cases hl : k = -((d : ℤ) + 1)
  · rw [if_pos hl, decide_eq_true (show WentDown f d k from Or.inl hl)]
  · rw [if_neg hl]
    by_cases hr : k = (d : ℤ) + 1
    · rw [if_pos hr, decide_eq_false fun hd => hd.elim hl fun hd => hd.1 hr]
    · rw [if_neg hr, h _ (diagonal_pred hk hl), h _ (diagonal_succ hk hr)]
      exact congrArg some (decide_eq_decide.mpr
        ⟨fun hlt => Or.inr ⟨hr, hlt⟩, fun hd => (hd.resolve_left hl).2⟩)

theorem entry_down (h : WentDown f d k) : entry f (d + 1) k = f (k + 1) := by
  rw [entry, if_pos]
  push_cast
  exact h

theorem entry_right (h : ¬WentDown f d k) : entry f (d + 1) k = f (k - 1) + 1 := by
  rw [entry, if_neg]
  push_cast
  exact h

theorem diagonal_of_down (hk : Diagonal (d + 1) k) (h : WentDown f d k) : Diagonal d (k + 1) :=
  diagonal_succ hk (by unfold WentDown at h; omega)

theorem diagonal_of_right (hk : Diagonal (d + 1) k) (h : ¬WentDown f d k) : Diagonal d (k - 1) :=
  diagonal_pred hk fun he => h (Or.inl he)

def Tracks (offset : ℤ) (d : ℕ) (v : List ℕ) : Prop :=
  ∀ k, Diagonal d k → vecGet v (offset + k) = some (furthest old new d k)

variable {offset : ℤ} {v : List ℕ}

theorem forwardX_spec (hv : Tracks old new offset d v) (hk : Diagonal (d + 1) k)
    (hb : entry (furthest old new d) (d + 1) k ≤ u32Max) :
    forwardX v offset ((d : ℤ) + 1) k = some (entry (furthest old new d) (d + 1) k) := by
  have hd := stepsDown_spec (fun j hj => hv j hj) hk
  simp only [forwardX, hd, bind_eq_bind, bind_some]
  by_cases h : WentDown (furthest old new d) d k
  · have hr := hv _ (diagonal_of_down hk h)
    rw [← Int.add_assoc] at hr
    simp only [h, decide_true, if_true, entry_down h, hr]
  · have hl := hv _ (diagonal_of_right hk h)
    rw [← Int.add_sub_assoc] at hl
    rw [entry_right h] at hb ⊢
    simp only [h, decide_false, Bool.false_eq_true, if_false, hl, bind_some, u32Succ,
      if_pos hb]

theorem entry_nonneg (hk : Diagonal (d + 1) k) : k ≤ entry (furthest old new d) (d + 1) k := by
  rcases entry_spec (f := furthest old new d) hk with ⟨j, hj, hjk, he⟩ | ⟨j, hj, hjk, he⟩
  · have := (furthest_reach old new d j hj).1
    omega
  · have := (furthest_reach old new d j hj).1
    omega

variable {x y : ℕ}

theorem slideFrom_past (h : ¬(x < old.length ∧ y < new.length)) : slideFrom old new x y = 0 := by
  have hl := slideFrom_le_left old new x y
  have hr := slideFrom_le_right old new x y
  omega

theorem followSnake_spec (hk : Diagonal (d + 1) k) :
    followSnake old new (entry (furthest old new d) (d + 1) k)
      ((entry (furthest old new d) (d + 1) k : ℤ) - k) = some (furthest old new (d + 1) k) := by
  have hn := entry_nonneg old new hk
  unfold followSnake
  split
  · have hy : ¬((entry (furthest old new d) (d + 1) k : ℤ) - k < 0) := by omega
    simp [hy, furthest]
  · rename_i h
    have h0 := slideFrom_past old new (x := entry (furthest old new d) (d + 1) k)
      (y := ((entry (furthest old new d) (d + 1) k : ℤ) - k).toNat) (by omega)
    simp [furthest, h0]

def Unfinished (d : ℕ) : Prop := ∀ e < d, ∀ j, ¬Finished old new e j

theorem asU32_furthest (hk : Diagonal d k) (hfirst : Unfinished old new d)
    (hsum : old.length + new.length ≤ u32Max) :
    asU32 (furthest old new d k) = furthest old new d k := by
  have := furthest_le old new hk hfirst
  exact mod_eq_of_lt (by omega)

theorem entry_le_furthest (d : ℕ) (k : ℤ) :
    entry (furthest old new d) (d + 1) k ≤ furthest old new (d + 1) k := by
  simp only [furthest]
  omega

theorem forwardDiagonals_spec (hfirst : Unfinished old new (d + 1))
    (hsum : old.length + new.length ≤ u32Max) (hoff : (d : ℤ) + 1 ≤ offset) (ks : List ℤ) :
    ∀ v : List ℕ, 2 * offset + 1 = v.length → Tracks old new offset d v →
      (∀ k ∈ ks, Diagonal (d + 1) k) → ks.Nodup →
      ∃ v' found, forwardDiagonals old new offset ((d : ℤ) + 1) ks v = some (v', found) ∧
        v'.length = v.length ∧ (∀ j, j ∉ ks → vecGet v' (offset + j) = vecGet v (offset + j)) ∧
        (found → ∃ k, Finished old new (d + 1) k) ∧
        (found = false → ∀ k ∈ ks, ¬Finished old new (d + 1) k ∧
          vecGet v' (offset + k) = some (furthest old new (d + 1) k)) := by
  induction ks with
  | nil =>
    intro v _ _ _ _
    exact ⟨v, false, rfl, rfl, fun _ _ => rfl, by simp, by simp⟩
  | cons k ks ih =>
    intro v hlen hv hks hnodup
    have hk := hks k mem_cons_self
    obtain ⟨hnotin, hnodup'⟩ := nodup_cons.mp hnodup
    have hle := furthest_le old new hk hfirst
    have hentry := entry_le_furthest old new d k
    have hstart := forwardX_spec old new hv hk (by omega)
    have hsnake := followSnake_spec old new hk
    have hcast := asU32_furthest old new hk hfirst hsum
    obtain ⟨v1, hset, hlen1⟩ := vecSet_isSome (l := v) (i := offset + k)
      (furthest old new (d + 1) k) (by unfold Diagonal at hk; omega)
      (by unfold Diagonal at hk; omega)
    simp only [forwardDiagonals, hstart, hsnake, hcast, hset, bind_eq_bind, bind_some]
    by_cases hfin : old.length ≤ furthest old new (d + 1) k ∧
        (new.length : ℤ) ≤ furthest old new (d + 1) k - k
    · refine ⟨v1, true, by rw [if_pos hfin], hlen1, ?_, fun _ => ⟨k, hk, hfin⟩, by simp⟩
      intro j hj
      have hjk : offset + j ≠ offset + k := by
        have : j ≠ k := fun h => hj (h ▸ mem_cons_self)
        omega
      simp [vecGet_vecSet hset, hjk]
    · have hv1 : Tracks old new offset d v1 := by
        intro j hj
        have hjk : offset + j ≠ offset + k := by
          have : j ≠ k := fun h => not_diagonal_succ hj (h ▸ hk)
          omega
        rw [vecGet_vecSet hset, if_neg hjk]
        exact hv j hj
      obtain ⟨v', found, hrun, hlen', hframe, hfound, hmiss⟩ :=
        ih v1 (by omega) hv1 (fun j hj => hks j (mem_cons_of_mem _ hj)) hnodup'
      refine ⟨v', found, by rw [if_neg hfin]; exact hrun, by omega, ?_, hfound, ?_⟩
      · intro j hj
        simp only [mem_cons, not_or] at hj
        have hjk : offset + j ≠ offset + k := by omega
        rw [hframe j hj.2, vecGet_vecSet hset, if_neg hjk]
      · intro hf j hj
        rcases mem_cons.mp hj with rfl | hj
        · refine ⟨fun h => hfin h.2, ?_⟩
          rw [hframe j hnotin, vecGet_vecSet hset, if_pos rfl]
        · exact hmiss hf j hj

theorem mem_diagonals : k ∈ diagonals d ↔ Diagonal d k := by
  unfold diagonals Diagonal
  simp only [List.mem_map, mem_range]
  constructor
  · rintro ⟨i, hi, rfl⟩
    omega
  · rintro ⟨hk, hpar⟩
    exact ⟨((k + d) / 2).toNat, by omega, by omega⟩

theorem diagonals_nodup (d : ℕ) : (diagonals d).Nodup :=
  Nodup.map (fun i j (h : -(d : ℤ) + 2 * i = -(d : ℤ) + 2 * j) => by omega) nodup_range

theorem length_diagonals (d : ℕ) : (diagonals d).length = d + 1 := by
  simp [diagonals]

theorem mapM_of_forall {β γ : Type} {f : β → Option γ} {g : β → γ} {l : List β}
    (h : ∀ b ∈ l, f b = some (g b)) : l.mapM f = some (l.map g) := by
  induction l with
  | nil => rfl
  | cons b l ih =>
    rw [mapM_cons, h b mem_cons_self, ih fun c hc => h c (mem_cons_of_mem _ hc)]
    rfl

def triangle (d : ℕ) : ℕ := d * (d + 1) / 2

theorem triangle_succ (d : ℕ) : triangle (d + 1) = triangle d + (d + 1) := by
  have h : (d + 1) * (d + 1 + 1) = d * (d + 1) + 2 * (d + 1) := by
    rw [mul_comm 2, ← mul_comm (d + 1), ← mul_add]
  rw [triangle, h, add_mul_div_left _ _ (by decide), ← triangle]

theorem triangle_mono {e : ℕ} (h : d ≤ e) : triangle d ≤ triangle e := by
  induction h with
  | refl => exact le_rfl
  | step _ ih =>
    rw [triangle_succ]
    omega

def rowIndex (d : ℕ) (k : ℤ) : ℕ := ((k + d) / 2).toNat

theorem compactTraceGet_eq {cells : List ℕ} (hk : Diagonal d k) :
    compactTraceGet cells d k = cells[triangle d + rowIndex d k]? := by
  have hpos : 0 ≤ k + d := by unfold Diagonal at hk; omega
  have hidx : ¬(k + (d : ℤ)) / 2 < 0 := by omega
  simp only [compactTraceGet, Int.tdiv_eq_ediv_of_nonneg hpos, if_neg hidx]
  rfl

theorem rowIndex_le (hk : Diagonal d k) : rowIndex d k ≤ d := by
  unfold rowIndex Diagonal at *
  omega

theorem diagonals_rowIndex (hk : Diagonal d k) : (diagonals d)[rowIndex d k]? = some k := by
  have hle := rowIndex_le hk
  rw [diagonals, getElem?_map, getElem?_range (by omega)]
  unfold rowIndex Diagonal at *
  simp only [map_some, some.injEq]
  omega

structure Recorded (d : ℕ) (trace : List ℕ) : Prop where
  cells : triangle (d + 1) ≤ trace.length
  rows : ∀ e ≤ d, ∀ k, Diagonal e k → compactTraceGet trace e k = some (furthest old new e k)

variable {trace : List ℕ}

theorem recorded_append (h : Recorded old new d trace) (row : List ℕ) :
    Recorded old new d (trace ++ row) := by
  refine ⟨by have := h.cells; simp only [length_append]; omega, ?_⟩
  intro e he k hk
  have hlt : triangle e + rowIndex e k < trace.length := by
    have hle := rowIndex_le hk
    have hmono := triangle_mono (succ_le_succ he)
    have hsucc := triangle_succ e
    have hcells := h.cells
    simp only [succ_eq_add_one] at hmono
    omega
  rw [compactTraceGet_eq hk, getElem?_append_left hlt, ← compactTraceGet_eq hk]
  exact h.rows e he k hk

theorem recorded_row {row : List ℕ} (h : Recorded old new d trace)
    (hlen : trace.length = triangle (d + 1))
    (hrow : row = (diagonals (d + 1)).map (furthest old new (d + 1))) :
    Recorded old new (d + 1) (trace ++ row) ∧ (trace ++ row).length = triangle (d + 1 + 1) := by
  have hsize : (trace ++ row).length = triangle (d + 1 + 1) := by
    rw [length_append, hrow, length_map, length_diagonals, triangle_succ (d + 1), hlen]
  refine ⟨⟨by omega, ?_⟩, hsize⟩
  intro e he k hk
  rcases lt_or_eq_of_le he with he | rfl
  · exact (recorded_append old new h row).rows e (by omega) k hk
  · rw [compactTraceGet_eq hk, getElem?_append_right (by omega), hlen,
      Nat.add_sub_cancel_left, hrow, getElem?_map, diagonals_rowIndex hk]
    rfl

theorem row_of_tracks (h : Tracks old new offset d v) :
    (diagonals d).mapM (fun k => vecGet v (offset + k)) =
      some ((diagonals d).map (furthest old new d)) :=
  mapM_of_forall fun k hk => h k (mem_diagonals.mp hk)

theorem row_in_range (hd : (d : ℤ) ≤ offset) (hlen : 2 * offset + 1 = v.length) :
    ∃ row, (diagonals d).mapM (fun k => vecGet v (offset + k)) = some row := by
  have hget : ∀ k ∈ diagonals d, vecGet v (offset + k) = some (v[(offset + k).toNat]?.getD 0) := by
    intro k hk
    have hk := mem_diagonals.mp hk
    unfold Diagonal at hk
    rw [vecGet_toNat (by omega), getElem?_eq_getElem (by omega)]
    rfl
  exact ⟨_, mapM_of_forall hget⟩

structure Searched (trace : List ℕ) (last : ℕ) : Prop where
  recorded : Recorded old new last trace
  first : Unfinished old new (last + 1)
  finished : ∃ k, Finished old new (last + 1) k

theorem unfinished_lt_depth (h : Unfinished old new (d + 1)) : d < old.length + new.length := by
  obtain ⟨e, he, k, hk⟩ := exists_finished old new
  by_contra hge
  exact h e (by omega) k hk

theorem forwardSearch_spec (hsum : old.length + new.length ≤ u32Max)
    (hoff : offset = (old.length + new.length : ℕ)) (fuel : ℕ) :
    ∀ d v trace, old.length + new.length ≤ d + fuel → 2 * offset + 1 = v.length →
      Tracks old new offset d v → Recorded old new d trace →
      trace.length = triangle (d + 1) → Unfinished old new (d + 1) →
      ∃ v' trace' last, forwardSearch old new offset fuel (d + 1) v trace =
          some (v', trace', last + 1) ∧ v'.length = v.length ∧ Searched old new trace' last := by
  induction fuel with
  | zero =>
    intro d v trace hfuel _ _ _ _ hfirst
    have := unfinished_lt_depth old new hfirst
    omega
  | succ fuel ih =>
    intro d v trace hfuel hlen hv htrace htlen hfirst
    have hdepth := unfinished_lt_depth old new hfirst
    have hwide : (d : ℤ) + 1 ≤ offset := by omega
    obtain ⟨v', found, hrun, hlen', _, hfound, hmiss⟩ :=
      forwardDiagonals_spec old new hfirst hsum hwide (diagonals (d + 1))
        v hlen hv (fun k hk => mem_diagonals.mp hk) (diagonals_nodup _)
    have hrun' : forwardDiagonals old new offset ((d + 1 : ℕ) : ℤ) (diagonals (d + 1)) v =
        some (v', found) := by
      rw [← hrun]
      push_cast
      rfl
    simp only [forwardSearch, hrun', bind_eq_bind, bind_some]
    cases found with
    | true =>
      obtain ⟨row, hrow⟩ := row_in_range (d := d + 1) (v := v')
        (by push_cast; exact hwide) (by omega)
      refine ⟨v', trace ++ row, d, by simp [hrow], hlen', ?_⟩
      exact ⟨recorded_append old new htrace row, hfirst, hfound rfl⟩
    | false =>
      have hv' : Tracks old new offset (d + 1) v' := fun k hk =>
        (hmiss rfl k (mem_diagonals.mpr hk)).2
      have hfirst' : Unfinished old new (d + 2) := by
        intro e he j hfin
        rcases lt_or_eq_of_le (le_of_lt_succ he) with he | rfl
        · exact hfirst e he j hfin
        · exact (hmiss rfl j (mem_diagonals.mpr hfin.1)).1 hfin
      obtain ⟨htrace', htlen'⟩ := recorded_row old new htrace htlen rfl
      rw [row_of_tracks old new hv']
      simp only [bind_some, Bool.false_eq_true, if_false]
      obtain ⟨w, t, last, hsearch, hwlen, hs⟩ := ih (d + 1) v' _ (by omega) (by omega) hv' htrace'
        htlen' hfirst'
      exact ⟨w, t, last, hsearch, by omega, hs⟩

omit [DecidableEq α] in
theorem popEqual_spec (steps : ℕ) : ∀ {x y : ℕ} {acc : List (Edit α)}, steps ≤ x → steps ≤ y →
    (∀ i, i < steps → ∃ a, old[x - steps + i]? = some a ∧ new[y - steps + i]? = some a) →
    Script (old.drop x) (new.drop y) acc →
    ∃ es, popEqual old new steps x y acc = some es ∧ changes es = changes acc ∧
      Script (old.drop (x - steps)) (new.drop (y - steps)) es := by
  induction steps with
  | zero =>
    intro x y acc _ _ _ hs
    exact ⟨acc, rfl, rfl, hs⟩
  | succ steps ih =>
    intro x y acc hx hy heq hs
    obtain ⟨a, ho, hn⟩ := heq steps (lt_succ_self steps)
    have ex : x - (steps + 1) + steps = x - 1 := by omega
    have ey : y - (steps + 1) + steps = y - 1 := by omega
    rw [ex] at ho
    rw [ey] at hn
    have hstep : Script (old.drop (x - 1)) (new.drop (y - 1)) (.ofEqual a a :: acc) := by
      have hlo := (List.getElem?_eq_some_iff.mp ho)
      have hln := (List.getElem?_eq_some_iff.mp hn)
      rw [drop_eq_getElem_cons hlo.1, drop_eq_getElem_cons hln.1, hlo.2, hln.2,
        Nat.sub_add_cancel (by omega), Nat.sub_add_cancel (by omega)]
      exact .equal a hs
    obtain ⟨es, hes, hchanges, hfinal⟩ := ih (x := x - 1) (y := y - 1) (by omega) (by omega)
      (fun i hi => by
        have := heq i (by omega)
        have ex' : x - 1 - steps + i = x - (steps + 1) + i := by omega
        have ey' : y - 1 - steps + i = y - (steps + 1) + i := by omega
        rwa [ex', ey']) hstep
    refine ⟨es, ?_, by rw [hchanges, changes_equal], ?_⟩
    · have cx : ((x : ℤ) - 1) = ((x - 1 : ℕ) : ℤ) := by omega
      have cy : ((y : ℤ) - 1) = ((y - 1 : ℕ) : ℤ) := by omega
      simp only [popEqual, cx, cy, vecGet_ofNat, ho, hn, bind_eq_bind, bind_some]
      exact hes
    · have ex' : x - (steps + 1) = x - 1 - steps := by omega
      have ey' : y - (steps + 1) = y - 1 - steps := by omega
      rwa [ex', ey']

structure Corner (d x y : ℕ) : Prop where
  diagonal : Diagonal d ((x : ℤ) - y)
  onFrontier : furthest old new d ((x : ℤ) - y) = x
  left : x ≤ old.length
  right : y ≤ new.length

def Matched (x y s : ℕ) : Prop := ∀ i, i < s → ∃ a, old[x + i]? = some a ∧ new[y + i]? = some a

inductive Retreat (d x y : ℕ) : Prop
  | down (px py s : ℕ) : Corner old new d px py → x = px + s → y = py + 1 + s →
      WentDown (furthest old new d) d ((x : ℤ) - y) → Matched old new px (py + 1) s → Retreat d x y
  | right (px py s : ℕ) : Corner old new d px py → x = px + 1 + s → y = py + s →
      ¬WentDown (furthest old new d) d ((x : ℤ) - y) → Matched old new (px + 1) py s → Retreat d x y

theorem corner_of_furthest {j : ℤ} (hj : Diagonal d j)
    (hy : (y : ℤ) = furthest old new d j - j) (hl : furthest old new d j ≤ old.length)
    (hr : y ≤ new.length) : Corner old new d (furthest old new d j) y := by
  have hk : (furthest old new d j : ℤ) - y = j := by omega
  exact ⟨by rw [hk]; exact hj, by rw [hk], hl, hr⟩

theorem retreat (h : Corner old new (d + 1) x y) : Retreat old new d x y := by
  obtain ⟨hk, hx, hleft, hright⟩ := h
  generalize hkdef : (x : ℤ) - y = k at hk hx
  have hmatch : Matched old new (entry (furthest old new d) (d + 1) k)
      ((entry (furthest old new d) (d + 1) k : ℤ) - k).toNat
      (slideFrom old new (entry (furthest old new d) (d + 1) k)
        ((entry (furthest old new d) (d + 1) k : ℤ) - k).toNat) :=
    fun _ hi => getElem?_slideFrom old new hi
  have hnonneg := entry_nonneg old new hk
  simp only [furthest] at hx
  generalize hs : slideFrom old new (entry (furthest old new d) (d + 1) k)
    ((entry (furthest old new d) (d + 1) k : ℤ) - k).toNat = s at hmatch hx
  by_cases h : WentDown (furthest old new d) d k
  · have hj := diagonal_of_down hk h
    have hle := (furthest_reach old new d _ hj).1
    rw [entry_down h] at hmatch hx
    obtain ⟨py, hpy⟩ : ∃ py : ℕ, (py : ℤ) = (furthest old new d (k + 1) : ℤ) - (k + 1) :=
      ⟨_, Int.toNat_of_nonneg (by omega)⟩
    have hcorner := corner_of_furthest old new (y := py) hj (by omega) (by omega) (by omega)
    refine .down _ py s hcorner (by omega) (by omega) (hkdef ▸ h) ?_
    have hy : ((furthest old new d (k + 1) : ℤ) - k).toNat = py + 1 := by omega
    rwa [hy] at hmatch
  · have hj := diagonal_of_right hk h
    have hle := (furthest_reach old new d _ hj).1
    rw [entry_right h] at hmatch hx
    obtain ⟨py, hpy⟩ : ∃ py : ℕ, (py : ℤ) = (furthest old new d (k - 1) : ℤ) - (k - 1) :=
      ⟨_, Int.toNat_of_nonneg (by omega)⟩
    have hcorner := corner_of_furthest old new (y := py) hj (by omega) (by omega) (by omega)
    refine .right _ py s hcorner (by omega) (by omega) (hkdef ▸ h) ?_
    have hy : (((furthest old new d (k - 1) + 1 : ℕ) : ℤ) - k).toNat = py := by omega
    rwa [hy] at hmatch

theorem corner_zero (h : Corner old new 0 x y) : y = x ∧ Matched old new 0 0 x := by
  have hk : (x : ℤ) - y = 0 := by
    have := h.diagonal
    unfold Diagonal at this
    omega
  have hx := h.onFrontier
  simp only [furthest] at hx
  refine ⟨by omega, fun i hi => ?_⟩
  have := getElem?_slideFrom old new (x := 0) (y := 0) (i := i) (by omega)
  simpa using this

variable {last : ℕ}

theorem backtrack_down {px py s : ℕ} {acc : List (Edit α)}
    (htrace : Recorded old new last trace) (hd : d ≤ last) (hp : Corner old new d px py)
    (hc : Corner old new (d + 1) (px + s) (py + 1 + s))
    (hdown : WentDown (furthest old new d) d (((px + s : ℕ) : ℤ) - (py + 1 + s : ℕ)))
    (hm : Matched old new px (py + 1) s)
    (hs : Script (old.drop (px + s)) (new.drop (py + 1 + s)) acc) :
    ∃ es, backtrack old new trace (d + 1) (px + s : ℕ) (py + 1 + s : ℕ) acc =
        backtrack old new trace d px py es ∧ changes es = changes acc + 1 ∧
      Script (old.drop px) (new.drop py) es := by
  have hlt : py < new.length := by have := hc.right; omega
  have hchoice := stepsDown_spec (htrace.rows d hd) hc.diagonal
  have hread := htrace.rows d hd _ hp.diagonal
  rw [hp.onFrontier] at hread
  obtain ⟨es, hes, hchanges, hscript⟩ := popEqual_spec old new s (x := px + s) (y := py + 1 + s)
    (by omega) (by omega) (by simpa [Matched] using hm) hs
  have ek : ((px + s : ℕ) : ℤ) - ((py + 1 + s : ℕ) : ℤ) + 1 = (px : ℤ) - py := by omega
  have esteps : min (((px + s : ℕ) : ℤ) - px).toNat
      (((py + 1 + s : ℕ) : ℤ) - ((px : ℤ) - ((px : ℤ) - py))).toNat = s := by omega
  have ex : ((px + s : ℕ) : ℤ) - s = px := by omega
  have ey : ((py + 1 + s : ℕ) : ℤ) - s - 1 = py := by omega
  have hn := getElem?_eq_getElem hlt
  refine ⟨.ofInsert new[py] :: es, ?_, by rw [changes_insert, hchanges], ?_⟩
  · simp only [backtrack, hchoice, hdown, decide_true, if_true, ek, hread, esteps, hes, ex, ey,
      vecGet_ofNat, hn, bind_eq_bind, bind_some]
  · rw [drop_eq_getElem_cons hlt]
    simp only [Nat.add_sub_cancel] at hscript
    exact .insert _ hscript

theorem backtrack_right {px py s : ℕ} {acc : List (Edit α)}
    (htrace : Recorded old new last trace) (hd : d ≤ last) (hp : Corner old new d px py)
    (hc : Corner old new (d + 1) (px + 1 + s) (py + s))
    (hright : ¬WentDown (furthest old new d) d (((px + 1 + s : ℕ) : ℤ) - (py + s : ℕ)))
    (hm : Matched old new (px + 1) py s)
    (hs : Script (old.drop (px + 1 + s)) (new.drop (py + s)) acc) :
    ∃ es, backtrack old new trace (d + 1) (px + 1 + s : ℕ) (py + s : ℕ) acc =
        backtrack old new trace d px py es ∧ changes es = changes acc + 1 ∧
      Script (old.drop px) (new.drop py) es := by
  have hlt : px < old.length := by have := hc.left; omega
  have hchoice := stepsDown_spec (htrace.rows d hd) hc.diagonal
  have hread := htrace.rows d hd _ hp.diagonal
  rw [hp.onFrontier] at hread
  obtain ⟨es, hes, hchanges, hscript⟩ := popEqual_spec old new s (x := px + 1 + s) (y := py + s)
    (by omega) (by omega) (by simpa [Matched] using hm) hs
  have ek : ((px + 1 + s : ℕ) : ℤ) - ((py + s : ℕ) : ℤ) - 1 = (px : ℤ) - py := by omega
  have esteps : min (((px + 1 + s : ℕ) : ℤ) - px).toNat
      (((py + s : ℕ) : ℤ) - ((px : ℤ) - ((px : ℤ) - py))).toNat = s := by omega
  have ene : ¬(((px + 1 + s : ℕ) : ℤ) - s = px) := by omega
  have ex : ((px + 1 + s : ℕ) : ℤ) - s - 1 = px := by omega
  have ey : ((py + s : ℕ) : ℤ) - s = py := by omega
  have ho := getElem?_eq_getElem hlt
  refine ⟨.ofDelete old[px] :: es, ?_, by rw [changes_delete, hchanges], ?_⟩
  · simp only [backtrack, hchoice, hright, decide_false, Bool.false_eq_true, if_false, ek, hread,
      esteps, hes, ene, ex, ey, vecGet_ofNat, ho, bind_eq_bind, bind_some]
  · rw [drop_eq_getElem_cons hlt]
    simp only [Nat.add_sub_cancel] at hscript
    exact .delete _ hscript

theorem backtrack_spec (htrace : Recorded old new last trace) (d : ℕ) :
    ∀ {x y : ℕ} {acc : List (Edit α)}, d ≤ last + 1 → Corner old new d x y →
      Script (old.drop x) (new.drop y) acc →
      ∃ es, backtrack old new trace d x y acc = some es ∧ changes es = changes acc + d ∧
        Script old new es := by
  induction d with
  | zero =>
    intro x y acc _ hc hs
    obtain ⟨rfl, hm⟩ := corner_zero old new hc
    obtain ⟨es, hes, hchanges, hfinal⟩ := popEqual_spec old new y (x := y) (y := y) le_rfl le_rfl
      (by simpa [Matched] using hm) hs
    refine ⟨es, ?_, hchanges, by simpa using hfinal⟩
    simp [backtrack, hes, popDelete, popInsert]
  | succ d ih =>
    intro x y acc hd hc hs
    rcases retreat old new hc with ⟨px, py, s, hp, rfl, rfl, hdown, hm⟩ |
      ⟨px, py, s, hp, rfl, rfl, hright, hm⟩
    · obtain ⟨es, hes, hchanges, hs'⟩ :=
        backtrack_down old new htrace (by omega) hp hc hdown hm hs
      obtain ⟨final, hfinal, hcount, hscript⟩ := ih (by omega) hp hs'
      exact ⟨final, hes ▸ hfinal, by omega, hscript⟩
    · obtain ⟨es, hes, hchanges, hs'⟩ :=
        backtrack_right old new htrace (by omega) hp hc hright hm hs
      obtain ⟨final, hfinal, hcount, hscript⟩ := ih (by omega) hp hs'
      exact ⟨final, hes ▸ hfinal, by omega, hscript⟩

theorem corner_of_searched (h : Searched old new trace last) :
    Corner old new (last + 1) old.length new.length := by
  obtain ⟨k, hk⟩ := h.finished
  obtain ⟨hx, hdiag⟩ := finished_first old new hk h.first
  exact ⟨hdiag ▸ hk.1, hdiag ▸ hx, le_rfl, le_rfl⟩

theorem furthest_zero (k : ℤ) : furthest old new 0 k = slideFrom old new 0 0 := rfl

theorem eq_of_slideFrom (h : old.length ≤ slideFrom old new 0 0)
    (h' : new.length ≤ slideFrom old new 0 0) : old = new := by
  have hl := slideFrom_le_left old new 0 0
  have hr := slideFrom_le_right old new 0 0
  apply ext_getElem? 
  intro i
  by_cases hi : i < slideFrom old new 0 0
  · obtain ⟨a, ha, hb⟩ := getElem?_slideFrom old new hi
    rw [zero_add] at ha hb
    rw [ha, hb]
  · rw [getElem?_eq_none (by omega), getElem?_eq_none (by omega)]

theorem asU32_of_le (h : x ≤ u32Max) : asU32 x = x := mod_eq_of_lt (by omega)

theorem recorded_zero : Recorded old new 0 [slideFrom old new 0 0] := by
  refine ⟨by simp [triangle], ?_⟩
  intro e he k hk
  obtain rfl : e = 0 := by omega
  obtain rfl : k = 0 := by unfold Diagonal at hk; omega
  rw [compactTraceGet_eq hk]
  rfl

theorem finished_zero (h : Finished old new 0 k) :
    old.length ≤ slideFrom old new 0 0 ∧ new.length ≤ slideFrom old new 0 0 := by
  obtain ⟨hk, hx, hy⟩ := h
  simp only [furthest] at hx hy
  unfold Diagonal at hk
  omega

theorem firstVector_spec :
    ∃ v, vecSet (replicate ((old.length + new.length) * 2 + 1) (0 : ℕ))
        (old.length + new.length : ℕ) (slideFrom old new 0 0) = some v ∧
      2 * ((old.length + new.length : ℕ) : ℤ) + 1 = v.length ∧
      Tracks old new (old.length + new.length : ℕ) 0 v := by
  obtain ⟨v, hset, hlen⟩ := vecSet_isSome
    (l := replicate ((old.length + new.length) * 2 + 1) (0 : ℕ))
    (i := ((old.length + new.length : ℕ) : ℤ)) (slideFrom old new 0 0) (by omega)
    (by rw [length_replicate]; omega)
  refine ⟨v, hset, by rw [hlen, length_replicate]; omega, ?_⟩
  intro k hk
  obtain rfl : k = 0 := by unfold Diagonal at hk; omega
  rw [Int.add_zero, vecGet_vecSet hset, if_pos rfl, furthest_zero]

theorem myersTrace_spec (hsum : old.length + new.length ≤ u32Max) :
    ∃ v trace last, myersTrace old new = some (v, trace, last) ∧
      (∃ first, vecGet v (old.length + new.length : ℕ) = some first) ∧
      ((last = 0 ∧ vecGet v (old.length + new.length : ℕ) = some old.length ∧ old = new) ∨
        ∃ d, last = d + 1 ∧ Searched old new trace d) := by
  have hle := slideFrom_le_left old new 0 0
  obtain ⟨v, hset, hlen, hv⟩ := firstVector_spec old new
  have hget : vecGet v (old.length + new.length : ℕ) = some (slideFrom old new 0 0) := by
    have h0 := hv 0 ⟨le_rfl, by simp⟩
    rwa [Int.add_zero] at h0
  have eslide : asU32 (slideFrom old new 0 0) = slideFrom old new 0 0 := asU32_of_le (by omega)
  have eold : asU32 old.length = old.length := asU32_of_le (by omega)
  have enew : asU32 new.length = new.length := asU32_of_le (by omega)
  simp only [myersTrace, eslide, eold, enew, hset, hget, bind_eq_bind, bind_some]
  by_cases hall : old.length ≤ slideFrom old new 0 0 ∧ new.length ≤ slideFrom old new 0 0
  · refine ⟨v, _, 0, if_pos hall, ⟨_, hget⟩,
      Or.inl ⟨rfl, ?_, eq_of_slideFrom old new hall.1 hall.2⟩⟩
    rw [hget, some.injEq]
    omega
  · have hfirst : Unfinished old new (0 + 1) := by
      intro e he j hfin
      obtain rfl : e = 0 := by omega
      exact hall (finished_zero old new hfin)
    obtain ⟨v', trace, last, hrun, hlen', hs⟩ := forwardSearch_spec old new hsum rfl
      (old.length + new.length) 0 v _ (by omega) hlen hv (recorded_zero old new) rfl hfirst
    refine ⟨v', trace, last + 1, by rw [if_neg hall]; exact hrun, ?_, Or.inr ⟨last, rfl, hs⟩⟩
    exact ⟨_, by rw [vecGet_ofNat, getElem?_eq_getElem (by omega)]⟩

theorem Searched.least (h : Searched old new trace last)
    (hd : Reach old new d old.length new.length) : last + 1 ≤ d :=
  Nat.le_of_not_lt fun hlt => h.first d hlt _ (finished_of_reach old new hd)

theorem myersSearch_spec (hold : old ≠ []) (hsum : old.length + new.length ≤ u32Max) :
    ∃ es, myersSearch old new = some es ∧ Script old new es ∧
      ∀ d, Reach old new d old.length new.length → changes es ≤ d := by
  have hpos : ¬(old.length = 0 ∧ new.length = 0) := by simp [hold]
  obtain ⟨v, trace, last, hrun, ⟨first, hget⟩, hcase⟩ := myersTrace_spec old new hsum
  simp only [myersSearch, hrun, if_neg hpos, bind_eq_bind, bind_some]
  rcases hcase with ⟨rfl, hfirst, rfl⟩ | ⟨d, rfl, hs⟩
  · have eold : asU32 old.length = old.length := asU32_of_le (by omega)
    refine ⟨_, ?_, script_equals old, fun d _ => ?_⟩
    · rw [hfirst]
      simp [eold]
    · rw [changes_equals]
      exact d.zero_le
  · have hend : Script (old.drop old.length) (new.drop new.length) [] := by
      simpa using Script.nil
    obtain ⟨es, hes, hchanges, hscript⟩ := backtrack_spec old new hs.recorded (d + 1) le_rfl
      (corner_of_searched old new hs) hend
    refine ⟨es, ?_, hscript, fun e he => ?_⟩
    · rw [hget]
      simp [hes]
    · rw [hchanges, changes_nil, zero_add]
      exact hs.least old new he

theorem myersEdits_spec : ∃ es, myersEdits old new = some es ∧ Script old new es := by
  unfold myersEdits
  by_cases hempty : old = [] ∨ new = []
  · rw [if_pos hempty]
    exact myersFallbackEdits_spec old new
  rw [if_neg hempty]
  by_cases hadd : usizeMax < old.length + new.length
  · rw [if_pos hadd]
    exact myersFallbackEdits_spec old new
  rw [if_neg hadd]
  by_cases hisize : isizeMax < old.length + new.length
  · rw [if_pos hisize]
    exact myersFallbackEdits_spec old new
  rw [if_neg hisize]
  by_cases hu32 : u32Max < old.length + new.length
  · rw [if_pos hu32]
    exact myersFallbackEdits_spec old new
  rw [if_neg hu32]
  by_cases hsize : usizeMax < (old.length + new.length) * 2 + 1
  · rw [if_pos hsize]
    exact myersFallbackEdits_spec old new
  rw [if_neg hsize]
  obtain ⟨es, hes, hscript, -⟩ :=
    myersSearch_spec old new (fun h => hempty (Or.inl h)) (Nat.le_of_not_lt hu32)
  exact ⟨es, hes, hscript⟩

end

end GitComet.FileDiff
