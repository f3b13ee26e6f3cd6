import GitComet.Basis.ByteOrder
import GitComet.Basis.Alignment

namespace GitComet.FileDiff
open List ByteOrder Levenshtein Alignment

section
variable {α : Type} [DecidableEq α]

def resize (cache : List ℕ) (size : ℕ) : List ℕ :=
  cache.take size ++ replicate (size - cache.length) 0

def distanceRow (aCh : α) : List α → List ℕ → ℕ → ℕ → List ℕ × ℕ
  | bCh :: b, cell :: cache, distanceB, result =>
    let cost := unequal aCh bCh
    let distanceA := distanceB + cost
    let distanceB := cell
    let result := min (min (result + 1) distanceA) (distanceB + 1)
    let row := distanceRow aCh b cache distanceB result
    (result :: row.1, row.2)
  | _, cache, _, result => (cache, result)

def distanceRows (b : List α) : List α → ℕ → List ℕ → ℕ → List ℕ × ℕ
  | [], _, cache, result => (cache, result)
  | aCh :: a, i, cache, _ =>
    let row := distanceRow aCh b cache i (i + 1)
    distanceRows b a (i + 1) row.1 row.2

-- `none` where a debug assertion fails.
def distanceNonEmptyUnequalWithCache (cache : List ℕ) (a b : List α) : Option (List ℕ × ℕ) :=
  if a = [] ∨ b = [] ∨ a = b then none
  else
    let (a, b) := if a.length < b.length then (a, b) else (b, a)
    let cache := (resize cache b.length).mapIdx fun ix _ => ix + 1
    some (distanceRows b a 0 cache b.length)

def LevenshteinScratch.distance (cache : List ℕ) (a b : List α) : Option (List ℕ × ℕ) :=
  if a = b then some (cache, 0)
  else if a = [] then some (cache, b.length)
  else if b = [] then some (cache, a.length)
  else distanceNonEmptyUnequalWithCache cache a b

def rowCells (done : List α) : List α → List α → List ℕ
  | _, [] => []
  | before, y :: ys => levenshtein done (before ++ [y]) :: rowCells done (before ++ [y]) ys

theorem distanceRow_exact (done : List α) (x : α) (ys : List α) : ∀ before : List α,
    distanceRow x ys (rowCells done before ys) (levenshtein done before)
        (levenshtein (done ++ [x]) before) =
      (rowCells (done ++ [x]) before ys, levenshtein (done ++ [x]) (before ++ ys)) := by
  induction ys with
  | nil =>
    intro before
    rw [distanceRow, append_nil]
    · rfl
    · rintro _ _ _ _ h
      cases h
  | cons y ys ih =>
    intro before
    have hcell : min (min (levenshtein (done ++ [x]) before + 1)
        (levenshtein done before + unequal x y)) (levenshtein done (before ++ [y]) + 1) =
          levenshtein (done ++ [x]) (before ++ [y]) := by
      rw [levenshtein_concat]
      omega
    rw [rowCells, distanceRow, hcell, ih, append_assoc]
    rfl

theorem rowCells_nil (ys : List α) : ∀ before : List α,
    rowCells [] before ys = range' (before.length + 1) ys.length := by
  induction ys with
  | nil => exact fun _ => rfl
  | cons y ys ih =>
    intro before
    rw [rowCells, ih, levenshtein_nil_left, length_append, length_singleton,
      length_cons, range'_succ]

theorem mapIdx_succ (cache : List ℕ) :
    (cache.mapIdx fun ix _ => ix + 1) = range' 1 cache.length := by
  refine ext_getElem ?_ fun i hi hi' => ?_
  · rw [length_mapIdx, length_range']
  · rw [getElem_mapIdx, getElem_range']
    omega

theorem distanceRows_exact (b a : List α) : ∀ (done : List α) (result : ℕ), a ≠ [] →
    (distanceRows b a done.length (rowCells done [] b) result).2 = levenshtein (done ++ a) b := by
  induction a with
  | nil => exact fun _ _ h => (h rfl).elim
  | cons x a ih =>
    intro done result _
    have hrow := distanceRow_exact done x b []
    rw [levenshtein_nil_right, levenshtein_nil_right, length_append, length_singleton,
      nil_append] at hrow
    rw [distanceRows, hrow]
    cases a with
    | nil => rfl
    | cons x' a =>
      have h := ih (done ++ [x]) (levenshtein (done ++ [x]) b) (cons_ne_nil _ _)
      rw [length_append, append_assoc] at h
      exact h

theorem resize_length (cache : List ℕ) (size : ℕ) : (resize cache size).length = size := by
  rw [resize, length_append, length_take, length_replicate]
  omega

theorem cachedRows_exact (cache : List ℕ) {a : List α} (b : List α) (ha : a ≠ []) :
    (distanceRows b a 0 ((resize cache b.length).mapIdx fun ix _ => ix + 1) b.length).2 =
      levenshtein a b := by
  have h := distanceRows_exact b a [] b.length ha
  rw [rowCells_nil] at h
  rw [mapIdx_succ, resize_length]
  exact h

theorem distanceNonEmptyUnequalWithCache_exact (cache : List ℕ) {a b : List α} (ha : a ≠ [])
    (hb : b ≠ []) (hab : a ≠ b) :
    (distanceNonEmptyUnequalWithCache cache a b).map Prod.snd = some (levenshtein a b) := by
  rw [distanceNonEmptyUnequalWithCache, if_neg (by
    rintro (h | h | h)
    · exact ha h
    · exact hb h
    · exact hab h)]
  by_cases hlen : a.length < b.length
  · rw [if_pos hlen]
    exact congrArg some (cachedRows_exact cache b ha)
  · rw [if_neg hlen, levenshtein_comm]
    exact congrArg some (cachedRows_exact cache a hb)

theorem LevenshteinScratch.distance_exact (cache : List ℕ) (a b : List α) :
    (LevenshteinScratch.distance cache a b).map Prod.snd = some (levenshtein a b) := by
  rw [LevenshteinScratch.distance]
  by_cases hab : a = b
  · rw [if_pos hab, hab, levenshtein_self]
    rfl
  by_cases ha : a = []
  · rw [if_neg hab, if_pos ha, ha, levenshtein_nil_left]
    rfl
  by_cases hb : b = []
  · rw [if_neg hab, if_neg ha, if_pos hb, hb, levenshtein_nil_right]
    rfl
  · rw [if_neg hab, if_neg ha, if_neg hb]
    exact distanceNonEmptyUnequalWithCache_exact cache ha hb hab

end

end GitComet.FileDiff
