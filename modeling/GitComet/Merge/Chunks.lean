import Mathlib.Data.List.Chain
import GitComet.FileDiff.Plan
import GitComet.Merge.Row

namespace GitComet.Merge
open Slice CommonPrefix Text FileDiff List Option Nat

inductive DiffAlgorithm where
  | myers
  | histogram
  deriving DecidableEq

structure PairChunk where
  equal : ℕ
  left : ℕ
  right : ℕ
  deriving DecidableEq

def PairChunk.empty : PairChunk := ⟨0, 0, 0⟩

variable {cs : List PairChunk}

section
variable {α : Type}

def changeRun (edits : List (Edit α)) : List (Edit α) :=
  edits.takeWhile fun e => decide (e.kind ≠ .equal)

def countKind (kind : EditKind) (edits : List (Edit α)) : ℕ :=
  edits.countP fun e => decide (e.kind = kind)

def pairChunks : ℕ → List (Edit α) → List PairChunk
  | 0, _ => []
  | _ + 1, [] => []
  | fuel + 1, edit :: edits =>
    let equal := kindRun .equal (edit :: edits)
    let rest := (edit :: edits).drop equal
    let changed := changeRun rest
    let chunk := ⟨equal, countKind .delete changed, countKind .insert changed⟩
    if chunk = PairChunk.empty then pairChunks fuel (rest.drop changed.length)
    else chunk :: pairChunks fuel (rest.drop changed.length)

def equalChunk (equal : ℕ) : List PairChunk := if 0 < equal then [⟨equal, 0, 0⟩] else []

def runDiff [DecidableEq α] (algorithm : DiffAlgorithm) (left right : List α) :
    Option (List (Edit α)) :=
  match algorithm with
  | .myers => myersEdits left right
  | .histogram => histogramEdits left right

def diffChunks (algorithm : DiffAlgorithm) (left right : List Line) :
    Option (List PairChunk) := do
  let ends := commonEnds left right
  let leftMid ← sliceOf left ends.1 (left.length - ends.2)
  let rightMid ← sliceOf right ends.1 (right.length - ends.2)
  let edits ← runDiff algorithm (leftMid.map normalizedWithoutWhitespace)
    (rightMid.map normalizedWithoutWhitespace)
  some (equalChunk ends.1 ++ pairChunks edits.length edits ++ equalChunk ends.2)

inductive Aligned (R : α → α → Prop) : List α → List α → List PairChunk → Prop
  | nil : Aligned R [] [] []
  | cons {es es' ls rs xs ys cs} : Forall₂ R es es' → Aligned R xs ys cs →
      Aligned R (es ++ ls ++ xs) (es' ++ rs ++ ys) (⟨es.length, ls.length, rs.length⟩ :: cs)

variable {R : α → α → Prop} {xs ys : List α}

theorem Aligned.cons_split {es es' : List α}
    (h : Aligned R xs ys cs) (he : Forall₂ R es es') (ls rs : List α) :
    Aligned R (es ++ ls ++ xs) (es' ++ rs ++ ys) (⟨es.length, ls.length, rs.length⟩ :: cs) :=
  .cons he h

theorem Aligned.append {xs' ys' : List α} {cs' : List PairChunk}
    (h : Aligned R xs ys cs) (h' : Aligned R xs' ys' cs') :
    Aligned R (xs ++ xs') (ys ++ ys') (cs ++ cs') := by
  induction h with
  | nil => exact h'
  | cons he _ ih =>
    simp only [append_assoc, cons_append]
    simpa only [append_assoc] using Aligned.cons he ih

theorem aligned_of_map {β : Type} {f : α → β} {xs' ys' : List β}
    (h : Aligned Eq xs' ys' cs) : ∀ {xs ys : List α}, xs.map f = xs' → ys.map f = ys' →
      Aligned (fun x y => f x = f y) xs ys cs := by
  induction h with
  | nil =>
    intro xs ys hx hy
    rw [map_eq_nil_iff.mp hx, map_eq_nil_iff.mp hy]
    exact .nil
  | @cons es es' ls rs us vs cs he _ ih =>
    intro xs ys hx hy
    obtain ⟨xs1, xs2, rfl, hx1, hx2⟩ := map_eq_append_iff.mp hx
    obtain ⟨ex, lx, rfl, hex, hlx⟩ := map_eq_append_iff.mp hx1
    obtain ⟨ys1, ys2, rfl, hy1, hy2⟩ := map_eq_append_iff.mp hy
    obtain ⟨ey, ry, rfl, hey, hry⟩ := map_eq_append_iff.mp hy1
    have hforall : Forall₂ (fun x y => f x = f y) ex ey := by
      rw [← hex, ← hey, forall₂_map_left_iff, forall₂_map_right_iff] at he
      exact he
    have hlen : es.length = ex.length := by rw [← hex, length_map]
    have hll : ls.length = lx.length := by rw [← hlx, length_map]
    have hrl : rs.length = ry.length := by rw [← hry, length_map]
    rw [hlen, hll, hrl]
    exact .cons hforall (ih hx2 hy2)

theorem changeRun_cons (e : Edit α) (es : List (Edit α)) :
    changeRun (e :: es) = if e.kind = .equal then [] else e :: changeRun es := by
  by_cases h : e.kind = .equal <;> simp [changeRun, h]

theorem countKind_cons (kind : EditKind) (e : Edit α) (es : List (Edit α)) :
    countKind kind (e :: es) = countKind kind es + if e.kind = kind then 1 else 0 := by
  by_cases h : e.kind = kind <;> simp [countKind, h]

theorem countKind_changeRun (es : List (Edit α)) :
    countKind .delete (changeRun es) + countKind .insert (changeRun es) =
      (changeRun es).length := by
  induction es with
  | nil => rfl
  | cons e es ih =>
    rw [changeRun_cons]
    split
    · rfl
    · rename_i h
      rw [countKind_cons, countKind_cons, length_cons]
      cases hkind : e.kind with
      | equal => exact absurd hkind h
      | insert =>
        simp only [reduceCtorEq, if_false, if_true]
        omega
      | delete =>
        simp only [reduceCtorEq, if_false, if_true]
        omega

structure ChangeSplit (xs ys : List α) (es : List (Edit α)) : Prop where
  left : countKind .delete (changeRun es) ≤ xs.length
  right : countKind .insert (changeRun es) ≤ ys.length
  rest : Script (xs.drop (countKind .delete (changeRun es)))
    (ys.drop (countKind .insert (changeRun es))) (es.drop (changeRun es).length)

theorem script_changeRun {es : List (Edit α)} (h : Script xs ys es) : ChangeSplit xs ys es := by
  induction h with
  | nil => exact ⟨le_refl _, le_refl _, .nil⟩
  | @equal xs ys es a h _ =>
    have hrun : changeRun (Edit.ofEqual a a :: es) = [] := by simp [changeRun_cons, Edit.ofEqual]
    refine ⟨?_, ?_, ?_⟩ <;> rw [hrun]
    · exact zero_le _
    · exact zero_le _
    · exact .equal a h
  | @delete xs ys es a _ ih =>
    have hrun : changeRun (Edit.ofDelete a :: es) = Edit.ofDelete a :: changeRun es := by
      simp [changeRun_cons, Edit.ofDelete]
    have hd : countKind .delete (Edit.ofDelete a :: changeRun es) =
        countKind .delete (changeRun es) + 1 := by simp [countKind_cons, Edit.ofDelete]
    have hi : countKind .insert (Edit.ofDelete a :: changeRun es) =
        countKind .insert (changeRun es) := by simp [countKind_cons, Edit.ofDelete]
    refine ⟨?_, ?_, ?_⟩ <;> simp only [hrun, hd, hi]
    · have := ih.left
      simp only [length_cons]
      omega
    · exact ih.right
    · exact ih.rest
  | @insert xs ys es a _ ih =>
    have hrun : changeRun (Edit.ofInsert a :: es) = Edit.ofInsert a :: changeRun es := by
      simp [changeRun_cons, Edit.ofInsert]
    have hd : countKind .delete (Edit.ofInsert a :: changeRun es) =
        countKind .delete (changeRun es) := by simp [countKind_cons, Edit.ofInsert]
    have hi : countKind .insert (Edit.ofInsert a :: changeRun es) =
        countKind .insert (changeRun es) + 1 := by simp [countKind_cons, Edit.ofInsert]
    refine ⟨?_, ?_, ?_⟩ <;> simp only [hrun, hd, hi]
    · exact ih.left
    · have := ih.right
      simp only [length_cons]
      omega
    · exact ih.rest

theorem pairChunks_consumes {e : Edit α} {s : List (Edit α)} :
    0 < kindRun .equal (e :: s) + (changeRun ((e :: s).drop (kindRun .equal (e :: s)))).length := by
  rw [kindRun_cons]
  by_cases h : e.kind = .equal
  · rw [if_pos h]
    omega
  · rw [if_neg h, drop_zero, changeRun_cons, if_neg h, length_cons]
    omega

theorem forall₂_eq_self (xs : List α) : Forall₂ Eq xs xs := by
  induction xs with
  | nil => exact .nil
  | cons x xs ih => exact .cons rfl ih

theorem pairChunks_aligned (fuel : ℕ) : ∀ {xs ys : List α} {es : List (Edit α)},
    Script xs ys es → es.length ≤ fuel → Aligned Eq xs ys (pairChunks fuel es) := by
  induction fuel with
  | zero =>
    intro xs ys es h hlen
    obtain rfl := length_eq_zero_iff.mp (le_zero.mp hlen)
    cases h
    exact .nil
  | succ fuel ih =>
    intro xs ys es h hlen
    cases es with
    | nil =>
      cases h
      exact .nil
    | cons e es =>
      obtain ⟨hl, hr, he, hs⟩ := script_equalRun h
      have hc := script_changeRun hs
      have hconsume := pairChunks_consumes (e := e) (s := es)
      have hcount := countKind_changeRun ((e :: es).drop (kindRun .equal (e :: es)))
      simp only [pairChunks]
      generalize kindRun .equal (e :: es) = n at *
      obtain ⟨hcl, hcr, hcs⟩ := hc
      generalize hchanged : changeRun ((e :: es).drop n) = changed at *
      have hne : ¬((⟨n, countKind .delete changed, countKind .insert changed⟩ : PairChunk) =
          .empty) := by
        simp only [PairChunk.empty, PairChunk.mk.injEq]
        omega
      rw [if_neg hne]
      have hlen' : (((e :: es).drop n).drop changed.length).length ≤ fuel := by
        simp only [length_drop, length_cons] at hlen ⊢
        omega
      have hrest := ih hcs hlen'
      have hforall : Forall₂ Eq (xs.take n) (ys.take n) := he ▸ forall₂_eq_self _
      have hcons := hrest.cons_split hforall ((xs.drop n).take (countKind .delete changed))
        ((ys.drop n).take (countKind .insert changed))
      have en : (xs.take n).length = n := length_take_of_le hl
      have ed : ((xs.drop n).take (countKind .delete changed)).length =
          countKind .delete changed := length_take_of_le hcl
      have ei : ((ys.drop n).take (countKind .insert changed)).length =
          countKind .insert changed := length_take_of_le hcr
      rw [en, ed, ei] at hcons
      simpa only [append_assoc, take_append_drop] using hcons

def leftSpan (cs : List PairChunk) : ℕ := (cs.map fun chunk => chunk.equal + chunk.left).sum

def rightSpan (cs : List PairChunk) : ℕ := (cs.map fun chunk => chunk.equal + chunk.right).sum

theorem Aligned.leftSpan (h : Aligned R xs ys cs) : leftSpan cs = xs.length := by
  induction h with
  | nil => rfl
  | cons _ _ ih =>
    simp only [Merge.leftSpan, map_cons, sum_cons, length_append] at ih ⊢
    omega

theorem Aligned.rightSpan (h : Aligned R xs ys cs) : rightSpan cs = ys.length := by
  induction h with
  | nil => rfl
  | cons he _ ih =>
    have := he.length_eq
    simp only [Merge.rightSpan, map_cons, sum_cons, length_append] at ih ⊢
    omega

theorem equalChunk_aligned (h : Forall₂ R xs ys) : Aligned R xs ys (equalChunk xs.length) := by
  unfold equalChunk
  split
  · simpa using Aligned.nil.cons_split h [] []
  · rename_i hzero
    obtain rfl := length_eq_zero_iff.mp (by omega : xs.length = 0)
    cases h
    exact .nil

def Chained (cs : List PairChunk) : Prop :=
  cs.IsChain fun chunk next => chunk.left = 0 ∧ chunk.right = 0 ∨ 0 < next.equal

theorem changeRun_rest (es : List (Edit α)) :
    ∀ e ∈ (es.drop (changeRun es).length).head?, e.kind = .equal := by
  induction es with
  | nil => simp [changeRun]
  | cons e es ih =>
    rw [changeRun_cons]
    split
    · rename_i h
      intro e' he'
      rw [← some.inj he', h]
    · simpa using ih

theorem pairChunks_head (fuel : ℕ) {es : List (Edit α)} (h : ∀ e ∈ es.head?, e.kind = .equal) :
    ∀ chunk ∈ (pairChunks fuel es).head?, 0 < chunk.equal := by
  cases fuel with
  | zero => simp [pairChunks]
  | succ fuel =>
    cases es with
    | nil => simp [pairChunks]
    | cons e es =>
      have he : e.kind = .equal := h e rfl
      have hrun : 0 < kindRun .equal (e :: es) := by
        rw [kindRun_cons, if_pos he]
        omega
      intro chunk hchunk
      simp only [pairChunks] at hchunk
      rw [if_neg (by simp only [PairChunk.empty, PairChunk.mk.injEq]; omega)] at hchunk
      rw [← some.inj hchunk]
      exact hrun

theorem pairChunks_chained (fuel : ℕ) : ∀ es : List (Edit α), Chained (pairChunks fuel es) := by
  induction fuel with
  | zero => exact fun es => .nil
  | succ fuel ih =>
    intro es
    cases es with
    | nil => exact .nil
    | cons e es =>
      simp only [pairChunks]
      split
      · exact ih _
      · refine isChain_cons.mpr ⟨fun next hnext => Or.inr ?_, ih _⟩
        exact pairChunks_head fuel (changeRun_rest _) next hnext

theorem chained_equalChunk (n : ℕ) : Chained (equalChunk n) := by
  unfold equalChunk
  split
  · exact .singleton _
  · exact .nil

theorem Chained.surround (h : Chained cs) (m n : ℕ) :
    Chained (equalChunk m ++ cs ++ equalChunk n) := by
  refine isChain_append.mpr ⟨isChain_append.mpr ⟨chained_equalChunk m, h, ?_⟩,
    chained_equalChunk n, ?_⟩
  · intro chunk hchunk next _
    refine Or.inl ?_
    unfold equalChunk at hchunk
    split at hchunk
    · rw [← some.inj hchunk]
      exact ⟨rfl, rfl⟩
    · cases hchunk
  · intro chunk _ next hnext
    refine Or.inr ?_
    unfold equalChunk at hnext
    split at hnext
    · rename_i hn
      rw [← some.inj hnext]
      exact hn
    · cases hnext

end

theorem diffChunks_chained {algorithm : DiffAlgorithm} {left right : List Line}
    (h : diffChunks algorithm left right = some cs) : Chained cs := by
  simp only [diffChunks, bind_eq_bind, bind_eq_some_iff, some.injEq] at h
  obtain ⟨_, -, _, -, edits, -, rfl⟩ := h
  exact (pairChunks_chained _ edits).surround _ _

def SameWords (x y : Line) : Prop :=
  normalizedWithoutWhitespace x = normalizedWithoutWhitespace y

theorem diffChunks_aligned (algorithm : DiffAlgorithm) (left right : List Line) :
    ∃ cs, diffChunks algorithm left right = some cs ∧ Aligned SameWords left right cs := by
  have he := commonEnds_spec left right
  have hl := he.left
  have hr := he.right
  have hh := he.head
  have ht := he.tail
  have hrun : ∀ xs ys : List Line, ∃ es, runDiff algorithm xs ys = some es ∧ Script xs ys es := by
    intro xs ys
    cases algorithm with
    | myers => exact myersEdits_spec xs ys
    | histogram => exact histogramEdits_spec xs ys
  simp only [diffChunks]
  generalize commonEnds left right = ends at *
  obtain ⟨es, hes, hs⟩ := hrun
    ((slice left ends.1 (left.length - ends.2)).map normalizedWithoutWhitespace)
    ((slice right ends.1 (right.length - ends.2)).map normalizedWithoutWhitespace)
  simp only [sliceOf_eq (by omega : ends.1 ≤ left.length - ends.2) (Nat.sub_le _ _),
    sliceOf_eq (by omega : ends.1 ≤ right.length - ends.2) (Nat.sub_le _ _), hes,
    bind_eq_bind, bind_some]
  refine ⟨_, rfl, ?_⟩
  have hmid : Aligned SameWords (slice left ends.1 (left.length - ends.2))
      (slice right ends.1 (right.length - ends.2)) (pairChunks es.length es) :=
    aligned_of_map (pairChunks_aligned es.length hs le_rfl) rfl rfl
  have hsame : ∀ xs ys : List Line, xs = ys → Forall₂ SameWords xs ys := by
    rintro xs _ rfl
    exact (forall₂_eq_self xs).imp fun _ _ h => h ▸ rfl
  have hhead := equalChunk_aligned (hsame _ _ hh)
  have htail := equalChunk_aligned (hsame _ _ ht)
  rw [length_slice (by omega), Nat.sub_zero] at hhead
  rw [length_slice (by omega), Nat.sub_sub_self (by omega)] at htail
  have h := (hhead.append hmid).append htail
  rw [← split_ends left hl, ← split_ends right hr] at h
  exact h

end GitComet.Merge
